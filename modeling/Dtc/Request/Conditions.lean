import Dtc.Request.Decode

/-!
# The rows a decoded statement is about

What the job of a statement matches is compared with what its `WHERE` clause says. Both are
a choice of values for every field on its own, so the two agree if and only if they agree
on each field or both choose nothing.
-/

namespace Dtc.Request

open Raw Sql List TableDefinition

/-- Two products of sets are equal if their factors are, or both are empty. -/
theorem pi_eq_pi_iff {ι α : Type} [Nonempty α] {s : Set ι} {t₁ t₂ : ι → Set α} :
    s.pi t₁ = s.pi t₂ ↔ (∀ i ∈ s, t₁ i = t₂ i) ∨ (∃ i ∈ s, t₁ i = ∅) ∧ ∃ i ∈ s, t₂ i = ∅ := by
  constructor
  · intro same
    rcases (s.pi t₁).eq_empty_or_nonempty with empty | nonempty
    · exact .inr ⟨Set.pi_eq_empty_iff'.mp empty, Set.pi_eq_empty_iff'.mp (same ▸ empty)⟩
    · refine .inl fun i mem => ?_
      rw [← Set.eval_image_pi mem nonempty, same, Set.eval_image_pi mem (same ▸ nonempty)]
  · rintro (same | ⟨first, second⟩)
    · exact Set.pi_congr rfl same
    · rw [Set.pi_eq_empty_iff'.mpr first, Set.pi_eq_empty_iff'.mpr second]

/-- The comparison that the number of a condition stands for. -/
def comparator : Nat → OperatorType
  | 0 => .equals
  | 1 => .notEquals
  | 2 => .less
  | 3 => .lessEq
  | 4 => .greater
  | 5 => .greaterEq
  | _ => .none

section Meaning
variable {F : Type} [LinearOrder F] [IntCast F]

/-- The values a row can have in a field. -/
def Field.Admits (f : Field) : Value F → Prop
  | .int v =>
    f.fieldType = .signed ∧ -2 ^ (8 * f.fieldSize - 1) ≤ v ∧ v < 2 ^ (8 * f.fieldSize - 1) ∨
      f.fieldType = .unsigned ∧ 0 ≤ v ∧ v < 2 ^ (8 * f.fieldSize)
  | .float _ => f.fieldType = .float
  | .string v => (f.fieldType = .string ∨ f.fieldType = .binary) ∧ v.length ≤ f.fieldSize
  | .null => False

/-- A value of the field meets a comparison. Strings are compared without case, binary data
as it is; a string is not comparable with a number. -/
def Field.Meets (f : Field) (op : OperatorType) : Value F → Value F → Prop
  | .int v, .int w => op.Compare v w
  | .float v, .float w => op.Compare v w
  | .int v, .float w => op.Compare (v : F) w
  | .float v, .int w => op.Compare v (w : F)
  | .string v, .string w =>
    if f.fieldType = .binary then op.Compare v w else op.Compare (foldCase v) (foldCase w)
  | _, _ => False

namespace TableDefinition
variable (t : TableDefinition)

/-- A row of the table, by field number. -/
def Admits (row : Nat → Value F) : Prop :=
  ∀ id f, t.field? id = some f → f.Admits (row id)

/-- The row satisfies an `AND` tree of comparisons. -/
def Satisfies (row : Nat → Value F) : Expr F → Prop
  | .binary .and l r => Satisfies row l ∧ Satisfies row r
  | .binary op (.columnRef name) literal =>
    ∃ id f w, t.fieldId name = some id ∧ t.field? id = some f ∧ makeValue literal = some w ∧
      f.Meets op (row id) w
  | _ => False

/-- The row has the key and meets the conditions of the job. -/
def Matches (key : Value F) (conditionInfo : List (FieldValue F)) (row : Nat → Value F) : Prop :=
  t.keyField.Meets .equals (row 0) key ∧
    ∀ v ∈ conditionInfo, ∃ f, t.field? v.id = some f ∧ f.Meets (comparator v.oper) (row v.id) v.val

/-- The request is refused, or the job is about the rows of the `WHERE` clause. -/
def DecodesFaithfully (bits : F → BitVec 64) (where_ : Expr F) : Prop :=
  ∃ job, decodeRequestV2 t where_ = some job ∧
    ((∃ error, buildPackedKey bits t job = .error (.refused error)) ∨
      ∃ key, buildPackedKey bits t job = .ok key ∧
        ∀ row, t.Admits row → (t.Matches key job.conditionInfo row ↔ t.Satisfies row where_))

end TableDefinition

end Meaning

/-- A comparison of a clause: a field with the value of a literal. -/
structure Comparison (F : Type) where
  column : List UInt8
  op : OperatorType
  value : Value F

section Clause
variable {F : Type}

/-- An `AND` tree of comparisons between a column and a literal. -/
inductive IsAndTree : Expr F → Prop
  | comparison {op : OperatorType} {column : List UInt8} {literal : Expr F} {value : Value F} :
      op.IsComparison → makeValue literal = some value →
      IsAndTree (.binary op (.columnRef column) literal)
  | and {l r : Expr F} : IsAndTree l → IsAndTree r → IsAndTree (.binary .and l r)

def comparison? : Expr F → Option (Comparison F)
  | .binary op (.columnRef column) literal =>
    (makeValue literal).map fun value => ⟨column, op, value⟩
  | _ => none

/-- The comparisons of a clause. -/
def comparisons (where_ : Expr F) : List (Comparison F) :=
  (buildConditionFields where_ none).filterMap comparison?

theorem buildConditionFields_literal {literal : Expr F} {value : Value F}
    (made : makeValue literal = some value) : buildConditionFields literal none = [] := by
  cases literal <;> simp_all [makeValue, buildConditionFields]

theorem buildConditionFields_comparison {op : OperatorType} {column : List UInt8}
    {literal : Expr F} {value : Value F} (comparison : op.IsComparison)
    (made : makeValue literal = some value) (parent : Option (Expr F)) :
    buildConditionFields (.binary op (.columnRef column) literal) parent =
      [.binary op (.columnRef column) literal] := by
  simp [buildConditionFields, comparison, buildConditionFields_literal made]

theorem buildConditionFields_parent {e : Expr F} (tree : IsAndTree e) (parent : Option (Expr F)) :
    buildConditionFields e parent = buildConditionFields e none := by
  cases tree with
  | comparison comparison made =>
    rw [buildConditionFields_comparison comparison made,
      buildConditionFields_comparison comparison made]
  | and => rfl

theorem buildConditionFields_and {l r : Expr F} (left : IsAndTree l) :
    buildConditionFields (.binary .and l r) none =
      buildConditionFields l none ++ buildConditionFields r none := by
  rw [buildConditionFields, buildConditionFields_parent left]
  simp

variable {where_ : Expr F}

/-- A comparison of a column with a literal. -/
def IsLeaf (e : Expr F) : Prop :=
  ∃ op column literal value, e = .binary op (.columnRef column) literal ∧
    makeValue literal = some value

/-- The walk collects comparisons, and nothing else. -/
theorem mem_buildConditionFields {e : Expr F} (tree : IsAndTree where_)
    (mem : e ∈ buildConditionFields where_ none) : IsLeaf e := by
  induction tree with
  | @comparison op column literal value comparison made =>
    rw [buildConditionFields_comparison comparison made] at mem
    exact ⟨op, column, literal, value, mem_singleton.mp mem, made⟩
  | and left right ihl ihr =>
    rw [buildConditionFields_and left] at mem
    rcases mem_append.mp mem with mem | mem
    · exact ihl mem
    · exact ihr mem

theorem length_filterMap_comparison? {exprList : List (Expr F)}
    (leaves : ∀ e ∈ exprList, IsLeaf e) :
    (exprList.filterMap comparison?).length = exprList.length := by
  induction exprList with
  | nil => rfl
  | cons e exprList ih =>
    obtain ⟨⟨op, column, literal, value, rfl, made⟩, rest⟩ := forall_mem_cons.mp leaves
    simp [comparison?, made, ih rest]

theorem comparisons_length_pos (tree : IsAndTree where_) : 0 < (comparisons where_).length := by
  induction tree with
  | comparison comparison made =>
    simp [comparisons, buildConditionFields_comparison comparison made, comparison?, made]
  | and left right ihl ihr =>
    rw [comparisons, buildConditionFields_and left, filterMap_append, length_append]
    exact Nat.add_pos_left ihl _

/-- The walk misses no comparison. -/
theorem satisfies_iff [LinearOrder F] [IntCast F] {t : TableDefinition} {row : Nat → Value F}
    (tree : IsAndTree where_) :
    t.Satisfies row where_ ↔ ∀ c ∈ comparisons where_, ∃ id f, t.fieldId c.column = some id ∧
      t.field? id = some f ∧ f.Meets c.op (row id) c.value := by
  induction tree with
  | @comparison op column literal value comparison made =>
    have : op ≠ .and := by
      rcases comparison with rfl | rfl | rfl | rfl | rfl | rfl <;> decide
    rw [Satisfies]
    · simp [comparisons, buildConditionFields_comparison comparison made, comparison?, made]
    · exact this
  | and left right ihl ihr =>
    rw [Satisfies, ihl, ihr, comparisons, comparisons, comparisons,
      buildConditionFields_and left, filterMap_append]
    simp only [mem_append, or_imp, forall_and]

end Clause

section Conditions
variable {F : Type}

/-- The value has the type that `build_field_type_r` asks for. -/
def Field.agrees (f : Field) : Value F → Bool
  | .int _ => f.fieldType = .signed
  | .float _ => f.fieldType = .float
  | .string _ => f.fieldType = .string ∨ f.fieldType = .binary
  | .null => false

namespace TableDefinition
variable (t : TableDefinition)

/-- The comparison becomes a condition of the job. -/
def keeps (c : Comparison F) : Bool :=
  c.column ≠ t.keyField.name && (t.fieldNamed c.column).any (·.agrees c.value)

/-- The value of a condition can be resolved. -/
def fits (c : Comparison F) : Bool :=
  (t.fieldNamed c.column).any fun f => f.fieldType ≠ .float && f.takes c.value

/-- The comparisons that become conditions, as equalities. -/
def conditions (cs : List (Comparison F)) : List (Comparison F) :=
  if 1 < cs.length then (cs.filter t.keeps).take 255 else []

/-- Nothing outside the field list is read. -/
def Readable (cs : List (Comparison F)) : Prop :=
  1 < cs.length → (∀ c ∈ cs, (t.fieldNamed c.column).isSome) ∧ ∀ c ∈ t.conditions cs, t.fits c

/-- The type of the field with a name. -/
def typeNamed (name : List UInt8) : DField :=
  ((t.fieldNamed name).map fun f => f.fieldType).getD .none

def namedValue (c : Comparison F) : NamedValue F :=
  ⟨c.column, set, t.typeNamed c.column, c.value⟩

def resolved (c : Comparison F) : FieldValue F :=
  ⟨(t.fieldId c.column).getD 0, set, t.typeNamed c.column, c.value⟩

theorem fields_eq : t.fields = t.keyField :: (range' 1 t.numFields).map t.fieldOf := by
  rw [fields, range_eq_range', range'_succ, map_cons]
  rfl

theorem field?_invalid : t.field? invalidFieldId = none := by
  have := t.bounded
  refine getElem?_eq_none ?_
  rw [fields, length_map, length_range]
  unfold invalidFieldId
  omega

theorem fieldId_keyName : t.fieldId t.keyField.name = some 0 := by
  simp [fieldId, fields_eq, findIdx?_cons]

theorem field?_zero : t.field? 0 = some t.keyField := by
  simp [field?, fields_eq]

theorem fieldNamed_keyName : t.fieldNamed t.keyField.name = some t.keyField := by
  simp [fieldNamed, fieldId_keyName, field?_zero]

end TableDefinition

variable {t : TableDefinition}

theorem foldl_addValue {ci vs : List (NamedValue F)} (short : ci.length ≤ 255) :
    vs.foldl addValue ci = (ci ++ vs).take 255 := by
  induction vs generalizing ci with
  | nil => simp [take_of_length_le short]
  | cons v vs ih =>
    rw [foldl_cons, addValue]
    split_ifs with full
    · rw [ih short, take_append_of_le_length (by omega), take_append_of_le_length (by omega)]
    · rw [ih (by simp; omega)]
      simp

theorem buildFieldTypeR_eq {literal : Expr F} {value : Value F} (made : makeValue literal = some value)
    (f : Field) :
    buildFieldTypeR literal f.fieldType = if f.agrees value then some f.fieldType else none := by
  cases literal <;> cases made <;> simp [buildFieldTypeR, Field.agrees]

/-- What the loop over the comparisons adds to the list. -/
theorem collect_eq_some_iff {exprList : List (Expr F)} {ci ci' : List (NamedValue F)}
    (leaves : ∀ e ∈ exprList, IsLeaf e) :
    collect t exprList ci = some ci' ↔
      (∀ c ∈ exprList.filterMap comparison?, (t.fieldNamed c.column).isSome) ∧
        (((exprList.filterMap comparison?).filter t.keeps).map t.namedValue).foldl addValue ci =
          ci' := by
  induction exprList generalizing ci with
  | nil => simp [collect]
  | cons e exprList ih =>
    obtain ⟨⟨op, column, literal, value, rfl, made⟩, rest⟩ := forall_mem_cons.mp leaves
    have first : comparison? (.binary op (.columnRef column) literal) =
        some ⟨column, op, value⟩ := by simp [comparison?, made]
    rw [collect, filterMap_cons_some first, forall_mem_cons]
    by_cases isKey : column = t.keyField.name
    · have skipped : t.keeps ⟨column, op, value⟩ = false := by
        simp [keeps, isKey]
      rw [if_pos isKey, ih rest, filter_cons_of_neg (by simp [skipped])]
      simp [isKey, t.fieldNamed_keyName]
    · rw [if_neg isKey]
      match known : t.fieldNamed column with
      | none => simp
      | some f =>
        by_cases agrees : f.agrees value = true
        · have kept : t.keeps ⟨column, op, value⟩ = true := by
            simp [keeps, isKey, known, agrees]
          rw [filter_cons_of_pos kept, map_cons, foldl_cons]
          simp [buildFieldTypeR_eq made, agrees, made, ih rest, namedValue, typeNamed, known]
        · have skipped : t.keeps ⟨column, op, value⟩ = false := by
            simp [keeps, known, agrees]
          rw [filter_cons_of_neg (by simp [skipped])]
          simp [buildFieldTypeR_eq made, agrees, ih rest]

variable {rq : List (FieldValue F)}

theorem copy_invalid {v : FieldValue F} (invalid : v.id = invalidFieldId) :
    copy t (v :: rq) = none := by
  simp [copy, invalid, t.field?_invalid]

theorem fieldNamed_eq_some {name : List UInt8} {f : Field} (known : t.fieldNamed name = some f) :
    ∃ id, t.fieldId name = some id ∧ t.field? id = some f :=
  Option.bind_eq_some_iff.mp known

variable {c : Comparison F}

theorem keeps_iff :
    t.keeps c = true ↔
      c.column ≠ t.keyField.name ∧ ∃ f, t.fieldNamed c.column = some f ∧ f.agrees c.value = true := by
  simp [keeps, Option.any_eq_true]

theorem fits_iff :
    t.fits c = true ↔
      ∃ f, t.fieldNamed c.column = some f ∧ f.fieldType ≠ .float ∧ f.takes c.value = true := by
  simp [fits, Option.any_eq_true]

theorem Field.typed (f : Field) : f.fieldType ≠ .none := by
  intro none
  have valid := f.valid
  rw [Key.Valid, none] at valid
  exact valid

/-- A condition that is resolved is copied. -/
theorem copy_resolved {f : Field} (known : t.fieldNamed c.column = some f)
    (noFloat : f.fieldType ≠ .float) :
    copy t (t.resolved c :: rq) = (copy t rq).map (t.resolved c :: ·) := by
  obtain ⟨id, isId, isField⟩ := fieldNamed_eq_some known
  have type : t.typeNamed c.column = f.fieldType := by simp [typeNamed, known]
  have typed := f.typed
  simp only [copy, resolved, isId, Option.getD_some, isField, type,
    Option.bind_eq_bind, Option.bind_some]
  match isType : f.fieldType with
  | .none => exact absurd isType typed
  | .float => exact absurd isType noFloat
  | .signed | .unsigned | .string | .binary =>
    simp [set, Packet.validcomps, Packet.validxtype, Option.map_eq_bind]

/-- The values of kept comparisons that all fit become the condition list. -/
theorem copy_resolve_eq_some_iff {cs : List (Comparison F)} (kept : ∀ c ∈ cs, t.keeps c = true) :
    copy t (resolve t (cs.map t.namedValue)) = some rq ↔
      (∀ c ∈ cs, t.fits c = true) ∧ cs.map t.resolved = rq := by
  induction cs generalizing rq with
  | nil => simp [resolve, copy]
  | cons c cs ih =>
    obtain ⟨first, rest⟩ := forall_mem_cons.mp kept
    obtain ⟨-, f, known, -⟩ := keeps_iff.mp first
    obtain ⟨id, isId, isField⟩ := fieldNamed_eq_some known
    rw [map_cons, resolve, forall_mem_cons]
    have name : (t.namedValue c).name = c.column := rfl
    have value : (t.namedValue c).val = c.value := rfl
    simp only [name, value, isId, known]
    by_cases fits : f.fieldType ≠ .float ∧ f.takes c.value = true
    · have fitsFirst : t.fits c = true := fits_iff.mpr ⟨f, known, fits⟩
      have same : (⟨id, (t.namedValue c).oper, (t.namedValue c).type, c.value⟩ :
          FieldValue F) = t.resolved c := by
        simp [resolved, namedValue, isId]
      rw [if_neg fits.1, if_pos fits.2, same, copy_resolved known fits.1]
      match tail : copy t (resolve t (cs.map t.namedValue)) with
      | none =>
        have missing : ¬ ∀ c ∈ cs, t.fits c = true := by
          intro all
          have := (ih rest).mpr ⟨all, rfl⟩
          rw [tail] at this
          cases this
        simp [missing]
      | some rq' =>
        obtain ⟨restFits, rfl⟩ := (ih rest).mp tail
        simpa [fitsFirst] using fun _ => restFits
    · have misfits : ¬ t.fits c = true := by
        rw [fits_iff]
        rintro ⟨f', known', fits'⟩
        rw [known, Option.some.injEq] at known'
        exact fits (known' ▸ fits')
      split_ifs with isFloat takes
      · rw [copy_invalid rfl]
        simp [misfits]
      · exact absurd ⟨isFloat, takes⟩ fits
      · rw [copy_invalid rfl]
        simp [misfits]

theorem conditions_subset {cs : List (Comparison F)} (mem : c ∈ t.conditions cs) : c ∈ cs := by
  unfold conditions at mem
  split_ifs at mem
  · exact (mem_filter.mp (mem_of_mem_take mem)).1
  · cases mem

/-- What a clause is decoded to. -/
theorem decodeRequestV2_eq_some_iff {where_ : Expr F} (tree : IsAndTree where_) {job : Job F} :
    decodeRequestV2 t where_ = some job ↔
      t.Readable (comparisons where_) ∧ job.key = getKey t.keyField.name where_ ∧
        job.conditionInfo = (t.conditions (comparisons where_)).map t.resolved := by
  have leaves : ∀ e ∈ buildConditionFields where_ none, IsLeaf e :=
    fun e mem => mem_buildConditionFields tree mem
  have count : (buildConditionFields where_ none).length = (comparisons where_).length :=
    (length_filterMap_comparison? leaves).symm
  have kept : ∀ c ∈ ((comparisons where_).filter t.keeps).take 255, t.keeps c = true :=
    fun c mem => (mem_filter.mp (mem_of_mem_take mem)).2
  obtain ⟨key, conditionInfo⟩ := job
  rw [decodeRequestV2, count, Readable, conditions]
  by_cases several : 1 < (comparisons where_).length
  · rw [if_pos several, if_pos several]
    constructor
    · intro decoded
      obtain ⟨ci, collected, decoded⟩ := Option.bind_eq_some_iff.mp decoded
      obtain ⟨rq, copied, decoded⟩ := Option.bind_eq_some_iff.mp decoded
      obtain ⟨known, rfl⟩ := (collect_eq_some_iff leaves).mp collected
      rw [foldl_addValue (by simp), nil_append, ← map_take] at copied
      obtain ⟨fits, rfl⟩ := (copy_resolve_eq_some_iff kept).mp copied
      cases decoded
      exact ⟨fun _ => ⟨known, fits⟩, rfl, rfl⟩
    · rintro ⟨readable, rfl, rfl⟩
      obtain ⟨known, fits⟩ := readable several
      have collected : collect t (buildConditionFields where_ none) [] = some _ :=
        (collect_eq_some_iff leaves).mpr ⟨known, rfl⟩
      rw [foldl_addValue (by simp), nil_append, ← map_take] at collected
      have copied := (copy_resolve_eq_some_iff kept).mpr ⟨fits, rfl⟩
      exact Option.bind_eq_some_iff.mpr ⟨_, collected, Option.bind_eq_some_iff.mpr ⟨_, copied, rfl⟩⟩
  · rw [if_neg several, if_neg several]
    constructor
    · intro decoded
      cases decoded
      exact ⟨fun absurd' => absurd absurd' several, rfl, rfl⟩
    · rintro ⟨-, rfl, rfl⟩
      rfl

/-- A value that every row may have in a field. -/
def Field.default [Inhabited F] (f : Field) : Value F :=
  match f.fieldType with
  | .signed | .unsigned => .int 0
  | .float => .float Inhabited.default
  | _ => .string []

theorem Field.admits_default [Inhabited F] (f : Field) : f.Admits (f.default : Value F) := by
  unfold Field.default
  match type : f.fieldType with
  | .none => exact absurd type f.typed
  | .signed =>
    have : (0 : Int) < 2 ^ (8 * f.fieldSize - 1) := Int.pow_pos (by decide)
    exact .inl ⟨type, by omega, this⟩
  | .unsigned => exact .inr ⟨type, le_refl 0, Int.pow_pos (by decide)⟩
  | .float => exact type
  | .string => exact ⟨.inl type, Nat.zero_le _⟩
  | .binary => exact ⟨.inr type, Nat.zero_le _⟩

end Conditions

section Faithful
variable {F : Type} [LinearOrder F] [IntCast F] {t : TableDefinition}

namespace TableDefinition
variable (t)

/-- The values of one field that the comparisons of a clause allow. -/
def Selected (cs : List (Comparison F)) (id : Nat) : Set (Value F) :=
  {v | ∀ f, t.field? id = some f → f.Admits v ∧
    ∀ c ∈ cs, t.fieldId c.column = some id → f.Meets c.op v c.value}

/-- The values of one field that a key and equalities with some of the literals allow. -/
def Taken (key : Value F) (cs : List (Comparison F)) (id : Nat) : Set (Value F) :=
  {v | ∀ f, t.field? id = some f → f.Admits v ∧ (id = 0 → f.Meets .equals v key) ∧
    ∀ c ∈ cs, t.fieldId c.column = some id → f.Meets .equals v c.value}

/-- The field numbers of the table. -/
def ids : Set Nat := {id | id < t.fields.length}

theorem mem_ids {id : Nat} : id ∈ t.ids ↔ ∃ f, t.field? id = some f := by
  constructor
  · intro mem
    exact ⟨_, getElem?_eq_getElem mem⟩
  · rintro ⟨f, isField⟩
    exact (List.getElem?_eq_some_iff.mp isField).1

end TableDefinition

variable {cs : List (Comparison F)} {key : Value F}

/-- The rows that satisfy the comparisons, field by field. -/
theorem mem_pi_selected {row : Nat → Value F} (known : ∀ c ∈ cs, (t.fieldNamed c.column).isSome) :
    row ∈ t.ids.pi (t.Selected cs) ↔ t.Admits row ∧ ∀ c ∈ cs, ∃ id f,
      t.fieldId c.column = some id ∧ t.field? id = some f ∧ f.Meets c.op (row id) c.value := by
  constructor
  · intro mem
    refine ⟨fun id f isField => (mem id (t.mem_ids.mpr ⟨f, isField⟩) f isField).1, ?_⟩
    intro c cMem
    obtain ⟨f, isNamed⟩ := Option.isSome_iff_exists.mp (known c cMem)
    obtain ⟨id, isId, isField⟩ := fieldNamed_eq_some isNamed
    exact ⟨id, f, isId, isField, (mem id (t.mem_ids.mpr ⟨f, isField⟩) f isField).2 c cMem isId⟩
  · rintro ⟨admits, meets⟩ id - f isField
    refine ⟨admits id f isField, fun c cMem isId => ?_⟩
    obtain ⟨id', f', isId', isField', cMeets⟩ := meets c cMem
    obtain rfl : id' = id := by simpa [isId] using isId'.symm
    obtain rfl : f' = f := by simpa [isField] using isField'.symm
    exact cMeets

/-- The rows that a job matches, field by field. -/
theorem mem_pi_taken {row : Nat → Value F} (known : ∀ c ∈ cs, (t.fieldNamed c.column).isSome) :
    row ∈ t.ids.pi (t.Taken key cs) ↔ t.Admits row ∧ t.Matches key (cs.map t.resolved) row := by
  constructor
  · intro mem
    refine ⟨fun id f isField => (mem id (t.mem_ids.mpr ⟨f, isField⟩) f isField).1, ?_, ?_⟩
    · exact (mem 0 (t.mem_ids.mpr ⟨_, t.field?_zero⟩) _ t.field?_zero).2.1 rfl
    · intro v vMem
      obtain ⟨c, cMem, rfl⟩ := mem_map.mp vMem
      obtain ⟨f, isNamed⟩ := Option.isSome_iff_exists.mp (known c cMem)
      obtain ⟨id, isId, isField⟩ := fieldNamed_eq_some isNamed
      refine ⟨f, by simpa [resolved, isId] using isField, ?_⟩
      simpa [resolved, isId, comparator, set] using
        (mem id (t.mem_ids.mpr ⟨f, isField⟩) f isField).2.2 c cMem isId
  · rintro ⟨admits, keyMeets, meets⟩ id - f isField
    refine ⟨admits id f isField, ?_, fun c cMem isId => ?_⟩
    · rintro rfl
      obtain rfl : t.keyField = f := by simpa [t.field?_zero] using isField
      exact keyMeets
    · obtain ⟨f', isField', cMeets⟩ := meets _ (mem_map_of_mem cMem)
      simp only [resolved, isId, Option.getD_some] at isField' cMeets
      obtain rfl : f' = f := by simpa [isField] using isField'.symm
      exact cMeets

omit [LinearOrder F] [IntCast F] in
/-- A job without a key is packed only for the empty string. -/
theorem buildPackedKey_none {bits : F → BitVec 64} {conditionInfo : List (FieldValue F)}
    (packed : buildPackedKey bits t ⟨none, conditionInfo⟩ = .ok key) :
    (t.keyField.fieldType = .string ∨ t.keyField.fieldType = .binary) ∧ key = .string [] := by
  unfold buildPackedKey at packed
  split_ifs at packed with text single
  · exact ⟨t.textKey.mp text, (Except.ok.inj packed).symm⟩
  · exact nomatch packed
  · exact nomatch packed

/-- A clause on an unknown column selects no row, but may be decoded to a job with an empty
key. -/
theorem exists_matches_of_unknown [Inhabited F] {bits : F → BitVec 64} {where_ : Expr F}
    (tree : IsAndTree where_) (readable : t.Readable (comparisons where_))
    (isKey : buildPackedKey bits t ⟨getKey t.keyField.name where_,
      (t.conditions (comparisons where_)).map t.resolved⟩ = .ok key)
    (unknown : ¬ ∀ c ∈ comparisons where_, (t.fieldNamed c.column).isSome) :
    ∃ row, t.Admits row ∧ t.Matches key ((t.conditions (comparisons where_)).map t.resolved) row ∧
      ¬ t.Satisfies row where_ := by
  have few : ¬ 1 < (comparisons where_).length := fun several => unknown (readable several).1
  cases tree with
  | and left right =>
    have first := comparisons_length_pos left
    have second := comparisons_length_pos right
    rw [comparisons, buildConditionFields_and left, filterMap_append, length_append] at few
    exact absurd (Nat.add_lt_add_of_le_of_lt first second) few
  | @comparison op column literal value comparison made =>
    have list : comparisons (.binary op (.columnRef column) literal) =
        [⟨column, op, value⟩] := by
      simp [comparisons, buildConditionFields_comparison comparison made, comparison?, made]
    have unnamed : t.fieldNamed column = none := by simpa [list] using unknown
    have noKey : getKey t.keyField.name (.binary op (.columnRef column) literal) = none := by
      have : column ≠ t.keyField.name := by
        rintro rfl
        simp [t.fieldNamed_keyName] at unnamed
      rcases comparison with rfl | rfl | rfl | rfl | rfl | rfl <;> simp [getKey, this]
    rw [noKey] at isKey
    obtain ⟨text, rfl⟩ := buildPackedKey_none isKey
    refine ⟨fun id => (t.field? id).elim .null Field.default, ?_, ⟨?_, ?_⟩, ?_⟩
    · intro id f isField
      simpa [isField] using f.admits_default
    · rcases text with text | text <;>
        simp [t.field?_zero, Field.default, text, Field.Meets, OperatorType.Compare]
    · simp [conditions, list]
    · rw [satisfies_iff (.comparison comparison made), list]
      intro satisfied
      obtain ⟨id, f, isId, isField, -⟩ := satisfied _ (mem_singleton.mpr rfl)
      simp [fieldNamed, isId, isField] at unnamed

namespace TableDefinition
variable (t)

/-- The key and the literals that are kept allow, field by field, what the comparisons allow;
or neither allows any row. -/
def Agrees (key : Value F) (cs : List (Comparison F)) : Prop :=
  (∀ c ∈ cs, (t.fieldNamed c.column).isSome) ∧
    ((∀ id ∈ t.ids, t.Taken key (t.conditions cs) id = t.Selected cs id) ∨
      (∃ id ∈ t.ids, t.Taken key (t.conditions cs) id = ∅) ∧ ∃ id ∈ t.ids, t.Selected cs id = ∅)

end TableDefinition

/-- Statements that are decoded as meant: equalities only, one key, and every other
comparison becomes a condition. -/
theorem agrees_of_equals {cs : List (Comparison F)}
    (known : ∀ c ∈ cs, (t.fieldNamed c.column).isSome) (equals : ∀ c ∈ cs, c.op = .equals)
    (keyed : ∃ c ∈ cs, c.column = t.keyField.name)
    (oneKey : ∀ c ∈ cs, c.column = t.keyField.name → c.value = key)
    (kept : ∀ c ∈ cs, c.column ≠ t.keyField.name → c ∈ t.conditions cs) : t.Agrees key cs := by
  refine ⟨known, .inl fun id _ => Set.ext fun v => forall_congr' fun f => forall_congr' fun isField =>
    and_congr_right fun _ => ⟨?_, ?_⟩⟩
  · rintro ⟨keyMeets, meets⟩ c mem isId
    rw [equals c mem]
    by_cases isKey : c.column = t.keyField.name
    · rw [isKey, t.fieldId_keyName, Option.some.injEq] at isId
      rw [oneKey c mem isKey]
      exact keyMeets isId.symm
    · exact meets c (kept c mem isKey) isId
  · intro meets
    refine ⟨?_, fun c mem isId => ?_⟩
    · rintro rfl
      obtain ⟨c, mem, isKey⟩ := keyed
      have := meets c mem (by rw [isKey, t.fieldId_keyName])
      rwa [equals c mem, oneKey c mem isKey] at this
    · have mem := conditions_subset mem
      have := meets c mem isId
      rwa [equals c mem] at this

end Faithful

/-- A key `k` and two fields `a` and `b`, the last without sign. -/
def threeFields : TableDefinition where
  keyFields := 1
  numFields := 2
  keyFormat := 4
  field := fun id => ⟨if id = 2 then .unsigned else .signed, 4, false⟩
  valid := fun id => by
    unfold Key.Valid
    dsimp only
    split_ifs <;> decide
  offset := fun _ => 0
  maxKeySize := 4
  name := fun id => if id = 0 then [107] else if id = 1 then [97] else [98]
  bounded := by decide
  named := by decide
  textKey := by decide

/-- A number that does not fit the key is refused. -/
example : threeFields.DecodesFaithfully (F := Int) (.ofInt 64)
    (.binary .notEquals (.columnRef [107]) (.literalInt 5000000000)) :=
  ⟨_, rfl, .inl ⟨.intOverflow, rfl⟩⟩

end Dtc.Request
