import Dtc.Packet.Section

/-!
# The field list of a request

`decode_field_set` keeps the numbers of a section in the `DTCFieldSet` of the job, which has room for
one number more than the table has fields. The number of a field that a client gives by its number is
taken as it is, while `decode_field_value` compares it with `num_fields()`.
-/

namespace Dtc.Packet

open Library Reader List

/-- The memory of a `DTCFieldSet`: the byte with the number of fields it is for, the bytes that were
allocated for numbers, and the numbers that are copied there. -/
structure FieldList where
  maxFields : UInt8
  allocated : Nat
  ids : List UInt8
  room : maxFields.toNat ≤ allocated

namespace FieldList

/-- `DTCFieldSet(idtab, n, total)` -/
def new (idtab : List UInt8) (total : Nat) : FieldList where
  maxFields := .ofNat (min total 255)
  allocated := min total 255
  ids := idtab.take 255
  room := by rw [UInt8.toNat_ofNat']; exact Nat.mod_le ..

/-- `Realloc` -/
def realloc (l : FieldList) (total : Nat) : FieldList where
  maxFields := .ofNat total
  allocated := total
  ids := l.ids
  room := by rw [UInt8.toNat_ofNat']; exact Nat.mod_le ..

/-- `Set` -/
def set (l : FieldList) (idtab : List UInt8) : FieldList := { l with ids := idtab.take 255 }

/-- The end of `decode_field_set`, with the list the job has. -/
def store (t : TableDefinition) (idtab : List UInt8) : Option FieldList → FieldList
  | none => new idtab (t.numFields + 1)
  | some l =>
    (if l.maxFields.toNat < t.numFields + 1 then l.realloc (t.numFields + 1) else l).set idtab

/-- No field twice, all in the table, and all within the memory of the list. -/
def Bounded (t : TableDefinition) (l : FieldList) : Prop :=
  l.ids.Nodup ∧ (∀ id ∈ l.ids, id.toNat ≤ t.numFields) ∧ l.ids.length ≤ l.allocated

end FieldList

/-- `decode_field_set` with the list of the job; a section of no fields leaves it alone. -/
def decodeFieldList (t : TableDefinition) (fieldList : Option FieldList) (bytes : List UInt8) :
    Except ErrorCode (Option FieldList) :=
  match decodeFieldSet t bytes with
  | .error e => .error e
  | .ok ([], _) => .ok none
  | .ok (id :: ids, _) => .ok (some (.store t (id :: ids) fieldList))

/-- The fields given by their numbers are fields of the table. A zero is followed by the length of a
name. -/
def NumbersWithin (n : Nat) : Nat → List UInt8 → Prop
  | k + 1, b :: bin =>
    if b = 0 then NumbersWithin n k (bin.drop (1 + (bin.headD 0).toNat))
    else b.toNat ≤ n ∧ NumbersWithin n k bin
  | _, _ => True

/-- The same for a section, which begins with the number of its fields. -/
def SectionWithin (n : Nat) : List UInt8 → Prop
  | [] => True
  | num :: bin => NumbersWithin n num.toNat bin

/-- The bytes end inside a field, give a name that the table does not have, or go on behind the last
field. -/
def ItemsRefused (t : TableDefinition) : Nat → List UInt8 → Prop
  | 0, bin => bin ≠ []
  | _ + 1, [] => True
  | k + 1, b :: bin =>
    let n := (bin.headD 0).toNat
    if b = 0 then
      bin.length < 1 + n ∨ n ≠ 0 ∧ t.fieldId ((bin.drop 1).take n) = none ∨
        ItemsRefused t k (bin.drop (1 + n))
    else ItemsRefused t k bin

/-- The sections that are refused; behind a number of zero nothing is read. -/
def SectionRefused (t : TableDefinition) : List UInt8 → Prop
  | [] => True
  | num :: bin => num ≠ 0 ∧ ItemsRefused t num.toNat bin

/-- The numbers of a list without duplicates fit where all fields do. -/
theorem length_le_of_within {ids : List UInt8} {n : Nat} (nodup : ids.Nodup)
    (within : ∀ id ∈ ids, id.toNat ≤ n) : ids.length ≤ n + 1 := by
  have sub : ids.map UInt8.toNat ⊆ range (n + 1) := by
    intro x mem
    obtain ⟨id, given, rfl⟩ := mem_map.mp mem
    exact mem_range.mpr (Nat.lt_succ_of_le (within id given))
  have distinct := List.Nodup.map (fun _ _ => UInt8.toNat_inj.mp) nodup
  have le := (List.Nodup.subperm distinct sub).length_le
  rwa [length_map, length_range] at le

/-- The list has room for all fields of the table, as far as a section can name them. -/
theorem FieldList.store_bounded_iff {t : TableDefinition} {ids : List UInt8} (nodup : ids.Nodup)
    (short : ids.length ≤ 255) (fieldList : Option FieldList) :
    (FieldList.store t ids fieldList).Bounded t ↔ ∀ id ∈ ids, id.toNat ≤ t.numFields := by
  have whole : ids.take 255 = ids := take_of_length_le short
  have kept : (FieldList.store t ids fieldList).ids = ids := by
    cases fieldList with
    | none => exact whole
    | some l => exact whole
  have allocated : min (t.numFields + 1) 255 ≤ (FieldList.store t ids fieldList).allocated := by
    cases fieldList with
    | none => exact le_rfl
    | some l =>
      have room := l.room
      rw [FieldList.store, FieldList.set]
      split_ifs
      · exact min_le_left _ _
      · exact (min_le_left _ _).trans (show t.numFields + 1 ≤ l.allocated by omega)
  rw [FieldList.Bounded, kept]
  refine ⟨fun bounded => bounded.2.1, fun within => ⟨nodup, within, ?_⟩⟩
  have fits := length_le_of_within nodup within
  omega

section Decoding
variable {t : TableDefinition} (names : ∀ name id, t.fieldId name = some id → id.toNat ≤ t.numFields)
include names

/-- A field is refused, or what is behind it decides. -/
theorem decodeFieldId_cases (bin : List UInt8) :
    (∃ e, decodeFieldId t bin = .error e ∧ ∀ k, ItemsRefused t (k + 1) bin) ∨
    ∃ id named rest, decodeFieldId t bin = .ok ((id, named), rest) ∧ ∀ k,
      (NumbersWithin t.numFields (k + 1) bin ↔
        id.toNat ≤ t.numFields ∧ NumbersWithin t.numFields k rest) ∧
      (ItemsRefused t (k + 1) bin ↔ ItemsRefused t k rest) := by
  cases bin with
  | nil => exact .inl ⟨_, rfl, fun _ => trivial⟩
  | cons b bin =>
    rw [decodeFieldId, bind_of_ok (a := b) rfl]
    simp only [NumbersWithin, ItemsRefused]
    by_cases zero : b = 0
    · rw [if_neg (not_not.mpr zero)]
      simp only [if_pos zero]
      cases bin with
      | nil => exact .inl ⟨_, rfl, fun _ => .inl Nat.one_pos⟩
      | cons n bin =>
        rw [bind_of_ok (a := n) rfl]
        simp only [headD_cons, length_cons, drop_succ_cons, drop_zero, Nat.add_comm 1]
        by_cases empty : n = 0
        · refine .inr ⟨n, false, bin, by rw [if_pos empty]; rfl, fun k => ?_⟩
          simp [empty]
        · rw [if_neg empty]
          by_cases short : bin.length < n.toNat
          · exact .inl ⟨_, bind_of_error (if_pos short), fun _ => .inl (by omega)⟩
          · rw [bind_of_ok (if_neg short)]
            have named : n.toNat ≠ 0 := fun none => empty (UInt8.toNat_inj.mp none)
            cases found : t.fieldId (bin.take n.toNat) with
            | none => exact .inl ⟨_, rfl, fun _ => .inr (.inl ⟨named, rfl⟩)⟩
            | some id =>
              refine .inr ⟨id, true, _, rfl, fun k => ⟨(and_iff_right (names _ _ found)).symm, ?_⟩⟩
              simp [short]
    · rw [if_pos zero]
      simp only [if_neg zero]
      exact .inr ⟨b, false, bin, rfl, fun _ => ⟨Iff.rfl, Iff.rfl⟩⟩

/-- A field that is there already is skipped, so no field is there twice. -/
theorem decodeFieldIds_within {n : Nat} {ids ids' bin rest : List UInt8} {nd nd' : Bool}
    (ok : decodeFieldIds t n ids nd bin = .ok ((ids', nd'), rest)) (nodup : ids.Nodup) :
    ids'.Nodup ∧ ids'.length ≤ ids.length + n ∧
      ((∀ id ∈ ids', id.toNat ≤ t.numFields) ↔
        (∀ id ∈ ids, id.toNat ≤ t.numFields) ∧ NumbersWithin t.numFields n bin) := by
  induction n generalizing ids nd bin with
  | zero =>
    obtain ⟨result, -⟩ := eq_of_pure_ok ok
    obtain ⟨rfl, -⟩ := Prod.mk.inj result
    exact ⟨nodup, le_rfl, (and_iff_left (by unfold NumbersWithin; trivial)).symm⟩
  | succ n ih =>
    rw [decodeFieldIds] at ok
    obtain ⟨e, failed, -⟩ | ⟨id, named, bin', read, behind⟩ := decodeFieldId_cases names bin
    · rw [bind_of_error failed] at ok
      exact nomatch ok
    rw [bind_of_ok read] at ok
    dsimp only at ok
    have within := (behind n).1
    by_cases known : id ∈ ids
    · rw [if_pos known] at ok
      obtain ⟨nodup', length, all⟩ := ih ok nodup
      refine ⟨nodup', by omega, ?_⟩
      rw [all, within]
      exact and_congr_right fun before => (and_iff_right (before id known)).symm
    · rw [if_neg known] at ok
      have more := List.Nodup.append nodup (nodup_singleton id) (disjoint_singleton.mpr known)
      obtain ⟨nodup', length, all⟩ := ih ok more
      rw [length_append, length_singleton] at length
      refine ⟨nodup', by omega, ?_⟩
      rw [all, within, forall_mem_append, forall_mem_singleton, and_assoc]

/-- The loop reads over all of the bytes unless they are refused. -/
theorem decodeFieldIds_refused {n : Nat} {ids bin : List UInt8} {nd : Bool} :
    (∃ result, decodeFieldIds t n ids nd bin = .ok (result, [])) ↔ ¬ItemsRefused t n bin := by
  induction n generalizing ids nd bin with
  | zero =>
    rw [ItemsRefused, not_not]
    exact ⟨fun ⟨_, ok⟩ => (eq_of_pure_ok ok).2, fun empty => ⟨_, by rw [empty]; rfl⟩⟩
  | succ n ih =>
    rw [decodeFieldIds]
    obtain ⟨e, failed, refused⟩ | ⟨id, named, bin', read, behind⟩ := decodeFieldId_cases names bin
    · rw [bind_of_error failed]
      exact iff_of_false (fun ⟨_, ok⟩ => nomatch ok) (not_not.mpr (refused n))
    · rw [bind_of_ok read, (behind n).2]
      dsimp only
      split_ifs
      · exact ih
      · exact ih

theorem decodeFieldSet_refused (bytes : List UInt8) :
    (∃ e, decodeFieldSet t bytes = .error e) ↔ SectionRefused t bytes := by
  cases bytes with
  | nil => exact iff_of_true ⟨_, rfl⟩ trivial
  | cons num bin =>
    rw [decodeFieldSet, SectionRefused]
    by_cases none : num = 0
    · rw [if_pos none]
      refine iff_of_false (fun failed => ?_) fun refused => refused.1 none
      obtain ⟨_, ok⟩ := failed
      cases ok
    · rw [if_neg none, whole, and_iff_right none, ← not_iff_not, ← decodeFieldIds_refused names]
      cases decodeFieldIds t num.toNat [] false bin with
      | error e => simp
      | ok result => rcases result with ⟨result, _ | _⟩ <;> simp

/-- The numbers of a section that is decoded. -/
theorem decodeFieldSet_within {bytes ids : List UInt8} {nd : Bool}
    (ok : decodeFieldSet t bytes = .ok (ids, nd)) :
    ids.Nodup ∧ ids.length ≤ 255 ∧
      ((∀ id ∈ ids, id.toNat ≤ t.numFields) ↔ SectionWithin t.numFields bytes) := by
  cases bytes with
  | nil => cases ok
  | cons num bin =>
    rw [decodeFieldSet] at ok
    by_cases none : num = 0
    · rw [if_pos none] at ok
      obtain ⟨rfl, -⟩ := Prod.mk.inj (Except.ok.inj ok)
      refine ⟨.nil, Nat.zero_le _, iff_of_true (by simp) ?_⟩
      rw [SectionWithin, none]
      trivial
    · rw [if_neg none, whole] at ok
      split at ok
      · rename_i result read
        obtain rfl := Except.ok.inj ok
        obtain ⟨nodup, length, all⟩ := decodeFieldIds_within names read .nil
        have lt := num.toNat_lt
        exact ⟨nodup, by simpa using length.trans (by simp; omega), all.trans (and_iff_right (by simp))⟩
      · cases ok
      · cases ok

end Decoding

/-- `decode_field_set` fails or leaves a list of fields of the table, none of them twice and within
its memory, exactly for the sections that are refused or give only numbers of the table. -/
theorem decodeFieldList_bounded_iff (t : TableDefinition)
    (names : ∀ name id, t.fieldId name = some id → id.toNat ≤ t.numFields)
    (fieldList : Option FieldList) (bytes : List UInt8) :
    (∀ l, decodeFieldList t fieldList bytes = .ok (some l) → l.Bounded t) ↔
      SectionRefused t bytes ∨ SectionWithin t.numFields bytes := by
  rw [← decodeFieldSet_refused names]
  unfold decodeFieldList
  cases decoded : decodeFieldSet t bytes with
  | error e => exact iff_of_true nofun (.inl ⟨e, rfl⟩)
  | ok result =>
    obtain ⟨ids, nd⟩ := result
    obtain ⟨nodup, short, within⟩ := decodeFieldSet_within names decoded
    cases ids with
    | nil => exact iff_of_true nofun (.inr (within.mp nofun))
    | cons id ids =>
      have stored := FieldList.store_bounded_iff (t := t) nodup short fieldList
      refine ⟨fun all => .inr (within.mp (stored.mp (all _ rfl))), fun holds l ok => ?_⟩
      rcases holds with ⟨e, failed⟩ | good
      · exact nomatch failed
      · obtain rfl := Option.some.inj (Except.ok.inj ok)
        exact stored.mpr (within.mpr good)

/-- A table with the fields 0 and 1, without names. -/
def twoNumbers : TableDefinition :=
  ⟨⟨1, 1, 4, fun _ => ⟨.signed, 4, false⟩⟩, fun _ => false, fun _ => none⟩

theorem decodeFieldList_bounded_pair :
    decodeFieldList twoNumbers none [2, 1, 0, 0] = .ok (some (.store twoNumbers [1, 0] none)) ∧
      (FieldList.store twoNumbers [1, 0] none).Bounded twoNumbers :=
  ⟨rfl, (decodeFieldList_bounded_iff twoNumbers nofun none [2, 1, 0, 0]).mpr
    (.inr (by simp [SectionWithin, NumbersWithin, twoNumbers])) _ rfl⟩

/-- Three numbers that are no fields are copied to memory for two. -/
theorem decodeFieldList_overruns :
    ∃ l, decodeFieldList twoNumbers none [3, 5, 6, 7] = .ok (some l) ∧
      l.ids = [5, 6, 7] ∧ l.allocated = 2 ∧ ¬l.Bounded twoNumbers :=
  ⟨.store twoNumbers [5, 6, 7] none, rfl, rfl, rfl, fun bounded => absurd bounded.2.2 (by decide)⟩

end Dtc.Packet
