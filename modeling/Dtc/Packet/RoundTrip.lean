import Dtc.Packet.Section

/-!
# Sections are read back

What an encoder of a section writes is as long as announced and is read back by the
decoder, up to what the decoders do on purpose: a `NULL` string becomes the empty one, a
field set drops repeated fields, a list of field values must pass the checks of the table.
The exception is a field set with the key in it more than once, or with a mask that was
not cleared: the announced size counts the key by the mask, the encoder by its occurrences.
-/

namespace Dtc.Packet

open Library Reader Raw List SimpleSection Reads Function

variable {φ : Type} {F : FloatText φ}

theorem toNat_ofNat_of_lt {n : Nat} (bound : n < 256) : (UInt8.ofNat n).toNat = n := by
  exact Nat.mod_eq_of_lt bound

/-! ### Simple sections -/

namespace SimpleSection
variable {d : SectionDefinition} {kt : DField}

/-- The section with its values as the decoder gives them back. -/
def decoded (s : SimpleSection φ d kt) : SimpleSection φ d kt :=
  { s with tagValue := fun id => (s.tagValue id).map Value.decoded }

/-- The section that a sequence of `set_tag` calls makes. -/
def ofTags (tags : List ((id : Nat) × Value φ (d.type kt id))) : SimpleSection φ d kt :=
  tags.foldl (fun s tag => s.setTag tag.1 tag.2) new

/-- The tags that are set have a type and a place, and `numTags` counts them. -/
structure Built (s : SimpleSection φ d kt) : Prop where
  placed : ∀ id, (s.tagValue id).isSome → id < 20 ∧ id ≤ d.maxTags ∧ d.type kt id ≠ .none
  numTags : s.numTags = (List.range (d.maxTags + 1)).countP fun id => (s.tagValue id).isSome

end SimpleSection

/-- If a section has a key, the table says of which type. -/
def SectionDefinition.Keyed (d : SectionDefinition) (kt : DField) : Prop :=
  d.tagType.getD 0 .none ≠ .none → kt ≠ .none

/-- Every tag with a type has a place. -/
def SectionDefinition.Sound (d : SectionDefinition) : Prop :=
  d.tagType.length ≤ 20 ∧ d.tagType.length ≤ d.maxTags + 1

theorem versionInfoDefinition_sound : versionInfoDefinition.Sound :=
  ⟨by decide, by decide⟩

theorem requestInfoDefinition_sound : requestInfoDefinition.Sound :=
  ⟨by decide, by decide⟩

theorem resultInfoDefinition_sound : resultInfoDefinition.Sound :=
  ⟨by decide, by decide⟩

/-- Counting one element more. -/
theorem countP_update {is : List Nat} (nodup : is.Nodup) {p q : Nat → Bool} {i : Nat} (mem : i ∈ is)
    (before : p i = false) (after : q i = true) (same : ∀ j, j ≠ i → q j = p j) :
    is.countP q = is.countP p + 1 := by
  induction is with
  | nil => cases mem
  | cons j is ih =>
    rw [nodup_cons] at nodup
    rcases mem_cons.mp mem with rfl | mem
    · have rest : is.countP q = is.countP p :=
        countP_congr fun k inside => by
          rw [same k fun equal => nodup.1 (equal ▸ inside)]
      rw [countP_cons_of_pos after, countP_cons_of_neg (by simp [before]), rest]
    · have ne : j ≠ i := fun equal => nodup.1 (equal ▸ mem)
      have rest := ih nodup.2 mem
      simp only [countP_cons, same j ne]
      omega

section Simple
variable {d : SectionDefinition} {kt : DField}

theorem SimpleSection.setTag_tagValue (s : SimpleSection φ d kt) (id : Nat)
    (v : Value φ (d.type kt id)) :
    (s.setTag id v).tagValue = if d.tagType.getD id .none = .none then s.tagValue
      else update s.tagValue id (some v) := by
  unfold setTag
  split <;> rfl

variable {s : SimpleSection φ d kt}

theorem SimpleSection.Built.setTag (built : s.Built) (sound : d.Sound) (keyed : d.Keyed kt)
    (id : Nat) (v : Value φ (d.type kt id)) : (s.setTag id v).Built := by
  rw [SimpleSection.setTag]
  by_cases untyped : d.tagType.getD id .none = .none
  · rw [if_pos untyped]
    exact built
  rw [if_neg untyped]
  have inside : id < d.tagType.length := by
    by_contra outside
    exact untyped (getD_eq_default _ _ (by omega))
  have typed : d.type kt id ≠ .none := by
    rw [SectionDefinition.type]
    split_ifs with key
    · exact keyed (key ▸ untyped)
    · exact untyped
  obtain ⟨static, room⟩ := sound
  constructor
  · intro j present
    by_cases same : j = id
    · subst same
      exact ⟨by omega, by omega, typed⟩
    · have old : (s.tagValue j).isSome := by
        simpa only [update_of_ne same] using present
      exact built.placed j old
  · by_cases old : (s.tagValue id).isSome
    · simp only [old, if_true, built.numTags]
      refine countP_congr fun j _ => ?_
      by_cases same : j = id
      · subst same
        simp [old]
      · simp [update_of_ne same]
    · simp only [old, Bool.false_eq_true, if_false, built.numTags]
      have mem : id ∈ range (d.maxTags + 1) := mem_range.mpr (by omega)
      refine (countP_update nodup_range mem ?_ ?_ ?_).symm
      · exact Bool.eq_false_iff.mpr old
      · simp
      · intro j ne
        simp [update_of_ne ne]

theorem SimpleSection.ofTags_built (sound : d.Sound) (keyed : d.Keyed kt)
    (tags : List ((id : Nat) × Value φ (d.type kt id))) : (ofTags tags).Built := by
  have start : (new : SimpleSection φ d kt).Built := ⟨by simp [new], by simp [new]⟩
  unfold ofTags
  generalize (new : SimpleSection φ d kt) = s at start
  induction tags generalizing s with
  | nil => exact start
  | cons tag tags ih => exact ih _ (start.setTag sound keyed tag.1 tag.2)

theorem SimpleSection.ofTags_fits {tags : List ((id : Nat) × Value φ (d.type kt id))}
    (fits : ∀ tag ∈ tags, tag.2.Fits) (id : Nat) (v : Value φ (d.type kt id))
    (value : (ofTags tags).tagValue id = some v) : v.Fits := by
  have start : ∀ id v, (new : SimpleSection φ d kt).tagValue id = some v → v.Fits := by
    intro id v value
    cases value
  unfold ofTags at value
  generalize (new : SimpleSection φ d kt) = s at start value
  induction tags generalizing s with
  | nil => exact start id v value
  | cons tag tags ih =>
    refine ih (fun other mem => fits other (by simp [mem])) _ ?_ value
    intro j w set
    rw [setTag_tagValue] at set
    split_ifs at set
    · exact start j w set
    · by_cases same : j = tag.1
      · subst same
        rw [update_self, Option.some.injEq] at set
        exact set ▸ fits tag (by simp)
      · rw [update_of_ne same] at set
        exact start j w set

theorem SimpleSection.Built.getTag (built : s.Built) (id : Nat) : s.getTag id = s.tagValue id := by
  rw [SimpleSection.getTag]
  split_ifs with large
  · cases value : s.tagValue id with
    | none => rfl
    | some v =>
      have := (built.placed id (by simp [value])).1
      omega
  · rfl

/-- The encoder of a section writes what was announced. -/
theorem length_encodeSimpleSection (s : SimpleSection φ d kt) :
    (encodeSimpleSection F s).length = encodedBytesSimpleSection F s := by
  rw [encodeSimpleSection, encodedBytesSimpleSection, length_flatMap]
  refine congrArg sum (map_congr_left fun i _ => ?_)
  cases s.getTag i with
  | none => rfl
  | some v => simp [length_encodeDataValue, Nat.add_comm]

/-- The bytes of one tag. -/
def tagBytes (F : FloatText φ) (s : SimpleSection φ d kt) (i : Nat) : List UInt8 :=
  match s.getTag i with
  | none => []
  | some v => UInt8.ofNat i :: encodeDataValue F _ v

/-- One turn of the decoder's loop. -/
theorem decodeTags_cons {turns i : Nat} {mask : List Nat} {target : SimpleSection φ d kt}
    {v : Value φ (d.type kt i)} {rest : List UInt8} (small : i < 256) (fresh : i ∉ mask)
    (typed : d.type kt i ≠ .none) (fits : v.Fits) :
    decodeTags F (turns + 1) mask target (UInt8.ofNat i :: encodeDataValue F _ v ++ rest) =
      decodeTags F turns (i :: mask)
        { tagValue := update target.tagValue i (some v.decoded)
          numTags := target.numTags + 1 } rest := by
  rw [cons_append, decodeTags]
  rw [toNat_ofNat_of_lt small, if_neg fresh, reads_decodeDataValue fits rest]
  simp only
  rw [if_neg typed]

/-- The loop of the decoder over the bytes of some tags. -/
theorem decodeTags_flatMap {is mask : List Nat} {turns : Nat} {target : SimpleSection φ d kt}
    (nodup : is.Nodup) (small : ∀ i ∈ is, i < 256)
    (typed : ∀ i ∈ is, ∀ v, s.getTag i = some v → d.type kt i ≠ .none ∧ v.Fits)
    (fresh : ∀ i ∈ is, i ∉ mask) (enough : (is.flatMap (tagBytes F s)).length ≤ turns) :
    decodeTags F turns mask target (is.flatMap (tagBytes F s)) = .ok
      { tagValue := fun j =>
          if j ∈ is ∧ (s.getTag j).isSome then (s.getTag j).map Value.decoded
          else target.tagValue j
        numTags := target.numTags + is.countP fun i => (s.getTag i).isSome } := by
  induction is generalizing mask turns target with
  | nil => cases turns <;> simp [decodeTags]
  | cons i is ih =>
    rw [nodup_cons] at nodup
    simp only [forall_mem_cons] at small typed fresh
    rw [flatMap_cons] at enough ⊢
    cases value : s.getTag i with
    | none =>
      have empty : tagBytes F s i = [] := by rw [tagBytes, value]
      rw [empty, nil_append] at enough ⊢
      rw [ih nodup.2 small.2 typed.2 fresh.2 enough]
      congr 2
      · funext j
        by_cases same : j = i
        · subst same
          simp [value]
        · simp [same]
      · simp [value]
    | some v =>
      obtain ⟨hasType, fits⟩ := typed.1 v value
      have bytes : tagBytes F s i = UInt8.ofNat i :: encodeDataValue F _ v := by
        rw [tagBytes, value]
      rw [bytes] at enough ⊢
      rw [cons_append, length_cons, length_append] at enough
      obtain ⟨turns, rfl⟩ : ∃ k, turns = k + 1 := ⟨turns - 1, by omega⟩
      have later : ∀ j ∈ is, j ∉ i :: mask := by
        intro j mem
        rw [mem_cons, not_or]
        exact ⟨fun same => nodup.1 (same ▸ mem), fresh.2 j mem⟩
      rw [decodeTags_cons small.1 fresh.1 hasType fits, ih nodup.2 small.2 typed.2 later (by omega)]
      congr 2
      · funext j
        by_cases same : j = i
        · subst same
          simp [value, nodup.1]
        · simp [same]
      · simp [value]
        omega

/-- A section that `set_tag` calls made is read back. -/
theorem decodeSimpleSection_encode (built : s.Built) (few : d.maxTags < 256)
    (fits : ∀ id v, s.tagValue id = some v → v.Fits) :
    decodeSimpleSection F d kt (encodeSimpleSection F s) = .ok s.decoded := by
  have tags : ∀ id, s.getTag id = s.tagValue id := built.getTag
  have small : ∀ i ∈ range (d.maxTags + 1), i < 256 := by
    intro i mem
    have := mem_range.mp mem
    omega
  have typed : ∀ i ∈ range (d.maxTags + 1), ∀ v, s.getTag i = some v →
      d.type kt i ≠ .none ∧ v.Fits := by
    intro i _ v value
    rw [tags] at value
    exact ⟨(built.placed i (by simp [value])).2.2, fits i v value⟩
  have fresh : ∀ i ∈ range (d.maxTags + 1), i ∉ ([] : List Nat) := fun _ _ => not_mem_nil
  have bytes : encodeSimpleSection F s = (range (d.maxTags + 1)).flatMap (tagBytes F s) := rfl
  rw [decodeSimpleSection, bytes, decodeTags_flatMap nodup_range small typed fresh le_rfl]
  simp only [tags, new, decoded, Nat.zero_add, built.numTags]
  congr 2
  funext j
  cases value : s.tagValue j with
  | none => simp
  | some v =>
    have placed := (built.placed j (by simp [value])).2.1
    simp [Nat.lt_succ_of_le placed]

end Simple

/-! ### Field sets -/

/-- The bytes of one field number. -/
def idBytes (id : UInt8) : List UInt8 := if id = 0 then [id, 0] else [id]

theorem reads_decodeFieldId (t : TableDefinition) (id : UInt8) :
    Reads (decodeFieldId t) (idBytes id) (id, false) := by
  unfold idBytes
  by_cases key : id = 0
  · subst key
    exact bind_cons (bind_cons (pure _))
  · rw [if_neg key]
    refine bind_cons ?_
    rw [if_pos key]
    exact pure _

theorem length_flatMap_idBytes (ids : List UInt8) :
    (ids.flatMap idBytes).length = ids.length + ids.count 0 := by
  induction ids with
  | nil => rfl
  | cons id ids ih =>
    rw [flatMap_cons, length_append, ih, length_cons, count_cons]
    unfold idBytes
    by_cases key : id = 0
    · simp [key]
      omega
    · simp [key]
      omega

/-- The announced size of a field set is the written one exactly if its mask counts the key as often
as it occurs. -/
theorem length_encodeFieldSet_iff (fs : FieldSet) :
    (encodeFieldSet fs).length = encodedBytesFieldSet fs ↔
      fs.fieldId = [] ∨ fs.fieldId.count 0 = if fs.fieldMask 0 then 1 else 0 := by
  unfold encodeFieldSet encodedBytesFieldSet
  by_cases empty : fs.fieldId = []
  · simp [empty]
  · have length : fs.fieldId.length ≠ 0 := by simpa using empty
    have bytes := length_flatMap_idBytes fs.fieldId
    unfold idBytes at bytes
    simp only [length, if_false, length_cons, bytes, empty, false_or]
    split_ifs <;> omega

/-- The loop of the decoder leaves out what is already there. -/
theorem reads_decodeFieldIds (t : TableDefinition) (ids before : List UInt8) :
    Reads (decodeFieldIds t ids.length before false) (ids.flatMap idBytes)
      (before ++ (ids.filter (· ∉ before)).eraseDups, false) := by
  induction ids generalizing before with
  | nil =>
    simp only [filter_nil, eraseDups_nil, append_nil]
    exact pure _
  | cons id ids ih =>
    refine (reads_decodeFieldId t id).bind ?_
    simp only
    by_cases old : id ∈ before
    · rw [if_pos old, filter_cons_of_neg (by simpa using old)]
      exact ih before
    · rw [if_neg old, filter_cons_of_pos (by simpa using old), eraseDups_cons, filter_filter]
      have read := ih (before ++ [id])
      have same : ids.filter (fun x => decide (x ∉ before ++ [id])) =
          ids.filter (fun x => (!x == id) && decide (x ∉ before)) := by
        refine filter_congr fun x _ => ?_
        by_cases equal : x = id <;> simp [equal]
      rw [same, append_assoc, singleton_append] at read
      exact read

/-- A field set is read back without repeated fields. -/
theorem decodeFieldSet_encode (t : TableDefinition) {fs : FieldSet} (some : fs.fieldId ≠ [])
    (few : fs.fieldId.length < 256) :
    decodeFieldSet t (encodeFieldSet fs) = .ok (fs.fieldId.eraseDups, false) := by
  have length : fs.fieldId.length ≠ 0 := by simpa using some
  have count := toNat_ofNat_of_lt few
  have nonzero : UInt8.ofNat fs.fieldId.length ≠ 0 := by
    intro zero
    rw [zero] at count
    exact length count.symm
  have read := (reads_decodeFieldIds t fs.fieldId []).whole .extraSectionData
  have all : fs.fieldId.filter (· ∉ ([] : List UInt8)) = fs.fieldId := by simp
  rw [all, nil_append] at read
  rw [encodeFieldSet, if_neg length, decodeFieldSet, if_neg nonzero, count]
  exact read

/-! ### Field values -/

theorem typeOfCode_code (type : DField) : typeOfCode type.code = some type := by
  cases type <;> rfl

theorem code_lt (type : DField) : type.code < 16 := by
  cases type <;> decide

/-- The entry passes the checks of the decoder, and its value fits a packet. -/
structure Admitted (t : TableDefinition) (mode : Mode) (fv : FieldValue φ) : Prop where
  field : fv.id.toNat ≤ t.numFields
  oper : fv.oper < 16
  checked : checkEntry t mode fv.id.toNat fv.oper fv.type = none
  fits : fv.val.Fits

variable {t : TableDefinition}

theorem reads_decodeEntry {mode : Mode} {fv : FieldValue φ} (admitted : Admitted t mode fv) :
    Reads (decodeEntry F t mode) (encodeEntry F fv) (fv.decoded, false) := by
  have small := code_lt fv.type
  have oper := admitted.oper
  have value : (UInt8.ofNat (fv.oper * 16 + fv.type.code)).toNat = fv.oper * 16 + fv.type.code :=
    toNat_ofNat_of_lt (by omega)
  have high : (fv.oper * 16 + fv.type.code) / 16 = fv.oper := by omega
  have low : (fv.oper * 16 + fv.type.code) % 16 = fv.type.code := by omega
  refine bind_cons ((reads_decodeFieldId t fv.id).bind ?_)
  refine (reads_ensure admitted.field).bind_nil ?_
  rw [value, low, high, typeOfCode_code]
  simp only [admitted.checked]
  exact (reads_decodeDataValue admitted.fits).bind_pure fun val =>
    ((⟨fv.id, fv.oper, fv.type, val⟩ : FieldValue φ), false)

/-- The numbers of the key fields in a list. -/
def keyIds (t : TableDefinition) (fvs : List (FieldValue φ)) : List UInt8 :=
  (fvs.map FieldValue.id).filter fun id => id.toNat < t.keyFields

theorem reads_decodeEntries {mode : Mode} {fvs : List (FieldValue φ)} {keys : List UInt8}
    (admitted : ∀ fv ∈ fvs, Admitted t mode fv) (nodup : (keyIds t fvs).Nodup)
    (fresh : ∀ id ∈ keyIds t fvs, id ∉ keys) :
    Reads (decodeEntries F t mode fvs.length keys) (fvs.flatMap (encodeEntry F))
      (fvs.map FieldValue.decoded, false) := by
  induction fvs generalizing keys with
  | nil => exact pure _
  | cons fv fvs ih =>
    refine (reads_decodeEntry (admitted fv (by simp))).bind ?_
    simp only
    have others : ∀ fv ∈ fvs, Admitted t mode fv := fun fv mem => admitted fv (by simp [mem])
    have id : fv.decoded.id = fv.id := rfl
    rw [id]
    by_cases key : fv.id.toNat < t.keyFields
    · have ids : keyIds t (fv :: fvs) = fv.id :: keyIds t fvs := by simp [keyIds, key]
      rw [ids, nodup_cons] at nodup
      rw [ids] at fresh
      simp only [forall_mem_cons] at fresh
      have later : ∀ id ∈ keyIds t fvs, id ∉ fv.id :: keys := by
        intro id mem
        rw [mem_cons, not_or]
        exact ⟨fun same => nodup.1 (same ▸ mem), fresh.2 id mem⟩
      rw [if_neg (fun repeated => fresh.1 repeated.2), if_pos key]
      exact (ih others nodup.2 later).bind_pure fun r => (fv.decoded :: r.1, false || r.2)
    · have ids : keyIds t (fv :: fvs) = keyIds t fvs := by simp [keyIds, key]
      rw [ids] at nodup fresh
      rw [if_neg (fun repeated => key repeated.1), if_neg key]
      exact (ih others nodup fresh).bind_pure fun r => (fv.decoded :: r.1, false || r.2)

theorem length_encodeFieldValue (fvs : List (FieldValue φ)) :
    (encodeFieldValue F fvs).length = encodedBytesFieldValue F fvs := by
  unfold encodeFieldValue encodedBytesFieldValue
  split_ifs
  · rfl
  · rw [length_cons, length_flatMap, Nat.add_comm]
    congr 2
    refine map_congr_left fun fv _ => ?_
    rw [encodeEntry, length_append, length_encodeDataValue]
    split_ifs
    · simp
      omega
    · simp

/-- A list of field values that the table admits is read back. -/
theorem decodeFieldValue_encode {mode : Mode} {fvs : List (FieldValue φ)} (some : fvs ≠ [])
    (few : fvs.length < 256) (admitted : ∀ fv ∈ fvs, Admitted t mode fv)
    (nodup : (keyIds t fvs).Nodup) :
    decodeFieldValue F t mode (encodeFieldValue F fvs) =
      .ok (fvs.map FieldValue.decoded, false) := by
  have length : fvs.length ≠ 0 := by simpa using some
  have count := toNat_ofNat_of_lt few
  have nonzero : UInt8.ofNat fvs.length ≠ 0 := by
    intro zero
    rw [zero] at count
    exact length count.symm
  have read := (reads_decodeEntries (F := F) admitted nodup fun _ _ => not_mem_nil).whole
    .extraSectionData
  rw [encodeFieldValue, if_neg length, decodeFieldValue, if_neg nonzero, count]
  exact read

/-! ### The further keys of a multi-field key -/

/-- The further keys as a list of conditions. -/
def keyEntries (t : TableDefinition) (v : KeyValues φ t) : List (FieldValue φ) :=
  (List.range' 1 (t.keyFields - 1)).map fun i => ⟨UInt8.ofNat i, 0, t.fieldType i, v i⟩

/-- The encoder of the further keys writes these conditions. -/
theorem encodeMultiKey_eq (v : KeyValues φ t) (few : t.keyFields ≤ 32) :
    encodeMultiKey F t v = encodeFieldValue F (keyEntries t v) ∧
      encodedBytesMultiKey F t v = encodedBytesFieldValue F (keyEntries t v) := by
  have length : (keyEntries t v).length = t.keyFields - 1 := by simp [keyEntries]
  have nonzero : ∀ i ∈ range' 1 (t.keyFields - 1), UInt8.ofNat i ≠ 0 := by
    intro i mem zero
    have bounds := mem_range'_1.mp mem
    have value : (UInt8.ofNat i).toNat = i := toNat_ofNat_of_lt (by omega)
    rw [zero] at value
    exact absurd value (by change 0 ≠ i; omega)
  unfold encodeMultiKey encodeFieldValue encodedBytesMultiKey encodedBytesFieldValue
  rw [length]
  by_cases one : t.keyFields ≤ 1
  · rw [if_pos one, if_pos one, if_pos (by omega), if_pos (by omega)]
    exact ⟨rfl, rfl⟩
  · rw [if_neg one, if_neg one, if_neg (by omega), if_neg (by omega)]
    constructor
    · congr 1
      rw [keyEntries, flatMap_map]
      refine flatMap_congr fun i mem => ?_
      simp [encodeEntry, nonzero i mem]
    · congr 2
      rw [keyEntries, map_map]
      refine map_congr_left fun i mem => ?_
      simp [nonzero i mem]

/-- The further keys of a table whose key fields can be compared are admitted as conditions. -/
theorem keyEntries_admitted {v : KeyValues φ t} (few : t.keyFields ≤ 32)
    (inside : t.keyFields ≤ t.numFields + 1)
    (comparable : ∀ i < t.keyFields, t.fieldType i ≠ .none ∧ t.fieldType i ≠ .float)
    (fits : ∀ i < t.keyFields, (v i).Fits) : ∀ fv ∈ keyEntries t v, Admitted t .condition fv := by
  intro fv mem
  obtain ⟨i, listed, rfl⟩ := mem_map.mp mem
  have bounds := mem_range'_1.mp listed
  have value : (UInt8.ofNat i).toNat = i := toNat_ofNat_of_lt (by omega)
  have type := comparable i (by omega)
  refine ⟨by simp only [value]; omega, by simp, ?_, fits i (by omega)⟩
  simp only [value, checkEntry]
  cases field : t.fieldType i with
  | none => exact absurd field type.1
  | float => exact absurd field type.2
  | signed | unsigned | string | binary => simp [validcomps, validxtype]

theorem keyEntries_nodup (v : KeyValues φ t) (few : t.keyFields ≤ 32) :
    (keyIds t (keyEntries t v)).Nodup := by
  refine List.Nodup.filter _ ?_
  rw [keyEntries, map_map]
  refine List.Nodup.map_on ?_ nodup_range'
  intro i memI j memJ same
  have boundsI := mem_range'_1.mp memI
  have boundsJ := mem_range'_1.mp memJ
  have value := congrArg UInt8.toNat same
  simp only [comp_apply] at value
  rwa [toNat_ofNat_of_lt (by omega), toNat_ofNat_of_lt (by omega)] at value

/-- A table with one key field and one further field. -/
def twoFields : TableDefinition where
  numFields := 1
  keyFields := 1
  keyFormat := 4
  field := fun _ => ⟨.signed, 4, false⟩
  readOnly := fun _ => false
  fieldId := fun _ => none

/-- One float, with the text `0X0P+0`. -/
def zeroFloat : FloatText Unit where
  snprintf := fun _ => [48, 88, 48, 80, 43, 48]
  sscanf := fun _ => some ()
  nan := ()
  infinity := ()
  negInfinity := ()
  short := fun _ => by decide
  plain := fun _ => by decide
  exact := fun _ => rfl

end Dtc.Packet
