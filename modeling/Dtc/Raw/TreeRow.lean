import Dtc.Raw.Cursor

/-!
# Rows of a tree

A record of a tree holds rows in the format of `RawData`. `encode_tree_row` and `decode_tree_row`
begin at field 1, with the field the tree is ordered by, while `skip_row` and
`calc_tree_row_size(stRow, key_index_)` begin behind the key of the table.
-/

namespace Dtc.Raw

open Library Memory List

namespace RawData

/-- `encode_tree_row` -/
def encodeTreeRow (fmt : FloatFormat) (t : TableDefinition) (s : RawData) (row : RowValue)
    (op : UInt8) : Int × RawData :=
  match s.setValue [op] >>= encodeFields fmt t row (rowFields 0 t.numFields) with
  | .error s => (-100, s)
  | .ok s => (0, s)

/-- `decode_tree_row` -/
def decodeTreeRow (fmt : FloatFormat) (t : TableDefinition) (s : RawData) (row : RowValue) :
    Int × UInt8 × RowValue × RawData :=
  let decoded : Except RawData (UInt8 × RowValue × RawData) := do
    let (flag, s) ← { s with rowOffset := s.offset }.getValue 1
    let (row, s) ← decodeFields fmt t (rowFields 0 t.numFields) row s
    return (flag.headD 0, row, s)
  match decoded with
  | .ok (flag, row, s) => (0, flag, row, s)
  | .error s => (-100, 0, row, s)

/-- `calc_tree_row_size` -/
def calcTreeRowSize (t : TableDefinition) (row : RowValue) (keyIdx : Nat) : Nat :=
  calcRowSize t row keyIdx

/-- One round of the loop of `TreeData::skip_row`: an `int` is read before an integer is skipped. -/
def skipTreeField (f : FieldDefinition) (s : RawData) : Except RawData RawData :=
  match f.fieldType with
  | .unsigned | .signed => if s.size < s.offset + 4 then .error s else skipField f s
  | _ => skipField f s

/-- The loop of `TreeData::skip_row`. -/
def skipTreeFields (t : TableDefinition) : List Nat → RawData → Except RawData RawData
  | [], s => .ok s
  | j :: js, s =>
    if (t.field j).discard then skipTreeFields t js s
    else skipTreeField (t.field j) s >>= skipTreeFields t js

/-- `TreeData::skip_row` -/
def skipTreeRow (t : TableDefinition) (s : RawData) : Int × RawData :=
  let s := { s with offset := s.rowOffset }
  if s.dataSize ≤ s.offset then (-2, s)
  else
    let skipped : Except RawData RawData := do
      let s ← s.skipSize 1
      skipTreeFields t (rowFields s.keyIndex t.numFields) s
    match skipped with
    | .ok s => (0, s)
    | .error s => (-100, s)

/-- The record with the cursor back at the row that was written last. -/
def atRow (s written : RawData) : RawData :=
  { written with offset := s.offset, rowOffset := s.offset, dataSize := written.offset }

/-- The four routines agree on a row that is written at the cursor. -/
structure TreeRowAgrees (fmt : FloatFormat) (t : TableDefinition) (s : RawData) (row : RowValue)
    (flag : UInt8) : Prop where
  encoded : (encodeTreeRow fmt t s row flag).1 = 0
  written : (encodeTreeRow fmt t s row flag).2.offset =
    s.offset + calcTreeRowSize t row s.keyIndex
  skipped : ∃ s', skipTreeRow t (s.atRow (encodeTreeRow fmt t s row flag).2) = (0, s') ∧
    s'.offset = s.offset + calcTreeRowSize t row s.keyIndex
  decoded : ∀ old, ∃ row' s', decodeTreeRow fmt t (s.atRow (encodeTreeRow fmt t s row flag).2) old =
    (0, flag, row', s') ∧ rowView t 0 row' = rowView t 0 row

variable {fmt : FloatFormat} {t : TableDefinition} {s : RawData} {row : RowValue} {flag : UInt8}

variable {s' : RawData}

theorem skipTreeField_of_ok {f : FieldDefinition} (ok : skipField f s = .ok s') :
    skipTreeField f s = .ok s' := by
  unfold skipTreeField
  cases type : f.fieldType <;> simp only [ok]
  all_goals
    rw [if_neg]
    unfold skipField RawData.skipSize at ok
    simp only [type] at ok
    split_ifs at ok <;> omega

theorem skipTreeFields_of_ok {js : List Nat} (ok : skipFields t js s = .ok s') :
    skipTreeFields t js s = .ok s' := by
  induction js generalizing s with
  | nil => exact ok
  | cons j js ih =>
    rw [skipFields] at ok
    rw [skipTreeFields]
    split_ifs at ok ⊢
    · exact ih ok
    · obtain ⟨s₁, first, rest⟩ := bind_ok ok
      rw [skipTreeField_of_ok first]
      exact ih rest

theorem skipTreeRow_of_ok (ok : skipRow t s = (0, s')) : skipTreeRow t s = (0, s') := by
  unfold skipRow at ok
  unfold skipTreeRow
  dsimp only at ok ⊢
  split_ifs at ok ⊢
  · exact nomatch (Prod.mk.inj ok).1
  split at ok
  · rename_i s₂ skipped
    obtain ⟨s₁, flag, fields⟩ := bind_ok skipped
    simp only [flag, bind, Except.bind, skipTreeFields_of_ok fields]
    exact ok
  · exact nomatch (Prod.mk.inj ok).1

theorem skipTreeRow_spec (inside : s.rowOffset < s.dataSize)
    (reads : Reads { s with offset := s.rowOffset } (rowBytes fmt t s.keyIndex flag row)) :
    ∃ s', skipTreeRow t s = (0, s') ∧
      s'.offset = s.rowOffset + (rowBytes fmt t s.keyIndex flag row).length :=
  ⟨_, skipTreeRow_of_ok (skipRow_spec inside reads), rfl⟩

/-- The fields between field 1 and the end of the key. -/
theorem rowFields_zero (keyIndex n : Nat) :
    rowFields 0 n = range' 1 (min keyIndex n) ++ rowFields keyIndex n := by
  unfold rowFields
  rcases Nat.le_total keyIndex n with le | le
  · rw [Nat.min_eq_left le, Nat.add_comm keyIndex 1, range'_append_1]
    congr 1
    omega
  · rw [Nat.min_eq_right le, Nat.sub_eq_zero_of_le le]
    simp

theorem fieldsBytes_append (xs ys : List Nat) :
    fieldsBytes fmt t row (xs ++ ys) = fieldsBytes fmt t row xs ++ fieldsBytes fmt t row ys := by
  simp [fieldsBytes]

theorem fieldBytes_ne_nil (f : FieldDefinition) (v : DTCValue) : fieldBytes fmt f v ≠ [] := by
  refine ne_nil_of_length_pos ?_
  rw [← calcField_eq]
  unfold calcField
  cases f.fieldType <;> dsimp only <;> (try split_ifs) <;> omega

theorem fieldsBytes_eq_nil_iff {js : List Nat} :
    fieldsBytes fmt t row js = [] ↔ ∀ j ∈ js, (t.field j).discard = true := by
  unfold fieldsBytes
  simp [fieldBytes_ne_nil]

/-- A row that there is room for is written. -/
theorem encodeTreeRow_eq (room : s.offset + (rowBytes fmt t 0 flag row).length ≤ s.size) :
    encodeTreeRow fmt t s row flag =
      (0, { s with mem := store s.mem s.offset (rowBytes fmt t 0 flag row),
                   offset := s.offset + (rowBytes fmt t 0 flag row).length }) := by
  have length : (rowBytes fmt t 0 flag row).length =
      [flag].length + (fieldsBytes fmt t row (rowFields 0 t.numFields)).length := by
    rw [rowBytes, length_cons, length_singleton, Nat.add_comm]
  have first : s.setValue [flag] =
      .ok { s with mem := store s.mem s.offset [flag], offset := s.offset + [flag].length } :=
    if_neg (by omega)
  rw [encodeTreeRow, first]
  have rest : s.offset + [flag].length + (fieldsBytes fmt t row (rowFields 0 t.numFields)).length ≤
      s.size := by omega
  obtain ⟨s', eq⟩ := encodeFields_fits
    (s := { s with mem := store s.mem s.offset [flag], offset := s.offset + [flag].length }) rest
  simp only [bind, Except.bind, eq]
  obtain ⟨-, rfl⟩ := encodeFields_ok (by dsimp only; omega) eq
  rw [store_append, length, Nat.add_assoc]
  rfl

theorem decodeTreeRow_spec (fits : RowFits fmt t 0 row) (reads : Reads s (rowBytes fmt t 0 flag row))
    (old : RowValue) :
    ∃ row' s', decodeTreeRow fmt t s old = (0, flag, row', s') ∧ rowView t 0 row' = rowView t 0 row := by
  obtain ⟨first, rest⟩ := reads_append.mp (show Reads { s with rowOffset := s.offset }
    ([flag] ++ fieldsBytes fmt t row (rowFields 0 t.numFields)) from
      { reads with })
  obtain ⟨row', ok, same, -⟩ := decodeFields_spec (rowFields_nodup 0 t.numFields)
    (fun j hj stored => fits j (mem_filter.mpr ⟨hj, by simp [stored]⟩)) rest old
  rw [length_singleton] at ok
  have decoded : ∃ s', decodeTreeRow fmt t s old = (0, flag, row', s') := by
    simp only [decodeTreeRow, first.getValue (n := 1) rfl, bind, Except.bind, ok]
    exact ⟨_, rfl⟩
  obtain ⟨s', eq⟩ := decoded
  exact ⟨row', s', eq, rowView_congr same⟩

/-- The four routines agree on a row exactly if the fields behind field 0 that belong to the key are
not stored. -/
theorem treeRow_agrees_iff (room : s.offset + (rowBytes fmt t 0 flag row).length ≤ s.size)
    (range : s.size < 2 ^ 32) (fits : RowFits fmt t 0 row) :
    TreeRowAgrees fmt t s row flag ↔
      ∀ j, 1 ≤ j → j ≤ s.keyIndex → j ≤ t.numFields → (t.field j).discard = true := by
  have split : rowBytes fmt t 0 flag row =
      flag :: (fieldsBytes fmt t row (range' 1 (min s.keyIndex t.numFields)) ++
        fieldsBytes fmt t row (rowFields s.keyIndex t.numFields)) := by
    rw [rowBytes, rowFields_zero s.keyIndex, fieldsBytes_append]
  have front : fieldsBytes fmt t row (range' 1 (min s.keyIndex t.numFields)) = [] ↔
      ∀ j, 1 ≤ j → j ≤ s.keyIndex → j ≤ t.numFields → (t.field j).discard = true := by
    rw [fieldsBytes_eq_nil_iff]
    simp only [mem_range'_1]
    grind
  have size := calcRowSize_eq fmt t row s.keyIndex flag
  have encoded := encodeTreeRow_eq room
  rw [← front]
  constructor
  · intro agrees
    have written := agrees.written
    rw [encoded, calcTreeRowSize, size] at written
    dsimp only at written
    rw [split] at written room
    simp only [rowBytes, length_cons, length_append] at written room
    refine eq_nil_of_length_eq_zero ?_
    omega
  · intro none
    have same : rowBytes fmt t s.keyIndex flag row = rowBytes fmt t 0 flag row := by
      rw [split, none]
      rfl
    rw [same, Nat.mod_eq_of_lt (by omega)] at size
    have reads : Reads (s.atRow (encodeTreeRow fmt t s row flag).2) (rowBytes fmt t 0 flag row) := by
      rw [encoded]
      exact ⟨holds_store, room, range⟩
    have behind : s.offset < (s.atRow (encodeTreeRow fmt t s row flag).2).dataSize := by
      rw [encoded, rowBytes]
      exact Nat.lt_add_of_pos_right (Nat.succ_pos _)
    have bytes : rowBytes fmt t (s.atRow (encodeTreeRow fmt t s row flag).2).keyIndex flag row =
        rowBytes fmt t 0 flag row := by
      rw [encoded]
      exact same
    have skipped := skipTreeRow_spec behind
      (by rw [bytes]; exact ⟨reads.holds, reads.inside, reads.range⟩)
    rw [bytes, ← size] at skipped
    exact ⟨by rw [encoded], by rw [encoded, calcTreeRowSize, size], skipped,
      fun old => decodeTreeRow_spec fits reads old⟩

/-- A table with two key fields, and a record with room for its rows. -/
def pairTable : TableDefinition := ⟨2, 2, 4, fun _ => ⟨.signed, 4, false⟩⟩

def emptyRecord (keyIndex : Nat) : RawData := ⟨fun _ => 0, 64, 0, 0, keyIndex, 4, 0, 0, 0, 0⟩

theorem treeRow_agrees_blob : TreeRowAgrees halfFormat blobTable (emptyRecord 0) (blobRow (some 7)) 1 :=
  (treeRow_agrees_iff (by decide) (by decide) (by decide)).mpr
    fun j low high => absurd (low.trans high) (by decide)

/-- With two key fields nine bytes are written, and the size and the skip are five. -/
theorem treeRow_disagrees :
    let row : RowValue := fun _ => ⟨5, ⟨[], by decide⟩⟩
    let written := encodeTreeRow halfFormat pairTable (emptyRecord 1) row 1
    written.1 = 0 ∧ written.2.offset = 9 ∧ calcTreeRowSize pairTable row 1 = 5 ∧
      (skipTreeRow pairTable ((emptyRecord 1).atRow written.2)).2.offset = 5 := by
  decide

end RawData

end Dtc.Raw
