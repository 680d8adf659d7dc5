import Dtc.Raw.Requests

/-!
# How far the reads of a chunk go

`decode_row` and `skip_row` read the lengths of strings from the chunk itself. Whatever the bytes
are, a call that succeeds ends inside the chunk. But `SKIP_SIZE` makes its check on a sum of 32 bits:
a length that is negative, or that passes 32 bits together with the offset, moves the position back.
The position behind a row is behind its flag exactly if the moves of its fields do not sum up to a
negative number.
-/

namespace Dtc.Raw

open Library Memory

namespace RawData

/-- How far a field at this place moves the position: the size of a number, or what is stored as the
length of a string, which goes back where the sum does not fit 32 bits. -/
def fieldMove (f : FieldDefinition) (mem : Nat → UInt8) (at_ : Nat) : Int :=
  match f.fieldType with
  | .signed | .unsigned | .float => if 4 < f.fieldSize then 8 else 4
  | .string | .binary | .none =>
    let len := load mem at_ 4
    if at_ + 4 + len < 2 ^ 32 then 4 + len else 4 + len - 2 ^ 32

/-- The same for some fields in a row. -/
def fieldsMove (t : TableDefinition) (mem : Nat → UInt8) : List Nat → Nat → Int
  | [], _ => 0
  | j :: js, at_ =>
    if (t.field j).discard then fieldsMove t mem js at_
    else
      let move := fieldMove (t.field j) mem at_
      move + fieldsMove t mem js (at_ + move).toNat

/-- The same for the fields of the row at the read position, behind its flag. -/
def rowMove (t : TableDefinition) (s : RawData) : Int :=
  fieldsMove t s.mem (rowFields s.keyIndex t.numFields) (s.offset + 1)

/-- No row of the next ones takes the position back. -/
def RowsForward (t : TableDefinition) : Nat → RawData → Prop
  | 0, _ => True
  | n + 1, s =>
    0 ≤ rowMove t s ∧ RowsForward t n { s with offset := (s.offset + 1 + rowMove t s).toNat }

/-- The read position has moved, and is inside the chunk. -/
def MovedTo (s s' : RawData) : Prop := s' = { s with offset := s'.offset } ∧ s'.offset ≤ s.size

/-- `for (i = 0; i < n; i++) decode_row(...)`, up to the first call that fails: the number of rows
read, and the state. -/
def walkRows (fmt : FloatFormat) (t : TableDefinition) : Nat → RowValue → RawData → Nat × RawData
  | 0, _, s => (0, s)
  | n + 1, row, s =>
    match decodeRow fmt t s row false with
    | (0, _, row, s) => ((walkRows fmt t n row s).1 + 1, (walkRows fmt t n row s).2)
    | _ => (0, s)

section Fields
variable {fmt : FloatFormat} {t : TableDefinition} {f : FieldDefinition} {s s' : RawData}

theorem skipSize_moves {n : Nat} (ok : s.skipSize n = .ok s') :
    MovedTo s s' ∧ s'.offset = s.offset + n := by
  obtain ⟨inside, rfl⟩ := skipSize_ok ok
  exact ⟨⟨rfl, inside⟩, rfl⟩

theorem skipLen_moves {n : Nat} (ok : s.skipLen n = .ok s') :
    MovedTo s s' ∧ s'.offset = add32 s.offset n := by
  obtain ⟨inside, rfl⟩ := skipLen_ok ok
  exact ⟨⟨rfl, inside⟩, rfl⟩

/-- A field that is skipped. -/
theorem skipField_moves (size32 : s.size < 2 ^ 32) (ok : skipField f s = .ok s') :
    MovedTo s s' ∧ (s'.offset : Int) = s.offset + fieldMove f s.mem s.offset := by
  have fixed : ∀ n, s.skipSize n = .ok s' → MovedTo s s' ∧ (s'.offset : Int) = s.offset + n := by
    intro n skipped
    obtain ⟨moved, offset⟩ := skipSize_moves skipped
    exact ⟨moved, by omega⟩
  unfold skipField at ok
  unfold fieldMove
  cases type : f.fieldType <;> simp only [type] at ok ⊢
  case signed | unsigned | float =>
    split_ifs at ok ⊢
    · exact fixed 8 ok
    · exact fixed 4 ok
  case string | binary | none =>
    obtain ⟨⟨bytes, s₁⟩, value, skipped⟩ := bind_ok ok
    obtain ⟨inside, rfl, rfl⟩ := getValue_ok value
    obtain ⟨moved, offset⟩ := skipLen_moves skipped
    refine ⟨moved, ?_⟩
    rw [show s'.offset = add32 (s.offset + 4) (load s.mem s.offset 4) from offset]
    have low : load s.mem s.offset 4 < 2 ^ 32 := load_lt _ _ 4
    unfold add32
    split_ifs <;> omega

/-- The fields of a row that are skipped. -/
theorem skipFields_moves {js : List Nat} (size32 : s.size < 2 ^ 32) (inside : s.offset ≤ s.size)
    (ok : skipFields t js s = .ok s') :
    MovedTo s s' ∧ (s'.offset : Int) = s.offset + fieldsMove t s.mem js s.offset := by
  induction js generalizing s with
  | nil =>
    obtain rfl := Except.ok.inj ok
    exact ⟨⟨rfl, inside⟩, (add_zero _).symm⟩
  | cons j js ih =>
    rw [skipFields] at ok
    rw [fieldsMove]
    cases discard : (t.field j).discard with
    | true =>
      rw [discard, if_pos rfl] at ok
      exact ih size32 inside ok
    | false =>
      rw [discard, if_neg Bool.false_ne_true] at ok
      obtain ⟨s₁, first, rest⟩ := bind_ok ok
      obtain ⟨⟨eq, inside₁⟩, move⟩ := skipField_moves size32 first
      rw [eq] at rest
      obtain ⟨⟨eq', inside'⟩, move'⟩ := ih (s := { s with offset := s₁.offset }) size32 inside₁ rest
      refine ⟨⟨eq', inside'⟩, ?_⟩
      have here : (s.offset + fieldMove (t.field j) s.mem s.offset).toNat = s₁.offset := by omega
      simp only [Bool.false_eq_true, if_false, here]
      rw [move', move]
      exact add_assoc _ _ _

theorem decodeFields_skips {js : List Nat} {row row' : RowValue}
    (ok : decodeFields fmt t js row s = .ok (row', s')) : skipFields t js s = .ok s' := by
  induction js generalizing s row with
  | nil =>
    obtain ⟨-, rfl⟩ := Prod.mk.inj (Except.ok.inj ok)
    rfl
  | cons j js ih =>
    rw [decodeFields] at ok
    rw [skipFields]
    cases discard : (t.field j).discard with
    | true =>
      rw [discard, if_pos rfl] at ok
      exact ih ok
    | false =>
      rw [discard, if_neg Bool.false_ne_true] at ok
      obtain ⟨⟨v, s₁⟩, first, rest⟩ := bind_ok ok
      rw [decodeField_skips first]
      exact ih rest

end Fields

section Rows
variable (fmt : FloatFormat) (t : TableDefinition) (s : RawData) (row : RowValue)

/-- The flag of a row is one byte, and its fields follow. -/
theorem row_moves {s' : RawData} (size32 : s.size < 2 ^ 32) (inside : s.offset + 1 ≤ s.size)
    (ok : skipFields t (rowFields s.keyIndex t.numFields)
      ({ s with rowOffset := s.offset }.advance 1) = .ok s') :
    s' = { s with rowOffset := s.offset, offset := s'.offset } ∧ s'.offset ≤ s.size ∧
      (s'.offset : Int) = s.offset + 1 + rowMove t s := by
  obtain ⟨⟨eq, inside'⟩, move⟩ :=
    skipFields_moves (s := { s with rowOffset := s.offset }.advance 1) size32 inside ok
  exact ⟨eq, inside', move⟩

theorem decodeRow_moves (size32 : s.size < 2 ^ 32) (ok : (decodeRow fmt t s row false).1 = 0) :
    let s' := (decodeRow fmt t s row false).2.2.2
    s' = { s with rowOffset := s.offset, offset := s'.offset } ∧ s'.offset ≤ s.size ∧
      (s'.offset : Int) = s.offset + 1 + rowMove t s := by
  unfold decodeRow at ok ⊢
  simp only [Bool.false_eq_true, if_false] at ok ⊢
  split at ok
  · rename_i flag row' s' decoded
    obtain ⟨⟨bytes, s₁⟩, value, rest⟩ := bind_ok decoded
    obtain ⟨⟨row₂, s₂⟩, fields, last⟩ := bind_ok rest
    obtain ⟨-, last⟩ := Prod.mk.inj (Except.ok.inj last)
    obtain ⟨-, rfl⟩ := Prod.mk.inj last
    obtain ⟨inside, -, rfl⟩ := getValue_ok value
    exact row_moves t s size32 inside (decodeFields_skips fields)
  · exact absurd (show (-100 : Int) = 0 from ok) (by decide)

theorem skipRow_moves (size32 : s.size < 2 ^ 32) (ok : (skipRow t s).1 = 0) :
    (skipRow t s).2.offset ≤ s.size ∧
      ((skipRow t s).2.offset : Int) = s.rowOffset + 1 + rowMove t { s with offset := s.rowOffset } := by
  unfold skipRow at ok ⊢
  simp only at ok ⊢
  split_ifs at ok ⊢
  · exact absurd (show (-2 : Int) = 0 from ok) (by decide)
  split at ok
  · rename_i s' skipped
    obtain ⟨s₁, flag, fields⟩ := bind_ok skipped
    obtain ⟨⟨eq, inside⟩, offset⟩ := skipSize_moves flag
    rw [offset] at eq inside
    subst eq
    exact (row_moves t { s with offset := s.rowOffset } size32 inside fields).2
  · exact absurd (show (-100 : Int) = 0 from ok) (by decide)

/-- `rowMove` and `RowsForward` read the chunk, not `row_offset_`. -/
theorem rowsForward_rowOffset (n at_ : Nat) :
    RowsForward t n { s with rowOffset := at_ } ↔ RowsForward t n s := by
  induction n generalizing s with
  | zero => exact Iff.rfl
  | succ n ih =>
    have later := ih { s with offset := (s.offset + 1 + rowMove t s).toNat }
    exact and_congr Iff.rfl later

/-- Where the calls of `decode_row` stop: behind the rows read, at the last of them or at a call that
fails. -/
theorem walkRows_stops (n : Nat) (size32 : s.size < 2 ^ 32) (inside : s.offset ≤ s.size) :
    let walk := walkRows fmt t n row s
    walk.2.offset ≤ s.size ∧ (walk.1 = n ∨ ∃ row', (decodeRow fmt t walk.2 row' false).1 ≠ 0) ∧
      (RowsForward t n s → s.offset + walk.1 ≤ walk.2.offset) := by
  induction n generalizing s row with
  | zero => exact ⟨inside, .inl rfl, fun _ => le_rfl⟩
  | succ n ih =>
    rw [walkRows]
    split
    · rename_i flag row' s' decoded
      obtain ⟨eq, inside', move⟩ := decodeRow_moves fmt t s row size32 (by rw [decoded])
      simp only [decoded] at eq inside' move
      have size : s'.size = s.size := by rw [eq]
      obtain ⟨stop, last, behind⟩ := ih s' row' (by rw [size]; exact size32) (by rw [size]; exact inside')
      refine ⟨size ▸ stop, last.imp_left (congrArg (· + 1)), fun forward => ?_⟩
      obtain ⟨here, later⟩ := forward
      have next : (s.offset + 1 + rowMove t s).toNat = s'.offset := by omega
      rw [next, ← rowsForward_rowOffset t _ n s.offset] at later
      have rest := behind (eq ▸ later)
      dsimp only
      omega
    · rename_i failed
      refine ⟨inside, .inr ⟨row, fun ok => ?_⟩, fun _ => le_rfl⟩
      exact failed _ _ _ (Prod.ext ok rfl)

end Rows

end RawData

open RawData

/-- Whatever a chunk holds, `decode_row` and `skip_row` fail or end inside it, and they end behind
the start of the row exactly if the moves of its fields do not go back. The calls for the rows of an
attached chunk stop inside it, behind the last row or at the first call that fails, and as long as no
row goes back there is a byte for each of them. -/
theorem reads_stay_inside (fmt : FloatFormat) (t : TableDefinition) (s : RawData) (row : RowValue)
    (size32 : s.size < 2 ^ 32) :
    ((decodeRow fmt t s row false).1 = 0 →
      (decodeRow fmt t s row false).2.2.2.offset ≤ s.size ∧
        (s.offset < (decodeRow fmt t s row false).2.2.2.offset ↔ 0 ≤ rowMove t s)) ∧
    ((skipRow t s).1 = 0 →
      (skipRow t s).2.offset ≤ s.size ∧
        (s.rowOffset < (skipRow t s).2.offset ↔ 0 ≤ rowMove t { s with offset := s.rowOffset })) ∧
    ((s.doAttach (t.keyFields - 1) t.keyFormat).1 = 0 →
      let attached := (s.doAttach (t.keyFields - 1) t.keyFormat).2
      let walk := walkRows fmt t attached.rowCount row attached
      walk.2.offset ≤ s.size ∧
        (walk.1 = attached.rowCount ∨ ∃ row', (decodeRow fmt t walk.2 row' false).1 ≠ 0) ∧
        (RowsForward t attached.rowCount attached → attached.offset + walk.1 ≤ walk.2.offset)) := by
  refine ⟨fun ok => ?_, fun ok => ?_, fun ok => ?_⟩
  · obtain ⟨-, inside, move⟩ := decodeRow_moves fmt t s row size32 ok
    exact ⟨inside, by omega⟩
  · obtain ⟨inside, move⟩ := skipRow_moves t s size32 ok
    exact ⟨inside, by omega⟩
  · obtain ⟨-, -, -, size, inside⟩ := doAttach_ok (Prod.ext ok rfl)
    intro attached
    have stops := walkRows_stops fmt t attached row attached.rowCount (size.trans_lt size32)
      (inside.trans size.ge)
    rwa [size] at stops

/-- The only row of a chunk is read and skipped. -/
theorem reads_stay_inside_blob :
    let attached := (blobNode.doAttach 0 4).2
    let decoded := (decodeRow halfFormat blobTable attached (blobRow none) false).2.2.2
    (decoded.offset ≤ attached.size ∧ attached.offset < decoded.offset) ∧
      ((skipRow blobTable attached).2.offset ≤ attached.size ∧
        attached.rowOffset < (skipRow blobTable attached).2.offset) ∧
      attached.offset + 1 ≤ (walkRows halfFormat blobTable 1 (blobRow none) attached).2.offset := by
  intro attached
  obtain ⟨decoded, skipped, -⟩ := reads_stay_inside halfFormat blobTable attached (blobRow none)
    (by decide +kernel)
  obtain ⟨-, -, all⟩ := reads_stay_inside halfFormat blobTable blobNode (blobRow none)
    (by decide +kernel)
  obtain ⟨inside, forward⟩ := decoded (by decide +kernel)
  obtain ⟨inside', forward'⟩ := skipped (by decide +kernel)
  refine ⟨⟨inside, forward.mpr (by decide +kernel)⟩, ⟨inside', forward'.mpr (by decide +kernel)⟩, ?_⟩
  exact (all (by decide +kernel)).2.2 ⟨by decide +kernel, trivial⟩

/-- A chunk whose only string has the stored length -20. -/
def negativeNode : RawData := { blobNode with mem := store blobNode.mem 21 (leBytes 4 (2 ^ 32 - 20)) }

/-- The row begins at 20, the string behind its length at 25, and the read of the row ends at 5. -/
theorem negative_length_moves_back :
    let attached := (negativeNode.doAttach 0 4).2
    let decoded := decodeRow halfFormat blobTable attached (blobRow none) false
    (negativeNode.doAttach 0 4).1 = 0 ∧ attached.offset = 20 ∧
      decoded.1 = 0 ∧ decoded.2.2.2.offset = 5 ∧
      (skipRow blobTable attached).1 = 0 ∧ (skipRow blobTable attached).2.offset = 5 := by
  decide +kernel

end Dtc.Raw
