import Dtc.Raw.Cursor

/-!
# What is stored of a row

A number is cut to the width of its field when a row is written, and key fields and discard
fields are not written at all. So two rows can be the same row of a buffer: the calls that
write a row do not see the difference, and a buffer that holds one of them holds the other.
-/

namespace Dtc.Raw

open Library Memory List RawData FieldDefinition FieldValue

/-- A `float` keeps its bits when it is widened and narrowed again. -/
def FloatFormat.Stable (fmt : FloatFormat) : Prop :=
  ∀ x, fmt.narrow (fmt.widen (fmt.narrow x)) = fmt.narrow x

/-- The value in the width of its field. -/
def FieldDefinition.stored (fmt : FloatFormat) (f : FieldDefinition) (v : DTCValue) : DTCValue :=
  match f.fieldType with
  | .signed => if 4 < f.fieldSize then v else { v with num := (v.num.setWidth 32).signExtend 64 }
  | .unsigned => if 4 < f.fieldSize then v else { v with num := (v.num.setWidth 32).setWidth 64 }
  | .float => if 4 < f.fieldSize then v else { v with num := fmt.widen (fmt.narrow v.num) }
  | .string | .binary | .none => v

/-- The row as it is read back. -/
def storedRow (fmt : FloatFormat) (t : TableDefinition) (row : RowValue) : RowValue :=
  fun j => (t.field j).stored fmt (row j)

section Field
variable {fmt : FloatFormat} {f : FieldDefinition} {v w : DTCValue}

theorem leBytes_four_congr {x y : BitVec 64} (same : x.setWidth 32 = y.setWidth 32) :
    leBytes 4 x.toNat = leBytes 4 y.toNat := by
  have low := congrArg BitVec.toNat same
  rw [← leBytes_mod, ← leBytes_mod 4 y.toNat]
  exact congrArg (leBytes 4) low

theorem signExtend_low (x : BitVec 64) :
    ((x.setWidth 32).signExtend 64).setWidth 32 = x.setWidth 32 := by
  ext i hi
  simp [BitVec.getElem_setWidth, BitVec.getLsbD_signExtend, hi]
  omega

theorem setWidth_low (x : BitVec 64) : ((x.setWidth 32).setWidth 64).setWidth 32 = x.setWidth 32 := by
  simp

/-- The cut is what the width of the field does anyway. -/
theorem fieldBytes_stored (stable : fmt.Stable) :
    fieldBytes fmt f (f.stored fmt v) = fieldBytes fmt f v := by
  unfold fieldBytes stored
  cases f.fieldType with
  | signed =>
    split_ifs
    · rfl
    · exact leBytes_four_congr (signExtend_low v.num)
  | unsigned =>
    split_ifs
    · rfl
    · exact leBytes_four_congr (setWidth_low v.num)
  | float =>
    split_ifs
    · rfl
    · rw [stable]
  | string | binary | none => rfl

theorem fits_stored (stable : fmt.Stable) : f.Fits fmt (f.stored fmt v) := by
  unfold Fits stored
  cases f.fieldType with
  | signed =>
    intro narrow
    rw [if_neg (not_lt.mpr narrow)]
    exact congrArg (BitVec.signExtend 64) (signExtend_low v.num)
  | unsigned =>
    intro narrow
    dsimp only
    rw [if_neg (not_lt.mpr narrow)]
    exact congrArg (BitVec.setWidth 64) (setWidth_low v.num)
  | float =>
    intro narrow
    dsimp only
    rw [if_neg (not_lt.mpr narrow)]
    exact congrArg fmt.widen (stable v.num)
  | string | binary | none => trivial

/-- A value that fits is stored as it is. -/
theorem member_stored (fits : f.Fits fmt v) : f.member (f.stored fmt v) = f.member v := by
  unfold Fits at fits
  unfold member stored
  cases type : f.fieldType with
  | signed | unsigned | float =>
    rw [type] at fits
    split_ifs with wide
    · rfl
    · exact congrArg num (fits (not_lt.mp wide))
  | string | binary | none => rfl

section
variable (same : f.member v = f.member w)
include same

theorem fieldBytes_congr : fieldBytes fmt f v = fieldBytes fmt f w := by
  unfold member at same
  unfold fieldBytes
  cases type : f.fieldType with
  | signed | unsigned | float =>
    rw [type] at same
    rw [num.inj same]
  | string | binary | none =>
    rw [type] at same
    rw [bin.inj same]

theorem fits_congr (fits : f.Fits fmt v) : f.Fits fmt w := by
  unfold member at same
  unfold Fits at fits ⊢
  cases type : f.fieldType with
  | signed | unsigned | float =>
    rw [type] at same fits
    rwa [← num.inj same]
  | string | binary | none => trivial

theorem stored_congr : f.member (f.stored fmt v) = f.member (f.stored fmt w) := by
  unfold member at same ⊢
  unfold stored
  cases type : f.fieldType with
  | signed | unsigned | float =>
    rw [type] at same
    have num := num.inj same
    split_ifs <;> simp only [num]
  | string | binary | none =>
    rw [type] at same
    exact same

end

end Field

section Row
variable {fmt : FloatFormat} {t : TableDefinition} {k : Nat} {a b row : RowValue}

theorem rowView_eq_iff :
    rowView t k a = rowView t k b ↔
      ∀ j ∈ storedFields t k, (t.field j).member (a j) = (t.field j).member (b j) :=
  map_inj_left

theorem rowBytes_congr (view : rowView t k a = rowView t k b) (flag : UInt8) :
    rowBytes fmt t k flag a = rowBytes fmt t k flag b := by
  have same := rowView_eq_iff.mp view
  rw [rowBytes, rowBytes, fieldsBytes, fieldsBytes]
  congr 1
  exact flatMap_congr fun j mem => fieldBytes_congr (same j mem)

theorem rowFits_congr (view : rowView t k a = rowView t k b) (fits : RowFits fmt t k a) :
    RowFits fmt t k b :=
  fun j mem => fits_congr (rowView_eq_iff.mp view j mem) (fits j mem)

theorem storedRow_fits (stable : fmt.Stable) : RowFits fmt t k (storedRow fmt t row) :=
  fun _ _ => fits_stored stable

theorem storedRow_congr (view : rowView t k a = rowView t k b) :
    rowView t k (storedRow fmt t a) = rowView t k (storedRow fmt t b) :=
  rowView_eq_iff.mpr fun j mem => stored_congr (rowView_eq_iff.mp view j mem)

/-- A row that fits is stored as it is. -/
theorem storedRow_view (fits : RowFits fmt t k row) :
    rowView t k (storedRow fmt t row) = rowView t k row :=
  rowView_eq_iff.mpr fun j mem => member_stored (fits j mem)

/-- The view of the rows of a buffer: flags and stored fields. -/
def rowsView (t : TableDefinition) (k : Nat) (rows : List (UInt8 × RowValue)) :
    List (UInt8 × List FieldValue) :=
  rows.map fun r => (r.1, rowView t k r.2)

variable {rows' rows : List (UInt8 × RowValue)}

theorem rowsBytes_congr (view : rowsView t k rows = rowsView t k rows') :
    rowsBytes fmt t k rows = rowsBytes fmt t k rows' := by
  induction rows generalizing rows' with
  | nil => rw [map_eq_nil_iff.mp view.symm]
  | cons r rows ih =>
    obtain ⟨r', rest, rfl, head, tail⟩ := map_eq_cons_iff.mp view.symm
    obtain ⟨flag, fields⟩ := Prod.mk.inj head
    rw [rowsBytes_cons, rowsBytes_cons, ih tail.symm, ← flag, rowBytes_congr fields]

theorem rowsFit_congr (view : rowsView t k rows = rowsView t k rows')
    (fits : ∀ r ∈ rows, RowFits fmt t k r.2) : ∀ r ∈ rows', RowFits fmt t k r.2 := by
  intro r' mem'
  have mem : (r'.1, rowView t k r'.2) ∈ rowsView t k rows := by
    rw [view]
    exact mem_map_of_mem mem'
  obtain ⟨r, mem, eq⟩ := mem_map.mp mem
  exact rowFits_congr (Prod.mk.inj eq).2 (fits r mem)

/-- A buffer that holds rows holds all rows that look the same. -/
theorem RawData.Layout.congr {s : RawData} (layout : s.Layout fmt t rows)
    (view : rowsView t s.keyIndex rows = rowsView t s.keyIndex rows') :
    s.Layout fmt t rows' where
  toHeader := layout.toHeader
  holds := rowsBytes_congr view ▸ layout.holds
  size_eq := rowsBytes_congr view ▸ layout.size_eq
  count_eq := by
    rw [layout.count_eq, ← show (rowsView t s.keyIndex rows).length = rows.length from length_map _]
    exact (congrArg length view).trans (length_map ..)
  fits := rowsFit_congr view layout.fits

/-- A chunk holds only one list of rows, as far as they are stored. -/
theorem RawData.Layout.view_unique {s : RawData} (layout : s.Layout fmt t rows)
    (layout' : s.Layout fmt t rows') :
    rowsView t (t.keyFields - 1) rows = rowsView t (t.keyFields - 1) rows' := by
  have rewound := simulates_rewound (s := s.rewind) (layout.moveCursor s.dataStart s.dataStart) rfl rfl
  have rewound' := simulates_rewound (s := s.rewind) (layout'.moveCursor s.dataStart s.dataStart) rfl rfl
  obtain ⟨_, read, -⟩ := rewound.represents.content
  obtain ⟨_, read', -⟩ := rewound'.represents.content
  exact (Prod.mk.inj (Option.some.inj (read.symm.trans read'))).1

end Row

/-! ### Calls that write a row -/

section Calls
variable {fmt : FloatFormat} {t : TableDefinition} (stable : fmt.Stable) (row : RowValue)
include stable

theorem calcRowSize_stored (keyIdx : Nat) :
    calcRowSize t (storedRow fmt t row) keyIdx = calcRowSize t row keyIdx := by
  have field : ∀ j, calcField (t.field j) (storedRow fmt t row j) =
      calcField (t.field j) (row j) := by
    intro j
    rw [calcField_eq fmt, calcField_eq fmt, storedRow, fieldBytes_stored stable]
  simp only [calcRowSize, field]

theorem encodeFields_stored (js : List Nat) (s : RawData) :
    encodeFields fmt t (storedRow fmt t row) js s = encodeFields fmt t row js s := by
  induction js generalizing s with
  | nil => rfl
  | cons j js ih =>
    simp only [encodeFields, ih]
    rw [storedRow, fieldBytes_stored stable]

theorem encodeRowHere_stored (s : RawData) (op : UInt8) :
    encodeRowHere fmt t s (storedRow fmt t row) op = encodeRowHere fmt t s row op := by
  simp only [encodeRowHere, encodeFields_stored stable, calcRowSize_stored stable]

theorem encodeRow_stored (s : RawData) (op : UInt8) (alloc : Allocator) :
    encodeRow fmt t s (storedRow fmt t row) op alloc = encodeRow fmt t s row op alloc := by
  rw [encodeRow, encodeRow, calcRowSize_stored stable]
  split
  · exact encodeRowHere_stored stable row _ op
  · rfl

theorem insertRowFlag_stored (s : RawData) (byFirst : Bool) (op : UInt8) (alloc : Allocator)
    (temp : Bool) : s.insertRowFlag fmt t (storedRow fmt t row) byFirst op alloc temp =
      s.insertRowFlag fmt t row byFirst op alloc temp := by
  simp only [insertRowFlag, encodeRow_stored stable]

theorem replaceCurRow_stored (s : RawData) (isDirty : Bool) (alloc : Allocator) (temp : Bool) :
    s.replaceCurRow fmt t (storedRow fmt t row) isDirty alloc temp =
      s.replaceCurRow fmt t row isDirty alloc temp := by
  simp only [replaceCurRow, replaceLonger, replaceShorter,
    encodeRowHere_stored stable, calcRowSize_stored stable]

end Calls

end Dtc.Raw
