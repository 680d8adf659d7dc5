import Dtc.Raw.Format

/-!
# The layout of a chunk

`Layout s rows` says that a chunk holds a list of rows: the header is in place and
carries `data_size_` and `row_count_`, and the bytes of the rows follow the key up
to `data_size_`. Each operation on a packed buffer is described as an operation on
the list. Tails of the buffer move by `memmove`, so the lemmas split the list where
the source splits the buffer.
-/

namespace Dtc.Raw

open Library Memory List RawData

/-- The bytes of a list of flagged rows. -/
def rowsBytes (fmt : FloatFormat) (t : TableDefinition) (keyIndex : Nat)
    (rows : List (UInt8 × RowValue)) : List UInt8 :=
  rows.flatMap fun r => rowBytes fmt t keyIndex r.1 r.2

variable {rows : List (UInt8 × RowValue)}

section Rows
variable {fmt : FloatFormat} {t : TableDefinition} {k : Nat}

@[simp] theorem rowsBytes_nil : rowsBytes fmt t k [] = [] := rfl

@[simp] theorem rowsBytes_cons {r : UInt8 × RowValue} :
    rowsBytes fmt t k (r :: rows) = rowBytes fmt t k r.1 r.2 ++ rowsBytes fmt t k rows := rfl

@[simp] theorem rowsBytes_append {xs ys : List (UInt8 × RowValue)} :
    rowsBytes fmt t k (xs ++ ys) = rowsBytes fmt t k xs ++ rowsBytes fmt t k ys :=
  flatMap_append

theorem rowBytes_length_pos (fmt : FloatFormat) (t : TableDefinition) (k : Nat) (flag : UInt8)
    (row : RowValue) : 0 < (rowBytes fmt t k flag row).length := by
  rw [rowBytes, length_cons]
  omega

theorem length_le_rowsBytes (fmt : FloatFormat) (t : TableDefinition) (k : Nat)
    (rows : List (UInt8 × RowValue)) : rows.length ≤ (rowsBytes fmt t k rows).length := by
  induction rows with
  | nil => rfl
  | cons r rows ih =>
    have pos := rowBytes_length_pos fmt t k r.1 r.2
    rw [rowsBytes_cons, length_append, length_cons]
    omega

end Rows

namespace RawData

/-- The parts of a chunk that no operation on rows changes. -/
structure Base (t : TableDefinition) (s : RawData) : Prop where
  range : s.size < 2 ^ 32
  typeByte : (s.mem 0).toNat % 128 = 0
  dataStart : s.dataStart =
    16 + if t.keyFormat ≠ 0 then t.keyFormat else 1 + (s.mem 16).toNat
  keyIndex : s.keyIndex = t.keyFields - 1

/-- The header with the two stored counters. -/
structure Header (t : TableDefinition) (s : RawData) : Prop extends Base t s where
  inside : s.dataSize ≤ s.size
  start : s.dataStart ≤ s.dataSize
  storedSize : Holds s.mem 1 (leBytes 4 s.dataSize)
  storedCount : Holds s.mem 5 (leBytes 4 s.rowCount)

/-- A chunk that holds a list of rows. -/
structure Layout (fmt : FloatFormat) (t : TableDefinition) (s : RawData)
    (rows : List (UInt8 × RowValue)) : Prop extends Header t s where
  holds : Holds s.mem s.dataStart (rowsBytes fmt t s.keyIndex rows)
  size_eq : s.dataSize = s.dataStart + (rowsBytes fmt t s.keyIndex rows).length
  count_eq : s.rowCount = rows.length
  fits : ∀ r ∈ rows, RowFits fmt t s.keyIndex r.2

variable {fmt : FloatFormat} {t : TableDefinition} {s s' : RawData}

theorem Base.start_lt (base : Base t s) : 16 < s.dataStart := by
  rw [base.dataStart]
  split_ifs with h <;> omega

/-- The base depends on the bytes before the rows only. -/
theorem Base.congr (base : Base t s) (range : s'.size < 2 ^ 32)
    (start : s'.dataStart = s.dataStart) (index : s'.keyIndex = s.keyIndex)
    (same : ∀ i, i = 0 ∨ 9 ≤ i → i < s.dataStart → s'.mem i = s.mem i) : Base t s' where
  range := range
  typeByte := by
    rw [same 0 (.inl rfl) (by have := base.start_lt; omega)]
    exact base.typeByte
  dataStart := by
    rw [start, same 16 (.inr (by decide)) base.start_lt]
    exact base.dataStart
  keyIndex := index.trans base.keyIndex

section Counters

theorem setDataSize_eq (room : 9 ≤ s.size) :
    s.setDataSize = { s with mem := store s.mem 1 (leBytes 4 s.dataSize) } := by
  rw [setDataSize, if_neg (by omega)]

theorem setRowCount_eq (room : 9 ≤ s.size) :
    s.setRowCount = { s with mem := store s.mem 5 (leBytes 4 s.rowCount) } := by
  rw [setRowCount, if_neg (by omega)]

/-- Both counters written. -/
theorem setCounters_eq (room : 9 ≤ s.size) : s.setDataSize.setRowCount =
    { s with mem := store (store s.mem 1 (leBytes 4 s.dataSize)) 5 (leBytes 4 s.rowCount) } := by
  rw [setDataSize_eq room]
  exact setRowCount_eq room

section
variable (n : Nat)
include n

@[simp] theorem uncountRow_mem : (s.uncountRow n).mem = s.mem := by rw [uncountRow]
@[simp] theorem uncountRow_size : (s.uncountRow n).size = s.size := by rw [uncountRow]
@[simp] theorem uncountRow_keyIndex : (s.uncountRow n).keyIndex = s.keyIndex := by
  rw [uncountRow]
@[simp] theorem uncountRow_dataStart : (s.uncountRow n).dataStart = s.dataStart := by
  rw [uncountRow]
@[simp] theorem uncountRow_rowOffset : (s.uncountRow n).rowOffset = s.rowOffset := by
  rw [uncountRow]
@[simp] theorem uncountRow_offset : (s.uncountRow n).offset = s.offset := by
  rw [uncountRow]
@[simp] theorem uncountRow_dataSize :
    (s.uncountRow n).dataSize = sub32 s.dataSize n := by rw [uncountRow]
@[simp] theorem uncountRow_rowCount :
    (s.uncountRow n).rowCount = sub32 s.rowCount 1 := by rw [uncountRow]

theorem countRow_eq : s.countRow n =
    { s with dataSize := add32 s.dataSize n,
             rowCount := add32 s.rowCount 1 }.setDataSize.setRowCount := by
  unfold countRow setDataSize
  split_ifs <;> rfl

end

end Counters

/-- Writing the counters completes a header and touches nothing else. -/
theorem Base.header (base : Base t s) (start : s.dataStart ≤ s.dataSize) (inside : s.dataSize ≤ s.size) :
    Header t s.setDataSize.setRowCount ∧
      ∀ i, i = 0 ∨ 9 ≤ i → s.setDataSize.setRowCount.mem i = s.mem i := by
  have above := base.start_lt
  rw [setCounters_eq (by omega)]
  have same : ∀ i, i = 0 ∨ 9 ≤ i → store (store s.mem 1 (leBytes 4 s.dataSize)) 5
      (leBytes 4 s.rowCount) i = s.mem i := by
    intro i hi
    rw [store_outside (by rw [length_leBytes]; omega), store_outside (by rw [length_leBytes]; omega)]
  refine ⟨⟨base.congr base.range rfl rfl fun i hi _ => same i hi, inside, start, ?_, holds_store⟩, same⟩
  exact holds_store.store_apart (by simp only [length_leBytes]; omega)

/-- Writing the counters leaves the rows alone. -/
theorem Base.layout (base : Base t s)
    (holds : Holds s.mem s.dataStart (rowsBytes fmt t s.keyIndex rows))
    (size_eq : s.dataSize = s.dataStart + (rowsBytes fmt t s.keyIndex rows).length)
    (count_eq : s.rowCount = rows.length) (inside : s.dataSize ≤ s.size)
    (fits : ∀ r ∈ rows, RowFits fmt t s.keyIndex r.2) :
    Layout fmt t s.setDataSize.setRowCount rows := by
  have start := base.start_lt
  obtain ⟨header, same⟩ := base.header (by omega) inside
  rw [setCounters_eq (by omega)] at *
  exact ⟨header, holds.congr fun i low _ => same i (.inr (by omega)), size_eq, count_eq, fits⟩

/-- Rearranging the rows region of a chunk. -/
theorem Layout.rearrange {rows' : List (UInt8 × RowValue)} (layout : Layout fmt t s rows)
    {mem : Nat → UInt8} (same : ∀ i < s.dataStart, mem i = s.mem i)
    (holds : Holds mem s.dataStart (rowsBytes fmt t s.keyIndex rows'))
    (length : (rowsBytes fmt t s.keyIndex rows').length =
      (rowsBytes fmt t s.keyIndex rows).length) (count : rows'.length = rows.length)
    (fits : ∀ r ∈ rows', RowFits fmt t s.keyIndex r.2) :
    Layout fmt t { s with mem } rows' := by
  have start := layout.start_lt
  refine ⟨⟨layout.toBase.congr layout.range rfl rfl fun i _ hi => same i hi, layout.inside,
    layout.start, ?_, ?_⟩, holds, ?_, layout.count_eq.trans count.symm, fits⟩
  · exact layout.storedSize.congr fun i _ high => same i (by simp at high; omega)
  · exact layout.storedCount.congr fun i _ high => same i (by simp at high; omega)
  · rw [length]
    exact layout.size_eq

theorem Layout.rowCount_lt (layout : Layout fmt t s rows) :
    rows.length + s.dataStart ≤ s.dataSize := by
  have count := length_le_rowsBytes fmt t s.keyIndex rows
  have size := layout.size_eq
  omega

variable {alloc : Allocator}

/-- A reallocation keeps everything below both sizes. -/
theorem reAlloc_some {n : Nat} (some : s.reAlloc n alloc = some s') :
    n ≤ s'.size ∧ s'.size < 2 ^ 32 ∧ (∀ i < s.size, i < s'.size → s'.mem i = s.mem i) ∧
      s' = { s with mem := s'.mem, size := s'.size } := by
  obtain ⟨grant, answer, rfl⟩ := Option.map_eq_some_iff.mp some
  refine ⟨alloc.covers n grant answer, alloc.range n grant answer, fun i hi hi' => ?_, rfl⟩
  exact if_pos (lt_min hi hi')

/-- `expand_chunk` gives the room that is asked for, and keeps the data and everything but the
chunk. -/
theorem expandChunk_ok {n : Nat} (inside : s.dataSize ≤ s.size) (range : s.size < 2 ^ 32)
    (ok : (s.expandChunk n alloc).1 = 0) :
    ∃ s', s.expandChunk n alloc = (0, s') ∧ add32 s.dataSize n ≤ s'.size ∧ s'.size < 2 ^ 32 ∧
      (∀ i < s.dataSize, s'.mem i = s.mem i) ∧ s' = { s with mem := s'.mem, size := s'.size } := by
  unfold expandChunk at ok ⊢
  split_ifs at ok ⊢ with h
  · cases realloc : s.reAlloc (add32 s.dataSize n) alloc with
    | none =>
      rw [realloc] at ok
      exact absurd ok (show ecNoMem ≠ 0 by decide)
    | some s' =>
      obtain ⟨covers, range', same, rest⟩ := reAlloc_some realloc
      exact ⟨s', rfl, covers, range', fun i hi => same i (by omega) (by omega), rest⟩
  · exact ⟨s, rfl, not_lt.mp h, range, fun _ _ => rfl, rfl⟩

/-- Everything but the rows, the counters and the read position. -/
structure Same (s s' : RawData) : Prop where
  dataStart : s'.dataStart = s.dataStart
  keyIndex : s'.keyIndex = s.keyIndex
  rowOffset : s'.rowOffset = s.rowOffset

theorem setCounters_same (s : RawData) : Same s s.setDataSize.setRowCount := by
  unfold setDataSize setRowCount
  split_ifs <;> exact ⟨rfl, rfl, rfl⟩

theorem setCounters_sizes (s : RawData) : s.setDataSize.setRowCount.offset = s.offset ∧
    s.setDataSize.setRowCount.dataSize = s.dataSize := by
  unfold setDataSize setRowCount
  split_ifs <;> exact ⟨rfl, rfl⟩

theorem countRow_same (s : RawData) (n : Nat) : Same s (s.countRow n) := by
  have kept := setCounters_same { s with dataSize := add32 s.dataSize n,
                                         rowCount := add32 s.rowCount 1 }
  rw [countRow_eq]
  exact { kept with }

theorem countRow_sizes (s : RawData) (n : Nat) : (s.countRow n).offset = s.offset ∧
    (s.countRow n).dataSize = add32 s.dataSize n := by
  rw [countRow_eq]
  exact setCounters_sizes _

/-- Counting a row touches the two counters only. -/
theorem countRow_frame (s : RawData) (n : Nat) : (s.countRow n).size = s.size ∧
    (s.countRow n).rowCount = add32 s.rowCount 1 ∧
      ∀ i, i = 0 ∨ 9 ≤ i → (s.countRow n).mem i = s.mem i := by
  rw [countRow_eq]
  unfold setDataSize setRowCount
  split_ifs <;> refine ⟨rfl, rfl, fun i hi => ?_⟩
  · rfl
  · exact store_outside (by rw [length_leBytes]; omega)
  · exact store_outside (by rw [length_leBytes]; omega)
  · dsimp only
    rw [store_outside (by rw [length_leBytes]; omega)]
    exact store_outside (by rw [length_leBytes]; omega)

section
variable {row : RowValue} (layout : Layout fmt t s rows) (fitsRow : RowFits fmt t s.keyIndex row)
include layout fitsRow

/-- `encode_row` at the end of the data appends the row. -/
theorem Layout.encodeRow {op : UInt8}
    (ok : (encodeRow fmt t { s with offset := s.dataSize } row op alloc).1 = 0) :
    ∃ s', encodeRow fmt t { s with offset := s.dataSize } row op alloc = (0, s') ∧
      Layout fmt t s' (rows ++ [(op, row)]) ∧ Same s s' ∧ s'.offset = s'.dataSize ∧
        s'.dataSize = s.dataSize + (rowBytes fmt t s.keyIndex op row).length ∧
        s'.mem 0 = s.mem 0 := by
  unfold RawData.encodeRow at ok ⊢
  cases expand : expandChunk { s with offset := s.dataSize }
      (calcRowSize t row s.keyIndex) alloc with
  | mk code s₁ =>
  rw [expand] at ok
  have code_eq : code = 0 := by
    by_contra h
    cases code with
    | ofNat n => cases n <;> simp_all
    | negSucc n => simp_all
  subst code_eq
  obtain ⟨s₂, eq, inside, range, same, rest⟩ := expandChunk_ok
    (s := { s with offset := s.dataSize }) layout.inside layout.range (by rw [expand])
  obtain rfl := (Prod.ext_iff.mp (expand.symm.trans eq)).2
  dsimp only at ok inside range same rest ⊢
  obtain ⟨room, written_eq⟩ := encodeRowHere_ok ok
  have index : s₁.keyIndex = s.keyIndex := by rw [rest]
  have offset : s₁.offset = s.dataSize := by rw [rest]
  have start : s₁.dataStart = s.dataStart := by rw [rest]
  have dataSize : s₁.dataSize = s.dataSize := by rw [rest]
  have rowCount : s₁.rowCount = s.rowCount := by rw [rest]
  have rowOffset : s₁.rowOffset = s.rowOffset := by rw [rest]
  have counted := layout.rowCount_lt
  have dataStart := layout.start_lt
  rw [index, offset] at room
  have small : add32 s.dataSize (rowBytes fmt t s.keyIndex op row).length =
      s.dataSize + (rowBytes fmt t s.keyIndex op row).length := add32_eq (by omega)
  have small' : add32 s.rowCount 1 = s.rowCount + 1 := add32_eq (by rw [layout.count_eq]; omega)
  rw [index] at written_eq
  have kept := countRow_same (written fmt t s₁ row op) (rowBytes fmt t s.keyIndex op row).length
  have sizes := countRow_sizes (written fmt t s₁ row op) (rowBytes fmt t s.keyIndex op row).length
  refine ⟨(written fmt t s₁ row op).countRow (rowBytes fmt t s.keyIndex op row).length,
    Prod.ext ok written_eq, ?_, ?_, ?_, ?_, ?_⟩
  · rw [countRow_eq]
    apply Base.layout
    · refine layout.toBase.congr range start index fun i _ hi => ?_
      have low : i < s.dataSize := by omega
      rw [← same i low]
      exact store_outside (.inl (by rw [offset]; exact low))
    · simp only [written, start, index, offset, rowsBytes_append, rowsBytes_cons, rowsBytes_nil,
        append_nil, holds_append]
      constructor
      · refine (layout.holds.congr fun i _ hi => same i ?_).store_apart (.inl layout.size_eq.ge)
        rw [layout.size_eq]
        exact hi
      · rw [← layout.size_eq]
        exact holds_store
    · simp only [written, start, index, dataSize, small, rowsBytes_append, rowsBytes_cons,
        rowsBytes_nil, append_nil, length_append]
      rw [layout.size_eq]
      omega
    · simp only [written, rowCount, small', length_append, length_singleton]
      rw [layout.count_eq]
    · simp only [written, dataSize, small]
      exact room
    · intro r hr
      simp only [written, index]
      obtain hr | hr := mem_append.mp hr
      · exact layout.fits r hr
      · rw [mem_singleton.mp hr]
        exact fitsRow
  · exact ⟨kept.dataStart.trans start, kept.keyIndex.trans index, kept.rowOffset.trans rowOffset⟩
  · rw [sizes.1, sizes.2]
    simp only [written, offset, index, dataSize, small]
  · rw [sizes.2]
    simp only [written, dataSize, small]
  · have below := layout.start
    rw [(countRow_frame _ _).2.2 0 (.inl rfl), ← same 0 (by omega)]
    exact store_outside (.inl (by omega))

section
variable {op : UInt8} {byFirst temp : Bool}
  (ok : (s.insertRowFlag fmt t row byFirst op alloc temp).1 = 0)
include ok

/-- `insert_row_flag` puts the row at the chosen end; the read position is behind
the data, and the type byte is as it was. -/
theorem Layout.insertRowFlag :
    ∃ s', s.insertRowFlag fmt t row byFirst op alloc temp = (0, s') ∧
      Layout fmt t s' (if byFirst then (op, row) :: rows else rows ++ [(op, row)]) ∧
        Same s s' ∧ s'.offset = s'.dataSize ∧ s'.mem 0 = s.mem 0 := by
  unfold RawData.insertRowFlag at ok ⊢
  dsimp only at ok ⊢
  have encoded : (RawData.encodeRow fmt t { s with offset := s.dataSize } row op alloc).1 = 0 := by
    split_ifs at ok with h
    · exact h.1
    · exact h.1
    · exact ok
  obtain ⟨s', eq, appended, same, offset, dataSize, typeByte⟩ := layout.encodeRow fitsRow encoded
  rw [eq] at ok ⊢
  dsimp only at ok ⊢
  have range := appended.range
  have inside := appended.inside
  have least := layout.start_lt
  have size_eq := layout.size_eq
  have newSize : sub32 s'.dataSize s.dataSize = (rowBytes fmt t s.keyIndex op row).length := by
    rw [sub32_eq (by omega) (by omega)]
    omega
  have oldSize : sub32 s.dataSize s'.dataStart = (rowsBytes fmt t s.keyIndex rows).length := by
    rw [same.dataStart, sub32_eq (by omega) (by omega)]
    omega
  have pos := rowBytes_length_pos fmt t s.keyIndex op row
  rw [newSize, oldSize] at ok ⊢
  by_cases cond : (0 : Int) = 0 ∧ byFirst = true ∧ 0 < (rowBytes fmt t s.keyIndex op row).length ∧
      0 < (rowsBytes fmt t s.keyIndex rows).length
  · rw [if_pos cond] at ok ⊢
    have htemp : (!temp) ≠ true := by
      intro h
      rw [if_pos h] at ok
      exact absurd ok (by simp)
    rw [if_neg htemp]
    refine ⟨_, rfl, ?_, { same with }, offset, ?_⟩
    rotate_left
    · dsimp only
      rw [same.dataStart, store_outside (.inl (by omega)), move, store_outside (.inl (by omega)), typeByte]
    have holds := appended.holds
    rw [same.keyIndex, same.dataStart, rowsBytes_append, holds_append, rowsBytes_cons,
      rowsBytes_nil, append_nil, ← size_eq] at holds
    rw [holds.2.slice_eq rfl, if_pos cond.2.1]
    apply appended.rearrange
    · intro i hi
      rw [store_outside (.inl hi)]
      exact store_outside (.inl (by omega))
    · rw [same.keyIndex, same.dataStart, rowsBytes_cons, holds_append]
      refine ⟨holds_store, Holds.store_apart ?_ (.inr le_rfl)⟩
      exact holds.1.move_to _
    · rw [same.keyIndex, rowsBytes_cons, rowsBytes_append, rowsBytes_cons, rowsBytes_nil,
        append_nil, length_append, length_append, Nat.add_comm]
    · simp
    · intro r hr
      exact appended.fits r (by simpa [or_comm] using hr)
  · rw [if_neg cond]
    refine ⟨s', rfl, ?_, same, offset, typeByte⟩
    cases byFirst with
    | false => exact appended
    | true =>
      -- the row is the first one of an empty list
      have bound := length_le_rowsBytes fmt t s.keyIndex rows
      have zero : (rowsBytes fmt t s.keyIndex rows).length = 0 := by
        by_contra h
        exact cond ⟨rfl, rfl, pos, Nat.pos_of_ne_zero h⟩
      obtain rfl : rows = [] := eq_nil_of_length_eq_zero (by omega)
      exact appended

theorem Layout.inserted :
    Layout fmt t (s.insertRowFlag fmt t row byFirst op alloc temp).2
      (if byFirst then (op, row) :: rows else rows ++ [(op, row)]) := by
  obtain ⟨s', eq, inserted, -⟩ := layout.insertRowFlag fitsRow ok
  rw [eq]
  exact inserted

end

end

/-- The current row and the rows around it. -/
structure Layout.At (fmt : FloatFormat) (t : TableDefinition) (s : RawData)
    (pre : List (UInt8 × RowValue)) (flag : UInt8) (row : RowValue)
    (post : List (UInt8 × RowValue)) : Prop where
  layout : Layout fmt t s (pre ++ (flag, row) :: post)
  current : s.rowOffset = s.dataStart + (rowsBytes fmt t s.keyIndex pre).length

section Current
variable {pre post : List (UInt8 × RowValue)} {flag : UInt8} {row : RowValue}

open Layout

section
variable (at_ : At fmt t s pre flag row post)
include at_

/-- The three regions of a buffer with a current row. -/
theorem Layout.At.regions :
    Holds s.mem s.dataStart (rowsBytes fmt t s.keyIndex pre) ∧
      Holds s.mem s.rowOffset (rowBytes fmt t s.keyIndex flag row) ∧
      Holds s.mem (s.rowOffset + (rowBytes fmt t s.keyIndex flag row).length)
        (rowsBytes fmt t s.keyIndex post) ∧
      s.dataSize = s.rowOffset + (rowBytes fmt t s.keyIndex flag row).length +
        (rowsBytes fmt t s.keyIndex post).length := by
  have holds := at_.layout.holds
  have size := at_.layout.size_eq
  rw [rowsBytes_append, rowsBytes_cons] at holds size
  rw [length_append, length_append] at size
  rw [holds_append, holds_append, ← at_.current] at holds
  have current := at_.current
  dsimp only at holds size
  exact ⟨holds.1, holds.2.1, holds.2.2, by omega⟩

/-- `skip_row` finds the end of the current row. -/
theorem Layout.At.skipRow :
    skipRow t s = (0, { s with
      offset := s.rowOffset + (rowBytes fmt t s.keyIndex flag row).length }) := by
  obtain ⟨-, here, -, size⟩ := at_.regions
  have pos := rowBytes_length_pos fmt t s.keyIndex flag row
  have inside := at_.layout.inside
  exact skipRow_spec (by omega) ⟨here, by dsimp only; omega, at_.layout.range⟩

/-- `set_cur_row_flag`. -/
theorem Layout.At.setCurRowFlag (flag' : UInt8) :
    ∃ s', s.setCurRowFlag flag' = (0, s') ∧ At fmt t s' pre flag' row post ∧ Same s s' ∧
      s'.offset = s.offset := by
  obtain ⟨before, here, after, size⟩ := at_.regions
  have pos := rowBytes_length_pos fmt t s.keyIndex flag row
  have current := at_.current
  have length : (rowBytes fmt t s.keyIndex flag' row).length =
      (rowBytes fmt t s.keyIndex flag row).length := rfl
  refine ⟨{ s with mem := store s.mem s.rowOffset [flag'] }, ?_, ⟨?_, at_.current⟩,
    ⟨rfl, rfl, rfl⟩, rfl⟩
  · rw [RawData.setCurRowFlag, if_neg (by omega)]
  · apply at_.layout.rearrange
    · intro i hi
      exact store_outside (.inl (by omega))
    · rw [rowsBytes_append, rowsBytes_cons, holds_append, holds_append, ← at_.current]
      refine ⟨before.store_apart (.inl (by omega)), ?_, ?_⟩
      · rw [rowBytes, holds_cons] at here ⊢
        refine ⟨?_, here.2.store_apart (.inr le_rfl)⟩
        exact (holds_cons.mp (show Holds (store s.mem s.rowOffset [flag']) _ [flag'] from holds_store)).1
      · rw [length]
        exact after.store_apart (.inr (by simp; omega))
    · simp only [rowsBytes_append, rowsBytes_cons, length_append, length]
    · simp
    · intro r hr
      obtain hr | hr := mem_append.mp hr
      · exact at_.layout.fits r (mem_append_left _ hr)
      · obtain rfl | hr := mem_cons.mp hr
        · exact at_.layout.fits (flag, row) (by simp)
        · exact at_.layout.fits r (by simp [hr])

end

theorem Layout.moveCursor (layout : Layout fmt t s rows) (offset rowOffset : Nat) :
    Layout fmt t { s with offset, rowOffset } rows :=
  { layout with keyIndex := layout.keyIndex }

/-- `delete_cur_row` closes the gap and leaves the next row current. -/
theorem Layout.At.deleteCurRow (at_ : At fmt t s pre flag row post) :
    ∃ s', deleteCurRow t s = (0, s') ∧ Layout fmt t s' (pre ++ post) ∧ Same s s' ∧
      s'.offset = s.rowOffset := by
  obtain ⟨before, -, after, size⟩ := at_.regions
  have current := at_.current
  have inside := at_.layout.inside
  have range := at_.layout.range
  have count := at_.layout.count_eq
  have counted := at_.layout.rowCount_lt
  rw [length_append, length_cons] at count counted
  have nextSize : sub32 s.dataSize (s.rowOffset + (rowBytes fmt t s.keyIndex flag row).length) =
      (rowsBytes fmt t s.keyIndex post).length := by
    rw [sub32_eq (by omega) (by omega)]
    omega
  have curSize : sub32 (s.rowOffset + (rowBytes fmt t s.keyIndex flag row).length) s.rowOffset =
      (rowBytes fmt t s.keyIndex flag row).length := by
    rw [sub32_eq (by omega) (by omega)]
    omega
  unfold RawData.deleteCurRow
  rw [at_.skipRow]
  dsimp only
  rw [if_neg (by decide), nextSize, curSize]
  generalize hs' : { s with
    mem := move s.mem s.rowOffset (s.rowOffset + (rowBytes fmt t s.keyIndex flag row).length)
      (rowsBytes fmt t s.keyIndex post).length,
    offset := s.rowOffset + (rowBytes fmt t s.keyIndex flag row).length } = s'
  have mem : s'.mem = move s.mem s.rowOffset
      (s.rowOffset + (rowBytes fmt t s.keyIndex flag row).length)
        (rowsBytes fmt t s.keyIndex post).length := by rw [← hs']
  have dataSize : s'.dataSize = s.dataSize := by rw [← hs']
  have rowCount : s'.rowCount = s.rowCount := by rw [← hs']
  have same : Same s s' := by
    rw [← hs']
    exact ⟨rfl, rfl, rfl⟩
  have size' : s'.size = s.size := by rw [← hs']
  have kept := setCounters_same (s'.uncountRow (rowBytes fmt t s.keyIndex flag row).length)
  refine ⟨_, rfl, moveCursor ?_ _ _, ⟨?_, ?_, ?_⟩, ?_⟩
  · apply Base.layout
    · refine at_.layout.toBase.congr ?_ ?_ ?_ fun i _ hi => ?_
      · rwa [uncountRow_size, size']
      · rw [uncountRow_dataStart, same.dataStart]
      · rw [uncountRow_keyIndex, same.keyIndex]
      · rw [uncountRow_mem, mem]
        exact store_outside (.inl (by omega))
    · rw [uncountRow_mem, uncountRow_keyIndex, uncountRow_dataStart, mem, same.keyIndex,
        same.dataStart, rowsBytes_append, holds_append, ← at_.current]
      exact ⟨before.move_apart (.inl at_.current.ge), after.move_to _⟩
    · rw [uncountRow_dataSize, uncountRow_keyIndex, uncountRow_dataStart, dataSize, same.keyIndex,
        same.dataStart, rowsBytes_append, length_append, sub32_eq (by omega) (by omega)]
      omega
    · rw [uncountRow_rowCount, rowCount, length_append, sub32_eq (by omega) (by omega)]
      omega
    · rw [uncountRow_dataSize, uncountRow_size, dataSize, size', sub32_eq (by omega) (by omega)]
      omega
    · intro r hr
      rw [uncountRow_keyIndex, same.keyIndex]
      exact at_.layout.fits r (by
        obtain hr | hr := mem_append.mp hr
        · exact mem_append_left _ hr
        · exact mem_append_right _ (mem_cons_of_mem _ hr))
  · exact kept.dataStart.trans ((uncountRow_dataStart _).trans same.dataStart)
  · exact kept.keyIndex.trans ((uncountRow_keyIndex _).trans same.keyIndex)
  · exact kept.rowOffset.trans ((uncountRow_rowOffset _).trans same.rowOffset)
  · exact kept.rowOffset.trans ((uncountRow_rowOffset _).trans same.rowOffset)

end Current

/-- `delete_all_rows`. -/
theorem Layout.deleteAllRows (layout : Layout fmt t s rows) :
    ∃ s', s.deleteAllRows = (0, s') ∧ Layout fmt t s' [] ∧ s'.dataStart = s.dataStart ∧
      s'.keyIndex = s.keyIndex ∧ s'.rowOffset = s.dataStart ∧ s'.offset = s.dataStart := by
  have kept := setCounters_same { s with
    dataSize := s.dataStart, rowOffset := s.dataStart, rowCount := 0, offset := s.dataStart }
  have inside := layout.inside
  have start := layout.start
  refine ⟨_, rfl, ?_, kept.dataStart, kept.keyIndex, kept.rowOffset, (setCounters_sizes _).1⟩
  apply Base.layout
  · exact layout.toBase.congr layout.range rfl rfl fun _ _ _ => rfl
  · exact holds_nil
  · rfl
  · rfl
  · dsimp only
    omega
  · simp

end RawData

end Dtc.Raw
