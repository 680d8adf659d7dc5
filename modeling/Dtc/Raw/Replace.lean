import Dtc.Raw.Layout

/-!
# Replacing the current row

`replace_cur_row` has two branches. For a longer row the chunk grows, the tail
moves up and the row is written into the gap. For another row the row is written
first, the tail moves down and the chunk is reallocated. Both leave the same
regions, collected in `Replaced`, and share the end in which the header is written.

The sizes passed to the allocator are 32-bit numbers. The second branch asks for
`data_size_` plus twice the new row, so the lemmas need that sum to fit.
-/

namespace Dtc.Raw

open Library Memory RawData Layout

namespace RawData

variable {fmt : FloatFormat} {t : TableDefinition} {s s' : RawData}
variable {pre post : List (UInt8 × RowValue)} {flag : UInt8} {row : RowValue}

/-- A guard that only spares copies that change nothing does not matter. -/
theorem ite_move {guard : Prop} [Decidable guard] {dst src n : Nat}
    (idle : ¬guard → n = 0 ∨ dst = src) :
    (if guard then { s with mem := move s.mem dst src n } else s) =
      { s with mem := move s.mem dst src n } := by
  split_ifs with h
  · rfl
  · obtain rfl | rfl := idle h
    · simp [move]
    · rw [move_self]

/-- A row of `bytes` has been written at the current row and counted once more. -/
structure Wrote (s s' : RawData) (bytes : List UInt8) : Prop where
  same : Same s s'
  room : s.rowOffset + bytes.length ≤ s.size
  size : s'.size = s.size
  offset : s'.offset = s.rowOffset + bytes.length
  dataSize : s'.dataSize = add32 s.dataSize bytes.length
  rowCount : s'.rowCount = add32 s.rowCount 1
  mem : ∀ i, i = 0 ∨ 9 ≤ i → s'.mem i = store s.mem s.rowOffset bytes i

/-- `encode_row` at the current row. -/
theorem encodeRowHere_wrote {row : RowValue} {op : UInt8}
    (ok : (encodeRowHere fmt t { s with offset := s.rowOffset } row op).1 = 0) :
    Wrote s (encodeRowHere fmt t { s with offset := s.rowOffset } row op).2
      (rowBytes fmt t s.keyIndex op row) := by
  obtain ⟨room, eq⟩ := encodeRowHere_ok ok
  rw [eq]
  have kept := countRow_same (written fmt t { s with offset := s.rowOffset } row op)
    (rowBytes fmt t s.keyIndex op row).length
  obtain ⟨offset, dataSize⟩ := countRow_sizes
    (written fmt t { s with offset := s.rowOffset } row op)
    (rowBytes fmt t s.keyIndex op row).length
  obtain ⟨size, rowCount, mem⟩ := countRow_frame
    (written fmt t { s with offset := s.rowOffset } row op)
    (rowBytes fmt t s.keyIndex op row).length
  exact ⟨{ kept with }, room, size, offset, dataSize, rowCount, mem⟩

/-- A buffer in which the current row has been exchanged and the header is still to
be written. -/
structure Replaced (fmt : FloatFormat) (t : TableDefinition) (s s' : RawData)
    (pre : List (UInt8 × RowValue)) (flag : UInt8) (row : RowValue)
    (post : List (UInt8 × RowValue)) : Prop where
  base : Base t s'
  same : Same s s'
  before : Holds s'.mem s.dataStart (rowsBytes fmt t s.keyIndex pre)
  here : Holds s'.mem s.rowOffset (rowBytes fmt t s.keyIndex flag row)
  after : Holds s'.mem (s.rowOffset + (rowBytes fmt t s.keyIndex flag row).length)
    (rowsBytes fmt t s.keyIndex post)
  size : s'.dataSize = s.rowOffset + (rowBytes fmt t s.keyIndex flag row).length +
    (rowsBytes fmt t s.keyIndex post).length
  inside : s'.dataSize ≤ s'.size
  count : s'.rowCount = s.rowCount
  offset : s'.offset = s.rowOffset + (rowBytes fmt t s.keyIndex flag row).length

variable {row' : RowValue} {flag' : UInt8}

/-- A call that succeeds has not left early. -/
theorem not_of_fst_ite {p : Prop} [Decidable p] {x y : Int × RawData}
    (ok : (if p then x else y).1 = 0) (code : x.1 ≠ 0) : ¬p := by
  intro h
  rw [if_pos h] at ok
  exact code ok

section
variable (at_ : Layout.At fmt t s pre flag row post)

include at_

/-- The facts of a replacement from the bytes it leaves. -/
theorem Layout.At.replaced (range : s'.size < 2 ^ 32) (same : Same s s')
    (low : ∀ i, i = 0 ∨ 9 ≤ i → i < s.rowOffset → s'.mem i = s.mem i)
    (here : Holds s'.mem s.rowOffset (rowBytes fmt t s.keyIndex flag' row'))
    (after : Holds s'.mem (s.rowOffset + (rowBytes fmt t s.keyIndex flag' row').length)
      (rowsBytes fmt t s.keyIndex post))
    (dataSize : s'.dataSize = add32 s.dataSize (rowBytes fmt t s.keyIndex flag' row').length)
    (rowCount : s'.rowCount = add32 s.rowCount 1)
    (offset : s'.offset = s.rowOffset + (rowBytes fmt t s.keyIndex flag' row').length)
    (inside : s.rowOffset + (rowBytes fmt t s.keyIndex flag' row').length +
      (rowsBytes fmt t s.keyIndex post).length ≤ s'.size) :
    Replaced fmt t s (s'.uncountRow (rowBytes fmt t s.keyIndex flag row).length)
      pre flag' row' post := by
  obtain ⟨before, -, -, size⟩ := at_.regions
  have current := at_.current
  have start := at_.layout.start_lt
  have counted := at_.layout.rowCount_lt
  have dataIn := at_.layout.inside
  have dataRange := at_.layout.range
  have count := at_.layout.count_eq
  have newSize : (s'.uncountRow (rowBytes fmt t s.keyIndex flag row).length).dataSize =
      s.rowOffset + (rowBytes fmt t s.keyIndex flag' row').length +
        (rowsBytes fmt t s.keyIndex post).length := by
    rw [uncountRow_dataSize, dataSize, sub32_add32 (by omega) (by omega) (by omega)]
    omega
  have newCount : (s'.uncountRow (rowBytes fmt t s.keyIndex flag row).length).rowCount =
      s.rowCount := by
    rw [uncountRow_rowCount, rowCount, add32_eq (by omega), sub32_eq (by omega) (by omega),
      Nat.add_sub_cancel]
  refine ⟨?_, ⟨?_, ?_, ?_⟩, ?_, ?_, ?_, newSize, ?_, newCount, ?_⟩
  · refine at_.layout.toBase.congr ?_ ?_ ?_ fun i hi bound => ?_
    · rwa [uncountRow_size]
    · rw [uncountRow_dataStart, same.dataStart]
    · rw [uncountRow_keyIndex, same.keyIndex]
    · rw [uncountRow_mem, low i hi (by omega)]
  · rw [uncountRow_dataStart, same.dataStart]
  · rw [uncountRow_keyIndex, same.keyIndex]
  · rw [uncountRow_rowOffset, same.rowOffset]
  · rw [uncountRow_mem]
    exact before.congr fun i lower upper => low i (.inr (by omega)) (by omega)
  · rw [uncountRow_mem]
    exact here
  · rw [uncountRow_mem]
    exact after
  · rwa [newSize, uncountRow_size]
  · rw [uncountRow_offset, offset]

/-- Writing the header finishes a replacement. -/
theorem Layout.At.finish (fits : RowFits fmt t s.keyIndex row')
    (replaced : Replaced fmt t s s' pre flag' row' post) :
    At fmt t s'.setDataSize.setRowCount pre flag' row' post := by
  have kept := setCounters_same s'
  have current := at_.current
  have index := replaced.same.keyIndex
  have start := replaced.same.dataStart
  constructor
  · apply replaced.base.layout
    · rw [index, start, rowsBytes_append, rowsBytes_cons, holds_append, holds_append, ← at_.current]
      exact ⟨replaced.before, replaced.here, replaced.after⟩
    · rw [replaced.size, index, start, rowsBytes_append, rowsBytes_cons, List.length_append,
        List.length_append]
      dsimp only
      omega
    · rw [replaced.count, at_.layout.count_eq, List.length_append, List.length_append]
      rfl
    · exact replaced.inside
    · intro r hr
      rw [index]
      obtain hr | hr := List.mem_append.mp hr
      · exact at_.layout.fits r (by simp [hr])
      · obtain rfl | hr := List.mem_cons.mp hr
        · exact fits
        · exact at_.layout.fits r (by simp [hr])
  · rw [kept.rowOffset, kept.dataStart, kept.keyIndex, replaced.same.rowOffset, index, start]
    exact current

section
variable {newSize cur : Nat} (hcur : cur = (rowBytes fmt t s.keyIndex flag row).length)
  (hnew : newSize = calcRowSize t row' s.keyIndex)
include hcur hnew

/-- The branch of `replace_cur_row` that moves the tail up first. -/
theorem Layout.At.replaceLonger {alloc : Allocator}
    (bound : s.dataSize + newSize < 2 ^ 32)
    (longer : cur < newSize)
    (ok : (replaceLonger fmt t { s with offset := s.rowOffset + cur } row' flag' newSize
      cur alloc).1 = 0) :
    Replaced fmt t s (replaceLonger fmt t { s with offset := s.rowOffset + cur } row' flag' newSize
      cur alloc).2 pre flag' row' post := by
  obtain ⟨-, -, after, size⟩ := at_.regions
  have inside := at_.layout.inside
  have current := at_.current
  have start := at_.layout.start_lt
  rw [← hcur] at after size
  have nextSize : sub32 s.dataSize (s.rowOffset + cur) =
      (rowsBytes fmt t s.keyIndex post).length := by
    rw [sub32_eq (by omega) (by omega)]
    omega
  have request : sub32 (add32 s.dataSize newSize) cur = s.dataSize + newSize - cur :=
    sub32_add32 (by omega) (by omega) (by omega)
  unfold RawData.replaceLonger at ok ⊢
  rw [request, nextSize] at ok ⊢
  cases realloc : reAlloc { s with offset := s.rowOffset + cur }
      (s.dataSize + newSize - cur) alloc with
  | none =>
    rw [realloc] at ok
    exact absurd ok (show ecNoMem ≠ 0 by decide)
  | some s₂ =>
  rw [realloc] at ok
  obtain ⟨covers, range₂, same, eq⟩ := reAlloc_some realloc
  dsimp only at ok same eq ⊢
  rw [ite_move fun h => .inl (by omega)] at ok ⊢
  generalize hs₃ : { s₂ with
    mem := move s₂.mem (s.rowOffset + cur + (newSize - cur)) (s.rowOffset + cur)
      (rowsBytes fmt t s.keyIndex post).length } = s₃ at ok ⊢
  have encodedOk := not_not.mp (not_of_fst_ite ok (show (-1 : Int) ≠ 0 by decide))
  have wrote := encodeRowHere_wrote encodedOk
  rw [if_neg (not_not.mpr encodedOk)]
  generalize (encodeRowHere fmt t { s₃ with offset := s₃.rowOffset } row' flag').2 = s₄ at wrote ⊢
  have index : s₃.keyIndex = s.keyIndex := by rw [← hs₃, eq]
  have rowOffset : s₃.rowOffset = s.rowOffset := by rw [← hs₃, eq]
  have dataStart : s₃.dataStart = s.dataStart := by rw [← hs₃, eq]
  have dataSize : s₃.dataSize = s.dataSize := by rw [← hs₃, eq]
  have rowCount : s₃.rowCount = s.rowCount := by rw [← hs₃, eq]
  have size₃ : s₃.size = s₂.size := by rw [← hs₃]
  have mem₃ : s₃.mem = move s₂.mem (s.rowOffset + cur + (newSize - cur)) (s.rowOffset + cur)
      (rowsBytes fmt t s.keyIndex post).length := by rw [← hs₃]
  rw [index] at wrote
  have room := wrote.room
  have mem := wrote.mem
  rw [rowOffset] at mem
  have length : (rowBytes fmt t s.keyIndex flag' row').length = newSize := by
    rw [hnew, calcRowSize_eq fmt t row' s.keyIndex flag', Nat.mod_eq_of_lt (by omega)]
  rw [hcur]
  refine at_.replaced ?_ ?_ ?_ ?_ ?_ ?_ ?_ ?_ ?_
  · rw [wrote.size, size₃]
    exact range₂
  · exact ⟨wrote.same.dataStart.trans dataStart, wrote.same.keyIndex.trans index,
      wrote.same.rowOffset.trans rowOffset⟩
  · intro i hi bound
    rw [mem i hi, store_outside (.inl bound), mem₃, ← same i (by omega) (by omega)]
    exact store_outside (.inl (by omega))
  · exact Holds.congr (m := store s₃.mem s.rowOffset _) holds_store fun i lower _ =>
      mem i (.inr (by omega))
  · have tail : Holds s₃.mem (s.rowOffset + newSize) (rowsBytes fmt t s.keyIndex post) := by
      rw [mem₃, show s.rowOffset + newSize = s.rowOffset + cur + (newSize - cur) by omega]
      exact Holds.move_to (after.congr fun i _ upper => same i (by omega) (by omega)) _
    rw [length]
    exact tail.congr fun i lower _ =>
      (mem i (.inr (by omega))).trans (store_outside (.inr (by omega)))
  · rw [wrote.dataSize, dataSize]
  · rw [wrote.rowCount, rowCount]
  · rw [wrote.offset, rowOffset]
  · rw [length, wrote.size, size₃]
    omega

/-- The branch of `replace_cur_row` that moves the tail down afterwards. -/
theorem Layout.At.replaceShorter {alloc : Allocator}
    (bound : s.dataSize + 2 * newSize < 2 ^ 32)
    (shorter : newSize ≤ cur)
    (ok : (replaceShorter fmt t { s with offset := s.rowOffset + cur } row' flag' newSize
      cur alloc).1 = 0) :
    Replaced fmt t s (replaceShorter fmt t { s with offset := s.rowOffset + cur } row' flag' newSize
      cur alloc).2 pre flag' row' post := by
  obtain ⟨-, -, after, size⟩ := at_.regions
  have inside := at_.layout.inside
  have range := at_.layout.range
  have current := at_.current
  have start := at_.layout.start_lt
  rw [← hcur] at after size
  have nextSize : sub32 s.dataSize (s.rowOffset + cur) =
      (rowsBytes fmt t s.keyIndex post).length := by
    rw [sub32_eq (by omega) (by omega)]
    omega
  unfold RawData.replaceShorter at ok ⊢
  dsimp only at ok ⊢
  rw [nextSize] at ok ⊢
  have encodedOk := not_not.mp (not_of_fst_ite ok (show (-1 : Int) ≠ 0 by decide))
  have wrote := encodeRowHere_wrote encodedOk
  rw [if_neg (not_not.mpr encodedOk)]
  generalize (encodeRowHere fmt t { s with offset := s.rowOffset } row' flag').2 = s₄ at wrote ⊢
  have room := wrote.room
  have length : (rowBytes fmt t s.keyIndex flag' row').length = newSize := by
    rw [hnew, calcRowSize_eq fmt t row' s.keyIndex flag', Nat.mod_eq_of_lt (by omega)]
  rw [ite_move fun h => by omega]
  generalize hs₅ : { s₄ with
    mem := move s₄.mem s₄.offset (s.rowOffset + cur)
      (rowsBytes fmt t s.keyIndex post).length } = s₅
  have same₅ : Same s s₅ := by
    rw [← hs₅]
    exact ⟨wrote.same.dataStart, wrote.same.keyIndex, wrote.same.rowOffset⟩
  have mem₅ : s₅.mem = move s₄.mem (s.rowOffset + newSize) (s.rowOffset + cur)
      (rowsBytes fmt t s.keyIndex post).length := by
    rw [← hs₅, wrote.offset, length]
  have dataSize₅ : s₅.dataSize = add32 s.dataSize newSize := by
    rw [← hs₅, ← length]
    exact wrote.dataSize
  have rowCount₅ : s₅.rowCount = add32 s.rowCount 1 := by
    rw [← hs₅]
    exact wrote.rowCount
  have offset₅ : s₅.offset = s.rowOffset + newSize := by
    rw [← hs₅, ← length]
    exact wrote.offset
  have size₅ : s₅.size = s.size := by
    rw [← hs₅]
    exact wrote.size
  have request : sub32 (add32 s₅.dataSize newSize) cur = s.dataSize + newSize + newSize - cur := by
    have first : add32 s.dataSize newSize = s.dataSize + newSize := add32_eq (by omega)
    rw [dataSize₅, first]
    exact sub32_add32 (by omega) (by omega) (by omega)
  rw [request, hcur]
  have low : ∀ i, i = 0 ∨ 9 ≤ i → i < s.rowOffset → s₅.mem i = s.mem i := by
    intro i hi bound
    rw [mem₅]
    refine (store_outside (.inl (by omega))).trans ((wrote.mem i hi).trans ?_)
    exact store_outside (.inl bound)
  have here : Holds s₅.mem s.rowOffset (rowBytes fmt t s.keyIndex flag' row') := by
    rw [mem₅]
    refine Holds.move_apart ?_ (.inl (by omega))
    exact Holds.congr (m := store s.mem s.rowOffset _) holds_store fun i lower _ =>
      wrote.mem i (.inr (by omega))
  have tail : Holds s₅.mem (s.rowOffset + newSize) (rowsBytes fmt t s.keyIndex post) := by
    rw [mem₅]
    refine Holds.move_to (after.congr fun i lower _ => ?_) _
    exact (wrote.mem i (.inr (by omega))).trans (store_outside (.inr (by omega)))
  -- the reallocation keeps the data, whether it succeeds or not
  obtain ⟨s₆, hs₆, same₆, mem₆, size₆, inside₆, data₆, count₆, offset₆⟩ :
      ∃ s₆, (s₅.reAlloc (s.dataSize + newSize + newSize -
        (rowBytes fmt t s.keyIndex flag row).length) alloc).getD s₅ = s₆ ∧ Same s₅ s₆ ∧
        (∀ i < s.dataSize + newSize - cur, s₆.mem i = s₅.mem i) ∧ s₆.size < 2 ^ 32 ∧
        s.dataSize + newSize - cur ≤ s₆.size ∧ s₆.dataSize = s₅.dataSize ∧
        s₆.rowCount = s₅.rowCount ∧ s₆.offset = s₅.offset := by
    cases realloc : s₅.reAlloc (s.dataSize + newSize + newSize -
        (rowBytes fmt t s.keyIndex flag row).length) alloc with
    | none =>
      exact ⟨s₅, rfl, ⟨rfl, rfl, rfl⟩, fun _ _ => rfl, by omega, by omega, rfl, rfl, rfl⟩
    | some s₆ =>
      obtain ⟨covers, range₆, kept, eq⟩ := reAlloc_some realloc
      refine ⟨s₆, rfl, ?_, fun i hi => kept i (by omega) (by omega), range₆, by omega, ?_, ?_, ?_⟩
      · rw [eq]
        exact ⟨rfl, rfl, rfl⟩
      all_goals rw [eq]
  rw [hs₆]
  refine at_.replaced size₆ ?_ ?_ ?_ ?_ ?_ ?_ ?_ ?_
  · exact ⟨same₆.dataStart.trans same₅.dataStart, same₆.keyIndex.trans same₅.keyIndex,
      same₆.rowOffset.trans same₅.rowOffset⟩
  · intro i hi bound
    rw [mem₆ i (by omega), low i hi bound]
  · exact here.congr fun i _ upper => mem₆ i (by omega)
  · rw [length]
    exact tail.congr fun i _ upper => mem₆ i (by omega)
  · rw [data₆, dataSize₅, length]
  · rw [count₆, rowCount₅]
  · rw [offset₆, offset₅, length]
  · rw [length]
    omega

end

end

/-- A call that hands on the code of a failing step has the code of the step. -/
theorem fst_ite_ret {ret : Int} {s₁ s₂ : RawData} :
    (if ret ≠ 0 then (ret, s₁) else (0, s₂)).1 = ret := by
  by_cases failed : ret ≠ 0
  · rw [if_pos failed]
  · rw [if_neg failed]
    exact (not_not.mp failed).symm

/-- The branches of `replace_cur_row` at a row. -/
theorem Layout.At.replaceCurRow_eq (at_ : At fmt t s pre flag row post) (row' : RowValue)
    (isDirty : Bool) (alloc : Allocator) (temp : Bool) :
    let cur := (rowBytes fmt t s.keyIndex flag row).length
    let newSize := calcRowSize t row' s.keyIndex
    let here := { s with offset := s.rowOffset + cur }
    let flag' := if isDirty then operUpdate else flag
    let replaced := if cur < newSize then RawData.replaceLonger fmt t here row' flag' newSize cur alloc
      else RawData.replaceShorter fmt t here row' flag' newSize cur alloc
    s.replaceCurRow fmt t row' isDirty alloc temp =
      if ¬cur < newSize ∧ temp = false then (-12, here)
      else if replaced.1 ≠ 0 then (replaced.1, { replaced.2 with offset := s.offset })
      else (0, replaced.2.setDataSize.setRowCount) := by
  intro cur newSize here flag' replaced
  obtain ⟨-, holds, -, size⟩ := at_.regions
  have pos := rowBytes_length_pos fmt t s.keyIndex flag row
  have inside := at_.layout.inside
  have range := at_.layout.range
  have oldFlag : s.mem s.rowOffset = flag := (holds_cons.mp holds).1
  have curSize : sub32 (s.rowOffset + cur) s.rowOffset = cur := by
    rw [sub32_eq (by omega) (by omega)]
    omega
  unfold RawData.replaceCurRow
  rw [at_.skipRow]
  dsimp only
  rw [if_neg (by decide), if_neg (by omega), curSize, oldFlag]
  by_cases longer : cur < newSize
  · have branch : replaced = RawData.replaceLonger fmt t here row' flag' newSize cur alloc :=
      if_pos longer
    have other : ¬(¬cur < newSize ∧ temp = false) := fun h => h.1 longer
    rw [if_pos longer, if_neg other, branch]
  · have branch : replaced = RawData.replaceShorter fmt t here row' flag' newSize cur alloc :=
      if_neg longer
    rw [if_neg longer, branch]
    cases temp with
    | false => rw [if_pos (by decide), if_pos ⟨longer, rfl⟩]
    | true =>
      have other : ¬(¬cur < newSize ∧ true = false) := fun h => absurd h.2 (by decide)
      rw [if_neg (by decide), if_neg other]

/-- `replace_cur_row` exchanges the current row and moves behind it. -/
theorem Layout.At.replaceCurRow (at_ : At fmt t s pre flag row post) {isDirty temp : Bool}
    {alloc : Allocator} (fits : RowFits fmt t s.keyIndex row')
    (bound : s.dataSize + 2 * calcRowSize t row' s.keyIndex < 2 ^ 32)
    (ok : (s.replaceCurRow fmt t row' isDirty alloc temp).1 = 0) :
    ∃ s', s.replaceCurRow fmt t row' isDirty alloc temp = (0, s') ∧
      At fmt t s' pre (if isDirty then operUpdate else flag) row' post ∧ Same s s' ∧
        s'.offset = s.rowOffset + (rowBytes fmt t s.keyIndex
          (if isDirty then operUpdate else flag) row').length := by
  rw [at_.replaceCurRow_eq] at ok ⊢
  have memory := not_of_fst_ite ok (show (-12 : Int) ≠ 0 by decide)
  rw [if_neg memory] at ok ⊢
  have code := fst_ite_ret.symm.trans ok
  rw [if_neg (not_not.mpr code)]
  generalize made : (if (rowBytes fmt t s.keyIndex flag row).length < calcRowSize t row' s.keyIndex
    then _ else _ : Int × RawData) = result at code ⊢
  have replaced : Replaced fmt t s result.2 pre (if isDirty then operUpdate else flag) row' post := by
    rw [← made] at code ⊢
    by_cases longer : (rowBytes fmt t s.keyIndex flag row).length < calcRowSize t row' s.keyIndex
    · rw [if_pos longer] at code ⊢
      exact at_.replaceLonger rfl rfl (by omega) longer code
    · rw [if_neg longer] at code ⊢
      exact at_.replaceShorter rfl rfl bound (not_lt.mp longer) code
  have kept := setCounters_same result.2
  exact ⟨_, rfl, at_.finish fits replaced, ⟨kept.dataStart.trans replaced.same.dataStart,
    kept.keyIndex.trans replaced.same.keyIndex, kept.rowOffset.trans replaced.same.rowOffset⟩,
    (setCounters_sizes result.2).1.trans replaced.offset⟩

end RawData

end Dtc.Raw
