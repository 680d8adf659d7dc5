import Dtc.Raw.Replace
import Dtc.Library.Machine

/-!
# Packed buffers as lists with a cursor

The list has a current row and a next row to read. Reading makes the next row the
current one. Replacing or deleting works on the current row and continues behind
it. An insertion leaves the read position at the end; inserting in front moves the
current row one place back.

`RawData` keeps byte offsets instead, and they follow the list as long as the
buffer is used as follows. Rows are read only while `offset_` is below
`data_size_`, because `decode_row` checks the size of the chunk and not that of
the data. After an insertion in front `row_offset_` is stale, and the current row
is not used before the next read, rewind or attach. Numbers fit their fields. The
size that `replace_cur_row` computes for the allocator fits 32 bits.
-/

namespace Dtc.Raw

open Library Memory List RawData Machine

/-- A list of flagged rows with the current and the next position. After an
insertion in front the current row is lost. -/
structure ListCursor where
  rows : List (UInt8 × RowValue)
  cur : Nat
  next : Nat
  stale : Bool

/-- The calls on a buffer, with what the allocator answers. -/
inductive RawOp
  | insertRowFlag (row : RowValue) (byFirst : Bool) (op : UInt8) (alloc : Allocator) (temp : Bool)
  | decodeRow (old : RowValue) (preDecode : Bool)
  | replaceCurRow (row : RowValue) (isDirty : Bool) (alloc : Allocator) (temp : Bool)
  | deleteCurRow
  | setCurRowFlag (flag : UInt8)
  | deleteAllRows
  | doAttach
  | rewind

/-- The flag and the stored fields of a row that was read. -/
abbrev RowReply := Option (UInt8 × List FieldValue)

section
variable (fmt : FloatFormat) (t : TableDefinition)

/-- A call on the packed buffer: the code, the row that was read, the buffer. -/
def RawOp.run (s : RawData) : RawOp → (Int × RowReply) × RawData
  | .insertRowFlag row byFirst op alloc temp =>
    let result := s.insertRowFlag fmt t row byFirst op alloc temp
    ((result.1, none), result.2)
  | .decodeRow old preDecode =>
    let result := s.decodeRow fmt t old preDecode
    ((result.1, if result.1 = 0 then
        some (result.2.1, rowView t (t.keyFields - 1) result.2.2.1) else none), result.2.2.2)
  | .replaceCurRow row isDirty alloc temp =>
    let result := s.replaceCurRow fmt t row isDirty alloc temp
    ((result.1, none), result.2)
  | .deleteCurRow => (((s.deleteCurRow t).1, none), (s.deleteCurRow t).2)
  | .setCurRowFlag flag => (((s.setCurRowFlag flag).1, none), (s.setCurRowFlag flag).2)
  | .deleteAllRows => ((s.deleteAllRows.1, none), s.deleteAllRows.2)
  | .doAttach =>
    let result := s.doAttach (t.keyFields - 1) t.keyFormat
    ((result.1, none), result.2)
  | .rewind => ((0, none), s.rewind)

/-- The same call on the list. -/
def RawOp.apply (l : ListCursor) : RawOp → RowReply × ListCursor
  | .insertRowFlag row byFirst op _ _ =>
    (none, { rows := if byFirst then (op, row) :: l.rows else l.rows ++ [(op, row)]
             cur := if byFirst then l.cur + 1 else l.cur
             next := l.rows.length + 1
             stale := l.stale || byFirst })
  | .decodeRow _ preDecode =>
    ((l.rows[l.next]?).map fun r => (r.1, rowView t (t.keyFields - 1) r.2),
      if preDecode then l else { l with cur := l.next, next := l.next + 1, stale := false })
  | .replaceCurRow row isDirty _ _ =>
    (none, { l with
      rows := l.rows.modify l.cur fun r => (if isDirty then operUpdate else r.1, row)
      next := l.cur + 1 })
  | .deleteCurRow => (none, { l with rows := l.rows.eraseIdx l.cur, next := l.cur })
  | .setCurRowFlag flag => (none, { l with rows := l.rows.modify l.cur fun r => (flag, r.2) })
  | .deleteAllRows => (none, ⟨[], 0, 0, false⟩)
  | .doAttach => (none, { l with cur := 0, next := 0, stale := false })
  | .rewind => (none, { l with cur := 0, next := 0, stale := false })

/-- A buffer and the list that the same calls produced. -/
structure RawWorld where
  raw : RawData
  list : ListCursor

/-- One call on both; the reply has the code and the row read from either. -/
def rawStep (w : RawWorld) (op : RawOp) : (Int × RowReply × RowReply) × RawWorld :=
  (((op.run fmt t w.raw).1.1, (op.run fmt t w.raw).1.2, (op.apply t w.list).1),
    ⟨(op.run fmt t w.raw).2, (op.apply t w.list).2⟩)

/-- How the buffer is to be used. -/
def CursorKept (w : RawWorld) : RawOp → Prop
  | .insertRowFlag row _ _ _ _ => RowFits fmt t (t.keyFields - 1) row
  | .decodeRow _ _ => w.raw.offset < w.raw.dataSize
  | .replaceCurRow row _ _ _ =>
    w.list.stale = false ∧ RowFits fmt t (t.keyFields - 1) row ∧
      w.raw.dataSize + 2 * RawData.calcRowSize t row w.raw.keyIndex < 2 ^ 32
  | .deleteCurRow | .setCurRowFlag _ => w.list.stale = false
  | .deleteAllRows | .doAttach | .rewind => True

instance decidableCursorKept (w : RawWorld) : ∀ op, Decidable (CursorKept fmt t w op)
  | .insertRowFlag row _ _ _ _ => inferInstanceAs (Decidable (RowFits fmt t (t.keyFields - 1) row))
  | .decodeRow _ _ => inferInstanceAs (Decidable (w.raw.offset < w.raw.dataSize))
  | .replaceCurRow row _ _ _ =>
    inferInstanceAs (Decidable (w.list.stale = false ∧ RowFits fmt t (t.keyFields - 1) row ∧
      w.raw.dataSize + 2 * RawData.calcRowSize t row w.raw.keyIndex < 2 ^ 32))
  | .deleteCurRow | .setCurRowFlag _ => inferInstanceAs (Decidable (w.list.stale = false))
  | .deleteAllRows | .doAttach | .rewind => inferInstanceAs (Decidable True)

/-- The call reports success and the buffer is used as intended. -/
def RawLegal (w : RawWorld) (op : RawOp) : Prop :=
  (op.run fmt t w.raw).1.1 = 0 ∧ CursorKept fmt t w op

instance (w : RawWorld) (op : RawOp) : Decidable (RawLegal fmt t w op) :=
  inferInstanceAs (Decidable (_ ∧ _))

/-- The byte offset of a row. -/
def position (s : RawData) (rows : List (UInt8 × RowValue)) (i : Nat) : Nat :=
  s.dataStart + (rowsBytes fmt t s.keyIndex (rows.take i)).length

/-- The buffer holds the list, and its offsets are those of the two positions. -/
structure Simulates (s : RawData) (l : ListCursor) : Prop where
  layout : s.Layout fmt t l.rows
  next_le : l.next ≤ l.rows.length
  next_eq : s.offset = position fmt t s l.rows l.next
  cur_le : l.stale = false → l.cur ≤ l.rows.length
  cur_eq : l.stale = false → s.rowOffset = position fmt t s l.rows l.cur

end

variable {rows : List (UInt8 × RowValue)} {fmt : FloatFormat} {t : TableDefinition} {s s' : RawData}
  {l : ListCursor}

section Positions

theorem position_length (layout : s.Layout fmt t rows) :
    position fmt t s rows rows.length = s.dataSize := by
  rw [position, take_length, layout.size_eq]

theorem position_lt (layout : s.Layout fmt t rows) {i : Nat} (lt : i < rows.length) :
    position fmt t s rows i < s.dataSize := by
  have rest := length_le_rowsBytes fmt t s.keyIndex (rows.drop i)
  have whole : (rowsBytes fmt t s.keyIndex rows).length =
      (rowsBytes fmt t s.keyIndex (rows.take i)).length +
        (rowsBytes fmt t s.keyIndex (rows.drop i)).length := by
    rw [← length_append, ← rowsBytes_append, take_append_drop]
  rw [length_drop] at rest
  rw [position, layout.size_eq]
  omega

/-- A position inside the data splits the list at a row. -/
theorem exists_split (layout : s.Layout fmt t rows) {i : Nat} (le : i ≤ rows.length)
    (inside : position fmt t s rows i < s.dataSize) :
    ∃ flag row, rows[i]? = some (flag, row) ∧
      rows = rows.take i ++ (flag, row) :: rows.drop (i + 1) := by
  have lt : i < rows.length := by
    refine lt_of_le_of_ne le ?_
    rintro rfl
    rw [position_length layout] at inside
    exact lt_irrefl _ inside
  refine ⟨(rows[i]).1, (rows[i]).2, getElem?_eq_getElem lt, ?_⟩
  rw [Prod.mk.eta, ← drop_eq_getElem_cons lt, take_append_drop]

theorem position_congr (start : s'.dataStart = s.dataStart) (index : s'.keyIndex = s.keyIndex)
    (rows : List (UInt8 × RowValue)) (i : Nat) :
    position fmt t s' rows i = position fmt t s rows i := by
  rw [position, start, index, position]

section
variable (fmt t s) (pre post : List (UInt8 × RowValue))

theorem position_left : position fmt t s (pre ++ post) pre.length =
    s.dataStart + (rowsBytes fmt t s.keyIndex pre).length := by
  rw [position, take_left]

/-- The position behind the first part of a split list, and behind its next row. -/
theorem position_split (r : UInt8 × RowValue) :
    position fmt t s (pre ++ r :: post) pre.length =
        s.dataStart + (rowsBytes fmt t s.keyIndex pre).length ∧
      position fmt t s (pre ++ r :: post) (pre.length + 1) =
        s.dataStart + (rowsBytes fmt t s.keyIndex pre).length +
          (rowBytes fmt t s.keyIndex r.1 r.2).length := by
  constructor
  · exact position_left ..
  · rw [position, show pre ++ r :: post = (pre ++ [r]) ++ post by simp, take_left' (by simp),
      rowsBytes_append, length_append, ← Nat.add_assoc]
    simp

end

/-- Flags do not move rows. -/
theorem rowsBytes_length_congr {k : Nat} {xs ys : List (UInt8 × RowValue)}
    (same : xs.map Prod.snd = ys.map Prod.snd) :
    (rowsBytes fmt t k xs).length = (rowsBytes fmt t k ys).length := by
  induction xs generalizing ys with
  | nil => rw [map_eq_nil_iff.mp (same.symm.trans map_nil)]
  | cons x xs ih =>
    cases ys with
    | nil => exact nomatch same
    | cons y ys =>
      obtain ⟨head, tail⟩ := cons.inj same
      simp only [rowsBytes_cons, rowBytes, length_append, length_cons, head, ih tail]

/-- A call on the current row finds it if it is inside the data. -/
theorem Simulates.current (sim : Simulates fmt t s l) (fresh : l.stale = false)
    (inside : s.rowOffset < s.dataSize) :
    ∃ pre flag row post, l.rows = pre ++ (flag, row) :: post ∧ l.cur = pre.length ∧
      Layout.At fmt t s pre flag row post := by
  rw [sim.cur_eq fresh] at inside
  obtain ⟨flag, row, -, split⟩ := exists_split sim.layout (sim.cur_le fresh) inside
  refine ⟨_, flag, row, _, split, ?_, ⟨split ▸ sim.layout, sim.cur_eq fresh⟩⟩
  rw [length_take, min_eq_left (sim.cur_le fresh)]

theorem modify_split {α : Type*} (pre post : List α) (r : α) (f : α → α) :
    (pre ++ r :: post).modify pre.length f = pre ++ f r :: post := by
  induction pre with
  | nil => rfl
  | cons x pre ih => simp [ih]

theorem eraseIdx_split {α : Type*} (pre post : List α) (r : α) :
    (pre ++ r :: post).eraseIdx pre.length = pre ++ post := by
  induction pre with
  | nil => rfl
  | cons x pre ih => simp [ih]

end Positions

section Steps

theorem skipRow_inside (ok : (skipRow t s).1 = 0) : s.rowOffset < s.dataSize := by
  by_contra h
  rw [skipRow, if_pos (by exact not_lt.mp h)] at ok
  exact absurd ok (by simp)

section
variable (sim : Simulates fmt t s l)

include sim

open RawOp

theorem Simulates.insertRowFlag {row : RowValue} {byFirst temp : Bool} {op : UInt8}
    {alloc : Allocator} (fits : RowFits fmt t s.keyIndex row)
    (ok : (s.insertRowFlag fmt t row byFirst op alloc temp).1 = 0) :
    Simulates fmt t (s.insertRowFlag fmt t row byFirst op alloc temp).2
      ((RawOp.insertRowFlag row byFirst op alloc temp).apply t l).2 := by
  obtain ⟨s', eq, layout, same, offset, -⟩ := sim.layout.insertRowFlag fits ok
  rw [eq]
  have length : ((RawOp.insertRowFlag row byFirst op alloc temp).apply t l).2.rows.length =
      l.rows.length + 1 := by
    simp only [RawOp.apply]
    cases byFirst <;> simp
  refine ⟨layout, length.ge, ?_, fun fresh => ?_, fun fresh => ?_⟩
  · have last := position_length layout
    rw [offset, ← last]
    congr 1
  · simp only [RawOp.apply, Bool.or_eq_false_iff] at fresh ⊢
    have bound := sim.cur_le fresh.1
    simp only [fresh.2, Bool.false_eq_true, if_false, length_append, length_singleton]
    omega
  · simp only [RawOp.apply, Bool.or_eq_false_iff] at fresh ⊢
    simp only [fresh.2, Bool.false_eq_true, if_false]
    rw [same.rowOffset, sim.cur_eq fresh.1, position_congr same.dataStart same.keyIndex, position,
      position, take_append_of_le_length (sim.cur_le fresh.1)]

theorem Simulates.decodeRow (inside : s.offset < s.dataSize) (old : RowValue) (preDecode : Bool) :
    Simulates fmt t (s.decodeRow fmt t old preDecode).2.2.2
        ((decodeRow old preDecode).apply t l).2 ∧
      ((decodeRow old preDecode).run fmt t s).1.2 = ((decodeRow old preDecode).apply t l).1 ∧
      (s.decodeRow fmt t old preDecode).2.2.2.dataSize = s.dataSize := by
  rw [sim.next_eq] at inside
  obtain ⟨flag, row, get, split⟩ := exists_split sim.layout sim.next_le inside
  have before : (l.rows.take l.next).length = l.next := by
    rw [length_take, min_eq_left sim.next_le]
  have index := sim.layout.keyIndex
  obtain ⟨here, behind⟩ := position_split fmt t s (l.rows.take l.next)
    (l.rows.drop (l.next + 1)) (flag, row)
  rw [← split, before] at here behind
  have reads : s.Reads (rowBytes fmt t s.keyIndex flag row) := by
    have holds := sim.layout.holds
    have size := sim.layout.size_eq
    have bound := sim.layout.inside
    rw [split, rowsBytes_append, rowsBytes_cons] at holds size
    rw [length_append, length_append] at size
    refine ⟨?_, ?_, sim.layout.range⟩
    · rw [sim.next_eq, here]
      exact (holds_append.mp (holds_append.mp holds).2).1
    · rw [sim.next_eq, here]
      dsimp only at size
      omega
  obtain ⟨row', eq, view⟩ := decodeRow_spec
    (sim.layout.fits (flag, row) (mem_of_getElem? get)) reads old preDecode
  refine ⟨?_, ?_, ?_⟩
  · rw [eq]
    simp only [apply]
    cases preDecode with
    | true => exact sim
    | false =>
      refine ⟨sim.layout.moveCursor _ _, ?_, ?_, fun _ => sim.next_le, fun _ => sim.next_eq⟩
      · have len := congrArg length split
        rw [length_append, before, length_cons] at len
        simp only [Bool.false_eq_true, if_false]
        omega
      · simp only [Bool.false_eq_true, if_false]
        rw [sim.next_eq, here]
        exact behind.symm
  · simp only [run, apply, eq, get, if_true, Option.map_some]
    rw [← index, view]
  · rw [eq]
    cases preDecode <;> rfl

theorem Simulates.setCurRowFlag (fresh : l.stale = false) {flag : UInt8}
    (ok : (s.setCurRowFlag flag).1 = 0) :
    Simulates fmt t (s.setCurRowFlag flag).2 ((setCurRowFlag flag).apply t l).2 := by
  have inside : s.rowOffset < s.dataSize := by
    by_contra h
    rw [RawData.setCurRowFlag, if_pos (not_lt.mp h)] at ok
    exact absurd ok (by simp)
  obtain ⟨pre, old, row, post, split, cur, at_⟩ := sim.current fresh inside
  obtain ⟨s', eq, at', same, offset⟩ := at_.setCurRowFlag flag
  have pos : ∀ i, position fmt t s' (pre ++ (flag, row) :: post) i =
      position fmt t s (pre ++ (old, row) :: post) i := by
    intro i
    rw [position_congr same.dataStart same.keyIndex, position, position]
    congr 1
    apply rowsBytes_length_congr
    simp
  rw [eq]
  simp only [apply, split, cur, modify_split]
  refine ⟨at'.layout, ?_, ?_, fun _ => ?_, fun _ => ?_⟩
  · simpa [split] using sim.next_le
  · rw [offset, sim.next_eq, split, pos]
  · simp
  · rw [same.rowOffset, pos, ← cur, ← split]
    exact sim.cur_eq fresh

theorem Simulates.deleteCurRow (fresh : l.stale = false) (ok : (s.deleteCurRow t).1 = 0) :
    Simulates fmt t (s.deleteCurRow t).2 (deleteCurRow.apply t l).2 := by
  have inside : s.rowOffset < s.dataSize := by
    apply skipRow_inside (t := t)
    by_contra h
    rw [RawData.deleteCurRow] at ok
    rw [if_pos h] at ok
    exact h ok
  obtain ⟨pre, old, row, post, split, cur, at_⟩ := sim.current fresh inside
  obtain ⟨s', eq, layout, same, offset⟩ := at_.deleteCurRow
  have here : s.rowOffset = position fmt t s' (pre ++ post) pre.length := by
    rw [position_congr same.dataStart same.keyIndex, position_left]
    exact at_.current
  rw [eq]
  simp only [apply, split, cur, eraseIdx_split]
  exact ⟨layout, by simp, offset.trans here, fun _ => by simp, fun _ => same.rowOffset.trans here⟩

theorem Simulates.replaceCurRow (fresh : l.stale = false) {row : RowValue} {isDirty temp : Bool}
    {alloc : Allocator} (fits : RowFits fmt t s.keyIndex row)
    (bound : s.dataSize + 2 * calcRowSize t row s.keyIndex < 2 ^ 32)
    (ok : (s.replaceCurRow fmt t row isDirty alloc temp).1 = 0) :
    Simulates fmt t (s.replaceCurRow fmt t row isDirty alloc temp).2
      ((replaceCurRow row isDirty alloc temp).apply t l).2 := by
  have inside : s.rowOffset < s.dataSize := by
    apply skipRow_inside (t := t)
    by_contra h
    rw [RawData.replaceCurRow] at ok
    rw [if_pos h] at ok
    exact h ok
  obtain ⟨pre, old, row', post, split, cur, at_⟩ := sim.current fresh inside
  obtain ⟨s', eq, at', same, offset⟩ := at_.replaceCurRow fits bound ok
  obtain ⟨here, behind⟩ := position_split fmt t s' pre post (if isDirty then operUpdate else old, row)
  rw [eq]
  simp only [apply, split, cur, modify_split]
  refine ⟨at'.layout, by simp, ?_, fun _ => by simp, fun _ => at'.current.trans here.symm⟩
  rw [behind, offset, same.dataStart, same.keyIndex, at_.current]

end

theorem RawData.attachBody_ok {s' : RawData} {keyIdx keySize : Nat}
    (ok : ({ s with offset := 0 } : RawData).attachBody keyIdx keySize = .ok (0, s')) :
    (s.mem 0).toNat % 128 = 0 ∧ s'.keyStart = 16 ∧ s'.rowCount = load s.mem 5 4 ∧
      s'.size = s.size ∧ s'.offset ≤ s.size := by
  unfold RawData.attachBody at ok
  obtain ⟨⟨type, s₁⟩, typeRead, ok⟩ := bind_ok ok
  obtain ⟨-, rfl, rfl⟩ := RawData.getValue_ok typeRead
  dsimp only at ok
  by_cases type : leNat (slice s.mem 0 1) % 128 = 0
  swap
  · rw [if_pos type] at ok
    exact nomatch ok
  rw [if_neg (not_not.mpr type)] at ok
  obtain ⟨⟨size, s₂⟩, sizeRead, ok⟩ := bind_ok ok
  obtain ⟨-, rfl, rfl⟩ := RawData.getValue_ok sizeRead
  obtain ⟨⟨count, s₃⟩, countRead, ok⟩ := bind_ok ok
  obtain ⟨-, rfl, rfl⟩ := RawData.getValue_ok countRead
  obtain ⟨⟨gets, s₄⟩, getsRead, ok⟩ := bind_ok ok
  obtain ⟨-, rfl, rfl⟩ := RawData.getValue_ok getsRead
  obtain ⟨s₅, times, ok⟩ := bind_ok ok
  obtain ⟨-, rfl⟩ := RawData.skipSize_ok times
  dsimp only at ok
  by_cases large : s.size < leNat (slice s.mem (0 + 1) 4)
  · rw [if_pos large] at ok
    exact nomatch ok
  rw [if_neg large] at ok
  obtain ⟨s₆, keySkip, ok⟩ := bind_ok ok
  obtain ⟨-, rfl⟩ := Prod.mk.inj (Except.ok.inj ok)
  obtain ⟨inside, rfl⟩ := RawData.skipLen_ok keySkip
  exact ⟨by simpa [slice, leNat] using type, rfl, rfl, rfl, inside⟩

/-- What an attached flat buffer tells about the bytes of its chunk. -/
theorem RawData.doAttach_ok {s' : RawData} {keyIdx keySize : Nat} (attach : s.doAttach keyIdx keySize = (0, s')) :
    (s.mem 0).toNat % 128 = 0 ∧ s'.keyStart = 16 ∧ s'.rowCount = load s.mem 5 4 ∧
      s'.size = s.size ∧ s'.offset ≤ s.size := by
  unfold doAttach at attach
  split_ifs at attach with empty
  · exact absurd (Prod.mk.inj attach).1 (by decide)
  cases body : ({ s with offset := 0 } : RawData).attachBody keyIdx keySize with
  | error s =>
    rw [body] at attach
    exact absurd (Prod.mk.inj attach).1 (by decide)
  | ok result =>
    rw [body] at attach
    subst attach
    exact attachBody_ok body

/-- `do_attach` reads the header back and rewinds. -/
theorem RawData.Header.doAttach (header : s.Header t) (counted : s.rowCount < 2 ^ 32) (keyIdx : Nat) :
    s.doAttach keyIdx t.keyFormat =
      (0, { s with keyIndex := keyIdx, keySize := t.keyFormat, keyStart := 16,
                   rowOffset := s.dataStart, offset := s.dataStart }) := by
  have startLe := header.start
  have inside := header.inside
  have range := header.range
  have typeByte : leNat (slice s.mem 0 1) % 128 = 0 := by
    simpa [slice, leNat] using header.typeByte
  have size : leNat (slice s.mem 1 4) = s.dataSize :=
    header.storedSize.load (lt_of_le_of_lt inside range)
  have count : leNat (slice s.mem 5 4) = s.rowCount := header.storedCount.load counted
  have start_eq := header.dataStart
  unfold RawData.doAttach RawData.attachBody
  rw [if_neg (by omega)]
  simp only [getValue, skipSize, skipLen, bind, Except.bind, pure, Except.pure]
  rw [if_neg (by omega)]
  dsimp only
  rw [if_neg (not_not.mpr typeByte), if_neg (by omega)]
  dsimp only
  rw [size, if_neg (by omega)]
  dsimp only
  rw [count, if_neg (by omega)]
  dsimp only
  rw [if_neg (by omega)]
  dsimp only
  rw [if_neg (by omega)]
  have small : add32 16 (if t.keyFormat ≠ 0 then t.keyFormat else 1 + (s.mem 16).toNat) =
      s.dataStart := by
    rw [start_eq]
    exact add32_eq (by omega)
  rw [small, if_neg (by omega)]

theorem RawData.Layout.doAttach (layout : s.Layout fmt t rows) :
    s.doAttach (t.keyFields - 1) t.keyFormat =
      (0, { s with keyIndex := t.keyFields - 1, keySize := t.keyFormat, keyStart := 16,
                   rowOffset := s.dataStart, offset := s.dataStart }) := by
  refine layout.toHeader.doAttach ?_ _
  have counted := layout.rowCount_lt
  have eq := layout.count_eq
  have inside := layout.inside
  have range := layout.range
  omega

/-- A buffer whose positions are both at the first row. -/
theorem simulates_rewound (layout : s.Layout fmt t rows) (offset : s.offset = s.dataStart)
    (rowOffset : s.rowOffset = s.dataStart) : Simulates fmt t s ⟨rows, 0, 0, false⟩ :=
  ⟨layout, Nat.zero_le _, offset, fun _ => Nat.zero_le _, fun _ => rowOffset⟩

/-- A legal call keeps buffer and list together, and both read the same row. -/
theorem Simulates.step {w : RawWorld} (sim : Simulates fmt t w.raw w.list) {op : RawOp}
    (legal : RawLegal fmt t w op) :
    Simulates fmt t (rawStep fmt t w op).2.raw (rawStep fmt t w op).2.list ∧
      (rawStep fmt t w op).1.2.1 = (rawStep fmt t w op).1.2.2 := by
  obtain ⟨ok, kept⟩ := legal
  have index := sim.layout.keyIndex
  cases op with
  | insertRowFlag row byFirst op alloc temp =>
    exact ⟨sim.insertRowFlag (index ▸ kept) ok, rfl⟩
  | decodeRow old preDecode =>
    obtain ⟨next, reply, -⟩ := sim.decodeRow kept old preDecode
    exact ⟨next, reply⟩
  | replaceCurRow row isDirty alloc temp =>
    obtain ⟨fresh, fits, bound⟩ := kept
    exact ⟨sim.replaceCurRow fresh (index ▸ fits) bound ok, rfl⟩
  | deleteCurRow => exact ⟨sim.deleteCurRow kept ok, rfl⟩
  | setCurRowFlag flag => exact ⟨sim.setCurRowFlag kept ok, rfl⟩
  | deleteAllRows =>
    obtain ⟨s', eq, layout, start, index, rowOffset, offset⟩ := sim.layout.deleteAllRows
    refine ⟨?_, rfl⟩
    simp only [rawStep, RawOp.run, RawOp.apply, eq]
    exact simulates_rewound layout (offset.trans start.symm) (rowOffset.trans start.symm)
  | doAttach =>
    have eq := congrArg Prod.snd sim.layout.doAttach
    refine ⟨?_, rfl⟩
    simp only [rawStep, RawOp.run, eq]
    refine simulates_rewound ?_ rfl rfl
    exact ⟨⟨⟨sim.layout.range, sim.layout.typeByte, sim.layout.dataStart, rfl⟩,
      sim.layout.inside, sim.layout.start, sim.layout.storedSize, sim.layout.storedCount⟩,
      index ▸ sim.layout.holds, index ▸ sim.layout.size_eq, sim.layout.count_eq,
      index ▸ sim.layout.fits⟩
  | rewind => exact ⟨simulates_rewound (sim.layout.moveCursor _ _) rfl rfl, rfl⟩

end Steps

/-- Reading `n` rows one after another. -/
def readRows (fmt : FloatFormat) (t : TableDefinition) :
    Nat → RawData → Option (List (UInt8 × List FieldValue) × RawData)
  | 0, s => some ([], s)
  | n + 1, s =>
    let result := s.decodeRow fmt t (fun _ => ⟨0, ⟨[], nil_short⟩⟩) false
    if result.1 ≠ 0 then none
    else (readRows fmt t n result.2.2.2).map fun rest =>
      ((result.2.1, rowView t (t.keyFields - 1) result.2.2.1) :: rest.1, rest.2)

/-- What the rows of a list look like when they are read. -/
def ListCursor.view (t : TableDefinition) (l : ListCursor) : List (UInt8 × List FieldValue) :=
  l.rows.map fun r => (r.1, rowView t (t.keyFields - 1) r.2)

/-- A chunk whose rows are those of a list and whose counters are right. -/
structure Represents (fmt : FloatFormat) (t : TableDefinition) (s : RawData) (l : ListCursor) :
    Prop where
  /-- reading `row_count_` rows from the start gives the list and ends at `data_size_` -/
  content : ∃ s', readRows fmt t s.rowCount s.rewind = some (l.view t, s') ∧ s'.offset = s.dataSize
  dataSize : s.dataSize = s.dataStart +
    (l.rows.map fun r => (rowBytes fmt t (t.keyFields - 1) r.1 r.2).length).sum
  rowCount : s.rowCount = l.rows.length
  storedSize : load s.mem 1 4 = s.dataSize
  storedCount : load s.mem 5 4 = s.rowCount

section Guarantee

/-- Reading from a position gives the rest of the list. -/
theorem Simulates.readRows (sim : Simulates fmt t s l) (n : Nat) (rest : l.next + n = l.rows.length) :
    ∃ s', Raw.readRows fmt t n s =
        some ((l.rows.drop l.next).map fun r => (r.1, rowView t (t.keyFields - 1) r.2), s') ∧
      s'.offset = s.dataSize := by
  induction n generalizing s l with
  | zero =>
    refine ⟨s, ?_, ?_⟩
    · rw [drop_of_length_le (by omega)]
      rfl
    · rw [sim.next_eq, show l.next = l.rows.length by omega, position_length sim.layout]
  | succ n ih =>
    have lt : l.next < l.rows.length := by omega
    have inside : s.offset < s.dataSize := sim.next_eq ▸ position_lt sim.layout lt
    obtain ⟨next, reply, size⟩ := sim.decodeRow inside (fun _ => ⟨0, ⟨[], nil_short⟩⟩) false
    simp only [RawOp.run, RawOp.apply, getElem?_eq_getElem lt, Option.map_some,
      Bool.false_eq_true, if_false] at reply next
    rw [Raw.readRows]
    split_ifs at reply with code
    obtain ⟨s', more, finish⟩ := ih next (by simp only; omega)
    refine ⟨s', ?_, finish.trans size⟩
    simp only [code, ne_eq, not_true_eq_false, if_false, more, Option.map_some,
      Option.some.inj reply]
    rw [drop_eq_getElem_cons lt, map_cons]

/-- A simulated buffer represents its list. -/
theorem Simulates.represents (sim : Simulates fmt t s l) : Represents fmt t s l := by
  have index := sim.layout.keyIndex
  have inside := sim.layout.inside
  have range := sim.layout.range
  have count := sim.layout.count_eq
  have counted := sim.layout.rowCount_lt
  have rewound := simulates_rewound (s := s.rewind)
    (sim.layout.moveCursor s.dataStart s.dataStart) rfl rfl
  refine ⟨?_, ?_, count, ?_, ?_⟩
  · obtain ⟨s', read, finish⟩ := rewound.readRows s.rowCount (by simpa using count)
    exact ⟨s', read, finish⟩
  · rw [sim.layout.size_eq, index, rowsBytes, length_flatMap]
  · exact sim.layout.storedSize.load (lt_of_le_of_lt inside range)
  · refine sim.layout.storedCount.load ?_
    change _ < 2 ^ 32
    omega

/-- A chunk fresh from `init` represents the empty list. The size argument must leave
room for the header in 32 bits, and the key must have the bytes its format says. -/
theorem init_simulates {key : List UInt8} {extra nodeIdx hour ks : Nat} {alloc : Allocator}
    (hks : ks = if t.keyFormat ≠ 0 then t.keyFormat else 1 + (key.headD 0).toNat)
    (room : extra + (16 + ks) < 2 ^ 32) (whole : ks ≤ key.length)
    (init : init (t.keyFields - 1) t.keyFormat key extra nodeIdx hour alloc = .ok s) :
    Simulates fmt t s ⟨[], 0, 0, false⟩ := by
  unfold RawData.init at init
  rw [← hks] at init
  dsimp only at init
  rw [add32_eq room] at init
  cases answer : alloc.answer (extra + (16 + ks)) with
  | none =>
    rw [answer] at init
    exact nomatch init
  | some grant =>
  rw [answer] at init
  have covers := alloc.covers _ _ answer
  have range := alloc.range _ _ answer
  have pos : 0 < ks := by
    rw [hks]
    split_ifs <;> omega
  split_ifs at init with idx
  simp only [setValue, bind, Except.bind, length_append, length_leBytes,
    length_cons, length_nil] at init
  rw [if_neg (by omega)] at init
  dsimp only at init
  rw [if_neg (by omega)] at init
  dsimp only at init
  rw [if_neg (by omega)] at init
  dsimp only at init
  rw [if_neg (by omega)] at init
  dsimp only at init
  rw [if_neg (by omega)] at init
  obtain rfl := Except.ok.inj init
  generalize leBytes 2 hour ++ leBytes 2 hour ++ leBytes 2 hour = stamps at *
  generalize hmem : store (store (store (store (store (store grant.fresh 0
    [UInt8.ofNat (nodeIdx * 128)]) 1 (leBytes 4 (16 + ks))) 5 (leBytes 4 0)) 9 [1]) 10 stamps) 16
      (key.take ks) = mem
  have typeByte : mem 0 = UInt8.ofNat (nodeIdx * 128) := by
    rw [← hmem, store_outside (by omega), store_outside (by omega), store_outside (by omega),
      store_outside (by omega), store_outside (by omega)]
    exact (holds_cons.mp (show Holds (store grant.fresh 0 [UInt8.ofNat (nodeIdx * 128)]) 0
      [UInt8.ofNat (nodeIdx * 128)] from holds_store)).1
  have size : Holds mem 1 (leBytes 4 (16 + ks)) := by
    rw [← hmem]
    refine Holds.store_apart (Holds.store_apart (Holds.store_apart (Holds.store_apart
      holds_store ?_) ?_) ?_) ?_ <;> simp
  have count : Holds mem 5 (leBytes 4 0) := by
    rw [← hmem]
    refine Holds.store_apart (Holds.store_apart (Holds.store_apart holds_store ?_) ?_) ?_ <;> simp
  have keyByte : mem 16 = key.headD 0 := by
    rw [← hmem]
    cases key with
    | nil => exact absurd whole (by simpa using pos.ne')
    | cons b bs =>
      obtain ⟨n, rfl⟩ : ∃ n, ks = n + 1 := ⟨ks - 1, by omega⟩
      exact (holds_cons.mp holds_store).1
  apply simulates_rewound
  · refine ⟨⟨⟨range, ?_, ?_, rfl⟩, by dsimp only; omega, le_rfl, size, count⟩, holds_nil, rfl, rfl,
      by simp⟩
    · obtain rfl | rfl : nodeIdx = 0 ∨ nodeIdx = 1 := by omega
      · exact congrArg (fun b => b.toNat % 128) typeByte
      · exact congrArg (fun b => b.toNat % 128) typeByte
    · dsimp only
      rw [keyByte, hks]
  · rfl
  · rfl

/-- In every run of successful calls in which the buffer is used as intended, the
chunk represents the list that the same calls produce, also after attaching to it
again, and every row read is the row of the list. -/
theorem raw_run_represents (fmt : FloatFormat) (t : TableDefinition) (key : List UInt8)
    (extra nodeIdx hour : Nat) (alloc : Allocator) (s : RawData)
    (init : RawData.init (t.keyFields - 1) t.keyFormat key extra nodeIdx hour alloc = .ok s)
    (packed : key.length = if t.keyFormat ≠ 0 then t.keyFormat else 1 + (key.headD 0).toNat)
    (room : extra + (16 + key.length) < 2 ^ 32) (ops : List RawOp)
    (legal : Machine.Admitted (RawLegal fmt t) (rawStep fmt t) ⟨s, ⟨[], 0, 0, false⟩⟩ ops) :
    let w := final (rawStep fmt t) ⟨s, ⟨[], 0, 0, false⟩⟩ ops
    Represents fmt t w.raw w.list ∧
      (w.raw.doAttach (t.keyFields - 1) t.keyFormat).1 = 0 ∧
      Represents fmt t (w.raw.doAttach (t.keyFields - 1) t.keyFormat).2 w.list ∧
      ∀ reply ∈ replies (rawStep fmt t) ⟨s, ⟨[], 0, 0, false⟩⟩ ops,
        reply.2.1 = reply.2.2 := by
  have start : Simulates fmt t s ⟨[], 0, 0, false⟩ := init_simulates packed room le_rfl init
  have sim := final_invariant (fun w => Simulates fmt t w.raw w.list)
    (fun w op sim legal => (sim.step legal).1) start legal
  intro w
  have attached := sim.layout.doAttach
  refine ⟨sim.represents, by rw [attached], ?_, ?_⟩
  · have legal : RawLegal fmt t w .doAttach := ⟨by simp only [RawOp.run, w, attached], trivial⟩
    have represents := (sim.step legal).1.represents
    exact ⟨represents.content, represents.dataSize, represents.rowCount, represents.storedSize,
      represents.storedCount⟩
  · exact replies_invariant (fun w => Simulates fmt t w.raw w.list)
      (fun reply => reply.2.1 = reply.2.2) (fun w op sim legal => sim.step legal) start legal

end Guarantee

/-- A table with an integer key field and a binary field. -/
def blobTable : TableDefinition :=
  ⟨1, 1, 4, fun i => if i = 0 then ⟨.signed, 4, false⟩ else ⟨.binary, 16, false⟩⟩

/-- A row of it with at most one byte. -/
def blobRow (byte : Option UInt8) : RowValue := fun _ =>
  ⟨0, match byte with
    | none => ⟨[], nil_short⟩
    | some b => ⟨[b], by simp⟩⟩

/-- Conversions between floats that keep the low half of the bits. -/
def halfFormat : FloatFormat := ⟨BitVec.setWidth 32, BitVec.setWidth 64⟩

/-- An allocator that gives eight bytes more than asked for. -/
def slackAllocator : Allocator where
  answer n := if n + 8 < 2 ^ 32 then some ⟨n + 8, fun _ => 0⟩ else none
  covers n grant h := by
    split_ifs at h
    obtain rfl := Option.some.inj h
    exact Nat.le_add_right n 8
  range n grant h := by
    split_ifs at h
    obtain rfl := Option.some.inj h
    assumption

/-- A chunk of the table with no rows. -/
def blobChunk : RawData :=
  (RawData.init 0 4 [1, 2, 3, 4] 0 0 0 slackAllocator).toOption.get (by decide)

/-- Two rows, the first replaced by a longer one, the second flagged and deleted. -/
theorem raw_run_represents_blobs :
    let w := final (rawStep halfFormat blobTable) ⟨blobChunk, ⟨[], 0, 0, false⟩⟩
      [.insertRowFlag (blobRow none) false operSelect slackAllocator true,
        .insertRowFlag (blobRow none) true operInsert slackAllocator true, .doAttach,
        .decodeRow (blobRow none) false, .replaceCurRow (blobRow (some 7)) true slackAllocator true,
        .decodeRow (blobRow none) false, .setCurRowFlag operUpdate, .deleteCurRow]
    Represents halfFormat blobTable w.raw w.list := by
  exact (raw_run_represents halfFormat blobTable [1, 2, 3, 4] 0 0 0 slackAllocator blobChunk rfl rfl
    (by decide) _ (by decide +kernel)).1

/-- A row inserted in front while another row is the current one, whose flag is
then set. -/
def staleOps : List RawOp :=
  [.insertRowFlag (blobRow none) false operSelect slackAllocator true,
    .insertRowFlag (blobRow none) false operSelect slackAllocator true, .rewind,
    .decodeRow (blobRow none) false, .decodeRow (blobRow none) false,
    .insertRowFlag (blobRow (some 7)) true operSelect slackAllocator true,
    .setCurRowFlag operUpdate]

/-- The chunk and the list after these calls. -/
def staleWorld : RawWorld :=
  Machine.final (rawStep halfFormat blobTable) ⟨blobChunk, ⟨[], 0, 0, false⟩⟩ staleOps

/-- The flag of the current row has been written into the inserted row, though
every call reports success. -/
theorem stale_row_not_represented :
    RawData.init 0 4 [1, 2, 3, 4] 0 0 0 slackAllocator = .ok blobChunk ∧
      (∀ reply ∈ Machine.replies (rawStep halfFormat blobTable)
        ⟨blobChunk, ⟨[], 0, 0, false⟩⟩ staleOps, reply.1 = 0) ∧
      ¬Represents halfFormat blobTable staleWorld.raw staleWorld.list := by
  refine ⟨rfl, by decide +kernel, fun represents => ?_⟩
  obtain ⟨s', content, -⟩ := represents.content
  have rows : (readRows halfFormat blobTable staleWorld.raw.rowCount staleWorld.raw.rewind).map
      Prod.fst = some (staleWorld.list.view blobTable) := by
    rw [content, Option.map_some]
  exact absurd rows (by decide +kernel)

end Dtc.Raw
