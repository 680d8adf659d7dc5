import Dtc.Raw.Process

/-!
# Passes over the rows of a buffer

The loops of `RawDataProcess` read a row, and then keep it, replace it or delete it, in the
buffer that they go through. So a loop is a pass over a list that puts something in the
place of each row; what that is depends on the row and on the counters so far.
-/

namespace Dtc.Raw

open Library Memory List RawData RawProcess

/-- A pass over a list that carries a value along; an element is replaced by a list. -/
def sweep {α τ : Type} (effect : τ → α → τ × List α) : τ → List α → τ × List α
  | x, [] => (x, [])
  | x, r :: rows =>
    let rest := sweep effect (effect x r).1 rows
    (rest.1, (effect x r).2 ++ rest.2)

variable {row : RowValue} {alloc : Allocator} {isDirty : Bool} {fmt : FloatFormat}
  {t : TableDefinition} {s : RawData} {pre post rows : List (UInt8 × RowValue)}
  {r : UInt8 × RowValue} {M n : Nat}

section Loop

section
variable (fmt t)

/-- The buffer holds the rows, and the next row to read is behind the first `n` of them. -/
def Facing (s : RawData) (rows : List (UInt8 × RowValue)) (n : Nat) : Prop :=
  ∃ cur, Simulates fmt t s ⟨rows, cur, n, false⟩

/-- The row at position `n` was just read. -/
def Facing.At (s : RawData)
    (pre : List (UInt8 × RowValue)) (r : UInt8 × RowValue) (post : List (UInt8 × RowValue)) : Prop :=
  Simulates fmt t s ⟨pre ++ r :: post, pre.length, pre.length + 1, false⟩

/-- What a round does to the row that was read: it becomes `out`, and the loop goes on
behind it. `P` is what is known of the rows before and after the next one, and `Q` what is known
of the row variable. -/
def Acts (P : List (UInt8 × RowValue) → List (UInt8 × RowValue) → Prop) (Q : RowValue → Prop)
    (act : Nat → UInt8 → RowValue → Tally → RawData → Round)
    (effect : Tally → UInt8 × RowValue → Tally × List (UInt8 × RowValue)) : Prop :=
  ∀ i pre r post x s read, Facing.At fmt t s pre r post → P pre (r :: post) → Q read →
    rowView t (t.keyFields - 1) read = rowView t (t.keyFields - 1) r.2 →
    (act i r.1 read x s).ret = 0 →
    (act i r.1 read x s).tally = (effect x r).1 ∧
      Facing fmt t (act i r.1 read x s).raw (pre ++ ((effect x r).2 ++ post))
        (pre ++ (effect x r).2).length ∧
      P (pre ++ (effect x r).2) post ∧ Q (act i r.1 read x s).row

end

/-- Reading a row makes it the current one. -/
theorem Facing.decodeRow {pre post : List (UInt8 × RowValue)} {r : UInt8 × RowValue}
    (facing : Facing fmt t s (pre ++ r :: post) pre.length) (old : RowValue) :
    (s.decodeRow fmt t old false).1 = 0 ∧ (s.decodeRow fmt t old false).2.1 = r.1 ∧
      rowView t (t.keyFields - 1) (s.decodeRow fmt t old false).2.2.1 =
        rowView t (t.keyFields - 1) r.2 ∧
      Facing.At fmt t (s.decodeRow fmt t old false).2.2.2 pre r post := by
  obtain ⟨cur, sim⟩ := facing
  have lt : pre.length < (pre ++ r :: post).length := by simp
  have inside : s.offset < s.dataSize := sim.next_eq ▸ position_lt sim.layout lt
  obtain ⟨next, reply, -⟩ := sim.decodeRow inside old false
  have here : (pre ++ r :: post)[pre.length]? = some r := by simp
  simp only [RawOp.run, RawOp.apply, here, Option.map_some, Bool.false_eq_true, if_false] at reply next
  split_ifs at reply with code
  obtain ⟨flag, view⟩ := Prod.mk.inj (Option.some.inj reply)
  exact ⟨code, flag, view, next⟩

theorem Facing.keyIndex (facing : Facing fmt t s rows n) : s.keyIndex = t.keyFields - 1 := by
  obtain ⟨cur, sim⟩ := facing
  exact sim.layout.keyIndex

/-- A loop that succeeds has made a pass over the rows. -/
theorem eachRow_spec {P : List (UInt8 × RowValue) → List (UInt8 × RowValue) → Prop}
    {Q : RowValue → Prop} {failed : Int}
    {act : Nat → UInt8 → RowValue → Tally → RawData → Round}
    {effect : Tally → UInt8 × RowValue → Tally × List (UInt8 × RowValue)}
    (acts : Acts fmt t P Q act effect)
    (reading : ∀ (s : RawData) row, s.keyIndex = t.keyFields - 1 → Q row → Q (s.decodeRow fmt t row false).2.2.1)
    (pre rest : List (UInt8 × RowValue)) {i : Nat} {old : RowValue} {x : Tally}
    (facing : Facing fmt t s (pre ++ rest) pre.length) (start : P pre rest) (clear : Q old)
    (ok : (eachRow fmt t failed act rest.length i old x s).1 = 0) :
    (eachRow fmt t failed act rest.length i old x s).2.1 = (sweep effect x rest).1 ∧
      Facing fmt t (eachRow fmt t failed act rest.length i old x s).2.2
        (pre ++ (sweep effect x rest).2) (pre ++ (sweep effect x rest).2).length ∧
      P (pre ++ (sweep effect x rest).2) [] := by
  induction rest generalizing pre i old x s with
  | nil =>
    rw [append_nil] at facing
    rw [sweep, append_nil]
    exact ⟨rfl, facing, start⟩
  | cons r rest ih =>
    obtain ⟨code, flag, view, current⟩ := facing.decodeRow old
    have variable_ := reading s old facing.keyIndex clear
    rw [length_cons, eachRow] at ok ⊢
    rw [if_neg (not_not.mpr code), flag] at ok ⊢
    generalize s.decodeRow fmt t old false = result at *
    by_cases ended : (act i r.1 result.2.2.1 x result.2.2.2).ret = 0
    · rw [if_neg (not_not.mpr ended)] at ok ⊢
      obtain ⟨tally, next, kept, clear⟩ := acts i pre r rest x _ _ current start variable_ view ended
      rw [tally] at ok ⊢
      rw [← append_assoc] at next
      have loop := ih (pre ++ (effect x r).2) next kept clear ok
      rwa [sweep, ← append_assoc]
    · rw [if_pos ended] at ok
      exact absurd ok ended

/-- The positions do not depend on more than what is stored. -/
theorem Simulates.congr {l : ListCursor} {rows : List (UInt8 × RowValue)}
    (sim : Simulates fmt t s l) (view : rowsView t s.keyIndex l.rows = rowsView t s.keyIndex rows) :
    Simulates fmt t s { l with rows } := by
  have length : l.rows.length = rows.length := by
    have := congrArg length view
    rwa [rowsView, rowsView, length_map, length_map] at this
  have same : ∀ i, position fmt t s l.rows i = position fmt t s rows i := by
    intro i
    have taken : rowsView t s.keyIndex (l.rows.take i) = rowsView t s.keyIndex (rows.take i) := by
      rw [rowsView, rowsView, map_take, map_take]
      exact congrArg (take i) view
    rw [position, position, rowsBytes_congr taken]
  exact ⟨sim.layout.congr view, length ▸ sim.next_le, (sim.next_eq).trans (same _),
    fun fresh => length ▸ sim.cur_le fresh, fun fresh => (sim.cur_eq fresh).trans (same _)⟩

/-- One row of the list can be exchanged for another that looks the same. -/
theorem Facing.congr {pre post : List (UInt8 × RowValue)} {flag : UInt8} {a b : RowValue}
    (facing : Facing fmt t s (pre ++ ([(flag, a)] ++ post)) (pre ++ [(flag, a)]).length)
    (view : rowView t (t.keyFields - 1) a = rowView t (t.keyFields - 1) b) :
    Facing fmt t s (pre ++ ([(flag, b)] ++ post)) (pre ++ [(flag, b)]).length := by
  obtain ⟨cur, sim⟩ := facing
  have index := sim.layout.keyIndex
  have same : rowsView t s.keyIndex (pre ++ ([(flag, a)] ++ post)) =
      rowsView t s.keyIndex (pre ++ ([(flag, b)] ++ post)) := by
    simp [rowsView, index, view]
  have lengths : (pre ++ [(flag, b)]).length = (pre ++ [(flag, a)]).length := by
    rw [length_append, length_append]
    rfl
  rw [lengths]
  exact ⟨cur, sim.congr same⟩

section Current

section
variable (here : Facing.At fmt t s pre r post)
include here

theorem Facing.At.keep : Facing fmt t s (pre ++ ([r] ++ post)) (pre ++ [r]).length := by
  rw [length_append]
  exact ⟨pre.length, here⟩

theorem Facing.At.replaceCurRow {temp : Bool} (fits : RowFits fmt t s.keyIndex row)
    (bound : s.dataSize + 2 * calcRowSize t row s.keyIndex < 2 ^ 32)
    (ok : (s.replaceCurRow fmt t row isDirty alloc temp).1 = 0) :
    Facing fmt t (s.replaceCurRow fmt t row isDirty alloc temp).2
      (pre ++ ([(if isDirty then operUpdate else r.1, row)] ++ post))
      (pre ++ [(if isDirty then operUpdate else r.1, row)]).length := by
  have sim := Simulates.replaceCurRow here rfl fits bound ok
  simp only [RawOp.apply, modify_split] at sim
  rw [length_append]
  exact ⟨pre.length, sim⟩

theorem Facing.At.deleteCurRow (ok : (s.deleteCurRow t).1 = 0) :
    Facing fmt t (s.deleteCurRow t).2 (pre ++ ([] ++ post)) (pre ++ []).length := by
  have sim := Simulates.deleteCurRow here rfl ok
  simp only [RawOp.apply, eraseIdx_split] at sim
  rw [append_nil]
  exact ⟨pre.length, sim⟩

end

theorem code_ne_noMem {c : Prop} [Decidable c] {res failed ended : Int × RawData}
    (eq : res = if c then failed else ended) (h₁ : failed.1 = -1) (h₂ : ended.1 = 0) :
    res.1 ≠ ecNoMem := by
  rw [eq]
  split_ifs
  · rw [h₁]
    decide
  · rw [h₂]
    decide

theorem replaceLonger_noMem {flag : UInt8} {newSize cur : Nat}
    (full : (replaceLonger fmt t s row flag newSize cur alloc).1 = ecNoMem) :
    (replaceLonger fmt t s row flag newSize cur alloc).2 = s := by
  cases realloc : s.reAlloc (sub32 (add32 s.dataSize newSize) cur) alloc with
  | none => rw [replaceLonger, realloc]
  | some s' =>
    exact absurd full (code_ne_noMem (by rw [replaceLonger, realloc]) rfl rfl)

theorem replaceShorter_code {flag : UInt8} {newSize cur : Nat} :
    (replaceShorter fmt t s row flag newSize cur alloc).1 ≠ ecNoMem :=
  code_ne_noMem (by rw [replaceShorter]) rfl rfl

/-- A replacement that finds no memory changes nothing. -/
theorem Facing.At.replaceCurRow_noMem (here : Facing.At fmt t s pre r post) {temp : Bool}
    (full : (s.replaceCurRow fmt t row isDirty alloc temp).1 = ecNoMem) :
    (s.replaceCurRow fmt t row isDirty alloc temp).2 = s := by
  have inside : s.rowOffset < s.dataSize := by
    rw [here.cur_eq rfl]
    exact position_lt here.layout (by simp)
  obtain ⟨_, flag, old, _, -, -, current⟩ := here.current rfl inside
  rw [current.replaceCurRow_eq] at full ⊢
  generalize (if isDirty then operUpdate else flag) = flag' at *
  by_cases grows : (rowBytes fmt t s.keyIndex flag old).length < calcRowSize t row s.keyIndex
  · rw [if_neg fun short => short.1 grows, if_pos grows] at full ⊢
    split_ifs at full ⊢
    · rw [replaceLonger_noMem full]
    · exact absurd full (by decide : (0 : Int) ≠ ecNoMem)
  · rw [if_neg grows] at full
    split_ifs at full
    · exact absurd full (by decide : (-12 : Int) ≠ ecNoMem)
    · exact absurd full replaceShorter_code
    · exact absurd full (by decide : (0 : Int) ≠ ecNoMem)

end Current

end Loop

/-! ### Sizes -/

/-- The most that header and key can take. -/
def headRoom (t : TableDefinition) : Nat := 16 + max t.keyFormat 256

/-- The bytes of a row. -/
def rowLength (fmt : FloatFormat) (t : TableDefinition) (row : RowValue) : Nat :=
  (rowBytes fmt t (t.keyFields - 1) 0 row).length

/-- `n` rows of `M` bytes fit a buffer twice over: the size that `replace_cur_row` asks for
counts the new row twice. -/
def Room (t : TableDefinition) (M n : Nat) : Prop := headRoom t + M * (n + 2) < 2 ^ 32

section Sizes

theorem rowBytes_length (flag : UInt8) (row : RowValue) :
    (rowBytes fmt t (t.keyFields - 1) flag row).length = rowLength fmt t row := rfl

theorem rowLength_congr {a b : RowValue}
    (view : rowView t (t.keyFields - 1) a = rowView t (t.keyFields - 1) b) :
    rowLength fmt t a = rowLength fmt t b := by
  rw [rowLength, rowBytes_congr view, rowLength]

theorem rowLength_stored (stable : fmt.Stable) (row : RowValue) :
    rowLength fmt t (storedRow fmt t row) = rowLength fmt t row := by
  simp only [rowLength, rowBytes, fieldsBytes, storedRow, fieldBytes_stored stable]

theorem calcRowSize_le (row : RowValue) :
    calcRowSize t row (t.keyFields - 1) ≤ rowLength fmt t row := by
  rw [calcRowSize_eq fmt t row (t.keyFields - 1) 0]
  exact Nat.mod_le _ _

theorem rowsBytes_length_le (sized : ∀ r ∈ rows, rowLength fmt t r.2 ≤ M) :
    (rowsBytes fmt t (t.keyFields - 1) rows).length ≤ M * rows.length := by
  induction rows with
  | nil => simp
  | cons r rows ih =>
    have head := sized r mem_cons_self
    have tail := ih fun x mem => sized x (mem_cons_of_mem r mem)
    rw [rowsBytes_cons, length_append, length_cons, rowBytes_length, Nat.mul_succ]
    omega

theorem RawData.Layout.dataStart_le (layout : s.Layout fmt t rows) : s.dataStart ≤ headRoom t := by
  have byte := (s.mem 16).toNat_lt
  rw [layout.dataStart, headRoom]
  split_ifs <;> omega

theorem RawData.Layout.dataSize_le (layout : s.Layout fmt t rows)
    (sized : ∀ r ∈ rows, rowLength fmt t r.2 ≤ M) : s.dataSize ≤ headRoom t + M * rows.length := by
  have start := layout.dataStart_le
  have bytes := rowsBytes_length_le sized
  rw [layout.size_eq, layout.keyIndex]
  omega

/-- The size that `replace_cur_row` computes fits 32 bits. -/
theorem RawData.Layout.replace_bound (layout : s.Layout fmt t rows) (room : Room t M n)
    (few : rows.length ≤ n) (sized : ∀ r ∈ rows, rowLength fmt t r.2 ≤ M)
    (small : rowLength fmt t row ≤ M) : s.dataSize + 2 * calcRowSize t row s.keyIndex < 2 ^ 32 := by
  have size := layout.dataSize_le sized
  have least : calcRowSize t row (t.keyFields - 1) ≤ rowLength fmt t row := calcRowSize_le row
  have more := Nat.mul_le_mul_left M few
  have split : M * (n + 2) = M * n + 2 * M := by rw [Nat.mul_add, Nat.mul_comm M 2]
  rw [layout.keyIndex]
  unfold Room at room
  omega

end Sizes

section Rounds
variable {sup : Supply} {nodeIdx hour : Nat}

theorem key_size (t : TableDefinition) (s : RawData) : (key t s).length =
    if t.keyFormat ≠ 0 then t.keyFormat else 1 + ((key t s).headD 0).toNat := by
  rw [key, length_slice]
  by_cases fixed : t.keyFormat ≠ 0
  · rw [if_pos fixed, if_pos fixed]
  · rw [if_neg fixed, if_neg fixed, Nat.add_comm 1]
    exact Nat.add_comm _ _

theorem key_room (room : Room t M n) (small : rowLength fmt t row ≤ M) :
    calcRowSize t row (t.keyFields - 1) + (16 + (key t s).length) < 2 ^ 32 := by
  have byte := ((key t s).headD 0).toNat_lt
  have least : calcRowSize t row (t.keyFields - 1) ≤ rowLength fmt t row := calcRowSize_le row
  have twice : M * 2 ≤ M * (n + 2) := Nat.mul_le_mul_left M (Nat.le_add_left 2 n)
  unfold Room headRoom at room
  rw [key_size]
  split_ifs <;> omega

/-- A row comes back from the private area as it is stored. -/
theorem encodeToPrivateArea_ok (stable : fmt.Stable) (room : Room t M n)
    (small : rowLength fmt t row ≤ M)
    (ok : (encodeToPrivateArea fmt t nodeIdx hour alloc (key t s) row).1 = 0) :
    rowView t (t.keyFields - 1)
        (encodeToPrivateArea fmt t nodeIdx hour alloc (key t s) row).2 =
      rowView t (t.keyFields - 1) (storedRow fmt t row) := by
  unfold encodeToPrivateArea at ok ⊢
  cases init : init (t.keyFields - 1) t.keyFormat (key t s)
      (calcRowSize t row (t.keyFields - 1)) nodeIdx hour alloc with
  | error code =>
    rw [init] at ok
    exact absurd ok (by decide : (-1 : Int) ≠ 0)
  | ok raw =>
    rw [init] at ok
    dsimp only at ok ⊢
    have start : Simulates fmt t raw ⟨[], 0, 0, false⟩ :=
      init_simulates (key_size t s) (key_room room small) le_rfl init
    rw [insertRow, ← insertRowFlag_stored stable] at ok ⊢
    by_cases inserted : (raw.insertRowFlag fmt t (storedRow fmt t row) false
        (if false = true then operInsert else operSelect) alloc true).1 = 0
    · rw [if_neg (not_not.mpr inserted)] at ok ⊢
      have sim := start.insertRowFlag (storedRow_fits stable) inserted
      generalize (raw.insertRowFlag fmt t (storedRow fmt t row) false _ alloc true).2 = s' at *
      have rewound := simulates_rewound (sim.layout.moveCursor s'.dataStart s'.dataStart) rfl rfl
      obtain ⟨code, -, view, -⟩ := Facing.decodeRow (show Facing fmt t _ ([] ++ [_]) 0 from ⟨0, rewound⟩) row
      rw [rewind, if_neg (not_not.mpr code)]
      exact view
    · rw [if_pos inserted] at ok
      exact absurd ok (by decide : (-2 : Int) ≠ 0)

/-- A replacement, also one that is tried again. -/
theorem Facing.At.replaceRetried (here : Facing.At fmt t s pre r post) (stable : fmt.Stable)
    (room : Room t M n) (few : (pre ++ r :: post).length ≤ n)
    (sized : ∀ x ∈ pre ++ r :: post, rowLength fmt t x.2 ≤ M) (small : rowLength fmt t row ≤ M)
    {i : Nat} (ok : (replaceRetried fmt t sup i row isDirty s).1 = 0) :
    Facing fmt t (replaceRetried fmt t sup i row isDirty s).2
      (pre ++ ([(if isDirty then operUpdate else r.1, storedRow fmt t row)] ++ post))
      (pre ++ [(if isDirty then operUpdate else r.1, storedRow fmt t row)]).length := by
  have bound := here.layout.replace_bound room few sized
    ((rowLength_stored stable row).trans_le small)
  unfold RawProcess.replaceRetried at ok ⊢
  rw [← replaceCurRow_stored stable] at ok ⊢
  by_cases again : (s.replaceCurRow fmt t (storedRow fmt t row) isDirty (sup.alloc i)
      (sup.temp i)).1 = ecNoMem ∧ sup.purged i = true
  · rw [if_pos again, here.replaceCurRow_noMem again.1, ← replaceCurRow_stored stable] at ok
    rw [if_pos again, here.replaceCurRow_noMem again.1, ← replaceCurRow_stored stable]
    exact here.replaceCurRow (storedRow_fits stable) bound ok
  · rw [if_neg again] at ok ⊢
    exact here.replaceCurRow (storedRow_fits stable) bound ok

variable (fmt t M n) in
/-- The rows are small enough, before and after an update. -/
structure Fitting (update : RowValue → RowValue) (pre rest : List (UInt8 × RowValue)) : Prop where
  few : (pre ++ rest).length ≤ n
  sized : ∀ x ∈ pre ++ rest, rowLength fmt t x.2 ≤ M
  updated : ∀ x ∈ rest, rowLength fmt t (update x.2) ≤ M

/-- Nothing, or one row that is small enough, takes the place of the next row. -/
theorem Fitting.step {update : RowValue → RowValue} {out : List (UInt8 × RowValue)}
    (fitting : Fitting fmt t M n update pre (r :: post)) (one : out.length ≤ 1)
    (small : ∀ x ∈ out, rowLength fmt t x.2 ≤ M) : Fitting fmt t M n update (pre ++ out) post := by
  have few := fitting.few
  have sized := fitting.sized
  simp only [forall_mem_append, forall_mem_cons] at sized
  simp only [length_append, length_cons] at few
  refine ⟨?_, ?_, fun x mem => fitting.updated x (mem_cons_of_mem r mem)⟩
  · simp only [length_append]
    omega
  · simp only [forall_mem_append]
    exact ⟨⟨sized.1, small⟩, sized.2.2⟩

variable (fmt) in
/-- What `do_update` makes of a row. -/
def updateEffect (job : RowJob t) (async : Bool) (x : Tally) (r : UInt8 × RowValue) :
    Tally × List (UInt8 × RowValue) :=
  if job.compareRow r.2 = true then
    (⟨x.affectedRows + 1, x.rowsCount,
        x.dirtyRowsCount - dirtyOne r.1 + if async then 1 else 0⟩,
      [(if async then operUpdate else r.1, storedRow fmt t (job.updateRow r.2))])
  else (x, [r])

theorem updateRound_acts (stable : fmt.Stable) (room : Room t M n) (job : RowJob t) (async : Bool) :
    Acts fmt t (Fitting fmt t M n job.updateRow) (fun _ => True)
      (updateRound fmt t sup nodeIdx hour job async) (updateEffect fmt job async) := by
  intro i pre r post x s read here fitting _ view ok
  unfold updateRound at ok ⊢
  rw [job.compareRow_congr view] at ok ⊢
  unfold updateEffect
  by_cases matched : job.compareRow r.2 = true
  · rw [if_neg (by rw [matched]; decide)] at ok ⊢
    rw [if_pos matched]
    have updated : rowView t (t.keyFields - 1) (job.updateRow read) =
        rowView t (t.keyFields - 1) (job.updateRow r.2) := job.updateRow_congr view
    have small : rowLength fmt t (job.updateRow r.2) ≤ M := fitting.updated r mem_cons_self
    by_cases encoded : (encodeToPrivateArea fmt t nodeIdx hour (sup.system i)
        (key t s) (job.updateRow read)).1 = 0
    · have stored := encodeToPrivateArea_ok stable room ((rowLength_congr updated).trans_le small)
        encoded
      rw [if_neg (not_not.mpr encoded)] at ok ⊢
      generalize (encodeToPrivateArea fmt t nodeIdx hour (sup.system i)
        (key t s) (job.updateRow read)).2 = row at *
      have same : rowView t (t.keyFields - 1) row =
          rowView t (t.keyFields - 1) (storedRow fmt t (job.updateRow r.2)) :=
        stored.trans (storedRow_congr updated)
      have length : rowLength fmt t row ≤ M :=
        ((rowLength_congr same).trans (rowLength_stored stable _)).trans_le small
      by_cases replaced : (replaceRetried fmt t sup i row async s).1 = 0
      · rw [if_neg (not_not.mpr replaced)]
        have next := here.replaceRetried stable room fitting.few fitting.sized length replaced
        refine ⟨rfl, next.congr ?_, fitting.step le_rfl ?_, trivial⟩
        rotate_left
        · rw [forall_mem_singleton]
          exact (rowLength_stored stable _).trans_le small
        exact (storedRow_congr same).trans (storedRow_view (storedRow_fits stable))
      · rw [if_pos replaced] at ok
        exact absurd ok (by decide : (-6 : Int) ≠ 0)
    · rw [if_pos encoded] at ok
      exact absurd ok (by decide : (-3 : Int) ≠ 0)
  · rw [if_pos (Bool.eq_false_iff.mpr matched), if_neg matched]
    exact ⟨rfl, here.keep, fitting.step le_rfl (by simpa using fitting.sized r (by simp)), trivial⟩

/-- What `do_delete` makes of a row. -/
def deleteEffect (job : RowJob t) (x : Tally) (r : UInt8 × RowValue) :
    Tally × List (UInt8 × RowValue) :=
  if job.compareRow r.2 = true then
    (⟨x.affectedRows + 1, x.rowsCount - 1, x.dirtyRowsCount - dirtyOne r.1⟩, [])
  else (x, [r])

theorem Facing.At.deleteCurRow_ok (here : Facing.At fmt t s pre r post) : (s.deleteCurRow t).1 = 0 := by
  have inside : s.rowOffset < s.dataSize := by
    rw [here.cur_eq rfl]
    exact position_lt here.layout (by simp)
  obtain ⟨_, _, _, _, -, -, current⟩ := here.current rfl inside
  obtain ⟨s', eq, -⟩ := current.deleteCurRow
  rw [eq]

theorem deleteRound_acts (job : RowJob t) :
    Acts fmt t (fun _ _ => True) (fun _ => True) (deleteRound t job) (deleteEffect job) := by
  intro i pre r post x s read here _ _ view _
  unfold deleteRound deleteEffect
  rw [job.compareRow_congr view]
  by_cases matched : job.compareRow r.2 = true
  · rw [if_neg (by rw [matched]; decide), if_pos matched]
    rw [if_neg (not_not.mpr here.deleteCurRow_ok)]
    exact ⟨rfl, here.deleteCurRow here.deleteCurRow_ok, trivial, trivial⟩
  · rw [if_pos (Bool.eq_false_iff.mpr matched), if_neg matched]
    exact ⟨rfl, here.keep, trivial, trivial⟩

section Replace
variable (t) (uniqFields : List Nat) (new : RowValue)

/-- A row as it is read into a variable that was cleared. -/
def readRow (row : RowValue) : RowValue := fun j =>
  if j ∈ storedFields t (t.keyFields - 1) then row j else zeroRow j

/-- The variable has zeros in the key fields and the discard fields. -/
def Cleared (row : RowValue) : Prop :=
  ∀ j, j ∉ storedFields t (t.keyFields - 1) → row j = zeroRow j

/-- The row has the unique fields of the new row. Neither is a key field read with a row, nor is a
discard field: there the new row is compared with zeros. -/
def conflicts (r : UInt8 × RowValue) : Bool :=
  keyAsUniqField t uniqFields ||
    compareFields t.fieldType (contents new) (contents (readRow t r.2)) uniqFields = 0

variable {t}

theorem Cleared.decodeRow {s : RawData} {row : RowValue} (index : s.keyIndex = t.keyFields - 1)
    (clear : Cleared t row) : Cleared t (s.decodeRow fmt t row false).2.2.1 := by
  intro j unstored
  rw [decodeRow_unstored row false (index ▸ unstored)]
  exact clear j unstored

theorem compareField_congr {f : FieldDefinition} {v w : DTCValue} (same : f.member v = f.member w)
    (a : Content) :
    compareField f.fieldType a (v.num, v.bin.1) = compareField f.fieldType a (w.num, w.bin.1) := by
  unfold FieldDefinition.member at same
  unfold compareField
  cases type : f.fieldType with
  | signed | unsigned =>
    rw [type] at same
    rw [FieldValue.num.inj same]
  | string | binary =>
    rw [type] at same
    rw [FieldValue.bin.inj same]
  | float | none => rfl

/-- The comparison sees of the variable what is stored of the row. -/
theorem compareFields_read {read row : RowValue} (clear : Cleared t read)
    (view : rowView t (t.keyFields - 1) read = rowView t (t.keyFields - 1) row) :
    compareFields t.fieldType (contents new) (contents read) uniqFields =
      compareFields t.fieldType (contents new) (contents (readRow t row)) uniqFields := by
  have field : ∀ id, compareField (t.fieldType id) (contents new id) (contents read id) =
      compareField (t.fieldType id) (contents new id) (contents (readRow t row) id) := by
    intro id
    refine compareField_congr ?_ _
    unfold readRow
    split_ifs with stored
    · exact rowView_eq_iff.mp view id stored
    · rw [clear id stored]
  induction uniqFields with
  | nil => rfl
  | cons id ids ih => rw [compareFields, compareFields, field, ih]

variable (fmt t) in
/-- What `do_replace` makes of a row. -/
def replaceEffect (async : Bool) (x : Tally) (r : UInt8 × RowValue) :
    Tally × List (UInt8 × RowValue) :=
  let dirty := x.dirtyRowsCount - dirtyOne r.1 + if async then 1 else 0
  if conflicts t uniqFields new r = true then
    if x.affectedRows = 0 then
      (⟨2, x.rowsCount, dirty⟩, [(if async then operUpdate else r.1, storedRow fmt t new)])
    else (⟨x.affectedRows + 1, x.rowsCount, dirty⟩, [])
  else (x, [r])

theorem replaceRound_acts (stable : fmt.Stable) (room : Room t M n)
    (small : rowLength fmt t new ≤ M) (async : Bool) :
    Acts fmt t (Fitting fmt t M n fun _ => new) (Cleared t)
      (replaceRound fmt t sup uniqFields new async) (replaceEffect fmt t uniqFields new async) := by
  intro i pre r post x s read here fitting clear view ok
  have same : (keyAsUniqField t uniqFields = false ∧
      compareFields t.fieldType (contents new) (contents read) uniqFields ≠ 0) ↔
      ¬ conflicts t uniqFields new r = true := by
    rw [compareFields_read uniqFields new clear view, conflicts, Bool.or_eq_true, not_or,
      Bool.not_eq_true, decide_eq_true_eq]
  unfold replaceRound at ok ⊢
  unfold replaceEffect
  by_cases conflict : conflicts t uniqFields new r = true
  · rw [if_neg (fun both => same.mp both conflict)] at ok ⊢
    rw [if_pos conflict]
    by_cases first : x.affectedRows = 0
    · rw [if_pos first] at ok ⊢
      rw [if_pos first]
      -- the two calls are those of `replaceRetried`
      by_cases replaced : (replaceRetried fmt t sup i new async s).1 ≠ 0
      · have failed : (-3 : Int) = 0 := (congrArg Round.ret (if_pos replaced)).symm.trans ok
        exact absurd failed (by decide)
      · have ended := here.replaceRetried stable room fitting.few fitting.sized small
          (not_not.mp replaced)
        refine (congrArg (fun round : Round => round.tally = _ ∧ Facing fmt t round.raw _ _ ∧ _ ∧
          Cleared t round.row) (if_neg replaced)).mpr ?_
        refine ⟨rfl, ended, fitting.step le_rfl ?_, clear⟩
        rw [forall_mem_singleton]
        exact (rowLength_stored stable _).trans_le small
    · rw [if_neg first] at ok ⊢
      rw [if_neg first]
      have code := here.deleteCurRow_ok
      have some : ¬ ((s.deleteCurRow t).1 = ecNoMem ∧ sup.purged i = true) :=
        fun full => absurd (code.symm.trans full.1) (by decide)
      dsimp only
      rw [if_neg some, if_neg (not_not.mpr code)]
      exact ⟨rfl, here.deleteCurRow code, fitting.step (Nat.zero_le 1) (by simp), clear⟩
  · rw [if_pos (same.mpr conflict)]
    rw [if_neg conflict]
    exact ⟨rfl, here.keep, fitting.step le_rfl (by simpa using fitting.sized r (by simp)), clear⟩

end Replace

/-! ### Insertions -/

section Insert
variable {op : UInt8}

theorem encodeRowHere_code : (encodeRowHere fmt t s row op).1 ≠ ecNoMem := by
  unfold encodeRowHere
  dsimp only
  split
  · exact (by decide : (-100 : Int) ≠ ecNoMem)
  · exact (by decide : (0 : Int) ≠ ecNoMem)

theorem encodeRow_noMem (full : (encodeRow fmt t s row op alloc).1 = ecNoMem) :
    (encodeRow fmt t s row op alloc).2 = s := by
  unfold encodeRow at full ⊢
  unfold expandChunk at full ⊢
  by_cases expand : s.size < add32 s.dataSize (calcRowSize t row s.keyIndex)
  · rw [if_pos expand] at full ⊢
    cases realloc : s.reAlloc (add32 s.dataSize (calcRowSize t row s.keyIndex)) alloc with
    | none => rfl
    | some s' =>
      rw [realloc] at full
      exact absurd full encodeRowHere_code
  · rw [if_neg expand] at full
    exact absurd full encodeRowHere_code

/-- An insertion that finds no memory changes nothing but the read position. -/
theorem insertRowFlag_noMem {byFirst temp : Bool}
    (full : (s.insertRowFlag fmt t row byFirst op alloc temp).1 = ecNoMem) :
    (s.insertRowFlag fmt t row byFirst op alloc temp).2 = { s with offset := s.dataSize } := by
  have code : (encodeRow fmt t { s with offset := s.dataSize } row op alloc).1 = ecNoMem := by
    by_contra other
    unfold insertRowFlag at full
    dsimp only at full
    split_ifs at full with moved noTemp
    · exact absurd full (by decide : (-12 : Int) ≠ ecNoMem)
    · exact other full
    · exact other full
  have failed : ¬ (encodeRow fmt t { s with offset := s.dataSize } row op alloc).1 = 0 := by
    rw [code]
    decide
  unfold insertRowFlag
  rw [if_neg fun all => failed all.1]
  exact encodeRow_noMem code

/-- An insertion, also one that is tried again. -/
theorem insertRetried_ok (layout : s.Layout fmt t rows) (stable : fmt.Stable) {i : Nat}
    {byFirst : Bool} (ok : (insertRetried fmt t sup i row byFirst isDirty s).1 = 0) :
    (insertRetried fmt t sup i row byFirst isDirty s).2.Layout fmt t
      (if byFirst then (if isDirty then operInsert else operSelect, storedRow fmt t row) :: rows
        else rows ++ [(if isDirty then operInsert else operSelect, storedRow fmt t row)]) := by
  unfold insertRetried insertRow at ok ⊢
  rw [← insertRowFlag_stored stable] at ok ⊢
  by_cases again : (s.insertRowFlag fmt t (storedRow fmt t row) byFirst
      (if isDirty then operInsert else operSelect) (sup.alloc i) (sup.temp i)).1 = ecNoMem ∧
        sup.purged i = true
  · rw [if_pos again, insertRowFlag_noMem again.1, ← insertRowFlag_stored stable] at ok
    rw [if_pos again, insertRowFlag_noMem again.1, ← insertRowFlag_stored stable]
    exact (layout.moveCursor s.dataSize s.rowOffset).inserted (storedRow_fits stable) ok
  · rw [if_neg again] at ok ⊢
    exact layout.inserted (storedRow_fits stable) ok

end Insert

end Rounds

end Dtc.Raw
