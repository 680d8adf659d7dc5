import Dtc.Raw.Rounds

/-!
# What requests do to flat data

The rows of the buffer after `do_update`, `do_delete`, `do_replace`, `do_append` and `do_flush`,
as lists made from the rows before, and the counters that the calls report.
-/

namespace Dtc.Raw

open Library Memory List RawData RawProcess

/-- The number of dirty rows. -/
def dirtyRows (rows : List (UInt8 × RowValue)) : Int := (rows.map fun r => dirtyOne r.1).sum

section Rows
variable (fmt : FloatFormat) {t : TableDefinition}

/-- The row meets the conditions. -/
def RowJob.matched (job : RowJob t) (r : UInt8 × RowValue) : Bool := job.compareRow r.2

/-- The row after an update. -/
def RowJob.updated (job : RowJob t) (async : Bool) (r : UInt8 × RowValue) : UInt8 × RowValue :=
  if job.matched r then
    (if async then operUpdate else r.1, storedRow fmt t (job.updateRow r.2))
  else r

/-- The first row that conflicts with the new one is changed, the others are removed. -/
def replaceFirst {α : Type} (conflicts : α → Bool) (put : α → α) : List α → List α
  | [] => []
  | r :: rows =>
    if conflicts r then put r :: rows.filter fun x => !conflicts x
    else r :: replaceFirst conflicts put rows

variable (t) in
/-- The rows after a replace request. -/
def replaced (uniqFields : List Nat) (new : RowValue) (async : Bool)
    (rows : List (UInt8 × RowValue)) : List (UInt8 × RowValue) :=
  if rows.any (conflicts t uniqFields new) then
    replaceFirst (conflicts t uniqFields new)
      (fun r => (if async then operUpdate else r.1, storedRow fmt t new)) rows
  else rows ++ [(if async then operInsert else operSelect, storedRow fmt t new)]

end Rows

/-! ### Passes -/

section Passes
variable {fmt : FloatFormat} {t : TableDefinition} {x : Tally} {rows : List (UInt8 × RowValue)}

/-- What the dirty rows in a list add to `dirty_rows_count_` when each of them is replaced. -/
def dirtied (async : Bool) (rows : List (UInt8 × RowValue)) : Int :=
  (if async then rows.length else 0) - dirtyRows rows

theorem dirtied_cons (async : Bool) (r : UInt8 × RowValue) :
    dirtied async (r :: rows) = dirtied async rows + ((if async then 1 else 0) - dirtyOne r.1) := by
  unfold dirtied dirtyRows
  cases async
  · simp
  · simp
    omega

theorem dirtyRows_cons (r : UInt8 × RowValue) :
    dirtyRows (r :: rows) = dirtyOne r.1 + dirtyRows rows := by
  rfl

theorem sweep_update (job : RowJob t) (async : Bool) :
    sweep (updateEffect fmt job async) x rows =
      (⟨x.affectedRows + rows.countP job.matched, x.rowsCount,
          x.dirtyRowsCount + dirtied async (rows.filter job.matched)⟩,
        rows.map (job.updated fmt async)) := by
  induction rows generalizing x with
  | nil => simp [sweep, dirtied, dirtyRows]
  | cons r rows ih =>
    rw [sweep, ih, updateEffect, map_cons, RowJob.updated]
    by_cases matched : job.compareRow r.2 = true
    · have meets : job.matched r = true := matched
      rw [if_pos matched, if_pos meets, countP_cons_of_pos meets, filter_cons_of_pos meets,
        dirtied_cons]
      refine Prod.ext (Tally.ext ?_ rfl ?_) rfl
      · exact Nat.add_right_comm _ _ _
      · dsimp only
        omega
    · have fails : ¬ job.matched r = true := matched
      rw [if_neg matched, if_neg fails, countP_cons_of_neg fails, filter_cons_of_neg fails]
      rfl

theorem sweep_delete (job : RowJob t) :
    sweep (deleteEffect job) x rows =
      (⟨x.affectedRows + rows.countP job.matched, x.rowsCount - rows.countP job.matched,
          x.dirtyRowsCount - dirtyRows (rows.filter job.matched)⟩,
        rows.filter fun r => !job.matched r) := by
  induction rows generalizing x with
  | nil => simp [sweep, dirtyRows]
  | cons r rows ih =>
    rw [sweep, ih, deleteEffect]
    by_cases matched : job.compareRow r.2 = true
    · have meets : job.matched r = true := matched
      rw [if_pos matched, countP_cons_of_pos meets, filter_cons_of_pos meets,
        dirtyRows_cons, filter_cons_of_neg (by rw [meets]; decide)]
      refine Prod.ext (Tally.ext ?_ ?_ ?_) rfl
      · exact Nat.add_right_comm _ _ _
      · push_cast
        omega
      · dsimp only
        omega
    · have fails : ¬ job.matched r = true := matched
      rw [if_neg matched, countP_cons_of_neg fails, filter_cons_of_neg fails,
        filter_cons_of_pos (by rw [Bool.eq_false_iff.mpr fails]; rfl)]
      rfl

section Replace
variable (uniqFields : List Nat) (new : RowValue) (async : Bool)

/-- When the new row has its place, the other rows that conflict are removed. -/
theorem sweep_replace_rest (placed : x.affectedRows ≠ 0) :
    sweep (replaceEffect fmt t uniqFields new async) x rows =
      (⟨x.affectedRows + rows.countP (conflicts t uniqFields new), x.rowsCount,
          x.dirtyRowsCount + dirtied async (rows.filter (conflicts t uniqFields new))⟩,
        rows.filter fun r => !conflicts t uniqFields new r) := by
  induction rows generalizing x with
  | nil => simp [sweep, dirtied, dirtyRows]
  | cons r rows ih =>
    rw [sweep, replaceEffect]
    by_cases conflict : conflicts t uniqFields new r = true
    · rw [if_pos conflict, if_neg placed, ih (Nat.succ_ne_zero _), countP_cons_of_pos conflict,
        filter_cons_of_pos conflict, dirtied_cons, filter_cons_of_neg (by rw [conflict]; decide)]
      refine Prod.ext (Tally.ext ?_ rfl ?_) rfl
      · exact Nat.add_right_comm _ _ _
      · dsimp only
        omega
    · rw [if_neg conflict, ih placed, countP_cons_of_neg conflict, filter_cons_of_neg conflict,
        filter_cons_of_pos (by rw [Bool.eq_false_iff.mpr conflict]; rfl)]
      rfl

theorem sweep_replace (start : x.affectedRows = 0) :
    sweep (replaceEffect fmt t uniqFields new async) x rows =
      (⟨if rows.any (conflicts t uniqFields new) then
            rows.countP (conflicts t uniqFields new) + 1 else 0, x.rowsCount,
          x.dirtyRowsCount + dirtied async (rows.filter (conflicts t uniqFields new))⟩,
        replaceFirst (conflicts t uniqFields new)
          (fun r => (if async then operUpdate else r.1, storedRow fmt t new)) rows) := by
  induction rows generalizing x with
  | nil =>
    refine Prod.ext (Tally.ext start rfl ?_) rfl
    simp [sweep, dirtied, dirtyRows]
  | cons r rows ih =>
    rw [sweep, replaceEffect, replaceFirst, any_cons]
    by_cases conflict : conflicts t uniqFields new r = true
    · rw [if_pos conflict, if_pos start, if_pos conflict,
        sweep_replace_rest uniqFields new async (Nat.succ_ne_zero 1), countP_cons_of_pos conflict,
        filter_cons_of_pos conflict, dirtied_cons, conflict, Bool.true_or, if_pos rfl]
      refine Prod.ext (Tally.ext ?_ rfl ?_) rfl
      · dsimp only
        omega
      · dsimp only
        omega
    · rw [if_neg conflict, if_neg conflict, ih start, countP_cons_of_neg conflict,
        filter_cons_of_neg conflict, Bool.eq_false_iff.mpr conflict, Bool.false_or]
      rfl

end Replace

end Passes

/-! ### Calls -/

section Calls
variable {fmt : FloatFormat} {t : TableDefinition} {sup : Supply} {nodeIdx hour M : Nat}
  {call : Served RawData} {rows : List (UInt8 × RowValue)}

variable {s : RawData} {async : Bool}

/-- Attaching to a buffer with rows succeeds and goes to the first row. -/
theorem attachData_ok (layout : s.Layout fmt t rows) :
    (attachData t s).1 = 0 ∧ (attachData t s).2.rowCount = rows.length ∧
      Facing fmt t (attachData t s).2 rows 0 := by
  have index := layout.keyIndex
  rw [attachData, layout.doAttach]
  refine ⟨rfl, layout.count_eq, 0, simulates_rewound ?_ rfl rfl⟩
  exact { layout with
    keyIndex := rfl, holds := index ▸ layout.holds, size_eq := index ▸ layout.size_eq
    fits := index ▸ layout.fits }

theorem fitting_start {update : RowValue → RowValue} (sized : ∀ r ∈ rows, rowLength fmt t r.2 ≤ M)
    (updated : ∀ r ∈ rows, rowLength fmt t (update r.2) ≤ M) :
    Fitting fmt t M rows.length update [] rows :=
  ⟨le_rfl, sized, updated⟩

/-- A call that succeeds has got past a step whose code it hands on. -/
theorem ret_of_ok {ret : Int} {x y : Served RawData} (ok : (if ret ≠ 0 then x else y).ret = 0)
    (code : x.ret = ret) : ret = 0 := by
  by_contra failed
  rw [if_pos failed, code] at ok
  exact failed ok

theorem doUpdate_ok (stable : fmt.Stable) (layout : call.data.Layout fmt t rows)
    (room : Room t M rows.length) (sized : ∀ r ∈ rows, rowLength fmt t r.2 ≤ M) {job : RowJob t}
    {setrows : Bool} (updated : ∀ r ∈ rows, rowLength fmt t (job.updateRow r.2) ≤ M)
    (ok : (doUpdate fmt t sup nodeIdx hour job async setrows call).ret = 0) :
    let served := doUpdate fmt t sup nodeIdx hour job async setrows call
    served.data.Layout fmt t (rows.map (job.updated fmt async)) ∧
      served.affectedRows =
        (if async || setrows then rows.countP job.matched else call.affectedRows) ∧
      served.rowsCount = 0 ∧ served.dirtyRowsCount = dirtied async (rows.filter job.matched) := by
  obtain ⟨attached, count, facing⟩ := attachData_ok layout
  unfold doUpdate at ok ⊢
  rw [if_neg (not_not.mpr attached), count] at ok ⊢
  generalize (attachData t call.data).2 = s at *
  have ended := ret_of_ok ok rfl
  obtain ⟨tally, ⟨cur, sim⟩, -⟩ := eachRow_spec (updateRound_acts stable room job async)
    (fun _ _ _ _ => trivial) [] rows facing (fitting_start sized updated) trivial ended
  rw [sweep_update] at tally sim
  rw [if_neg (not_not.mpr ended)]
  refine ⟨sim.layout, ?_, ?_, ?_⟩
  · dsimp only
    rw [tally, Nat.zero_add]
  · exact congrArg Tally.rowsCount tally
  · exact (congrArg Tally.dirtyRowsCount tally).trans (Int.zero_add _)

/-- `strip_mem` keeps the rows. -/
theorem RawData.Layout.strip (layout : s.Layout fmt t rows) (alloc : Allocator) :
    ((s.reAlloc s.dataSize alloc).getD s).Layout fmt t rows := by
  cases realloc : s.reAlloc s.dataSize alloc with
  | none => exact layout
  | some s' =>
    obtain ⟨covers, range, same, eq⟩ := reAlloc_some realloc
    have inside := layout.inside
    have size := layout.size_eq
    have moved := layout.rearrange
      (fun i low => same i (by have := layout.start; omega) (by have := layout.start; omega))
      (layout.holds.congr fun i _ high => same i (by omega) (by omega)) rfl rfl layout.fits
    rw [Option.getD_some, eq]
    exact { moved with range := range, inside := covers }

theorem doDelete_ok (layout : call.data.Layout fmt t rows) {job : RowJob t} {hasTypeTimestamp : Bool} :
    let served := doDelete fmt t sup job hasTypeTimestamp call
    served.ret = 0 → served.data.Layout fmt t (rows.filter fun r => !job.matched r) ∧
      served.affectedRows =
        (if 0 < rows.countP job.matched ∧ (call.affectedRows = 0 ∨ hasTypeTimestamp = true) then
          rows.countP job.matched else call.affectedRows) ∧
      served.rowsCount = -rows.countP job.matched ∧
      served.dirtyRowsCount = -dirtyRows (rows.filter job.matched) := by
  intro served ok
  obtain ⟨attached, count, facing⟩ := attachData_ok layout
  unfold served doDelete at ok ⊢
  rw [if_neg (not_not.mpr attached), count] at ok ⊢
  generalize (attachData t call.data).2 = s at *
  have ended := ret_of_ok ok rfl
  obtain ⟨tally, ⟨cur, sim⟩, -⟩ := eachRow_spec (deleteRound_acts job) (fun _ _ _ _ => trivial) [] rows
    facing trivial trivial ended
  rw [sweep_delete] at tally sim
  rw [if_neg (not_not.mpr ended), tally]
  have rowsCount : (0 : Int) - rows.countP job.matched = -rows.countP job.matched := Int.zero_sub _
  have dirty : (0 : Int) - dirtyRows (rows.filter job.matched) =
      -dirtyRows (rows.filter job.matched) := Int.zero_sub _
  by_cases none : 0 + rows.countP job.matched = 0
  · rw [if_pos none]
    refine ⟨sim.layout, ?_, (congrArg Tally.rowsCount tally).trans rowsCount,
      (congrArg Tally.dirtyRowsCount tally).trans dirty⟩
    rw [if_neg fun some => absurd none (by omega)]
    rfl
  · rw [if_neg none]
    refine ⟨sim.layout.strip _, ?_, (congrArg Tally.rowsCount tally).trans rowsCount,
      (congrArg Tally.dirtyRowsCount tally).trans dirty⟩
    rw [Nat.zero_add] at none
    rw [Nat.zero_add]
    simp only [Nat.pos_of_ne_zero none, true_and]

theorem any_iff_countP {α : Type} {p : α → Bool} {l : List α} : l.any p = true ↔ 0 < l.countP p := by
  rw [any_eq_true, countP_pos_iff]

theorem replaceFirst_none {α : Type} {p : α → Bool} {put : α → α} {l : List α} (none : ¬ l.any p = true) :
    replaceFirst p put l = l := by
  induction l with
  | nil => rfl
  | cons r l ih =>
    rw [any_cons, Bool.or_eq_true, not_or] at none
    rw [replaceFirst, if_neg none.1, ih none.2]

/-- A node has data, or none at all. -/
def RowsOf (fmt : FloatFormat) (t : TableDefinition) (s : RawData) (rows : List (UInt8 × RowValue)) :
    Prop :=
  s.Layout fmt t rows ∨ s.size = 0 ∧ rows = []

theorem RawData.Layout.size_ne (layout : s.Layout fmt t rows) : s.size ≠ 0 := by
  have := layout.start_lt
  have := layout.start
  have := layout.inside
  omega

theorem openData_ok (holds : RowsOf fmt t call.data rows) (room : Room t M rows.length)
    {key : List UInt8}
    (packed : key.length = if t.keyFormat ≠ 0 then t.keyFormat else 1 + (key.headD 0).toNat)
    (ok : (openData t sup nodeIdx hour key call.data).1 = 0) :
    (openData t sup nodeIdx hour key call.data).2.rowCount = rows.length ∧
      Facing fmt t (openData t sup nodeIdx hour key call.data).2 rows 0 := by
  unfold openData at ok ⊢
  obtain layout | ⟨empty, rfl⟩ := holds
  · rw [if_neg layout.size_ne]
    exact (attachData_ok layout).2
  · rw [if_pos empty] at ok ⊢
    cases init : init (t.keyFields - 1) t.keyFormat key 0 nodeIdx hour (sup.alloc 0) with
    | error code =>
      rw [init] at ok
      exact absurd ok (by decide : (-1 : Int) ≠ 0)
    | ok s =>
      have byte := (key.headD 0).toNat_lt
      have fits : 0 + (16 + key.length) < 2 ^ 32 := by
        unfold Room headRoom at room
        rw [packed]
        split_ifs <;> omega
      have sim : Simulates fmt t s ⟨[], 0, 0, false⟩ := init_simulates packed fits le_rfl init
      exact ⟨sim.layout.count_eq, 0, sim⟩

theorem doReplace_ok (stable : fmt.Stable) (holds : RowsOf fmt t call.data rows)
    (room : Room t M rows.length) (sized : ∀ r ∈ rows, rowLength fmt t r.2 ≤ M) {key : List UInt8}
    (packed : key.length = if t.keyFormat ≠ 0 then t.keyFormat else 1 + (key.headD 0).toNat)
    {uniqFields : List Nat} {setrows : Bool} {new : RowValue} (small : rowLength fmt t new ≤ M) :
    let served := doReplace fmt t sup nodeIdx hour key uniqFields new async setrows call
    let conflicts := rows.filter (conflicts t uniqFields new)
    served.ret = 0 → served.data.Layout fmt t (replaced fmt t uniqFields new async rows) ∧
      served.affectedRows = (if async || setrows then conflicts.length + 1 else call.affectedRows) ∧
      served.rowsCount = (if conflicts = [] then 1 else 0) ∧
      served.dirtyRowsCount =
        dirtied async conflicts + if conflicts = [] ∧ async = true then 1 else 0 := by
  intro served conflicts ok
  unfold served doReplace afterLoop at ok ⊢
  have attached := ret_of_ok ok rfl
  obtain ⟨count, facing⟩ := openData_ok holds room packed attached
  rw [if_neg (not_not.mpr attached), count] at ok ⊢
  generalize (openData t sup nodeIdx hour key call.data).2 = s at *
  have ended := ret_of_ok ok rfl
  obtain ⟨tally, ⟨cur, sim⟩, -⟩ := eachRow_spec (replaceRound_acts uniqFields new stable room small async)
    (fun _ _ => Cleared.decodeRow) [] rows facing (fitting_start sized fun _ _ => small)
    (fun _ _ => rfl) ended
  rw [sweep_replace uniqFields new async rfl] at tally sim
  rw [if_neg (not_not.mpr ended), tally] at ok ⊢
  have length : conflicts.length = rows.countP (Raw.conflicts t uniqFields new) :=
    (countP_eq_length_filter ..).symm
  by_cases some : rows.any (Raw.conflicts t uniqFields new) = true
  · have found : conflicts ≠ [] := by
      rw [← length_pos_iff, length]
      exact any_iff_countP.mp some
    have later : ¬ (conflicts = [] ∧ async = true) := fun both => found both.1
    rw [if_pos some, if_neg (Nat.succ_ne_zero _)]
    refine ⟨?_, ?_, ?_, ?_⟩
    · rw [replaced, if_pos some]
      exact sim.layout
    · rw [length]
    · rw [if_neg found]
    · rw [if_neg later, add_zero]
      exact Int.zero_add _
  · have absent : conflicts = [] := by
      rw [← length_eq_zero_iff, length]
      exact Nat.eq_zero_of_not_pos fun pos => some (any_iff_countP.mpr pos)
    rw [if_neg some, if_pos rfl] at ok ⊢
    rw [replaceFirst_none some] at sim
    by_cases refused : (insertRetried fmt t sup rows.length new false async
        (eachRow fmt t (-1) (replaceRound fmt t sup uniqFields new async)
          rows.length 0 zeroRow ⟨0, 0, 0⟩ s).2.2).1 ≠ 0
    · have code : (-3 : Int) = 0 := (congrArg Served.ret (if_pos refused)).symm.trans ok
      exact absurd code (by decide)
    · have inserted := insertRetried_ok sim.layout stable (not_not.mp refused)
      rw [if_neg refused]
      refine ⟨?_, ?_, ?_, ?_⟩
      · rw [replaced, if_neg some]
        exact inserted
      · rw [absent]
        rfl
      · rw [if_pos absent]
        rfl
      · simp only [absent, true_and]
        exact congrArg (· + if async = true then 1 else 0)
          ((Int.zero_add _).trans (congrArg (dirtied async) absent))

section All
variable {key : List UInt8} {size : Nat} {s : RawData}

variable {s' : RawData} {alloc : Allocator}

theorem RawData.setValue_keeps {bytes : List UInt8} (ok : s.setValue bytes = .ok s')
    (behind : 0 < s.offset) : s'.size = s.size ∧ s'.mem 0 = s.mem 0 ∧ 0 < s'.offset := by
  obtain ⟨-, rfl⟩ := setValue_ok ok
  exact ⟨rfl, store_outside (.inl behind), Nat.lt_of_lt_of_le behind (Nat.le_add_right _ _)⟩

/-- A chunk that `init` makes has a size of 32 bits, and the index of the table definition in its
type byte. -/
theorem RawData.init_ok {keyIdx keySize : Nat}
    (ok : init keyIdx keySize key size nodeIdx hour alloc = .ok s) :
    s.size < 2 ^ 32 ∧ s.mem 0 = UInt8.ofNat (nodeIdx * 128) ∧ nodeIdx ≤ 1 := by
  unfold init at ok
  generalize (if keySize ≠ 0 then keySize else 1 + (key.headD 0).toNat) = ks at ok
  dsimp only at ok
  split at ok
  · exact nomatch ok
  next grant answer =>
    split_ifs at ok with idx
    split at ok
    · exact nomatch ok
    next header =>
      obtain ⟨s₁, first, header⟩ := bind_ok header
      obtain ⟨s₂, second, header⟩ := bind_ok header
      obtain ⟨s₃, third, header⟩ := bind_ok header
      obtain ⟨s₄, fourth, fifth⟩ := bind_ok header
      obtain ⟨-, rfl⟩ := setValue_ok first
      obtain ⟨size₂, same₂, pos₂⟩ := setValue_keeps second (by simp)
      obtain ⟨size₃, same₃, pos₃⟩ := setValue_keeps third pos₂
      obtain ⟨size₄, same₄, pos₄⟩ := setValue_keeps fourth pos₃
      obtain ⟨size₅, same₅, pos₅⟩ := setValue_keeps fifth pos₄
      obtain rfl := Except.ok.inj ok
      refine ⟨?_, ?_, by omega⟩
      · rw [size₅, size₄, size₃, size₂]
        exact alloc.range _ _ answer
      · dsimp only
        rw [store_outside (.inl pos₅), same₅, same₄, same₃, same₂]
        rfl

/-- A clean row, as it comes from the database. -/
def cleanRow (fmt : FloatFormat) (t : TableDefinition) (row : RowValue) : UInt8 × RowValue :=
  (operSelect, storedRow fmt t row)

/-- The chunk that `copy_all` copies to. -/
theorem copyAll_chunk {n : Nat} (range : s.size < 2 ^ 32) {s' : RawData}
    (room : (if s.size < n then s.reAlloc n alloc else some s) = some s') :
    n ≤ s'.size ∧ s'.size < 2 ^ 32 := by
  split_ifs at room with small
  · obtain ⟨covers, range', -⟩ := reAlloc_some room
    exact ⟨covers, range'⟩
  · obtain rfl := Option.some.inj room
    exact ⟨not_lt.mp small, range⟩

/-- `copy_all` into a chunk that is large enough. -/
theorem copyAll_into {new : RawData} (layout : new.Layout fmt t rows)
    (range : s.size < 2 ^ 32) {s' : RawData}
    (room : (if s.size < new.dataSize then s.reAlloc new.dataSize alloc else some s) = some s') :
    (copyAll t s new alloc).1 = 0 ∧ (copyAll t s new alloc).2.Layout fmt t rows ∧
      (copyAll t s new alloc).2.mem 0 = new.mem 0 := by
  obtain ⟨covers, range'⟩ := copyAll_chunk range room
  unfold copyAll
  rw [room]
  dsimp only
  have same : ∀ i < new.dataSize, store s'.mem 0 (slice new.mem 0 new.dataSize) i = new.mem i := by
    intro i low
    rw [store, if_pos (by rw [length_slice]; omega), Nat.sub_zero, getD_slice low, Nat.zero_add]
  have size := layout.size_eq
  have above := layout.start_lt
  have copied := layout.rearrange (fun i low => same i (by omega))
    (layout.holds.congr fun i _ high => same i (by omega)) rfl rfl layout.fits
  have bigger : Layout fmt t { new with
      mem := store s'.mem 0 (slice new.mem 0 new.dataSize), size := s'.size } rows :=
    { copied with range := range', inside := covers }
  obtain ⟨-, -, cur, sim⟩ := attachData_ok bigger
  refine ⟨by rw [bigger.doAttach], sim.layout, ?_⟩
  rw [bigger.doAttach]
  exact same 0 (by omega)

theorem copyAll_ok {new : RawData} (layout : new.Layout fmt t rows)
    (range : s.size < 2 ^ 32) (ok : (copyAll t s new alloc).1 = 0) :
    (copyAll t s new alloc).2.Layout fmt t rows ∧ (copyAll t s new alloc).2.mem 0 = new.mem 0 := by
  cases room : if s.size < new.dataSize then s.reAlloc new.dataSize alloc else some s with
  | none =>
    rw [copyAll, room] at ok
    exact absurd ok (by decide : ecNoMem ≠ 0)
  | some s' => exact (copyAll_into layout range room).2

end All

section One
variable {α : Type} {conflicts : α → Bool} {put : α → α} {l : List α}

/-- The rows that do not conflict stay, in their order. -/
theorem filter_replaceFirst (self : ∀ r, conflicts (put r) = true) :
    (replaceFirst conflicts put l).filter (fun r => !conflicts r) =
      l.filter fun r => !conflicts r := by
  induction l with
  | nil => rfl
  | cons r l ih =>
    rw [replaceFirst]
    by_cases conflict : conflicts r = true
    · rw [if_pos conflict, filter_cons_of_neg (by simp [self]),
        filter_cons_of_neg (by simp [conflict]), filter_filter]
      simp
    · rw [if_neg conflict, filter_cons_of_pos (by simp [conflict]),
        filter_cons_of_pos (by simp [conflict]), ih]

/-- One row is left of those that conflict. -/
theorem filter_replaceFirst_one (self : ∀ r, conflicts (put r) = true) (some : l.any conflicts = true) :
    ∃ r ∈ l, (replaceFirst conflicts put l).filter conflicts = [put r] := by
  induction l with
  | nil => exact absurd some (by simp)
  | cons r l ih =>
    rw [replaceFirst]
    by_cases conflict : conflicts r = true
    · refine ⟨r, mem_cons_self, ?_⟩
      rw [if_pos conflict, filter_cons_of_pos (self r), filter_filter]
      simp
    · rw [any_cons, Bool.eq_false_iff.mpr conflict, Bool.false_or] at some
      obtain ⟨x, mem, one⟩ := ih some
      refine ⟨x, mem_cons_of_mem r mem, ?_⟩
      rw [if_neg conflict, filter_cons_of_neg conflict, one]

end One

section Unique
variable {uniqFields : List Nat} {new : RowValue}

variable (fmt t uniqFields new) in
/-- The unique fields of the new row are found again: no float is among them, and they are stored
in their widths or, like a key field without a value, are zero. -/
def Findable : Prop :=
  keyAsUniqField t uniqFields = true ∨ ∀ id ∈ uniqFields,
    (t.fieldType id ≠ .float ∧ t.fieldType id ≠ .none) ∧
      if id ∈ storedFields t (t.keyFields - 1) then (t.field id).Fits fmt (new id)
      else (t.field id).member (new id) = (t.field id).member (zeroRow id)

theorem Findable.conflicts (findable : Findable fmt t uniqFields new) (flag : UInt8) :
    conflicts t uniqFields new (flag, storedRow fmt t new) = true := by
  unfold Raw.conflicts
  obtain exact_ | fields := findable
  · rw [exact_, Bool.true_or]
  refine (Bool.or_eq_true _ _).mpr (.inr (decide_eq_true (compareFields_eq_zero.mpr fun id mem => ?_)))
  obtain ⟨comparable, value⟩ := fields id mem
  have same : (t.field id).member (readRow t (storedRow fmt t new) id) =
      (t.field id).member (new id) := by
    unfold readRow
    split_ifs at value ⊢
    · exact member_stored value
    · exact value.symm
  exact (compareField_congr same _).trans ((compareField_self _).mpr comparable)

/-- After a replace request exactly one row has the unique fields of the new row, and the
other rows are as before. -/
theorem Findable.replaced (findable : Findable fmt t uniqFields new) :
    (∃ flag, (replaced fmt t uniqFields new async rows).filter (Raw.conflicts t uniqFields new) =
        [(flag, storedRow fmt t new)]) ∧
      ((replaced fmt t uniqFields new async rows).filter fun r =>
        !Raw.conflicts t uniqFields new r) =
          rows.filter fun r => !Raw.conflicts t uniqFields new r := by
  have self := findable.conflicts
  rw [Raw.replaced]
  by_cases some : rows.any (Raw.conflicts t uniqFields new) = true
  · rw [if_pos some]
    obtain ⟨r, -, one⟩ := filter_replaceFirst_one
      (fun r => self (if async = true then operUpdate else r.1)) some
    exact ⟨⟨_, one⟩, filter_replaceFirst fun r => self (if async = true then operUpdate else r.1)⟩
  · have none : rows.filter (Raw.conflicts t uniqFields new) = [] := by
      rw [filter_eq_nil_iff]
      exact fun r mem conflict => some (any_eq_true.mpr ⟨r, mem, conflict⟩)
    rw [if_neg some, filter_append, filter_append, none]
    refine ⟨⟨if async then operInsert else operSelect, ?_⟩, ?_⟩
    · rw [nil_append, filter_cons_of_pos (self _), filter_nil]
    · rw [filter_cons_of_neg (by simp [self]), filter_nil, append_nil]

end Unique

/-- What update, delete and replace requests do to the rows of a flat node, and what they
report. -/
theorem flat_requests (fmt : FloatFormat) (t : TableDefinition) (sup : Supply) (nodeIdx hour : Nat)
    (stable : fmt.Stable) (call : Served RawData) (rows : List (UInt8 × RowValue))
    (layout : call.data.Layout fmt t rows) (M : Nat) (room : Room t M rows.length)
    (sized : ∀ r ∈ rows, rowLength fmt t r.2 ≤ M) :
    (∀ (job : RowJob t) (async setrows : Bool),
      (∀ r ∈ rows, rowLength fmt t (job.updateRow r.2) ≤ M) →
      let served := RawProcess.doUpdate fmt t sup nodeIdx hour job async setrows call
      served.ret = 0 → served.data.Layout fmt t (rows.map (job.updated fmt async)) ∧
        served.affectedRows =
          if async || setrows then rows.countP job.matched else call.affectedRows) ∧
    (∀ (job : RowJob t) (hasTypeTimestamp : Bool),
      let served := RawProcess.doDelete fmt t sup job hasTypeTimestamp call
      served.ret = 0 → served.data.Layout fmt t (rows.filter fun r => !job.matched r) ∧
        served.affectedRows =
          if 0 < rows.countP job.matched ∧ (call.affectedRows = 0 ∨ hasTypeTimestamp = true) then
            rows.countP job.matched else call.affectedRows) ∧
    ∀ (key : List UInt8) (uniqFields : List Nat) (new : RowValue) (async setrows : Bool),
      (key.length = if t.keyFormat ≠ 0 then t.keyFormat else 1 + (key.headD 0).toNat) →
      rowLength fmt t new ≤ M →
      let served := doReplace fmt t sup nodeIdx hour key uniqFields new async setrows call
      let conflicts := conflicts t uniqFields new
      let rows' := replaced fmt t uniqFields new async rows
      served.ret = 0 → served.data.Layout fmt t rows' ∧
        (served.affectedRows =
          if async || setrows then (rows.filter conflicts).length + 1 else call.affectedRows) ∧
        (Findable fmt t uniqFields new →
          (∃ flag, rows'.filter conflicts = [(flag, storedRow fmt t new)]) ∧
            (rows'.filter fun r => !conflicts r) = rows.filter fun r => !conflicts r) := by
  refine ⟨?_, ?_, ?_⟩
  · intro job async setrows updated served ok
    obtain ⟨layout', affected, -⟩ := doUpdate_ok stable layout room sized updated ok
    exact ⟨layout', affected⟩
  · intro job hasTypeTimestamp served ok
    obtain ⟨layout', affected, -⟩ := doDelete_ok layout ok
    exact ⟨layout', affected⟩
  · intro key uniqFields new async setrows packed small served conflicts rows' ok
    obtain ⟨layout', affected, -⟩ := doReplace_ok stable (.inl layout) room sized packed small ok
    exact ⟨layout', affected, Findable.replaced⟩

end Calls

/-! ### A table with one binary field -/

theorem halfFormat_stable : halfFormat.Stable := fun x => setWidth_low x

/-- Memory is always there. -/
def slackSupply : Supply :=
  ⟨fun _ => slackAllocator, fun _ => true, fun _ => true, fun _ => slackAllocator,
    fun _ => slackAllocator⟩

/-- A node with one clean row. -/
def blobNode : RawData :=
  (blobChunk.insertRowFlag halfFormat blobTable (blobRow none) false operSelect slackAllocator true).2

def blobCall : Served RawData := ⟨0, 0, 0, 0, blobNode⟩

/-- An update of every row. -/
def setBlob : RowJob blobTable where
  platform := Tree.cLibrary
  floats := Field.noFloats
  allRows := true
  conditionInfo := []
  timestampFields := []
  timestamp := 0
  updateInfo := [⟨1, .set, .binary, blobRow (some 7) 1⟩]
  stored := fun _ mem => absurd mem not_mem_nil

theorem blobChunk_layout : blobChunk.Layout halfFormat blobTable [] := by
  have start : Simulates halfFormat blobTable blobChunk ⟨[], 0, 0, false⟩ :=
    init_simulates rfl (by decide) le_rfl
      (show init 0 4 [1, 2, 3, 4] 0 0 0 slackAllocator = .ok blobChunk from rfl)
  exact start.layout

theorem blobNode_layout : blobNode.Layout halfFormat blobTable [(operSelect, blobRow none)] :=
  blobChunk_layout.inserted (by decide) (by decide +kernel)

theorem flat_requests_blob :
    let served := doUpdate halfFormat blobTable slackSupply 0 0 setBlob true false blobCall
    served.ret = 0 ∧ served.data.Layout halfFormat blobTable
        ([(operSelect, blobRow none)].map (setBlob.updated halfFormat true)) ∧
      served.affectedRows = 1 := by
  intro served
  have ok : served.ret = 0 := by decide +kernel
  exact ⟨ok, (flat_requests halfFormat blobTable slackSupply 0 0 halfFormat_stable blobCall
    [(operSelect, blobRow none)] blobNode_layout 10 (by unfold Room; decide) (by decide)).1 setBlob true false
    (by decide) ok⟩

/-- A replace request that changes the only row reports two affected rows, and an update in
sync mode reports what was there before. -/
theorem flat_counts_differ :
    (∃ served, served = RawProcess.doReplace halfFormat blobTable slackSupply 0 0 [1, 2, 3, 4] [0]
        (blobRow (some 7)) true false blobCall ∧
      served.ret = 0 ∧ blobCall.data.rowCount = 1 ∧ served.data.rowCount = 1 ∧
        served.affectedRows = 2) ∧
    ∃ served, served = RawProcess.doUpdate halfFormat blobTable slackSupply 0 0 setBlob false false
        blobCall ∧
      served.ret = 0 ∧ [(operSelect, blobRow none)].countP setBlob.matched = 1 ∧
        served.affectedRows = 0 :=
  ⟨⟨_, rfl, by decide +kernel⟩, ⟨_, rfl, by decide +kernel⟩⟩

end Dtc.Raw
