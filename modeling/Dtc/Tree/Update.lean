import Dtc.Tree.Edits

/-!
# Updates of tree data

`update_sub_raw_data` goes through the rows of one record and writes each row that meets
the conditions over, or moves it to the record of its new index value. The records of a
tree are processed one after another, while rows are moved between them.

`update_row` writes the bits of strings to the record itself. Here the request leaves the index
value in the record alone (`keeps`); otherwise the record would lie at the place of another value.
-/

namespace Dtc.Tree

open Library List TreeData

variable {ρ K : Type} [LinearOrder K] {t : TreeTable ρ K} {request : UpdateRequest t}
  {async : Bool} {s s' : TreeData ρ K} {o : t.Ordered} {alloc : Allocator}

/-- `SetBits` does not change the index value in a record. -/
def UpdateRequest.KeepsIndex (request : UpdateRequest t) : Prop :=
  ∀ row, t.index (request.writeBits row) = t.index row

/-! ### The loop over the rows of a record -/

/-- In front of a round of the loop, with `n` rows to come. -/
structure Working (o : t.Ordered) (total n : Nat) (k : TreeData.Cursor ρ) (s : TreeData ρ K)
    (r : RowChunk ρ K) : Prop where
  good : s.Good o
  mem : r ∈ records s.root
  handle : r.handle = k.chunk
  others : ∀ q ∈ records s.root, q.key ≠ r.key → q.rows ≠ []
  left : k.pos + n = r.rows.length
  gone : r.rows.length + k.iDelete = total
  moved : k.iInsert = k.iDelete
  nonempty : 0 < total
  index : ∀ row, k.curRow = some row → t.index row = r.key
  started : k.curRow = none → k.iDelete = 0

variable {r : RowChunk ρ K} {k : TreeData.Cursor ρ} {total n hRecord : Nat} {old : StoredRow ρ}

/-- The loop over the rows of a record begins. -/
theorem Working.start (good : s.Good o) (filled : s.Filled) (found : s.chunkAt hRecord = some r) :
    Working o r.rows.length r.rows.length ⟨hRecord, 0, 0, 0, none⟩ s r := by
  obtain ⟨mem, handle⟩ := (chunkAt_eq_some_iff good.keeps.handles).mp found
  exact ⟨good, mem, handle, fun q hq _ => filled q hq, Nat.zero_add _, rfl, rfl,
    length_pos_of_ne_nil (filled r mem), nofun, fun _ => rfl⟩

theorem Working.chunkAt (working : Working o total n k s r) : s.chunkAt k.chunk = some r :=
  (chunkAt_eq_some_iff working.good.keeps.handles).mpr ⟨working.mem, working.handle⟩

theorem Working.filled (working : Working o total n k s r) (some : r.rows ≠ []) : s.Filled := by
  intro q mem
  by_cases same : q.key = r.key
  · rwa [working.good.wellFormed.sorted.eq_of_key_eq mem working.mem same]
  · exact working.others q mem same

/-- The row at the cursor. -/
theorem Working.current (working : Working o total (n + 1) k s r) :
    ∃ old, r.rows[k.pos]? = some old := by
  have left := working.left
  exact ⟨r.rows.get ⟨k.pos, by omega⟩, getElem?_eq_getElem (by omega)⟩

/-- The counters of the operation do not matter. -/
theorem Working.counters (working : Working o total n k s r) (affectedRows : Nat)
    (rowsCount dirtyRowsCount : Int) :
    Working o total n k { s with affectedRows, rowsCount, dirtyRowsCount } r :=
  { working with good := working.good.counters _ _ _ }

/-- The loop goes on to the next row. -/
theorem Working.skip (working : Working o total (n + 1) k s r) {r' : RowChunk ρ K} {chunk : Nat} {row : ρ}
    (good : s'.Good o) (mem : r' ∈ records s'.root) (handle : r'.handle = chunk)
    (others : ∀ q ∈ records s'.root, q.key ≠ r'.key → q.rows ≠ []) (key : r'.key = r.key)
    (length : r'.rows.length = r.rows.length) (index : t.index row = r.key) :
    Working o total n { k with chunk, pos := k.pos + 1, curRow := some row } s' r' := by
  refine ⟨good, mem, handle, others, ?_, ?_, working.moved, working.nonempty, ?_, nofun⟩
  · have := working.left
    dsimp only
    omega
  · rw [length]
    exact working.gone
  · rintro _ ⟨⟩
    exact index.trans key.symm

section Round
variable (working : Working o total (n + 1) k s r) (at_ : r.rows[k.pos]? = some old)

include working at_

theorem Working.index_eq : t.index old.row = r.key :=
  (working.good.keeps.chunks r working.mem).same old (mem_of_getElem? at_)

/-- The row at the cursor is deleted in a state that has the record as it was. -/
theorem Working.erase {row : ρ} (good' : s'.Good o) (filled : s'.Filled) (mem' : r ∈ records s'.root)
    (index : t.index row = r.key) :
    ∃ s'', s'.deleteCurRow t r k.pos = (0, s'') ∧
      Working o total n
        { k with curRow := some row, iInsert := k.iInsert + 1, iDelete := k.iDelete + 1 } s''
        { r with rows := r.rows.eraseIdx k.pos } := by
  obtain ⟨inside, -⟩ := List.getElem?_eq_some_iff.mp at_
  obtain ⟨s'', call, good, erased, mem⟩ := deleteCurRow_spec good' mem' at_
  refine ⟨s'', call, good, mem, working.handle, ?_, ?_, ?_, congrArg Nat.succ working.moved,
    working.nonempty, ?_, nofun⟩
  · intro q hq ne
    exact filled q ((erased.mem_iff ne).mp hq)
  · have := working.left
    dsimp only
    rw [length_eraseIdx_of_lt inside]
    omega
  · have := working.gone
    dsimp only
    rw [length_eraseIdx_of_lt inside]
    omega
  · rintro _ ⟨⟩
    exact index

/-- `update_row` writes to the record. -/
theorem Working.writeBits (keeps : request.KeepsIndex) :
    Working o total (n + 1) k (s.writeChunk r.handle (writeBits t request r k.pos old))
        (writeBits t request r k.pos old) ∧
      (writeBits t request r k.pos old).key = r.key := by
  have index := working.index_eq at_
  have sound := working.good.keeps.chunks r working.mem
  have key : (TreeData.writeBits t request r k.pos old).key = r.key := by
    dsimp only [TreeData.writeBits]
    split_ifs
    · rw [keeps, index]
    · rfl
  have size : t.rowsSize (TreeData.writeBits t request r k.pos old).rows = t.rowsSize r.rows := by
    have := t.rowsSize_set at_ (y := ⟨old.flag, request.writeBits old.row⟩)
    rw [request.rowSize_writeBits] at this
    exact Nat.add_right_cancel this
  have step := working.good.write working.mem
    (TreeData.writeBits t request r k.pos old)
    (s.writeChunk r.handle (TreeData.writeBits t request r k.pos old)) key rfl le_rfl
    ⟨?_, ?_, sound.range, sound.handle⟩ (.inl rfl) ?_ rfl ?_ rfl fun _ eq => eq
  · refine ⟨⟨step.1, mem_writeChunk working.mem _, working.handle, ?_, ?_, ?_, working.moved,
      working.nonempty, ?_, working.started⟩, key⟩
    · intro q hq ne
      rw [key] at ne
      exact working.others q ((step.2.mem_iff ne).mp hq) ne
    · exact working.left.trans length_set.symm
    · exact (congrArg (· + k.iDelete) length_set).trans working.gone
    · rw [key]
      exact working.index
  · intro x hx
    rw [key]
    rcases mem_or_eq_of_mem_set hx with hx | rfl
    · exact sound.same x hx
    · exact (keeps _).trans index
  · rw [RowChunk.dataSize, size]
    exact sound.inside
  · intro m eq
    rw [show (TreeData.writeBits t request r k.pos old).rows.length = r.rows.length from length_set]
    exact eq
  · intro m eq
    rw [size]
    exact eq

/-- A round on a matching row that keeps its index value. -/
theorem updateRound_inPlace {row new : ρ} (index : t.index row = r.key)
    (same : t.index new = r.key) {ret : Int} {r' : RowChunk ρ K}
    (call : s.replaceCurRow t alloc r k.pos new async = some ((ret, r'), s')) :
    (ret = ecNoMem ∧ s'.Good o ∧ s'.Filled) ∨
      (ret = 0 ∧ Working o total n
        { k with curRow := some row, chunk := r'.handle, pos := k.pos + 1 }
        (s'.countUpdate old async) r') := by
  have some : r.rows ≠ [] := ne_nil_of_mem (mem_of_getElem? at_)
  have replaced := replaceCurRow_spec working.good working.mem at_ same call
  have length : r'.rows.length = r.rows.length := by
    rcases replaced.outcome with ⟨-, rows⟩ | ⟨-, rows⟩
    · rw [rows, length_set]
    · rw [rows]
  have nonempty : r'.rows ≠ [] := by
    intro empty
    rw [empty] at length
    exact some (eq_nil_of_length_eq_zero length.symm)
  have filled : s'.Filled := replaced.touched.filled replaced.good (working.filled some) nonempty
  rcases replaced.outcome with ⟨rfl, -⟩ | ⟨rfl, -⟩
  · refine .inr ⟨rfl, ?_⟩
    exact working.skip (replaced.good.counters _ _ _) replaced.mem rfl
      (fun q mem _ => filled q mem) replaced.key length index
  · exact .inl ⟨rfl, replaced.good, filled⟩

/-- A round on a matching row that has been inserted under another index value, or that is too
long for its record. -/
theorem updateRound_moved {row : ρ} {x : StoredRow ρ} {ret : Int} (index : t.index row = r.key)
    (other : t.index x.row ≠ r.key) (inserted : Inserted o s s' x ret) (async : Bool) :
    r ∈ records s'.root ∧
      (∃ s'', s'.deleteCurRow t r k.pos = (0, s'') ∧ Working o total n
        { k with curRow := some row, iInsert := k.iInsert + 1, iDelete := k.iDelete + 1 }
        (s''.countUpdate old async) { r with rows := r.rows.eraseIdx k.pos }) ∧
      Working o total n { k with curRow := some row, pos := k.pos + 1 }
        (s'.countUpdate old async) r := by
  have mem := inserted.mem_of_ne working.mem other
  obtain ⟨s'', call, next⟩ := working.erase at_ inserted.good inserted.filled mem index
  refine ⟨mem, ⟨s'', call, next.counters _ _ _⟩, ?_⟩
  exact working.skip (inserted.good.counters _ _ _) mem working.handle
    (fun q hq _ => inserted.filled q hq) rfl rfl index

/-- What a round on a matching row does. -/
theorem updateRound_spec [Inhabited K] (keeps : request.KeepsIndex)
    {result : (Int × TreeData ρ K) ⊕ (Cursor ρ × TreeData ρ K)}
    (call : updateRound t alloc request async hRecord k r old s = some result) :
    (∃ ret s', result = .inl (ret, s') ∧ s'.Good o ∧ s'.Filled) ∨
      ∃ k' s' r', result = .inr (k', s') ∧ Working o total n k' s' r' := by
  have index := working.index_eq at_
  have found : Ttree.doFind t.comparator s.root (t.index old.row) = some r :=
    (working.good.doFind _).mpr ⟨working.mem, index.symm⟩
  obtain ⟨written, key⟩ := working.writeBits at_ keeps
  have atWritten : (writeBits t request r k.pos old).rows[k.pos]? =
      some ⟨old.flag, request.writeBits old.row⟩ := by
    obtain ⟨inside, -⟩ := List.getElem?_eq_some_iff.mp at_
    exact List.getElem?_set_self inside
  unfold updateRound at call
  rw [found] at call
  dsimp only at call
  have same : (writeBits t request r k.pos old).handle = r.handle := rfl
  generalize writeBits t request r k.pos old = q at call written key atWritten same
  rw [same] at call
  have cursor : t.index (request.writeBits old.row) = q.key := (keeps _).trans (index.trans key.symm)
  by_cases stale : k.chunk ≠ hRecord ∨ r.handle ≠ r.handle
  · rw [if_pos stale] at call
    exact nomatch call
  rw [if_neg stale] at call
  generalize s.writeChunk r.handle q = s₁ at call written
  by_cases moves : t.keyCompare (t.index (request.updateRow old.row)) q.key ≠ 0
  · rw [if_pos moves] at call
    have other : t.index (request.updateRow old.row) ≠ q.key := o.keyCompare_eq_zero.not.mp moves
    have inserted : Inserted o s₁ (s₁.insertRow t alloc (request.updateRow old.row) async).2 _ _ :=
      insertRow_spec written.good (written.filled (ne_nil_of_mem (mem_of_getElem? atWritten))) _ _
    generalize s₁.insertRow t alloc (request.updateRow old.row) async = answer at call inserted
    obtain ⟨ret, s'⟩ := answer
    dsimp only at call inserted
    obtain ⟨mem, ⟨s'', deleted, erased⟩, skipped⟩ :=
      updateRound_moved written atWritten cursor other inserted async
    by_cases noMem : ret = ecNoMem
    · rw [if_pos noMem] at call
      obtain rfl := Option.some.inj call
      exact .inl ⟨ret, s', rfl, inserted.good, inserted.filled⟩
    · rw [if_neg noMem] at call
      by_cases ok : ret = 0
      · have there : s'.chunkAt k.chunk = some q :=
          (chunkAt_eq_some_iff inserted.good.keeps.handles).mpr ⟨mem, written.handle⟩
        simp only [if_pos ok, there, Option.bind_eq_bind, Option.bind_some, deleted] at call
        exact .inr ⟨_, _, _, (Option.some.inj call).symm, erased⟩
      · rw [if_neg ok] at call
        obtain rfl := Option.some.inj call
        exact .inr ⟨_, _, _, rfl, skipped⟩
  · rw [if_neg moves] at call
    have here : t.index (request.updateRow old.row) = q.key :=
      o.keyCompare_eq_zero.mp (not_not.mp moves)
    cases replaced : s₁.replaceCurRow t alloc q k.pos (request.updateRow old.row) async with
    | none =>
      rw [replaced] at call
      exact nomatch call
    | some answer =>
      obtain ⟨⟨ret, r'⟩, s'⟩ := answer
      rw [replaced] at call
      rcases updateRound_inPlace written atWritten cursor here replaced with
        ⟨rfl, good, filled⟩ | ⟨rfl, next⟩
      · exact .inl ⟨_, _, (Option.some.inj call).symm, good, filled⟩
      · exact .inr ⟨_, _, _, (Option.some.inj call).symm, next⟩

end Round

/-- What comes behind the loop. -/
theorem finishUpdate_good [Inhabited K] {ret : Int} (working : Working o total 0 k s r)
    (call : finishUpdate t total k s = some (ret, s')) : s'.Good o ∧ s'.Filled := by
  unfold finishUpdate at call
  have gone := working.gone
  have nonempty := working.nonempty
  by_cases all : 0 < total ∧ k.iDelete = total
  · have empty : r.rows = [] := eq_nil_of_length_eq_zero (by omega)
    obtain ⟨s₁, dropped, good, touched, others⟩ := dropChunk_spec working.good working.mem empty
    cases last : k.curRow with
    | none => exact absurd (working.started last) (by omega)
    | some row =>
      simp only [working.chunkAt, Option.bind_eq_bind, Option.bind_some, if_pos all, last,
        Option.map_some, working.index row last, dropped, working.moved] at call
      rw [if_neg (by simp), if_neg (by simp)] at call
      obtain ⟨rfl, rfl⟩ := Prod.mk.inj (Option.some.inj call)
      refine ⟨good, fun q mem => ?_⟩
      exact working.others q ((touched.mem_iff (others q mem)).mp mem) (others q mem)
  · simp only [working.chunkAt, Option.bind_eq_bind, Option.bind_some, if_neg all,
      working.moved] at call
    rw [if_neg (by simp), if_neg (by simp)] at call
    obtain ⟨rfl, rfl⟩ := Prod.mk.inj (Option.some.inj call)
    exact ⟨working.good, working.filled (ne_nil_of_length_pos (by omega))⟩

/-- The loop, from any round on. -/
theorem updateRows_good [Inhabited K] {ret : Int} (keeps : request.KeepsIndex)
    (working : Working o total n k s r)
    (call : updateRows t alloc request async hRecord total n k s = some (ret, s')) :
    s'.Good o ∧ s'.Filled := by
  induction n generalizing k s r with
  | zero => exact finishUpdate_good working call
  | succ n ih =>
    obtain ⟨old, at_⟩ := working.current
    rw [updateRows] at call
    simp only [working.chunkAt, Option.bind_eq_bind, Option.bind_some, at_] at call
    by_cases matched : request.compareRow old.row = true
    · rw [if_pos matched] at call
      cases round : updateRound t alloc request async hRecord k r old s with
      | none =>
        rw [round] at call
        exact nomatch call
      | some result =>
        rw [round] at call
        rcases updateRound_spec working at_ keeps round with
          ⟨ret', s₁, rfl, good, filled⟩ | ⟨k', s₁, r', rfl, next⟩
        · obtain ⟨rfl, rfl⟩ := Prod.mk.inj (Option.some.inj call)
          exact ⟨good, filled⟩
        · exact ih next call
    · rw [if_neg matched] at call
      exact ih (working.skip working.good working.mem working.handle working.others rfl rfl
        (working.index_eq at_)) call

theorem updateSubRawData_good [Inhabited K] {ret : Int} (keeps : request.KeepsIndex) (good : s.Good o)
    (filled : s.Filled)
    (call : s.updateSubRawData t alloc request async hRecord = some (ret, s')) :
    s'.Good o ∧ s'.Filled := by
  unfold updateSubRawData at call
  cases found : s.chunkAt hRecord with
  | none =>
    rw [found] at call
    exact nomatch call
  | some r =>
    rw [found] at call
    exact updateRows_good keeps (Working.start good filled found) call

/-! ### The records one after another -/

/-- Calls on collected handles that each keep the records good. -/
theorem processAll_good {proc : Nat → TreeData ρ K → Option (Int × TreeData ρ K)} {ret : Int}
    (each : ∀ handle s ret s', TreeData.Good o s → s.Filled → proc handle s = some (ret, s') →
      s'.Good o ∧ s'.Filled)
    {handles : List Nat} (good : s.Good o) (filled : s.Filled)
    (call : processAll proc handles s = some (ret, s')) : s'.Good o ∧ s'.Filled := by
  induction handles generalizing s with
  | nil =>
    obtain ⟨rfl, rfl⟩ := Prod.mk.inj (Option.some.inj call)
    exact ⟨good, filled⟩
  | cons handle handles ih =>
    rw [processAll] at call
    cases first : proc handle s with
    | none =>
      rw [first] at call
      exact nomatch call
    | some answer =>
      obtain ⟨ret₁, s₁⟩ := answer
      rw [first] at call
      dsimp only [Option.bind_eq_bind, Option.bind_some] at call
      obtain ⟨good₁, filled₁⟩ := each handle s ret₁ s₁ good filled first
      split_ifs at call with failed
      · obtain ⟨rfl, rfl⟩ := Prod.mk.inj (Option.some.inj call)
        exact ⟨good₁, filled₁⟩
      · exact ih good₁ filled₁ call

end Dtc.Tree
