import Dtc.Tree.Records

/-!
# The steps of the operations on tree data

For each step of the operations (a reallocation, an insertion, the replacement and the
deletion of a row, the removal of an empty record): it keeps the records good, and it
touches the record of one index value.
-/

namespace Dtc.Tree

open Library Memory List TreeData RowChunk TreeTable

variable {ρ K : Type} {s s' : TreeData ρ K} {r r' : RowChunk ρ K}

theorem answer_inj {α β γ : Type*} {a a' : α} {b b' : β} {c c' : γ}
    (eq : some ((a, b), c) = some ((a', b'), c')) : a = a' ∧ b = b' ∧ c = c' := by
  simpa [and_assoc] using eq

section Records

/-- The record of a handle. -/
theorem TreeData.chunkAt_eq_some_iff (handles : ((records s.root).map handle).Nodup)
    {handle : Nat} : s.chunkAt handle = some r ↔ r ∈ records s.root ∧ r.handle = handle := by
  unfold chunkAt
  constructor
  · intro found
    have same := find?_some found
    exact ⟨mem_of_find?_eq_some found, of_decide_eq_true same⟩
  · rintro ⟨mem, rfl⟩
    cases found : (records s.root).find? fun q => decide (q.handle = r.handle) with
    | none => exact absurd (find?_eq_none.mp found r mem) (by simp)
    | some q =>
      have same := find?_some found
      rw [inj_on_of_nodup_map handles (mem_of_find?_eq_some found) mem (of_decide_eq_true same)]

theorem records_map (root : TtreeNode (RowChunk ρ K)) (f : RowChunk ρ K → RowChunk ρ K) :
    records (root.map (map f)) = (records root).map f := by
  simp [records, map_flatten]

theorem nodes_map (root : TtreeNode (RowChunk ρ K)) (f : List (RowChunk ρ K) → List (RowChunk ρ K)) :
    nodes (root.map f) = nodes root := by
  simp [nodes]

/-- Writing a record replaces it among the records. -/
theorem TreeData.records_writeChunk (handles : ((records s.root).map handle).Nodup)
    (mem : r ∈ records s.root) (r' : RowChunk ρ K) :
    ∃ rest, (records s.root).Perm (r :: rest) ∧
      (records (s.writeChunk r.handle r').root).Perm (r' :: rest) := by
  obtain ⟨front, back, split⟩ := append_of_mem mem
  refine ⟨front ++ back, ?_, ?_⟩
  · rw [split]
    exact perm_middle
  · have apart : ∀ q ∈ front ++ back, q.handle ≠ r.handle := by
      rw [split, map_append, map_cons] at handles
      have nodup := (perm_middle.nodup_iff.mp handles)
      rw [nodup_cons, ← map_append] at nodup
      intro q hq same
      exact nodup.1 (mem_map.mpr ⟨q, hq, same⟩)
    have kept : ∀ qs : List (RowChunk ρ K), (∀ q ∈ qs, q.handle ≠ r.handle) →
        (qs.map fun q => if q.handle = r.handle then r' else q) = qs := by
      intro qs others
      refine (map_congr_left fun q hq => ?_).trans (map_id qs)
      rw [if_neg (others q hq)]
      rfl
    rw [writeChunk, records_map, split, map_append, map_cons, if_pos rfl,
      kept front fun q hq => apart q (mem_append_left _ hq),
      kept back fun q hq => apart q (mem_append_right _ hq)]
    exact perm_middle

theorem TreeData.mem_writeChunk (mem : r ∈ records s.root) (r' : RowChunk ρ K) :
    r' ∈ records (s.writeChunk r.handle r').root := by
  rw [writeChunk, records_map]
  exact mem_map.mpr ⟨r, mem, if_pos rfl⟩

theorem reAllocChunk_none {alloc : Allocator} {size : Nat}
    (call : s.reAllocChunk alloc r size = (none, s')) : s' = { s with calls := s.calls + 1 } := by
  unfold reAllocChunk at call
  cases answer : alloc.reAlloc s.calls size with
  | none =>
    rw [answer] at call
    exact (Prod.mk.inj call).2.symm
  | some grant =>
    rw [answer] at call
    exact nomatch call

variable [LinearOrder K] {t : TreeTable ρ K} {o : t.Ordered}

/-- Records that keep their index value keep the tree well formed. -/
theorem WellFormed.mapRecords {root : TtreeNode (RowChunk ρ K)} (wf : WellFormed o.comparator root)
    {f : RowChunk ρ K → RowChunk ρ K} (keys : ∀ r ∈ records root, (f r).key = r.key) :
    WellFormed o.comparator (root.map (map f)) := by
  refine ⟨wf.balanced.map _, ?_, ?_⟩
  · intro items mem
    rw [AvlTree.inorder_map] at mem
    obtain ⟨kept, inside, rfl⟩ := mem_map.mp mem
    rw [length_map]
    exact wf.sizes kept inside
  · rw [records_map]
    refine pairwise_map.mpr (wf.sorted.imp_of_mem fun ha hb lt => ?_)
    change (f _).key < (f _).key
    rwa [keys _ ha, keys _ hb]

section
variable (good : s.Good o)
include good

theorem TreeData.Good.key_ne {rest : List (RowChunk ρ K)}
    (perm : (records s.root).Perm (r :: rest)) : ∀ q ∈ rest, q.key ≠ r.key := by
  intro q hq
  exact good.wellFormed.sorted.key_ne_of_perm perm.symm hq

theorem TreeData.Good.wellFormed_write (mem : r ∈ records s.root) (key : r'.key = r.key) :
    WellFormed o.comparator (s.writeChunk r.handle r').root := by
  refine good.wellFormed.mapRecords fun q hq => ?_
  split_ifs with same
  · rw [key, inj_on_of_nodup_map good.keeps.handles hq mem same]
  · rfl

/-- A record is replaced by one of the same index value: what has to be checked. -/
theorem TreeData.Good.write (mem : r ∈ records s.root) (r' : RowChunk ρ K)
    (s' : TreeData ρ K) (key : r'.key = r.key) (root : s'.root = (s.writeChunk r.handle r').root)
    (calls : s.calls ≤ s'.calls) (sound : r'.Sound t s'.calls)
    (handle : r'.handle = r.handle ∨ r'.handle = s.calls)
    (rowCount : ∀ n, s.rowCount = (r.rows.length + n) % 2 ^ 32 →
      s'.rowCount = (r'.rows.length + n) % 2 ^ 32)
    (nodeCount : s'.nodeCount = s.nodeCount)
    (rawSize : ∀ n, s.totalRawSize = (t.rowsSize r.rows + n) % 2 ^ 32 →
      s'.totalRawSize = (t.rowsSize r'.rows + n) % 2 ^ 32)
    (freesNoted : s'.freesNoted = s.freesNoted)
    (treeSize : ∀ n, s.treeSize = (r.chunkSize + n) % 2 ^ 32 →
      s'.treeSize = (r'.chunkSize + n) % 2 ^ 32) :
    s'.Good o ∧ Touched s s' r.key r.rows r'.rows := by
  obtain ⟨rest, perm, perm'⟩ := records_writeChunk good.keeps.handles mem r'
  have keeps := good.keeps.perm perm
  have apart := (nodup_cons.mp keeps.handles).1
  rw [← root] at perm'
  refine ⟨⟨root ▸ good.wellFormed_write mem key, Keeps.perm ?_ perm'.symm⟩, ?_⟩
  · constructor
    · refine nodup_cons.mpr ⟨fun inside => ?_, (nodup_cons.mp keeps.handles).2⟩
      rcases handle with same | fresh
      · exact apart (same ▸ inside)
      · obtain ⟨q, hq, eq⟩ := mem_map.mp inside
        have lt := (keeps.chunks q (mem_cons_of_mem _ hq)).handle
        omega
    · intro q hq
      rcases mem_cons.mp hq with rfl | hq
      · exact sound
      · exact (keeps.chunks q (mem_cons_of_mem _ hq)).mono calls
    · have := keeps.rowCount
      rw [storedRows_cons, length_append] at this ⊢
      exact rowCount _ this
    · rw [nodeCount, keeps.nodeCount]
      rfl
    · have := keeps.rawSize
      rw [storedRows_cons, rowsSize_append] at this ⊢
      exact rawSize _ this
    · intro noted
      have := keeps.treeSize (freesNoted ▸ noted)
      rw [root, writeChunk, nodes_map]
      rw [chunkBytes_cons, Nat.add_left_comm] at this ⊢
      exact treeSize _ this
  · refine ⟨[r], [r'], rest, perm, perm', by simp, by simp, ?_, good.key_ne perm⟩
    intro q hq
    rcases mem_append.mp hq with hq | hq
    · rw [mem_singleton.mp hq]
    · rw [mem_singleton.mp hq, key]

/-- A step that leaves the records alone, at the index value of one of them. -/
theorem TreeData.Good.kept (mem : r ∈ records s.root)
    (root : s'.root = s.root) : Touched s s' r.key r.rows r.rows := by
  obtain ⟨rest, perm, -⟩ := records_writeChunk good.keeps.handles mem r
  exact ⟨[r], [r], rest, perm, root ▸ perm, by simp, by simp, by simp, good.key_ne perm⟩

/-- A call of the allocator alone. -/
theorem TreeData.Good.called : { s with calls := s.calls + 1 }.Good o :=
  ⟨good.wellFormed, good.keeps.handles,
    fun r mem => (good.keeps.chunks r mem).mono (Nat.le_succ _), good.keeps.rowCount,
    good.keeps.nodeCount, good.keeps.rawSize, good.keeps.treeSize⟩

/-- The counters of the operation do not matter. -/
theorem TreeData.Good.counters (affectedRows : Nat) (rowsCount dirtyRowsCount : Int) :
    { s with affectedRows, rowsCount, dirtyRowsCount }.Good o :=
  ⟨good.wellFormed, good.keeps.handles, good.keeps.chunks, good.keeps.rowCount,
    good.keeps.nodeCount, good.keeps.rawSize, good.keeps.treeSize⟩

end

end Records

section Steps
variable [LinearOrder K] {t : TreeTable ρ K} {o : t.Ordered} {alloc : Allocator}

/-- The record after a reallocation that succeeds. -/
structure Moved (o : t.Ordered) (s s' : TreeData ρ K) (r r' : RowChunk ρ K) (size : Nat) : Prop where
  good : s'.Good o
  touched : Touched s s' r.key r.rows r.rows
  mem : r' ∈ records s'.root
  key : r'.key = r.key
  rows : r'.rows = r.rows
  covers : size ≤ r'.chunkSize

theorem Moved.same {size : Nat} (moved : Moved o s s' r r' size) :
    Touched s s' r'.key r'.rows r'.rows := by
  rw [moved.key, moved.rows]
  exact moved.touched

theorem reAllocChunk_moved (good : s.Good o) (mem : r ∈ records s.root) {size : Nat}
    (enough : r.dataSize t ≤ size) (call : s.reAllocChunk alloc r size = (some r', s')) :
    Moved o s s' r r' size := by
  unfold reAllocChunk at call
  have sound := good.keeps.chunks r mem
  cases answer : alloc.reAlloc s.calls size with
  | none =>
    rw [answer] at call
    exact nomatch call
  | some grant =>
    obtain ⟨usable, moved⟩ := grant
    rw [answer] at call
    obtain ⟨covers, range⟩ := alloc.reAlloc_covers _ _ _ _ answer
    obtain ⟨record, state⟩ := Prod.mk.inj call
    obtain rfl := Option.some.inj record
    subst state
    have handle : (if moved then s.calls else r.handle) = r.handle ∨
        (if moved then s.calls else r.handle) = s.calls := by
      cases moved with
      | true => exact .inr rfl
      | false => exact .inl rfl
    have size := sound.range
    obtain ⟨next, touched⟩ := good.write mem
      { r with handle := if moved then s.calls else r.handle, chunkSize := usable }
      { s.writeChunk r.handle { r with
          handle := if moved then s.calls else r.handle, chunkSize := usable } with
        treeSize := add32 (sub32 s.treeSize r.chunkSize) usable, calls := s.calls + 1 }
      rfl rfl (Nat.le_succ _)
      ⟨sound.same, enough.trans covers, range, by
        have := sound.handle
        dsimp only
        split_ifs <;> omega⟩
      handle (fun _ eq => eq) rfl (fun _ eq => eq) rfl (fun n eq => by
        dsimp only
        rw [eq, add32, sub32]
        omega)
    exact ⟨next, touched, mem_writeChunk mem _, rfl, rfl, covers⟩

/-- Why an insertion is refused: there is no memory, or the sizes do not fit 32 bits. -/
def Refusal (t : TreeTable ρ K) (s : TreeData ρ K) (x : StoredRow ρ) (ret : Int) : Prop :=
  ret = ecNoMem ∨
    ret = -100 ∧ 2 ^ 32 ≤ recordHead + t.rowsSize (storedRows (records s.root)) + t.rowSize x.row

variable {x : StoredRow ρ} {ret : Int}

omit [LinearOrder K] in
theorem Refusal.ne_zero (refusal : Refusal t s x ret) : ret ≠ 0 := by
  rcases refusal with rfl | ⟨rfl, -⟩
  · decide
  · decide

/-- What an insertion does, by its return value. -/
structure Inserted (o : t.Ordered) (s s' : TreeData ρ K) (x : StoredRow ρ) (ret : Int) : Prop where
  good : s'.Good o
  filled : s'.Filled
  touched : ∃ old, Touched s s' (t.index x.row) old (if ret = 0 then old ++ [x] else old)
  outcome : ret = 0 ∨ Refusal t s x ret

section
variable (inserted : Inserted o s s' x ret)
include inserted

theorem Inserted.rows : s'.rows = s.rows + if ret = 0 then {x} else 0 := by
  obtain ⟨old, touched⟩ := inserted.touched
  have exchange := touched.exchange
  refine add_right_cancel (exchange.trans ?_)
  split_ifs with ok
  · rw [← Multiset.coe_add, Multiset.coe_singleton]
    abel
  · rw [add_zero]

/-- An insertion leaves the records of the other index values alone. -/
theorem Inserted.mem_of_ne (mem : r ∈ records s.root)
    (other : t.index x.row ≠ r.key) : r ∈ records s'.root := by
  obtain ⟨old, touched⟩ := inserted.touched
  exact (touched.mem_iff other.symm).mpr mem

end

/-- A refused insertion that has at most asked the allocator. -/
theorem Inserted.refused (filled : s.Filled) (good' : s'.Good o) (root : s'.root = s.root)
    (refusal : Refusal t s x ret) : Inserted o s s' x ret := by
  obtain ⟨old, touched⟩ := Touched.idle root (t.index x.row)
  refine ⟨good', fun r mem => filled r (root ▸ mem), ⟨old, ?_⟩, .inr refusal⟩
  rwa [if_neg refusal.ne_zero]

/-- A row is added behind the rows of a record. -/
theorem append_good (good : s.Good o) (mem : r ∈ records s.root) (key : t.index x.row = r.key)
    (room : r.dataSize t + t.rowSize x.row ≤ r.chunkSize) :
    ((s.writeChunk r.handle { r with rows := r.rows ++ [x] }).countRow (t.rowSize x.row)).Good o ∧
      Touched s ((s.writeChunk r.handle { r with rows := r.rows ++ [x] }).countRow
        (t.rowSize x.row)) r.key r.rows (r.rows ++ [x]) := by
  have sound := good.keeps.chunks r mem
  refine good.write mem { r with rows := r.rows ++ [x] } _ rfl rfl (le_refl _)
    ⟨?_, ?_, sound.range, sound.handle⟩ (.inl rfl) ?_ rfl ?_ rfl fun _ eq => eq
  · intro y hy
    rcases mem_append.mp hy with hy | hy
    · exact sound.same y hy
    · rw [mem_singleton.mp hy]
      exact key
  · simp only [dataSize, rowsSize_append, rowsSize_cons, rowsSize_nil] at room ⊢
    omega
  · intro n eq
    simp only [countRow, writeChunk, length_append, length_singleton]
    rw [eq, add32]
    omega
  · intro n eq
    simp only [countRow, writeChunk, rowsSize_append, rowsSize_cons, rowsSize_nil]
    rw [eq, add32]
    omega

/-- The part of `insert_row_flag` behind the expansion of the record. -/
theorem insertExpanded_spec (filled : s.Filled) (mem : r ∈ records s.root)
    (key : r.key = t.index x.row) (good' : s'.Good o) (touched : Touched s s' r.key r.rows r.rows)
    (mem' : r' ∈ records s'.root) (key' : r'.key = r.key)
    (rows : r'.rows = r.rows) (covers : add32 (r.dataSize t) (t.rowSize x.row) ≤ r'.chunkSize)
    {result : Int × TreeData ρ K}
    (call : (if r'.chunkSize < r'.dataSize t + t.rowSize x.row then (-100, s')
      else (0, (s'.writeChunk r'.handle { r' with rows := r'.rows ++ [⟨x.flag, x.row⟩] }).countRow
        (t.rowSize x.row))) = result) :
    Inserted o s result.2 x result.1 := by
  subst call
  obtain ⟨handle, chunkSize, _, _⟩ := r'
  subst key' rows
  split_ifs with short
  · have big : 2 ^ 32 ≤ recordHead + t.rowsSize (storedRows (records s.root)) + t.rowSize x.row := by
      have part := t.rowsSize_le mem
      unfold add32 at covers
      unfold dataSize at short covers
      dsimp only at short covers
      omega
    refine ⟨good', touched.filled good' filled (filled r mem), ⟨r.rows, ?_⟩,
      .inr (.inr ⟨rfl, big⟩)⟩
    dsimp only
    rw [if_neg (by decide), ← key]
    exact touched
  · obtain ⟨next, added⟩ := append_good good' mem' (x := x) key.symm (not_lt.mp short)
    refine ⟨next, ?_, ⟨r.rows, ?_⟩, .inl rfl⟩
    · exact (touched.trans added).filled next filled (by simp)
    · rw [if_pos rfl, ← key]
      exact touched.trans added

section
variable (good : s.Good o)
include good

theorem insertInto_spec (filled : s.Filled) (mem : r ∈ records s.root)
    (key : r.key = t.index x.row) :
    Inserted o s (s.insertInto t alloc r x.row x.flag).2 x
      (s.insertInto t alloc r x.row x.flag).1 := by
  have sound := good.keeps.chunks r mem
  unfold insertInto expandTreeChunk
  by_cases short : r.chunkSize < add32 (r.dataSize t) (t.rowSize x.row)
  · rw [if_pos short]
    cases call : s.reAllocChunk alloc r (add32 (r.dataSize t) (t.rowSize x.row)) with
    | mk record s' =>
      cases record with
      | none =>
        have := reAllocChunk_none call
        subst this
        exact Inserted.refused filled good.called rfl (.inl rfl)
      | some r' =>
        have moved := reAllocChunk_moved good mem (sound.inside.trans (le_of_lt short)) call
        exact insertExpanded_spec filled mem key moved.good moved.touched
          moved.mem moved.key moved.rows moved.covers rfl
  · rw [if_neg short]
    exact insertExpanded_spec filled mem key good (good.kept mem rfl) mem rfl rfl (not_lt.mp short) rfl

/-- What `insert_sub_tree` does. -/
theorem insertSubTree_cases [Inhabited K] (absent : ∀ q ∈ records s.root, q.key ≠ r.key)
    {result : Int × TreeData ρ K} (call : s.insertSubTree t alloc r = result) :
    (result.1 = ecNoMem ∧ result.2 = { s with calls := s.calls + 1 }) ∨
    (result.1 = 0 ∧ WellFormed o.comparator result.2.root ∧
      (records result.2.root).Perm (r :: records s.root) ∧
      ∃ treeSize, result.2 = { s with root := result.2.root, calls := s.calls + 1, treeSize } ∧
        ∀ n, s.treeSize = (sizeofTtreeNode * nodes s.root + n) % 2 ^ 32 →
          treeSize = (sizeofTtreeNode * nodes result.2.root + n) % 2 ^ 32) := by
  subst call
  have cases := Ttree.doInsert_cases o.comparator good.wellFormed
    (alloc.malloc s.calls sizeofTtreeNode).isSome r false rfl
  have counted := Ttree.doInsert_nodes t.comparator s.root
    (alloc.malloc s.calls sizeofTtreeNode).isSome r.key r
  rw [show o.comparator.toKeyComparator = t.comparator from rfl,
    show t.comparator.convertCvalue r = r.key from rfl] at cases
  unfold insertSubTree
  dsimp only
  generalize Ttree.doInsert t.comparator s.root (alloc.malloc s.calls sizeofTtreeNode).isSome
    r.key r false = res at cases counted
  rcases cases with ⟨-, -, q, mem, same⟩ | ⟨ret, -, root, -⟩ | ⟨ret, -, wf, perm⟩
  · exact absurd same (absent q mem)
  · rw [if_neg fun ok => absurd (ret.symm.trans ok.1) (by decide), root, ret]
    exact .inl ⟨rfl, rfl⟩
  · have more := counted ret
    cases flag : res.isAllocNode with
    | true =>
      rw [flag, if_pos rfl] at more
      rw [if_pos ⟨ret, rfl⟩]
      refine .inr ⟨ret, wf, perm, _, rfl, fun n eq => ?_⟩
      rw [eq, more, add32, Nat.mul_succ]
      omega
    | false =>
      rw [flag, if_neg Bool.false_ne_true] at more
      rw [if_neg fun ok => absurd ok.2 Bool.false_ne_true]
      refine .inr ⟨ret, wf, perm, _, rfl, fun n eq => ?_⟩
      rw [eq, more, Nat.add_zero]

/-- A record with one row is new in the tree. -/
theorem insertedNew (filled : s.Filled) {chunkSize treeSize : Nat}
    {root : TtreeNode (RowChunk ρ K)} (absent : ∀ q ∈ records s.root, q.key ≠ t.index x.row)
    (wf : WellFormed o.comparator root)
    (perm : (records root).Perm (⟨s.calls, chunkSize, t.index x.row, [x]⟩ :: records s.root))
    (room : recordHead + t.rowSize x.row ≤ chunkSize) (range : chunkSize < 2 ^ 32)
    (grown : ∀ n, s.treeSize = (sizeofTtreeNode * nodes s.root + n) % 2 ^ 32 →
      treeSize = (sizeofTtreeNode * nodes root + n) % 2 ^ 32) (state : s' = { s with
      root := root
      calls := s.calls + 1 + 1
      treeSize := add32 treeSize chunkSize
      nodeCount := add32 s.nodeCount 1 }.countRow (t.rowSize x.row)) :
    Inserted o s s' x 0 := by
  have keeps := good.keeps
  have calls : s'.calls = s.calls + 1 + 1 := by rw [state]; rfl
  have perm' : (records s'.root).Perm (⟨s.calls, chunkSize, t.index x.row, [x]⟩ :: records s.root) := by
    rw [state]
    exact perm
  have good' : s'.Good o := by
    refine ⟨by rw [state]; exact wf, Keeps.perm ?_ perm'.symm⟩
    constructor
    · refine nodup_cons.mpr ⟨fun inside => ?_, keeps.handles⟩
      obtain ⟨q, hq, eq⟩ := mem_map.mp inside
      exact absurd eq (ne_of_lt (keeps.chunks q hq).handle)
    · intro q hq
      rcases mem_cons.mp hq with rfl | hq
      · refine ⟨fun y hy => by rw [mem_singleton.mp hy], ?_, range, ?_⟩
        · simpa [dataSize] using room
        · dsimp only
          omega
      · exact (keeps.chunks q hq).mono (by omega)
    · simp only [state, countRow, storedRows_cons, length_append, length_singleton]
      rw [keeps.rowCount, add32]
      omega
    · simp only [state, countRow, length_cons]
      rw [keeps.nodeCount, add32]
      omega
    · simp only [state, countRow, storedRows_cons, rowsSize_append, rowsSize_cons, rowsSize_nil]
      rw [keeps.rawSize, add32]
      omega
    · intro noted
      rw [state] at noted ⊢
      simp only [countRow, chunkBytes_cons]
      rw [grown _ (keeps.treeSize noted), add32]
      omega
  have touched : Touched s s' (t.index x.row) [] [x] := by
    refine ⟨[], [⟨s.calls, chunkSize, t.index x.row, [x]⟩], records s.root, List.Perm.refl _,
      perm', rfl, rfl, ?_, absent⟩
    intro r mem
    rw [mem_singleton.mp mem]
  exact ⟨good', touched.filled good' filled (by simp), ⟨[], by rwa [if_pos rfl]⟩, .inl rfl⟩

theorem insertNew_spec [Inhabited K] (filled : s.Filled)
    (absent : ∀ q ∈ records s.root, q.key ≠ t.index x.row) :
    Inserted o s (s.insertNew t alloc x.row x.flag).2 x (s.insertNew t alloc x.row x.flag).1 := by
  unfold insertNew
  cases answer : alloc.malloc s.calls (add32 (t.rowSize x.row) recordHead) with
  | none =>
    exact Inserted.refused filled good.called rfl (.inl rfl)
  | some chunkSize =>
    dsimp only
    obtain ⟨covers, range⟩ := alloc.malloc_covers _ _ _ answer
    by_cases short : chunkSize < recordHead + t.rowSize x.row
    · rw [if_pos short]
      refine Inserted.refused filled good.called rfl
        (.inr ⟨rfl, ?_⟩)
      unfold add32 at covers
      omega
    rw [if_neg short]
    have call : { s with calls := s.calls + 1 }.insertSubTree t alloc
      ⟨s.calls, chunkSize, t.index x.row, [x]⟩ = _ := rfl
    rcases insertSubTree_cases good.called absent call with
      ⟨failed, state⟩ | ⟨ok, wf, perm, treeSize, state, grown⟩
    · rw [if_pos (failed.symm ▸ by decide), state]
      exact Inserted.refused filled good.called.called rfl
        (.inl failed)
    · rw [if_neg (not_not.mpr ok), state]
      exact insertedNew good filled absent wf perm (not_lt.mp short) range grown rfl

/-- The record of an index value is found. -/
theorem TreeData.Good.doFind [Inhabited K] (key : K) :
    Ttree.doFind t.comparator s.root key = some r ↔ r ∈ records s.root ∧ r.key = key := by
  have same : Ttree.doFind t.comparator s.root key =
      Tree.doFind o.comparator.toKeyComparator s.root key := by
    unfold Ttree.doFind
    split_ifs with empty
    · rw [AvlTree.isNil_iff.mp empty]
      rfl
    · rfl
  rw [same]
  exact doFind_eq_some_iff o.comparator good.wellFormed key r

/-- What `insert_row_flag` does. -/
theorem insertRowFlag_spec [Inhabited K] (filled : s.Filled) (x : StoredRow ρ) :
    Inserted o s (s.insertRowFlag t alloc x.row x.flag).2 x
      (s.insertRowFlag t alloc x.row x.flag).1 := by
  unfold insertRowFlag
  cases answer : Ttree.doFind t.comparator s.root (t.index x.row) with
  | none =>
    refine insertNew_spec good filled fun q mem same => ?_
    rw [(good.doFind _).mpr ⟨mem, same⟩] at answer
    exact nomatch answer
  | some r =>
    obtain ⟨mem, key⟩ := (good.doFind _).mp answer
    exact insertInto_spec good filled mem key

/-- What `insert_row` does. -/
theorem insertRow_spec [Inhabited K] (filled : s.Filled) (row : ρ) (isDirty : Bool) :
    Inserted o s (s.insertRow t alloc row isDirty).2
      ⟨if isDirty then Raw.operInsert else Raw.operSelect, row⟩
      (s.insertRow t alloc row isDirty).1 :=
  insertRowFlag_spec good filled ⟨_, row⟩

end

variable {old : StoredRow ρ} {pos : Nat}

/-- What `delete_cur_row` does. -/
theorem deleteCurRow_spec (good : s.Good o) (mem : r ∈ records s.root)
    (at_ : r.rows[pos]? = some old) :
    ∃ s', s.deleteCurRow t r pos = (0, s') ∧ s'.Good o ∧
      Touched s s' r.key r.rows (r.rows.eraseIdx pos) ∧
      { r with rows := r.rows.eraseIdx pos } ∈ records s'.root := by
  have sound := good.keeps.chunks r mem
  have less := t.rowsSize_eraseIdx at_
  obtain ⟨inside, -⟩ := List.getElem?_eq_some_iff.mp at_
  refine ⟨_, by rw [deleteCurRow, at_], ?_⟩
  have step := good.write mem { r with rows := r.rows.eraseIdx pos }
    { s.writeChunk r.handle { r with rows := r.rows.eraseIdx pos } with
      rowCount := sub32 s.rowCount 1
      totalRawSize := sub32 s.totalRawSize (t.rowSize old.row) }
    rfl rfl (le_refl _) ⟨fun y hy => sound.same y (mem_of_mem_eraseIdx hy), ?_, sound.range,
      sound.handle⟩ (.inl rfl) ?_ rfl ?_ rfl fun _ eq => eq
  · exact ⟨step.1, step.2, mem_writeChunk mem _⟩
  · have := sound.inside
    rw [dataSize] at this ⊢
    dsimp only
    omega
  · intro n eq
    dsimp only
    rw [eq, sub32, length_eraseIdx_of_lt inside]
    omega
  · intro n eq
    have := t.rowSize_lt old.row
    dsimp only
    rw [eq, sub32]
    omega

variable {new : StoredRow ρ}

/-- A row of a record is written over. `size` is what becomes of `total_raw_size_`. -/
theorem set_good (good : s.Good o) (mem : r ∈ records s.root) (at_ : r.rows[pos]? = some old)
    (key : t.index new.row = r.key)
    (room : r.dataSize t + t.rowSize new.row ≤ r.chunkSize + t.rowSize old.row) (size : Nat)
    (rawSize : ∀ n, s.totalRawSize = (n + t.rowSize old.row) % 2 ^ 32 →
      size = (n + t.rowSize new.row) % 2 ^ 32) :
    ({ s.writeChunk r.handle { r with rows := r.rows.set pos new } with
        totalRawSize := size } : TreeData ρ K).Good o ∧
      Touched s { s.writeChunk r.handle { r with rows := r.rows.set pos new } with
        totalRawSize := size } r.key r.rows (r.rows.set pos new) := by
  have sound := good.keeps.chunks r mem
  have changed := t.rowsSize_set (y := new) at_
  refine good.write mem { r with rows := r.rows.set pos new } _ rfl rfl (le_refl _)
    ⟨?_, ?_, sound.range, sound.handle⟩ (.inl rfl) ?_ rfl ?_ rfl fun _ eq => eq
  · intro y hy
    rcases mem_or_eq_of_mem_set hy with hy | rfl
    · exact sound.same y hy
    · exact key
  · rw [dataSize] at room ⊢
    dsimp only
    omega
  · intro n eq
    rw [length_set]
    exact eq
  · intro n eq
    have split := t.rowsSize_eraseIdx at_
    have := rawSize (t.rowsSize (r.rows.eraseIdx pos) + n) (by rw [eq]; congr 1; omega)
    dsimp only
    rw [this]
    congr 1
    omega

/-- The record after `replace_cur_row`. -/
structure Replaced (o : t.Ordered) (s s' : TreeData ρ K) (r r' : RowChunk ρ K) (pos : Nat)
    (new : StoredRow ρ) (ret : Int) : Prop where
  good : s'.Good o
  touched : Touched s s' r.key r.rows r'.rows
  mem : r' ∈ records s'.root
  key : r'.key = r.key
  outcome : (ret = 0 ∧ r'.rows = r.rows.set pos new) ∨ (ret = ecNoMem ∧ r'.rows = r.rows)

section
variable (good : s.Good o) (mem : r ∈ records s.root)

include good mem

section
variable (at_ : r.rows[pos]? = some old)
include at_

theorem replaceLonger_spec (key : t.index new.row = r.key)
    (longer : t.rowSize old.row < t.rowSize new.row)
    (call : s.replaceLonger t alloc r pos old new = some ((ret, r'), s')) :
    Replaced o s s' r r' pos new ret := by
  unfold replaceLonger at call
  dsimp only at call
  cases grown : s.reAllocChunk alloc r
      ((r.dataSize t + t.rowSize new.row - t.rowSize old.row) % 2 ^ 32) with
  | mk record s₁ =>
    rw [grown] at call
    cases record with
    | none =>
      obtain ⟨rfl, rfl, rfl⟩ := answer_inj call
      rw [reAllocChunk_none grown]
      exact ⟨good.called, good.kept mem rfl, mem, rfl, .inr ⟨rfl, rfl⟩⟩
    | some r₁ =>
      split_ifs at call with wraps
      rw [Nat.mod_eq_of_lt (not_le.mp wraps)] at grown
      have moved := reAllocChunk_moved good mem (by omega) grown
      obtain ⟨rfl, rfl, rfl⟩ := answer_inj call
      have covers := moved.covers
      have rows := moved.rows
      have room : r₁.dataSize t + t.rowSize new.row ≤ r₁.chunkSize + t.rowSize old.row := by
        rw [dataSize] at covers ⊢
        rw [rows]
        omega
      obtain ⟨next, touched⟩ := set_good moved.good moved.mem (rows ▸ at_)
        (key.trans moved.key.symm) room
        (add32 s₁.totalRawSize (t.rowSize new.row - t.rowSize old.row)) fun n eq => by
          rw [eq, add32]
          omega
      refine ⟨next, ?_, mem_writeChunk moved.mem _, moved.key, .inl ⟨rfl, by rw [rows]⟩⟩
      rw [← moved.key, ← rows]
      exact moved.same.trans touched

theorem replaceShorter_spec (key : t.index new.row = r.key)
    (shorter : t.rowSize new.row ≤ t.rowSize old.row)
    (call : s.replaceShorter t alloc r pos old new = ((ret, r'), s')) :
    Replaced o s s' r r' pos new ret := by
  unfold replaceShorter at call
  extract_lets r₁ s₀ s₁ at call
  have sound := good.keeps.chunks r mem
  obtain ⟨next, touched⟩ : s₁.Good o ∧ Touched s s₁ r.key r.rows (r.rows.set pos new) :=
    set_good good mem at_ key (by have := sound.inside; omega) _ fun n eq => by
      have := t.rowSize_lt old.row
      rw [show s₀.totalRawSize = s.totalRawSize from rfl, eq, sub32]
      omega
  have written : r₁ ∈ records s₁.root := mem_writeChunk mem _
  cases shrunk : s₁.reAllocChunk alloc r₁ (r₁.dataSize t) with
  | mk record s₂ =>
    rw [shrunk] at call
    cases record with
    | none =>
      obtain ⟨first, rfl⟩ := Prod.mk.inj call
      obtain ⟨rfl, rfl⟩ := Prod.mk.inj first
      rw [reAllocChunk_none shrunk]
      exact ⟨next.called, touched.trans (next.kept written rfl), written, rfl, .inl ⟨rfl, rfl⟩⟩
    | some r₂ =>
      obtain ⟨first, rfl⟩ := Prod.mk.inj call
      obtain ⟨rfl, rfl⟩ := Prod.mk.inj first
      have moved := reAllocChunk_moved next written (le_refl _) shrunk
      refine ⟨moved.good, ?_, moved.mem, moved.key, .inl ⟨rfl, moved.rows⟩⟩
      rw [moved.rows]
      exact touched.trans moved.touched

/-- What `replace_cur_row` does. -/
theorem replaceCurRow_spec {row : ρ} (key : t.index row = r.key)
    {isDirty : Bool} (call : s.replaceCurRow t alloc r pos row isDirty = some ((ret, r'), s')) :
    Replaced o s s' r r' pos ⟨if isDirty then Raw.operUpdate else old.flag, row⟩ ret := by
  unfold replaceCurRow at call
  rw [at_] at call
  dsimp only at call
  by_cases longer : t.rowSize old.row < t.rowSize row
  · rw [if_pos longer] at call
    exact replaceLonger_spec good mem at_ key longer call
  · rw [if_neg longer] at call
    exact replaceShorter_spec good mem at_ key (not_lt.mp longer) (Option.some.inj call)

end

/-- What the removal of an empty record does. -/
theorem dropChunk_spec [Inhabited K] (empty : r.rows = []) :
    ∃ s', s.dropChunk t r.key r.chunkSize = (0, s') ∧ s'.Good o ∧ Touched s s' r.key [] [] ∧ ∀ q ∈ records s'.root, q.key ≠ r.key := by
  have sound := good.keeps.chunks r mem
  have cases := Ttree.delete_cases o.comparator good.wellFormed r.key false rfl
  rw [show o.comparator.toKeyComparator = t.comparator from rfl] at cases
  unfold dropChunk
  dsimp only
  generalize Ttree.delete t.comparator s.root r.key false = res at cases
  rcases cases with ⟨-, root, -⟩ | ⟨-, -, -, absent⟩ | ⟨ret, wf, q, key, perm⟩
  · rw [root] at mem
    exact absurd mem (by simp [records])
  · exact absurd ⟨r, mem, rfl⟩ absent
  obtain rfl : q = r :=
    good.wellFormed.sorted.eq_of_key_eq (perm.mem_iff.mp (mem_cons_self)) mem key
  rw [if_neg (not_not.mpr ret)]
  have keeps := good.keeps.perm perm.symm
  have others := good.key_ne perm.symm
  refine ⟨_, rfl, ⟨wf, ⟨(nodup_cons.mp keeps.handles).2,
    fun p hp => keeps.chunks p (mem_cons_of_mem _ hp), ?_, ?_, ?_, ?_⟩⟩,
    ⟨[q], [], records res.hNode, perm.symm, List.Perm.refl _, by simpa using empty, rfl, by simp,
      others⟩, others⟩
  · have := keeps.rowCount
    rwa [storedRows_cons, empty, nil_append] at this
  · have := keeps.nodeCount
    rw [length_cons] at this
    dsimp only
    rw [this, sub32]
    omega
  · have := keeps.rawSize
    rwa [storedRows_cons, empty, nil_append] at this
  · intro noted
    dsimp only at noted ⊢
    obtain ⟨before, now⟩ := Bool.and_eq_true_iff.mp noted
    have count := of_decide_eq_true now
    have size := keeps.treeSize before
    have range := sound.range
    rw [chunkBytes_cons, ← count] at size
    cases flag : res.isFreeNode with
    | true =>
      rw [flag, if_pos rfl, Nat.mul_succ] at size
      rw [if_pos rfl, size, sub32, sub32]
      unfold sizeofTtreeNode pageSize
      omega
    | false =>
      rw [flag, if_neg Bool.false_ne_true, Nat.add_zero] at size
      rw [if_neg Bool.false_ne_true, size, sub32]
      omega

end

end Steps

end Dtc.Tree
