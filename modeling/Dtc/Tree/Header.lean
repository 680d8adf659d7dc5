import Dtc.Data.Chunk
import Dtc.Tree.Remove

/-!
# The header of tree data

The counters of `RootData` are changed by hand in every operation. Whatever operations
are called on a node, and whatever the allocator answers, they are what they stand for:
the number of rows and of index values, the bytes of the rows without the headers of the
records, and the bytes that `ask_for_destroy_size` would free. All of them are kept in 32 bits.

`tree_size_` depends on `isFreeNode`, which the recursion of `TtreeNode::Delete` does not
always raise when a node is freed.
-/

namespace Dtc.Tree

open Library List TreeData

variable {ρ K : Type}

/-- The operations on tree data. `select` is what the conditions of the request pick. -/
inductive Operation (t : TreeTable ρ K)
  | insertRow (row : ρ) (isDirty : Bool)
  | updateTreeData (select : TtreeNode (RowChunk ρ K) → List Nat) (request : UpdateRequest t)
      (async : Bool)
  | deleteTreeData (select : TtreeNode (RowChunk ρ K) → List Nat) (compareRow : ρ → Bool)
      (counted : Bool)
  | replaceTreeData (row : ρ) (mAsync : Bool)
  | copyTreeAll (rows : List ρ)

/-- The operation does not write the bits of an index value to a record. -/
def Operation.KeepsIndex {t : TreeTable ρ K} : Operation t → Prop
  | .updateTreeData _ request _ => request.KeepsIndex
  | _ => True

section Model
variable [Inhabited K] (t : TreeTable ρ K) (alloc : Allocator)

/-- The state after an operation, whatever it returns. -/
def TreeData.step (s : TreeData ρ K) : Operation t → Option (TreeData ρ K)
  | .insertRow row isDirty => some (s.insertRow t alloc row isDirty).2
  | .updateTreeData select request async =>
    (s.updateTreeData t alloc select request async).map Prod.snd
  | .deleteTreeData select compareRow counted =>
    (s.deleteTreeData t select compareRow counted).map Prod.snd
  | .replaceTreeData row mAsync => (s.replaceTreeData t alloc row mAsync).map Prod.snd
  | .copyTreeAll rows => some (TreeData.copyTreeAll t alloc rows s).2

/-- The state after some operations. -/
def TreeData.run (ops : List (Operation t)) (s : TreeData ρ K) : Option (TreeData ρ K) :=
  ops.foldlM (TreeData.step t alloc) s

end Model

section Exact
variable [LinearOrder K] {t : TreeTable ρ K} {o : t.Ordered} {s s' : TreeData ρ K}

theorem TreeData.Good.doInit (o : t.Ordered) (calls : Nat) : (doInit calls : TreeData ρ K).Good o :=
  ⟨wellFormed_nil, nodup_nil, by simp [TreeData.doInit, records], rfl, rfl, rfl, fun _ => rfl⟩

theorem TreeData.Good.destroy (o : t.Ordered) (s : TreeData ρ K) : s.destroySubTree.Good o :=
  ⟨wellFormed_nil, nodup_nil, by simp [destroySubTree, records], rfl, rfl, rfl, fun _ => rfl⟩

/-- There are as many records as index values. -/
theorem TreeData.Good.length_records (good : s.Good o) (filled : s.Filled) :
    (records s.root).length = (s.rows.map fun x => t.index x.row).toFinset.card := by
  have keys : ((records s.root).map RowChunk.key).Nodup := by
    refine pairwise_map.mpr (good.wellFormed.sorted.imp fun lt => ?_)
    exact ne_of_lt lt
  have same : (s.rows.map fun x => t.index x.row).toFinset =
      ((records s.root).map RowChunk.key).toFinset := by
    ext key
    rw [Multiset.mem_toFinset, mem_toFinset, Multiset.mem_map, mem_map]
    constructor
    · rintro ⟨x, mem, rfl⟩
      obtain ⟨r, hr, inside⟩ := mem_storedRows.mp mem
      exact ⟨r, hr, ((good.keeps.chunks r hr).same x inside).symm⟩
    · rintro ⟨r, hr, rfl⟩
      obtain ⟨x, inside⟩ := exists_mem_of_ne_nil _ (filled r hr)
      exact ⟨x, mem_storedRows.mpr ⟨r, hr, inside⟩, (good.keeps.chunks r hr).same x inside⟩
  rw [same, toFinset_card_of_nodup keys, length_map]

variable [Inhabited K] {alloc : Allocator}

theorem copyTreeAll_good (alloc : Allocator) (good : s.Good o) (filled : s.Filled) (rows : List ρ) :
    (copyTreeAll t alloc rows s).2.Good o ∧ (copyTreeAll t alloc rows s).2.Filled := by
  induction rows generalizing s with
  | nil => exact ⟨good, filled⟩
  | cons row rows ih =>
    have inserted : Inserted o s (s.insertRow t alloc row false).2 _ _ :=
      insertRow_spec good filled row false
    rw [copyTreeAll]
    split_ifs with noMem
    · exact ⟨.destroy o _, by simp [Filled, destroySubTree, records]⟩
    · exact ih inserted.good inserted.filled

/-- An operation keeps the records good. -/
theorem TreeData.step_good (good : s.Good o) (filled : s.Filled) {op : Operation t}
    (keeps : op.KeepsIndex) (call : s.step t alloc op = some s') : s'.Good o ∧ s'.Filled := by
  cases op with
  | insertRow row isDirty =>
    obtain rfl := Option.some.inj call
    have inserted : Inserted o s (s.insertRow t alloc row isDirty).2 _ _ :=
      insertRow_spec good filled row isDirty
    exact ⟨inserted.good, inserted.filled⟩
  | updateTreeData select request async =>
    obtain ⟨⟨ret, s₁⟩, run, rfl⟩ := Option.map_eq_some_iff.mp call
    unfold updateTreeData at run
    split_ifs at run with empty
    · obtain ⟨rfl, rfl⟩ := Prod.mk.inj (Option.some.inj run)
      exact ⟨good, filled⟩
    · refine processAll_good ?_ (good.counters s.affectedRows s.rowsCount 0) filled run
      intro handle s ret s' good filled call
      exact updateSubRawData_good keeps good filled call
  | deleteTreeData select compareRow counted =>
    obtain ⟨⟨ret, s₁⟩, run, rfl⟩ := Option.map_eq_some_iff.mp call
    have reset : { s with rowsCount := 0, dirtyRowsCount := 0 }.Good o :=
      good.counters s.affectedRows 0 0
    unfold deleteTreeData at run
    split_ifs at run with empty
    · obtain ⟨rfl, rfl⟩ := Prod.mk.inj (Option.some.inj run)
      exact ⟨good, filled⟩
    · obtain ⟨rfl, rfl⟩ := Prod.mk.inj (Option.some.inj run)
      exact ⟨reset, filled⟩
    · refine processAll_good ?_ reset filled run
      intro handle s ret s' good filled call
      exact deleteSubRawData_good good filled call
  | replaceTreeData row mAsync =>
    obtain ⟨⟨⟨ret, flag⟩, s₁⟩, run, rfl⟩ := Option.map_eq_some_iff.mp call
    exact replaceTreeData_good good filled run
  | copyTreeAll rows =>
    obtain rfl := Option.some.inj call
    exact copyTreeAll_good alloc good filled rows

theorem TreeData.run_good (good : s.Good o) (filled : s.Filled) {ops : List (Operation t)}
    (keeps : ∀ op ∈ ops, op.KeepsIndex) (call : s.run t alloc ops = some s') : s'.Good o ∧ s'.Filled := by
  induction ops generalizing s with
  | nil =>
    obtain rfl := Option.some.inj call
    exact ⟨good, filled⟩
  | cons op ops ih =>
    obtain ⟨s₁, first, rest⟩ := Option.bind_eq_some_iff.mp call
    obtain ⟨good₁, filled₁⟩ := step_good good filled (keeps op mem_cons_self) first
    exact ih good₁ filled₁ (fun op mem => keeps op (mem_cons_of_mem _ mem)) rest

theorem TreeData.init_run_good (o : t.Ordered) {calls : Nat} {ops : List (Operation t)}
    (keeps : ∀ op ∈ ops, op.KeepsIndex) (call : (TreeData.doInit calls).run t alloc ops = some s) :
    s.Good o ∧ s.Filled :=
  run_good (.doInit o calls) (by simp [Filled, TreeData.doInit, records]) keeps call

/-- The chunks of a heap hold a state: `place` is the handle of a record, and `shape` the tree of
the nodes. -/
structure TreeData.Represents (s : TreeData ρ K) (heap : Data.Heap) (d : Data.TreeData)
    (place : Nat → Data.Handle) (shape : AvlTree (Data.Handle × List Data.Handle)) : Prop where
  treeSize : d.treeSize = s.treeSize
  rowCount : d.rowCount = s.rowCount
  spans : Data.Spans heap shape d.rootHandle
  items : shape.map Prod.snd = s.root.map (map fun r => place r.handle)
  apart : (Data.invalidHandle :: d.handle :: Data.chunks shape).Nodup

theorem mem_chunks {shape : AvlTree (Data.Handle × List Data.Handle)} {h : Data.Handle}
    (item : h ∈ records (shape.map Prod.snd)) : h ∈ Data.chunks shape := by
  induction shape with
  | nil => cases item
  | node left right balance payload ihLeft ihRight =>
    rw [AvlTree.map, records_node, mem_append, mem_append] at item
    rw [Data.chunks, mem_append, mem_cons, mem_append]
    rcases item with inLeft | here | inRight
    · exact .inr (.inr (.inl (ihLeft inLeft)))
    · exact .inl here
    · exact .inr (.inr (.inr (ihRight inRight)))

/-- Whatever operations have led to a state, the generic view of its header chunk counts the rows
and the bytes, and destroys the records with the nodes. -/
theorem dataChunk_run (o : t.Ordered) {calls : Nat} {ops : List (Operation t)}
    (keeps : ∀ op ∈ ops, op.KeepsIndex)
    (call : (TreeData.doInit calls).run t alloc ops = some s) {w : Data.World} {h : Data.Handle}
    {size : Nat} {mem : Nat → UInt8} {d : Data.TreeData} {place : Nat → Data.Handle}
    {shape : AvlTree (Data.Handle × List Data.Handle)}
    (chunk : w.heap h = some ⟨size, .bytes mem⟩) (attach : Data.TreeData.doAttach w h = .ok d)
    (represents : s.Represents w.heap d place shape) (index : Data.tableIndex mem = 0) :
    Data.DataChunk.totalRows mem = s.rows.card % 2 ^ 32 ∧
      (s.freesNoted = true → Data.DataChunk.askForDestroySize w h mem =
        (sizeofTtreeNode * nodes s.root + chunkBytes (records s.root) + d.rootSize) % 2 ^ 32) ∧
      ∃ heap, Data.DataChunk.destory s.root.height w h mem = (0, heap) ∧ heap h = none ∧
        ∀ r ∈ records s.root, heap (place r.handle) = none := by
  obtain ⟨good, -⟩ := init_run_good o keeps call
  obtain ⟨-, rfl, present, -⟩ := Data.TreeData.doAttach_ok chunk attach
  have deep : shape.height = s.root.height := by
    rw [← AvlTree.height_map Prod.snd, represents.items, AvlTree.height_map]
  refine ⟨?_, fun noted => ?_, _, (Data.destory_of_attach chunk attach index _).trans
    (Data.TreeData.destory_released represents.spans represents.apart present deep.le),
    if_pos mem_cons_self, fun r mem => if_pos (mem_cons_of_mem _ (mem_chunks ?_))⟩
  · rw [Data.totalRows_of_attach chunk attach, represents.rowCount]
    exact good.keeps.rowCount
  · rw [Data.askForDestroySize_of_attach chunk attach index, Data.TreeData.askForDestroySize,
      if_neg present, represents.treeSize, good.keeps.treeSize noted]
    exact Nat.mod_add_mod _ _ _
  · rw [represents.items, records, AvlTree.inorder_map, ← map_flatten]
    exact mem_map_of_mem mem

end Exact

/-! ### Rows that are numbers -/

/-- A table whose rows are their index values. -/
def numberTable : TreeTable Nat Nat where
  rowSize _ := 5
  rowSize_lt _ := by decide
  index := id
  keyCompare a b := if a < b then -1 else if a = b then 0 else 1
  sameUniq a b := a = b
  indexPartOfUniqField := true

theorem numberTable_ordered : numberTable.Ordered := by
  have sign : ∀ a b : Nat, (numberTable.keyCompare a b).bmod (2 ^ 32) =
      if a < b then -1 else if a = b then 0 else 1 := by
    intro a b
    unfold numberTable
    dsimp only
    split_ifs <;> decide
  refine ⟨fun a b => ?_, fun a b => ?_, fun a => by simp [numberTable]⟩
  · rw [sign]
    split_ifs with lt eq
    · simp [lt]
    · simp [eq]
    · simp [lt]
  · rw [sign]
    split_ifs with lt eq
    · simp [ne_of_lt lt]
    · simp [eq]
    · simp [eq]

/-- An allocator that gives what is asked for and moves nothing. -/
def exactAllocator : Allocator where
  malloc _ size := if size < 2 ^ 32 then some size else none
  reAlloc _ size := if size < 2 ^ 32 then some (size, false) else none
  malloc_covers _ size usable answer := by
    split_ifs at answer with fits
    obtain rfl := Option.some.inj answer
    exact ⟨le_refl _, fits⟩
  reAlloc_covers _ size usable moved answer := by
    split_ifs at answer with fits
    obtain ⟨rfl, -⟩ := Prod.mk.inj (Option.some.inj answer)
    exact ⟨le_refl _, fits⟩

/-- A node of the T-tree that is freed without notice stays in `tree_size_`. -/
example : ∃ s, (doInit 0).run numberTable exactAllocator
    [.insertRow 7 true, .deleteTreeData (fun _ => [0]) (fun _ => true) false] = some s ∧
    records s.root = [] ∧ s.treeSize = sizeofTtreeNode :=
  ⟨_, rfl, rfl, by decide⟩

end Dtc.Tree
