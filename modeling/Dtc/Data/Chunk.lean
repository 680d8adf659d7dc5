import Dtc.Library.AvlTree
import Dtc.Raw.Cursor

/-!
# Data chunks

A node of the cache points to one chunk. `RawData` writes it as a flat row buffer,
`TreeData` as the header `RootData` of a T-tree whose nodes and records are chunks
of their own. Both store the index of their table definition in the top bit of the
type byte. `DataChunk` looks at such a chunk without knowing which class wrote it.

The heap maps a handle to the chunk it denotes. A T-tree node is a chunk with the
handles it holds; what else a chunk contains is a memory of bytes.
-/

namespace Dtc.Data

open Library Memory List
open Raw (RawData TableDefinition Grant)

abbrev Handle := Nat

/-- `INVALID_HANDLE`. -/
def invalidHandle : Handle := 0

/-- What a chunk holds: bytes, or a `TtreeNode` with its used items. -/
inductive Cell
  | bytes (mem : Nat → UInt8)
  | node (hLeft hRight : Handle) (items : List Handle)

/-- An allocated chunk. -/
structure Chunk where
  size : Nat
  cell : Cell

abbrev Heap := Handle → Option Chunk

/-- `Free`. -/
def free (heap : Heap) (h : Handle) : Int × Heap :=
  if h = invalidHandle then (0, heap)
  else
    match heap h with
    | some _ => (0, Function.update heap h none)
    | none => (-1, heap)

/-- The state the classes share: the heap, the two table definitions, and what the
allocator answers to `ask_for_destroy_size`. -/
structure World where
  heap : Heap
  tables : Nat → Option TableDefinition
  ask : Heap → Handle → Nat

/-- `sizeof(RawFormat)`, and the offset of its key. -/
def rawHeader : Nat := 16

/-- `sizeof(RootData)`, and the offset of its key. -/
def rootHeader : Nat := 32

/-- `DATA_TYPE_RAW`. -/
def dataTypeRaw : UInt8 := 0

/-- `DATA_TYPE_TREE_ROOT`. -/
def dataTypeTreeRoot : UInt8 := 1

/-- The table index in a type byte. -/
def tableIndex (mem : Nat → UInt8) : Nat := (mem 0).toNat / 128

/-- `_TtreeNode::destory`. The recursion follows the handles that are stored in the
heap, to the given depth. -/
def destoryNode : Nat → Heap → Handle → Heap
  | 0, heap, _ => heap
  | depth + 1, heap, hNode =>
    if hNode = invalidHandle then heap
    else
      match heap hNode with
      | some ⟨_, .node hLeft hRight items⟩ =>
        let heap := items.foldl (fun heap item => (free heap item).2) heap
        let heap := (free heap hNode).2
        destoryNode depth (destoryNode depth heap hLeft) hRight
      | _ => heap

/-- A `TreeData` object attached to a chunk, with the fields of the header that are
used here. -/
structure TreeData where
  handle : Handle
  rootSize : Nat
  treeSize : Nat
  rowCount : Nat
  rootHandle : Handle

namespace TreeData

/-- The header that `do_init` writes: counters of zero, one request, no root. The time
stamps are left as they are. -/
def rootBytes (fresh : Nat → UInt8) (type : UInt8) : Nat → UInt8 :=
  store (store fresh 0 (type :: leBytes 16 0 ++ [1])) 24 (leBytes 8 invalidHandle)

/-- `do_init` with the chunk that `Malloc` gave. The type byte is written before
`nodeIdx` is looked at. -/
def doInit (heap : Heap) (handle : Handle) (grant : Grant) (keySize : Nat) (key : List UInt8)
    (tableIndex nodeIdx : Int) : Int × Heap :=
  let ks := if keySize ≠ 0 then keySize else 1 + (key.headD 0).toNat
  let mem := rootBytes grant.fresh
    (UInt8.ofNat ((tableIndex % 2).toNat * 128) + dataTypeTreeRoot)
  let tableIndex := if nodeIdx ≠ -1 then nodeIdx else tableIndex
  if tableIndex ≠ 0 ∧ tableIndex ≠ 1 then
    (-100, Function.update heap handle (some ⟨grant.usable, .bytes mem⟩))
  else
    let mem := store mem rootHeader (key.take ks)
    (0, Function.update heap handle (some ⟨grant.usable, .bytes mem⟩))

/-- `do_attach`. -/
def doAttach (w : World) (h : Handle) : Except Int TreeData :=
  match w.heap h with
  | some ⟨size, .bytes mem⟩ =>
    match w.tables (tableIndex mem) with
    | none => .error (-1)
    | some _ =>
      if size = 0 then .error (-1)
      else if (mem 0).toNat % 128 ≠ dataTypeTreeRoot.toNat then .error (-2)
      else
        .ok { handle := h, rootSize := size, treeSize := load mem 1 4,
              rowCount := load mem 13 4, rootHandle := load mem 24 8 }
  | _ => .error (-1)

/-- `destory`, for trees up to a depth. -/
def destory (depth : Nat) (heap : Heap) (d : TreeData) : Int × Heap :=
  if d.rootSize = 0 then (-1, heap)
  else (0, (free (destoryNode depth heap d.rootHandle) d.handle).2)

/-- `ask_for_destroy_size`. -/
def askForDestroySize (d : TreeData) : Nat :=
  if d.rootSize = 0 then 2 ^ 32 - 1 else add32 d.treeSize d.rootSize

end TreeData

/-! ### The generic view -/

namespace DataChunk

/-- `base_size`. -/
def baseSize (mem : Nat → UInt8) : Nat := if mem 0 = dataTypeRaw then rawHeader else rootHeader

/-- `head_size`. -/
def headSize (mem : Nat → UInt8) : Nat := if mem 0 = dataTypeRaw then rawHeader else rootHeader

/-- `total_rows`: `row_count_` of `RawFormat` or of `RootData`. -/
def totalRows (mem : Nat → UInt8) : Nat :=
  if mem 0 = dataTypeRaw then load mem 5 4 else load mem 13 4

/-- `destory`. -/
def destory (depth : Nat) (w : World) (h : Handle) (mem : Nat → UInt8) : Int × Heap :=
  if mem 0 = dataTypeRaw then free w.heap h
  else if mem 0 = dataTypeTreeRoot then
    match TreeData.doAttach w h with
    | .error ret => (ret, w.heap)
    | .ok d => d.destory depth w.heap
  else (-1, w.heap)

/-- `ask_for_destroy_size`. -/
def askForDestroySize (w : World) (h : Handle) (mem : Nat → UInt8) : Nat :=
  if mem 0 = dataTypeRaw then w.ask w.heap h
  else if mem 0 = dataTypeTreeRoot then
    match TreeData.doAttach w h with
    | .error _ => 0
    | .ok d => d.askForDestroySize
  else 0

end DataChunk

/-! ### The typed view -/

/-- The typed class of a chunk, after its `do_attach`. -/
inductive Typed
  | raw (s : RawData)
  | tree (d : TreeData)

namespace Typed

/-- The bytes in front of the key. -/
def headSize : Typed → Nat
  | raw s => s.keyStart
  | tree _ => rootHeader

/-- `total_rows`. -/
def totalRows : Typed → Nat
  | raw s => s.rowCount
  | tree d => d.rowCount

/-- `destory`. -/
def destory (depth : Nat) (w : World) (h : Handle) : Typed → Int × Heap
  | raw _ => free w.heap h
  | tree d => d.destory depth w.heap

/-- What a destruction gives back. `RawData` owns one chunk and leaves the answer to
the allocator. -/
def askForDestroySize (w : World) (h : Handle) : Typed → Nat
  | raw _ => w.ask w.heap h
  | tree d => d.askForDestroySize

end Typed

/-- A typed class has attached itself to the chunk at `h`. -/
inductive Attached (w : World) (h : Handle) (mem : Nat → UInt8) : Typed → Prop
  | raw {before after : RawData} {t : TableDefinition}
      (chunk : w.heap h = some ⟨before.size, .bytes mem⟩) (same : before.mem = mem)
      (table : w.tables (tableIndex mem) = some t)
      (attach : before.doAttach (t.keyFields - 1) t.keyFormat = (0, after)) :
      Attached w h mem (.raw after)
  | tree {size : Nat} {d : TreeData} (chunk : w.heap h = some ⟨size, .bytes mem⟩)
      (attach : TreeData.doAttach w h = .ok d) : Attached w h mem (.tree d)

/-- A handle denotes a T-tree whose nodes are chunks of the heap. The payload of a
node is its own handle and its items. -/
def Spans (heap : Heap) : AvlTree (Handle × List Handle) → Handle → Prop
  | .nil, h => h = invalidHandle
  | .node left right _ (n, items), h =>
    h = n ∧ ∃ size hLeft hRight, heap n = some ⟨size, .node hLeft hRight items⟩ ∧
      Spans heap left hLeft ∧ Spans heap right hRight

/-- The chunks of a T-tree: its nodes and their records. -/
def chunks : AvlTree (Handle × List Handle) → List Handle
  | .nil => []
  | .node left right _ (n, items) => items ++ n :: (chunks left ++ chunks right)

/-- The chunks that belong to the data at `h`, with the depth of its tree. -/
inductive Owns (w : World) (h : Handle) : Typed → List Handle → Nat → Prop
  | raw {s : RawData} (valid : h ≠ invalidHandle) : Owns w h (.raw s) [h] 0
  | tree {d : TreeData} {t : AvlTree (Handle × List Handle)} (spans : Spans w.heap t d.rootHandle)
      (apart : (invalidHandle :: h :: chunks t).Nodup) :
      Owns w h (.tree d) (h :: chunks t) t.height

/-- The generic accessors and the typed class give the same answers, and the generic
destruction frees exactly the chunks that the data owns. -/
structure Agrees (depth : Nat) (w : World) (h : Handle) (mem : Nat → UInt8) (typed : Typed)
    (owned : List Handle) : Prop where
  baseSize : DataChunk.baseSize mem = typed.headSize
  headSize : DataChunk.headSize mem = typed.headSize
  totalRows : DataChunk.totalRows mem = typed.totalRows
  destory : DataChunk.destory depth w h mem = typed.destory depth w h
  askForDestroySize : DataChunk.askForDestroySize w h mem = typed.askForDestroySize w h
  released : (DataChunk.destory depth w h mem).2 = fun x => if x ∈ owned then none else w.heap x

/-- The heap without some chunks. -/
def without (heap : Heap) (hs : List Handle) : Heap := fun x => if x ∈ hs then none else heap x

theorem without_nil (heap : Heap) : without heap [] = heap := by
  funext x
  simp [without]

theorem without_without (heap : Heap) (hs ks : List Handle) :
    without (without heap hs) ks = without heap (hs ++ ks) := by
  funext x
  simp only [without, mem_append]
  by_cases first : x ∈ hs <;> by_cases second : x ∈ ks <;> simp [first, second]

theorem without_congr {hs ks : List Handle} (heap : Heap) (same : ∀ x, x ∈ hs ↔ x ∈ ks) :
    without heap hs = without heap ks := by
  funext x
  simp only [without, same x]

variable {h : Handle}

theorem free_heap (heap : Heap) (valid : h ≠ invalidHandle) :
    (free heap h).2 = without heap [h] := by
  funext x
  unfold free without
  rw [if_neg valid]
  cases at_h : heap h with
  | some chunk => by_cases here : x = h <;> simp [here]
  | none =>
    by_cases here : x = h
    · simp [here, at_h]
    · simp [here]

theorem foldl_free (heap : Heap) {items : List Handle} (valid : invalidHandle ∉ items) :
    items.foldl (fun heap item => (free heap item).2) heap = without heap items := by
  induction items generalizing heap with
  | nil => rw [foldl_nil, without_nil]
  | cons item items ih =>
    rw [mem_cons, not_or] at valid
    rw [foldl_cons, free_heap heap (Ne.symm valid.1), ih _ valid.2, without_without]
    rfl

variable {t : AvlTree (Handle × List Handle)}

/-- Freeing other chunks leaves a tree where it is. -/
theorem Spans.without {heap : Heap} (spans : Spans heap t h) (hs : List Handle)
    (apart : ∀ x ∈ chunks t, x ∉ hs) : Spans (without heap hs) t h := by
  induction t generalizing h with
  | nil => exact spans
  | node left right balance payload ihLeft ihRight =>
    obtain ⟨n, items⟩ := payload
    obtain ⟨rfl, size, hLeft, hRight, cell, spansLeft, spansRight⟩ := spans
    refine ⟨rfl, size, hLeft, hRight, ?_, ihLeft spansLeft fun x hx => ?_,
      ihRight spansRight fun x hx => ?_⟩
    · have here : h ∉ hs := apart h (by simp [chunks])
      simpa [Data.without, here] using cell
    · exact apart x (by simp [chunks, hx])
    · exact apart x (by simp [chunks, hx])

/-- The recursion over the handles of a tree frees its nodes and its records. -/
theorem destoryNode_spans {heap : Heap} (spans : Spans heap t h)
    (apart : (invalidHandle :: chunks t).Nodup) (depth : Nat) (deep : t.height ≤ depth) :
    destoryNode depth heap h = without heap (chunks t) := by
  induction t generalizing heap h depth with
  | nil =>
    rw [show h = invalidHandle from spans]
    cases depth with
    | zero => exact (without_nil heap).symm
    | succ depth => rw [destoryNode, if_pos rfl]; exact (without_nil heap).symm
  | node left right balance payload ihLeft ihRight =>
    obtain ⟨n, items⟩ := payload
    obtain ⟨rfl, size, hLeft, hRight, cell, spansLeft, spansRight⟩ := spans
    rw [AvlTree.height_node] at deep
    cases depth with
    | zero => exact absurd deep (by omega)
    | succ depth =>
      simp only [chunks, nodup_cons, nodup_append, mem_append, mem_cons, not_or] at apart
      obtain ⟨⟨itemsValid, valid, leftValid, rightValid⟩, -,
        ⟨⟨hereLeft, hereRight⟩, nodupLeft, nodupRight, leftRight⟩, itemsApart⟩ := apart
      -- the children are read after the items and the node itself are gone
      have first := ihLeft (spansLeft.without (items ++ [h]) fun x hx gone => by
        rcases mem_append.mp gone with gone | gone
        · exact itemsApart x gone x (.inr (.inl hx)) rfl
        · exact hereLeft (mem_singleton.mp gone ▸ hx))
        (nodup_cons.mpr ⟨leftValid, nodupLeft⟩) depth (by omega)
      have second := ihRight (spansRight.without ((items ++ [h]) ++ chunks left) fun x hx gone => by
          simp only [mem_append, mem_singleton] at gone
          rcases gone with (gone | gone) | gone
          · exact itemsApart x gone x (.inr (.inr hx)) rfl
          · exact hereRight (gone ▸ hx)
          · exact leftRight x gone x hx rfl)
        (nodup_cons.mpr ⟨rightValid, nodupRight⟩) depth (by omega)
      rw [destoryNode, if_neg (Ne.symm valid), cell]
      dsimp only
      rw [foldl_free heap itemsValid, free_heap _ (Ne.symm valid), without_without, first,
        without_without, second, without_without]
      refine without_congr heap fun x => ?_
      simp only [chunks, mem_append, mem_cons, not_mem_nil, or_false]
      tauto

variable {s : RawData}

open TreeData

/-- What an attached tree tells about the bytes of its chunk. -/
theorem TreeData.doAttach_ok {w : World} {size : Nat} {mem : Nat → UInt8} {d : TreeData}
    (chunk : w.heap h = some ⟨size, .bytes mem⟩) (attach : doAttach w h = .ok d) :
    (mem 0).toNat % 128 = 1 ∧ d.handle = h ∧ d.rootSize ≠ 0 ∧ d.rowCount = load mem 13 4 := by
  unfold doAttach at attach
  rw [chunk] at attach
  dsimp only at attach
  split at attach
  · exact nomatch attach
  · split_ifs at attach with empty type
    obtain rfl := Except.ok.inj attach
    exact ⟨not_not.mp type, rfl, empty, rfl⟩

theorem byte_eq_of_tableIndex {mem : Nat → UInt8} (index : tableIndex mem = 0) :
    (mem 0).toNat = (mem 0).toNat % 128 := by
  unfold tableIndex at index
  omega

/-- A tree is destroyed with every chunk it owns. -/
theorem TreeData.destory_released {heap : Heap} {d : TreeData} (spans : Spans heap t d.rootHandle)
    (apart : (invalidHandle :: d.handle :: chunks t).Nodup) (attached : d.rootSize ≠ 0)
    {depth : Nat} (deep : t.height ≤ depth) :
    d.destory depth heap = (0, without heap (d.handle :: chunks t)) := by
  have valid : d.handle ≠ invalidHandle := fun eq => by simp [eq] at apart
  have below : (invalidHandle :: chunks t).Nodup :=
    apart.sublist ((sublist_cons_self d.handle (chunks t)).cons_cons invalidHandle)
  unfold destory
  rw [if_neg attached, destoryNode_spans spans below depth deep, free_heap _ valid, without_without]
  refine congrArg (Prod.mk 0) (without_congr heap fun x => ?_)
  simp only [mem_append, mem_cons, not_mem_nil, or_false]
  tauto

section Init
variable (fresh : Nat → UInt8) (type : UInt8) (key : List UInt8)

theorem rootBytes_type : store (rootBytes fresh type) rootHeader key 0 = type := by
  rw [store_outside (.inl (by decide)), rootBytes, store_outside (.inl (by decide))]
  simp [store]

theorem rootBytes_root :
    load (store (rootBytes fresh type) rootHeader key) 24 8 = invalidHandle := by
  rw [load_store_apart (.inl (by decide)), rootBytes, load_store (by decide)]

end Init

theorem typeByte_toNat {index : Nat} (range : index < 2) :
    (UInt8.ofNat (((index : Int) % 2).toNat * 128) + dataTypeTreeRoot).toNat = index * 128 + 1 := by
  obtain rfl | rfl : index = 0 ∨ index = 1 := by omega
  · rfl
  · rfl

/-- A chunk fresh from `do_init` is one that `TreeData` attaches itself to. It owns
nothing but itself, and its table index is the one of the object, whatever `nodeIdx` is. -/
theorem TreeData.doInit_attached (w : World) (valid : h ≠ invalidHandle) {grant : Grant}
    (nonempty : grant.usable ≠ 0) {keySize : Nat} {key : List UInt8} {index : Nat}
    (indexRange : index < 2) {nodeIdx : Int} (node : nodeIdx = -1 ∨ nodeIdx = 0 ∨ nodeIdx = 1)
    {t : TableDefinition} (table : w.tables index = some t) :
    ∃ heap mem d, doInit w.heap h grant keySize key index nodeIdx = (0, heap) ∧
      Attached { w with heap := heap } h mem (.tree d) ∧
      Owns { w with heap := heap } h (.tree d) [h] 0 ∧ tableIndex mem = index := by
  have accepted : ¬ ((if nodeIdx ≠ -1 then nodeIdx else index) ≠ 0 ∧
      (if nodeIdx ≠ -1 then nodeIdx else index) ≠ 1) := by split_ifs <;> omega
  have typeByte := typeByte_toNat indexRange
  rw [doInit, if_neg accepted]
  generalize UInt8.ofNat (((index : Int) % 2).toNat * 128) + dataTypeTreeRoot = type at typeByte
  generalize key.take _ = stored
  have first := rootBytes_type grant.fresh type stored
  have root := rootBytes_root grant.fresh type stored
  generalize store (rootBytes grant.fresh type) rootHeader stored = mem at first root
  have at_index : tableIndex mem = index := by
    rw [tableIndex, first, typeByte]
    omega
  have type128 : (mem 0).toNat % 128 = dataTypeTreeRoot.toNat := by
    rw [first, typeByte, Nat.mul_add_mod_of_lt (by decide)]
    rfl
  have chunk := Function.update_self h (some (Chunk.mk grant.usable (.bytes mem))) w.heap
  refine ⟨_, mem, ⟨h, grant.usable, load mem 1 4, load mem 13 4, load mem 24 8⟩, rfl,
    .tree chunk ?_, .tree (t := .nil) root ?_, at_index⟩
  · simp only [doAttach, chunk, at_index, table]
    rw [if_neg nonempty, if_neg (not_not.mpr type128)]
  · exact nodup_cons.mpr ⟨by simpa [chunks] using valid.symm, nodup_singleton h⟩

open DataChunk

section Tree
variable {w : World} {size : Nat} {mem : Nat → UInt8} {d : TreeData}
  (chunk : w.heap h = some ⟨size, .bytes mem⟩) (attach : TreeData.doAttach w h = .ok d)
include chunk attach

theorem not_raw_of_attach : mem 0 ≠ dataTypeRaw := by
  intro zero
  have type := (doAttach_ok chunk attach).1
  rw [zero] at type
  exact absurd type (by decide)

theorem totalRows_of_attach : totalRows mem = d.rowCount := by
  rw [totalRows, if_neg (not_raw_of_attach chunk attach), (doAttach_ok chunk attach).2.2.2]

theorem treeRoot_of_attach (index : tableIndex mem = 0) : mem 0 = dataTypeTreeRoot := by
  rw [← UInt8.toNat_inj, byte_eq_of_tableIndex index, (doAttach_ok chunk attach).1]
  rfl

theorem destory_of_attach (index : tableIndex mem = 0) (depth : Nat) :
    destory depth w h mem = d.destory depth w.heap := by
  rw [DataChunk.destory, if_neg (not_raw_of_attach chunk attach),
    if_pos (treeRoot_of_attach chunk attach index), attach]

theorem askForDestroySize_of_attach (index : tableIndex mem = 0) :
    askForDestroySize w h mem = d.askForDestroySize := by
  rw [DataChunk.askForDestroySize, if_neg (not_raw_of_attach chunk attach),
    if_pos (treeRoot_of_attach chunk attach index), attach]

end Tree

/-- For every chunk that one of the typed classes attaches itself to, the generic
accessors agree with the typed class, and the generic destruction frees what the
data owns, if and only if the chunk was written under table index 0. -/
theorem dataChunk_agrees_iff {w : World} {h : Handle} {mem : Nat → UInt8} {typed : Typed}
    {owned : List Handle} {height depth : Nat} (attached : Attached w h mem typed)
    (owns : Owns w h typed owned height) (deep : height ≤ depth) :
    Agrees depth w h mem typed owned ↔ tableIndex mem = 0 := by
  cases attached with
  | @raw before after t chunk same table attach =>
    obtain ⟨type, start, count, -⟩ := RawData.doAttach_ok attach
    rw [same] at type count
    cases owns with
    | raw valid =>
      constructor
      · intro agrees
        -- the header of the other class is longer
        have base := agrees.baseSize
        by_cases zero : mem 0 = dataTypeRaw
        · simp [tableIndex, zero, dataTypeRaw]
        · rw [baseSize, if_neg zero, Typed.headSize, start] at base
          exact absurd base (by decide)
      · intro index
        have zero : mem 0 = dataTypeRaw := by
          rw [← UInt8.toNat_inj, byte_eq_of_tableIndex index, type]
          rfl
        have freed : destory depth w h mem = free w.heap h := by
          rw [DataChunk.destory, if_pos zero]
        refine ⟨?_, ?_, ?_, freed, ?_, ?_⟩
        · rw [baseSize, if_pos zero, rawHeader, Typed.headSize, start]
        · rw [headSize, if_pos zero, rawHeader, Typed.headSize, start]
        · rw [totalRows, if_pos zero, Typed.totalRows, count]
        · rw [DataChunk.askForDestroySize, if_pos zero, Typed.askForDestroySize]
        · rw [freed, free_heap w.heap valid]
          rfl
  | @tree size d chunk attach =>
    obtain ⟨-, handle, present, -⟩ := doAttach_ok chunk attach
    cases owns with
    | @tree d t spans apart =>
      subst handle
      have typedRelease := destory_released spans apart present deep
      have notRaw := not_raw_of_attach chunk attach
      constructor
      · intro agrees
        -- a type byte with the top bit is refused
        have same := agrees.destory
        rw [DataChunk.destory, if_neg notRaw, Typed.destory, typedRelease] at same
        by_cases one : mem 0 = dataTypeTreeRoot
        · simp [tableIndex, one, dataTypeTreeRoot]
        · rw [if_neg one] at same
          exact absurd (Prod.mk.inj same).1 (by decide)
      · intro index
        have freed := destory_of_attach chunk attach index depth
        refine ⟨?_, ?_, ?_, freed, ?_, ?_⟩
        · rw [baseSize, if_neg notRaw, Typed.headSize]
        · rw [headSize, if_neg notRaw, Typed.headSize]
        · exact totalRows_of_attach chunk attach
        · exact askForDestroySize_of_attach chunk attach index
        · rw [freed, typedRelease]
          rfl

/-- The header of a tree with its root at 16. -/
def treeBytes : Nat → UInt8 :=
  store (TreeData.rootBytes (fun _ => 0) dataTypeTreeRoot) 24 (leBytes 8 16)

/-- A tree with one node and one record: the header at 8, the node at 16, the record
at 24. -/
def treeWorld : World where
  heap h :=
    if h = 8 then some ⟨48, .bytes treeBytes⟩
    else if h = 16 then some ⟨192, .node 0 0 [24]⟩
    else if h = 24 then some ⟨16, .bytes fun _ => 0⟩
    else none
  tables _ := some Raw.blobTable
  ask _ _ := 0

theorem TreeData.doInit_attached_root :
    ∃ heap mem d, doInit treeWorld.heap 32 ⟨48, fun _ => 0⟩ 0 [1, 7] 1 0 = (0, heap) ∧
      Attached { treeWorld with heap := heap } 32 mem (.tree d) ∧
      Owns { treeWorld with heap := heap } 32 (.tree d) [32] 0 ∧ tableIndex mem = 1 :=
  doInit_attached treeWorld (by decide) (by decide) (by decide) (by decide) rfl

theorem dataChunk_agrees_tree :
    ∃ typed, Attached treeWorld 8 treeBytes typed ∧ Owns treeWorld 8 typed [8, 24, 16] 1 ∧
      (Agrees 1 treeWorld 8 treeBytes typed [8, 24, 16] ↔ tableIndex treeBytes = 0) := by
  have attached : Attached treeWorld 8 treeBytes (.tree ⟨8, 48, 0, 0, 16⟩) :=
    .tree rfl rfl
  have spans : Spans treeWorld.heap (.node .nil .nil 0 (16, [24])) 16 :=
    ⟨rfl, 192, 0, 0, rfl, rfl, rfl⟩
  have apart : (invalidHandle :: 8 :: chunks (.node .nil .nil 0 (16, [24]))).Nodup := by decide
  have owns : Owns treeWorld 8 (.tree ⟨8, 48, 0, 0, 16⟩) [8, 24, 16] 1 := .tree spans apart
  exact ⟨_, attached, owns, dataChunk_agrees_iff attached owns le_rfl⟩

/-- A flat buffer without rows, written under table index 1. -/
def expandedChunk : RawData :=
  (RawData.init 0 4 [1, 2, 3, 4] 0 1 0 Raw.slackAllocator).toOption.get (by decide)

/-- A heap with this buffer at 8. -/
def expandedWorld : World where
  heap h := if h = 8 then some ⟨expandedChunk.size, .bytes expandedChunk.mem⟩ else none
  tables _ := some Raw.blobTable
  ask _ _ := 0

/-- Under table index 1 the generic view takes a flat buffer for a tree, and refuses to
free it. -/
theorem expanded_chunk_disagrees :
    RawData.init 0 4 [1, 2, 3, 4] 0 1 0 Raw.slackAllocator = .ok expandedChunk ∧
      (∃ s, Attached expandedWorld 8 expandedChunk.mem (.raw s) ∧
        Owns expandedWorld 8 (.raw s) [8] 0 ∧
        ¬ Agrees 0 expandedWorld 8 expandedChunk.mem (.raw s) [8]) ∧
      DataChunk.baseSize expandedChunk.mem = 32 ∧
      (DataChunk.destory 0 expandedWorld 8 expandedChunk.mem).1 = -1 := by
  have attach : (expandedChunk.doAttach 0 4).1 = 0 := by decide +kernel
  have attached : Attached expandedWorld 8 expandedChunk.mem
      (.raw (expandedChunk.doAttach 0 4).2) :=
    .raw rfl rfl rfl (Prod.ext attach rfl)
  have refused : (destory 0 expandedWorld 8 expandedChunk.mem).1 = -1 := by
    decide +kernel
  refine ⟨rfl, ⟨_, attached, .raw (by decide), fun agrees => ?_⟩, by decide +kernel, refused⟩
  rw [agrees.destory] at refused
  exact absurd refused (by decide +kernel)

end Dtc.Data
