import Dtc.Data.Process
import Dtc.Data.Chunk
import Dtc.Mem.Counters
import Dtc.Mem.Destroy

/-!
# Moving the data of a node

`buffer_nodehandlechange` moves the data of a node to another chunk, so that the arena gets less
fragmented: the bytes are copied to a buffer, the chunk is freed, a new one is allocated, and the bytes
are copied back. The data is attached as flat rows, and the result of `do_attach` is not looked at. The
size of the root of a tree is then taken to be zero: the root is freed, the node gets an empty chunk,
and the nodes and records of the tree are left without a reference.
-/

namespace Dtc.Chain

open Library Memory Mem
open Raw (RawData TableDefinition)

/-- `EC_KEY_NEEDED`. -/
def ecKeyNeeded : Int := 2032

/-- `EC_BAD_RAW_DATA`. -/
def ecBadRawData : Int := 2048

/-- `ER_KEY_NOT_FOUND`. -/
def erKeyNotFound : Int := 1032

/-- `ENOMEM`. -/
def enomem : Int := 12

/-- A new `RawData` object with the chunk of a handle. -/
def chunkOf (s : PtMalloc) (hHandle : Nat) : RawData where
  mem i := s.mem (hHandle + i)
  size := s.chunkSize hHandle
  dataSize := 0
  rowCount := 0
  keyIndex := 255
  keySize := 0
  keyStart := 0
  dataStart := 0
  rowOffset := 0
  offset := 0

section
variable (t : TableDefinition) (s : PtMalloc)

/-- `buffer_nodehandlechange`: the code (0 for success), the heap and the handle of the node.
`condition` is the number of fields of `request_condition()`, which a job whose request has none
gives only if it has served another request before. `node` is the handle of the node that was found;
`memory` tells whether the buffer could be allocated. The process dies, which is `none`, on a
condition that is not there, and if the length of the last copy, an `int`, is negative. -/
def nodeHandleChange (condition : Option Nat)
    (node : Option Nat) (memory : Bool) : Option (Int × PtMalloc × Option Nat) := do
  let numFields ← condition
  if numFields < 1 then some (-ecKeyNeeded, s, node)
  else
    match node with
    | none => some (-erKeyNotFound, s, node)
    | some nodeHandle =>
      if nodeHandle = invalidHandle then some (-ecBadRawData, s, node)
      else
        let raw := ((chunkOf s nodeHandle).doAttach (t.keyFields - 1) t.keyFormat).2
        if !memory then some (-enomem, s, node)
        else
          let privateBuff := slice raw.mem 0 raw.dataSize
          -- `destory`; a chunk of no size has not been attached
          let (ret, s) := if s.chunkSize nodeHandle = 0 then (0, s) else s.free nodeHandle
          if ret ≠ 0 then some (-enomem, s, node)
          else
            let (newHandle, s) := s.malloc raw.dataSize
            if newHandle = invalidHandle then some (-enomem, s, node)
            else if 2 ^ 31 ≤ raw.dataSize then none
            else some (0, { s with mem := store s.mem newHandle privateBuff }, some newHandle)

/-- The data of the node is flat. -/
def Flat (s : PtMalloc) (h : Nat) : Prop := (s.mem h).toNat % 128 = Data.dataTypeRaw.toNat

instance (s : PtMalloc) (h : Nat) : Decidable (Flat s h) := by
  unfold Flat
  infer_instance

/-- The bytes of a packed key. -/
def keyBytes (a : Nat) : Nat :=
  if t.keyFormat ≠ 0 then t.keyFormat else 1 + (s.mem a).toNat

/-- The size of the data in the chunk of the node: that of the flat rows, or of the root of a tree. -/
def nodeSize (h : Nat) : Nat :=
  if Flat s h then load s.mem (h + 1) 4 else Data.rootHeader + keyBytes t s (h + Data.rootHeader)

/-- The chunk holds the data of a node, flat or as a tree. -/
structure NodeData (h : Nat) : Prop where
  kind : Flat s h ∧ Data.rawHeader + keyBytes t s (h + Data.rawHeader) ≤ nodeSize t s h ∨
    (s.mem h).toNat % 128 = Data.dataTypeTreeRoot.toNat
  inside : nodeSize t s h ≤ s.chunkSize h

/-- The chunks of the handles are as they were. -/
def Intact (s s' : PtMalloc) (live : List Nat) : Prop :=
  ∀ g ∈ live, s'.chunkSize g = s.chunkSize g ∧ ∀ i < s.chunkSize g, s'.mem (g + i) = s.mem (g + i)

/-- What a request should leave behind, for a node with its data at `h`. -/
def Kept (live : List Nat) (h : Nat) : Option (Int × PtMalloc × Option Nat) → Prop
  | none => False
  | some (ret, s', node) =>
    if ret = 0 then
      -- one chunk has taken the place of the other, with the same bytes
      ∃ new, node = some new ∧ WellFormed s' (new :: live.erase h) ∧
        nodeSize t s h ≤ s'.chunkSize new ∧
        (∀ i < nodeSize t s h, s'.mem (new + i) = s.mem (h + i)) ∧ Intact s s' (live.erase h)
    else node = some h ∧ WellFormed s' live ∧ Intact s s' live

end

section Attach
variable (raw : RawData) (keyIdx keySize : Nat)

/-- `do_attach` turns down what is not flat, before it reads a size. -/
theorem doAttach_tree (some : raw.size ≠ 0) (tree : (raw.mem 0).toNat % 128 ≠ 0) :
    raw.doAttach keyIdx keySize = (-2, { raw with offset := 1 }) := by
  have typeByte : leNat (slice raw.mem 0 1) % 128 ≠ 0 := by simpa [slice, leNat] using tree
  unfold RawData.doAttach RawData.attachBody
  rw [if_neg some]
  simp only [RawData.getValue, bind, Except.bind, pure, Except.pure]
  rw [if_neg (by omega)]
  dsimp only
  rw [if_pos typeByte]

/-- The size of flat data is read from its header. -/
theorem doAttach_flat (flat : (raw.mem 0).toNat % 128 = 0) (range : raw.size < 2 ^ 32)
    (header : 16 + (if keySize ≠ 0 then keySize else 1 + (raw.mem 16).toNat) ≤ load raw.mem 1 4)
    (inside : load raw.mem 1 4 ≤ raw.size) :
    (raw.doAttach keyIdx keySize).2.dataSize = load raw.mem 1 4 ∧
      (raw.doAttach keyIdx keySize).2.mem = raw.mem := by
  have typeByte : leNat (slice raw.mem 0 1) % 128 = 0 := by simpa [slice, leNat] using flat
  unfold RawData.doAttach RawData.attachBody
  rw [if_neg (by omega)]
  simp only [RawData.getValue, RawData.skipSize, RawData.skipLen, bind, Except.bind, pure,
    Except.pure]
  rw [if_neg (by omega)]
  dsimp only
  rw [if_neg (not_not.mpr typeByte), if_neg (by omega)]
  dsimp only
  rw [if_neg (by omega)]
  dsimp only
  rw [if_neg (by omega)]
  dsimp only
  rw [if_neg (by omega)]
  dsimp only [Nat.zero_add, Nat.reduceAdd]
  rw [show leNat (slice raw.mem 1 4) = load raw.mem 1 4 from rfl, if_neg (not_lt.mpr inside),
    add32_eq (by omega), if_neg (by omega)]
  exact ⟨rfl, rfl⟩

end Attach

section Change
variable {t : TableDefinition} {s s' : PtMalloc} {live : List Nat} {U V W : List (Nat × Nat)}
  {h numFields : Nat}

theorem Intact.of_stays (before : Owns s V) (after : Owns s' W) (stays : Stays s s' U) (sub : U ⊆ V)
    (sub' : U ⊆ W) (handles : ∀ g ∈ live, g ∈ U.map fun e => e.1 + 8) : Intact s s' live := by
  intro g mem
  obtain ⟨⟨y, m⟩, inU, rfl⟩ := List.mem_map.mp (handles g mem)
  have size := (before.mem (sub inU)).usable
  rw [size, (after.mem (sub' inU)).usable]
  refine ⟨rfl, fun i hi => ?_⟩
  exact stays.keeps (y, m) inU (y + 8 + i) (by simp) (by simp only; omega)

/-- A heap has one set of live handles. -/
theorem wellFormed_length_eq {live' : List Nat} (wf : WellFormed s live) (wf' : WellFormed s live') :
    live.length = live'.length := by
  obtain ⟨bs, bins, heap, settled, handles⟩ := wf
  obtain ⟨bs', bins', heap', settled', handles'⟩ := wf'
  rw [heap.unique heap' settled settled'] at handles
  rw [handles.length_eq, handles'.length_eq]

/-- The size that the request takes the data to have. -/
theorem NodeData.attach (data : NodeData t s h) (range : s.chunkSize h < 2 ^ 32)
    (some : s.chunkSize h ≠ 0) :
    let raw := ((chunkOf s h).doAttach (t.keyFields - 1) t.keyFormat).2
    raw.dataSize = (if Flat s h then nodeSize t s h else 0) ∧ raw.mem = fun i => s.mem (h + i) := by
  by_cases flat : Flat s h
  · have size : load (chunkOf s h).mem 1 4 = nodeSize t s h := (if_pos flat).symm
    obtain ⟨-, header⟩ : Flat s h ∧ _ := data.kind.resolve_right fun tree => by
      rw [show (s.mem h).toNat % 128 = 0 from flat] at tree
      exact absurd tree (by decide)
    have inside := data.inside
    obtain ⟨dataSize, mem⟩ := doAttach_flat (chunkOf s h) (t.keyFields - 1) t.keyFormat flat
      range (size ▸ header) (size ▸ inside)
    rw [if_pos flat, ← size]
    exact ⟨dataSize, mem⟩
  · have tree : ((chunkOf s h).mem 0).toNat % 128 ≠ 0 := flat
    rw [doAttach_tree _ _ _ some tree, if_neg flat]
    exact ⟨rfl, rfl⟩

/-- The request for a node that is there, when the buffer is allocated. -/
theorem nodeHandleChange_live (wf : WellFormed s live) (mem : h ∈ live) (data : NodeData t s h)
    (key : 1 ≤ numFields) {n : Nat} (taken : (if Flat s h then nodeSize t s h else 0) = n) :
    let r := (s.free h).2.malloc n
    nodeHandleChange t s (some numFields) (some h) true =
      if r.1 = invalidHandle then some (-enomem, r.2, some h)
      else if 2 ^ 31 ≤ n then none
      else some (0, { r.2 with mem := store r.2.mem r.1 (slice (fun i => s.mem (h + i)) 0 n) },
        some r.1) := by
  obtain ⟨x, k, U, rfl, owns, -⟩ := wf.chunk mem
  obtain ⟨k_min, -, -, -, -⟩ := owns.bounds
  have usable := owns.usable
  have some : s.chunkSize (x + 8) ≠ 0 := by omega
  have range : s.chunkSize (x + 8) < 2 ^ 32 := by
    obtain ⟨l, b, r, bins, rfl, located⟩ := owns.locate
    have := located.heap.sized_of.fits
    omega
  obtain ⟨size, bytes⟩ := data.attach range some
  rw [taken] at size
  intro r
  unfold nodeHandleChange
  simp only [bind, Option.bind]
  rw [if_neg (by omega)]
  rw [if_neg (by simp [invalidHandle]), if_neg (by simp), if_neg some, owns.free.1, if_neg (by simp),
    size, bytes]

/-- When the new chunk for flat data can be allocated. -/
theorem NodeData.served {x k : Nat} (data : NodeData t s (x + 8)) (owns : Owns s ((x, k) :: U)) :
    ((s.free (x + 8)).2.malloc (nodeSize t s (x + 8))).1 ≠ invalidHandle ↔
      requestOutOfRange (nodeSize t s (x + 8)) = false ∧ (x + k ≠ s.hTop ∨
        s.joinedStart (x + 8) + request2size (nodeSize t s (x + 8)) + minSize < s.tSize ∨
        s.Holds (s.otherChunks (x + 8)) (request2size (nodeSize t s (x + 8)))) := by
  have inside := data.inside
  rw [owns.usable] at inside
  obtain ⟨l, b, r, bins, rfl, located⟩ := owns.locate
  exact located.free_malloc_iff fun some => le_trans inside (located.le_ask some)

/-- A request that fails after the chunk is freed. -/
theorem not_kept_freed (wf : WellFormed s' (live.erase h)) (mem : h ∈ live) :
    ¬Kept t s live h (some (-enomem, s', some h)) := by
  rintro ⟨-, wf', -⟩
  have := wellFormed_length_eq wf wf'
  have := List.length_erase_of_mem mem
  have := List.length_pos_of_mem mem
  omega

/-- The root of a tree is not in the chunk that a request for no bytes gives. -/
theorem not_kept_tree (data : NodeData t s h) (tree : ¬Flat s h) {new : Nat}
    (first : s'.chunkSize new = request2size 0 - 4 ∨ (s'.mem new).toNat % 8 = 0) :
    ¬Kept t s live h (some (0, s', some new)) := by
  rintro ⟨_, ⟨⟩, -, inside, bytes, -⟩
  have size : nodeSize t s h = Data.rootHeader + keyBytes t s (h + Data.rootHeader) := if_neg tree
  have key : (s.mem h).toNat % 128 = 1 := data.kind.resolve_left fun flat => tree flat.1
  obtain top | bin := first
  · rw [size, top] at inside
    have : request2size 0 - 4 = 20 := by decide
    have : Data.rootHeader = 32 := rfl
    omega
  · have same := bytes 0 (by rw [size]; exact Nat.add_pos_left (by decide) _)
    rw [Nat.add_zero, Nat.add_zero] at same
    rw [same] at bin
    omega

/-- Flat data is in its new chunk, and nothing else has changed. -/
theorem kept_flat {x k y k' : Nat} {m : Nat → UInt8} (owns : Owns s ((x, k) :: U))
    (handles : (live.erase (x + 8)).Perm (U.map fun e => e.1 + 8)) (owns' : Owns s' ((y, k') :: U))
    (stays : Stays s s' U) (inside : nodeSize t s (x + 8) + 4 ≤ k')
    (written : m = store s'.mem (y + 8)
      (slice (fun i => s.mem (x + 8 + i)) 0 (nodeSize t s (x + 8)))) :
    Kept t s live (x + 8) (some (0, { s' with mem := m }, some (y + 8))) := by
  have agree : Agree s' { s' with mem := m } := ⟨rfl, rfl, rfl, rfl, rfl⟩
  obtain ⟨owns₂, frame, -⟩ := owns'.write agree rfl (fun i hi => by
    rw [written]
    exact store_outside (by rw [length_slice]; omega))
  refine ⟨y + 8, rfl, ?_, ?_, fun i hi => ?_, ?_⟩
  · exact wellFormed_iff_owns.mpr ⟨_, owns₂, handles.cons _⟩
  · rw [owns₂.usable]
    omega
  · dsimp only
    rw [written, store, if_pos (by rw [length_slice]; omega), Nat.add_sub_cancel_left, getD_slice hi,
      Nat.zero_add]
  · refine Intact.of_stays owns owns₂ (stays.trans (frame.stays (Agree.refl _) rfl)) ?_ ?_
      fun g mem => handles.subset mem
    · exact List.subset_cons_self _ _
    · exact List.subset_cons_self _ _

end Change

/-- The request keeps the data of the node if and only if there is a condition, and the request fails
before the chunk is freed, or the data is flat, smaller than two gigabytes, and the new chunk can be
allocated. -/
theorem nodeHandleChange_kept_iff {t : TableDefinition} {s : PtMalloc} {live : List Nat}
    {h : Nat} {condition : Option Nat} {memory : Bool} (wf : WellFormed s live) (mem : h ∈ live)
    (data : NodeData t s h)
    (min : minSize ≤ (s.countFree (chunkSize s.mem (h - 8))).getMinChunkSize) :
    Kept t s live h (nodeHandleChange t s condition (some h) memory) ↔
      ∃ numFields, condition = some numFields ∧ (numFields = 0 ∨ memory = false ∨
        Flat s h ∧ nodeSize t s h < 2 ^ 31 ∧
          (h - 8 + chunkSize s.mem (h - 8) ≠ s.hTop ∨
            s.joinedStart h + request2size (nodeSize t s h) + minSize < s.tSize ∨
            s.Holds (s.otherChunks h) (request2size (nodeSize t s h)))) := by
  have unchanged : ∀ code : Int, code ≠ 0 → Kept t s live h (some (code, s, some h)) := by
    intro code failed
    rw [Kept, if_neg failed]
    exact ⟨rfl, wf, fun g _ => ⟨rfl, fun _ _ => rfl⟩⟩
  obtain _ | numFields := condition
  · exact iff_of_false id fun ⟨_, eq, _⟩ => nomatch eq
  simp only [Option.some.injEq, exists_eq_left']
  by_cases key : numFields = 0
  · have result : nodeHandleChange t s (some numFields) (some h) memory =
        some (-ecKeyNeeded, s, some h) := if_pos (by omega)
    rw [result]
    exact iff_of_true (unchanged _ (by decide)) (.inl key)
  cases memory with
  | false =>
    have handle : h ≠ invalidHandle := fun null => wf.not_mem (null ▸ mem)
    have result : nodeHandleChange t s (some numFields) (some h) false =
        some (-enomem, s, some h) := by
      unfold nodeHandleChange
      simp only [bind, Option.bind]
      rw [if_neg (by omega)]
      exact if_neg handle
    rw [result]
    exact iff_of_true (unchanged _ (by decide)) (.inr (.inl rfl))
  | true =>
    have min : minSize ≤ (s.free h).2.getMinChunkSize := by
      obtain ⟨x, k, U, rfl, owns, -⟩ := wf.chunk mem
      rw [PtMalloc.getMinChunkSize_free owns.free.1, owns.interFree.2.1, ← owns.checked.1]
      exact min
    simp only [key, Bool.true_eq_false, false_or]
    by_cases flat : Flat s h
    · rw [nodeHandleChange_live wf mem data (by omega) (if_pos flat)]
      simp only [flat, true_and]
      obtain ⟨x, k, U, rfl, owns, handles⟩ := wf.chunk mem
      obtain ⟨-, owns₁, stays₁⟩ := owns.free
      have served := data.served owns
      rw [Nat.add_sub_cancel, owns.checked.1]
      obtain ⟨null, owns₂, -⟩ | ⟨y, k', handle, enough, owns₂, stays₂⟩ :=
        owns₁.malloc min (nodeSize t s (x + 8))
      · rw [if_pos null]
        refine iff_of_false (not_kept_freed (wellFormed_iff_owns.mpr ⟨U, owns₂, handles⟩) mem) ?_
        rintro ⟨small, room⟩
        have range : requestOutOfRange (nodeSize t s (x + 8)) = false := by
          unfold requestOutOfRange minSize
          rw [decide_eq_false_iff_not]
          omega
        exact served.mpr ⟨range, room⟩ null
      · have found : ((s.free (x + 8)).2.malloc (nodeSize t s (x + 8))).1 ≠ invalidHandle := by
          rw [handle]
          simp [invalidHandle]
        have room := (served.mp found).2
        rw [if_neg found, handle]
        by_cases large : 2 ^ 31 ≤ nodeSize t s (x + 8)
        · rw [if_pos large]
          exact iff_of_false id fun cond => absurd cond.1 (not_lt.mpr large)
        · rw [if_neg large]
          refine iff_of_true ?_ ⟨not_le.mp large, room⟩
          exact kept_flat owns handles owns₂ (stays₁.trans stays₂) enough rfl
    · rw [nodeHandleChange_live wf mem data (by omega) (if_neg flat)]
      simp only [flat, false_and, iff_false]
      obtain ⟨x, k, U, rfl, owns, handles⟩ := wf.chunk mem
      obtain ⟨-, owns₁, -⟩ := owns.free
      obtain ⟨null, owns₂, -⟩ | ⟨y, k', handle, -⟩ := owns₁.malloc min 0
      · rw [if_pos null]
        exact not_kept_freed (wellFormed_iff_owns.mpr ⟨U, owns₂, handles⟩) mem
      · have found : ((s.free (x + 8)).2.malloc 0).1 ≠ invalidHandle := by
          rw [handle]
          simp [invalidHandle]
        have first := owns₁.malloc_first min found
        generalize (s.free (x + 8)).2.malloc 0 = r at found first ⊢
        rw [if_neg found, if_neg (show ¬2 ^ 31 ≤ 0 by omega), slice, store_nil]
        exact not_kept_tree data flat first

/-- A table with a key of four bytes. -/
def shortKey : TableDefinition where
  keyFields := 1
  numFields := 0
  keyFormat := 4
  field _ := ⟨.none, 0, false⟩

/-- Flat data without rows, with another chunk behind it. -/
def flatWorld : World :=
  Machine.final World.step (World.init (fun _ => 0) 65536)
    [.malloc 40, .malloc 100, .write 8216 0 (0 :: leBytes 4 20 ++ leBytes 4 0 ++ [1])]

theorem nodeHandleChange_kept_flat :
    Kept shortKey flatWorld.heap flatWorld.live 8216
      (nodeHandleChange shortKey flatWorld.heap (some 1) (some 8216) true) :=
  (nodeHandleChange_kept_iff
    ((wellFormed_init (by decide +kernel) (by decide +kernel)).run (by decide +kernel))
    (by decide +kernel) ⟨.inl (by decide +kernel), by decide +kernel⟩ (by decide +kernel)).mpr
    ⟨1, rfl, .inr (.inr ⟨by decide +kernel, by decide +kernel, .inl (by decide +kernel)⟩)⟩

/-- The root of a tree, and a chunk for its node. -/
def treeWorld : World :=
  Machine.final World.step (World.init (fun _ => 0) 65536)
    [.malloc 36, .malloc 100, .write 8216 0 (1 :: leBytes 16 0 ++ 1 :: leBytes 6 0 ++ leBytes 8 8256)]

/-- The request succeeds, and the root is lost. -/
theorem nodeHandleChange_loses_tree :
    WellFormed treeWorld.heap treeWorld.live ∧ 8216 ∈ treeWorld.live ∧
      NodeData shortKey treeWorld.heap 8216 ∧
      minSize ≤ (treeWorld.heap.countFree (chunkSize treeWorld.heap.mem 8208)).getMinChunkSize ∧
      (nodeHandleChange shortKey treeWorld.heap (some 1) (some 8216) true).map Prod.fst = some 0 ∧
      ¬Kept shortKey treeWorld.heap treeWorld.live 8216
        (nodeHandleChange shortKey treeWorld.heap (some 1) (some 8216) true) := by
  have result : (nodeHandleChange shortKey treeWorld.heap (some 1) (some 8216) true).map
      (fun r => (r.1, r.2.2, r.2.1.mem 8216)) = some (0, some 8216, 0) := by decide +kernel
  have root : treeWorld.heap.mem 8216 = 1 := by decide +kernel
  have size : 0 < nodeSize shortKey treeWorld.heap 8216 := by decide +kernel
  refine ⟨(wellFormed_init (by decide +kernel) (by decide +kernel)).run (by decide +kernel),
    by decide +kernel, ⟨.inr (by decide +kernel), by decide +kernel⟩, by decide +kernel, ?_⟩
  generalize nodeHandleChange shortKey treeWorld.heap (some 1) (some 8216) true = out at result ⊢
  obtain ⟨⟨ret, s', node⟩, rfl, values⟩ := Option.map_eq_some_iff.mp result
  simp only [Prod.mk.injEq] at values
  obtain ⟨rfl, rfl, byte⟩ := values
  refine ⟨rfl, ?_⟩
  rintro ⟨_, ⟨⟩, -, -, bytes, -⟩
  have same := bytes 0 size
  rw [Nat.add_zero, byte, root] at same
  exact absurd same (by decide)

end Dtc.Chain
