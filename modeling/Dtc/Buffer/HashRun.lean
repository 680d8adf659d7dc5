import Dtc.Buffer.HashChains

/-!
# Runs of the hash index

A run interleaves calls of the hash functions with the two things that happen
around them: a free node gets the key of its data chunk, and the server restarts
with other hash switches over the same shared memory.

An insertion is legal for a node that is not linked and whose key no linked node
has. A restart that does not announce a change of hash function is legal if the
linked nodes are already where the configured function puts them; a restart that
announces one is always legal.
-/

namespace Dtc.Buffer

open Library ChainedTable HashPond

namespace HashPond

section Lookup
variable {s : HashPond} {present : List NodeId} {chains : Nat → List NodeId}

/-- A present node of a key is on the chain of one of the two slots of the key. -/
theorem Indexed.on_slot (index : Indexed s present chains) {key : PackedKey} {n : NodeId}
    (member : n ∈ present) (hkey : s.nodeKey n = some key) (newhash : Bool) :
    n ∈ chains (s.slotOf newhash key) ∨ n ∈ chains (s.slotOf (!newhash) key) := by
  obtain ⟨i, hi⟩ := (index.present_iff n).mp member
  obtain rfl | rfl := index.placed i n key hi hkey <;> cases newhash
  · exact .inl hi
  · exact .inr hi
  · exact .inr hi
  · exact .inl hi

/-- `cache_find_auto_chose_hash` finds the present node of the key, in whichever
mode, and keeps the set of present nodes. -/
theorem Indexed.cacheFindAutoChoseHash (index : Indexed s present chains) {key : PackedKey}
    (packed : WellPacked s.hhFixedsize key) :
    (∃ chains', Indexed (s.cacheFindAutoChoseHash key).2 present chains') ∧
      ∀ n, (s.cacheFindAutoChoseHash key).1 = some n ↔ n ∈ present ∧ s.nodeKey n = some key := by
  have linked : ∀ {n i}, n ∈ chains i → n ∈ present := fun hn =>
    (index.present_iff _).mpr ⟨_, hn⟩
  obtain ⟨found, hfind, hiff⟩ := index.cacheFind packed s.targetNewHash
  unfold HashPond.cacheFindAutoChoseHash
  split_ifs with hchanging
  · obtain ⟨old, hold, oiff⟩ := index.cacheFind packed (!s.targetNewHash)
    rw [hold]
    cases old with
    | some node =>
      obtain ⟨member, hkey⟩ := (oiff node).mp rfl
      refine ⟨index.move (linked member) hkey, fun n => ?_⟩
      constructor
      · intro hn
        obtain rfl := Option.some.inj hn
        exact ⟨linked member, hkey⟩
      · rintro ⟨hn, hk⟩
        rw [index.distinct n hn node (linked member) (hk.trans hkey.symm)]
    | none =>
      dsimp only
      rw [hfind]
      refine ⟨⟨chains, index⟩, fun n => (hiff n).trans ?_⟩
      refine and_congr_left fun hk => ⟨linked, fun hn => ?_⟩
      refine (index.on_slot hn hk s.targetNewHash).resolve_right fun hold => ?_
      exact nomatch (oiff n).mpr ⟨hold, hk⟩
  · rw [hfind]
    refine ⟨⟨chains, index⟩, fun n => (hiff n).trans ?_⟩
    refine and_congr_left fun hk => ⟨linked, fun hn => ?_⟩
    obtain ⟨i, hi⟩ := (index.present_iff n).mp hn
    rwa [index.settled (by simpa using hchanging) i n key hi hk] at hi

end Lookup

end HashPond

/-- The pond and the nodes inserted and not removed, newest first. -/
structure HashWorld where
  pond : HashPond
  present : List NodeId

/-- What happens to the index. -/
inductive HashOp
  /-- A node that is not linked gets the data chunk with this key. -/
  | bind (node : NodeId) (key : PackedKey)
  | insertToHash (key : PackedKey) (node : NodeId)
  | removeFromHash (key : PackedKey) (node : NodeId)
  | moveToNewHash (key : PackedKey) (node : NodeId)
  | cacheFindAutoChoseHash (key : PackedKey)
  /-- The server restarts with other switches. -/
  | restart (hashChanging targetNewHash : Bool)

/-- One operation; a lookup replies with the node it found. -/
def hashStep (w : HashWorld) : HashOp → Option NodeId × HashWorld
  | .bind node key =>
    let nodeKey := Function.update w.pond.nodeKey node (some key)
    (none, { w with pond := { w.pond with nodeKey } })
  | .insertToHash key node => (none, ⟨w.pond.insertToHash key node, node :: w.present⟩)
  | .removeFromHash key node => (none, ⟨w.pond.removeFromHash key node, w.present.erase node⟩)
  | .moveToNewHash key node => (none, { w with pond := w.pond.moveToNewHash key node })
  | .cacheFindAutoChoseHash key =>
    ((w.pond.cacheFindAutoChoseHash key).1,
      { w with pond := (w.pond.cacheFindAutoChoseHash key).2 })
  | .restart hashChanging targetNewHash =>
    (none, { w with pond := { w.pond with hashChanging, targetNewHash } })

/-- The node is on the chain of the slot by the given function. -/
def OnChain (s : HashPond) (newhash : Bool) (key : PackedKey) (node : NodeId) : Prop :=
  ∃ list, IsChain s.nextNodeId invalidNodeId (s.hhBuckets (s.slotOf newhash key)) list ∧
    node ∈ list

/-- When an operation may be called. -/
def HashLegal (w : HashWorld) : HashOp → Prop
  | .bind node _ => node ∉ w.present
  | .insertToHash key node =>
    node ∉ w.present ∧ node < invalidNodeId ∧ w.pond.nodeKey node = some key ∧
      HashPond.WellPacked w.pond.hhFixedsize key ∧
        ∀ m ∈ w.present, w.pond.nodeKey m ≠ some key
  | .removeFromHash key node => w.pond.nodeKey node = some key
  | .moveToNewHash key node => node ∈ w.present ∧ w.pond.nodeKey node = some key
  | .cacheFindAutoChoseHash key => HashPond.WellPacked w.pond.hhFixedsize key
  | .restart hashChanging targetNewHash =>
    hashChanging = false → ∀ n ∈ w.present, ∀ key, w.pond.nodeKey n = some key →
      OnChain w.pond targetNewHash key n

/-- The world of a fresh index. -/
def HashWorld.init (hsize fixedsize : Nat) (hashChanging targetNewHash : Bool) : HashWorld :=
  ⟨.doInit hsize fixedsize hashChanging targetNewHash, []⟩

/-- The invariant of runs. -/
def HashInv (w : HashWorld) : Prop := ∃ chains, HashPond.Indexed w.pond w.present chains

theorem hashInv_init {hsize : Nat} (pos : 0 < hsize) (range : hsize < 2 ^ 32) (fixedsize : Nat)
    (hashChanging targetNewHash : Bool) :
    HashInv (.init hsize fixedsize hashChanging targetNewHash) := by
  refine ⟨fun _ => [], ⟨⟨⟨fun _ => ?_, fun _ => List.nodup_nil, ?_⟩, fun _ _ => rfl, ?_, rfl, pos,
    range⟩, ?_, List.nodup_nil, ?_, ?_, ?_, ?_, ?_⟩⟩
  · exact isChain_nil.mpr rfl
  · intro i j n hn
    exact absurd hn List.not_mem_nil
  · simp [HashWorld.init, doInit, emptyBuckets]
  all_goals simp [HashWorld.init]

variable {w : HashWorld}

theorem HashInv.bind (inv : HashInv w) {node : NodeId} (absent : node ∉ w.present)
    (key : PackedKey) : HashInv (hashStep w (.bind node key)).2 := by
  obtain ⟨chains, index⟩ := inv
  have kept : ∀ n ∈ w.present,
      Function.update w.pond.nodeKey node (some key) n = w.pond.nodeKey n := fun n hn =>
    Function.update_of_ne (fun h : n = node => absent (h ▸ hn)) _ _
  have keptOn : ∀ {i n}, n ∈ chains i →
      Function.update w.pond.nodeKey node (some key) n = w.pond.nodeKey n := fun hn =>
    kept _ ((index.present_iff _).mpr ⟨_, hn⟩)
  refine ⟨chains, ⟨⟨index.table.linked, index.table.inside, index.table.free, index.table.node,
    index.table.size_pos, index.table.size_lt⟩, index.present_iff, index.nodup, index.range, ?_, ?_,
    ?_, ?_⟩⟩
  · intro n hn
    obtain ⟨k, hk, packed⟩ := index.keyed n hn
    exact ⟨k, (kept n hn).trans hk, packed⟩
  · intro n hn m hm heq
    exact index.distinct n hn m hm ((kept n hn).symm.trans (heq.trans (kept m hm)))
  · intro i n k hn hk
    exact index.placed i n k hn ((keptOn hn).symm.trans hk)
  · intro stable i n k hn hk
    exact index.settled stable i n k hn ((keptOn hn).symm.trans hk)

theorem HashInv.restart (inv : HashInv w) {hashChanging targetNewHash : Bool}
    (legal : HashLegal w (.restart hashChanging targetNewHash)) :
    HashInv (hashStep w (.restart hashChanging targetNewHash)).2 := by
  obtain ⟨chains, index⟩ := inv
  refine ⟨chains, { index with table := { index.table with }, settled := ?_ }⟩
  intro stable i n key hn hk
  obtain ⟨list, chain, member⟩ := legal stable n ((index.present_iff n).mpr ⟨i, hn⟩) key hk
  rw [chain.unique (index.table.linked.chain _)] at member
  exact index.table.linked.disjoint _ _ n hn member

/-- Every legal operation keeps the invariant. -/
theorem HashInv.step (inv : HashInv w) {op : HashOp} (legal : HashLegal w op) :
    HashInv (hashStep w op).2 := by
  cases op with
  | bind node key => exact inv.bind legal key
  | insertToHash key node =>
    obtain ⟨chains, index⟩ := inv
    obtain ⟨absent, valid, hkey, packed, new⟩ := legal
    exact index.insert absent valid hkey packed new
  | removeFromHash key node =>
    obtain ⟨chains, index⟩ := inv
    exact index.remove legal
  | moveToNewHash key node =>
    obtain ⟨chains, index⟩ := inv
    exact index.move legal.1 legal.2
  | cacheFindAutoChoseHash key =>
    obtain ⟨chains, index⟩ := inv
    exact (index.cacheFindAutoChoseHash legal).1
  | restart hashChanging targetNewHash => exact inv.restart legal

/-- What the index guarantees of a state, with the chain of each bucket. -/
structure HashGuarantee (w : HashWorld) (chains : Nat → List NodeId) : Prop where
  /-- from every bucket the links reach the end, over no node twice -/
  acyclic : ∀ i < w.pond.hhSize,
    IsChain w.pond.nextNodeId invalidNodeId (w.pond.hhBuckets i) (chains i) ∧ (chains i).Nodup
  /-- an inserted and not removed node is on one chain, that of one of its two slots -/
  placed : ∀ n ∈ w.present, ∃ key, w.pond.nodeKey n = some key ∧
    ∃ i < w.pond.hhSize, (i = w.pond.hashSlot key ∨ i = w.pond.newHashSlot key) ∧
      ∀ j < w.pond.hhSize, n ∈ chains j ↔ j = i
  /-- and no other node is on a chain -/
  onlyPresent : ∀ i < w.pond.hhSize, ∀ n ∈ chains i, n ∈ w.present
  /-- a lookup finds the node of the key if there is one -/
  lookup : ∀ key, HashPond.WellPacked w.pond.hhFixedsize key → ∀ n,
    (w.pond.cacheFindAutoChoseHash key).1 = some n ↔
      n ∈ w.present ∧ w.pond.nodeKey n = some key
  hhFree : w.pond.hhFree =
    ((Finset.range w.pond.hhSize).filter fun i => w.pond.hhBuckets i = invalidNodeId).card
  hhNode : w.pond.hhNode = w.present.length ∧ w.present.Nodup

/-- The guarantees follow from the invariant. -/
theorem HashInv.guarantee (inv : HashInv w) : ∃ chains, HashGuarantee w chains := by
  obtain ⟨chains, index⟩ := inv
  refine ⟨chains, ⟨fun i _ => ⟨index.table.linked.chain i, index.table.linked.nodup i⟩,
    fun n hn => ?_, fun i _ n hn => (index.present_iff n).mpr ⟨i, hn⟩,
    fun key packed => (index.cacheFindAutoChoseHash packed).2, ?_, ⟨index.table.node, index.nodup⟩⟩⟩
  · obtain ⟨key, hkey, -⟩ := index.keyed n hn
    obtain ⟨i, hi⟩ := (index.present_iff n).mp hn
    have slot := index.placed i n key hi hkey
    refine ⟨key, hkey, i, ?_, slot, fun j _ => ⟨fun hj => ?_, fun hj => hj ▸ hi⟩⟩
    · obtain rfl | rfl := slot
      · exact slotOf_lt index.table.size_pos false key
      · exact slotOf_lt index.table.size_pos true key
    · exact index.table.linked.disjoint j i n hj hi
  · rw [index.table.free]
    exact congrArg Finset.card (Finset.filter_congr fun i _ => (index.table.bucket_eq_iff i).symm)

/-- After every legal sequence of operations on a fresh index of any size and in
any mode the guarantees hold. -/
theorem hash_run_guarantee (hsize fixedsize : Nat) (hashChanging targetNewHash : Bool)
    (pos : 0 < hsize) (range : hsize < 2 ^ 32) (ops : List HashOp)
    (legal : Machine.Admitted HashLegal hashStep
      (.init hsize fixedsize hashChanging targetNewHash) ops) :
    ∃ chains, HashGuarantee
      (Machine.final hashStep (.init hsize fixedsize hashChanging targetNewHash) ops) chains := by
  apply HashInv.guarantee
  exact Machine.final_invariant HashInv (fun w op inv legal => inv.step legal)
    (hashInv_init pos range fixedsize hashChanging targetNewHash) legal

/-- A node inserted by the old function is looked up after a restart that announces
the change to the new one, and removed. -/
theorem hash_run_guarantee_changing :
    ∃ chains, HashGuarantee (Machine.final hashStep (.init 16 4 false false)
      [.bind 7 [1, 2, 3, 4], .insertToHash [1, 2, 3, 4] 7, .restart true true,
        .cacheFindAutoChoseHash [1, 2, 3, 4], .removeFromHash [1, 2, 3, 4] 7]) chains := by
  apply hash_run_guarantee 16 4 false false (by decide) (by decide)
  exact ⟨List.not_mem_nil, ⟨List.not_mem_nil, by decide, rfl, rfl, nofun⟩, nofun, rfl, rfl, trivial⟩

end Dtc.Buffer
