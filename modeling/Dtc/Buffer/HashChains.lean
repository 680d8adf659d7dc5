import Dtc.Buffer.Hash
import Dtc.Library.ChainedTable
import Dtc.Library.Machine

/-!
# The chains of the hash index

A pond represents one list of nodes for each bucket. Inserting pushes a node on
the list of its target slot, removing erases it from the list of a slot, and a
lookup walks a list without changing it as long as every linked node has its key.
The counters are the number of empty lists and of linked nodes.

While the hash function is being changed a node may be on the list of either of
its two slots, and the first lookup that meets it on the old one moves it. Outside
a change every node is on the list of its target slot.
-/

namespace Dtc.Buffer

open Library ChainedTable List Function

namespace HashPond

/-- The number of empty buckets. -/
def emptyBuckets (size : Nat) (chains : Nat → List NodeId) : Nat :=
  ((Finset.range size).filter fun i => chains i = []).card

/-- A pond with its chains and its number of linked nodes. -/
structure Table (s : HashPond) (chains : Nat → List NodeId) (count : Nat) : Prop where
  linked : Linked s.nextNodeId invalidNodeId s.hhBuckets chains
  inside : ∀ i, s.hhSize ≤ i → chains i = []
  free : s.hhFree = emptyBuckets s.hhSize chains
  node : s.hhNode = count
  size_pos : 0 < s.hhSize
  size_lt : s.hhSize < 2 ^ 32

theorem slotOf_lt {s : HashPond} (pos : 0 < s.hhSize) (newhash : Bool) (key : PackedKey) :
    s.slotOf newhash key < s.hhSize := by
  unfold slotOf newHashSlot hashSlot slotBy
  dsimp only
  split_ifs <;> exact Nat.mod_lt _ pos

theorem emptyBuckets_le (size : Nat) (chains : Nat → List NodeId) :
    emptyBuckets size chains ≤ size :=
  (Finset.card_filter_le _ _).trans (Finset.card_range size).le

/-- Filling or emptying one bucket changes the number of empty buckets by one. -/
theorem emptyBuckets_update {size i : Nat} (hi : i < size) (chains : Nat → List NodeId)
    (xs : List NodeId) :
    emptyBuckets size (update chains i xs) + (if chains i = [] then 1 else 0) =
      emptyBuckets size chains + if xs = [] then 1 else 0 := by
  have split : ∀ f : Nat → List NodeId, emptyBuckets size f =
      (((Finset.range size).erase i).filter fun j => f j = []).card +
        if f i = [] then 1 else 0 := by
    intro f
    unfold emptyBuckets
    rw [← Finset.insert_erase (Finset.mem_range.mpr hi), Finset.filter_insert,
      Finset.erase_insert (Finset.notMem_erase _ _)]
    split_ifs with h
    · rw [Finset.card_insert_of_notMem (by simp)]
    · rfl
  have same : (((Finset.range size).erase i).filter fun j => update chains i xs j = []) =
      ((Finset.range size).erase i).filter fun j => chains j = [] :=
    Finset.filter_congr fun j hj => by rw [update_of_ne (Finset.ne_of_mem_erase hj)]
  rw [split chains, split (update chains i xs), same, update_self]
  omega

/-- Everything the chain operations leave alone. -/
structure SameConfig (s s' : HashPond) : Prop where
  size : s'.hhSize = s.hhSize
  fixedsize : s'.hhFixedsize = s.hhFixedsize
  nodeKey : s'.nodeKey = s.nodeKey
  changing : s'.hashChanging = s.hashChanging
  target : s'.targetNewHash = s.targetNewHash

theorem SameConfig.refl (s : HashPond) : SameConfig s s := ⟨rfl, rfl, rfl, rfl, rfl⟩

theorem SameConfig.trans {s s' s'' : HashPond} (h : SameConfig s s') (h' : SameConfig s' s'') :
    SameConfig s s'' :=
  ⟨h'.size.trans h.size, h'.fixedsize.trans h.fixedsize, h'.nodeKey.trans h.nodeKey,
    h'.changing.trans h.changing, h'.target.trans h.target⟩

theorem SameConfig.slotOf {s s' : HashPond} (same : SameConfig s s') (newhash : Bool)
    (key : PackedKey) : s'.slotOf newhash key = s.slotOf newhash key := by
  simp only [HashPond.slotOf, newHashSlot, hashSlot, same.size, same.fixedsize]

section
variable (s : HashPond) (key : PackedKey) (node : NodeId)
include s key node

theorem insertToHash_config : SameConfig s (s.insertToHash key node) := by
  unfold insertToHash
  dsimp only
  split_ifs <;> exact ⟨rfl, rfl, rfl, rfl, rfl⟩

theorem removeFromHashBase_config
    (newhash : Bool) : SameConfig s (s.removeFromHashBase key node newhash) := by
  unfold removeFromHashBase
  dsimp only
  split_ifs
  · exact .refl s
  · exact ⟨rfl, rfl, rfl, rfl, rfl⟩
  · exact ⟨rfl, rfl, rfl, rfl, rfl⟩
  · split <;> exact ⟨rfl, rfl, rfl, rfl, rfl⟩

theorem removeFromHash_config : SameConfig s (s.removeFromHash key node) := by
  unfold removeFromHash
  split_ifs
  · exact (removeFromHashBase_config ..).trans (removeFromHashBase_config ..)
  · exact removeFromHashBase_config ..

end

section Chains
variable {s : HashPond} {chains : Nat → List NodeId} {count : Nat} {node : NodeId}

theorem Table.bucket_eq_iff (table : Table s chains count) (i : Nat) :
    s.hhBuckets i = invalidNodeId ↔ chains i = [] :=
  (table.linked.chain i).eq_nil_iff.symm

theorem Table.hhFree_lt (table : Table s chains count) : s.hhFree < 2 ^ 32 := by
  have bound := emptyBuckets_le s.hhSize chains
  have size := table.size_lt
  rw [table.free]
  omega

/-- `insert_to_hash` pushes the node on the chain of its target slot. -/
theorem Table.insert (table : Table s chains count) (key : PackedKey)
    (valid : node ≠ invalidNodeId) (fresh : ∀ i, node ∉ chains i) (room : count + 1 < 2 ^ 32) :
    Table (s.insertToHash key node)
      (update chains (s.slotOf s.targetNewHash key)
        (node :: chains (s.slotOf s.targetNewHash key))) (count + 1) := by
  have slotLt := slotOf_lt table.size_pos s.targetNewHash key
  have same := insertToHash_config s key node
  have pushed := table.linked.push (s.slotOf s.targetNewHash key) valid fresh
  have freeLt := table.hhFree_lt
  have balance := emptyBuckets_update slotLt chains (node :: chains (s.slotOf s.targetNewHash key))
  rw [if_neg (cons_ne_nil _ _), ← table.free] at balance
  refine ⟨?_, fun i hi => ?_, ?_, ?_, same.size ▸ table.size_pos, same.size ▸ table.size_lt⟩
  · unfold insertToHash
    dsimp only
    split_ifs <;> exact pushed
  · rw [same.size] at hi
    rw [update_of_ne (by omega)]
    exact table.inside i hi
  · rw [same.size]
    unfold insertToHash
    by_cases hempty : s.hhBuckets (s.slotOf s.targetNewHash key) = invalidNodeId
    · rw [if_pos ((table.bucket_eq_iff _).mp hempty)] at balance
      simp only [if_pos hempty, setBucket_hhFree, setNext_hhFree, incNodeCnt_hhFree]
      simp only [incFreeBucket]
      omega
    · rw [if_neg (mt (table.bucket_eq_iff _).mpr hempty)] at balance
      simp only [if_neg hempty, setBucket_hhFree, setNext_hhFree, incNodeCnt_hhFree]
      omega
  · have node := table.node
    unfold insertToHash
    dsimp only
    split_ifs <;> simp only [setBucket_hhNode, setNext_hhNode, incNodeCnt, incFreeBucket_hhNode] <;>
      omega

/-- The walk finds the predecessor of a node behind the head, or nothing. -/
theorem findPrev_spec (removeNode : NodeId) (rounds : Nat) (prev : NodeId) {next : NodeId}
    {rest : List NodeId} (chain : IsChain s.nextNodeId invalidNodeId next rest)
    (enough : rest.length < rounds) :
    (removeNode ∉ rest ∧ s.findPrev removeNode rounds prev next = none) ∨
      ∃ pre p post, prev :: rest = pre ++ p :: removeNode :: post ∧
        s.findPrev removeNode rounds prev next = some p := by
  induction rounds generalizing prev next rest with
  | zero => omega
  | succ rounds ih =>
    cases rest with
    | nil =>
      refine .inl ⟨by simp, ?_⟩
      rw [findPrev, if_pos (isChain_nil.mp chain)]
    | cons x xs =>
      obtain ⟨rfl, hne, chain⟩ := chain
      rw [findPrev, if_neg hne]
      by_cases hx : next = removeNode
      · subst hx
        rw [if_pos rfl]
        exact .inr ⟨[], prev, xs, rfl, rfl⟩
      · rw [if_neg hx]
        obtain ⟨absent, hnone⟩ | ⟨pre, p, post, heq, hsome⟩ := ih next chain (by simpa using enough)
        · exact .inl ⟨by simp [Ne.symm hx, absent], hnone⟩
        · exact .inr ⟨prev :: pre, p, post, by rw [heq]; rfl, hsome⟩

private theorem erase_inner {pre post : List NodeId} {p x : NodeId}
    (nodup : (pre ++ p :: x :: post).Nodup) :
    (pre ++ p :: x :: post).erase x = pre ++ p :: post := by
  have apart : x ∉ pre ++ [p] := by
    rw [← singleton_append, ← append_assoc, nodup_append] at nodup
    exact fun hx => nodup.2.2 x hx x mem_cons_self rfl
  rw [← singleton_append, ← append_assoc, erase_append_right _ apart,
    erase_cons_head, append_assoc, singleton_append]

/-- Dropping the head of a bucket, with both counters. -/
theorem Table.dropHead (table : Table s chains count) {slot : Nat} (slotLt : slot < s.hhSize)
    {rest : List NodeId} (hc : chains slot = node :: rest) (pos : 0 < count)
    (range : count < 2 ^ 32) :
    Table ((if (s.setBucket slot (s.nextNodeId node)).hhBuckets slot = invalidNodeId then
        (s.setBucket slot (s.nextNodeId node)).incFreeBucket 1
      else s.setBucket slot (s.nextNodeId node)).incNodeCnt (-1))
      (update chains slot rest) (count - 1) := by
  have dropped := table.linked.dropHead hc
  have empty : s.nextNodeId node = invalidNodeId ↔ rest = [] := by
    have chain := table.linked.chain slot
    rw [hc] at chain
    exact chain.2.2.eq_nil_iff.symm
  have balance := emptyBuckets_update slotLt chains rest
  have bound := emptyBuckets_le s.hhSize (update chains slot rest)
  have size := table.size_lt
  have hnode := table.node
  rw [hc, if_neg (cons_ne_nil _ _), ← table.free] at balance
  simp only [setBucket_hhBuckets, update_self, empty]
  refine ⟨?_, fun i hi => ?_, ?_, ?_, ?_, ?_⟩
  · split_ifs <;> exact dropped
  · have hi : s.hhSize ≤ i := by split_ifs at hi <;> exact hi
    rw [update_of_ne (by omega)]
    exact table.inside i hi
  · split_ifs with h
    · rw [if_pos h] at balance
      simp only [incNodeCnt_hhFree, incNodeCnt_hhSize, incFreeBucket, setBucket_hhSize,
        setBucket_hhFree]
      omega
    · rw [if_neg h] at balance
      simp only [incNodeCnt_hhFree, incNodeCnt_hhSize, setBucket_hhSize, setBucket_hhFree]
      omega
  · split_ifs <;>
      simp only [incNodeCnt, incFreeBucket_hhNode, setBucket_hhNode] <;> omega
  · split_ifs <;> exact table.size_pos
  · split_ifs <;> exact table.size_lt

/-- Unlinking an inner node of a chain, with the node counter. -/
theorem Table.unlink (table : Table s chains count) {slot : Nat} {p : NodeId}
    {pre post : List NodeId} (hc : chains slot = pre ++ p :: node :: post)
    (slotLt : slot < s.hhSize) (pos : 0 < count) (range : count < 2 ^ 32) :
    Table ((s.setNext p (s.nextNodeId node)).incNodeCnt (-1))
      (update chains slot (pre ++ p :: post)) (count - 1) := by
  have hnode := table.node
  have balance := emptyBuckets_update slotLt chains (pre ++ p :: post)
  have before : chains slot ≠ [] := by simp [hc]
  have after : pre ++ p :: post ≠ [] := by simp
  rw [if_neg before, if_neg after, ← table.free] at balance
  refine ⟨table.linked.unlink hc, fun i hi => ?_, ?_, ?_, table.size_pos, table.size_lt⟩
  · have hi : s.hhSize ≤ i := hi
    rw [update_of_ne (by omega)]
    exact table.inside i hi
  · simp only [incNodeCnt_hhFree, incNodeCnt_hhSize, setNext_hhFree, setNext_hhSize]
    omega
  · simp only [incNodeCnt, setNext_hhNode]
    omega

/-- `remove_from_hash_base` erases the node from the chain of its slot, if it is there. -/
theorem Table.removeBase (table : Table s chains count) (node : NodeId) (key : PackedKey)
    (newhash : Bool) (short : (chains (s.slotOf newhash key)).length ≤ count)
    (range : count < 2 ^ 32) :
    (node ∉ chains (s.slotOf newhash key) ∧ s.removeFromHashBase key node newhash = s) ∨
      (node ∈ chains (s.slotOf newhash key) ∧ Table (s.removeFromHashBase key node newhash)
          (update chains (s.slotOf newhash key)
            ((chains (s.slotOf newhash key)).erase node)) (count - 1)) := by
  have slotLt := slotOf_lt table.size_pos newhash key
  have chain := table.linked.chain (s.slotOf newhash key)
  have nodup := table.linked.nodup (s.slotOf newhash key)
  unfold removeFromHashBase
  generalize s.slotOf newhash key = slot at *
  dsimp only
  cases hc : chains slot with
  | nil => exact .inl ⟨by simp, by rw [if_pos ((table.bucket_eq_iff slot).mpr hc)]⟩
  | cons x rest =>
    rw [hc] at chain nodup short
    rw [length_cons] at short
    obtain ⟨head, hne, chain⟩ := chain
    rw [head, if_neg hne]
    by_cases hx : x = node
    · subst hx
      rw [if_pos rfl, erase_cons_head]
      exact .inr ⟨mem_cons_self, table.dropHead slotLt hc (by omega) range⟩
    · rw [if_neg hx]
      have hnode := table.node
      obtain ⟨absent, hnone⟩ | ⟨pre, p, post, heq, hsome⟩ :=
        findPrev_spec node (s.hhNode + 1) x chain (by omega)
      · rw [hnone]
        exact .inl ⟨by simp [Ne.symm hx, absent], rfl⟩
      · rw [hsome, heq, erase_inner (heq ▸ nodup)]
        exact .inr ⟨by simp, table.unlink (hc.trans heq) slotLt (by omega) range⟩

end Chains

/-- The layout of packed keys: of the fixed size, or a length byte and that many bytes. -/
def WellPacked (fixedsize : Nat) (key : PackedKey) : Prop :=
  if fixedsize = 0 then key.length = (key.headD 0).toNat + 1 else key.length = fixedsize

variable {key : PackedKey}

/-- On packed keys `key_cmp` decides equality. -/
theorem keyEq_iff {s : HashPond} {other : PackedKey} (hk : WellPacked s.hhFixedsize key)
    (ho : WellPacked s.hhFixedsize other) : s.keyEq key other = true ↔ key = other := by
  unfold WellPacked at hk ho
  simp only [keyEq, beq_iff_eq]
  refine ⟨fun heq => ?_, fun heq => by rw [heq]⟩
  split_ifs at hk ho heq with h
  · rw [← hk, take_length] at heq
    -- the comparison covers the length byte, so the two lengths agree
    have head : key.headD 0 = other.headD 0 := by
      cases key with
      | nil => simp at hk
      | cons b bs =>
        cases other with
        | nil => simp at ho
        | cons d ds =>
          exact (cons.inj heq).1
    rw [heq, hk, head, ← ho, take_length]
  · rw [← hk, take_length, hk, ← ho, take_length] at heq
    exact heq

/-- A pond whose chains hold exactly the present nodes, each with a key of its own
and on a chain of that key. -/
structure Indexed (s : HashPond) (present : List NodeId) (chains : Nat → List NodeId) :
    Prop where
  table : Table s chains present.length
  present_iff : ∀ n, n ∈ present ↔ ∃ i, n ∈ chains i
  nodup : present.Nodup
  range : ∀ n ∈ present, n < invalidNodeId
  keyed : ∀ n ∈ present, ∃ key, s.nodeKey n = some key ∧ WellPacked s.hhFixedsize key
  distinct : ∀ n ∈ present, ∀ m ∈ present, s.nodeKey n = s.nodeKey m → n = m
  placed : ∀ i n key, n ∈ chains i → s.nodeKey n = some key →
    i = s.slotOf false key ∨ i = s.slotOf true key
  settled : s.hashChanging = false → ∀ i n key, n ∈ chains i → s.nodeKey n = some key →
    i = s.slotOf s.targetNewHash key

section Index
variable {s : HashPond} {present : List NodeId} {chains : Nat → List NodeId}

/-- There are fewer valid node numbers than the counter can hold. -/
private theorem length_lt_of_valid {nodes : List NodeId} (nodup : nodes.Nodup)
    (range : ∀ n ∈ nodes, n < invalidNodeId) : nodes.length < 2 ^ 32 := by
  have sub : nodes.toFinset ⊆ Finset.range invalidNodeId := fun n hn =>
    Finset.mem_range.mpr (range n (mem_toFinset.mp hn))
  have bound := Finset.card_le_card sub
  rw [toFinset_card_of_nodup nodup, Finset.card_range] at bound
  simp only [invalidNodeId] at bound
  omega

section
variable (index : Indexed s present chains)
include index

theorem Indexed.length_lt : present.length < 2 ^ 32 :=
  length_lt_of_valid index.nodup index.range

theorem Indexed.chain_length_le (i : Nat) : (chains i).length ≤ present.length := by
  have sub : chains i ⊆ present := fun n hn => (index.present_iff n).mpr ⟨i, hn⟩
  exact (subperm_of_subset (index.table.linked.nodup i) sub).length_le

theorem Indexed.congr_present {present' : List NodeId}
    (perm : present'.Perm present) : Indexed s present' chains where
  table := perm.length_eq ▸ index.table
  present_iff n := perm.mem_iff.trans (index.present_iff n)
  nodup := perm.nodup_iff.mpr index.nodup
  range n hn := index.range n (perm.subset hn)
  keyed n hn := index.keyed n (perm.subset hn)
  distinct n hn m hm := index.distinct n (perm.subset hn) m (perm.subset hm)
  placed := index.placed
  settled := index.settled

end

variable {node : NodeId}

section
variable (index : Indexed s present chains)

include index

/-- Inserting a node with a new key. -/
theorem Indexed.insert (absent : node ∉ present) (valid : node < invalidNodeId)
    (hkey : s.nodeKey node = some key) (packed : WellPacked s.hhFixedsize key)
    (new : ∀ m ∈ present, s.nodeKey m ≠ some key) :
    ∃ chains', Indexed (s.insertToHash key node) (node :: present) chains' := by
  have fresh : ∀ i, node ∉ chains i := fun i hi => absent ((index.present_iff node).mpr ⟨i, hi⟩)
  have nodup : (node :: present).Nodup := nodup_cons.mpr ⟨absent, index.nodup⟩
  have range : ∀ n ∈ node :: present, n < invalidNodeId := by
    intro n hn
    obtain rfl | hn := mem_cons.mp hn
    · exact valid
    · exact index.range n hn
  have same := insertToHash_config s key node
  have member : ∀ i n, n ∈ update chains (s.slotOf s.targetNewHash key)
      (node :: chains (s.slotOf s.targetNewHash key)) i ↔
        (n = node ∧ i = s.slotOf s.targetNewHash key) ∨ n ∈ chains i := by
    intro i n
    by_cases hi : i = s.slotOf s.targetNewHash key
    · subst hi
      simp
    · rw [update_of_ne hi]
      simp [hi]
  refine ⟨_, ⟨index.table.insert key valid.ne fresh (length_lt_of_valid nodup range), ?_, nodup,
    range, ?_, ?_, ?_, ?_⟩⟩
  · intro n
    simp only [member, mem_cons, index.present_iff, exists_or, exists_and_left, exists_eq, and_true]
  · intro n hn
    rw [same.nodeKey, same.fixedsize]
    obtain rfl | hn := mem_cons.mp hn
    · exact ⟨key, hkey, packed⟩
    · exact index.keyed n hn
  · intro n hn m hm heq
    rw [same.nodeKey] at heq
    obtain eqn | hn := mem_cons.mp hn <;> obtain eqm | hm := mem_cons.mp hm
    · exact eqn.trans eqm.symm
    · exact absurd (heq.symm.trans (eqn ▸ hkey)) (new m hm)
    · exact absurd (heq.trans (eqm ▸ hkey)) (new n hn)
    · exact index.distinct n hn m hm heq
  · intro i n k hn hk
    rw [same.slotOf, same.slotOf]
    rw [same.nodeKey] at hk
    obtain ⟨rfl, rfl⟩ | hn := (member i n).mp hn
    · rw [hkey] at hk
      obtain rfl := Option.some.inj hk
      cases s.targetNewHash with
      | true => exact .inr rfl
      | false => exact .inl rfl
    · exact index.placed i n k hn hk
  · intro stable i n k hn hk
    rw [same.target, same.slotOf]
    rw [same.nodeKey] at hk
    obtain ⟨rfl, rfl⟩ | hn := (member i n).mp hn
    · rw [hkey] at hk
      rw [Option.some.inj hk]
    · exact index.settled (same.changing.symm.trans stable) i n k hn hk

/-- A pond in which one node has left the chain of a slot. -/
theorem Indexed.erase {s' : HashPond} {slot : Nat} (same : SameConfig s s')
    (member : node ∈ chains slot)
    (table : Table s' (update chains slot ((chains slot).erase node)) (present.length - 1)) :
    Indexed s' (present.erase node) (update chains slot ((chains slot).erase node)) := by
  have here : node ∈ present := (index.present_iff node).mpr ⟨slot, member⟩
  have remains : ∀ i n, n ∈ update chains slot ((chains slot).erase node) i ↔
      n ≠ node ∧ n ∈ chains i := by
    intro i n
    by_cases hi : i = slot
    · subst hi
      rw [update_self, (index.table.linked.nodup i).mem_erase_iff]
    · rw [update_of_ne hi]
      refine ⟨fun hn => ⟨?_, hn⟩, fun hn => hn.2⟩
      rintro rfl
      exact hi (index.table.linked.disjoint i slot n hn member)
  have kept : ∀ n, n ∈ present.erase node → n ∈ present := fun n hn => mem_of_mem_erase hn
  refine ⟨?_, fun n => ?_, index.nodup.erase node, fun n hn => index.range n (kept n hn), ?_, ?_,
    ?_, ?_⟩
  · rw [length_erase_of_mem here]
    exact table
  · simp only [remains, index.nodup.mem_erase_iff, index.present_iff, exists_and_left]
  · intro n hn
    rw [same.nodeKey, same.fixedsize]
    exact index.keyed n (kept n hn)
  · intro n hn m hm heq
    rw [same.nodeKey] at heq
    exact index.distinct n (kept n hn) m (kept m hm) heq
  · intro i n k hn hk
    rw [same.slotOf, same.slotOf]
    rw [same.nodeKey] at hk
    exact index.placed i n k ((remains i n).mp hn).2 hk
  · intro stable i n k hn hk
    rw [same.target, same.slotOf]
    rw [same.nodeKey] at hk
    exact index.settled (same.changing.symm.trans stable) i n k ((remains i n).mp hn).2 hk

/-- One removal by one of the two functions: the node leaves the index, or it was
not on that chain and nothing happens. -/
theorem Indexed.removeBase (key : PackedKey) (node : NodeId) (newhash : Bool) :
    (node ∉ chains (s.slotOf newhash key) ∧ s.removeFromHashBase key node newhash = s) ∨
      ∃ chains', Indexed (s.removeFromHashBase key node newhash) (present.erase node) chains' := by
  obtain ⟨absent, heq⟩ | ⟨member, table⟩ :=
    index.table.removeBase node key newhash (index.chain_length_le _) index.length_lt
  · exact .inl ⟨absent, heq⟩
  · exact .inr ⟨_, index.erase (removeFromHashBase_config s key node newhash) member table⟩

/-- `remove_from_hash` with a node's own key takes the node out of the index. -/
theorem Indexed.remove (hkey : s.nodeKey node = some key) :
    ∃ chains', Indexed (s.removeFromHash key node) (present.erase node) chains' := by
  have gone : (∀ i, node ∉ chains i) → present.erase node = present := fun absent =>
    erase_of_not_mem fun h => by
      obtain ⟨i, hi⟩ := (index.present_iff node).mp h
      exact absent i hi
  unfold removeFromHash
  split_ifs with hchanging
  · obtain ⟨notNew, heq⟩ | ⟨chains', index'⟩ := index.removeBase key node true
    · rw [heq]
      obtain ⟨notOld, heq⟩ | removed := index.removeBase key node false
      · rw [heq, gone fun i hi => ?_]
        · exact ⟨chains, index⟩
        · obtain rfl | rfl := index.placed i node key hi hkey
          · exact notOld hi
          · exact notNew hi
      · exact removed
    · obtain ⟨-, heq⟩ | ⟨chains'', index''⟩ := index'.removeBase key node false
      · rw [heq]
        exact ⟨chains', index'⟩
      · rw [erase_of_not_mem index.nodup.not_mem_erase] at index''
        exact ⟨chains'', index''⟩
  · obtain ⟨absent, heq⟩ | removed := index.removeBase key node s.targetNewHash
    · rw [heq, gone fun i hi => ?_]
      · exact ⟨chains, index⟩
      · rw [index.settled (by simpa using hchanging) i node key hi hkey] at hi
        exact absent hi
    · exact removed

/-- `move_to_new_hash` keeps the set of present nodes. -/
theorem Indexed.move (member : node ∈ present) (hkey : s.nodeKey node = some key) :
    ∃ chains', Indexed (s.moveToNewHash key node) present chains' := by
  obtain ⟨chains', removed⟩ := index.remove hkey
  have same := removeFromHash_config s key node
  obtain ⟨k, hk, packed⟩ := index.keyed node member
  obtain rfl := Option.some.inj (hkey.symm.trans hk)
  obtain ⟨chains'', inserted⟩ := removed.insert
    index.nodup.not_mem_erase (index.range node member) (by rw [same.nodeKey]; exact hkey)
    (by rw [same.fixedsize]; exact packed) (by
      intro m hm heq
      rw [same.nodeKey] at heq
      rw [index.nodup.mem_erase_iff] at hm
      exact hm.1 (index.distinct m hm.2 node member (heq.trans hkey.symm)))
  exact ⟨chains'', inserted.congr_present (perm_cons_erase member)⟩

/-- Walking a chain of keyed nodes changes nothing and finds the node of the key. -/
theorem cacheFindLoop_spec (packed : WellPacked s.hhFixedsize key) (rounds : Nat) {iter : NodeId}
    {rest : List NodeId} (chain : IsChain s.nextNodeId invalidNodeId iter rest)
    (sub : ∀ n ∈ rest, n ∈ present) (enough : rest.length < rounds) :
    ∃ found, cacheFindLoop key rounds s iter = (found, s) ∧
      ∀ n, found = some n ↔ n ∈ rest ∧ s.nodeKey n = some key := by
  induction rounds generalizing iter rest with
  | zero => omega
  | succ rounds ih =>
    cases rest with
    | nil =>
      refine ⟨none, ?_, by simp⟩
      rw [cacheFindLoop, if_pos (isChain_nil.mp chain)]
    | cons x xs =>
      obtain ⟨rfl, hne, chain⟩ := chain
      obtain ⟨other, hother, opacked⟩ := index.keyed iter (sub iter mem_cons_self)
      rw [cacheFindLoop, if_neg hne, hother]
      by_cases heq : key = other
      · subst heq
        simp only [(keyEq_iff packed opacked).mpr rfl, if_true]
        refine ⟨some iter, rfl, fun n => ?_⟩
        constructor
        · intro hn
          obtain rfl := Option.some.inj hn
          exact ⟨mem_cons_self, hother⟩
        · rintro ⟨hn, hk⟩
          rw [index.distinct iter (sub iter mem_cons_self) n (sub n hn) (hother.trans hk.symm)]
      · have miss : s.keyEq key other = false := by
          rw [← Bool.not_eq_true, keyEq_iff packed opacked]
          exact heq
        simp only [miss, Bool.false_eq_true, if_false]
        obtain ⟨found, hfind, hiff⟩ := ih chain (fun n hn => sub n (mem_cons_of_mem _ hn))
          (by simpa using enough)
        refine ⟨found, hfind, fun n => (hiff n).trans ?_⟩
        rw [mem_cons]
        refine and_congr_left fun hk => ⟨.inr, ?_⟩
        rintro (rfl | hn)
        · exact absurd (Option.some.inj (hk.symm.trans hother)) heq
        · exact hn

/-- `cache_find` finds the key's node if it is on the chain of the chosen slot. -/
theorem Indexed.cacheFind (packed : WellPacked s.hhFixedsize key) (newhash : Bool) :
    ∃ found, s.cacheFind key newhash = (found, s) ∧
      ∀ n, found = some n ↔ n ∈ chains (s.slotOf newhash key) ∧ s.nodeKey n = some key := by
  refine cacheFindLoop_spec index packed _ (index.table.linked.chain _)
    (fun n hn => (index.present_iff n).mpr ⟨_, hn⟩) ?_
  have bound := index.chain_length_le (s.slotOf newhash key)
  rw [index.table.node]
  omega

end

end Index

end HashPond

end Dtc.Buffer
