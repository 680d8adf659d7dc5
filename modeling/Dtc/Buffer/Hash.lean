import Mathlib

/-!
# The hash index of the cache

`DTCHash` is one array of bucket heads. Nodes are chained through their
`next_node_id`, and a node is placed by one of two hash functions of its packed
key. `BufferPond` inserts by the target function, and while a change of function
is under way it removes and looks up by both.

Both hash functions read the key through `const char *`, so bytes from 128 on are
sign-extended before they are mixed. Loops over a chain are bounded by the number
of linked nodes, which is an upper bound for the length of any chain.
-/

namespace Dtc.Buffer

/-- `NODE_ID_T`, an unsigned 32-bit number. -/
abbrev NodeId := Nat

/-- `INVALID_NODE_ID`. -/
def invalidNodeId : NodeId := 2 ^ 32 - 1

/-- A packed key as stored in a data chunk. -/
abbrev PackedKey := List UInt8

/-- A `const char` converted to `unsigned int`. -/
def signExtend (b : UInt8) : UInt32 :=
  if b < 128 then b.toUInt32 else b.toUInt32 + 0xFFFFFF00

/-- The `mix` macro of `new_hash`. -/
def mix (a b c : UInt32) : UInt32 × UInt32 × UInt32 :=
  let a := (a - b - c) ^^^ (c >>> 13)
  let b := (b - c - a) ^^^ (a <<< 8)
  let c := (c - a - b) ^^^ (b >>> 13)
  let a := (a - b - c) ^^^ (c >>> 12)
  let b := (b - c - a) ^^^ (a <<< 16)
  let c := (c - a - b) ^^^ (b >>> 5)
  let a := (a - b - c) ^^^ (c >>> 3)
  let b := (b - c - a) ^^^ (a <<< 10)
  let c := (c - a - b) ^^^ (b >>> 15)
  (a, b, c)

/-- Four key bytes as `new_hash` adds them; absent bytes add nothing. -/
def word (k : List UInt8) (i : Nat) : UInt32 :=
  let byte := fun j => signExtend (k.getD (i + j) 0)
  byte 0 + (byte 1 <<< 8) + (byte 2 <<< 16) + (byte 3 <<< 24)

/-- The loop of `new_hash` over blocks of twelve bytes and its last block, whose
third word keeps its lowest byte for the length. -/
def newHashLoop (length : UInt32) : Nat → List UInt8 → UInt32 → UInt32 → UInt32 → UInt32
  | 0, _, _, _, c => c
  | rounds + 1, k, a, b, c =>
    if 12 ≤ k.length then
      let (a, b, c) := mix (a + word k 0) (b + word k 4) (c + word k 8)
      newHashLoop length rounds (k.drop 12) a b c
    else
      let last := word (0 :: k.drop 8) 0
      (mix (a + word (k.take 4) 0) (b + word ((k.take 8).drop 4) 0) (c + length + last)).2.2

/-- `new_hash`. -/
def newHash (k : List UInt8) : UInt32 :=
  newHashLoop k.length.toUInt32 (k.length + 1) k 0x9e3779b9 0x9e3779b9 0x48545443

/-- The loop of `hash_slot` for keys of other sizes than 1, 2 and 4. -/
def oldHash (k : List UInt8) : UInt32 :=
  k.foldl (fun h byte =>
    let h := (h <<< 4) + signExtend byte
    let g := h &&& 0xF0000000
    if g ≠ 0 then (h ^^^ (g >>> 24)) ^^^ g else h) 0

/-- A little-endian unsigned number. -/
def littleEndian : List UInt8 → Nat
  | [] => 0
  | b :: rest => b.toNat + 256 * littleEndian rest

/-- `hash_slot` and `new_hash_slot`: they differ in the function for long keys. -/
def slotBy (hash : List UInt8 → UInt32) (hhSize hhFixedsize : Nat) (key : PackedKey) : Nat :=
  let size := if hhFixedsize = 0 then (key.headD 0).toNat else hhFixedsize
  let bytes := (if hhFixedsize = 0 then key.tail else key).take size
  if size = 1 ∨ size = 2 ∨ size = 4 then littleEndian bytes % hhSize
  else (hash bytes).toNat % hhSize

/-- The shared hash area, the chain field and the stored key of every node, and
the two mode switches. A node without a key has an invalid data handle. -/
structure HashPond where
  hhSize : Nat
  hhFixedsize : Nat
  hhFree : Nat
  hhNode : Nat
  hhBuckets : Nat → NodeId
  nextNodeId : NodeId → NodeId
  nodeKey : NodeId → Option PackedKey
  hashChanging : Bool
  targetNewHash : Bool

namespace HashPond

variable (s : HashPond) (key : PackedKey)

/-- `DTCHash::do_init` and the configured switches. -/
def doInit (hsize fixedsize : Nat) (hashChanging targetNewHash : Bool) : HashPond where
  hhSize := hsize
  hhFixedsize := fixedsize
  hhFree := hsize
  hhNode := 0
  hhBuckets := fun _ => invalidNodeId
  nextNodeId := fun _ => invalidNodeId
  nodeKey := fun _ => none
  hashChanging := hashChanging
  targetNewHash := targetNewHash

/-- `hash_slot`. -/
def hashSlot : Nat := slotBy oldHash s.hhSize s.hhFixedsize key

/-- `new_hash_slot`. -/
def newHashSlot : Nat :=
  slotBy newHash s.hhSize s.hhFixedsize key

/-- The choice by an `int newhash` argument. -/
def slotOf (newhash : Bool) (key : PackedKey) : Nat :=
  if newhash then s.newHashSlot key else s.hashSlot key

/-- `inc_free_bucket`. -/
@[simps -fullyApplied]
def incFreeBucket (v : Int) : HashPond :=
  { s with hhFree := ((s.hhFree + v) % 2 ^ 32).toNat }

/-- `inc_node_cnt`. -/
@[simps -fullyApplied]
def incNodeCnt (v : Int) : HashPond :=
  { s with hhNode := ((s.hhNode + v) % 2 ^ 32).toNat }

/-- `hash_to_node(slot) = id`. -/
@[simps -fullyApplied]
def setBucket (slot : Nat) (id : NodeId) : HashPond :=
  { s with hhBuckets := Function.update s.hhBuckets slot id }

/-- `node.next_node_id() = id`. -/
@[simps -fullyApplied]
def setNext (node id : NodeId) : HashPond :=
  { s with nextNodeId := Function.update s.nextNodeId node id }

/-- `insert_to_hash`. -/
def insertToHash (node : NodeId) : HashPond :=
  let slot := s.slotOf s.targetNewHash key
  let s := if s.hhBuckets slot = invalidNodeId then s.incFreeBucket (-1) else s
  let s := s.incNodeCnt 1
  let s := s.setNext node (s.hhBuckets slot)
  s.setBucket slot node

/-- The walk of `remove_from_hash_base` behind the head of a chain: the node
before the one to remove, if it is found. -/
def findPrev (s : HashPond) (removeNode : NodeId) : Nat → NodeId → NodeId → Option NodeId
  | 0, _, _ => none
  | rounds + 1, prev, next =>
    if next = invalidNodeId then none
    else if next = removeNode then some prev
    else findPrev s removeNode rounds next (s.nextNodeId next)

/-- `remove_from_hash_base`. -/
def removeFromHashBase (removeNode : NodeId) (newhash : Bool) : HashPond :=
  let slot := s.slotOf newhash key
  let head := s.hhBuckets slot
  if head = invalidNodeId then s
  else if head = removeNode then
    let s := s.setBucket slot (s.nextNodeId removeNode)
    let s := if s.hhBuckets slot = invalidNodeId then s.incFreeBucket 1 else s
    s.incNodeCnt (-1)
  else
    match s.findPrev removeNode (s.hhNode + 1) head (s.nextNodeId head) with
    | some prev => (s.setNext prev (s.nextNodeId removeNode)).incNodeCnt (-1)
    | none => s

/-- `remove_from_hash`. -/
def removeFromHash (removeNode : NodeId) : HashPond :=
  if s.hashChanging then
    (s.removeFromHashBase key removeNode true).removeFromHashBase key removeNode false
  else s.removeFromHashBase key removeNode s.targetNewHash

/-- `move_to_new_hash`. -/
def moveToNewHash (node : NodeId) : HashPond :=
  (s.removeFromHash key node).insertToHash key node

/-- `key_cmp(key, other) == 0`. -/
def keyEq (key other : PackedKey) : Bool :=
  let len := if s.hhFixedsize = 0 then (key.headD 0).toNat + 1 else s.hhFixedsize
  key.take len == other.take len

/-- The hash part of `purge_node`: the node leaves its chain and is reset. -/
def purgeNode (node : NodeId) : HashPond :=
  (s.removeFromHash key node).setNext node invalidNodeId

/-- The loop of `cache_find`. A node without a key is purged on the way. -/
def cacheFindLoop : Nat → HashPond → NodeId → Option NodeId × HashPond
  | 0, s, _ => (none, s)
  | rounds + 1, s, iter =>
    if iter = invalidNodeId then (none, s)
    else
      match s.nodeKey iter with
      | none => cacheFindLoop rounds (s.purgeNode key iter) (s.nextNodeId iter)
      | some other =>
        if s.keyEq key other then (some iter, s)
        else cacheFindLoop rounds s (s.nextNodeId iter)

/-- `cache_find`. -/
def cacheFind (newhash : Bool) : Option NodeId × HashPond :=
  cacheFindLoop key (s.hhNode + 1) s (s.hhBuckets (s.slotOf newhash key))

/-- `cache_find_auto_chose_hash`. -/
def cacheFindAutoChoseHash : Option NodeId × HashPond :=
  if s.hashChanging then
    let old := s.cacheFind key (!s.targetNewHash)
    match old.1 with
    | none => old.2.cacheFind key s.targetNewHash
    | some node => (some node, old.2.moveToNewHash key node)
  else s.cacheFind key s.targetNewHash

end HashPond

end Dtc.Buffer
