import Dtc.Library.AvlTree

/-!
# T-tree nodes

The functions of `_TtreeNode` on trees whose payload is the used prefix of
`m_ahItems`; its length is `m_ushNItems`. A handle to a node is the tree below
it, `INVALID_HANDLE` is the empty tree, and a function that takes the handle by
reference returns the tree the handle denotes afterwards.

A comparison result is `int64_t` in the type of the comparator, but every caller
stores it in an `int`. `iDiff` is the stored value, so a comparator whose result
does not fit is seen by the model as it is seen by the code.

`stMalloc.Malloc` is called at most once in one insertion. Its outcome is the
argument `mem`; a failed allocation is an ordinary reply of the function.
-/

namespace Dtc.Tree

open Library

/-- `PAGE_SIZE`. -/
def pageSize : Nat := 20

/-- `MIN_ITEMS`. -/
def minItems : Nat := pageSize - 2

/-- `TTREE_INDEX_POS`, the number of the index field. -/
def ttreeIndexPos : Nat := 1

/-- A user comparator together with `convert_cvalue`, which reads the key back
from a stored record. -/
structure KeyComparator (K R : Type*) where
  pfComp : K → R → Int
  convertCvalue : R → K

/-- `int iDiff = pfComp(...)`: the 64-bit result narrowed to a 32-bit `int`. -/
def KeyComparator.iDiff {K R : Type*} (c : KeyComparator K R) (key : K) (hRecord : R) : Int :=
  (c.pfComp key hRecord).bmod (2 ^ 32)

/-- A node handle: the tree below it, each node with its used items. -/
abbrev TtreeNode (R : Type*) := AvlTree (List R)

variable {K R : Type*} [Inhabited R] (c : KeyComparator K R)

/-- The node `Alloc` initialises around its first record. -/
def leaf (hRecord : R) : TtreeNode R := .node .nil .nil 0 [hRecord]

/-- `m_ahItems[i]`. -/
def item (items : List R) (i : Nat) : R := items.getD i default

/-- Reply of `do_insert`: the return value, the node the handle denotes
afterwards, and the out parameter `isAllocNode`. -/
structure InsertResult (R : Type*) where
  ret : Int
  hNode : TtreeNode R
  isAllocNode : Bool

/-- Reply of `Delete`. -/
structure DeleteResult (R : Type*) where
  ret : Int
  hNode : TtreeNode R
  isFreeNode : Bool

section Rebalance
variable {α : Type*} (hLeft hRight : AvlTree α) (chBalance : Int) (items : α)

/-- The end of the left branch of `do_insert`: the left subtree has grown. -/
def leftGrown : Int × AvlTree α :=
  if 0 < chBalance then (0, .node hLeft hRight 0 items)
  else if chBalance = 0 then (1, .node hLeft hRight (-1) items)
  else
    match hLeft with
    | .nil => (0, .node hLeft hRight chBalance items)
    | .node ll lr lb litems =>
      if lb < 0 then
        -- single LL turn
        (0, .node ll (.node lr hRight 0 items) 0 litems)
      else
        -- double LR turn
        match lr with
        | .nil => (0, .node hLeft hRight chBalance items)
        | .node rl rr rb ritems =>
          (0, .node (.node ll rl (if 0 < rb then -1 else 0) litems)
            (.node rr hRight (if rb < 0 then 1 else 0) items) 0 ritems)

/-- The end of the right branch of `do_insert`: the right subtree has grown. -/
def rightGrown : Int × AvlTree α :=
  if chBalance < 0 then (0, .node hLeft hRight 0 items)
  else if chBalance = 0 then (1, .node hLeft hRight 1 items)
  else
    match hRight with
    | .nil => (0, .node hLeft hRight chBalance items)
    | .node rl rr rb ritems =>
      if 0 < rb then
        -- single RR turn
        (0, .node (.node hLeft rl 0 items) rr 0 ritems)
      else
        -- double RL turn
        match rl with
        | .nil => (0, .node hLeft hRight chBalance items)
        | .node ll lr lb litems =>
          (0, .node (.node hLeft ll (if 0 < lb then -1 else 0) items)
            (.node lr rr (if lb < 0 then 1 else 0) ritems) 0 litems)

/-- `balance_left_branch`: the left subtree has lost one level. -/
def balanceLeftBranch : Int × AvlTree α :=
  if chBalance < 0 then (1, .node hLeft hRight 0 items)
  else if chBalance = 0 then (0, .node hLeft hRight 1 items)
  else
    match hRight with
    | .nil => (0, .node hLeft hRight chBalance items)
    | .node rl rr rb ritems =>
      if 0 ≤ rb then
        -- single RR turn
        if rb = 0 then (0, .node (.node hLeft rl 1 items) rr (-1) ritems)
        else (1, .node (.node hLeft rl 0 items) rr 0 ritems)
      else
        -- double RL turn
        match rl with
        | .nil => (0, .node hLeft hRight chBalance items)
        | .node ll lr lb litems =>
          (1, .node (.node hLeft ll (if 0 < lb then -1 else 0) items)
            (.node lr rr (if lb < 0 then 1 else 0) ritems) 0 litems)

/-- `balance_right_branch`: the right subtree has lost one level. -/
def balanceRightBranch : Int × AvlTree α :=
  if 0 < chBalance then (1, .node hLeft hRight 0 items)
  else if chBalance = 0 then (0, .node hLeft hRight (-1) items)
  else
    match hLeft with
    | .nil => (0, .node hLeft hRight chBalance items)
    | .node ll lr lb litems =>
      if lb ≤ 0 then
        -- single LL turn
        if lb = 0 then (0, .node ll (.node lr hRight (-1) items) 1 litems)
        else (1, .node ll (.node lr hRight 0 items) 0 litems)
      else
        -- double LR turn
        match lr with
        | .nil => (0, .node hLeft hRight chBalance items)
        | .node rl rr rb ritems =>
          (1, .node (.node ll rl (if 0 < rb then -1 else 0) litems)
            (.node rr hRight (if rb < 0 then 1 else 0) items) 0 ritems)

end Rebalance

/-- The loop that narrows `[iLeft, iRight)` around the key. `inl i` is a hit at
position `i`, `inr iRight` the final right bound. Each round shortens the
interval, so `iRight - iLeft` rounds are enough. -/
def searchLoop (items : List R) (key : K) : Nat → Nat → Nat → Nat ⊕ Nat
  | 0, _, iRight => .inr iRight
  | rounds + 1, iLeft, iRight =>
    if iLeft < iRight then
      let i := (iLeft + iRight) / 2
      let iDiff := c.iDiff key (item items i)
      if iDiff = 0 then .inl i
      else if 0 < iDiff then searchLoop items key rounds (i + 1) iRight
      else searchLoop items key rounds iLeft i
    else .inr iRight

/-- The binary search of `do_insert` and `do_find` between the first and the
last item, both already compared. -/
def searchItems (items : List R) (key : K) : Nat ⊕ Nat :=
  searchLoop c items key items.length 1 (items.length - 1)

section Insert

-- `recur` is the recursive call of `do_insert` on a handle.
variable (mem : Bool) (recur : TtreeNode R → K → R → Bool → InsertResult R)
variable (hLeft hRight : TtreeNode R) (chBalance : Int) (items : List R)

/-- `do_insert`, the key is below the first item. -/
def insertLeft (key : K) (hRecord : R) (isAllocNode : Bool) : InsertResult R :=
  if hLeft.isNil ∧ items.length < pageSize then
    ⟨0, .node hLeft hRight chBalance (hRecord :: items), isAllocNode⟩
  else if hLeft.isNil then
    if mem then
      let grown := leftGrown (leaf hRecord) hRight chBalance items
      ⟨grown.1, grown.2, true⟩
    else ⟨-1, .node hLeft hRight chBalance items, isAllocNode⟩
  else
    let child := recur hLeft key hRecord isAllocNode
    if child.ret ≤ 0 then
      ⟨child.ret, .node child.hNode hRight chBalance items, child.isAllocNode⟩
    else
      let grown := leftGrown child.hNode hRight chBalance items
      ⟨grown.1, grown.2, child.isAllocNode⟩

/-- `do_insert`, the key is above the last item. -/
def insertRight (key : K) (hRecord : R) (isAllocNode : Bool) : InsertResult R :=
  if hRight.isNil ∧ items.length < pageSize then
    ⟨0, .node hLeft hRight chBalance (items ++ [hRecord]), isAllocNode⟩
  else if hRight.isNil then
    if mem then
      let grown := rightGrown hLeft (leaf hRecord) chBalance items
      ⟨grown.1, grown.2, true⟩
    else ⟨-1, .node hLeft hRight chBalance items, isAllocNode⟩
  else
    let child := recur hRight key hRecord isAllocNode
    if child.ret ≤ 0 then
      ⟨child.ret, .node hLeft child.hNode chBalance items, child.isAllocNode⟩
    else
      let grown := rightGrown hLeft child.hNode chBalance items
      ⟨grown.1, grown.2, child.isAllocNode⟩

/-- Copy the saved items back into the node the handle denotes. -/
def restoreItems (items : List R) : TtreeNode R → TtreeNode R
  | .nil => .nil
  | .node hLeft hRight chBalance _ => .node hLeft hRight chBalance items

/-- `do_insert`, the key belongs before `items[iRight]`. A full node gives up its
first or its last item, which is inserted again from the same node; the items
are restored when that fails. -/
def insertMiddle (iRight : Nat) (hRecord : R) (isAllocNode : Bool) : InsertResult R :=
  let shifted := items.insertIdx iRight hRecord
  if items.length < pageSize then
    ⟨0, .node hLeft hRight chBalance shifted, isAllocNode⟩
  else
    let hReInsert := if 0 ≤ chBalance then item items 0 else item items (items.length - 1)
    let kept := if 0 ≤ chBalance then shifted.tail else shifted.dropLast
    let again := recur (.node hLeft hRight chBalance kept) (c.convertCvalue hReInsert)
      hReInsert isAllocNode
    if again.ret < 0 then ⟨again.ret, restoreItems items again.hNode, again.isAllocNode⟩
    else again

/-- The body of `do_insert` on a node. -/
def insertBody (key : K) (hRecord : R) (isAllocNode : Bool) : InsertResult R :=
  let node : TtreeNode R := .node hLeft hRight chBalance items
  let first := c.iDiff key (item items 0)
  let last := c.iDiff key (item items (items.length - 1))
  if first = 0 then ⟨-2, node, isAllocNode⟩
  else if first < 0 then
    insertLeft mem recur hLeft hRight chBalance items key hRecord isAllocNode
  else if last = 0 then ⟨-2, node, isAllocNode⟩
  else if 0 < last then
    insertRight mem recur hLeft hRight chBalance items key hRecord isAllocNode
  else
    match searchItems c items key with
    | .inl _ => ⟨-2, node, isAllocNode⟩
    | .inr iRight =>
      insertMiddle c recur hLeft hRight chBalance items iRight hRecord isAllocNode

end Insert

/-- `_TtreeNode::do_insert`. The overflow branch calls the function on the same
node again, so the recursion is bounded by `fuel`; running out is the reply `-3`. -/
def doInsert (mem : Bool) : Nat → TtreeNode R → K → R → Bool → InsertResult R
  | fuel + 1, .node hLeft hRight chBalance items, key, hRecord, isAllocNode =>
    insertBody c mem (doInsert mem fuel) hLeft hRight chBalance items key hRecord isAllocNode
  | _, hNode, _, _, isAllocNode => ⟨-3, hNode, isAllocNode⟩

/-- The last item of the rightmost node of a subtree. -/
def lastRecord : TtreeNode R → R
  | .nil => default
  | .node _ .nil _ items => item items (items.length - 1)
  | .node _ hRight _ _ => lastRecord hRight

/-- The first item of the leftmost node of a subtree. -/
def firstRecord : TtreeNode R → R
  | .nil => default
  | .node .nil _ _ items => item items 0
  | .node hLeft _ _ _ => firstRecord hLeft

section Delete

-- `delLeft` and `delRight` are `Delete` on the two children.
variable (delLeft delRight : K → Bool → DeleteResult R)
variable (hLeft hRight : TtreeNode R) (chBalance : Int) (items : List R)

/-- What the callers of `Delete` on the left child do with its reply. -/
def afterDeleteLeft (child : DeleteResult R) : DeleteResult R :=
  if 0 < child.ret then
    let balanced := balanceLeftBranch child.hNode hRight chBalance items
    ⟨balanced.1, balanced.2, child.isFreeNode⟩
  else ⟨child.ret, .node child.hNode hRight chBalance items, child.isFreeNode⟩

/-- What the callers of `Delete` on the right child do with its reply. -/
def afterDeleteRight (child : DeleteResult R) : DeleteResult R :=
  if 0 < child.ret then
    let balanced := balanceRightBranch hLeft child.hNode chBalance items
    ⟨balanced.1, balanced.2, child.isFreeNode⟩
  else ⟨child.ret, .node hLeft child.hNode chBalance items, child.isFreeNode⟩

/-- `Delete`, the key is item `i` of the node. A node with at most `MIN_ITEMS`
items takes the greatest record of its left subtree or the least one of its
right subtree in place of the deleted one. -/
def deleteItem (i : Nat) (isFreeNode : Bool) : DeleteResult R :=
  if items.length = 1 ∧ hRight.isNil then ⟨1, hLeft, isFreeNode⟩
  else if items.length = 1 ∧ hLeft.isNil then ⟨1, hRight, isFreeNode⟩
  else
    let isFreeNode := isFreeNode || items.length == 1
    if items.length ≤ minItems ∧ ¬ hLeft.isNil ∧ chBalance ≤ 0 then
      let moved := lastRecord hLeft
      afterDeleteLeft hRight chBalance (moved :: items.eraseIdx i)
        (delLeft (c.convertCvalue moved) isFreeNode)
    else if items.length ≤ minItems ∧ ¬ hRight.isNil then
      let moved := firstRecord hRight
      afterDeleteRight hLeft chBalance (items.eraseIdx i ++ [moved])
        (delRight (c.convertCvalue moved) isFreeNode)
    else ⟨0, .node hLeft hRight chBalance (items.eraseIdx i), isFreeNode⟩

/-- The end of `Delete`: go on in the right subtree. -/
def deleteRight (key : K) (isFreeNode : Bool) : DeleteResult R :=
  if hRight.isNil then ⟨-1, .node hLeft hRight chBalance items, isFreeNode⟩
  else afterDeleteRight hLeft chBalance items (delRight key isFreeNode)

/-- `Delete` from the comparison with the last item on. The items are searched by the result
that is not narrowed. -/
def deleteHere (key : K) (isFreeNode : Bool) : DeleteResult R :=
  if c.iDiff key (item items (items.length - 1)) ≤ 0 then
    match items.findIdx? (fun hRecord => c.pfComp key hRecord = 0) with
    | some i => deleteItem c delLeft delRight hLeft hRight chBalance items i isFreeNode
    | none => deleteRight delRight hLeft hRight chBalance items key isFreeNode
  else deleteRight delRight hLeft hRight chBalance items key isFreeNode

/-- The body of `Delete` on a node. An absent key is searched on below the node
even after the left subtree has reported it absent. -/
def deleteBody (key : K) (isFreeNode : Bool) : DeleteResult R :=
  if c.iDiff key (item items 0) < 0 ∧ ¬ hLeft.isNil then
    let child := delLeft key isFreeNode
    if child.ret = -1 then
      deleteHere c delLeft delRight child.hNode hRight chBalance items key child.isFreeNode
    else afterDeleteLeft hRight chBalance items child
  else deleteHere c delLeft delRight hLeft hRight chBalance items key isFreeNode

end Delete

/-- `_TtreeNode::Delete`. -/
def delete : TtreeNode R → K → Bool → DeleteResult R
  | .nil, _, isFreeNode => ⟨-3, .nil, isFreeNode⟩
  | .node hLeft hRight chBalance items, key, isFreeNode =>
    deleteBody c (delete hLeft) (delete hRight) hLeft hRight chBalance items key isFreeNode

/-- `_TtreeNode::do_find`: the record found, if any. -/
def doFind : TtreeNode R → K → Option R
  | .nil, _ => none
  | .node hLeft hRight _ items, key =>
    if items.length = 0 then none
    else
      let first := c.iDiff key (item items 0)
      let last := c.iDiff key (item items (items.length - 1))
      if first = 0 then some (item items 0)
      else if 0 < first then
        if last = 0 then some (item items (items.length - 1))
        else if 0 < last then doFind hRight key
        else
          match searchItems c items key with
          | .inl i => some (item items i)
          | .inr _ => none
      else doFind hLeft key

end Dtc.Tree
