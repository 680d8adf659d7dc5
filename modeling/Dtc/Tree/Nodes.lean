import Dtc.Tree.Ttree

/-!
# The number of T-tree nodes

`do_insert` reports through `isAllocNode` whether it has allocated a node. The flag is
exact for every comparator: a successful insertion has one node more if and only if
the flag was raised. `Delete` has a flag `isFreeNode` of the same kind, which is not
exact: it is raised before a node with one item and two children takes over an item of a
child, and the two exits that free a node do not raise it.
-/

namespace Dtc.Tree

open Library

variable {K R : Type*}

/-- The number of nodes of a tree. -/
def nodes (t : TtreeNode R) : Nat := t.inorder.length

@[simp] theorem nodes_nil : nodes (.nil : TtreeNode R) = 0 := rfl

@[simp] theorem nodes_node (hLeft hRight : TtreeNode R) (chBalance : Int) (items : List R) :
    nodes (.node hLeft hRight chBalance items) = nodes hLeft + nodes hRight + 1 := by
  simp only [nodes, AvlTree.inorder_node, List.length_append, List.length_cons]
  omega

theorem nodes_leaf (hRecord : R) : nodes (leaf hRecord) = 1 := rfl

section Turns
variable (hLeft hRight : TtreeNode R) (chBalance : Int) (items : List R)

theorem nodes_leftGrown :
    nodes (leftGrown hLeft hRight chBalance items).2 = nodes hLeft + nodes hRight + 1 := by
  unfold leftGrown
  split_ifs
  · exact nodes_node ..
  · exact nodes_node ..
  · cases hLeft with
    | nil => exact nodes_node ..
    | node ll lr lb litems =>
      dsimp only
      split_ifs
      · simp only [nodes_node]
        omega
      · cases lr with
        | nil => exact nodes_node ..
        | node =>
          simp only [nodes_node]
          omega

theorem nodes_rightGrown :
    nodes (rightGrown hLeft hRight chBalance items).2 = nodes hLeft + nodes hRight + 1 := by
  unfold rightGrown
  split_ifs
  · exact nodes_node ..
  · exact nodes_node ..
  · cases hRight with
    | nil => exact nodes_node ..
    | node rl rr rb ritems =>
      dsimp only
      split_ifs
      · simp only [nodes_node]
        omega
      · cases rl with
        | nil => exact nodes_node ..
        | node =>
          simp only [nodes_node]
          omega

end Turns

/-- A successful insertion into a tree of `before` nodes either leaves the number of nodes
and the flag alone, or has allocated one node and raised the flag. -/
def Counted (before : Nat) (isAllocNode : Bool) (res : InsertResult R) : Prop :=
  0 ≤ res.ret → res.isAllocNode = isAllocNode ∧ nodes res.hNode = before ∨
    res.isAllocNode = true ∧ nodes res.hNode = before + 1

/-- What a call for a child allocates counts for the whole node. -/
theorem Counted.node {t : TtreeNode R} {isAllocNode : Bool} {child res : InsertResult R} {before : Nat}
    (counted : Counted (nodes t) isAllocNode child) (ret : 0 ≤ child.ret)
    (flag : res.isAllocNode = child.isAllocNode)
    (rest : nodes res.hNode + nodes t = before + nodes child.hNode) :
    Counted before isAllocNode res := fun _ =>
  (counted ret).imp (fun same => ⟨flag.trans same.1, by omega⟩)
    fun grown => ⟨flag.trans grown.1, by omega⟩

section Insert
variable {c : KeyComparator K R} {mem : Bool}
  {recur : TtreeNode R → K → R → Bool → InsertResult R}
  (called : ∀ t key hRecord isAllocNode,
    Counted (nodes t) isAllocNode (recur t key hRecord isAllocNode))
  {hLeft hRight : TtreeNode R} {chBalance : Int} {items : List R} {key : K} {hRecord : R}
  {isAllocNode : Bool}

include called

theorem insertLeft_counted :
    Counted (nodes (.node hLeft hRight chBalance items)) isAllocNode
      (insertLeft mem recur hLeft hRight chBalance items key hRecord isAllocNode) := by
  unfold insertLeft
  dsimp only
  split_ifs with room empty allocated
  · exact fun _ => .inl ⟨rfl, by simp⟩
  · intro _
    rw [AvlTree.isNil_iff.mp empty]
    refine .inr ⟨rfl, ?_⟩
    rw [nodes_leftGrown, nodes_leaf, nodes_node, nodes_nil]
    omega
  · exact fun ret => absurd ret (by simp)
  · intro ret
    refine (called hLeft key hRecord isAllocNode).node ret rfl ?_ ret
    simp only [nodes_node]
    omega
  · refine (called hLeft key hRecord isAllocNode).node (by omega) rfl ?_
    dsimp only
    rw [nodes_leftGrown, nodes_node]
    omega

theorem insertRight_counted :
    Counted (nodes (.node hLeft hRight chBalance items)) isAllocNode
      (insertRight mem recur hLeft hRight chBalance items key hRecord isAllocNode) := by
  unfold insertRight
  dsimp only
  split_ifs with room empty allocated
  · exact fun _ => .inl ⟨rfl, by simp⟩
  · intro _
    rw [AvlTree.isNil_iff.mp empty]
    refine .inr ⟨rfl, ?_⟩
    rw [nodes_rightGrown, nodes_leaf, nodes_node, nodes_nil]
  · exact fun ret => absurd ret (by simp)
  · intro ret
    refine (called hRight key hRecord isAllocNode).node ret rfl ?_ ret
    simp only [nodes_node]
    omega
  · refine (called hRight key hRecord isAllocNode).node (by omega) rfl ?_
    dsimp only
    rw [nodes_rightGrown, nodes_node]
    omega

variable [Inhabited R]

theorem insertMiddle_counted (iRight : Nat) :
    Counted (nodes (.node hLeft hRight chBalance items)) isAllocNode
      (insertMiddle c recur hLeft hRight chBalance items iRight hRecord isAllocNode) := by
  unfold insertMiddle
  dsimp only
  split_ifs with room balance failed failed
  · exact fun _ => .inl ⟨rfl, by simp⟩
  · exact fun ret => absurd ret (not_le.mpr failed)
  · intro ret
    have again := called _ _ _ isAllocNode ret
    rwa [nodes_node] at again ⊢
  · exact fun ret => absurd ret (not_le.mpr failed)
  · intro ret
    have again := called _ _ _ isAllocNode ret
    rwa [nodes_node] at again ⊢

theorem insertBody_counted :
    Counted (nodes (.node hLeft hRight chBalance items)) isAllocNode
      (insertBody c mem recur hLeft hRight chBalance items key hRecord isAllocNode) := by
  have refused : ∀ t : TtreeNode R, Counted (nodes t) isAllocNode ⟨-2, t, isAllocNode⟩ :=
    fun _ ret => absurd ret (by simp)
  unfold insertBody
  dsimp only
  split_ifs
  · exact refused _
  · exact insertLeft_counted called
  · exact refused _
  · exact insertRight_counted called
  · cases searchItems c items key with
    | inl i => exact refused _
    | inr iRight => exact insertMiddle_counted called iRight

end Insert

section Ttree
variable [Inhabited R] (c : KeyComparator K R)

theorem doInsert_counted (mem : Bool) (fuel : Nat) (t : TtreeNode R) (key : K) (hRecord : R)
    (isAllocNode : Bool) :
    Counted (nodes t) isAllocNode (doInsert c mem fuel t key hRecord isAllocNode) := by
  induction fuel generalizing t key hRecord isAllocNode with
  | zero => cases t <;> exact fun ret => absurd ret (by simp [doInsert])
  | succ fuel ih =>
    cases t with
    | nil => exact fun ret => absurd ret (by simp [doInsert])
    | node => exact insertBody_counted ih

/-- `isAllocNode` is exact. -/
theorem Ttree.doInsert_nodes (root : TtreeNode R) (mem : Bool) (key : K) (hRecord : R)
    (ok : (Ttree.doInsert c root mem key hRecord false).ret = 0) :
    nodes (Ttree.doInsert c root mem key hRecord false).hNode = nodes root +
      if (Ttree.doInsert c root mem key hRecord false).isAllocNode then 1 else 0 := by
  unfold Ttree.doInsert at ok ⊢
  have counted := doInsert_counted c mem (insertFuel root) root key hRecord false
  generalize Tree.doInsert c mem (insertFuel root) root key hRecord false = node at *
  by_cases empty : root.isNil
  · rw [if_pos empty] at ok ⊢
    rw [AvlTree.isNil_iff.mp empty]
    cases mem with
    | true => rfl
    | false => exact absurd (show ecNoMem = 0 from ok) (by decide)
  rw [if_neg empty] at ok ⊢
  by_cases present : node.ret = -2
  · rw [if_pos present] at ok
    exact absurd (show ecKeyExist = 0 from ok) (by decide)
  rw [if_neg present] at ok ⊢
  by_cases noMem : node.ret = -1
  · rw [if_pos noMem] at ok
    exact absurd (show ecNoMem = 0 from ok) (by decide)
  rw [if_neg noMem] at ok ⊢
  by_cases failed : node.ret < 0
  · rw [if_pos failed] at ok
    exact absurd (show (-1 : Int) = 0 from ok) (by decide)
  rw [if_neg failed]
  rcases counted (not_lt.mp failed) with ⟨flag, same⟩ | ⟨flag, grown⟩
  · simp [flag, same]
  · simp [flag, grown]

end Ttree

end Dtc.Tree
