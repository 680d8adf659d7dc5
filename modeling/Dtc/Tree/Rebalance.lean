import Dtc.Tree.Node

/-!
# Rebalancing after growth and shrinkage

The four rearrangements of the source keep the payloads in order and restore
exact balance factors. Each is stated for a node that was balanced before one
child changed its height by one level; the reply tells whether the whole node
changed its height.

A child that has grown by one level below a node leaning to its side is itself
not level. This is what makes the single and double turns after an insertion
reach height balance, so it is part of the growth contract in both directions.
-/

namespace Dtc.Tree

open Library AvlTree

variable {α : Type*}

/-- Outcome of an insertion below a node of the given height: the payload list is
the stated one, and reply `1` means one more level with a leaning root. -/
structure Grows (height : Nat) (payloads : List α) (res : Int × AvlTree α) : Prop where
  ret : res.1 = 0 ∨ res.1 = 1
  balanced : res.2.Balanced
  inorder : res.2.inorder = payloads
  height : (res.2.height : Int) = height + res.1
  leans : res.1 = 1 → res.2.rootBalance ≠ 0

/-- Outcome of a deletion below a node of the given height: reply `1` means one
level less. -/
structure Shrinks (height : Nat) (payloads : List α) (res : Int × AvlTree α) : Prop where
  ret : res.1 = 0 ∨ res.1 = 1
  balanced : res.2.Balanced
  inorder : res.2.inorder = payloads
  height : (res.2.height : Int) = height - res.1

variable {hRight hLeft old : AvlTree α} {chBalance : Int} {items : α}

theorem leftGrown_grows (before : (node old hRight chBalance items).Balanced)
    (left : hLeft.Balanced) (grew : hLeft.height = old.height + 1)
    (leans : chBalance < 0 → hLeft.rootBalance ≠ 0) :
    Grows (node old hRight chBalance items).height
      (hLeft.inorder ++ items :: hRight.inorder)
      (leftGrown hLeft hRight chBalance items) := by
  obtain ⟨exact, low, high, -, right⟩ := before
  unfold leftGrown
  split_ifs with hpos hzero
  · exact ⟨.inl rfl, by simp [left, right]; omega, rfl, by simp; omega, by simp⟩
  · exact ⟨.inr rfl, by simp [left, right]; omega, rfl, by simp; omega, by simp⟩
  · cases hLeft with
    | nil => simp at grew
    | node ll lr lb litems =>
      simp only [balanced_node, height_node, rootBalance_node] at left grew leans
      obtain ⟨lexact, llow, lhigh, hll, hlr⟩ := left
      simp only
      split_ifs with hlb
      · exact ⟨.inl rfl, by simp [hll, hlr, right]; omega, by simp, by simp; omega, by simp⟩
      · have := leans (by omega)
        cases lr with
        | nil => simp at lexact; omega
        | node rl rr rb ritems =>
          simp only [balanced_node, height_node] at hlr grew lexact
          obtain ⟨rexact, rlow, rhigh, hrl, hrr⟩ := hlr
          refine ⟨.inl rfl, ?_, by simp, ?_, by simp⟩
          · simp only [balanced_node, height_node, hll, hrl, hrr, right, and_true]
            split_ifs <;> omega
          · simp only [height_node]
            omega

theorem rightGrown_grows (before : (node hLeft old chBalance items).Balanced)
    (right : hRight.Balanced) (grew : hRight.height = old.height + 1)
    (leans : 0 < chBalance → hRight.rootBalance ≠ 0) :
    Grows (node hLeft old chBalance items).height
      (hLeft.inorder ++ items :: hRight.inorder)
      (rightGrown hLeft hRight chBalance items) := by
  obtain ⟨exact, low, high, left, -⟩ := before
  unfold rightGrown
  split_ifs with hneg hzero
  · exact ⟨.inl rfl, by simp [left, right]; omega, rfl, by simp; omega, by simp⟩
  · exact ⟨.inr rfl, by simp [left, right]; omega, rfl, by simp; omega, by simp⟩
  · cases hRight with
    | nil => simp at grew
    | node rl rr rb ritems =>
      simp only [balanced_node, height_node, rootBalance_node] at right grew leans
      obtain ⟨rexact, rlow, rhigh, hrl, hrr⟩ := right
      simp only
      split_ifs with hrb
      · exact ⟨.inl rfl, by simp [hrl, hrr, left]; omega, by simp, by simp; omega, by simp⟩
      · have := leans (by omega)
        cases rl with
        | nil => simp at rexact; omega
        | node ll lr lb litems =>
          simp only [balanced_node, height_node] at hrl grew rexact
          obtain ⟨lexact, llow, lhigh, hll, hlr⟩ := hrl
          refine ⟨.inl rfl, ?_, by simp, ?_, by simp⟩
          · simp only [balanced_node, height_node, hll, hlr, hrr, left, and_true]
            split_ifs <;> omega
          · simp only [height_node]
            omega

theorem balanceLeftBranch_shrinks (before : (node old hRight chBalance items).Balanced)
    (left : hLeft.Balanced) (shrank : hLeft.height + 1 = old.height) :
    Shrinks (node old hRight chBalance items).height
      (hLeft.inorder ++ items :: hRight.inorder)
      (balanceLeftBranch hLeft hRight chBalance items) := by
  obtain ⟨exact, low, high, -, right⟩ := before
  unfold balanceLeftBranch
  split_ifs with hneg hzero
  · exact ⟨.inr rfl, by simp [left, right]; omega, rfl, by simp; omega⟩
  · exact ⟨.inl rfl, by simp [left, right]; omega, rfl, by simp; omega⟩
  · cases hRight with
    | nil => simp at exact; omega
    | node rl rr rb ritems =>
      simp only [balanced_node, height_node] at right exact
      obtain ⟨rexact, rlow, rhigh, hrl, hrr⟩ := right
      simp only
      split_ifs with hrb hrz
      · exact ⟨.inl rfl, by simp [hrl, hrr, left]; omega, by simp, by simp; omega⟩
      · exact ⟨.inr rfl, by simp [hrl, hrr, left]; omega, by simp, by simp; omega⟩
      · cases rl with
        | nil => simp at rexact; omega
        | node ll lr lb litems =>
          simp only [balanced_node, height_node] at hrl exact rexact
          obtain ⟨lexact, llow, lhigh, hll, hlr⟩ := hrl
          refine ⟨.inr rfl, ?_, by simp, ?_⟩
          · simp only [balanced_node, height_node, hll, hlr, hrr, left, and_true]
            split_ifs <;> omega
          · simp only [height_node]
            omega

theorem balanceRightBranch_shrinks (before : (node hLeft old chBalance items).Balanced)
    (right : hRight.Balanced) (shrank : hRight.height + 1 = old.height) :
    Shrinks (node hLeft old chBalance items).height
      (hLeft.inorder ++ items :: hRight.inorder)
      (balanceRightBranch hLeft hRight chBalance items) := by
  obtain ⟨exact, low, high, left, -⟩ := before
  unfold balanceRightBranch
  split_ifs with hpos hzero
  · exact ⟨.inr rfl, by simp [left, right]; omega, rfl, by simp; omega⟩
  · exact ⟨.inl rfl, by simp [left, right]; omega, rfl, by simp; omega⟩
  · cases hLeft with
    | nil => simp at exact; omega
    | node ll lr lb litems =>
      simp only [balanced_node, height_node] at left exact
      obtain ⟨lexact, llow, lhigh, hll, hlr⟩ := left
      simp only
      split_ifs with hlb hlz
      · exact ⟨.inl rfl, by simp [hll, hlr, right]; omega, by simp, by simp; omega⟩
      · exact ⟨.inr rfl, by simp [hll, hlr, right]; omega, by simp, by simp; omega⟩
      · cases lr with
        | nil => simp at lexact; omega
        | node rl rr rb ritems =>
          simp only [balanced_node, height_node] at hlr exact lexact
          obtain ⟨rexact, rlow, rhigh, hrl, hrr⟩ := hlr
          refine ⟨.inr rfl, ?_, by simp, ?_⟩
          · simp only [balanced_node, height_node, hll, hrl, hrr, right, and_true]
            split_ifs <;> omega
          · simp only [height_node]
            omega

end Dtc.Tree
