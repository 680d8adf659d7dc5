import Mathlib

/-!
# Height-balanced binary trees with stored balance factors

A node carries an arbitrary payload and the balance factor its owner stores in
it: the height of the right subtree minus the height of the left one. The tree
says nothing about the order of the payloads; `inorder` lists them from left to
right, so an ordering invariant is a statement about that list and survives any
rearrangement that keeps it.

`Balanced` demands that every stored factor is exact and lies between `-1` and
`1`. It depends on the shape alone, so replacing payloads in place (`map`) keeps it.
-/

namespace Library

/-- Binary trees whose nodes store a balance factor next to their payload. -/
inductive AvlTree (α : Type*) where
  | nil
  | node (left right : AvlTree α) (balance : Int) (payload : α)
  deriving Repr, DecidableEq

namespace AvlTree

variable {α : Type*}

/-- The number of nodes on a longest path from the root. -/
def height : AvlTree α → Nat
  | nil => 0
  | node left right _ _ => max left.height right.height + 1

/-- The payloads from left to right. -/
def inorder : AvlTree α → List α
  | nil => []
  | node left right _ payload => left.inorder ++ payload :: right.inorder

/-- The factor stored at the root, zero for the empty tree. -/
def rootBalance : AvlTree α → Int
  | nil => 0
  | node _ _ balance _ => balance

/-- Whether the tree is the empty one. -/
def isNil : AvlTree α → Bool
  | nil => true
  | node .. => false

section
variable (left right : AvlTree α) (balance : Int) (payload : α)

@[simp] theorem height_nil : (nil : AvlTree α).height = 0 := rfl

@[simp] theorem height_node :
    (node left right balance payload).height = max left.height right.height + 1 := rfl

@[simp] theorem inorder_nil : (nil : AvlTree α).inorder = [] := rfl

@[simp] theorem inorder_node :
    (node left right balance payload).inorder = left.inorder ++ payload :: right.inorder := rfl

@[simp] theorem rootBalance_node :
    (node left right balance payload).rootBalance = balance := rfl

@[simp] theorem isNil_nil : (nil : AvlTree α).isNil = true := rfl

@[simp] theorem isNil_node :
    (node left right balance payload).isNil = false := rfl

end

theorem isNil_iff {t : AvlTree α} : t.isNil = true ↔ t = nil := by
  cases t <;> simp

theorem isNil_eq_false_iff {t : AvlTree α} : t.isNil = false ↔ t ≠ nil := by
  cases t <;> simp

/-- Every stored factor is the exact height difference and lies in `{-1, 0, 1}`. -/
def Balanced : AvlTree α → Prop
  | nil => True
  | node left right balance _ =>
    balance = (right.height : Int) - left.height ∧ -1 ≤ balance ∧ balance ≤ 1 ∧
      left.Balanced ∧ right.Balanced

@[simp] theorem balanced_nil : (nil : AvlTree α).Balanced := trivial

@[simp] theorem balanced_node {left right : AvlTree α} {balance : Int} {payload : α} :
    (node left right balance payload).Balanced ↔
      balance = (right.height : Int) - left.height ∧ -1 ≤ balance ∧ balance ≤ 1 ∧
        left.Balanced ∧ right.Balanced := Iff.rfl

/-- The Fibonacci numbers bound the height of a balanced tree. -/
theorem Balanced.fib_le {t : AvlTree α} (balanced : t.Balanced) :
    Nat.fib (t.height + 2) ≤ t.inorder.length + 1 := by
  induction t with
  | nil => simp
  | node left right balance payload ihLeft ihRight =>
    obtain ⟨exact, low, high, hl, hr⟩ := balanced
    have first := ihLeft hl
    have second := ihRight hr
    have step {a b : Nat} (close : a ≤ b + 1) : Nat.fib (a + 1) ≤ Nat.fib (b + 2) :=
      Nat.fib_mono (Nat.succ_le_succ close)
    rw [height_node, Nat.fib_add_two, inorder_node, List.length_append, List.length_cons]
    rcases le_total left.height right.height with le | le
    · rw [max_eq_right le]
      exact (Nat.add_le_add ((step (by omega)).trans first) second).trans (by omega)
    · rw [max_eq_left le]
      exact (Nat.add_le_add ((step (by omega)).trans second) first).trans (by omega)

section Map
variable {β : Type*} (f : α → β)

/-- The same shape with other payloads. -/
def map : AvlTree α → AvlTree β
  | nil => nil
  | node left right balance payload => node left.map right.map balance (f payload)

@[simp] theorem inorder_map (t : AvlTree α) : (t.map f).inorder = t.inorder.map f := by
  induction t with
  | nil => rfl
  | node left right balance payload ihLeft ihRight => simp [map, ihLeft, ihRight]

@[simp] theorem height_map (t : AvlTree α) : (t.map f).height = t.height := by
  induction t with
  | nil => rfl
  | node left right balance payload ihLeft ihRight => simp [map, ihLeft, ihRight]

theorem Balanced.map {t : AvlTree α} (balanced : t.Balanced) : (t.map f).Balanced := by
  induction t with
  | nil => trivial
  | node left right balance payload ihLeft ihRight =>
    obtain ⟨exact, low, high, hl, hr⟩ := balanced
    exact ⟨by rw [height_map, height_map]; exact exact, low, high, ihLeft hl, ihRight hr⟩

end Map

end AvlTree
end Library
