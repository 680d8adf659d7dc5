import Mathlib

/-!
# Sized items laid end to end

A list of sized items and a start address tile a range: each item begins where the
one before it ends. `place` lists the items with their addresses, `walk` gives each
item its predecessor as well. Both split along an append, so a change in the middle of
the list leaves the addresses on both sides as they are.
-/

namespace Library.Tiling

open List

variable {β : Type*} (size : β → Nat)

/-- The length of the tiled range. -/
def span (bs : List β) : Nat := (bs.map size).sum

/-- The items with their addresses. -/
def place : Nat → List β → List (Nat × β)
  | _, [] => []
  | a, b :: bs => (a, b) :: place (a + size b) bs

/-- The last item, or the one given for the empty list. -/
def lastOr : Option β → List β → Option β
  | before, [] => before
  | _, b :: bs => lastOr (some b) bs

/-- The items with their predecessors and addresses. -/
def walk : Option β → Nat → List β → List (Option β × Nat × β)
  | _, _, [] => []
  | before, a, b :: bs => (before, a, b) :: walk (some b) (a + size b) bs

variable {size} {a x y : Nat} {b c : β} {before : Option β} {bs xs ys : List β}

@[simp] theorem span_nil : span size [] = 0 := rfl

@[simp] theorem span_cons : span size (b :: bs) = size b + span size bs := rfl

@[simp] theorem span_append : span size (xs ++ ys) = span size xs + span size ys := by
  simp [span]

theorem dvd_span {k : Nat} (dvd : ∀ b ∈ bs, k ∣ size b) : k ∣ span size bs := by
  induction bs with
  | nil => exact Nat.dvd_zero k
  | cons b bs ih =>
    rw [forall_mem_cons] at dvd
    exact Nat.dvd_add dvd.1 (ih dvd.2)

@[simp] theorem place_cons : place size a (b :: bs) = (a, b) :: place size (a + size b) bs := rfl

theorem place_append :
    place size a (xs ++ ys) = place size a xs ++ place size (a + span size xs) ys := by
  induction xs generalizing a with
  | nil => rfl
  | cons x xs ih => simp [ih, Nat.add_assoc]

@[simp] theorem lastOr_nil : lastOr before ([] : List β) = before := rfl

@[simp] theorem lastOr_cons : lastOr before (b :: bs) = lastOr (some b) bs := rfl

@[simp] theorem lastOr_concat : lastOr before (xs ++ [b]) = some b := by
  induction xs generalizing before with
  | nil => rfl
  | cons x xs ih => exact ih

@[simp] theorem walk_cons :
    walk size before a (b :: bs) = (before, a, b) :: walk size (some b) (a + size b) bs := rfl

theorem walk_append : walk size before a (xs ++ ys) =
    walk size before a xs ++ walk size (lastOr before xs) (a + span size xs) ys := by
  induction xs generalizing a before with
  | nil => rfl
  | cons x xs ih => simp [ih, Nat.add_assoc]

/-- An item lies inside the range. -/
theorem bounds_of_mem_place (mem : (x, b) ∈ place size a bs) :
    a ≤ x ∧ x + size b ≤ a + span size bs := by
  induction bs generalizing a with
  | nil => exact absurd mem not_mem_nil
  | cons c bs ih =>
    rw [place_cons, mem_cons] at mem
    rw [span_cons]
    cases mem with
    | inl first =>
      obtain ⟨rfl, rfl⟩ := Prod.mk.inj first
      omega
    | inr later =>
      have := ih later
      omega

/-- The items before and behind a placed item. -/
theorem split_of_mem_place (mem : (x, b) ∈ place size a bs) :
    ∃ l r, bs = l ++ b :: r ∧ x = a + span size l := by
  induction bs generalizing a with
  | nil => exact absurd mem not_mem_nil
  | cons c bs ih =>
    rw [place_cons, mem_cons] at mem
    cases mem with
    | inl first =>
      obtain ⟨rfl, rfl⟩ := Prod.mk.inj first
      exact ⟨[], bs, rfl, rfl⟩
    | inr later =>
      obtain ⟨l, r, rfl, rfl⟩ := ih later
      exact ⟨c :: l, r, rfl, by rw [span_cons, Nat.add_assoc]⟩

/-- An item is found at its address. -/
theorem mem_place_middle {l r : List β} (hx : x = a + span size l) :
    (x, b) ∈ place size a (l ++ b :: r) := by
  rw [place_append, place_cons, ← hx]
  exact mem_append_right _ mem_cons_self

theorem mem_of_mem_place (mem : (x, b) ∈ place size a bs) : b ∈ bs := by
  obtain ⟨l, r, rfl, -⟩ := split_of_mem_place mem
  exact mem_append_right l mem_cons_self

theorem mem_place_of_mem_walk {e : Option β × Nat × β} (mem : e ∈ walk size before a bs) :
    e.2 ∈ place size a bs := by
  induction bs generalizing a before with
  | nil => exact absurd mem not_mem_nil
  | cons c bs ih =>
    rw [walk_cons, mem_cons] at mem
    cases mem with
    | inl first => exact first ▸ mem_cons_self
    | inr later => exact mem_cons_of_mem _ (ih later)

/-- Two placed items are one behind the other, or at one address. -/
theorem place_apart (first : (x, b) ∈ place size a bs) (second : (y, c) ∈ place size a bs) :
    x + size b ≤ y ∨ y + size c ≤ x ∨ x = y ∧ b = c := by
  obtain ⟨l, r, rfl, rfl⟩ := split_of_mem_place first
  rw [place_append, place_cons, mem_append, mem_cons] at second
  obtain below | here | above := second
  · have := bounds_of_mem_place below
    omega
  · obtain ⟨rfl, rfl⟩ := Prod.mk.inj here
    exact .inr (.inr ⟨rfl, rfl⟩)
  · have := bounds_of_mem_place above
    omega

end Library.Tiling
