import Mathlib

/-!
# Doubly linked rings

Nodes are linked forwards and backwards by two maps. A ring is the list of its
members together with its head, a node of its own: each node of the closed list
`h :: xs ++ [h]` points forwards to its successor, which points back to it. With the
head as a node, removing and inserting a member need no cases for the ends of the
list.
-/

namespace Library

open List Function

variable {α : Type*}

/-- Two nodes that point to each other. -/
def Linked (fwd bwd : α → α) (x y : α) : Prop := fwd x = y ∧ bwd y = x

/-- The ring with head `h` and members `xs`, in forward order. -/
structure LinkedRing (fwd bwd : α → α) (h : α) (xs : List α) : Prop where
  nodup : (h :: xs).Nodup
  linked : (h :: (xs ++ [h])).IsChain (Linked fwd bwd)

/-- The nodes from `x` on, up to the head. -/
def follow [DecidableEq α] (fwd : α → α) (h : α) : Nat → α → List α
  | 0, _ => []
  | count + 1, x => if x = h then [] else x :: follow fwd h count (fwd x)

namespace LinkedRing
variable {fwd bwd fwd' bwd' : α → α} {h c : α} {xs ys zs : List α}

theorem empty (fwd_h : fwd h = h) (bwd_h : bwd h = h) : LinkedRing fwd bwd h [] := by
  refine ⟨nodup_singleton h, ?_⟩
  rw [nil_append, isChain_pair]
  exact ⟨fwd_h, bwd_h⟩

section
variable (ring : LinkedRing fwd bwd h xs)
include ring

/-- The links determine the members. -/
theorem unique (ring' : LinkedRing fwd bwd h ys) : xs = ys := by
  have absent := (nodup_cons.mp ring.nodup).1
  have absent' := (nodup_cons.mp ring'.nodup).1
  have linked := ring.linked
  have linked' := ring'.linked
  clear ring ring'
  -- the members before are the same, so that both lists go on from one node
  suffices ∀ start, (start :: (xs ++ [h])).IsChain (Linked fwd bwd) →
      (start :: (ys ++ [h])).IsChain (Linked fwd bwd) → xs = ys from this h linked linked'
  clear linked linked'
  induction xs generalizing ys with
  | nil =>
    intro start chain chain'
    cases ys with
    | nil => rfl
    | cons y ys =>
      rw [nil_append, isChain_pair] at chain
      rw [cons_append, isChain_cons_cons] at chain'
      exact absurd (chain.1.symm.trans chain'.1.1 ▸ mem_cons_self) absent'
  | cons x xs ih =>
    intro start chain chain'
    rw [cons_append, isChain_cons_cons] at chain
    cases ys with
    | nil =>
      rw [nil_append, isChain_pair] at chain'
      exact absurd (chain'.1.symm.trans chain.1.1 ▸ mem_cons_self) absent
    | cons y ys =>
      rw [cons_append, isChain_cons_cons] at chain'
      obtain rfl : x = y := chain.1.1.symm.trans chain'.1.1
      rw [mem_cons, not_or] at absent absent'
      rw [ih absent.2 absent'.2 x chain.2 chain'.2]

/-- Only the links of the nodes matter. -/
theorem congr
    (same : ∀ x ∈ h :: xs, fwd' x = fwd x ∧ bwd' x = bwd x) : LinkedRing fwd' bwd' h xs := by
  have closed : ∀ x ∈ h :: (xs ++ [h]), x ∈ h :: xs := by
    intro x hx
    simp only [mem_cons, mem_append, not_mem_nil, or_false] at hx ⊢
    tauto
  refine ⟨ring.nodup, ring.linked.imp_of_mem_imp ?_⟩
  intro x y hx hy link
  exact ⟨(same x (closed x hx)).1.trans link.1, (same y (closed y hy)).2.trans link.2⟩

/-- The first member follows the head. -/
theorem fwd_head : fwd h = xs.headD h := by
  have linked := ring.linked
  cases xs with
  | nil => exact (isChain_pair.mp linked).1
  | cons x xs => exact (isChain_cons_cons.mp linked).1.1

/-- The last member precedes the head. -/
theorem bwd_head : bwd h = xs.getLastD h := by
  have linked := ring.linked
  cases xs using reverseRecOn with
  | nil => exact (isChain_pair.mp linked).2
  | append_singleton xs x _ =>
    rw [append_assoc, singleton_append, ← cons_append, isChain_append_cons_cons] at linked
    rw [getLastD_concat]
    exact linked.2.1.2

end

/-- A ring cut open at a member: the nodes before it, the node after it. -/
theorem cut (ring : LinkedRing fwd bwd h (ys ++ c :: zs)) :
    ∃ us vs, h :: ys = us ++ [bwd c] ∧ zs ++ [h] = fwd c :: vs ∧
      (us ++ [bwd c]).IsChain (Linked fwd bwd) ∧ (fwd c :: vs).IsChain (Linked fwd bwd) ∧
      fwd (bwd c) = c ∧ bwd (fwd c) = c := by
  obtain ⟨us, u, before⟩ := (h :: ys).eq_nil_or_concat'.resolve_left (by simp)
  obtain ⟨v, vs, after⟩ := exists_cons_of_ne_nil (show zs ++ [h] ≠ [] by simp)
  have linked := ring.linked
  rw [append_assoc, cons_append, ← cons_append, before, after, append_assoc,
    singleton_append, isChain_append_cons_cons, isChain_cons_cons] at linked
  obtain ⟨left, toC, fromC, right⟩ := linked
  obtain rfl : bwd c = u := toC.2
  obtain rfl : fwd c = v := fromC.1
  exact ⟨us, vs, before, after, left, right, toC.1, fromC.2⟩

/-- The neighbours of a member are other nodes of the ring. -/
theorem neighbours (ring : LinkedRing fwd bwd h xs) (mem : c ∈ xs) :
    (bwd c ∈ h :: xs ∧ bwd c ≠ c) ∧ fwd c ∈ h :: xs ∧ fwd c ≠ c := by
  obtain ⟨ys, zs, rfl⟩ := append_of_mem mem
  obtain ⟨us, vs, before, after, -, -, -, -⟩ := ring.cut
  have pre : bwd c ∈ h :: ys := before ▸ mem_append_right us (by simp)
  have next : fwd c ∈ zs ++ [h] := after ▸ mem_cons_self
  have absent : c ∉ h :: (ys ++ zs) := by
    have := ring.nodup
    simp only [nodup_cons, mem_append, mem_cons, nodup_middle] at this ⊢
    tauto
  simp only [mem_cons, mem_append, not_mem_nil, or_false] at pre next absent ⊢
  refine ⟨⟨by tauto, fun eq => ?_⟩, by tauto, fun eq => ?_⟩
  · rw [eq] at pre
    tauto
  · rw [eq] at next
    tauto

section Update
variable [DecidableEq α]

/-- Removing a member: its neighbours are linked to each other. -/
theorem unlink (ring : LinkedRing fwd bwd h (ys ++ c :: zs)) :
    LinkedRing (update fwd (bwd c) (fwd c)) (update bwd (fwd c) (bwd c)) h
      (ys ++ zs) := by
  obtain ⟨us, vs, before, after, left, right, toC, fromC⟩ := ring.cut
  have absent : c ∉ h :: (ys ++ zs) := by
    have := ring.nodup
    simp only [nodup_cons, mem_append, mem_cons, nodup_middle] at this ⊢
    tauto
  -- no other link uses `c`, so the changed links are those of the neighbours only
  have other : ∀ l : List α, c ∉ l → l.IsChain (Linked fwd bwd) →
      l.IsChain (Linked (update fwd (bwd c) (fwd c)) (update bwd (fwd c) (bwd c))) := by
    intro l hc chain
    refine chain.imp_of_mem_imp fun x y hx hy link => ⟨?_, ?_⟩
    · rw [update_of_ne, link.1]
      rintro rfl
      exact hc (toC.symm.trans link.1 ▸ hy)
    · rw [update_of_ne, link.2]
      rintro rfl
      exact hc (fromC.symm.trans link.2 ▸ hx)
  refine ⟨ring.nodup.sublist (by simp), ?_⟩
  rw [append_assoc, after, ← cons_append, before, append_assoc,
    singleton_append, isChain_append_cons_cons]
  refine ⟨other _ ?_ left, ⟨update_self .., update_self ..⟩, other _ ?_ right⟩
  · rw [← before]
    simp only [mem_cons, mem_append] at absent ⊢
    tauto
  · rw [← after]
    simp only [mem_cons, mem_append] at absent ⊢
    tauto

/-- Inserting a member behind the head. -/
theorem linkFront (ring : LinkedRing fwd bwd h xs) (absent : c ∉ h :: xs) :
    LinkedRing (update (update fwd c (fwd h)) h c)
      (update (update bwd c h) (fwd h) c) h (c :: xs) := by
  obtain ⟨v, vs, after⟩ := exists_cons_of_ne_nil (show xs ++ [h] ≠ [] by simp)
  have linked := ring.linked
  rw [after, isChain_cons_cons] at linked
  obtain ⟨first, rest⟩ := linked
  obtain rfl : fwd h = v := first.1
  have distinct : (xs ++ [h]).Nodup := by
    have := ring.nodup
    simp only [nodup_append, nodup_cons] at this ⊢
    simp only [mem_singleton, not_mem_nil, not_false_eq_true, nodup_nil, and_self,
      true_and, forall_eq]
    exact ⟨this.2, fun x hx eq => this.1 (eq ▸ hx)⟩
  have outside : ∀ x ∈ fwd h :: vs, x ≠ c := by
    rw [← after]
    rintro x hx rfl
    simp only [mem_cons, mem_append] at absent hx
    tauto
  have c_ne : c ≠ h := fun eq => absent (eq ▸ mem_cons_self)
  have v_ne : fwd h ≠ c := outside _ mem_cons_self
  refine ⟨?_, ?_⟩
  · have := ring.nodup
    simp only [nodup_cons, mem_cons, not_or] at this absent ⊢
    tauto
  · rw [cons_append, after, isChain_cons_cons, isChain_cons_cons]
    refine ⟨⟨update_self .., ?_⟩, ⟨?_, update_self ..⟩, ?_⟩
    · rw [update_of_ne v_ne.symm, update_self]
    · rw [update_of_ne c_ne, update_self]
    · refine rest.imp_of_mem_tail_imp fun x y hx hy link => ?_
      have y_ne : y ≠ fwd h := by
        rw [after, nodup_cons] at distinct
        rintro rfl
        exact distinct.1 hy
      constructor
      · rw [update_of_ne, update_of_ne (outside x hx), link.1]
        rintro rfl
        exact y_ne link.1.symm
      · rw [update_of_ne y_ne, update_of_ne, link.2]
        exact outside y (mem_cons_of_mem _ hy)

end Update

/-- The members, read off the links. -/
theorem follow_eq [DecidableEq α] (ring : LinkedRing fwd bwd h xs) {count : Nat}
    (enough : xs.length ≤ count) : follow fwd h count (fwd h) = xs := by
  have absent := (nodup_cons.mp ring.nodup).1
  have linked := ring.linked
  clear ring
  suffices ∀ start, (start :: (xs ++ [h])).IsChain (Linked fwd bwd) →
      follow fwd h count (fwd start) = xs from this h linked
  clear linked
  induction xs generalizing count with
  | nil =>
    intro start chain
    rw [nil_append, isChain_pair] at chain
    rw [chain.1]
    cases count <;> simp [follow]
  | cons x xs ih =>
    intro start chain
    rw [cons_append, isChain_cons_cons] at chain
    obtain ⟨count, rfl⟩ : ∃ k, count = k + 1 := ⟨count - 1, by rw [length_cons] at enough; omega⟩
    have member : x ≠ h := fun head => absent (head ▸ mem_cons_self)
    rw [chain.1.1, follow, if_neg member,
      ih (Nat.le_of_succ_le_succ enough) (fun mem => absent (mem_cons_of_mem x mem)) x chain.2]

end LinkedRing

end Library
