import Mathlib

/-!
# Buckets of singly linked chains

A table has one head for each bucket and one successor for each cell; `stop` ends
a chain. `IsChain` says that the cells reached from a head are exactly a given
list, so a represented chain is finite and acyclic. `Linked` adds that the chains
of different buckets share no cell, which makes each of the three pointer updates
(push at the head, drop the head, unlink an inner cell) an update of one list.
-/

namespace Library.ChainedTable

open Function

variable {ι β : Type*}

/-- The cells reached from `head` by `next` are the given list. -/
def IsChain (next : ι → ι) (stop : ι) : ι → List ι → Prop
  | head, [] => head = stop
  | head, x :: xs => head = x ∧ x ≠ stop ∧ IsChain next stop (next x) xs

variable {next : ι → ι} {head stop : ι} {xs : List ι}

@[simp] theorem isChain_nil : IsChain next stop head [] ↔ head = stop := Iff.rfl

section
variable (chain : IsChain next stop head xs)
include chain

theorem IsChain.eq_nil_iff : xs = [] ↔ head = stop := by
  cases xs with
  | nil => simpa using chain
  | cons x xs =>
    obtain ⟨rfl, hne, -⟩ := chain
    simp [hne]

/-- A chain depends on the successors of its own cells only. -/
theorem IsChain.congr {next' : ι → ι} (same : ∀ x ∈ xs, next' x = next x) :
    IsChain next' stop head xs := by
  induction xs generalizing head with
  | nil => exact chain
  | cons x xs ih =>
    obtain ⟨rfl, hne, rest⟩ := chain
    refine ⟨rfl, hne, ?_⟩
    rw [same head List.mem_cons_self]
    exact ih rest fun y hy => same y (List.mem_cons_of_mem _ hy)

/-- The cells reached from a head are determined. -/
theorem IsChain.unique {ys : List ι} (other : IsChain next stop head ys) : xs = ys := by
  induction xs generalizing head ys with
  | nil => exact (other.eq_nil_iff.mpr chain).symm
  | cons x xs ih =>
    obtain ⟨rfl, hne, rest⟩ := chain
    cases ys with
    | nil => exact absurd other hne
    | cons y ys =>
      obtain ⟨rfl, -, rest'⟩ := other
      rw [ih rest rest']

end

variable [DecidableEq ι]

/-- Redirecting a cell past its successor unlinks the successor. -/
theorem IsChain.unlink {p x : ι} {pre post : List ι}
    (chain : IsChain next stop head (pre ++ p :: x :: post)) (nodup : (pre ++ p :: x :: post).Nodup) :
    IsChain (update next p (next x)) stop head (pre ++ p :: post) := by
  induction pre generalizing head with
  | nil =>
    obtain ⟨rfl, hne, -, -, rest⟩ := chain
    refine ⟨rfl, hne, ?_⟩
    rw [update_self]
    refine rest.congr fun y hy => update_of_ne ?_ _ _
    rintro rfl
    simp [hy] at nodup
  | cons y ys ih =>
    obtain ⟨rfl, hne, rest⟩ := chain
    rw [List.cons_append, List.nodup_cons] at nodup
    have other : head ≠ p := by
      rintro rfl
      simp at nodup
    refine ⟨rfl, hne, ?_⟩
    rw [update_of_ne other]
    exact ih rest nodup.2

/-- Every bucket's chain is the given list, and no cell is on two chains. -/
structure Linked (next : ι → ι) (stop : ι) (heads : β → ι) (chains : β → List ι) : Prop where
  chain : ∀ b, IsChain next stop (heads b) (chains b)
  nodup : ∀ b, (chains b).Nodup
  disjoint : ∀ b b' x, x ∈ chains b → x ∈ chains b' → b = b'

variable [DecidableEq β] {next : ι → ι} {stop : ι} {heads : β → ι} {chains : β → List ι}

section
variable (linked : Linked next stop heads chains)

include linked

/-- A cell on no chain is pushed at the head of a bucket. -/
theorem Linked.push (b : β) {x : ι} (hx : x ≠ stop) (fresh : ∀ b, x ∉ chains b) :
    Linked (update next x (heads b)) stop (update heads b x)
      (update chains b (x :: chains b)) := by
  have kept : ∀ b', IsChain (update next x (heads b)) stop (heads b') (chains b') :=
    fun b' => (linked.chain b').congr fun y hy => update_of_ne
      (by rintro rfl; exact fresh b' hy) _ _
  have member : ∀ b' y, y ∈ update chains b (x :: chains b) b' →
      (y = x ∧ b' = b) ∨ y ∈ chains b' := by
    intro b' y hy
    by_cases hb : b' = b
    · subst hb
      rw [update_self] at hy
      obtain rfl | hy := List.mem_cons.mp hy
      · exact .inl ⟨rfl, rfl⟩
      · exact .inr hy
    · rw [update_of_ne hb] at hy
      exact .inr hy
  refine ⟨fun b' => ?_, fun b' => ?_, fun b₁ b₂ y h₁ h₂ => ?_⟩
  · by_cases hb : b' = b
    · subst hb
      rw [update_self, update_self]
      exact ⟨rfl, hx, by rw [update_self]; exact kept b'⟩
    · rw [update_of_ne hb, update_of_ne hb]
      exact kept b'
  · by_cases hb : b' = b
    · subst hb
      rw [update_self]
      exact List.nodup_cons.mpr ⟨fresh b', linked.nodup b'⟩
    · rw [update_of_ne hb]
      exact linked.nodup b'
  · obtain ⟨new₁, eq₁⟩ | old₁ := member b₁ y h₁ <;> obtain ⟨new₂, eq₂⟩ | old₂ := member b₂ y h₂
    · exact eq₁.trans eq₂.symm
    · exact absurd (new₁ ▸ old₂) (fresh b₂)
    · exact absurd (new₂ ▸ old₁) (fresh b₁)
    · exact linked.disjoint b₁ b₂ y old₁ old₂

omit [DecidableEq ι] in
/-- Replacing the chain of one bucket by a part of it keeps the chains apart. -/
theorem Linked.shrink (b : β) {next' : ι → ι} (sub : xs.Sublist (chains b))
    (chain : IsChain next' stop head xs) (frame : ∀ b', b' ≠ b → ∀ y ∈ chains b', next' y = next y) :
    Linked next' stop (update heads b head) (update chains b xs) := by
  have member : ∀ b' y, y ∈ update chains b xs b' → y ∈ chains b' := by
    intro b' y hy
    by_cases hb : b' = b
    · subst hb
      rw [update_self] at hy
      exact sub.subset hy
    · rwa [update_of_ne hb] at hy
  refine ⟨fun b' => ?_, fun b' => ?_, fun b₁ b₂ y h₁ h₂ => ?_⟩
  · by_cases hb : b' = b
    · subst hb
      rwa [update_self, update_self]
    · rw [update_of_ne hb, update_of_ne hb]
      exact (linked.chain b').congr (frame b' hb)
  · by_cases hb : b' = b
    · subst hb
      rw [update_self]
      exact (linked.nodup b').sublist sub
    · rw [update_of_ne hb]
      exact linked.nodup b'
  · exact linked.disjoint b₁ b₂ y (member b₁ y h₁) (member b₂ y h₂)

omit [DecidableEq ι] in
/-- The head of a bucket is dropped. -/
theorem Linked.dropHead {b : β} {x : ι} {rest : List ι} (hc : chains b = x :: rest) :
    Linked next stop (update heads b (next x)) (update chains b rest) := by
  have chain := linked.chain b
  rw [hc] at chain
  refine linked.shrink b ?_ chain.2.2 fun _ _ _ _ => rfl
  rw [hc]
  exact List.sublist_cons_self _ _

/-- An inner cell is unlinked from its predecessor. -/
theorem Linked.unlink {b : β} {p x : ι} {pre post : List ι} (hc : chains b = pre ++ p :: x :: post) :
    Linked (update next p (next x)) stop heads
      (update chains b (pre ++ p :: post)) := by
  have chain := linked.chain b
  have nodup := linked.nodup b
  rw [hc] at chain nodup
  have same : update heads b (heads b) = heads := update_eq_self b heads
  rw [← same]
  refine linked.shrink b ?_ (chain.unlink nodup) fun b' hb y hy => update_of_ne ?_ _ _
  · rw [hc]
    exact ((List.Sublist.refl post).cons x).cons_cons p |>.append_left pre
  · rintro rfl
    exact hb (linked.disjoint b' b y hy (by rw [hc]; simp))

end

end Library.ChainedTable
