import Dtc.Tree.Ttree

/-!
# Traversals of a T-tree

A traversal calls a visitor on items of the tree in order, and stops at the first
call that does not return 0. The traversals of the source differ in the direction, in
the items of a node they visit, and in the subtrees they leave out. They are two
definitions with these choices as parameters.

Each traversal is a run of the visitor over a list of records (`forward_eq`,
`backward_eq`). In an ordered tree that list is the part of the records that the
bounds select, if the comparator decides the order of the bounds and the records
(`Judged`); nothing is assumed of the comparator elsewhere.
-/

namespace Dtc.Tree

open List

variable {V K R σ : Type*}

/-- `if ((iRet = ...) != 0) return (iRet);` -/
def andThen (result : Int × σ) (next : σ → Int × σ) : Int × σ :=
  if result.1 ≠ 0 then result else next result.2

section Model
variable [Inhabited R] (c : KeyComparator V R) (pfVisit : σ → R → Int × σ)

/-- A loop that calls the visitor on some records. -/
def visitItems : List R → σ → Int × σ
  | [], s => (0, s)
  | r :: rs, s => andThen (pfVisit s r) (visitItems rs)

/-- The traversals from left to right. -/
def forward (enterLeft enterRight : List R → Bool) (select : List R → List R) :
    TtreeNode R → σ → Int × σ
  | .nil, s => (0, s)
  | .node hLeft hRight _ items, s =>
    andThen (if enterLeft items then forward enterLeft enterRight select hLeft s else (0, s))
      fun s => andThen (visitItems pfVisit (select items) s) fun s =>
        if enterRight items then forward enterLeft enterRight select hRight s else (0, s)

/-- The traversals from right to left. -/
def backward (enterLeft enterRight : List R → Bool) (select : List R → List R) :
    TtreeNode R → σ → Int × σ
  | .nil, s => (0, s)
  | .node hLeft hRight _ items, s =>
    andThen (if enterRight items then backward enterLeft enterRight select hRight s else (0, s))
      fun s => andThen (visitItems pfVisit (select items).reverse s) fun s =>
        if enterLeft items then backward enterLeft enterRight select hLeft s else (0, s)

/-- `m_ahItems[m_ushNItems - 1]`. -/
def lastItem (items : List R) : R := item items (items.length - 1)

/-- `traverse_forward(pfVisit, pCookie)`. -/
def traverseForward : TtreeNode R → σ → Int × σ :=
  forward pfVisit (fun _ => true) (fun _ => true) id

/-- The items of a node from a key on. -/
def selectFrom (key : V) (items : List R) : List R :=
  if c.iDiff key (lastItem items) ≤ 0 then items.filter fun r => c.iDiff key r ≤ 0 else []

/-- `traverse_forward(pchKey, ...)`, the records from a key on. -/
def traverseForwardFrom (key : V) : TtreeNode R → σ → Int × σ :=
  forward pfVisit (fun items => c.iDiff key (item items 0) < 0) (fun _ => true) (selectFrom c key)

/-- The items of a node between two keys. -/
def selectBetween (key key1 : V) (items : List R) : List R :=
  if c.iDiff key1 (item items 0) < 0 ∨ 0 < c.iDiff key (lastItem items) then []
  else items.filter fun r => c.iDiff key r ≤ 0 ∧ 0 ≤ c.iDiff key1 r

/-- `traverse_forward(pchKey, pchKey1, ...)`, the records between two keys. -/
def traverseForwardBetween (key key1 : V) : TtreeNode R → σ → Int × σ :=
  forward pfVisit (fun items => c.iDiff key (item items 0) < 0)
    (fun items => 0 ≤ c.iDiff key1 (lastItem items)) (selectBetween c key key1)

/-- The items of a node up to a key. -/
def selectTo (key : V) (items : List R) : List R :=
  if 0 ≤ c.iDiff key (item items 0) then items.filter fun r => 0 ≤ c.iDiff key r else []

/-- `traverse_backward(pchKey, ...)`, the records up to a key. -/
def traverseBackwardTo (key : V) : TtreeNode R → σ → Int × σ :=
  backward pfVisit (fun _ => true) (fun items => 0 < c.iDiff key (lastItem items)) (selectTo c key)

end Model

/-! ### The records that a traversal meets -/

section Walk
variable (enterLeft enterRight : List R → Bool) (select : List R → List R)

/-- The records that are met from left to right. -/
def walk : TtreeNode R → List R
  | .nil => []
  | .node hLeft hRight _ items =>
    (if enterLeft items then walk hLeft else []) ++
      (select items ++ if enterRight items then walk hRight else [])

variable (pfVisit : σ → R → Int × σ)

theorem andThen_assoc (result : Int × σ) (f g : σ → Int × σ) :
    andThen (andThen result f) g = andThen result fun s => andThen (f s) g := by
  unfold andThen
  by_cases failed : result.1 ≠ 0
  · rw [if_pos failed, if_pos failed, if_pos failed]
  · rw [if_neg failed, if_neg failed]

theorem visitItems_append (xs ys : List R) (s : σ) :
    visitItems pfVisit (xs ++ ys) s = andThen (visitItems pfVisit xs s) (visitItems pfVisit ys) := by
  induction xs generalizing s with
  | nil => rfl
  | cons x xs ih =>
    rw [cons_append, visitItems, visitItems, andThen_assoc]
    congr 1
    funext s
    exact ih s

theorem forward_eq (t : TtreeNode R) (s : σ) :
    forward pfVisit enterLeft enterRight select t s =
      visitItems pfVisit (walk enterLeft enterRight select t) s := by
  induction t generalizing s with
  | nil => rfl
  | node hLeft hRight chBalance items ihLeft ihRight =>
    rw [forward, walk, visitItems_append]
    congr 1
    · split_ifs
      · exact ihLeft s
      · rfl
    · funext s
      rw [visitItems_append]
      congr 1
      funext s
      split_ifs
      · exact ihRight s
      · rfl

theorem backward_eq (t : TtreeNode R) (s : σ) :
    backward pfVisit enterLeft enterRight select t s =
      visitItems pfVisit (walk enterLeft enterRight select t).reverse s := by
  induction t generalizing s with
  | nil => rfl
  | node hLeft hRight chBalance items ihLeft ihRight =>
    rw [backward, walk, reverse_append, reverse_append, append_assoc, visitItems_append]
    congr 1
    · split_ifs
      · exact ihRight s
      · rfl
    · funext s
      rw [visitItems_append]
      congr 1
      funext s
      split_ifs
      · exact ihLeft s
      · rfl

end Walk

/-! ### Ordered trees -/

section Order
variable [LinearOrder K] (key : R → K)

/-- The comparison of keys with the key of a record. -/
def byKey : OrderedComparator K R where
  pfComp k r := if k < key r then -1 else if k = key r then 0 else 1
  convertCvalue := key
  iDiff_neg k r := by
    unfold KeyComparator.iDiff
    dsimp only
    split_ifs with lt eq <;> simp_all
  iDiff_zero k r := by
    unfold KeyComparator.iDiff
    dsimp only
    split_ifs with lt eq
    · simpa using lt.ne
    · simpa using eq
    · simpa using eq
  pfComp_zero k r := by
    split_ifs with lt eq
    · simpa using lt.ne
    · simpa using eq
    · simpa using eq

/-- The stored result of the comparator has the sign of the order at `r`, where `k` is
the key that the value `v` stands for. -/
structure Judged (c : KeyComparator V R) (v : V) (k : K) (r : R) : Prop where
  neg : c.iDiff v r < 0 ↔ k < key r
  zero : c.iDiff v r = 0 ↔ k = key r

variable {key} {c : KeyComparator V R} {v : V} {k : K} {r : R}

theorem Judged.nonpos (judged : Judged key c v k r) : c.iDiff v r ≤ 0 ↔ k ≤ key r := by
  rw [le_iff_lt_or_eq, le_iff_lt_or_eq, judged.neg, judged.zero]

theorem Judged.pos (judged : Judged key c v k r) : 0 < c.iDiff v r ↔ key r < k := by
  rw [← not_le, ← not_le, judged.nonpos]

theorem Judged.nonneg (judged : Judged key c v k r) : 0 ≤ c.iDiff v r ↔ key r ≤ k := by
  rw [← not_lt, ← not_lt, judged.neg]

end Order

section Selected
variable [LinearOrder K] [Inhabited R] {key : R → K} {enterLeft enterRight : List R → Bool}
  {select : List R → List R} {p : R → Bool}

/-- A traversal meets the records with a property, if it takes these from every node and
leaves out no subtree that has one of them. `S` is what is known of the records. -/
theorem walk_eq_filter {S : R → Prop}
    (here : ∀ items, items ≠ [] → (∀ r ∈ items, S r) → Sorted (byKey key) items →
      select items = items.filter p)
    (left : ∀ items, items ≠ [] → (∀ r ∈ items, S r) → enterLeft items = false →
      ∀ r, S r → key r < key (item items 0) → p r = false)
    (right : ∀ items, items ≠ [] → (∀ r ∈ items, S r) → Sorted (byKey key) items →
      enterRight items = false → ∀ r, S r → key (lastItem items) < key r → p r = false)
    {t : TtreeNode R} (wf : WellFormed (byKey key) t) (known : ∀ r ∈ records t, S r) :
    walk enterLeft enterRight select t = (records t).filter p := by
  induction t with
  | nil => rfl
  | node hLeft hRight chBalance items ihLeft ihRight =>
    obtain ⟨-, size, wfLeft, wfRight, sorted, hli, hir⟩ := wellFormed_node_iff.mp wf
    have nonempty : items ≠ [] := ne_nil_of_length_pos size.1
    simp only [records_node, mem_append] at known
    have knownLeft : ∀ r ∈ records hLeft, S r := fun r hr => known r (.inl hr)
    have knownHere : ∀ r ∈ items, S r := fun r hr => known r (.inr (.inl hr))
    have knownRight : ∀ r ∈ records hRight, S r := fun r hr => known r (.inr (.inr hr))
    rw [walk, records_node, filter_append, filter_append, here items nonempty knownHere sorted]
    congr 1
    · split_ifs with enter
      · exact ihLeft wfLeft knownLeft
      · refine (filter_eq_nil_iff.mpr fun r hr => ?_).symm
        rw [left items nonempty knownHere (Bool.not_eq_true _ ▸ enter) r (knownLeft r hr)
          (hli r hr _ (item_mem size.1))]
        exact Bool.false_ne_true
    · congr 1
      split_ifs with enter
      · exact ihRight wfRight knownRight
      · refine (filter_eq_nil_iff.mpr fun r hr => ?_).symm
        rw [right items nonempty knownHere sorted (Bool.not_eq_true _ ▸ enter) r (knownRight r hr)
          (hir _ (item_mem (by omega)) r hr)]
        exact Bool.false_ne_true

end Selected

/-! ### The four traversals -/

theorem walk_all (t : TtreeNode R) : walk (fun _ => true) (fun _ => true) id t = records t := by
  induction t with
  | nil => rfl
  | node hLeft hRight chBalance items ihLeft ihRight =>
    rw [walk, ihLeft, ihRight, records_node]
    rfl

theorem traverseForward_eq (pfVisit : σ → R → Int × σ) (t : TtreeNode R) (s : σ) :
    traverseForward pfVisit t s = visitItems pfVisit (records t) s := by
  rw [traverseForward, forward_eq, walk_all]

variable {items : List R}

/-- Only the first and the last item are compared before the loop. If that comparison
rules the node out, the loop would select nothing. -/
theorem ite_filter {p : R → Bool} {guard : Prop} [Decidable guard]
    (out : ¬ guard → ∀ r ∈ items, p r = false) :
    (if guard then items.filter p else []) = items.filter p := by
  split_ifs with inside
  · rfl
  · exact (filter_eq_nil_iff.mpr fun r hr => by simp [out inside r hr]).symm

section Traversals
variable [LinearOrder K] [Inhabited R] {key : R → K} {c : KeyComparator V R} {t : TtreeNode R}

theorem Sorted.le_lastItem (sorted : Sorted (byKey key) items) {r : R} (hr : r ∈ items) :
    key r ≤ key (lastItem items) := sorted.le_last hr

theorem Sorted.firstItem_le (sorted : Sorted (byKey key) items) {r : R} (hr : r ∈ items) :
    key (item items 0) ≤ key r := sorted.first_le hr

theorem item_zero_mem (nonempty : items ≠ []) : item items 0 ∈ items :=
  item_mem (length_pos_of_ne_nil nonempty)

theorem lastItem_mem (nonempty : items ≠ []) : lastItem items ∈ items :=
  item_mem (Nat.sub_one_lt (Nat.ne_of_gt (length_pos_of_ne_nil nonempty)))

variable {v v' : V} {k k' : K}

section
variable (wf : WellFormed (byKey key) t)

include wf

/-- A traversal that selects the items from a key on, and leaves out left subtrees below it. -/
theorem walk_from (judged : ∀ r ∈ records t, Judged key c v k r) :
    walk (fun items => c.iDiff v (item items 0) < 0) (fun _ => true) (selectFrom c v) t =
      (records t).filter fun r => k ≤ key r := by
  refine walk_eq_filter (fun items nonempty known sorted => ?_)
    (fun items nonempty known no r hr below => ?_)
    (fun _ _ _ _ no => nomatch (show true = false from no)) wf judged
  · have same : items.filter (fun r => c.iDiff v r ≤ 0) = items.filter fun r => k ≤ key r :=
      filter_congr fun r hr => decide_eq_decide.mpr (known r hr).nonpos
    rw [selectFrom, same]
    refine ite_filter fun out r hr => decide_eq_false fun le => out ?_
    exact (known _ (lastItem_mem nonempty)).nonpos.mpr (le.trans (sorted.le_lastItem hr))
  · have first := (known _ (item_zero_mem nonempty)).neg.not.mp (of_decide_eq_false no)
    exact decide_eq_false fun le => first (le.trans_lt below)

/-- A traversal that selects the items up to a key, and leaves out right subtrees above it. -/
theorem walk_to (judged : ∀ r ∈ records t, Judged key c v k r) :
    walk (fun _ => true) (fun items => 0 < c.iDiff v (lastItem items)) (selectTo c v) t =
      (records t).filter fun r => key r ≤ k := by
  refine walk_eq_filter (fun items nonempty known sorted => ?_)
    (fun _ _ _ no => nomatch (show true = false from no))
    (fun items nonempty known _ no r hr above => ?_) wf judged
  · have same : items.filter (fun r => 0 ≤ c.iDiff v r) = items.filter fun r => key r ≤ k :=
      filter_congr fun r hr => decide_eq_decide.mpr (known r hr).nonneg
    rw [selectTo, same]
    refine ite_filter fun out r hr => decide_eq_false fun le => out ?_
    exact (known _ (item_zero_mem nonempty)).nonneg.mpr ((sorted.firstItem_le hr).trans le)
  · have last := (known _ (lastItem_mem nonempty)).pos.not.mp (of_decide_eq_false no)
    exact decide_eq_false fun le => last (above.trans_le le)

/-- A traversal that selects the items between two keys. The traversals do not agree on the
subtrees next to a bound that is the first or the last item. -/
theorem walk_between {enterLeft enterRight : List R → Bool}
    (judged : ∀ r ∈ records t, Judged key c v k r ∧ Judged key c v' k' r)
    (left : ∀ items, enterLeft items = false → 0 ≤ c.iDiff v (item items 0))
    (right : ∀ items, enterRight items = false → c.iDiff v' (lastItem items) ≤ 0) :
    walk enterLeft enterRight (selectBetween c v v') t =
      (records t).filter fun r => k ≤ key r ∧ key r ≤ k' := by
  refine walk_eq_filter (fun items nonempty known sorted => ?_)
    (fun items nonempty known no r hr below => ?_)
    (fun items nonempty known _ no r hr above => ?_) wf judged
  · have same : items.filter (fun r => c.iDiff v r ≤ 0 ∧ 0 ≤ c.iDiff v' r) =
        items.filter fun r => k ≤ key r ∧ key r ≤ k' :=
      filter_congr fun r hr => decide_eq_decide.mpr
        (and_congr (known r hr).1.nonpos (known r hr).2.nonneg)
    rw [selectBetween, same, ← ite_not]
    refine ite_filter fun out r hr => decide_eq_false fun ⟨low, high⟩ => out ?_
    rintro (before | behind)
    · exact absurd ((known _ (item_zero_mem nonempty)).2.neg.mp before)
        (not_lt.mpr ((sorted.firstItem_le hr).trans high))
    · exact absurd ((known _ (lastItem_mem nonempty)).1.pos.mp behind)
        (not_lt.mpr (low.trans (sorted.le_lastItem hr)))
  · have first := (known _ (item_zero_mem nonempty)).1.nonneg.mp (left items no)
    exact decide_eq_false fun le => absurd (le.1.trans_lt below) (not_lt.mpr first)
  · have last := (known _ (lastItem_mem nonempty)).2.nonpos.mp (right items no)
    exact decide_eq_false fun le => absurd (above.trans_le le.2) (not_lt.mpr last)

end

/-! ### Finding -/

section Congruence
variable {V' : Type*} {c' : KeyComparator V' R} {w : V'}

/-- A search depends on the signs of the comparisons only. -/
theorem searchLoop_congr
    (same : ∀ r ∈ items, (c.iDiff v r < 0 ↔ c'.iDiff w r < 0) ∧ (c.iDiff v r = 0 ↔ c'.iDiff w r = 0))
    (rounds : Nat) {iLeft iRight : Nat} (bound : iRight ≤ items.length) :
    searchLoop c items v rounds iLeft iRight = searchLoop c' items w rounds iLeft iRight := by
  induction rounds generalizing iLeft iRight with
  | zero => rfl
  | succ rounds ih =>
    rw [searchLoop, searchLoop]
    by_cases inside : iLeft < iRight
    · obtain ⟨neg, zero⟩ := same _ (item_mem (show (iLeft + iRight) / 2 < items.length by omega))
      have pos : 0 < c.iDiff v (item items ((iLeft + iRight) / 2)) ↔
          0 < c'.iDiff w (item items ((iLeft + iRight) / 2)) := by omega
      simp only [if_pos inside, zero, pos]
      rw [ih bound, ih (show (iLeft + iRight) / 2 ≤ items.length by omega)]
    · rw [if_neg inside, if_neg inside]

theorem doFind_congr {t : TtreeNode R}
    (same : ∀ r ∈ records t, (c.iDiff v r < 0 ↔ c'.iDiff w r < 0) ∧
      (c.iDiff v r = 0 ↔ c'.iDiff w r = 0)) :
    doFind c t v = doFind c' t w := by
  induction t with
  | nil => rfl
  | node hLeft hRight chBalance items ihLeft ihRight =>
    simp only [records_node, mem_append] at same
    rw [doFind, doFind]
    by_cases empty : items.length = 0
    · rw [if_pos empty, if_pos empty]
    · have here : ∀ i, i < items.length → (c.iDiff v (item items i) < 0 ↔
          c'.iDiff w (item items i) < 0) ∧ (c.iDiff v (item items i) = 0 ↔
            c'.iDiff w (item items i) = 0) := fun i hi => same _ (.inr (.inl (item_mem hi)))
      obtain ⟨firstNeg, firstZero⟩ := here 0 (by omega)
      obtain ⟨lastNeg, lastZero⟩ := here (items.length - 1) (by omega)
      have firstPos : 0 < c.iDiff v (item items 0) ↔ 0 < c'.iDiff w (item items 0) := by omega
      have lastPos : 0 < c.iDiff v (item items (items.length - 1)) ↔
          0 < c'.iDiff w (item items (items.length - 1)) := by omega
      have search : searchItems c items v = searchItems c' items w :=
        searchLoop_congr (fun r hr => same r (.inr (.inl hr))) _ (Nat.sub_le _ _)
      simp only [if_neg empty, firstZero, firstPos, lastZero, lastPos, search]
      rw [ihLeft fun r hr => same r (.inl hr), ihRight fun r hr => same r (.inr (.inr hr))]

end Congruence

end Traversals

end Dtc.Tree
