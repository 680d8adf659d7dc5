import Dtc.Tree.Traverse

/-!
# All traversals of a T-tree

The traversals of `Ttree` visit the whole tree, the records from a key on, up to a key, between
two keys, or from a key over a distance (`iInclusion`), in the order of the keys, against it, or
children first. `VisitsExactly` says what each of them is for: the records within the bounds, each once
and in order, up to the first visit that does not return 0.

The distance is an `int64_t` of `Ttree::traverse_forward`, and an `int` of the function of the
node that it is handed to.
-/

namespace Dtc.Tree

open List

section Model
variable {V R σ : Type*} [Inhabited R] (c : KeyComparator V R) (pfVisit : σ → R → Int × σ)

/-- The traversals that visit the left subtree, the right subtree and then the items. -/
def postOrder (enterLeft enterRight : List R → Bool) (select : List R → List R) :
    TtreeNode R → σ → Int × σ
  | .nil, s => (0, s)
  | .node hLeft hRight _ items, s =>
    andThen (if enterLeft items then postOrder enterLeft enterRight select hLeft s else (0, s))
      fun s => andThen
        (if enterRight items then postOrder enterLeft enterRight select hRight s else (0, s))
        (visitItems pfVisit (select items))

/-- The traversals that visit the right subtree, the left subtree and then the items from the
last one on. -/
def postOrderBack (enterLeft enterRight : List R → Bool) (select : List R → List R) :
    TtreeNode R → σ → Int × σ
  | .nil, s => (0, s)
  | .node hLeft hRight _ items, s =>
    andThen
      (if enterRight items then postOrderBack enterLeft enterRight select hRight s else (0, s))
      fun s => andThen
        (if enterLeft items then postOrderBack enterLeft enterRight select hLeft s else (0, s))
        (visitItems pfVisit (select items).reverse)

/-- `traverse_backward(pfVisit, pCookie)`. -/
def traverseBackward : TtreeNode R → σ → Int × σ :=
  backward pfVisit (fun _ => true) (fun _ => true) id

/-- `post_order_traverse(pfVisit, pCookie)`. -/
def postOrderTraverse : TtreeNode R → σ → Int × σ :=
  postOrderBack pfVisit (fun _ => true) (fun _ => true) id

/-- The loop over the items from a key on breaks at the first item that is too far away. -/
def selectWithin (key : V) (low : Int) (items : List R) : List R :=
  if c.iDiff key (lastItem items) ≤ 0 then
    (items.takeWhile fun r => low ≤ c.iDiff key r).filter fun r =>
      c.iDiff key r ≤ 0 ∧ low ≤ c.iDiff key r
  else []

/-- The loop was not left by `break`. -/
def loopDone (key : V) (low : Int) (items : List R) : Bool :=
  0 < c.iDiff key (lastItem items) ∨ ∀ r ∈ items, low ≤ c.iDiff key r

/-- `traverse_forward(pchKey, ..., iInclusion, ...)`, the records up to a distance from a key. The
distance is narrowed to an `int`; `0 - iInclusion` is one as well. -/
def traverseForwardWithin (key : V) (iInclusion : Int) : TtreeNode R → σ → Int × σ :=
  let low := (0 - iInclusion.bmod (2 ^ 32)).bmod (2 ^ 32)
  forward pfVisit (fun items => c.iDiff key (item items 0) < 0) (loopDone c key low)
    (selectWithin c key low)

/-- `traverse_backward(pchKey, pchKey1, ...)`. -/
def traverseBackwardBetween (key key1 : V) : TtreeNode R → σ → Int × σ :=
  backward pfVisit (fun items => c.iDiff key (item items 0) ≤ 0)
    (fun items => 0 < c.iDiff key1 (lastItem items)) (selectBetween c key key1)

/-- `post_order_traverse(pchKey, pchKey1, ...)`. -/
def postOrderTraverseBetween (key key1 : V) : TtreeNode R → σ → Int × σ :=
  postOrder pfVisit (fun items => c.iDiff key (item items 0) < 0)
    (fun items => 0 ≤ c.iDiff key1 (lastItem items)) (selectBetween c key key1)

/-- `post_order_traverse_ge`. -/
def postOrderTraverseGe (key : V) : TtreeNode R → σ → Int × σ :=
  postOrder pfVisit (fun items => c.iDiff key (item items 0) < 0) (fun _ => true) (selectFrom c key)

/-- `post_order_traverse_le`. -/
def postOrderTraverseLe (key : V) : TtreeNode R → σ → Int × σ :=
  postOrderBack pfVisit (fun _ => true) (fun items => 0 < c.iDiff key (lastItem items))
    (selectTo c key)

/-- The public traversals. -/
inductive Traversal (V : Type*)
  | forward
  | backward
  | post
  | forwardWithin (key : V) (iInclusion : Int)
  | forwardBetween (key key1 : V)
  | forwardFrom (key : V)
  | backwardTo (key : V)
  | backwardBetween (key key1 : V)
  | postBetween (key key1 : V)
  | postGe (key : V)
  | postLe (key : V)

def Traversal.run : Traversal V → TtreeNode R → σ → Int × σ
  | .forward => traverseForward pfVisit
  | .backward => traverseBackward pfVisit
  | .post => postOrderTraverse pfVisit
  | .forwardWithin key iInclusion => traverseForwardWithin c pfVisit key iInclusion
  | .forwardBetween key key1 => traverseForwardBetween c pfVisit key key1
  | .forwardFrom key => traverseForwardFrom c pfVisit key
  | .backwardTo key => traverseBackwardTo c pfVisit key
  | .backwardBetween key key1 => traverseBackwardBetween c pfVisit key key1
  | .postBetween key key1 => postOrderTraverseBetween c pfVisit key key1
  | .postGe key => postOrderTraverseGe c pfVisit key
  | .postLe key => postOrderTraverseLe c pfVisit key

end Model

/-! ### The records that are met -/

section Walk
variable {R σ : Type*} (enterLeft enterRight : List R → Bool) (select : List R → List R)

/-- The records met with the children first. -/
def postWalk : TtreeNode R → List R
  | .nil => []
  | .node hLeft hRight _ items =>
    (if enterLeft items then postWalk hLeft else []) ++
      ((if enterRight items then postWalk hRight else []) ++ select items)

/-- The records met with the children first, from the right. -/
def postWalkBack : TtreeNode R → List R
  | .nil => []
  | .node hLeft hRight _ items =>
    (if enterRight items then postWalkBack hRight else []) ++
      ((if enterLeft items then postWalkBack hLeft else []) ++ (select items).reverse)

variable (pfVisit : σ → R → Int × σ)

theorem postOrder_eq (t : TtreeNode R) (s : σ) :
    postOrder pfVisit enterLeft enterRight select t s =
      visitItems pfVisit (postWalk enterLeft enterRight select t) s := by
  induction t generalizing s with
  | nil => rfl
  | node hLeft hRight chBalance items ihLeft ihRight =>
    rw [postOrder, postWalk, visitItems_append]
    congr 1
    · split_ifs
      · exact ihLeft s
      · rfl
    · funext s
      rw [visitItems_append]
      congr 1
      split_ifs
      · exact ihRight s
      · rfl

theorem postOrderBack_eq (t : TtreeNode R) (s : σ) :
    postOrderBack pfVisit enterLeft enterRight select t s =
      visitItems pfVisit (postWalkBack enterLeft enterRight select t) s := by
  induction t generalizing s with
  | nil => rfl
  | node hLeft hRight chBalance items ihLeft ihRight =>
    rw [postOrderBack, postWalkBack, visitItems_append]
    congr 1
    · split_ifs
      · exact ihRight s
      · rfl
    · funext s
      rw [visitItems_append]
      congr 1
      split_ifs
      · exact ihLeft s
      · rfl

/-- The same records are met in another order. -/
theorem postWalk_perm (t : TtreeNode R) :
    (postWalk enterLeft enterRight select t).Perm (walk enterLeft enterRight select t) := by
  induction t with
  | nil => exact .refl _
  | node hLeft hRight chBalance items ihLeft ihRight =>
    rw [postWalk, walk]
    refine List.Perm.append ?_ (perm_append_comm.trans (.append_left _ ?_))
    · split_ifs
      · exact ihLeft
      · exact .refl _
    · split_ifs
      · exact ihRight
      · exact .refl _

theorem postWalkBack_perm (t : TtreeNode R) :
    (postWalkBack enterLeft enterRight select t).Perm (walk enterLeft enterRight select t) := by
  induction t with
  | nil => exact .refl _
  | node hLeft hRight chBalance items ihLeft ihRight =>
    rw [postWalkBack, walk]
    refine perm_append_comm.trans ?_
    rw [append_assoc]
    refine List.Perm.append ?_ ((reverse_perm _).append ?_)
    · split_ifs
      · exact ihLeft
      · exact .refl _
    · split_ifs
      · exact ihRight
      · exact .refl _

end Walk

section Met
variable {V R : Type*} [Inhabited R] (c : KeyComparator V R)

/-- The records that a traversal meets, in its order. -/
def Traversal.met : Traversal V → TtreeNode R → List R
  | .forward, t => walk (fun _ => true) (fun _ => true) id t
  | .backward, t => (walk (fun _ => true) (fun _ => true) id t).reverse
  | .post, t => postWalkBack (fun _ => true) (fun _ => true) id t
  | .forwardWithin key iInclusion, t =>
    let low := (0 - iInclusion.bmod (2 ^ 32)).bmod (2 ^ 32)
    walk (fun items => c.iDiff key (item items 0) < 0) (loopDone c key low)
      (selectWithin c key low) t
  | .forwardBetween key key1, t =>
    walk (fun items => c.iDiff key (item items 0) < 0)
      (fun items => 0 ≤ c.iDiff key1 (lastItem items)) (selectBetween c key key1) t
  | .forwardFrom key, t =>
    walk (fun items => c.iDiff key (item items 0) < 0) (fun _ => true) (selectFrom c key) t
  | .backwardTo key, t =>
    (walk (fun _ => true) (fun items => 0 < c.iDiff key (lastItem items)) (selectTo c key) t).reverse
  | .backwardBetween key key1, t =>
    (walk (fun items => c.iDiff key (item items 0) ≤ 0)
      (fun items => 0 < c.iDiff key1 (lastItem items)) (selectBetween c key key1) t).reverse
  | .postBetween key key1, t =>
    postWalk (fun items => c.iDiff key (item items 0) < 0)
      (fun items => 0 ≤ c.iDiff key1 (lastItem items)) (selectBetween c key key1) t
  | .postGe key, t =>
    postWalk (fun items => c.iDiff key (item items 0) < 0) (fun _ => true) (selectFrom c key) t
  | .postLe key, t =>
    postWalkBack (fun _ => true) (fun items => 0 < c.iDiff key (lastItem items)) (selectTo c key) t

/-- A traversal calls the visitor on the records it meets, until it is told to stop. -/
theorem Traversal.run_eq {σ : Type*} (pfVisit : σ → R → Int × σ) (tr : Traversal V)
    (t : TtreeNode R) (s : σ) : tr.run c pfVisit t s = visitItems pfVisit (tr.met c t) s := by
  cases tr with
  | forward | forwardWithin | forwardBetween | forwardFrom => exact forward_eq _ _ _ _ _ _
  | backward | backwardTo | backwardBetween => exact backward_eq _ _ _ _ _ _
  | postBetween | postGe => exact postOrder_eq _ _ _ _ _ _
  | post | postLe => exact postOrderBack_eq _ _ _ _ _ _

/-- A visitor that writes down what it sees. -/
def takeDown (seen : List R) (r : R) : Int × List R := (0, seen ++ [r])

omit [Inhabited R] in
theorem visitItems_takeDown (rs seen : List R) : visitItems takeDown rs seen = (0, seen ++ rs) := by
  induction rs generalizing seen with
  | nil => simp [visitItems]
  | cons r rs ih => simp [visitItems, takeDown, andThen, ih]

end Met

section Order
variable {K R : Type*} [LinearOrder K] {c : OrderedComparator K R} {t : TtreeNode R}

theorem judged_self (key : K) (r : R) : Judged c.convertCvalue c.toKeyComparator key key r :=
  ⟨c.iDiff_neg key r, c.iDiff_zero key r⟩

theorem wellFormed_byKey (wf : WellFormed c t) : WellFormed (byKey c.convertCvalue) t :=
  { wf with }

theorem filter_ascending (wf : WellFormed c t) (p : R → Bool) :
    ((records t).filter p).Pairwise fun a b => c.convertCvalue a < c.convertCvalue b :=
  wf.sorted.filter p

theorem filter_descending (wf : WellFormed c t) (p : R → Bool) :
    ((records t).filter p).reverse.Pairwise fun a b => c.convertCvalue b < c.convertCvalue a :=
  pairwise_reverse.mpr (wf.sorted.filter p)

/-- A loop that is left at the first record behind which none is selected. -/
theorem filter_takeWhile {p q : R → Bool} {items : List R}
    (after : items.Pairwise fun a b => q a = false → p b = false)
    (here : ∀ r, q r = false → p r = false) : (items.takeWhile q).filter p = items.filter p := by
  induction items with
  | nil => rfl
  | cons a items ih =>
    obtain ⟨first, later⟩ := pairwise_cons.mp after
    cases go : q a with
    | true =>
      rw [takeWhile_cons_of_pos go, filter_cons, filter_cons, ih later]
    | false =>
      have none : ∀ r ∈ a :: items, ¬ p r = true := by
        intro r hr
        rcases mem_cons.mp hr with rfl | hr
        · simp [here r go]
        · simp [first r hr go]
      rw [takeWhile_cons_of_neg (by simp [go]), filter_eq_nil_iff.mpr none]
      rfl

end Order

/-! ### What a traversal is for -/

section Purpose
universe u
variable {K : Type*} {R : Type u} [LinearOrder K] [Inhabited R] (c : OrderedComparator K R)

/-- A record is within the bounds of a traversal. The distance of a record from a key is what the
comparator says. -/
def Traversal.bounds : Traversal K → R → Bool
  | .forward, _ | .backward, _ | .post, _ => true
  | .forwardWithin key iInclusion, r =>
    key ≤ c.convertCvalue r ∧ -iInclusion ≤ c.iDiff key r
  | .forwardBetween key key1, r | .backwardBetween key key1, r | .postBetween key key1, r =>
    key ≤ c.convertCvalue r ∧ c.convertCvalue r ≤ key1
  | .forwardFrom key, r | .postGe key, r => key ≤ c.convertCvalue r
  | .backwardTo key, r | .postLe key, r => c.convertCvalue r ≤ key

/-- The order of the visits. -/
def Traversal.InOrder (visits : List R) : Traversal K → Prop
  | .forward | .forwardWithin _ _ | .forwardBetween _ _ | .forwardFrom _ =>
    visits.Pairwise fun a b => c.convertCvalue a < c.convertCvalue b
  | .backward | .backwardTo _ | .backwardBetween _ _ =>
    visits.Pairwise fun a b => c.convertCvalue b < c.convertCvalue a
  | .post | .postBetween _ _ | .postGe _ | .postLe _ => True

/-- The traversal calls any visitor on the records within the bounds, each once and in order, and
stops right after the first call that does not return 0. -/
def VisitsExactly (tr : Traversal K) (t : TtreeNode R) : Prop :=
  ∃ visits : List R, visits.Perm ((records t).filter (tr.bounds c)) ∧ tr.InOrder c visits ∧
    ∀ (σ : Type u) (pfVisit : σ → R → Int × σ) (s : σ),
      tr.run c.toKeyComparator pfVisit t s = visitItems pfVisit visits s

/-- What a distance needs: the results of the comparator measure it. -/
def Traversal.Measured : Traversal K → Prop
  | .forwardWithin key _ => ∀ r r', key ≤ c.convertCvalue r →
      c.convertCvalue r ≤ c.convertCvalue r' → c.iDiff key r' ≤ c.iDiff key r
  | _ => True

/-- No record is lost or won when the distance becomes an `int`. -/
def Traversal.Fits (t : TtreeNode R) : Traversal K → Prop
  | .forwardWithin key iInclusion => ∀ r ∈ records t, key ≤ c.convertCvalue r →
      (-iInclusion ≤ c.iDiff key r ↔ (-iInclusion).bmod (2 ^ 32) ≤ c.iDiff key r)
  | _ => True

variable {c} {t : TtreeNode R}

open Traversal (met InOrder bounds run_eq)

/-- The visits are the records met: a visitor can write them down. -/
theorem visits_iff_met (tr : Traversal K) :
    VisitsExactly c tr t ↔ (tr.met c.toKeyComparator t).Perm ((records t).filter (tr.bounds c)) ∧
      tr.InOrder c (tr.met c.toKeyComparator t) := by
  constructor
  · rintro ⟨visits, perm, order, runs⟩
    have seen := runs (List R) takeDown []
    rw [run_eq, visitItems_takeDown, visitItems_takeDown] at seen
    have same : tr.met c.toKeyComparator t = visits := congrArg Prod.snd seen
    rw [same]
    exact ⟨perm, order⟩
  · rintro ⟨perm, order⟩
    exact ⟨_, perm, order, fun σ pfVisit s => tr.run_eq c.toKeyComparator pfVisit t s⟩

/-- The traversal over a distance meets the records within the distance as an `int`. -/
theorem met_within (wf : WellFormed c t) {key : K} {low : Int}
    (measured : ∀ r r', key ≤ c.convertCvalue r → c.convertCvalue r ≤ c.convertCvalue r' →
      c.iDiff key r' ≤ c.iDiff key r) :
    walk (fun items => c.iDiff key (item items 0) < 0) (loopDone c.toKeyComparator key low)
        (selectWithin c.toKeyComparator key low) t =
      (records t).filter fun r => key ≤ c.convertCvalue r ∧ low ≤ c.iDiff key r := by
  have judged : ∀ r, Judged c.convertCvalue c.toKeyComparator key key r := judged_self key
  -- behind a record that is too far away, all are
  have far : ∀ a b, ¬ low ≤ c.iDiff key a → c.convertCvalue a ≤ c.convertCvalue b →
      ¬ (key ≤ c.convertCvalue b ∧ low ≤ c.iDiff key b) := by
    rintro a b beyond le ⟨from_, within⟩
    by_cases before : key ≤ c.convertCvalue a
    · exact beyond (within.trans (measured a b before le))
    · have positive := (judged a).pos.mpr (not_le.mp before)
      have negative := (judged b).nonpos.mpr from_
      omega
  refine walk_eq_filter (S := fun _ => True) (fun items nonempty _ sorted => ?_)
    (fun items nonempty _ no r _ below => ?_) (fun items nonempty _ sorted no r _ above => ?_)
    (wellFormed_byKey wf) fun _ _ => trivial
  · have same : ∀ r ∈ items.takeWhile (fun r => low ≤ c.iDiff key r),
        decide (c.iDiff key r ≤ 0 ∧ low ≤ c.iDiff key r) =
          decide (key ≤ c.convertCvalue r ∧ low ≤ c.iDiff key r) := fun r _ =>
      decide_eq_decide.mpr (and_congr_left' (judged r).nonpos)
    have whole : (items.takeWhile fun r => low ≤ c.iDiff key r).filter
          (fun r => decide (key ≤ c.convertCvalue r ∧ low ≤ c.iDiff key r)) =
        items.filter fun r => key ≤ c.convertCvalue r ∧ low ≤ c.iDiff key r := by
      refine filter_takeWhile (sorted.imp fun {a b} lt no => ?_) fun r no => ?_
      · exact decide_eq_false (far a b (of_decide_eq_false no) lt.le)
      · exact decide_eq_false (far r r (of_decide_eq_false no) le_rfl)
    rw [selectWithin, filter_congr same, whole]
    refine ite_filter fun out r hr => decide_eq_false fun inside => out ?_
    exact (judged _).nonpos.mpr (inside.1.trans (sorted.le_lastItem hr))
  · have first := (judged (item items 0)).neg.not.mp (of_decide_eq_false no)
    exact decide_eq_false fun inside => first (inside.1.trans_lt below)
  · have broken := of_decide_eq_false no
    push Not at broken
    obtain ⟨-, x, hx, beyond⟩ := broken
    exact decide_eq_false (far x r (not_le.mpr beyond) ((sorted.le_lastItem hx).trans above.le))

/-- What is met, for every traversal: the records within the bounds, with the distance as an
`int`. -/
theorem met_perm (wf : WellFormed c t) (tr : Traversal K) (measured : tr.Measured c) :
    (tr.met c.toKeyComparator t).Perm ((records t).filter fun r =>
        match tr with
        | .forwardWithin key iInclusion =>
          key ≤ c.convertCvalue r ∧ (-iInclusion).bmod (2 ^ 32) ≤ c.iDiff key r
        | tr => tr.bounds c r) ∧
      tr.InOrder c (tr.met c.toKeyComparator t) := by
  have wf' := wellFormed_byKey wf
  have judged : ∀ key, ∀ r ∈ records t, Judged c.convertCvalue c.toKeyComparator key key r :=
    fun key r _ => judged_self key r
  have judged' : ∀ key key1, ∀ r ∈ records t, Judged c.convertCvalue c.toKeyComparator key key r ∧
      Judged c.convertCvalue c.toKeyComparator key1 key1 r :=
    fun key key1 r _ => ⟨judged_self key r, judged_self key1 r⟩
  have all : (records t).filter (fun _ => true) = records t := filter_eq_self.mpr (by simp)
  cases tr with
  | forward =>
    simp only [met, InOrder, bounds, walk_all, all]
    exact ⟨.refl _, wf.sorted⟩
  | backward =>
    simp only [met, InOrder, bounds, walk_all, all]
    exact ⟨reverse_perm _, pairwise_reverse.mpr wf.sorted⟩
  | post =>
    simp only [met, InOrder, bounds, all, and_true]
    exact (postWalkBack_perm _ _ _ t).trans (.of_eq (walk_all t))
  | forwardWithin key iInclusion =>
    have low : (0 - iInclusion.bmod (2 ^ 32)).bmod (2 ^ 32) = (-iInclusion).bmod (2 ^ 32) := by
      rw [Int.sub_bmod_bmod, Int.zero_sub]
    simp only [met, InOrder, low, met_within wf measured]
    exact ⟨.refl _, filter_ascending wf _⟩
  | forwardBetween key key1 =>
    have between := walk_between wf' (judged' key key1)
      (fun items no => not_lt.mp (of_decide_eq_false no))
      (fun items no => (not_le.mp (of_decide_eq_false no)).le)
    simp only [met, InOrder, bounds, between]
    exact ⟨.refl _, filter_ascending wf _⟩
  | forwardFrom key =>
    simp only [met, InOrder, bounds, walk_from wf' (judged key)]
    exact ⟨.refl _, filter_ascending wf _⟩
  | backwardTo key =>
    simp only [met, InOrder, bounds, walk_to wf' (judged key)]
    exact ⟨reverse_perm _, filter_descending wf _⟩
  | backwardBetween key key1 =>
    have between := walk_between wf' (judged' key key1)
      (fun items no => (not_le.mp (of_decide_eq_false no)).le)
      (fun items no => not_lt.mp (of_decide_eq_false no))
    simp only [met, InOrder, bounds, between]
    exact ⟨reverse_perm _, filter_descending wf _⟩
  | postBetween key key1 =>
    have between := walk_between wf' (judged' key key1)
      (fun items no => not_lt.mp (of_decide_eq_false no))
      (fun items no => (not_le.mp (of_decide_eq_false no)).le)
    simp only [met, InOrder, bounds, and_true]
    exact (postWalk_perm _ _ _ t).trans (.of_eq between)
  | postGe key =>
    simp only [met, InOrder, bounds, and_true]
    exact (postWalk_perm _ _ _ t).trans (.of_eq (walk_from wf' (judged key)))
  | postLe key =>
    simp only [met, InOrder, bounds, and_true]
    exact (postWalkBack_perm _ _ _ t).trans (.of_eq (walk_to wf' (judged key)))

/-- In every valid T-tree each traversal visits what it is for; the traversal over a distance if
and only if no record is lost or won when the distance becomes an `int`. -/
theorem visits_iff (valid : Valid c t) (tr : Traversal K) (measured : tr.Measured c) :
    VisitsExactly c tr t ↔ tr.Fits c t := by
  have wf := (wellFormed_iff_valid t).mpr valid
  obtain ⟨perm, order⟩ := met_perm wf tr measured
  rw [visits_iff_met]
  cases tr with
  | forwardWithin key iInclusion =>
    constructor
    · rintro ⟨perm', -⟩ r hr from_
      have same := (perm.symm.trans perm').mem_iff (a := r)
      simp only [mem_filter, hr, true_and, decide_eq_true_eq, Traversal.bounds] at same
      exact ⟨fun within => (same.mpr ⟨from_, within⟩).2, fun within => (same.mp ⟨from_, within⟩).2⟩
    · intro fits
      refine ⟨perm.trans (.of_eq (filter_congr fun r hr => decide_eq_decide.mpr ?_)), order⟩
      exact and_congr_right fun from_ => (fits r hr from_).symm
  | forward | backward | post | forwardBetween | forwardFrom | backwardTo | backwardBetween
  | postBetween | postGe | postLe => exact ⟨fun _ => trivial, fun _ => ⟨perm, order⟩⟩

end Purpose

/-- Numbers below eight, compared by their difference. -/
def byDistance : OrderedComparator (Fin 8) (Fin 8) where
  pfComp key r := (key : Int) - (r : Int)
  convertCvalue := id
  iDiff_neg := by decide
  iDiff_zero := by decide
  pfComp_zero := by decide

/-- The tree with the numbers 2, 3 and 5. -/
def threeNumbers : TtreeNode (Fin 8) := .node .nil .nil 0 [2, 3, 5]

theorem threeNumbers_valid : Valid byDistance threeNumbers := by
  refine ⟨⟨by decide, by decide⟩, ?_, ?_, ?_, by decide, .inr (.inl rfl), trivial, trivial⟩
  · show List.Pairwise _ _
    decide
  · exact fun r hr => absurd hr not_mem_nil
  · exact fun r hr => absurd hr not_mem_nil

theorem byDistance_measured (key : Fin 8) (iInclusion : Int) :
    Traversal.Measured byDistance (.forwardWithin key iInclusion) := by
  show ∀ r r', key ≤ r → r ≤ r' → byDistance.iDiff key r' ≤ byDistance.iDiff key r
  revert key
  decide +kernel

/-- The numbers from 2 over the distance 1 are visited. -/
theorem visits_iff_near :
    VisitsExactly byDistance (.forwardWithin 2 1) threeNumbers ↔
      Traversal.Fits byDistance threeNumbers (.forwardWithin 2 1) :=
  visits_iff threeNumbers_valid (.forwardWithin 2 1) (byDistance_measured 2 1)

/-- Over the distance 2 ^ 32 only the number 2 is visited. -/
theorem wide_distance_not_visits :
    Valid byDistance threeNumbers ∧
      Traversal.bounds byDistance (.forwardWithin 2 (2 ^ 32)) 3 = true ∧
      ¬ VisitsExactly byDistance (.forwardWithin 2 (2 ^ 32)) threeNumbers := by
  refine ⟨threeNumbers_valid, by decide +kernel, fun visits => ?_⟩
  have perm := ((visits_iff_met _).mp visits).1
  have length := perm.length_eq
  revert length
  decide +kernel

end Dtc.Tree
