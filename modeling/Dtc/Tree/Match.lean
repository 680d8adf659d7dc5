import Dtc.Tree.Compare
import Dtc.Tree.Traverse

/-!
# Conditions on the index field

The rows of a node that is stored as a tree are grouped by the value of the index
field; each group is a record of the T-tree. `match_index_condition` chooses a
traversal by the conditions on that field, collects the records that the traversal
meets, and calls a function of the object on each of them, in the order of the index.

The visitor `Visit` stops collecting at a bound. The header calls the bound a number
of tree nodes (`need_find_node_count`), the callers give a number of rows or the
number of records, and the visitor compares it with the rows it has seen.

Nothing is assumed of `KeyCompare` or of the order of the tree: a record is met if the comparisons on
its way from the root lead to it (`Leads`).
-/

namespace Dtc.Tree

open Library Memory List
open Raw (FieldDefinition DTCValue nil_short)

instance : Inhabited DTCValue := ⟨⟨0, ⟨[], nil_short⟩⟩⟩

/-- The comparisons of `DField`. -/
inductive Comparison
  | eq
  | ne
  | lt
  | le
  | gt
  | ge
  deriving DecidableEq

/-- The comparison of a stored value with the value of a condition. -/
def Comparison.Holds {K : Type*} [LinearOrder K] : Comparison → K → K → Prop
  | .eq, a, b => a = b
  | .ne, a, b => a ≠ b
  | .lt, a, b => a < b
  | .le, a, b => a ≤ b
  | .gt, a, b => b < a
  | .ge, a, b => b ≤ a

/-- A condition of a request. -/
structure Condition (V : Type*) where
  fieldId : Nat
  operation : Comparison
  value : V

/-- What a request says about the rows it is for. `allRows` is cleared by every condition
on a field outside the key. -/
structure Request (V : Type*) where
  conditions : List (Condition V)
  allRows : Bool
  limitStart : Nat
  limitCount : Nat
  cleared : allRows = true → ∀ cond ∈ conditions, cond.fieldId ≠ ttreeIndexPos

/-- The rows of one index value; `index` is the part of a value that its order
depends on. -/
structure Record {V K : Type*} (index : V → K) where
  rows : List (Nat → V)
  key : K
  nonempty : rows ≠ []
  same : ∀ row ∈ rows, index (row ttreeIndexPos) = key

instance {V K : Type*} [Inhabited V] (index : V → K) : Inhabited (Record index) :=
  ⟨⟨[fun _ => default], index default, List.cons_ne_nil _ _, by simp⟩⟩

/-- `pResCookie`, with the used part of `p_handle`. -/
structure Cookie (R : Type*) where
  pHandle : List R
  needFindNodeCount : Nat
  hasGotRowCount : Nat

section Model
variable {V K σ : Type*} [Inhabited V] {index : V → K} (c : KeyComparator V (Record index))

/-- `Visit`. -/
def visit (cookie : Cookie (Record index)) (hRecord : Record index) :
    Int × Cookie (Record index) :=
  if 0 < cookie.needFindNodeCount ∧ cookie.needFindNodeCount ≤ cookie.hasGotRowCount then
    (0, cookie)
  else
    (0, { cookie with
          pHandle := cookie.pHandle ++ [hRecord]
          hasGotRowCount := add32 cookie.hasGotRowCount hRecord.rows.length })

/-- The records that a traversal collects, if it does not fail. -/
def collected (need : Nat)
    (traverse : Cookie (Record index) → Int × Cookie (Record index)) :
    Except Int (List (Record index)) :=
  let result := traverse ⟨[], need, 0⟩
  if result.1 ≠ 0 then .error (-1) else .ok result.2.pHandle

/-- The calls of `subRowProc` on the collected records. -/
def process (proc : σ → Record index → Int × σ) (reverse : Bool)
    (records : Except Int (List (Record index))) (s : σ) : Int × σ :=
  match records with
  | .error ret => (ret, s)
  | .ok rs => visitItems proc (if reverse then rs.reverse else rs) s

/-- The traversals that the conditions on the index field can select. -/
inductive Plan (V : Type*)
  | all
  | find (value : V)
  | above (value : V)
  | below (value : V)
  | between (low high : V)

/-- The choice of `match_index_condition`, from the conditions on the index field. -/
def Plan.ofIndex (conditions : List (Condition V)) : Plan V :=
  match conditions.find? fun cond => cond.operation = .eq with
  | some cond => .find cond.value
  | none =>
    match conditions.find? fun cond => cond.operation = .gt ∨ cond.operation = .ge,
      conditions.find? fun cond => cond.operation = .lt ∨ cond.operation = .le with
    | some left, none => .above left.value
    | none, some right => .below right.value
    | some left, some right => .between left.value right.value
    | none, none => .all

/-- The conditions on the index field. -/
def Request.indexConditions (request : Request V) : List (Condition V) :=
  request.conditions.filter fun cond => cond.fieldId = ttreeIndexPos

/-- The traversal of a request. -/
def Request.plan (request : Request V) : Plan V := Plan.ofIndex request.indexConditions

/-- The bound that `get_sub_raw` gives to the visitor: the rows of a `LIMIT` without
`WHERE`. -/
def Request.needRows (request : Request V) : Nat :=
  if request.allRows ∧ 0 < request.limitCount then add32 request.limitStart request.limitCount
  else 0

/-- `match_index_condition`. A single `NE` takes the same way as no condition at all, and
so do several of them. -/
def matchIndexCondition (root : TtreeNode (Record index)) (nodeCnt : Nat) (isDesc : Bool)
    (request : Request V) (proc : σ → Record index → Int × σ) (s : σ) : Int × σ :=
  match request.plan with
  | .all =>
    process proc isDesc (.ok (traverseForward visit root ⟨[], request.needRows, 0⟩).2.pHandle) s
  | .find value =>
    match Ttree.doFind c root value with
    | some hRecord => proc s hRecord
    | none => (0, s)
  | .above value => process proc isDesc (collected 0 (traverseForwardFrom c visit value root)) s
  | .below value =>
    process proc (!isDesc) (collected nodeCnt (traverseBackwardTo c visit value root)) s
  | .between low high =>
    process proc isDesc (collected 0 (traverseForwardBetween c visit low high root)) s

/-- The records that the function is called on, as long as it returns 0. -/
def visited (root : TtreeNode (Record index)) (nodeCnt : Nat) (isDesc : Bool)
    (request : Request V) : List (Record index) :=
  (matchIndexCondition c root nodeCnt isDesc request (fun calls r => (0, calls ++ [r])) []).2

end Model

/-! ### What the visitor keeps -/

section Taken
variable {V K : Type*} {index : V → K}

/-- The rows of some records, in the 32 bits of the counter. -/
def rowsOf (rs : List (Record index)) : Nat := (rs.map fun r => r.rows.length).sum % 2 ^ 32

/-- The visitor keeps no further record once it has seen `got` rows. -/
def Stops (need got : Nat) : Prop := 0 < need ∧ need ≤ got

instance (need got : Nat) : Decidable (Stops need got) :=
  inferInstanceAs (Decidable (_ ∧ _))

/-- The records that are kept of a list. -/
def taken (need : Nat) : Nat → List (Record index) → List (Record index)
  | _, [] => []
  | got, r :: rs =>
    if Stops need got then [] else r :: taken need (add32 got r.rows.length) rs

theorem visitItems_stopped {cookie : Cookie (Record index)}
    (stops : Stops cookie.needFindNodeCount cookie.hasGotRowCount) (rs : List (Record index)) :
    visitItems visit rs cookie = (0, cookie) := by
  induction rs with
  | nil => rfl
  | cons r rs ih =>
    have step : visit cookie r = (0, cookie) := if_pos stops
    rw [visitItems, step]
    exact ih

theorem visitItems_visit (rs hs : List (Record index)) (need got : Nat) :
    (visitItems visit rs ⟨hs, need, got⟩).1 = 0 ∧
      (visitItems visit rs ⟨hs, need, got⟩).2.pHandle = hs ++ taken need got rs := by
  induction rs generalizing hs got with
  | nil => exact ⟨rfl, (append_nil hs).symm⟩
  | cons r rs ih =>
    by_cases stops : Stops need got
    · rw [visitItems_stopped stops, taken, if_pos stops, append_nil]
      exact ⟨rfl, rfl⟩
    · have next := ih (hs ++ [r]) (add32 got r.rows.length)
      rw [append_assoc, singleton_append] at next
      have step : visit ⟨hs, need, got⟩ r =
          (0, ⟨hs ++ [r], need, add32 got r.rows.length⟩) := if_neg stops
      rw [visitItems, step, taken, if_neg stops]
      exact next

theorem taken_initial (need got : Nat) (rs : List (Record index)) : taken need got rs <+: rs := by
  induction rs generalizing got with
  | nil => exact nil_prefix
  | cons r rs ih =>
    rw [taken]
    split_ifs
    · exact nil_prefix
    · exact (prefix_cons_inj r).mpr (ih _)

theorem taken_zero (got : Nat) (rs : List (Record index)) : taken 0 got rs = rs := by
  induction rs generalizing got with
  | nil => rfl
  | cons r rs ih => rw [taken, if_neg (fun stops => absurd stops.1 (lt_irrefl 0)), ih]

/-- A record is kept if the visitor has not stopped at any record before it. -/
theorem mem_taken_iff {need : Nat} (got : Nat) (small : got < 2 ^ 32) {before after : List (Record index)}
    {r : Record index} (fresh : r ∉ before) :
    r ∈ taken need got (before ++ r :: after) ↔
      ∀ p, p <+: before → ¬ Stops need ((got + rowsOf p) % 2 ^ 32) := by
  induction before generalizing got with
  | nil =>
    rw [nil_append, taken]
    have here : (got + rowsOf ([] : List (Record index))) % 2 ^ 32 = got := Nat.mod_eq_of_lt small
    constructor
    · intro mem p hp
      rw [prefix_nil.mp hp, here]
      intro stops
      rw [if_pos stops] at mem
      exact nomatch mem
    · intro free
      have go := free [] nil_prefix
      rw [here] at go
      rw [if_neg go]
      exact mem_cons_self
  | cons a before ih =>
    rw [mem_cons, not_or] at fresh
    have next := ih (add32 got a.rows.length) (Nat.mod_lt _ (by decide)) fresh.2
    have shift : ∀ p : List (Record index),
        (add32 got a.rows.length + rowsOf p) % 2 ^ 32 = (got + rowsOf (a :: p)) % 2 ^ 32 := by
      intro p
      unfold add32 rowsOf
      rw [map_cons, sum_cons]
      omega
    have here : (got + rowsOf ([] : List (Record index))) % 2 ^ 32 = got := Nat.mod_eq_of_lt small
    rw [cons_append, taken]
    constructor
    · intro mem p hp
      cases p with
      | nil =>
        rw [here]
        intro stops
        rw [if_pos stops] at mem
        exact nomatch mem
      | cons b p =>
        obtain ⟨rfl, below⟩ := cons_prefix_cons.mp hp
        by_cases stops : Stops need got
        · rw [if_pos stops] at mem
          exact nomatch mem
        · rw [if_neg stops, mem_cons] at mem
          rw [← shift]
          exact next.mp (mem.resolve_left fresh.1) p below
    · intro free
      have go := free [] nil_prefix
      rw [here] at go
      rw [if_neg go]
      refine mem_cons_of_mem a (next.mpr fun p hp => ?_)
      rw [shift]
      exact free (a :: p) ((prefix_cons_inj a).mpr hp)

/-! ### Calls on what was kept -/

variable {σ : Type*}

/-- A list that is sorted upwards, in the declared order of the index. -/
def inOrder {α : Type*} (isDesc : Bool) (rs : List α) : List α := if isDesc then rs.reverse else rs

variable {α : Type*}

theorem inOrder_sublist {xs ys : List α} (sub : xs.Sublist ys) (isDesc : Bool) :
    (inOrder isDesc xs).Sublist (inOrder isDesc ys) := by
  cases isDesc with
  | false => exact sub
  | true => exact sub.reverse

theorem mem_inOrder {xs : List α} {x : α} (isDesc : Bool) : x ∈ inOrder isDesc xs ↔ x ∈ xs := by
  cases isDesc with
  | false => exact Iff.rfl
  | true => exact mem_reverse

theorem visitItems_singleton (proc : σ → Record index → Int × σ) (r : Record index) (s : σ) :
    visitItems proc [r] s = proc s r := by
  unfold visitItems andThen visitItems
  split_ifs with failed
  · rfl
  · exact Prod.ext (not_not.mp failed).symm rfl

/-- The function is called on what the visitor has kept. -/
theorem process_collected (proc : σ → Record index → Int × σ) (reverse : Bool) (need : Nat)
    {traverse : Cookie (Record index) → Int × Cookie (Record index)} {rs : List (Record index)}
    (run : traverse ⟨[], need, 0⟩ = visitItems visit rs ⟨[], need, 0⟩) (s : σ) :
    process proc reverse (collected need traverse) s =
      visitItems proc (inOrder reverse (taken need 0 rs)) s := by
  obtain ⟨ret, handles⟩ := visitItems_visit rs [] need 0
  have ok : collected need traverse = .ok (taken need 0 rs) := by
    rw [collected, run, ret, handles]
    rfl
  rw [ok]
  rfl

theorem visitItems_record (rs calls : List (Record index)) :
    visitItems (fun calls r => (0, calls ++ [r])) rs calls = (0, calls ++ rs) := by
  induction rs generalizing calls with
  | nil => rw [append_nil]; rfl
  | cons r rs ih =>
    exact (ih (calls ++ [r])).trans (by rw [append_assoc]; rfl)

end Taken

/-! ### The records that are met -/

section Leads
variable {R : Type*} {xs ys : List R}

/-- The way from the root to a record: the comparisons at the nodes open the subtrees, and at its own
node the record is selected. -/
def Leads (enterLeft enterRight : List R → Bool) (select : List R → List R) :
    TtreeNode R → R → Prop
  | .nil, _ => False
  | .node hLeft hRight _ items, r =>
    enterLeft items = true ∧ Leads enterLeft enterRight select hLeft r ∨ r ∈ select items ∨
      enterRight items = true ∧ Leads enterLeft enterRight select hRight r

variable {enterLeft enterRight : List R → Bool} {select : List R → List R}

theorem mem_walk {t : TtreeNode R} {r : R} :
    r ∈ walk enterLeft enterRight select t ↔ Leads enterLeft enterRight select t r := by
  induction t with
  | nil => exact Iff.of_eq (by simp [walk, Leads])
  | node hLeft hRight chBalance items ihLeft ihRight =>
    have within : ∀ (enter : Bool) (rs : List R), r ∈ (if enter then rs else []) ↔
        enter = true ∧ r ∈ rs := by
      intro enter rs
      cases enter <;> simp
    rw [walk, mem_append, mem_append, within, within, ihLeft, ihRight, Leads]

theorem walk_sublist (part : ∀ items, (select items).Sublist items) (t : TtreeNode R) :
    (walk enterLeft enterRight select t).Sublist (records t) := by
  induction t with
  | nil => exact List.Sublist.refl _
  | node hLeft hRight chBalance items ihLeft ihRight =>
    have within : ∀ (enter : Bool) {rs rs' : List R}, rs.Sublist rs' →
        (if enter then rs else []).Sublist rs' := by
      intro enter rs rs' sub
      cases enter
      · exact nil_sublist _
      · exact sub
    rw [walk, records_node]
    exact (within _ ihLeft).append ((part items).append (within _ ihRight))

open Classical in
/-- A part of a list without repetitions is what a property selects of it. -/
theorem eq_filter_of_sublist (sub : xs.Sublist ys) (nodup : ys.Nodup) {p : R → Prop}
    (mem : ∀ x ∈ ys, x ∈ xs ↔ p x) : xs = ys.filter p := by
  induction sub with
  | slnil => rfl
  | @cons xs ys a sub ih =>
    obtain ⟨fresh, nodup⟩ := nodup_cons.mp nodup
    have out : ¬ p a := fun pa => fresh (sub.subset ((mem a mem_cons_self).mpr pa))
    rw [filter_cons_of_neg (by simpa using out)]
    exact ih nodup fun x hx => mem x (mem_cons_of_mem a hx)
  | @cons_cons xs ys a sub ih =>
    obtain ⟨fresh, nodup⟩ := nodup_cons.mp nodup
    rw [filter_cons_of_pos (by simpa using (mem a mem_cons_self).mp mem_cons_self), ← ih nodup]
    intro x hx
    have ne : x ≠ a := fun eq => fresh (eq ▸ hx)
    rw [← mem x (mem_cons_of_mem a hx), mem_cons, or_iff_right ne]

end Leads

section Find
variable {V R : Type*} [Inhabited R] {c : KeyComparator V R} {items : List R}

theorem searchLoop_lt {v : V} {rounds iLeft iRight i : Nat} (inside : iRight ≤ items.length)
    (hit : searchLoop c items v rounds iLeft iRight = .inl i) : i < items.length := by
  induction rounds generalizing iLeft iRight with
  | zero => exact nomatch hit
  | succ rounds ih =>
    rw [searchLoop] at hit
    dsimp only at hit
    split_ifs at hit with narrow
    · obtain rfl := Sum.inl.inj hit
      omega
    · exact ih inside hit
    · exact ih (by omega) hit

/-- `do_find` gives a record of the tree. -/
theorem doFind_mem {t : TtreeNode R} {v : V} {r : R} (found : doFind c t v = some r) :
    r ∈ records t := by
  induction t with
  | nil => cases found
  | node hLeft hRight chBalance items ihLeft ihRight =>
    rw [records_node, mem_append, mem_append]
    rw [doFind] at found
    dsimp only at found
    split_ifs at found with empty
    · rw [← Option.some.inj found]
      exact .inr (.inl (item_mem (by omega)))
    · rw [← Option.some.inj found]
      exact .inr (.inl (item_mem (by omega)))
    · exact .inr (.inr (ihRight found))
    · cases search : searchItems c items v with
      | inl i =>
        rw [search] at found
        rw [← Option.some.inj found]
        exact .inr (.inl (item_mem (searchLoop_lt (Nat.sub_le _ _) search)))
      | inr i =>
        rw [search] at found
        cases found
    · exact .inl (ihLeft found)

end Find

/-! ### The calls -/

section Calls
variable {V K σ : Type*} {index : V → K} [Inhabited V] (c : KeyComparator V (Record index))
  (root : TtreeNode (Record index))

/-- The records that a traversal meets, in the order in which it meets them. -/
def Plan.scan : Plan V → List (Record index)
  | .all => records root
  | .find v => (Ttree.doFind c root v).toList
  | .above v =>
    walk (fun items => c.iDiff v (item items 0) < 0) (fun _ => true) (selectFrom c v) root
  | .below v =>
    (walk (fun _ => true) (fun items => 0 < c.iDiff v (lastItem items)) (selectTo c v) root).reverse
  | .between low high =>
    walk (fun items => c.iDiff low (item items 0) < 0)
      (fun items => 0 ≤ c.iDiff high (lastItem items)) (selectBetween c low high) root

/-- The comparisons of a traversal lead to a record. -/
def Plan.Leads (r : Record index) : Plan V → Prop
  | .all => r ∈ records root
  | .find v => Ttree.doFind c root v = some r
  | .above v =>
    Tree.Leads (fun items => c.iDiff v (item items 0) < 0) (fun _ => true) (selectFrom c v) root r
  | .below v =>
    Tree.Leads (fun _ => true) (fun items => 0 < c.iDiff v (lastItem items)) (selectTo c v) root r
  | .between low high =>
    Tree.Leads (fun items => c.iDiff low (item items 0) < 0)
      (fun items => 0 ≤ c.iDiff high (lastItem items)) (selectBetween c low high) root r

/-- The traversal goes down from the greatest record. -/
def Plan.down : Plan V → Bool
  | .below _ => true
  | _ => false

/-- The bound that the visitor is given. -/
def Request.cutoff (request : Request V) (nodeCnt : Nat) : Nat :=
  match request.plan with
  | .all => request.needRows
  | .below _ => nodeCnt
  | _ => 0

/-- The records that the function is called on, as the visitor keeps them. -/
def Request.calls (request : Request V) (nodeCnt : Nat) (isDesc : Bool) : List (Record index) :=
  inOrder (request.plan.down != isDesc)
    (taken (request.cutoff nodeCnt) 0 (request.plan.scan c root))

variable {c root}

theorem Plan.mem_scan (plan : Plan V) (r : Record index) :
    r ∈ plan.scan c root ↔ plan.Leads c root r := by
  cases plan with
  | all => exact Iff.rfl
  | find v => exact Option.mem_toList
  | above v => exact mem_walk
  | below v => exact mem_reverse.trans mem_walk
  | between low high => exact mem_walk

section
variable (c) (v v' : V) (items : List (Record index))

theorem selectFrom_sublist : (selectFrom c v items).Sublist items := by
  unfold selectFrom
  split_ifs
  · exact filter_sublist
  · exact nil_sublist _

theorem selectTo_sublist : (selectTo c v items).Sublist items := by
  unfold selectTo
  split_ifs
  · exact filter_sublist
  · exact nil_sublist _

theorem selectBetween_sublist : (selectBetween c v v' items).Sublist items := by
  unfold selectBetween
  split_ifs
  · exact nil_sublist _
  · exact filter_sublist

end

/-- A traversal meets the records in the order of the tree, or against it. -/
theorem Plan.scan_sublist (plan : Plan V) :
    (inOrder plan.down (plan.scan c root)).Sublist (records root) := by
  cases plan with
  | all => exact List.Sublist.refl _
  | find v =>
    change (Ttree.doFind c root v).toList.Sublist _
    cases found : Ttree.doFind c root v with
    | none => exact nil_sublist _
    | some r =>
      have same : doFind c root v = some r := by
        cases root with
        | nil => exact nomatch found
        | node => exact found
      exact singleton_sublist.mpr (doFind_mem same)
  | above v => exact walk_sublist (selectFrom_sublist c v) root
  | below v =>
    change (walk _ _ _ root).reverse.reverse.Sublist _
    rw [reverse_reverse]
    exact walk_sublist (selectTo_sublist c v) root
  | between low high => exact walk_sublist (selectBetween_sublist c low high) root

/-- Every function is called on the records that the visitor keeps. -/
theorem matchIndexCondition_eq (request : Request V) (nodeCnt : Nat) (isDesc : Bool)
    (proc : σ → Record index → Int × σ) (s : σ) :
    matchIndexCondition c root nodeCnt isDesc request proc s =
      visitItems proc (request.calls c root nodeCnt isDesc) s := by
  unfold matchIndexCondition Request.calls Request.cutoff
  cases plan : request.plan with
  | all =>
    have handles := (visitItems_visit (records root) [] request.needRows 0).2
    rw [traverseForward_eq, handles]
    cases isDesc <;> rfl
  | find v =>
    dsimp only [Plan.scan, Plan.down]
    rw [taken_zero]
    cases Ttree.doFind c root v with
    | some r => cases isDesc <;> exact (visitItems_singleton proc r s).symm
    | none => cases isDesc <;> rfl
  | above | between =>
    refine (process_collected proc isDesc 0 (forward_eq _ _ _ visit root _) s).trans ?_
    cases isDesc <;> rfl
  | below v =>
    refine (process_collected proc (!isDesc) nodeCnt (backward_eq _ _ _ visit root _) s).trans ?_
    cases isDesc <;> rfl

theorem visited_eq (request : Request V) (nodeCnt : Nat) (isDesc : Bool) :
    visited c root nodeCnt isDesc request = request.calls c root nodeCnt isDesc := by
  rw [visited, matchIndexCondition_eq, visitItems_record]
  rfl

end Calls

/-! ### When the right records are met -/

section Visits
variable {V K : Type*} [Inhabited V] {index : V → K}
  (c : KeyComparator V (Record index)) (root : TtreeNode (Record index))

open Classical in
/-- The records that the traversal meets before a record with `before` and `after` on its two sides
in the tree. -/
noncomputable def Request.earlier (request : Request V) (before after : List (Record index)) :
    List (Record index) :=
  if request.plan.down then (after.filter fun a => request.plan.Leads c root a).reverse
  else before.filter fun a => request.plan.Leads c root a

/-- The comparisons lead to the record, and the rows of the records met before it do not reach the
bound of the visitor. -/
def Request.Meets (request : Request V) (nodeCnt : Nat) (r : Record index) : Prop :=
  request.plan.Leads c root r ∧ ∀ before after, records root = before ++ r :: after →
    ∀ p, p <+: request.earlier c root before after → ¬ Stops (request.cutoff nodeCnt) (rowsOf p)

variable {c root} {request : Request V}

section
variable (distinct : (records root).Nodup)
include distinct

open Classical in
theorem Plan.scan_eq (plan : Plan V) :
    inOrder plan.down (plan.scan c root) = (records root).filter fun r => plan.Leads c root r := by
  refine eq_filter_of_sublist plan.scan_sublist distinct fun r _ => ?_
  rw [mem_inOrder, plan.mem_scan]

/-- The traversal meets a record after the records on one side of it. -/
theorem Plan.scan_split {before after : List (Record index)} {r : Record index}
    (split : records root = before ++ r :: after) (leads : request.plan.Leads c root r) :
    ∃ rest, request.plan.scan c root = request.earlier c root before after ++ r :: rest := by
  classical
  have whole := request.plan.scan_eq distinct (c := c)
  rw [split, filter_append, filter_cons_of_pos (by simpa using leads)] at whole
  unfold Request.earlier
  cases down : request.plan.down with
  | false =>
    rw [down] at whole
    exact ⟨_, whole⟩
  | true =>
    rw [down] at whole
    have turned := congrArg List.reverse whole
    rw [inOrder, if_pos rfl, reverse_reverse, reverse_append, reverse_cons, append_assoc] at turned
    exact ⟨_, turned⟩

/-- The visitor keeps the records that are met before the bound. -/
theorem Request.mem_calls_iff (nodeCnt : Nat) (isDesc : Bool) {r : Record index}
    (mem : r ∈ records root) :
    r ∈ request.calls c root nodeCnt isDesc ↔ request.Meets c root nodeCnt r := by
  rw [Request.calls, mem_inOrder]
  have nodup : (request.plan.scan c root).Nodup := by
    have sub := distinct.sublist (request.plan.scan_sublist (c := c))
    unfold inOrder at sub
    split_ifs at sub
    · exact nodup_reverse.mp sub
    · exact sub
  have small : ∀ p : List (Record index), (0 + rowsOf p) % 2 ^ 32 = rowsOf p := by
    intro p
    rw [Nat.zero_add]
    exact Nat.mod_mod _ _
  have kept : ∀ before after, records root = before ++ r :: after → request.plan.Leads c root r →
      (r ∈ taken (request.cutoff nodeCnt) 0 (request.plan.scan c root) ↔
        ∀ p, p <+: request.earlier c root before after →
          ¬ Stops (request.cutoff nodeCnt) (rowsOf p)) := by
    intro before after split leads
    obtain ⟨rest, scan⟩ := Plan.scan_split distinct split leads
    rw [scan] at nodup ⊢
    have fresh : r ∉ request.earlier c root before after := fun mem =>
      (nodup_append.mp nodup).2.2 r mem r mem_cons_self rfl
    rw [mem_taken_iff 0 (by decide) fresh]
    simp only [small]
  constructor
  · intro called
    have leads := (request.plan.mem_scan r).mp ((taken_initial _ _ _).subset called)
    exact ⟨leads, fun before after split => (kept before after split leads).mp called⟩
  · rintro ⟨leads, free⟩
    obtain ⟨before, after, split⟩ := append_of_mem mem
    exact (kept before after split leads).mpr (free before after split)

open Classical in
theorem Request.calls_eq (nodeCnt : Nat) (isDesc : Bool) :
    request.calls c root nodeCnt isDesc =
      inOrder isDesc ((records root).filter fun r => request.Meets c root nodeCnt r) := by
  have upwards : inOrder isDesc (request.calls c root nodeCnt isDesc) =
      (records root).filter fun r => request.Meets c root nodeCnt r := by
    refine eq_filter_of_sublist ?_ distinct fun r mem => ?_
    · have kept := inOrder_sublist
        (taken_initial (request.cutoff nodeCnt) 0 (request.plan.scan c root)).sublist
        request.plan.down
      have same : inOrder isDesc (request.calls c root nodeCnt isDesc) = inOrder request.plan.down
          (taken (request.cutoff nodeCnt) 0 (request.plan.scan c root)) := by
        unfold Request.calls
        cases isDesc <;> cases request.plan.down <;> simp [inOrder]
      rw [same]
      exact kept.trans request.plan.scan_sublist
    · rw [mem_inOrder, request.mem_calls_iff distinct nodeCnt isDesc mem]
  rw [← upwards]
  cases isDesc <;> simp [inOrder]

end

section Order
variable [LinearOrder K]

/-- The index value of the record meets every condition on the index field. -/
def Request.Satisfies (request : Request V) (r : Record index) : Prop :=
  ∀ cond ∈ request.indexConditions, cond.operation.Holds r.key (index cond.value)

/-- The function is called on every record that can satisfy the conditions, on each at
most once, and in the declared order of the index. -/
structure Visits (root : TtreeNode (Record index)) (isDesc : Bool) (request : Request V)
    (calls : List (Record index)) : Prop where
  complete : ∀ r ∈ records root, request.Satisfies r → r ∈ calls
  stored : ∀ r ∈ calls, r ∈ records root
  once : calls.Nodup
  ordered : calls.Pairwise fun a b => if isDesc then b.key ≤ a.key else a.key ≤ b.key

/-- Every record that can satisfy the conditions is met, and what is met stands in the order of the
index. -/
structure Reached (c : KeyComparator V (Record index)) (root : TtreeNode (Record index)) (nodeCnt : Nat)
    (request : Request V) : Prop where
  wanted : ∀ r ∈ records root, request.Satisfies r → request.Meets c root nodeCnt r
  sorted : (records root).Pairwise fun a b =>
    request.Meets c root nodeCnt a → request.Meets c root nodeCnt b → a.key ≤ b.key

end Order

end Visits

/-! ### Integer index fields -/

/-- A record as `KeyCompare` reads it: the index value of the first row behind the header. -/
def Record.bytes {f : FieldDefinition} (p : Platform) (r : Record (intValue f)) : Nat → UInt8 :=
  store (fun _ => 0) keyOffset
    (Raw.RawData.fieldBytes p.floatFormat f (r.rows.head r.nonempty ttreeIndexPos))

/-- `KeyCompare` on the records of an index field. -/
def keyCompare (f : FieldDefinition) (p : Platform) :
    KeyComparator DTCValue (Record (intValue f)) where
  pfComp value r := (indexComparator f p).pfComp value (r.bytes p)
  convertCvalue r := (indexComparator f p).convertCvalue (r.bytes p)

/-- A record with some equal rows. -/
def signedRecord (key : Int) (others : Nat) : Record (intValue (signedField 4)) where
  rows := List.replicate (others + 1) fun _ => signedValue key
  key := intValue (signedField 4) (signedValue key)
  nonempty := List.cons_ne_nil _ _
  same row mem := by rw [List.eq_of_mem_replicate mem]

/-- Index value 1 with one row, and 2 with two rows. -/
def twoRecords : TtreeNode (Record (intValue (signedField 4))) :=
  .node .nil .nil 0 [signedRecord 1 0, signedRecord 2 1]

theorem twoRecords_distinct : (records twoRecords).Nodup := by
  have ne : signedRecord 1 0 ≠ signedRecord 2 1 := fun eq =>
    absurd (congrArg Record.key eq) (by decide)
  simpa [twoRecords] using ne

/-- One condition on the index field. -/
def signedRequest (operation : Comparison) (value : Int) : Request DTCValue :=
  ⟨[⟨1, operation, signedValue value⟩], false, 0, 0, nofun⟩

end Dtc.Tree
