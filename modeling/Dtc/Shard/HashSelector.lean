import Mathlib

/-!
# Consistent hashing

Every node has a hundred points on a ring of 32-bit numbers. A point that two nodes share belongs to
the one with the lesser name, so which node owns a point does not depend on the order in which they
were added. `Select` takes the owner of the first point behind a hash value.
-/

namespace Dtc.Shard

open List

/-- A C string. -/
abbrev Name := List (Fin 256)

abbrev Point := Fin (2 ^ 32)

structure ConsistentHashSelector where
  /-- `m_nodes`, with what was assigned last in front -/
  nodes : List (Point × Nat)
  nodeNames : List Name

namespace ConsistentHashSelector

/-- `VIRTUAL_NODE_COUNT` -/
def virtualNodeCount : Nat := 100

variable (hash : Name → Point)

/-- The point of `"%s#%d"`. -/
def point (name : Name) (i : Nat) : Point :=
  hash (name ++ 35 :: (Nat.toDigits 10 i).map fun c => Fin.ofNat 256 c.toNat)

/-- One round of the loop of `add_node`: a point is kept by a lesser name. -/
def place (names : List Name) (name : Name) (index : Nat) (nodes : List (Point × Nat)) (i : Nat) :
    List (Point × Nat) :=
  let value := point hash name i
  if (nodes.lookup value).any fun j => names.getD j [] < name then nodes
  else (value, index) :: nodes

/-- `add_node`; a name that is there already aborts the program. -/
def addNode (s : ConsistentHashSelector) (name : Name) : Option ConsistentHashSelector :=
  if name ∈ s.nodeNames then none
  else
    let names := s.nodeNames ++ [name]
    let index := names.length - 1
    some ⟨(List.range virtualNodeCount).foldl (place hash names name index) s.nodes, names⟩

/-- A selector with nodes of these names. -/
def build (names : List Name) : Option ConsistentHashSelector := names.foldlM (addNode hash) ⟨[], []⟩

/-- `Select`: `upper_bound`, or the first point of all. -/
def select (s : ConsistentHashSelector) (value : Point) : Name :=
  let points := s.nodes.map Prod.fst
  match ((points.filter (value < ·)).argmin id).or (points.argmin id) with
  | none => []
  | some p => s.nodeNames.getD ((s.nodes.lookup p).getD 0) []

section Ring
variable {P Q : Name → Point → Prop} {names : List Name} {nodes : List (Point × Nat)}

/-- What is stored for a point: its owner is the least of the names that claim it. -/
def Owned (P : Name → Point → Prop) (names : List Name) (p : Point) : Option Nat → Prop
  | none => ∀ m, ¬P m p
  | some j => ∃ n, names[j]? = some n ∧ IsLeast {m | P m p} n

/-- The map stores for each point which name owns it. -/
structure Ring (P : Name → Point → Prop) (names : List Name) (nodes : List (Point × Nat)) :
    Prop where
  owned : ∀ p, Owned P names p (nodes.lookup p)

/-- One more claim. -/
theorem Ring.claim {hash : Name → Point} {name : Name} {index i : Nat} (ring : Ring P names nodes)
    (named : names[index]? = some name) :
    Ring (fun n p => P n p ∨ n = name ∧ p = point hash name i) names
      (place hash names name index nodes i) := by
  refine ⟨fun p => ?_⟩
  have here := ring.owned p
  unfold place
  dsimp only
  by_cases same : p = point hash name i
  · subst same
    cases found : nodes.lookup (point hash name i) with
    | none =>
      rw [found] at here
      rw [Option.any_none, if_neg Bool.false_ne_true, lookup_cons_self]
      refine ⟨name, named, .inr ⟨rfl, rfl⟩, ?_⟩
      rintro m (claimed | ⟨rfl, -⟩)
      · exact absurd claimed (here m)
      · exact le_rfl
    | some j =>
      rw [found] at here
      obtain ⟨n, owner, claimed, least⟩ := here
      have stored : names.getD j [] = n := by rw [getD_eq_getElem?_getD, owner]; rfl
      simp only [Option.any_some, stored, decide_eq_true_eq]
      split_ifs with less
      · rw [found]
        refine ⟨n, owner, .inl claimed, ?_⟩
        rintro m (claimed | ⟨rfl, -⟩)
        · exact least claimed
        · exact less.le
      · rw [lookup_cons_self]
        refine ⟨name, named, .inr ⟨rfl, rfl⟩, ?_⟩
        rintro m (claimed | ⟨rfl, -⟩)
        · exact (not_lt.mp less).trans (least claimed)
        · exact le_rfl
  · have cons : lookup p ((point hash name i, index) :: nodes) = nodes.lookup p := by
      rw [lookup_cons, beq_false_of_ne same]
    rw [apply_ite (lookup p), cons, ite_self]
    cases found : nodes.lookup p <;> rw [found] at here <;>
      simpa only [Owned, same, and_false, or_false] using here

theorem Ring.congr (ring : Ring P names nodes) (same : ∀ n p, P n p ↔ Q n p) : Ring Q names nodes :=
  (funext₂ fun n p => propext (same n p) : P = Q) ▸ ring

/-- The loop of `add_node`. -/
theorem Ring.claims (hash : Name → Point) {name : Name} {index : Nat} (ring : Ring P names nodes)
    (named : names[index]? = some name) (is : List Nat) :
    Ring (fun m p => P m p ∨ m = name ∧ ∃ i ∈ is, p = point hash name i) names
      (is.foldl (place hash names name index) nodes) := by
  induction is generalizing P nodes with
  | nil => exact ring.congr fun m p => by simp
  | cons i is ih =>
    refine (ih (ring.claim named)).congr fun m p => ?_
    rw [or_assoc, ← and_or_left, exists_mem_cons_iff]

theorem Ring.mem_iff (ring : Ring P names nodes) {p : Point} :
    p ∈ nodes.map Prod.fst ↔ ∃ m, P m p := by
  have listed : nodes.lookup p = none ↔ p ∉ nodes.map Prod.fst := by
    rw [lookup_eq_none_iff, mem_map, not_exists]
    refine forall_congr' fun e => ?_
    rw [not_and, bne_iff_ne, ne_comm]
  have here := ring.owned p
  cases found : nodes.lookup p with
  | none =>
    rw [found] at here
    exact iff_of_false (listed.mp found) fun ⟨m, claimed⟩ => here m claimed
  | some j =>
    rw [found] at here
    obtain ⟨n, -, least⟩ := here
    refine iff_of_true (not_not.mp (mt listed.mpr ?_)) ⟨n, least.1⟩
    simp [found]

/-- The first point behind a value, around the ring. -/
def Next (points : Set Point) (value p : Point) : Prop :=
  IsLeast {q ∈ points | value < q} p ∨ {q ∈ points | value < q} = ∅ ∧ IsLeast points p

theorem Next.unique {points : Set Point} {value p q : Point} (first : Next points value p)
    (second : Next points value q) : p = q := by
  rcases first with first | ⟨none, first⟩ <;> rcases second with second | ⟨none', second⟩
  · exact first.unique second
  · exact absurd first.1 (none' ▸ Set.notMem_empty p)
  · exact absurd second.1 (none ▸ Set.notMem_empty q)
  · exact first.unique second

/-- A point that is next among more points is next among fewer. -/
theorem Next.of_subset {points more : Set Point} {value p : Point} (next : Next more value p)
    (sub : points ⊆ more) (mem : p ∈ points) : Next points value p := by
  rcases next with least | ⟨none, least⟩
  · exact .inl ⟨⟨mem, least.1.2⟩, fun q later => least.2 ⟨sub later.1, later.2⟩⟩
  · have fewer : {q ∈ points | value < q} ⊆ {q ∈ more | value < q} := fun q later =>
      ⟨sub later.1, later.2⟩
    exact .inr ⟨Set.subset_eq_empty fewer none, mem, fun q inside => least.2 (sub inside)⟩

/-- What `Select` returns. -/
def Selected (P : Name → Point → Prop) (value : Point) (name : Name) : Prop :=
  (∀ n p, ¬P n p) ∧ name = [] ∨ ∃ p, Next {p | ∃ m, P m p} value p ∧ IsLeast {m | P m p} name

theorem Selected.unique {value : Point} {name other : Name} (first : Selected P value name)
    (second : Selected P value other) : name = other := by
  rcases first with ⟨none, rfl⟩ | ⟨p, next, least⟩ <;>
    rcases second with ⟨none', rfl⟩ | ⟨q, next', least'⟩
  · rfl
  · exact absurd least'.1 (none _ _)
  · exact absurd least.1 (none' _ _)
  · rw [next.unique next'] at least
    exact least.unique least'

/-- More claims by one name change a choice to that name only. -/
theorem Selected.grow {value : Point} {old new chosen : Name} (sub : ∀ n p, P n p → Q n p)
    (only : ∀ n p, Q n p → P n p ∨ n = new) (before : Selected P value old)
    (after : Selected Q value chosen) : chosen = old ∨ chosen = new := by
  rcases after with ⟨none, rfl⟩ | ⟨p, next, claimed, least⟩
  · exact .inl (Selected.unique (.inl ⟨fun n p own => none n p (sub n p own), rfl⟩) before)
  · rcases only _ _ claimed with own | rfl
    · have fewer : {p | ∃ n, P n p} ⊆ {p | ∃ n, Q n p} := fun _ ⟨n, own⟩ => ⟨n, sub n _ own⟩
      exact .inl (Selected.unique (.inr ⟨p, next.of_subset fewer ⟨_, own⟩, own,
        fun n own => least (sub n p own)⟩) before)
    · exact .inr rfl

theorem isLeast_of_argmin {points : List Point} {p : Point} (found : points.argmin id = some p) :
    IsLeast {q | q ∈ points} p :=
  ⟨argmin_mem found, fun _ mem => le_of_mem_argmin mem found⟩

theorem Ring.selected (ring : Ring P names nodes) (value : Point) :
    Selected P value (select ⟨nodes, names⟩ value) := by
  have owner : ∀ p, (∃ m, P m p) → IsLeast {m | P m p} (names.getD ((nodes.lookup p).getD 0) []) := by
    rintro p ⟨m, claimed⟩
    have here := ring.owned p
    cases found : nodes.lookup p with
    | none =>
      rw [found] at here
      exact absurd claimed (here m)
    | some j =>
      rw [found] at here
      obtain ⟨n, stored, least⟩ := here
      rw [Option.getD_some, getD_eq_getElem?_getD, stored]
      exact least
  have listed := @ring.mem_iff
  unfold select
  dsimp only
  cases later : ((nodes.map Prod.fst).filter (value < ·)).argmin id with
  | some p =>
    have least := isLeast_of_argmin later
    simp only [mem_filter, decide_eq_true_eq, listed] at least
    exact .inr ⟨p, .inl least, owner p least.1.1⟩
  | none =>
    have none : {q ∈ {p | ∃ m, P m p} | value < q} = ∅ := by
      refine Set.eq_empty_of_forall_notMem fun q ⟨mem, above⟩ => ?_
      have none := filter_eq_nil_iff.mp (argmin_eq_none.mp later)
      exact none q (listed.mpr mem) (decide_eq_true above)
    cases first : (nodes.map Prod.fst).argmin id with
    | some p =>
      have least := isLeast_of_argmin first
      simp only [listed] at least
      exact .inr ⟨p, .inr ⟨none, least⟩, owner p least.1⟩
    | none =>
      refine .inl ⟨fun n p claimed => ?_, rfl⟩
      have mem := listed.mpr ⟨n, claimed⟩
      rw [argmin_eq_none.mp first] at mem
      exact not_mem_nil mem

end Ring

section Build
variable {hash : Name → Point} {s : ConsistentHashSelector} {name : Name}

/-- The points of the nodes of these names. -/
def Points (hash : Name → Point) (names : List Name) (n : Name) (p : Point) : Prop :=
  n ∈ names ∧ ∃ i ∈ List.range virtualNodeCount, p = point hash n i

theorem addNode_ring (ring : Ring (Points hash s.nodeNames) s.nodeNames s.nodes)
    (fresh : name ∉ s.nodeNames) :
    ∃ nodes, s.addNode hash name = some ⟨nodes, s.nodeNames ++ [name]⟩ ∧
      Ring (Points hash (s.nodeNames ++ [name])) (s.nodeNames ++ [name]) nodes := by
  have longer : Ring (Points hash s.nodeNames) (s.nodeNames ++ [name]) s.nodes := by
    refine ⟨fun p => ?_⟩
    have here := ring.owned p
    cases found : s.nodes.lookup p with
    | none => rwa [found] at here
    | some j =>
      rw [found] at here
      obtain ⟨n, stored, least⟩ := here
      have inside := (List.getElem?_eq_some_iff.mp stored).1
      exact ⟨n, (getElem?_append_left inside).trans stored, least⟩
  have last : (s.nodeNames ++ [name])[(s.nodeNames ++ [name]).length - 1]? = some name := by simp
  refine ⟨_, if_neg fresh, ?_⟩
  refine (longer.claims hash last _).congr fun n p => ?_
  rw [Points, Points, mem_append, mem_singleton, or_and_right]
  refine or_congr_right (and_congr_right fun same => ?_)
  rw [same]

theorem build_ring {names : List Name} (nodup : (s.nodeNames ++ names).Nodup)
    (ring : Ring (Points hash s.nodeNames) s.nodeNames s.nodes) :
    ∃ nodes, names.foldlM (addNode hash) s = some ⟨nodes, s.nodeNames ++ names⟩ ∧
      Ring (Points hash (s.nodeNames ++ names)) (s.nodeNames ++ names) nodes := by
  induction names generalizing s with
  | nil =>
    rw [append_nil]
    exact ⟨s.nodes, rfl, ring⟩
  | cons name names ih =>
    rw [append_cons] at nodup ⊢
    have fresh : name ∉ s.nodeNames := by
      have apart := (nodup_append.mp nodup).1
      exact fun mem => (nodup_append.mp apart).2.2 name mem name (by simp) rfl
    obtain ⟨nodes, added, next⟩ := addNode_ring ring fresh
    rw [foldlM_cons, added]
    exact @ih ⟨nodes, s.nodeNames ++ [name]⟩ nodup next

/-- Nodes of distinct names are chosen by name in whatever order they were added, and one more node
takes over what it is chosen for. -/
theorem select_by_name (hash : Name → Point) {names names' : List Name} {new : Name}
    (nodup : (new :: names).Nodup) (perm : names.Perm names') (value : Point) :
    ∃ s s' t, build hash names = some s ∧ build hash names' = some s' ∧
      s.addNode hash new = some t ∧ s'.select value = s.select value ∧
        (t.select value = s.select value ∨ t.select value = new) := by
  obtain ⟨fresh, nodup⟩ := nodup_cons.mp nodup
  have empty : Ring (Points hash []) [] [] := ⟨fun p m claimed => not_mem_nil claimed.1⟩
  obtain ⟨nodes, built, ring⟩ := @build_ring hash ⟨[], []⟩ names nodup empty
  obtain ⟨nodes', built', ring'⟩ := @build_ring hash ⟨[], []⟩ names' (perm.nodup nodup) empty
  obtain ⟨more, added, grown⟩ := @addNode_ring hash ⟨nodes, names⟩ new ring fresh
  have before := ring.selected value
  have same : Points hash names' = Points hash names := by
    funext n p
    rw [Points, Points, perm.mem_iff]
  refine ⟨⟨nodes, names⟩, ⟨nodes', names'⟩, _, built, built', added, ?_, ?_⟩
  · exact Selected.unique (same ▸ ring'.selected value) before
  · refine Selected.grow (fun n p own => ⟨mem_append_left _ own.1, own.2⟩) (fun n p own => ?_)
      before (grown.selected value)
    rcases mem_append.mp own.1 with old | new
    · exact .inl ⟨old, own.2⟩
    · exact .inr (mem_singleton.mp new)

theorem select_by_name_swapped :
    let hash : Name → Point := fun n => Fin.ofNat _ (n.length * 7)
    ∃ s s' t, build hash [[97], [98]] = some s ∧ build hash [[98], [97]] = some s' ∧
      s.addNode hash [99, 100] = some t ∧ s'.select 15 = s.select 15 ∧
        (t.select 15 = s.select 15 ∨ t.select 15 = [99, 100]) :=
  select_by_name _ (by decide) (List.Perm.swap _ _ _) 15

end Build
end ConsistentHashSelector
end Dtc.Shard
