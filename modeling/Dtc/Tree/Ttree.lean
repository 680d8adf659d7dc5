import Dtc.Library.Machine
import Dtc.Tree.Insert
import Dtc.Tree.Delete

/-!
# The T-tree as a finite map

`Ttree` holds the handle of the root. Its operations wrap those of the nodes,
translate their replies into error codes and treat the empty tree themselves.

The abstract object is a partial function from keys to record handles with its
own step function. A run of the tree is a run of the map: the records of the tree
are the graph of the map after every operation, and every reply is the map's
reply or a refusal by the allocator. This holds exactly as long as no key is
deleted from the empty tree; there `Ttree::Delete` returns before it has looked
for the key and reports success.
-/

namespace Dtc.Tree

open Library Function

/-- `EC_NO_MEM`. -/
def ecNoMem : Int := 2041

/-- `EC_KEY_EXIST`. -/
def ecKeyExist : Int := 2042

section Model

variable {K R : Type*} [Inhabited R] (c : KeyComparator K R) (root : TtreeNode R)

/-- Enough fuel for an insertion into a well-formed tree: two calls a level. -/
def insertFuel : Nat := 2 * root.height + 1

/-- `Ttree::do_insert`: return value, new root and `isAllocNode`. -/
def Ttree.doInsert (mem : Bool) (key : K) (hRecord : R) (isAllocNode : Bool) : InsertResult R :=
  if root.isNil then
    if mem then ⟨0, leaf hRecord, true⟩ else ⟨ecNoMem, root, isAllocNode⟩
  else
    let node := Tree.doInsert c mem (insertFuel root) root key hRecord isAllocNode
    if node.ret = -2 then ⟨ecKeyExist, node.hNode, node.isAllocNode⟩
    else if node.ret = -1 then ⟨ecNoMem, node.hNode, node.isAllocNode⟩
    else if node.ret < 0 then ⟨-1, node.hNode, node.isAllocNode⟩
    else ⟨0, node.hNode, node.isAllocNode⟩

/-- `Ttree::Delete`. -/
def Ttree.delete (key : K) (isFreeNode : Bool) : DeleteResult R :=
  if root.isNil then ⟨0, root, isFreeNode⟩
  else
    let node := Tree.delete c root key isFreeNode
    if node.ret ≤ -1 then ⟨-1, node.hNode, node.isFreeNode⟩
    else ⟨0, node.hNode, node.isFreeNode⟩

/-- `Ttree::do_find`. -/
def Ttree.doFind (key : K) : Option R :=
  if root.isNil then none else Tree.doFind c root key

/-- A call on the tree. An insertion carries a record with its own key and the
outcome of the allocator, should it be asked. -/
inductive Op (K R : Type*) where
  | insert (hRecord : R) (mem : Bool)
  | delete (key : K)
  | find (key : K)

/-- The value a caller sees. -/
inductive Reply (R : Type*) where
  | code (ret : Int)
  | record (found : Option R)
  deriving DecidableEq

/-- One call on the tree. -/
def Ttree.step : Op K R → Reply R × TtreeNode R
  | .insert hRecord mem =>
    let res := Ttree.doInsert c root mem (c.convertCvalue hRecord) hRecord false
    (.code res.ret, res.hNode)
  | .delete key =>
    let res := Ttree.delete c root key false
    (.code res.ret, res.hNode)
  | .find key => (.record (Ttree.doFind c root key), root)

end Model

variable {K R : Type*} [LinearOrder K] [Inhabited R] (c : OrderedComparator K R)

/-- `do_find` on a node returns exactly the stored record of the key. -/
theorem doFind_eq_some_iff {t : TtreeNode R} (wf : WellFormed c t) (key : K) (r : R) :
    Tree.doFind c.toKeyComparator t key = some r ↔ r ∈ records t ∧ c.convertCvalue r = key := by
  induction t with
  | nil => simp [Tree.doFind]
  | node hLeft hRight chBalance items ihLeft ihRight =>
    obtain ⟨-, size, left, right, sorted, hli, hir⟩ := wellFormed_node_iff.mp wf
    have first : item items 0 ∈ items := item_mem (by omega)
    have last : item items (items.length - 1) ∈ items := item_mem (by omega)
    have hit : ∀ a ∈ items, key = c.convertCvalue a →
        (some a = some r ↔
          r ∈ records (.node hLeft hRight chBalance items) ∧ c.convertCvalue r = key) := by
      intro a ha hkey
      have inside : a ∈ records (.node hLeft hRight chBalance items) := by simp [ha]
      constructor
      · rintro ⟨rfl⟩
        exact ⟨inside, hkey.symm⟩
      · rintro ⟨hr, heq⟩
        exact congrArg some (wf.sorted.eq_of_key_eq inside hr (hkey.symm.trans heq.symm))
    have nonempty : items.length ≠ 0 := by omega
    simp only [Tree.doFind, if_neg nonempty]
    split_ifs with hzero hpos hlast habove
    · exact hit _ first ((c.iDiff_zero _ _).mp hzero)
    · exact hit _ last ((c.iDiff_zero _ _).mp hlast)
    · rw [ihRight right]
      refine and_congr_left fun heq => (mem_records_iff_right wf ?_).symm
      exact heq ▸ (c.iDiff_pos _ _).mp habove
    · have hfirst : c.convertCvalue (item items 0) < key := (c.iDiff_pos _ _).mp hpos
      have hbelow : key < c.convertCvalue (item items (items.length - 1)) :=
        (c.iDiff_neg _ _).mp (by omega)
      have found := searchItems_spec sorted size.1 hfirst hbelow
      generalize searchItems c.toKeyComparator items key = position at found
      cases position with
      | inl i => exact hit _ (item_mem found.1) found.2.symm
      | inr i =>
        refine ⟨nofun, fun ⟨hr, heq⟩ => absurd ⟨r, ?_, heq⟩ found.not_mem⟩
        exact (mem_records_iff_here wf (heq ▸ hfirst) (heq ▸ hbelow)).mp hr
    · rw [ihLeft left]
      refine and_congr_left fun heq => (mem_records_iff_left wf ?_).symm
      exact heq ▸ (c.iDiff_neg _ _).mp (by omega)

variable {root : TtreeNode R}

open Ttree

/-- What `Ttree::do_insert` can do to a well-formed tree. -/
theorem Ttree.doInsert_cases (wf : WellFormed c root) (mem : Bool) (hRecord : R)
    (isAllocNode : Bool) {res : InsertResult R}
    (call : doInsert c.toKeyComparator root mem (c.convertCvalue hRecord) hRecord
      isAllocNode = res) :
    (res.ret = ecKeyExist ∧ res.hNode = root ∧ HasKey c root (c.convertCvalue hRecord)) ∨
    (res.ret = ecNoMem ∧ mem = false ∧ res.hNode = root ∧
      ¬ HasKey c root (c.convertCvalue hRecord)) ∨
    (res.ret = 0 ∧ ¬ HasKey c root (c.convertCvalue hRecord) ∧ WellFormed c res.hNode ∧
      (records res.hNode).Perm (hRecord :: records root)) := by
  subst call
  unfold doInsert
  cases root with
  | nil =>
    have absent : ¬ HasKey c .nil (c.convertCvalue hRecord) := by simp [HasKey]
    cases mem with
    | true => exact .inr (.inr ⟨rfl, absent, wellFormed_leaf hRecord, by simp⟩)
    | false => exact .inr (.inl ⟨rfl, rfl, rfl, absent⟩)
  | node hLeft hRight chBalance items =>
    have spec := doInsert_spec mem (insertFuel (.node hLeft hRight chBalance items)) wf hRecord
      isAllocNode (.inl (Nat.lt_succ_self _))
    generalize Tree.doInsert c.toKeyComparator mem _ _ _ _ _ = node at spec
    cases spec with
    | keyExists present => exact .inl ⟨rfl, rfl, present⟩
    | noMemory failed absent => exact .inr (.inl ⟨rfl, failed, rfl, absent⟩)
    | @added ret hNode allocated grows absent result perm =>
      rcases grows with rfl | rfl
      · exact .inr (.inr ⟨rfl, absent, result, perm⟩)
      · exact .inr (.inr ⟨rfl, absent, result, perm⟩)

/-- An insertion that reports a failed allocation leaves the tree as it was, wherever in the
recursion the allocation was tried: the same records, in a valid shape. -/
theorem Ttree.doInsert_noMemory {root : TtreeNode R} (valid : Valid c root) (mem : Bool) (key : K)
    (hRecord : R) (isAllocNode : Bool) {res : InsertResult R}
    (call : Ttree.doInsert c.toKeyComparator root mem key hRecord isAllocNode = res)
    (failed : res.ret = ecNoMem) :
    records res.hNode = records root ∧ Valid c res.hNode := by
  suffices same : res.hNode = root by
    rw [same]
    exact ⟨rfl, valid⟩
  subst call
  cases root with
  | nil =>
    cases mem with
    | true => exact absurd failed (show (0 : Int) ≠ ecNoMem by decide)
    | false => rfl
  | node hLeft hRight chBalance items =>
    have restores := doInsert_restores c.toKeyComparator mem
      (insertFuel (.node hLeft hRight chBalance items)) (.node hLeft hRight chBalance items) key
      hRecord isAllocNode
    revert failed
    simp only [doInsert, AvlTree.isNil_node, Bool.false_eq_true, if_false]
    generalize Tree.doInsert c.toKeyComparator mem _ _ _ _ _ = node at restores
    split_ifs with present noMemory other
    · exact fun failed => absurd failed (show ecKeyExist ≠ ecNoMem by decide)
    · exact fun _ => restores (by omega)
    · exact fun failed => absurd failed (show (-1 : Int) ≠ ecNoMem by decide)
    · exact fun failed => absurd failed (show (0 : Int) ≠ ecNoMem by decide)

/-- What `Ttree::Delete` can do to a well-formed tree. -/
theorem Ttree.delete_cases (wf : WellFormed c root) (key : K) (isFreeNode : Bool)
    {res : DeleteResult R} (call : delete c.toKeyComparator root key isFreeNode = res) :
    (res.ret = 0 ∧ root = .nil ∧ res.hNode = root) ∨
    (res.ret = -1 ∧ root ≠ .nil ∧ res.hNode = root ∧ ¬ HasKey c root key) ∨
    (res.ret = 0 ∧ WellFormed c res.hNode ∧
      ∃ r, c.convertCvalue r = key ∧ (r :: records res.hNode).Perm (records root)) := by
  subst call
  unfold delete
  cases root with
  | nil => exact .inl ⟨rfl, rfl, rfl⟩
  | node hLeft hRight chBalance items =>
    have spec := delete_spec wf (by simp) key isFreeNode
    generalize Tree.delete c.toKeyComparator _ _ _ = node at spec
    cases spec with
    | absent absent => exact .inr (.inl ⟨rfl, by simp, rfl, absent⟩)
    | @removed ret hNode free r shrinks found result perm =>
      rcases shrinks with rfl | rfl
      · exact .inr (.inr ⟨rfl, result, r, found, perm⟩)
      · exact .inr (.inr ⟨rfl, result, r, found, perm⟩)

/-- Every call keeps the tree well formed. -/
theorem Ttree.step_wellFormed (wf : WellFormed c root) (op : Op K R) :
    WellFormed c (step c.toKeyComparator root op).2 := by
  cases op with
  | insert hRecord mem =>
    change WellFormed c (doInsert _ root mem _ hRecord false).hNode
    rcases doInsert_cases c wf mem hRecord false rfl with
      ⟨-, same, -⟩ | ⟨-, -, same, -⟩ | ⟨-, -, result, -⟩
    · rwa [same]
    · rwa [same]
    · exact result
  | delete key =>
    change WellFormed c (delete _ root key false).hNode
    rcases delete_cases c wf key false rfl with
      ⟨-, -, same⟩ | ⟨-, -, same, -⟩ | ⟨-, result, -⟩
    · rwa [same]
    · rwa [same]
    · exact result
  | find key => exact wf

/-- After every sequence of calls on an initially empty tree, whatever the
allocator answers, the tree is a valid T-tree. -/
theorem Ttree.run_valid (ops : List (Op K R)) :
    Valid c (Machine.final (Ttree.step c.toKeyComparator) .nil ops) := by
  rw [← wellFormed_iff_valid]
  exact Machine.final_invariant' (WellFormed c) (fun root op wf => step_wellFormed c wf op)
    wellFormed_nil ops

theorem Ttree.run_wellFormed (ops : List (Op K R)) :
    WellFormed c (Machine.final (Ttree.step c.toKeyComparator) .nil ops) :=
  Machine.final_invariant' (WellFormed c) (fun _ op wf => step_wellFormed c wf op) wellFormed_nil ops

/-- After every sequence of calls the height is logarithmic in the number of records: a tree of
height `h` has at least `fib (h + 2) - 1`. -/
theorem Ttree.run_height (ops : List (Op K R)) :
    let root := Machine.final (Ttree.step c.toKeyComparator) .nil ops
    Nat.fib (root.height + 2) ≤ (records root).length + 1 := by
  intro root
  have wf : WellFormed c root := run_wellFormed c ops
  have nodes := List.length_le_sum_of_one_le (root.inorder.map List.length)
    (List.forall_mem_map.mpr fun items mem => (wf.sizes items mem).1)
  rw [List.length_map, ← List.length_flatten] at nodes
  exact wf.balanced.fib_le.trans (Nat.add_le_add_right nodes 1)

/-- A root with the twenty even numbers up to 38 has no room for 5: it gives up 0, for which the
allocator has no node. -/
theorem Ttree.doInsert_noMemory_full :
    let c := OrderedComparator.threeWay (K := ℕ)
    let root := Machine.final (step c.toKeyComparator) .nil
      ((List.range 20).map fun i => .insert (2 * i) true)
    let res := doInsert c.toKeyComparator root false 5 5 false
    res.ret = ecNoMem ∧ records res.hNode = records root ∧ Valid c res.hNode := by
  intro c root res
  have failed : res.ret = ecNoMem := by decide +kernel
  exact ⟨failed, doInsert_noMemory c ((wellFormed_iff_valid _).mp (run_wellFormed c _)) false 5 5
    false rfl failed⟩

section Map

/-- The abstract object: a finite map from keys to record handles. -/
def finiteMap (m : K → Option R) : Op K R → Reply R × (K → Option R)
  | .insert hRecord _ =>
    if (m (c.convertCvalue hRecord)).isSome then (.code ecKeyExist, m)
    else (.code 0, Function.update m (c.convertCvalue hRecord) (some hRecord))
  | .delete key =>
    if (m key).isSome then (.code 0, Function.update m key none) else (.code (-1), m)
  | .find key => (.record (m key), m)

/-- The answers a caller expects: the map's own, or `EC_NO_MEM` for a new key
when the allocator refuses, which leaves the map alone. -/
inductive MapAnswer (m : K → Option R) : Op K R → Reply R → (K → Option R) → Prop
  | answer (op : Op K R) : MapAnswer m op (finiteMap c m op).1 (finiteMap c m op).2
  | noMemory {hRecord : R} (new : m (c.convertCvalue hRecord) = none) :
      MapAnswer m (.insert hRecord false) (.code ecNoMem) m

/-- The call is not a deletion from the empty tree. -/
def NotEmptyDelete (root : TtreeNode R) (op : Op K R) : Prop :=
  ∀ key, op = .delete key → root ≠ .nil

/-- The records of a well-formed tree are the graph of the map. -/
structure Represents (root : TtreeNode R) (m : K → Option R) : Prop where
  wellFormed : WellFormed c root
  graph : ∀ key r, m key = some r ↔ r ∈ records root ∧ c.convertCvalue r = key

variable {c} {m : K → Option R}

section
variable (rep : Represents c root m)

include rep

omit [Inhabited R] in
theorem Represents.isSome_iff (key : K) : (m key).isSome ↔ HasKey c root key := by
  rw [Option.isSome_iff_exists]
  exact exists_congr fun r => rep.graph key r

omit [Inhabited R] in
theorem Represents.eq_none_iff (key : K) : m key = none ↔ ¬ HasKey c root key := by
  rw [← rep.isSome_iff, Option.not_isSome_iff_eq_none]

omit [Inhabited R] in
theorem Represents.nil_iff : root = .nil ↔ ∀ k, m k = none := by
  constructor
  · rintro rfl k
    exact (rep.eq_none_iff k).mpr (by simp [HasKey])
  · intro empty
    cases root with
    | nil => rfl
    | node hLeft hRight chBalance items =>
      obtain ⟨-, size, -⟩ := wellFormed_node_iff.mp rep.wellFormed
      obtain ⟨r, hr⟩ := List.exists_mem_of_length_pos size.1
      have found := (rep.graph (c.convertCvalue r) r).mpr ⟨by simp [hr], rfl⟩
      rw [empty] at found
      cases found

omit [Inhabited R] in
/-- Adding a record with a new key updates the map there. -/
theorem Represents.insert {t : TtreeNode R} {hRecord : R}
    (absent : ¬ HasKey c root (c.convertCvalue hRecord)) (wf : WellFormed c t)
    (perm : (records t).Perm (hRecord :: records root)) :
    Represents c t (update m (c.convertCvalue hRecord) (some hRecord)) := by
  refine ⟨wf, fun key r => ?_⟩
  rw [perm.mem_iff, List.mem_cons]
  by_cases hkey : key = c.convertCvalue hRecord
  · subst hkey
    rw [update_self, Option.some_inj]
    constructor
    · rintro rfl
      exact ⟨.inl rfl, rfl⟩
    · rintro ⟨rfl | hr, heq⟩
      · rfl
      · exact absurd ⟨r, hr, heq⟩ absent
  · rw [update_of_ne hkey, rep.graph]
    refine and_congr_left fun heq => ⟨.inr, ?_⟩
    rintro (rfl | hr)
    · exact absurd heq.symm hkey
    · exact hr

omit [Inhabited R] in
/-- Removing the record of a key clears the map there. -/
theorem Represents.delete {t : TtreeNode R} {r : R} (wf : WellFormed c t)
    (perm : (r :: records t).Perm (records root)) :
    Represents c t (update m (c.convertCvalue r) none) := by
  refine ⟨wf, fun key x => ?_⟩
  by_cases hkey : key = c.convertCvalue r
  · subst hkey
    rw [update_self]
    refine ⟨nofun, fun ⟨hx, heq⟩ => ?_⟩
    exact absurd heq (rep.wellFormed.sorted.key_ne_of_perm perm hx)
  · rw [update_of_ne hkey, rep.graph, ← perm.mem_iff, List.mem_cons]
    refine and_congr_left fun heq => ⟨?_, .inr⟩
    rintro (rfl | hx)
    · exact absurd heq.symm hkey
    · exact hx

end

omit [Inhabited R] in
/-- The reply determines how the map goes on. -/
theorem MapAnswer.deterministic {m₁ m₂ : K → Option R} {op : Op K R} {reply : Reply R}
    (first : MapAnswer c m op reply m₁) (second : MapAnswer c m op reply m₂) : m₁ = m₂ := by
  cases first with
  | answer =>
    generalize hreply : (finiteMap c m op).1 = reply at second
    cases second with
    | answer => rfl
    | noMemory new =>
      simp [finiteMap, new, ecNoMem] at hreply
  | noMemory new =>
    generalize hreply : Reply.code ecNoMem = reply at second
    cases second with
    | answer => simp [finiteMap, new, ecNoMem] at hreply
    | noMemory => rfl

/-- A call on a tree that represents a map gets an expected answer and represents
the next map, unless it deletes from the empty tree. -/
theorem Represents.step (rep : Represents c root m) (op : Op K R) (legal : NotEmptyDelete root op) :
    ∃ m', MapAnswer c m op (Ttree.step c.toKeyComparator root op).1 m' ∧
      Represents c (Ttree.step c.toKeyComparator root op).2 m' := by
  have answer := MapAnswer.answer (c := c) (m := m) op
  cases op with
  | insert hRecord mem =>
    simp only [Ttree.step]
    rcases Ttree.doInsert_cases c rep.wellFormed mem hRecord false rfl with
      ⟨hret, same, present⟩ | ⟨hret, rfl, same, absent⟩ | ⟨hret, absent, wf, perm⟩
    · rw [hret, same]
      simp only [finiteMap, if_pos ((rep.isSome_iff _).mpr present)] at answer
      exact ⟨m, answer, rep⟩
    · rw [hret, same]
      exact ⟨m, .noMemory ((rep.eq_none_iff _).mpr absent), rep⟩
    · rw [hret]
      simp only [finiteMap, if_neg (mt (rep.isSome_iff _).mp absent)] at answer
      exact ⟨_, answer, rep.insert absent wf perm⟩
  | delete key =>
    simp only [Ttree.step]
    rcases Ttree.delete_cases c rep.wellFormed key false rfl with
      ⟨-, hnil, -⟩ | ⟨hret, -, same, absent⟩ | ⟨hret, wf, r, rfl, perm⟩
    · exact absurd hnil (legal key rfl)
    · rw [hret, same]
      simp only [finiteMap, if_neg (mt (rep.isSome_iff _).mp absent)] at answer
      exact ⟨m, answer, rep⟩
    · have present : HasKey c root (c.convertCvalue r) := ⟨r, perm.subset List.mem_cons_self, rfl⟩
      rw [hret]
      simp only [finiteMap, if_pos ((rep.isSome_iff _).mpr present)] at answer
      exact ⟨_, answer, rep.delete wf perm⟩
  | find key =>
    have found : Ttree.doFind c.toKeyComparator root key = m key := by
      refine Option.ext fun r => ?_
      rw [rep.graph, ← doFind_eq_some_iff c rep.wellFormed]
      cases root <;> rfl
    refine ⟨m, ?_, rep⟩
    simp only [Ttree.step, found]
    exact answer

/-- An expected answer is never one to a deletion from the empty tree. -/
theorem Represents.notEmptyDelete {m' : K → Option R} (rep : Represents c root m) {op : Op K R}
    (answered : MapAnswer c m op (Ttree.step c.toKeyComparator root op).1 m') :
    NotEmptyDelete root op := by
  rintro key rfl hnil
  have empty := rep.nil_iff.mp hnil
  subst hnil
  generalize hreply : (Ttree.step c.toKeyComparator .nil (.delete key)).1 = reply at answered
  cases answered with
  | answer => simp [Ttree.step, Ttree.delete, finiteMap, empty] at hreply

variable (c)

/-- A sequence of calls on an initially empty tree is answered like a finite map,
and leaves the graph of that map in the tree, if and only if none of its calls
deletes from the empty tree. -/
theorem Ttree.run_refines_finiteMap (ops : List (Op K R)) :
    (∃ m, Machine.Trace (MapAnswer c) (fun _ => none) ops
        (Machine.replies (Ttree.step c.toKeyComparator) .nil ops) m ∧
      Represents c (Machine.final (Ttree.step c.toKeyComparator) .nil ops) m) ↔
      Machine.Admitted NotEmptyDelete (Ttree.step c.toKeyComparator) .nil ops := by
  refine Machine.trace_iff_admitted (Represents c) (fun root m op rep legal => ?_)
    (fun root m m' op rep answered => ?_) ⟨wellFormed_nil, by simp⟩ ops
  · obtain ⟨m', answered, -⟩ := rep.step op legal
    exact ⟨m', answered⟩
  · have legal := rep.notEmptyDelete answered
    obtain ⟨m'', answered', next⟩ := rep.step op legal
    exact ⟨legal, answered.deterministic answered' ▸ next⟩

/-- Deleting an absent key from the empty tree is reported as a success, which a
finite map never does. -/
theorem Ttree.delete_empty_not_finiteMap :
    ¬ ∃ m, Machine.Trace (MapAnswer (OrderedComparator.threeWay (K := ℕ))) (fun _ => none)
      [.delete 0]
      (Machine.replies (Ttree.step OrderedComparator.threeWay.toKeyComparator) .nil
        [.delete 0]) m := by
  rintro ⟨m, trace⟩
  cases trace with
  | cons first later =>
    generalize hreply : (step (OrderedComparator.threeWay (K := ℕ)).toKeyComparator .nil
      (.delete 0)).1 = reply at first
    cases first with
    | answer => exact absurd hreply (by decide)

end Map

end Dtc.Tree
