import Dtc.Tree.Edits
import Dtc.Tree.Traverse

/-!
# Comparators that agree on the records of a tree

An insertion compares the key of the new record with keys of the tree, and so it cannot tell two
comparators apart that agree on these. A `KeyCompare` that is wrong on other index values is as good
as one that is right on all of them (`copyTreeAll_mended`).
-/

namespace Dtc.Tree

open Library TreeData

section Agreement
variable {K R : Type*} {c c' : KeyComparator K R} {P : R → Prop}

/-- Two comparators cannot be told apart by the records that satisfy `P`. -/
structure KeyComparator.AgreesOn (c c' : KeyComparator K R) (P : R → Prop) : Prop where
  convertCvalue : c.convertCvalue = c'.convertCvalue
  pfComp : ∀ a b, P a → P b → c.pfComp (c.convertCvalue a) b = c'.pfComp (c.convertCvalue a) b

/-- The records of a tree satisfy `P`, and no node is empty. -/
structure Among (P : R → Prop) (t : TtreeNode R) : Prop where
  all : ∀ r ∈ records t, P r
  nonempty : ∀ items ∈ t.inorder, items ≠ []

variable {hLeft hRight : TtreeNode R} {chBalance : Int} {items : List R}

theorem among_node : Among P (.node hLeft hRight chBalance items : TtreeNode R) ↔
    Among P hLeft ∧ Among P hRight ∧ (∀ r ∈ items, P r) ∧ items ≠ [] := by
  constructor
  · rintro ⟨all, nonempty⟩
    simp only [records_node, List.mem_append, AvlTree.inorder, List.mem_cons] at all nonempty
    exact ⟨⟨fun r mem => all r (.inl mem), fun i mem => nonempty i (.inl mem)⟩,
      ⟨fun r mem => all r (.inr (.inr mem)), fun i mem => nonempty i (.inr (.inr mem))⟩,
      fun r mem => all r (.inr (.inl mem)), nonempty items (.inr (.inl rfl))⟩
  · rintro ⟨left, right, here, some⟩
    constructor
    · intro r mem
      simp only [records_node, List.mem_append] at mem
      rcases mem with mem | mem | mem
      · exact left.all r mem
      · exact here r mem
      · exact right.all r mem
    · intro i mem
      simp only [AvlTree.inorder, List.mem_append, List.mem_cons] at mem
      rcases mem with mem | rfl | mem
      · exact left.nonempty i mem
      · exact some
      · exact right.nonempty i mem

theorem KeyComparator.AgreesOn.iDiff (agrees : c.AgreesOn c' P) {hRecord : R} (ok : P hRecord)
    (here : ∀ r ∈ items, P r) (r : R) (mem : r ∈ items) :
    c.iDiff (c.convertCvalue hRecord) r = c'.iDiff (c.convertCvalue hRecord) r := by
  rw [KeyComparator.iDiff, KeyComparator.iDiff, agrees.pfComp hRecord r ok (here r mem)]

variable [Inhabited R]

theorem Ttree.doFind_agrees (agrees : c.AgreesOn c' P) (hRecord : R) (ok : P hRecord)
    {root : TtreeNode R} (among : Among P root) :
    Ttree.doFind c root (c.convertCvalue hRecord) = Ttree.doFind c' root (c.convertCvalue hRecord) := by
  have same : Tree.doFind c root (c.convertCvalue hRecord) =
      Tree.doFind c' root (c.convertCvalue hRecord) := by
    refine doFind_congr fun r mem => ?_
    rw [agrees.iDiff ok among.all r mem]
    exact ⟨Iff.rfl, Iff.rfl⟩
  rw [Ttree.doFind, Ttree.doFind, same]

section Insert
variable {mem : Bool} {recur recur' : TtreeNode R → K → R → Bool → InsertResult R} {hRecord : R}
  {isAllocNode : Bool} (agrees : c.AgreesOn c' P) (ok : P hRecord)
include agrees ok

theorem insertBody_agrees (among : Among P (.node hLeft hRight chBalance items : TtreeNode R))
    (again : ∀ t r, Among P t → P r →
      recur t (c.convertCvalue r) r isAllocNode = recur' t (c.convertCvalue r) r isAllocNode) :
    insertBody c mem recur hLeft hRight chBalance items (c.convertCvalue hRecord) hRecord isAllocNode =
      insertBody c' mem recur' hLeft hRight chBalance items (c.convertCvalue hRecord) hRecord
        isAllocNode := by
  obtain ⟨left, right, here, some⟩ := among_node.mp among
  have same := agrees.iDiff ok here
  have search : searchItems c items (c.convertCvalue hRecord) =
      searchItems c' items (c.convertCvalue hRecord) := by
    refine searchLoop_congr (fun r mem => ?_) _ (Nat.sub_le _ _)
    rw [same r mem]
    exact ⟨Iff.rfl, Iff.rfl⟩
  have length := List.length_pos_of_ne_nil some
  have first : P (item items 0) := here _ (item_mem length)
  have last : P (item items (items.length - 1)) :=
    here _ (item_mem (Nat.sub_lt length Nat.one_pos))
  have kept : ∀ iRight, ∀ sub : List R, sub.Sublist (items.insertIdx iRight hRecord) → sub ≠ [] →
      Among P (.node hLeft hRight chBalance sub) := by
    intro iRight sub sublist some
    refine among_node.mpr ⟨left, right, fun r inside => ?_, some⟩
    rcases List.eq_or_mem_of_mem_insertIdx (sublist.subset inside) with rfl | inside
    · exact ok
    · exact here r inside
  have middle : ∀ iRight, insertMiddle c recur hLeft hRight chBalance items iRight hRecord
      isAllocNode = insertMiddle c' recur' hLeft hRight chBalance items iRight hRecord isAllocNode := by
    intro iRight
    unfold insertMiddle
    dsimp only
    by_cases fits : items.length < pageSize
    · rw [if_pos fits, if_pos fits]
    · have full : 20 ≤ items.length := not_lt.mp fits
      have long : items.length ≤ (items.insertIdx iRight hRecord).length := by
        rw [List.length_insertIdx]
        split_ifs <;> omega
      rw [if_neg fits, if_neg fits, ← agrees.convertCvalue]
      by_cases lean : 0 ≤ chBalance
      · simp only [if_pos lean]
        rw [again _ _ (kept iRight _ (List.tail_sublist _) (List.ne_nil_of_length_pos ?_)) first]
        rw [List.length_tail]
        omega
      · simp only [if_neg lean]
        rw [again _ _ (kept iRight _ (List.dropLast_sublist _) (List.ne_nil_of_length_pos ?_)) last]
        rw [List.length_dropLast]
        omega
  unfold insertBody insertLeft insertRight
  simp only [again hLeft hRecord left ok, again hRight hRecord right ok, middle,
    search, same _ (item_mem length),
    same _ (item_mem (Nat.sub_lt length Nat.one_pos))]

theorem doInsert_agrees (fuel : Nat) {t : TtreeNode R} (among : Among P t) :
    doInsert c mem fuel t (c.convertCvalue hRecord) hRecord isAllocNode =
      doInsert c' mem fuel t (c.convertCvalue hRecord) hRecord isAllocNode := by
  induction fuel generalizing t hRecord with
  | zero => cases t <;> rfl
  | succ fuel ih =>
    cases t with
    | nil => rfl
    | node hLeft hRight chBalance items =>
      exact insertBody_agrees agrees ok among fun t r among ok => ih ok among

theorem Ttree.doInsert_agrees {root : TtreeNode R} (among : Among P root) :
    Ttree.doInsert c root mem (c.convertCvalue hRecord) hRecord isAllocNode =
      Ttree.doInsert c' root mem (c.convertCvalue hRecord) hRecord isAllocNode := by
  rw [Ttree.doInsert, Ttree.doInsert, Tree.doInsert_agrees agrees ok _ among]

end Insert

end Agreement

section Tables
variable {ρ K : Type} [LinearOrder K] {t : TreeTable ρ K} {keys : Set K}

/-- `KeyCompare` decides the order of some index values. -/
structure TreeTable.OrderedOn (t : TreeTable ρ K) (keys : Set K) : Prop where
  neg : ∀ a ∈ keys, ∀ b ∈ keys, (t.keyCompare a b).bmod (2 ^ 32) < 0 ↔ a < b
  zero : ∀ a ∈ keys, ∀ b ∈ keys, (t.keyCompare a b).bmod (2 ^ 32) = 0 ↔ a = b
  self : ∀ a ∈ keys, t.keyCompare a a = 0

open Classical in
/-- The table with a `KeyCompare` that is right for all other index values. -/
noncomputable def TreeTable.mended (t : TreeTable ρ K) (keys : Set K) : TreeTable ρ K :=
  { t with keyCompare := fun a b =>
      if a ∈ keys ∧ b ∈ keys then t.keyCompare a b else OrderedComparator.threeWay.pfComp a b }

theorem TreeTable.OrderedOn.mended (o : t.OrderedOn keys) : (t.mended keys).Ordered := by
  refine ⟨fun a b => ?_, fun a b => ?_, fun a => ?_⟩ <;> unfold TreeTable.mended <;> dsimp only <;>
    split_ifs with both
  · exact o.neg a both.1 b both.2
  · exact OrderedComparator.threeWay.iDiff_neg a b
  · exact o.zero a both.1 b both.2
  · exact OrderedComparator.threeWay.iDiff_zero a b
  · exact o.self a both.1
  · exact (OrderedComparator.threeWay.pfComp_zero a a).mpr rfl

theorem TreeTable.mended_agrees (t : TreeTable ρ K) (keys : Set K) :
    t.comparator.AgreesOn (t.mended keys).comparator fun r => r.key ∈ keys :=
  ⟨rfl, fun _ _ ha hb => (if_pos ⟨ha, hb⟩).symm⟩

variable {s : TreeData ρ K} {o : (t.mended keys).Ordered} {alloc : Allocator}

/-- The records have index values on which `KeyCompare` is right. -/
theorem TreeData.Good.among (good : s.Good o) (inside : ∀ r ∈ records s.root, r.key ∈ keys) :
    Among (fun r => r.key ∈ keys) s.root :=
  ⟨inside, fun items mem => List.ne_nil_of_length_pos (good.wellFormed.sizes items mem).1⟩

variable [Inhabited K]

theorem insertRow_mended (good : s.Good o) (inside : ∀ r ∈ records s.root, r.key ∈ keys) {row : ρ}
    (key : t.index row ∈ keys) (isDirty : Bool) :
    s.insertRow t alloc row isDirty = s.insertRow (t.mended keys) alloc row isDirty := by
  have agrees := t.mended_agrees keys
  have among := good.among inside
  have find : Ttree.doFind t.comparator s.root (t.index row) =
      Ttree.doFind (t.mended keys).comparator s.root ((t.mended keys).index row) :=
    Ttree.doFind_agrees agrees ⟨0, 0, t.index row, []⟩ key among
  have insert : ∀ r : RowChunk ρ K, r.key ∈ keys →
      { s with calls := s.calls + 1 }.insertSubTree t alloc r =
        { s with calls := s.calls + 1 }.insertSubTree (t.mended keys) alloc r := by
    intro r key
    have same : ∀ mem, Ttree.doInsert t.comparator s.root mem r.key r false =
        Ttree.doInsert (t.mended keys).comparator s.root mem r.key r false :=
      fun mem => Ttree.doInsert_agrees agrees key among
    unfold insertSubTree
    dsimp only
    rw [same]
  have new : ∀ flag, s.insertNew t alloc row flag = s.insertNew (t.mended keys) alloc row flag := by
    intro flag
    unfold insertNew
    simp only [insert ⟨s.calls, _, t.index row, _⟩ key]
    rfl
  unfold insertRow insertRowFlag
  rw [find, new]
  rfl

/-- A copy of rows with such index values. -/
theorem copyTreeAll_mended (good : s.Good o) (filled : s.Filled)
    (inside : ∀ r ∈ records s.root, r.key ∈ keys) {rows : List ρ}
    (index : ∀ row ∈ rows, t.index row ∈ keys) :
    copyTreeAll t alloc rows s = copyTreeAll (t.mended keys) alloc rows s := by
  induction rows generalizing s with
  | nil => rfl
  | cons row rows ih =>
    have inserted : Inserted o s (s.insertRow (t.mended keys) alloc row false).2 _ _ :=
      insertRow_spec good filled row false
    have key := index row List.mem_cons_self
    rw [copyTreeAll, copyTreeAll, insertRow_mended good inside key]
    split_ifs with noMem
    · rfl
    · refine ih inserted.good inserted.filled ?_ fun row mem => index row (List.mem_cons_of_mem _ mem)
      intro r mem
      obtain ⟨old, touched⟩ := inserted.touched
      by_cases same : r.key = t.index row
      · rwa [same]
      · exact inside r ((touched.mem_iff same).mp mem)

end Tables

end Dtc.Tree
