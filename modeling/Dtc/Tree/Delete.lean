import Dtc.Tree.Order
import Dtc.Tree.Rebalance

/-!
# Deletion from a T-tree

`DeleteSpec` is the contract of `Delete` on a well-formed node: an absent key is
reported with `-1` and the tree is unchanged, a present key loses exactly its
record and the reply is the number of levels lost.

A node that falls below `MIN_ITEMS` is refilled by the neighbouring record of one
subtree, and that record is deleted from the subtree by its key. The two steps
together move one record without duplicating or losing it; this is a statement
about the record lists, and the rebalancing lemmas provide the shape.
-/

namespace Dtc.Tree

open Library List AvlTree

variable {K R : Type*} [LinearOrder K] {c : OrderedComparator K R}

theorem Sorted.nodup_keys {xs : List R} (sorted : Sorted c xs) : (xs.map c.convertCvalue).Nodup :=
  (pairwise_map.mpr sorted).imp fun h => h.ne

/-- Keys identify the records of a sorted list. -/
theorem Sorted.eq_of_key_eq {xs : List R} (sorted : Sorted c xs) {a b : R} (ha : a ∈ xs)
    (hb : b ∈ xs) (heq : c.convertCvalue a = c.convertCvalue b) : a = b :=
  inj_on_of_nodup_map sorted.nodup_keys ha hb heq

/-- A record split off a sorted list differs from the rest by its key. -/
theorem Sorted.key_ne_of_perm {xs ys : List R} (sorted : Sorted c xs) {a : R}
    (perm : (a :: ys).Perm xs) {b : R} (hb : b ∈ ys) : c.convertCvalue b ≠ c.convertCvalue a := by
  intro heq
  have nodup : ((a :: ys).map c.convertCvalue).Nodup :=
    (perm.map c.convertCvalue).nodup_iff.mpr sorted.nodup_keys
  rw [map_cons, nodup_cons] at nodup
  exact nodup.1 (heq ▸ mem_map_of_mem hb)

/-- The contract of `Delete` on a node. -/
inductive DeleteSpec (c : OrderedComparator K R) (t : TtreeNode R) (key : K) :
    DeleteResult R → Prop
  | absent {isFreeNode : Bool} (absent : ¬ HasKey c t key) :
      DeleteSpec c t key ⟨-1, t, isFreeNode⟩
  | removed {ret : Int} {hNode : TtreeNode R} {isFreeNode : Bool} (r : R)
      (shrinks : ret = 0 ∨ ret = 1) (found : c.convertCvalue r = key)
      (wellFormed : WellFormed c hNode) (perm : (r :: records hNode).Perm (records t))
      (height : (hNode.height : Int) = t.height - ret) :
      DeleteSpec c t key ⟨ret, hNode, isFreeNode⟩

variable {t : TtreeNode R}

section Records
variable [Inhabited R]

/-- The walk to the right ends at the greatest record. -/
theorem lastRecord_spec (wf : WellFormed c t) (nonempty : t ≠ .nil) :
    lastRecord t ∈ records t ∧
      ∀ r ∈ records t, c.convertCvalue r ≤ c.convertCvalue (lastRecord t) := by
  induction t with
  | nil => exact absurd rfl nonempty
  | node hLeft hRight chBalance items _ ihRight =>
    obtain ⟨-, size, -, right, sorted, hli, hir⟩ := wellFormed_node_iff.mp wf
    simp only [records_node, mem_append]
    cases hRight with
    | nil =>
      have last : item items (items.length - 1) ∈ items := item_mem (by omega)
      refine ⟨.inr (.inl last), ?_⟩
      rintro r (hr | hr | hr)
      · exact (hli r hr _ last).le
      · exact sorted.le_last hr
      · simp at hr
    | node rl rr rb ritems =>
      obtain ⟨member, greatest⟩ := ihRight right (by simp)
      refine ⟨.inr (.inr member), ?_⟩
      rintro r (hr | hr | hr)
      · have first : item items 0 ∈ items := item_mem (by omega)
        exact ((hli r hr _ first).trans (hir _ first _ member)).le
      · exact (hir r hr _ member).le
      · exact greatest r hr

/-- The walk to the left ends at the least record. -/
theorem firstRecord_spec (wf : WellFormed c t) (nonempty : t ≠ .nil) :
    firstRecord t ∈ records t ∧
      ∀ r ∈ records t, c.convertCvalue (firstRecord t) ≤ c.convertCvalue r := by
  induction t with
  | nil => exact absurd rfl nonempty
  | node hLeft hRight chBalance items ihLeft _ =>
    obtain ⟨-, size, left, -, sorted, hli, hir⟩ := wellFormed_node_iff.mp wf
    have first : item items 0 ∈ items := item_mem (by omega)
    simp only [records_node, mem_append]
    cases hLeft with
    | nil =>
      refine ⟨.inr (.inl first), ?_⟩
      rintro r (hr | hr | hr)
      · simp at hr
      · exact sorted.first_le hr
      · exact (hir _ first r hr).le
    | node ll lr lb litems =>
      obtain ⟨member, least⟩ := ihLeft left (by simp)
      refine ⟨.inl member, ?_⟩
      rintro r (hr | hr | hr)
      · exact least r hr
      · exact (hli _ member r hr).le
      · exact ((hli _ member _ first).trans (hir _ first r hr)).le

end Records

variable {child hLeft hRight : TtreeNode R} {chBalance : Int} {items : List R}

section Branches

/-- Deleting from the left child leaves a balanced node around any items. -/
theorem afterDeleteLeft_shrinks {old : List R} (items : List R) (child : DeleteResult R)
    (before : (node hLeft hRight chBalance old).Balanced)
    (ret : child.ret = 0 ∨ child.ret = 1) (balanced : child.hNode.Balanced)
    (height : (child.hNode.height : Int) = hLeft.height - child.ret) :
    Shrinks (node hLeft hRight chBalance old).height
      (child.hNode.inorder ++ items :: hRight.inorder)
      ((afterDeleteLeft hRight chBalance items child).ret,
        (afterDeleteLeft hRight chBalance items child).hNode) := by
  unfold afterDeleteLeft
  rcases ret with hret | hret
  · have same : child.hNode.height = hLeft.height := by omega
    simp only [hret, lt_irrefl, if_false]
    exact ⟨.inl rfl, ⟨by rw [same]; exact before.1, before.2.1, before.2.2.1, balanced,
      before.2.2.2.2⟩, rfl, by simp [same]⟩
  · simp only [hret, Int.zero_lt_one, if_true]
    change Shrinks (node hLeft hRight chBalance items).height _ _
    exact balanceLeftBranch_shrinks before balanced (by omega)

/-- Deleting from the right child leaves a balanced node around any items. -/
theorem afterDeleteRight_shrinks {old : List R} (items : List R) (child : DeleteResult R)
    (before : (node hLeft hRight chBalance old).Balanced)
    (ret : child.ret = 0 ∨ child.ret = 1) (balanced : child.hNode.Balanced)
    (height : (child.hNode.height : Int) = hRight.height - child.ret) :
    Shrinks (node hLeft hRight chBalance old).height
      (hLeft.inorder ++ items :: child.hNode.inorder)
      ((afterDeleteRight hLeft chBalance items child).ret,
        (afterDeleteRight hLeft chBalance items child).hNode) := by
  unfold afterDeleteRight
  rcases ret with hret | hret
  · have same : child.hNode.height = hRight.height := by omega
    simp only [hret, lt_irrefl, if_false]
    exact ⟨.inl rfl, ⟨by rw [same]; exact before.1, before.2.1, before.2.2.1,
      before.2.2.2.1, balanced⟩, rfl, by simp [same]⟩
  · simp only [hret, Int.zero_lt_one, if_true]
    change Shrinks (node hLeft hRight chBalance items).height _ _
    exact balanceRightBranch_shrinks before balanced (by omega)

/-- A record removed from the left subtree is removed from the tree. -/
theorem removed_left (wf : WellFormed c (.node hLeft hRight chBalance items)) {r : R}
    (left : WellFormed c child) (perm : (r :: records child).Perm (records hLeft))
    (balanced : t.Balanced) (inorder : t.inorder = child.inorder ++ items :: hRight.inorder) :
    WellFormed c t ∧ (r :: records t).Perm (records (.node hLeft hRight chBalance items)) := by
  obtain ⟨-, size, -, right, sorted, hli, hir⟩ := wellFormed_node_iff.mp wf
  refine ⟨wellFormed_of_parts balanced inorder size left right sorted
    (fun a ha b hb => hli a (perm.subset (mem_cons_of_mem r ha)) b hb) hir, ?_⟩
  rw [records_of_inorder inorder, records_node]
  exact perm.append_right _

/-- A record removed from the right subtree is removed from the tree. -/
theorem removed_right (wf : WellFormed c (.node hLeft hRight chBalance items)) {r : R}
    (right : WellFormed c child) (perm : (r :: records child).Perm (records hRight))
    (balanced : t.Balanced) (inorder : t.inorder = hLeft.inorder ++ items :: child.inorder) :
    WellFormed c t ∧ (r :: records t).Perm (records (.node hLeft hRight chBalance items)) := by
  obtain ⟨-, size, left, -, sorted, hli, hir⟩ := wellFormed_node_iff.mp wf
  refine ⟨wellFormed_of_parts balanced inorder size left right sorted hli
    fun b hb d hd => hir b hb d (perm.subset (mem_cons_of_mem r hd)), ?_⟩
  rw [records_of_inorder inorder, records_node, ← append_assoc, ← append_assoc]
  exact perm_middle.symm.trans (perm.append_left _)

end Branches

section Item

variable [Inhabited R] {i : Nat}

private theorem eraseIdx_perm (hi : i < items.length) :
    (item items i :: items.eraseIdx i).Perm items := by
  rw [item_eq_getElem hi]
  exact getElem_cons_eraseIdx_perm hi

section
variable (wf : WellFormed c (.node hLeft hRight chBalance items)) (hi : i < items.length)
include wf hi

/-- Refilling from the left: the greatest record of the left subtree takes the
place of the deleted item. -/
theorem refill_left (left : WellFormed c child) {moved : R}
    (greatest : ∀ r ∈ records hLeft, c.convertCvalue r ≤ c.convertCvalue moved)
    (perm : (moved :: records child).Perm (records hLeft)) (balanced : t.Balanced)
    (inorder : t.inorder = child.inorder ++ (moved :: items.eraseIdx i) :: hRight.inorder) :
    WellFormed c t ∧
      (item items i :: records t).Perm (records (.node hLeft hRight chBalance items)) := by
  obtain ⟨-, size, hl, right, sorted, hli, hir⟩ := wellFormed_node_iff.mp wf
  have sub : (items.eraseIdx i).Sublist items := eraseIdx_sublist items i
  have member : moved ∈ records hLeft := perm.subset mem_cons_self
  have length := length_eraseIdx_of_lt hi
  constructor
  · refine wellFormed_of_parts balanced inorder ?_ left right ?_ (fun a ha b hb => ?_)
      fun b hb d hd => ?_
    · simp only [length_cons, length]
      omega
    · exact pairwise_cons.mpr ⟨fun b hb => hli moved member b (sub.subset hb), sorted.sublist sub⟩
    · have inside : a ∈ records hLeft := perm.subset (mem_cons_of_mem _ ha)
      rcases mem_cons.mp hb with rfl | hb
      · exact lt_of_le_of_ne (greatest a inside) (hl.sorted.key_ne_of_perm perm ha)
      · exact hli a inside b (sub.subset hb)
    · rcases mem_cons.mp hb with rfl | hb
      · have first : item items 0 ∈ items := item_mem (by omega)
        exact (hli _ member _ first).trans (hir _ first d hd)
      · exact hir b (sub.subset hb) d hd
  · rw [records_of_inorder inorder, records_node]
    have inner : (item items i :: (records child ++ (moved :: items.eraseIdx i))).Perm
        (records hLeft ++ items) := by
      refine (List.Perm.cons _ perm_middle).trans ((List.Perm.swap _ _ _).trans ?_)
      refine ((perm_middle.symm.trans ((eraseIdx_perm hi).append_left _)).cons moved).trans ?_
      exact perm.append_right items
    simpa only [cons_append, append_assoc] using inner.append_right (records hRight)

/-- Refilling from the right: the least record of the right subtree takes the
place of the deleted item. -/
theorem refill_right (right : WellFormed c child) {moved : R}
    (least : ∀ r ∈ records hRight, c.convertCvalue moved ≤ c.convertCvalue r)
    (perm : (moved :: records child).Perm (records hRight)) (balanced : t.Balanced)
    (inorder : t.inorder = hLeft.inorder ++ (items.eraseIdx i ++ [moved]) :: child.inorder) :
    WellFormed c t ∧
      (item items i :: records t).Perm (records (.node hLeft hRight chBalance items)) := by
  obtain ⟨-, size, left, hr, sorted, hli, hir⟩ := wellFormed_node_iff.mp wf
  have sub : (items.eraseIdx i).Sublist items := eraseIdx_sublist items i
  have member : moved ∈ records hRight := perm.subset mem_cons_self
  have length := length_eraseIdx_of_lt hi
  constructor
  · refine wellFormed_of_parts balanced inorder ?_ left right ?_ (fun a ha b hb => ?_)
      fun b hb d hd => ?_
    · simp only [length_append, length_singleton, length]
      omega
    · refine pairwise_append.mpr ⟨sorted.sublist sub, by simp, fun a ha b hb => ?_⟩
      obtain rfl := mem_singleton.mp hb
      exact hir a (sub.subset ha) _ member
    · rcases mem_append.mp hb with hb | hb
      · exact hli a ha b (sub.subset hb)
      · obtain rfl := mem_singleton.mp hb
        have first : item items 0 ∈ items := item_mem (by omega)
        exact (hli a ha _ first).trans (hir _ first _ member)
    · have inside : d ∈ records hRight := perm.subset (mem_cons_of_mem _ hd)
      rcases mem_append.mp hb with hb | hb
      · exact hir b (sub.subset hb) d inside
      · obtain rfl := mem_singleton.mp hb
        exact lt_of_le_of_ne (least d inside) (hr.sorted.key_ne_of_perm perm hd).symm
  · rw [records_of_inorder inorder, records_node]
    have inner : (item items i :: (items.eraseIdx i ++ [moved] ++ records child)).Perm
        (items ++ records hRight) := by
      simpa using (eraseIdx_perm hi).append perm
    exact perm_middle.symm.trans (inner.append_left (records hLeft))

end

variable {delLeft delRight : K → Bool → DeleteResult R} {isFreeNode : Bool} {key : K}

section
variable (wf : WellFormed c (.node hLeft hRight chBalance items))

include wf

/-- `deleteRight` for a key that is neither in the left subtree nor in the node. -/
theorem deleteRight_spec (notLeft : ¬ HasKey c hLeft key)
    (notHere : ¬ ∃ r ∈ items, c.convertCvalue r = key)
    (calledRight : hRight ≠ .nil → ∀ key free, DeleteSpec c hRight key (delRight key free)) :
    DeleteSpec c (.node hLeft hRight chBalance items) key
      (deleteRight delRight hLeft hRight chBalance items key isFreeNode) := by
  have located : HasKey c (.node hLeft hRight chBalance items) key ↔ HasKey c hRight key := by
    simp only [hasKey_node, notLeft, notHere, false_or]
  unfold deleteRight
  split_ifs with hnil
  · obtain rfl := isNil_iff.mp hnil
    exact .absent (by rw [located]; simp [HasKey])
  · have spec := calledRight (isNil_eq_false_iff.mp (by simpa using hnil)) key isFreeNode
    generalize delRight key isFreeNode = child at spec
    cases spec with
    | absent absent => exact .absent fun h => absent (located.mp h)
    | @removed ret hNode free r shrinks found childWf perm height =>
      have shape := afterDeleteRight_shrinks items ⟨ret, hNode, free⟩ wf.balanced shrinks
        childWf.balanced height
      obtain ⟨result, permuted⟩ := removed_right wf childWf perm shape.balanced shape.inorder
      exact .removed r shape.ret found result permuted shape.height

variable (calledLeft : hLeft ≠ .nil → ∀ key free, DeleteSpec c hLeft key (delLeft key free))
  (calledRight : hRight ≠ .nil → ∀ key free, DeleteSpec c hRight key (delRight key free))

include calledLeft calledRight

/-- `deleteItem` removes the item when deletion in the children meets its contract. -/
theorem deleteItem_spec (hi : i < items.length) :
    DeleteSpec c (.node hLeft hRight chBalance items) (c.convertCvalue (item items i))
      (deleteItem c.toKeyComparator delLeft delRight hLeft hRight chBalance items i
        isFreeNode) := by
  have before := wf.balanced
  obtain ⟨-, size, left, right, sorted, hli, hir⟩ := wellFormed_node_iff.mp wf
  unfold deleteItem
  dsimp only
  split_ifs with hr hl hrefill hrefill'
  · obtain rfl := isNil_iff.mp hr.2
    obtain ⟨x, rfl⟩ := length_eq_one_iff.mp hr.1
    obtain rfl : i = 0 := by simpa using hi
    refine .removed x (.inr rfl) rfl left ?_ (by simp)
    simpa using (perm_append_singleton x (records hLeft)).symm
  · obtain rfl := isNil_iff.mp hl.2
    obtain ⟨x, rfl⟩ := length_eq_one_iff.mp hl.1
    obtain rfl : i = 0 := by simpa using hi
    exact .removed x (.inr rfl) rfl right (by simp) (by simp)
  · have nonempty : hLeft ≠ .nil := isNil_eq_false_iff.mp (by simpa using hrefill.2.1)
    obtain ⟨member, greatest⟩ := lastRecord_spec left nonempty
    have spec := calledLeft nonempty (c.convertCvalue (lastRecord hLeft))
      (isFreeNode || items.length == 1)
    generalize delLeft _ _ = child at spec
    cases spec with
    | absent absent => exact absurd ⟨_, member, rfl⟩ absent
    | @removed ret hNode free r shrinks found childWf perm height =>
      have same : r = lastRecord hLeft :=
        left.sorted.eq_of_key_eq (perm.subset mem_cons_self) member found
      have shape := afterDeleteLeft_shrinks (lastRecord hLeft :: items.eraseIdx i)
        ⟨ret, hNode, free⟩ before shrinks childWf.balanced height
      obtain ⟨result, permuted⟩ := refill_left wf hi childWf greatest (same ▸ perm)
        shape.balanced shape.inorder
      exact .removed _ shape.ret rfl result permuted shape.height
  · have nonempty : hRight ≠ .nil := isNil_eq_false_iff.mp (by simpa using hrefill'.2)
    obtain ⟨member, least⟩ := firstRecord_spec right nonempty
    have spec := calledRight nonempty (c.convertCvalue (firstRecord hRight))
      (isFreeNode || items.length == 1)
    generalize delRight _ _ = child at spec
    cases spec with
    | absent absent => exact absurd ⟨_, member, rfl⟩ absent
    | @removed ret hNode free r shrinks found childWf perm height =>
      have same : r = firstRecord hRight :=
        right.sorted.eq_of_key_eq (perm.subset mem_cons_self) member found
      have shape := afterDeleteRight_shrinks (items.eraseIdx i ++ [firstRecord hRight])
        ⟨ret, hNode, free⟩ before shrinks childWf.balanced height
      obtain ⟨result, permuted⟩ := refill_right wf hi childWf least (same ▸ perm)
        shape.balanced shape.inorder
      exact .removed _ shape.ret rfl result permuted shape.height
  · have long : 2 ≤ items.length := by
      -- a single item with two children is always refilled
      by_contra hshort
      have one : items.length = 1 := by omega
      have small : items.length ≤ minItems := by simp [one, minItems, pageSize]
      exact hrefill' ⟨small, fun hnil => hr ⟨one, hnil⟩⟩
    have sub : (items.eraseIdx i).Sublist items := eraseIdx_sublist items i
    have length := length_eraseIdx_of_lt hi
    refine .removed _ (.inl rfl) rfl (wellFormed_of_parts (by simpa using before) rfl
      (by omega) left right (sorted.sublist sub)
      (fun a ha b hb => hli a ha b (sub.subset hb))
      fun b hb d hd => hir b (sub.subset hb) d hd) ?_ (by simp)
    simp only [records_node]
    exact perm_middle.symm.trans (((eraseIdx_perm hi).append_right _).append_left _)

/-- `deleteHere` for a key that is not in the left subtree. -/
theorem deleteHere_spec (notLeft : ¬ HasKey c hLeft key) :
    DeleteSpec c (.node hLeft hRight chBalance items) key
      (deleteHere c.toKeyComparator delLeft delRight hLeft hRight chBalance items key
        isFreeNode) := by
  have sorted := (wellFormed_node_iff.mp wf).2.2.2.2.1
  unfold deleteHere
  split_ifs with hlast
  · split
    · rename_i i hfind
      obtain ⟨hi, hkey, -⟩ := findIdx?_eq_some_iff_getElem.mp hfind
      have found : key = c.convertCvalue (item items i) := by
        rw [item_eq_getElem hi]
        exact (c.pfComp_zero _ _).mp (by simpa using hkey)
      rw [found]
      exact deleteItem_spec wf calledLeft calledRight hi
    · rename_i hfind
      refine deleteRight_spec wf notLeft ?_ calledRight
      rintro ⟨r, hr, rfl⟩
      have miss := findIdx?_eq_none_iff.mp hfind r hr
      exact of_decide_eq_false miss ((c.pfComp_zero _ _).mpr rfl)
  · refine deleteRight_spec wf notLeft ?_ calledRight
    rintro ⟨r, hr, rfl⟩
    have above := (c.iDiff_pos _ _).mp (not_le.mp hlast)
    exact absurd above (not_lt.mpr (sorted.le_last hr))

/-- The body of `Delete` meets its contract when it does so on the children. -/
theorem deleteBody_spec :
    DeleteSpec c (.node hLeft hRight chBalance items) key
      (deleteBody c.toKeyComparator delLeft delRight hLeft hRight chBalance items key
        isFreeNode) := by
  obtain ⟨-, size, -, -, -, hli, -⟩ := wellFormed_node_iff.mp wf
  unfold deleteBody
  split_ifs with hfirst
  · have spec := calledLeft (isNil_eq_false_iff.mp (by simpa using hfirst.2)) key isFreeNode
    generalize delLeft key isFreeNode = child at spec
    cases spec with
    | absent absent => exact deleteHere_spec wf calledLeft calledRight absent
    | @removed ret hNode free r shrinks found childWf perm height =>
      have shape := afterDeleteLeft_shrinks items ⟨ret, hNode, free⟩ wf.balanced shrinks
        childWf.balanced height
      obtain ⟨result, permuted⟩ := removed_left wf childWf perm shape.balanced shape.inorder
      rw [if_neg (by rcases shrinks with rfl | rfl <;> simp)]
      exact .removed r shape.ret found result permuted shape.height
  · refine deleteHere_spec wf calledLeft calledRight ?_
    rintro ⟨r, hr, rfl⟩
    have below := hli r hr _ (item_mem size.1)
    refine hfirst ⟨(c.iDiff_neg _ _).mpr below, fun hnil => ?_⟩
    obtain rfl := isNil_iff.mp hnil
    simp at hr

end

end Item

/-- `Delete` meets its contract on every well-formed node. -/
theorem delete_spec [Inhabited R] (wf : WellFormed c t) (nonempty : t ≠ .nil) (key : K)
    (isFreeNode : Bool) : DeleteSpec c t key (delete c.toKeyComparator t key isFreeNode) := by
  induction t generalizing key isFreeNode with
  | nil => exact absurd rfl nonempty
  | node hLeft hRight chBalance items ihLeft ihRight =>
    obtain ⟨-, -, left, right, -⟩ := wellFormed_node_iff.mp wf
    exact deleteBody_spec wf (fun hne key free => ihLeft left hne key free)
      fun hne key free => ihRight right hne key free

end Dtc.Tree
