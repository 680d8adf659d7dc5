import Dtc.Tree.Node

/-!
# Ordered T-trees

The records of a tree are its items from left to right. A tree is well formed
when that one list is strictly increasing, every node holds between one and
`PAGE_SIZE` items, and the stored balance factors are exact. `Valid` spells the
same property out node by node, as a reader of the header file would state it;
`wellFormed_iff_valid` identifies the two.

The order is the one the stored comparison results induce, so it is a property
of the comparator as the tree code uses it.
-/

namespace Dtc.Tree

open Library List

/-- A comparator whose stored result decides a strict total order of the keys:
negative below the record, zero exactly at the record's own key, as the result itself is. -/
structure OrderedComparator (K R : Type*) [LinearOrder K] extends KeyComparator K R where
  iDiff_neg : ∀ key hRecord, toKeyComparator.iDiff key hRecord < 0 ↔ key < convertCvalue hRecord
  iDiff_zero : ∀ key hRecord, toKeyComparator.iDiff key hRecord = 0 ↔ key = convertCvalue hRecord
  pfComp_zero : ∀ key hRecord, pfComp key hRecord = 0 ↔ key = convertCvalue hRecord

variable {K R : Type*} [LinearOrder K] (c : OrderedComparator K R)

namespace OrderedComparator

theorem iDiff_pos (key : K) (hRecord : R) :
    0 < c.iDiff key hRecord ↔ c.convertCvalue hRecord < key := by
  have hneg := c.iDiff_neg key hRecord
  have hzero := c.iDiff_zero key hRecord
  constructor
  · intro h
    refine lt_of_le_of_ne (not_lt.mp fun hlt => ?_) fun heq => ?_
    · have := hneg.mpr hlt
      omega
    · have := hzero.mpr heq.symm
      omega
  · intro h
    have hn : ¬ c.iDiff key hRecord < 0 := fun hd => absurd (hneg.mp hd) (not_lt_of_gt h)
    have hz : c.iDiff key hRecord ≠ 0 := fun hd => absurd (hzero.mp hd) (ne_of_gt h)
    omega

/-- The three-way comparison of any linear order fits in an `int`. -/
def threeWay : OrderedComparator K K where
  pfComp key hRecord := if key < hRecord then -1 else if key = hRecord then 0 else 1
  convertCvalue := id
  iDiff_neg key hRecord := by
    unfold KeyComparator.iDiff
    dsimp only [id]
    split_ifs with hlt heq <;> simp_all
  iDiff_zero key hRecord := by
    unfold KeyComparator.iDiff
    dsimp only [id]
    split_ifs with hlt heq
    · simpa using hlt.ne
    · simpa using heq
    · simpa using heq
  pfComp_zero key hRecord := by
    dsimp only [id]
    split_ifs with hlt heq
    · simpa using hlt.ne
    · simpa using heq
    · simpa using heq

end OrderedComparator

/-- Strictly increasing keys. -/
def Sorted (items : List R) : Prop :=
  items.Pairwise fun a b => c.convertCvalue a < c.convertCvalue b

/-- All records of a tree from left to right. -/
def records (t : TtreeNode R) : List R := t.inorder.flatten

/-- The keys stored in a tree. -/
def HasKey (t : TtreeNode R) (key : K) : Prop := ∃ r ∈ records t, c.convertCvalue r = key

variable {items : List R} {hRight hLeft : TtreeNode R}

omit [LinearOrder K] in
@[simp] theorem records_nil : records (.nil : TtreeNode R) = [] := rfl

@[simp] theorem records_node (hLeft hRight : TtreeNode R) (chBalance : Int) (items : List R) :
    records (.node hLeft hRight chBalance items) = records hLeft ++ (items ++ records hRight) := by
  simp [records]

theorem records_of_inorder {t : TtreeNode R}
    (inorder : t.inorder = hLeft.inorder ++ items :: hRight.inorder) :
    records t = records hLeft ++ (items ++ records hRight) := by
  simp [records, inorder]

@[simp] theorem records_leaf (hRecord : R) : records (leaf hRecord) = [hRecord] := rfl

/-- The joint invariant of a T-tree. -/
structure WellFormed (t : TtreeNode R) : Prop where
  balanced : t.Balanced
  sizes : ∀ items ∈ t.inorder, 1 ≤ items.length ∧ items.length ≤ pageSize
  sorted : Sorted c (records t)

/-- The same invariant, node by node. -/
def Valid [Inhabited R] : TtreeNode R → Prop
  | .nil => True
  | .node hLeft hRight chBalance items =>
    (1 ≤ items.length ∧ items.length ≤ pageSize) ∧ Sorted c items ∧
      (∀ r ∈ records hLeft, c.convertCvalue r < c.convertCvalue (item items 0)) ∧
      (∀ r ∈ records hRight,
        c.convertCvalue (item items (items.length - 1)) < c.convertCvalue r) ∧
      chBalance = (hRight.height : Int) - hLeft.height ∧
      (chBalance = -1 ∨ chBalance = 0 ∨ chBalance = 1) ∧
      Valid hLeft ∧ Valid hRight

section Items
variable [Inhabited R]

omit [LinearOrder K] in
theorem item_eq_getElem {i : Nat} (h : i < items.length) : item items i = items[i] := by
  simp [item, h]

theorem item_mem {i : Nat} (h : i < items.length) : item items i ∈ items := by
  rw [item_eq_getElem h]
  exact getElem_mem h

variable {c}

theorem Sorted.item_lt (sorted : Sorted c items) {i j : Nat} (hij : i < j) (hj : j < items.length) :
    c.convertCvalue (item items i) < c.convertCvalue (item items j) := by
  rw [item_eq_getElem (hij.trans hj), item_eq_getElem hj]
  exact pairwise_iff_getElem.mp sorted i j (hij.trans hj) hj hij

theorem Sorted.first_le (sorted : Sorted c items) {r : R} (hr : r ∈ items) :
    c.convertCvalue (item items 0) ≤ c.convertCvalue r := by
  obtain ⟨i, hi, rfl⟩ := getElem_of_mem hr
  rw [← item_eq_getElem hi]
  rcases Nat.eq_zero_or_pos i with rfl | hpos
  · exact le_refl _
  · exact (sorted.item_lt hpos hi).le

theorem Sorted.le_last (sorted : Sorted c items) {r : R} (hr : r ∈ items) :
    c.convertCvalue r ≤ c.convertCvalue (item items (items.length - 1)) := by
  obtain ⟨i, hi, rfl⟩ := getElem_of_mem hr
  rw [← item_eq_getElem hi]
  rcases Nat.lt_or_ge i (items.length - 1) with hlt | hge
  · exact (sorted.item_lt hlt (by omega)).le
  · have : i = items.length - 1 := by omega
    rw [← this]

end Items

section Nodes
variable {c}

/-- In a nonempty node the order of the three parts of a tree is the order inside
each part and the order across the node's items. -/
theorem sorted_append_iff {left right : List R} (nonempty : items ≠ []) :
    Sorted c (left ++ (items ++ right)) ↔
      Sorted c left ∧ Sorted c items ∧ Sorted c right ∧
        (∀ a ∈ left, ∀ b ∈ items, c.convertCvalue a < c.convertCvalue b) ∧
        (∀ b ∈ items, ∀ d ∈ right, c.convertCvalue b < c.convertCvalue d) := by
  simp only [Sorted, pairwise_append, mem_append]
  constructor
  · rintro ⟨hl, ⟨hi, hr, hir⟩, hlr⟩
    exact ⟨hl, hi, hr, fun a ha b hb => hlr a ha b (.inl hb), hir⟩
  · rintro ⟨hl, hi, hr, hli, hir⟩
    refine ⟨hl, ⟨hi, hr, hir⟩, fun a ha b hb => ?_⟩
    rcases hb with hb | hb
    · exact hli a ha b hb
    · obtain ⟨x, hx⟩ := exists_mem_of_ne_nil items nonempty
      exact (hli a ha x hx).trans (hir x hx b hb)

/-- A balanced tree whose payloads are those of two well-formed trees around one
node's items is well formed when the items fit between the two. -/
theorem wellFormed_of_parts {t : TtreeNode R} (balanced : t.Balanced)
    (inorder : t.inorder = hLeft.inorder ++ items :: hRight.inorder)
    (size : 1 ≤ items.length ∧ items.length ≤ pageSize) (left : WellFormed c hLeft)
    (right : WellFormed c hRight) (sorted : Sorted c items)
    (hli : ∀ a ∈ records hLeft, ∀ b ∈ items, c.convertCvalue a < c.convertCvalue b)
    (hir : ∀ b ∈ items, ∀ d ∈ records hRight, c.convertCvalue b < c.convertCvalue d) :
    WellFormed c t := by
  have nonempty : items ≠ [] := ne_nil_of_length_pos size.1
  refine ⟨balanced, fun xs hxs => ?_, ?_⟩
  · rw [inorder, mem_append, mem_cons] at hxs
    rcases hxs with hxs | rfl | hxs
    · exact left.sizes xs hxs
    · exact size
    · exact right.sizes xs hxs
  · rw [records_of_inorder inorder]
    exact (sorted_append_iff nonempty).mpr ⟨left.sorted, sorted, right.sorted, hli, hir⟩

/-- A well-formed node, part by part. -/
theorem wellFormed_node_iff {chBalance : Int} :
    WellFormed c (.node hLeft hRight chBalance items) ↔
      (AvlTree.node hLeft hRight chBalance items).Balanced ∧
        (1 ≤ items.length ∧ items.length ≤ pageSize) ∧
        WellFormed c hLeft ∧ WellFormed c hRight ∧ Sorted c items ∧
        (∀ a ∈ records hLeft, ∀ b ∈ items, c.convertCvalue a < c.convertCvalue b) ∧
        (∀ b ∈ items, ∀ d ∈ records hRight, c.convertCvalue b < c.convertCvalue d) := by
  constructor
  · rintro ⟨balanced, sizes, sorted⟩
    have size : 1 ≤ items.length ∧ items.length ≤ pageSize := sizes items (by simp)
    have nonempty : items ≠ [] := ne_nil_of_length_pos size.1
    obtain ⟨hl, hi, hr, hli, hir⟩ := (sorted_append_iff nonempty).mp
      (by simpa only [records_node] using sorted)
    exact ⟨balanced, size, ⟨balanced.2.2.2.1, fun xs hxs => sizes xs (by simp [hxs]), hl⟩,
      ⟨balanced.2.2.2.2, fun xs hxs => sizes xs (by simp [hxs]), hr⟩, hi, hli, hir⟩
  · rintro ⟨balanced, size, left, right, hi, hli, hir⟩
    exact wellFormed_of_parts balanced rfl size left right hi hli hir

theorem wellFormed_nil : WellFormed c (.nil : TtreeNode R) :=
  ⟨trivial, by simp, by simp [Sorted]⟩

theorem wellFormed_leaf (hRecord : R) : WellFormed c (leaf hRecord) :=
  ⟨by simp [leaf], by simp [leaf, pageSize], by simp [Sorted]⟩

/-- The list form and the node-by-node form of the invariant agree. -/
theorem wellFormed_iff_valid [Inhabited R] (t : TtreeNode R) : WellFormed c t ↔ Valid c t := by
  induction t with
  | nil => exact ⟨fun _ => trivial, fun _ => wellFormed_nil⟩
  | node hLeft hRight chBalance items ihLeft ihRight =>
    rw [wellFormed_node_iff, Valid, ← ihLeft, ← ihRight, AvlTree.balanced_node]
    constructor
    · rintro ⟨⟨exact, low, high, -, -⟩, size, left, right, hi, hli, hir⟩
      have first : item items 0 ∈ items := item_mem (by omega)
      have last : item items (items.length - 1) ∈ items := item_mem (by omega)
      exact ⟨size, hi, fun r hr => hli r hr _ first, fun r hr => hir _ last r hr, exact,
        by omega, left, right⟩
    · rintro ⟨size, hi, hli, hir, exact, range, left, right⟩
      refine ⟨⟨exact, by omega, by omega, left.balanced, right.balanced⟩, size, left, right,
        hi, fun a ha b hb => ?_, fun b hb d hd => ?_⟩
      · exact (hli a ha).trans_le (hi.first_le hb)
      · exact (hi.le_last hb).trans_lt (hir d hd)

theorem hasKey_node {chBalance : Int} {key : K} :
    HasKey c (.node hLeft hRight chBalance items) key ↔
      HasKey c hLeft key ∨ (∃ r ∈ items, c.convertCvalue r = key) ∨ HasKey c hRight key := by
  simp only [HasKey, records_node, mem_append, or_and_right, exists_or]

section Location
variable [Inhabited R] {hLeft hRight : TtreeNode R} {chBalance : Int} {items : List R} {r : R}

section
variable (wf : WellFormed c (.node hLeft hRight chBalance items))

include wf

/-- A record below the first item can only be in the left subtree. -/
theorem mem_records_iff_left (below : c.convertCvalue r < c.convertCvalue (item items 0)) :
    r ∈ records (.node hLeft hRight chBalance items) ↔ r ∈ records hLeft := by
  obtain ⟨-, size, -, -, sorted, -, hir⟩ := wellFormed_node_iff.mp wf
  simp only [records_node, mem_append]
  refine ⟨?_, .inl⟩
  rintro (hr | hr | hr)
  · exact hr
  · exact absurd below (not_lt.mpr (sorted.first_le hr))
  · exact absurd below (lt_asymm (hir _ (item_mem size.1) r hr))

/-- A record above the last item can only be in the right subtree. -/
theorem mem_records_iff_right
    (above : c.convertCvalue (item items (items.length - 1)) < c.convertCvalue r) :
    r ∈ records (.node hLeft hRight chBalance items) ↔ r ∈ records hRight := by
  obtain ⟨-, size, -, -, sorted, hli, -⟩ := wellFormed_node_iff.mp wf
  simp only [records_node, mem_append]
  refine ⟨?_, fun hr => .inr (.inr hr)⟩
  rintro (hr | hr | hr)
  · exact absurd above (lt_asymm (hli r hr _ (item_mem (by omega))))
  · exact absurd above (not_lt.mpr (sorted.le_last hr))
  · exact hr

/-- A record strictly between the first and the last item is in the node itself. -/
theorem mem_records_iff_here (first : c.convertCvalue (item items 0) < c.convertCvalue r)
    (last : c.convertCvalue r < c.convertCvalue (item items (items.length - 1))) :
    r ∈ records (.node hLeft hRight chBalance items) ↔ r ∈ items := by
  obtain ⟨-, size, -, -, sorted, hli, hir⟩ := wellFormed_node_iff.mp wf
  simp only [records_node, mem_append]
  refine ⟨?_, fun hr => .inr (.inl hr)⟩
  rintro (hr | hr | hr)
  · exact absurd first (lt_asymm (hli r hr _ (item_mem size.1)))
  · exact hr
  · exact absurd last (lt_asymm (hir _ (item_mem (by omega)) r hr))

end

variable {key : K}

section
variable (wf : WellFormed c (.node hLeft hRight chBalance items))

include wf

theorem hasKey_iff_left (below : key < c.convertCvalue (item items 0)) :
    HasKey c (.node hLeft hRight chBalance items) key ↔ HasKey c hLeft key :=
  exists_congr fun _ => and_congr_left fun heq => mem_records_iff_left wf (heq ▸ below)

theorem hasKey_iff_right (above : c.convertCvalue (item items (items.length - 1)) < key) :
    HasKey c (.node hLeft hRight chBalance items) key ↔ HasKey c hRight key :=
  exists_congr fun _ => and_congr_left fun heq => mem_records_iff_right wf (heq ▸ above)

theorem hasKey_iff_here (first : c.convertCvalue (item items 0) < key)
    (last : key < c.convertCvalue (item items (items.length - 1))) :
    HasKey c (.node hLeft hRight chBalance items) key ↔ ∃ r ∈ items, c.convertCvalue r = key :=
  exists_congr fun _ => and_congr_left fun heq =>
    mem_records_iff_here wf (heq ▸ first) (heq ▸ last)

end

end Location
end Nodes
end Dtc.Tree
