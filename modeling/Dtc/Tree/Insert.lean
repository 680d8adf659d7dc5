import Dtc.Tree.Order
import Dtc.Tree.Rebalance

/-!
# Insertion into a T-tree

`InsertSpec` is the contract of `do_insert` on a well-formed node: a present key
leaves the tree alone with reply `-2`, a failed allocation leaves it alone with
reply `-1`, and otherwise exactly the new record is added, the tree stays well
formed and the reply is its growth in levels. The three places where a key can
belong are treated one by one; the overflow case reduces to an insertion of the
record pushed out of a full node, which never belongs to the middle again. The
latter bounds the number of nested calls by twice the height.
-/

namespace Dtc.Tree

open Library List AvlTree

variable {K R : Type*} [LinearOrder K] [Inhabited R] {c : OrderedComparator K R}

section Search

/-- What the interval bounds of the search loop know about the key. -/
structure Bracketed (c : OrderedComparator K R) (items : List R) (key : K)
    (iLeft iRight : Nat) : Prop where
  le : iLeft ≤ iRight
  pos : 1 ≤ iLeft
  lt : iRight < items.length
  below : ∀ j, j < iLeft → c.convertCvalue (item items j) < key
  above : ∀ j, iRight ≤ j → j < items.length → key < c.convertCvalue (item items j)

/-- Meaning of the search result between the first and the last item. -/
def SearchSpec (c : OrderedComparator K R) (items : List R) (key : K) : Nat ⊕ Nat → Prop
  | .inl i => i < items.length ∧ c.convertCvalue (item items i) = key
  | .inr i => Bracketed c items key i i

variable {items : List R} {key : K}

private theorem searchLoop_spec (sorted : Sorted c items) (rounds : Nat) {iLeft iRight : Nat}
    (enough : iRight - iLeft ≤ rounds) (bracketed : Bracketed c items key iLeft iRight) :
    SearchSpec c items key (searchLoop c.toKeyComparator items key rounds iLeft iRight) := by
  induction rounds generalizing iLeft iRight with
  | zero =>
    have : iLeft = iRight := by have := bracketed.le; omega
    subst this
    exact bracketed
  | succ rounds ih =>
    obtain ⟨le, pos, lt, below, above⟩ := bracketed
    rw [searchLoop]
    split_ifs with hlt
    · have hi : (iLeft + iRight) / 2 < items.length := by omega
      dsimp only
      split_ifs with hzero hpos
      · exact ⟨hi, ((c.iDiff_zero _ _).mp hzero).symm⟩
      · have hkey := (c.iDiff_pos _ _).mp hpos
        refine ih (by omega) ⟨by omega, by omega, lt, fun j hj => ?_, above⟩
        rcases Nat.lt_or_ge j ((iLeft + iRight) / 2) with hlow | hge
        · exact (sorted.item_lt hlow hi).trans hkey
        · have : j = (iLeft + iRight) / 2 := by omega
          exact this ▸ hkey
      · have hkey : key < c.convertCvalue (item items ((iLeft + iRight) / 2)) :=
          (c.iDiff_neg _ _).mp (by omega)
        refine ih (by omega) ⟨by omega, pos, hi, below, fun j hge hj => ?_⟩
        rcases Nat.lt_or_ge ((iLeft + iRight) / 2) j with hlow | hle
        · exact hkey.trans (sorted.item_lt hlow hj)
        · have : j = (iLeft + iRight) / 2 := by omega
          exact this ▸ hkey
    · have : iLeft = iRight := by omega
      subst this
      exact ⟨le, pos, lt, below, above⟩

/-- The binary search returns the key's item or the position it belongs to. -/
theorem searchItems_spec (sorted : Sorted c items) (nonempty : 1 ≤ items.length)
    (first : c.convertCvalue (item items 0) < key)
    (last : key < c.convertCvalue (item items (items.length - 1))) :
    SearchSpec c items key (searchItems c.toKeyComparator items key) := by
  have long : 2 ≤ items.length := by
    by_contra hshort
    have : items.length - 1 = 0 := by omega
    rw [this] at last
    exact lt_asymm first last
  refine searchLoop_spec sorted _ (by omega) ⟨by omega, le_refl _, by omega, fun j hj => ?_,
    fun j hge hj => ?_⟩
  · have : j = 0 := by omega
    exact this ▸ first
  · have : j = items.length - 1 := by omega
    exact this ▸ last

/-- A key with a position of its own is no item's key. -/
theorem Bracketed.not_mem {i : Nat}
    (bracketed : Bracketed c items key i i) : ¬ ∃ r ∈ items, c.convertCvalue r = key := by
  rintro ⟨r, hr, hkey⟩
  obtain ⟨j, hj, rfl⟩ := getElem_of_mem hr
  rw [← item_eq_getElem hj] at hkey
  rcases Nat.lt_or_ge j i with hlt | hge
  · exact absurd hkey (bracketed.below j hlt).ne
  · exact absurd hkey (bracketed.above j hge hj).ne'

end Search

/-- The contract of `do_insert` on a node, for a record and its own key. -/
inductive InsertSpec (c : OrderedComparator K R) (mem : Bool) (t : TtreeNode R) (hRecord : R) :
    InsertResult R → Prop
  | keyExists {isAllocNode : Bool} (present : HasKey c t (c.convertCvalue hRecord)) :
      InsertSpec c mem t hRecord ⟨-2, t, isAllocNode⟩
  | noMemory {isAllocNode : Bool} (failed : mem = false)
      (absent : ¬ HasKey c t (c.convertCvalue hRecord)) :
      InsertSpec c mem t hRecord ⟨-1, t, isAllocNode⟩
  | added {ret : Int} {hNode : TtreeNode R} {isAllocNode : Bool}
      (grows : ret = 0 ∨ ret = 1) (absent : ¬ HasKey c t (c.convertCvalue hRecord))
      (wellFormed : WellFormed c hNode) (perm : (records hNode).Perm (hRecord :: records t))
      (height : (hNode.height : Int) = t.height + ret)
      (leans : ret = 1 → hNode.rootBalance ≠ 0) :
      InsertSpec c mem t hRecord ⟨ret, hNode, isAllocNode⟩

section Branches

variable {mem : Bool} {recur : TtreeNode R → K → R → Bool → InsertResult R}
variable {hLeft hRight : TtreeNode R} {chBalance : Int} {items : List R} {hRecord : R}
variable {isAllocNode : Bool} {i : Nat}

section
variable (wf : WellFormed c (.node hLeft hRight chBalance items))

include wf

/-- A record below the first item, added to the left subtree, is added to the tree. -/
theorem added_left (below : c.convertCvalue hRecord < c.convertCvalue (item items 0))
    {child t : TtreeNode R} (left : WellFormed c child)
    (perm : (records child).Perm (hRecord :: records hLeft)) (balanced : t.Balanced)
    (inorder : t.inorder = child.inorder ++ items :: hRight.inorder) :
    WellFormed c t ∧
      (records t).Perm (hRecord :: records (.node hLeft hRight chBalance items)) := by
  obtain ⟨-, size, -, right, sorted, hli, hir⟩ := wellFormed_node_iff.mp wf
  refine ⟨wellFormed_of_parts balanced inorder size left right sorted (fun a ha b hb => ?_) hir, ?_⟩
  · rcases mem_cons.mp (perm.subset ha) with rfl | ha
    · exact below.trans_le (sorted.first_le hb)
    · exact hli a ha b hb
  · rw [records_of_inorder inorder, records_node]
    exact perm.append_right _

/-- A record above the last item, added to the right subtree, is added to the tree. -/
theorem added_right
    (above : c.convertCvalue (item items (items.length - 1)) < c.convertCvalue hRecord)
    {child t : TtreeNode R} (right : WellFormed c child)
    (perm : (records child).Perm (hRecord :: records hRight)) (balanced : t.Balanced)
    (inorder : t.inorder = hLeft.inorder ++ items :: child.inorder) :
    WellFormed c t ∧
      (records t).Perm (hRecord :: records (.node hLeft hRight chBalance items)) := by
  obtain ⟨-, size, left, -, sorted, hli, hir⟩ := wellFormed_node_iff.mp wf
  refine ⟨wellFormed_of_parts balanced inorder size left right sorted hli fun b hb d hd => ?_, ?_⟩
  · rcases mem_cons.mp (perm.subset hd) with rfl | hd
    · exact (sorted.le_last hb).trans_lt above
    · exact hir b hb d hd
  · rw [records_of_inorder inorder, records_node, ← append_assoc, ← append_assoc]
    exact (perm.append_left _).trans perm_middle

/-- `insertLeft` meets the contract when the recursive call does. -/
theorem insertLeft_spec (below : c.convertCvalue hRecord < c.convertCvalue (item items 0))
    (called : hLeft ≠ .nil → InsertSpec c mem hLeft hRecord
      (recur hLeft (c.convertCvalue hRecord) hRecord isAllocNode)) :
    InsertSpec c mem (.node hLeft hRight chBalance items) hRecord
      (insertLeft mem recur hLeft hRight chBalance items (c.convertCvalue hRecord) hRecord
        isAllocNode) := by
  have located := hasKey_iff_left wf below
  have before := wf.balanced
  obtain ⟨-, size, left, right, sorted, hli, hir⟩ := wellFormed_node_iff.mp wf
  unfold insertLeft
  split_ifs with hroom hnil hmem
  · obtain rfl := isNil_iff.mp hroom.1
    refine .added (.inl rfl) (by rw [located]; simp [HasKey])
      (wellFormed_of_parts before rfl ?_ left right ?_ ?_ ?_) ?_ (by simp) (by simp)
    · simp only [length_cons]
      omega
    · exact pairwise_cons.mpr ⟨fun b hb => below.trans_le (sorted.first_le hb), sorted⟩
    · simp
    · intro b hb d hd
      rcases mem_cons.mp hb with rfl | hb
      · exact below.trans (hir _ (item_mem size.1) d hd)
      · exact hir b hb d hd
    · simp
  · obtain rfl := isNil_iff.mp hnil
    have absent : ¬ HasKey c (.node .nil hRight chBalance items) (c.convertCvalue hRecord) := by
      rw [located]
      simp [HasKey]
    have skew : chBalance < 0 → (leaf hRecord).rootBalance ≠ 0 := by
      have := before.1
      simp only [height_nil] at this
      omega
    have grown := leftGrown_grows before (wellFormed_leaf (c := c) hRecord).balanced
      (by simp [leaf]) skew
    obtain ⟨result, perm⟩ := added_left wf below (wellFormed_leaf hRecord) (by simp)
      grown.balanced grown.inorder
    exact .added grown.ret absent result perm grown.height grown.leans
  · obtain rfl := isNil_iff.mp hnil
    exact .noMemory (by simpa using hmem) (by rw [located]; simp [HasKey])
  · have spec := called (isNil_eq_false_iff.mp (by simpa using hnil))
    generalize recur hLeft (c.convertCvalue hRecord) hRecord isAllocNode = child at spec
    cases spec with
    | keyExists present => exact .keyExists (located.mpr present)
    | noMemory failed absent => exact .noMemory failed (fun h => absent (located.mp h))
    | @added ret child allocated grows absent childWf childPerm height leans =>
      have absent' := fun h => absent (located.mp h)
      rcases grows with rfl | rfl
      · have same : child.height = hLeft.height := by
          simpa using height
        have balanced : (node child hRight chBalance items).Balanced :=
          ⟨by rw [same]; exact before.1, before.2.1, before.2.2.1, childWf.balanced, right.balanced⟩
        obtain ⟨result, perm⟩ := added_left wf below childWf childPerm balanced rfl
        exact .added (.inl rfl) absent' result perm (by simp [same]) (by simp)
      · have grown := leftGrown_grows before childWf.balanced (by omega) fun _ => leans rfl
        obtain ⟨result, perm⟩ := added_left wf below childWf childPerm grown.balanced grown.inorder
        exact .added grown.ret absent' result perm grown.height grown.leans

/-- `insertRight` meets the contract when the recursive call does. -/
theorem insertRight_spec
    (above : c.convertCvalue (item items (items.length - 1)) < c.convertCvalue hRecord)
    (called : hRight ≠ .nil → InsertSpec c mem hRight hRecord
      (recur hRight (c.convertCvalue hRecord) hRecord isAllocNode)) :
    InsertSpec c mem (.node hLeft hRight chBalance items) hRecord
      (insertRight mem recur hLeft hRight chBalance items (c.convertCvalue hRecord) hRecord
        isAllocNode) := by
  have located := hasKey_iff_right wf above
  have before := wf.balanced
  obtain ⟨-, size, left, right, sorted, hli, hir⟩ := wellFormed_node_iff.mp wf
  unfold insertRight
  split_ifs with hroom hnil hmem
  · obtain rfl := isNil_iff.mp hroom.1
    refine .added (.inl rfl) (by rw [located]; simp [HasKey])
      (wellFormed_of_parts before rfl ?_ left right ?_ ?_ ?_) ?_ (by simp) (by simp)
    · simp only [length_append, length_singleton]
      omega
    · refine pairwise_append.mpr ⟨sorted, by simp, fun a ha b hb => ?_⟩
      obtain rfl := mem_singleton.mp hb
      exact (sorted.le_last ha).trans_lt above
    · intro a ha b hb
      rcases mem_append.mp hb with hb | hb
      · exact hli a ha b hb
      · obtain rfl := mem_singleton.mp hb
        exact (hli a ha _ (item_mem (by omega))).trans above
    · simp
    · simp only [records_node, records_nil, append_nil, ← append_assoc]
      exact perm_append_singleton _ _
  · obtain rfl := isNil_iff.mp hnil
    have absent : ¬ HasKey c (.node hLeft .nil chBalance items) (c.convertCvalue hRecord) := by
      rw [located]
      simp [HasKey]
    have skew : 0 < chBalance → (leaf hRecord).rootBalance ≠ 0 := by
      have := before.1
      simp only [height_nil] at this
      omega
    have grown := rightGrown_grows before (wellFormed_leaf (c := c) hRecord).balanced
      (by simp [leaf]) skew
    obtain ⟨result, perm⟩ := added_right wf above (wellFormed_leaf hRecord) (by simp)
      grown.balanced grown.inorder
    exact .added grown.ret absent result perm grown.height grown.leans
  · obtain rfl := isNil_iff.mp hnil
    exact .noMemory (by simpa using hmem) (by rw [located]; simp [HasKey])
  · have spec := called (isNil_eq_false_iff.mp (by simpa using hnil))
    generalize recur hRight (c.convertCvalue hRecord) hRecord isAllocNode = child at spec
    cases spec with
    | keyExists present => exact .keyExists (located.mpr present)
    | noMemory failed absent => exact .noMemory failed (fun h => absent (located.mp h))
    | @added ret child allocated grows absent childWf childPerm height leans =>
      have absent' := fun h => absent (located.mp h)
      rcases grows with rfl | rfl
      · have same : child.height = hRight.height := by
          simpa using height
        have balanced : (node hLeft child chBalance items).Balanced :=
          ⟨by rw [same]; exact before.1, before.2.1, before.2.2.1, left.balanced, childWf.balanced⟩
        obtain ⟨result, perm⟩ := added_right wf above childWf childPerm balanced rfl
        exact .added (.inl rfl) absent' result perm (by simp [same]) (by simp)
      · have grown := rightGrown_grows before childWf.balanced (by omega) fun _ => leans rfl
        obtain ⟨result, perm⟩ := added_right wf above childWf childPerm grown.balanced grown.inorder
        exact .added grown.ret absent' result perm grown.height grown.leans

end

private theorem insertIdx_eq_take_drop {α : Type*} (a : α) (l : List α) {i : Nat}
    (h : i ≤ l.length) : l.insertIdx i a = l.take i ++ a :: l.drop i := by
  induction l generalizing i with
  | nil => simp_all
  | cons x xs ih =>
    cases i with
    | zero => rfl
    | succ i => simp [List.insertIdx_succ_cons, ih (by simpa using h)]

/-- Shifting a record into its position keeps the items sorted. -/
theorem sorted_insertIdx (sorted : Sorted c items) {iRight : Nat}
    (bracketed : Bracketed c items (c.convertCvalue hRecord) iRight iRight) :
    Sorted c (items.insertIdx iRight hRecord) := by
  have low : ∀ a ∈ items.take iRight, c.convertCvalue a < c.convertCvalue hRecord := by
    intro a ha
    obtain ⟨j, hj, rfl⟩ := getElem_of_mem ha
    rw [length_take] at hj
    rw [getElem_take, ← item_eq_getElem (by omega)]
    exact bracketed.below j (by omega)
  have high : ∀ b ∈ items.drop iRight, c.convertCvalue hRecord < c.convertCvalue b := by
    intro b hb
    obtain ⟨j, hj, rfl⟩ := getElem_of_mem hb
    rw [length_drop] at hj
    rw [getElem_drop, ← item_eq_getElem (by omega)]
    exact bracketed.above _ (by omega) (by omega)
  rw [insertIdx_eq_take_drop _ _ bracketed.lt.le]
  refine pairwise_append.mpr ⟨sorted.sublist (take_sublist _ _),
    pairwise_cons.mpr ⟨high, sorted.sublist (drop_sublist _ _)⟩, fun a ha b hb => ?_⟩
  rcases mem_cons.mp hb with rfl | hb
  · exact low a ha
  · exact (low a ha).trans (high b hb)

/-- A key on either side of all items of a node. -/
def Outside (c : OrderedComparator K R) (items : List R) (key : K) : Prop :=
  key < c.convertCvalue (item items 0) ∨ c.convertCvalue (item items (items.length - 1)) < key

omit [Inhabited R] in
/-- Inserting the pushed-out record again accounts for the record asked for. -/
theorem reinsert_spec {kept : List R} {hReInsert : R} {again : InsertResult R}
    (absent : ¬ HasKey c (.node hLeft hRight chBalance items) (c.convertCvalue hRecord))
    (fresh : ¬ HasKey c (.node hLeft hRight chBalance kept) (c.convertCvalue hReInsert))
    (perm : (hReInsert :: kept).Perm (hRecord :: items))
    (spec : InsertSpec c mem (.node hLeft hRight chBalance kept) hReInsert again) :
    InsertSpec c mem (.node hLeft hRight chBalance items) hRecord
      (if again.ret < 0 then ⟨again.ret, restoreItems items again.hNode, again.isAllocNode⟩
        else again) := by
  cases spec with
  | keyExists present => exact absurd present fresh
  | noMemory failed _ => exact .noMemory failed absent
  | @added ret hNode allocated grows _ wf childPerm height leans =>
    rw [if_neg (by rcases grows with rfl | rfl <;> simp)]
    refine .added grows absent wf (childPerm.trans ?_) height leans
    simp only [records_node]
    exact (perm_middle.symm.trans ((perm.append_right _).append_left _)).trans perm_middle

private theorem insertIdx_eq_cons (bracketed : Bracketed c items (c.convertCvalue hRecord) i i) :
    items.insertIdx i hRecord = item items 0 :: (items.insertIdx i hRecord).tail := by
  obtain ⟨-, pos, lt, -, -⟩ := bracketed
  cases items with
  | nil => simp at lt
  | cons x xs =>
    obtain ⟨j, rfl⟩ := Nat.exists_eq_add_of_le' pos
    rfl

private theorem insertIdx_eq_concat (bracketed : Bracketed c items (c.convertCvalue hRecord) i i) :
    items.insertIdx i hRecord =
      (items.insertIdx i hRecord).dropLast ++ [item items (items.length - 1)] := by
  have lt := bracketed.lt
  have nonempty : items.drop i ≠ [] := by simpa using lt
  rw [insertIdx_eq_take_drop _ _ lt.le, dropLast_append_of_ne_nil (by simp),
    dropLast_cons_of_ne_nil nonempty, append_assoc, cons_append,
    item_eq_getElem (by omega)]
  congr 2
  conv_lhs => rw [← dropLast_append_getLast nonempty]
  rw [getLast_drop, getLast_eq_getElem]

/-- The node after a record has been shifted into its items. -/
private structure Shifted (c : OrderedComparator K R) (hLeft hRight : TtreeNode R)
    (items : List R) (hRecord : R) (shifted : List R) : Prop where
  sorted : Sorted c shifted
  perm : shifted.Perm (hRecord :: items)
  left : ∀ a ∈ records hLeft, ∀ b ∈ shifted, c.convertCvalue a < c.convertCvalue b
  right : ∀ b ∈ shifted, ∀ d ∈ records hRight, c.convertCvalue b < c.convertCvalue d

section
variable (wf : WellFormed c (.node hLeft hRight chBalance items))

include wf

private theorem shifted_insertIdx (bracketed : Bracketed c items (c.convertCvalue hRecord) i i) :
    Shifted c hLeft hRight items hRecord (items.insertIdx i hRecord) := by
  obtain ⟨-, size, -, -, sorted, hli, hir⟩ := wellFormed_node_iff.mp wf
  have perm : (items.insertIdx i hRecord).Perm (hRecord :: items) :=
    perm_insertIdx _ _ bracketed.lt.le
  have last := bracketed.above (items.length - 1) (by have := bracketed.lt; omega) (by omega)
  refine ⟨sorted_insertIdx sorted bracketed, perm, fun a ha b hb => ?_, fun b hb d hd => ?_⟩
  · rcases mem_cons.mp (perm.subset hb) with rfl | hb
    · exact (hli a ha _ (item_mem (by omega))).trans (bracketed.below 0 bracketed.pos)
    · exact hli a ha b hb
  · rcases mem_cons.mp (perm.subset hb) with rfl | hb
    · exact last.trans (hir _ (item_mem (by omega)) d hd)
    · exact hir b hb d hd

omit [Inhabited R] in
private theorem Shifted.kept {shifted kept : List R}
    (shift : Shifted c hLeft hRight items hRecord shifted) (sub : kept.Sublist shifted)
    (length : 1 ≤ kept.length ∧ kept.length ≤ pageSize) :
    WellFormed c (.node hLeft hRight chBalance kept) := by
  obtain ⟨balanced, -, left, right, -⟩ := wellFormed_node_iff.mp wf
  exact wellFormed_of_parts (by simpa using balanced) rfl length left right
    (shift.sorted.sublist sub) (fun a ha b hb => shift.left a ha b (sub.subset hb))
    fun b hb d hd => shift.right b (sub.subset hb) d hd

/-- `insertMiddle` meets the contract when the repeated call does. That call is
for a record outside the items that stay in the node. -/
theorem insertMiddle_spec (bracketed : Bracketed c items (c.convertCvalue hRecord) i i)
    (called : ∀ kept hReInsert, WellFormed c (.node hLeft hRight chBalance kept) →
      Outside c kept (c.convertCvalue hReInsert) →
      InsertSpec c mem (.node hLeft hRight chBalance kept) hReInsert
        (recur (.node hLeft hRight chBalance kept) (c.convertCvalue hReInsert) hReInsert
          isAllocNode)) :
    InsertSpec c mem (.node hLeft hRight chBalance items) hRecord
      (insertMiddle c.toKeyComparator recur hLeft hRight chBalance items i hRecord
        isAllocNode) := by
  have size := (wellFormed_node_iff.mp wf).2.1
  have absent : ¬ HasKey c (.node hLeft hRight chBalance items) (c.convertCvalue hRecord) := by
    rw [hasKey_iff_here wf (bracketed.below 0 bracketed.pos)
      (bracketed.above _ (by have := bracketed.lt; omega) (by omega))]
    exact bracketed.not_mem
  have shift := shifted_insertIdx wf bracketed
  have asCons := insertIdx_eq_cons bracketed
  have asConcat := insertIdx_eq_concat bracketed
  unfold insertMiddle
  generalize items.insertIdx i hRecord = shifted at shift asCons asConcat
  have length : shifted.length = items.length + 1 := by
    simpa using shift.perm.length_eq
  by_cases hroom : items.length < pageSize
  · rw [if_pos hroom]
    refine .added (.inl rfl) absent (shift.kept wf (List.Sublist.refl _) (by omega)) ?_ (by simp)
      (by simp)
    simp only [records_node]
    exact ((shift.perm.append_right _).append_left _).trans perm_middle
  · rw [if_neg hroom]
    by_cases hlean : 0 ≤ chBalance
    · simp only [if_pos hlean]
      have keptWf := shift.kept wf (tail_sublist shifted) (by simp; omega)
      have low : c.convertCvalue (item items 0) < c.convertCvalue (item shifted.tail 0) := by
        have sorted : Sorted c (item items 0 :: shifted.tail) := by
          rw [← asCons]
          exact shift.sorted
        have below := (pairwise_cons.mp sorted).1
        exact below _ (item_mem (by simp; omega))
      refine reinsert_spec absent ?_ (by rw [← asCons]; exact shift.perm)
        (called _ _ keptWf (.inl low))
      rw [hasKey_iff_left keptWf low]
      rintro ⟨r, hr, hkey⟩
      exact absurd hkey (shift.left r hr _ (by rw [asCons]; simp)).ne
    · simp only [if_neg hlean]
      have keptWf := shift.kept wf (dropLast_sublist shifted) (by simp; omega)
      have high : c.convertCvalue (item shifted.dropLast (shifted.dropLast.length - 1)) <
          c.convertCvalue (item items (items.length - 1)) := by
        have sorted : Sorted c (shifted.dropLast ++ [item items (items.length - 1)]) := by
          rw [← asConcat]
          exact shift.sorted
        have above := (pairwise_append.mp sorted).2.2
        exact above _ (item_mem (by simp; omega)) _ (mem_singleton_self _)
      refine reinsert_spec absent ?_ ?_ (called _ _ keptWf (.inr high))
      · rw [hasKey_iff_right keptWf high]
        rintro ⟨r, hr, hkey⟩
        exact absurd hkey (shift.right _ (by rw [asConcat]; simp) r hr).ne'
      · refine (perm_append_singleton _ _).symm.trans ?_
        rw [← asConcat]
        exact shift.perm

/-- The body meets the contract when its recursive calls do: on a child, and, for
a key inside the node, on the node with other items and a key outside them. -/
theorem insertBody_spec (calledLeft : hLeft ≠ .nil → InsertSpec c mem hLeft hRecord
      (recur hLeft (c.convertCvalue hRecord) hRecord isAllocNode))
    (calledRight : hRight ≠ .nil → InsertSpec c mem hRight hRecord
      (recur hRight (c.convertCvalue hRecord) hRecord isAllocNode))
    (calledAgain : ¬ Outside c items (c.convertCvalue hRecord) →
      ∀ kept hReInsert, WellFormed c (.node hLeft hRight chBalance kept) →
        Outside c kept (c.convertCvalue hReInsert) →
        InsertSpec c mem (.node hLeft hRight chBalance kept) hReInsert
          (recur (.node hLeft hRight chBalance kept) (c.convertCvalue hReInsert) hReInsert
            isAllocNode)) :
    InsertSpec c mem (.node hLeft hRight chBalance items) hRecord
      (insertBody c.toKeyComparator mem recur hLeft hRight chBalance items
        (c.convertCvalue hRecord) hRecord isAllocNode) := by
  obtain ⟨-, size, -, -, sorted, -, -⟩ := wellFormed_node_iff.mp wf
  have present : ∀ j, j < items.length → c.convertCvalue hRecord = c.convertCvalue (item items j) →
      HasKey c (.node hLeft hRight chBalance items) (c.convertCvalue hRecord) :=
    fun j hj heq => hasKey_node.mpr (.inr (.inl ⟨_, item_mem hj, heq.symm⟩))
  unfold insertBody
  dsimp only
  split_ifs with hfirst hlow hlast hhigh
  · exact .keyExists (present 0 (by omega) ((c.iDiff_zero _ _).mp hfirst))
  · exact insertLeft_spec wf ((c.iDiff_neg _ _).mp hlow) calledLeft
  · exact .keyExists (present _ (by omega) ((c.iDiff_zero _ _).mp hlast))
  · exact insertRight_spec wf ((c.iDiff_pos _ _).mp hhigh) calledRight
  · have first : c.convertCvalue (item items 0) < c.convertCvalue hRecord :=
      (c.iDiff_pos _ _).mp (by omega)
    have last : c.convertCvalue hRecord < c.convertCvalue (item items (items.length - 1)) :=
      (c.iDiff_neg _ _).mp (by omega)
    have found := searchItems_spec sorted size.1 first last
    generalize searchItems c.toKeyComparator items (c.convertCvalue hRecord) = position at found
    cases position with
    | inl j => exact .keyExists (present j found.1 found.2.symm)
    | inr j =>
      refine insertMiddle_spec wf found (calledAgain ?_)
      rintro (below | above)
      · exact lt_asymm below first
      · exact lt_asymm above last

end

end Branches

/-- `do_insert` meets its contract with fuel for two calls at each level; a key
outside the root's items needs one call less. -/
theorem doInsert_spec (mem : Bool) (fuel : Nat) {chBalance : Int}
    (wf : WellFormed c (.node hLeft hRight chBalance items)) (hRecord : R)
    (isAllocNode : Bool)
    (enough : 2 * (node hLeft hRight chBalance items).height < fuel ∨
      2 * (node hLeft hRight chBalance items).height = fuel ∧
        Outside c items (c.convertCvalue hRecord)) :
    InsertSpec c mem (.node hLeft hRight chBalance items) hRecord
      (doInsert c.toKeyComparator mem fuel (.node hLeft hRight chBalance items)
        (c.convertCvalue hRecord) hRecord isAllocNode) := by
  induction fuel generalizing hLeft hRight chBalance items hRecord isAllocNode with
  | zero => simp at enough
  | succ fuel ih =>
    obtain ⟨-, -, left, right, -⟩ := wellFormed_node_iff.mp wf
    simp only [height_node] at enough
    refine insertBody_spec wf (fun hne => ?_) (fun hne => ?_) fun inside kept hReInsert kwf kout => ?_
    · cases hLeft with
      | nil => exact absurd rfl hne
      | node => exact ih left hRecord isAllocNode (.inl (by simp at enough ⊢; omega))
    · cases hRight with
      | nil => exact absurd rfl hne
      | node => exact ih right hRecord isAllocNode (.inl (by simp at enough ⊢; omega))
    · refine ih kwf hReInsert isAllocNode ?_
      rcases enough with enough | ⟨-, outside⟩
      · rw [height_node]
        by_cases heq : 2 * (max hLeft.height hRight.height + 1) = fuel
        · exact .inr ⟨heq, kout⟩
        · exact .inl (by omega)
      · exact absurd outside inside

/-! ### Failed insertions

A negative reply goes up through all calls, and every call on the way leaves its node as it was.
This needs no order: the comparator may be any, and so may the tree. -/

section Failed
variable {K R : Type*} [Inhabited R] (c : KeyComparator K R) {mem : Bool}
variable {recur : TtreeNode R → K → R → Bool → InsertResult R}
variable {hLeft hRight : TtreeNode R} {chBalance : Int} {items : List R} {key : K} {hRecord : R}
variable {isAllocNode : Bool}

/-- A reply that reports a failure comes with the node that was given. -/
def Restores (t : TtreeNode R) (res : InsertResult R) : Prop := res.ret < 0 → res.hNode = t

theorem leftGrown_nonneg {α : Type*} (hLeft hRight : AvlTree α) (chBalance : Int) (items : α) :
    0 ≤ (leftGrown hLeft hRight chBalance items).1 := by
  unfold leftGrown
  split_ifs
  · exact le_rfl
  · exact Int.one_nonneg
  · cases hLeft with
    | nil => exact le_rfl
    | node ll lr lb litems =>
      dsimp only
      split_ifs
      · exact le_rfl
      · cases lr <;> exact le_rfl

theorem rightGrown_nonneg {α : Type*} (hLeft hRight : AvlTree α) (chBalance : Int) (items : α) :
    0 ≤ (rightGrown hLeft hRight chBalance items).1 := by
  unfold rightGrown
  split_ifs
  · exact le_rfl
  · exact Int.one_nonneg
  · cases hRight with
    | nil => exact le_rfl
    | node rl rr rb ritems =>
      dsimp only
      split_ifs
      · exact le_rfl
      · cases rl <;> exact le_rfl

omit [Inhabited R] in
theorem insertLeft_restores (called : Restores hLeft (recur hLeft key hRecord isAllocNode)) :
    Restores (.node hLeft hRight chBalance items)
      (insertLeft mem recur hLeft hRight chBalance items key hRecord isAllocNode) := by
  unfold insertLeft
  dsimp only
  split_ifs with room leaf allocated stays
  · intro failed
    exact absurd failed (lt_irrefl 0)
  · intro failed
    exact absurd failed (leftGrown_nonneg _ _ _ _).not_gt
  · intro failed
    rfl
  · intro failed
    rw [called failed]
  · intro failed
    exact absurd failed (leftGrown_nonneg _ _ _ _).not_gt

omit [Inhabited R] in
theorem insertRight_restores (called : Restores hRight (recur hRight key hRecord isAllocNode)) :
    Restores (.node hLeft hRight chBalance items)
      (insertRight mem recur hLeft hRight chBalance items key hRecord isAllocNode) := by
  unfold insertRight
  dsimp only
  split_ifs with room leaf allocated stays
  · intro failed
    exact absurd failed (lt_irrefl 0)
  · intro failed
    exact absurd failed (rightGrown_nonneg _ _ _ _).not_gt
  · intro failed
    rfl
  · intro failed
    rw [called failed]
  · intro failed
    exact absurd failed (rightGrown_nonneg _ _ _ _).not_gt

/-- The backup of the items is copied into the node that the displaced record was refused by, which
is the node it was taken from. -/
theorem insertMiddle_restores {iRight : Nat}
    (called : ∀ kept key again, Restores (.node hLeft hRight chBalance kept)
      (recur (.node hLeft hRight chBalance kept) key again isAllocNode)) :
    Restores (.node hLeft hRight chBalance items)
      (insertMiddle c recur hLeft hRight chBalance items iRight hRecord isAllocNode) := by
  unfold insertMiddle
  dsimp only
  split_ifs with room first failed failed
  · intro failed
    exact absurd failed (lt_irrefl 0)
  · intro _
    exact congrArg (restoreItems items) (called _ _ _ failed)
  · exact fun failing => absurd failing failed
  · intro _
    exact congrArg (restoreItems items) (called _ _ _ failed)
  · exact fun failing => absurd failing failed

theorem doInsert_restores (mem : Bool) (fuel : Nat) (t : TtreeNode R) (key : K) (hRecord : R)
    (isAllocNode : Bool) : Restores t (doInsert c mem fuel t key hRecord isAllocNode) := by
  induction fuel generalizing t key hRecord isAllocNode with
  | zero => cases t <;> exact fun _ => rfl
  | succ fuel ih =>
    cases t with
    | nil => exact fun _ => rfl
    | node hLeft hRight chBalance items =>
      rw [doInsert]
      unfold insertBody
      dsimp only
      split_ifs
      · exact fun _ => rfl
      · exact insertLeft_restores (ih _ _ _ _)
      · exact fun _ => rfl
      · exact insertRight_restores (ih _ _ _ _)
      · cases searchItems c items key with
        | inl i => exact fun _ => rfl
        | inr i => exact insertMiddle_restores c fun kept key again => ih _ _ _ _

end Failed

end Dtc.Tree
