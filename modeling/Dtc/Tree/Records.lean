import Dtc.Tree.Data

/-!
# The records of tree data

What holds of the records between two steps of an operation: they form a T-tree by index
value, no two have the same handle, their rows fit their chunks, and the counters of the
header are the sums over them (`Good`).

Each step changes the record of one index value (`Touched`). The rows of the node then
change by the rows of that record alone (`Touched.exchange`).
-/

namespace Dtc.Tree

open Library List

variable {ρ K : Type}

/-- `KeyCompare` decides an order of the index values, also when its result is kept in an
`int`. -/
structure TreeTable.Ordered [LinearOrder K] (t : TreeTable ρ K) : Prop where
  neg : ∀ a b, (t.keyCompare a b).bmod (2 ^ 32) < 0 ↔ a < b
  zero : ∀ a b, (t.keyCompare a b).bmod (2 ^ 32) = 0 ↔ a = b
  self : ∀ a, t.keyCompare a a = 0

variable {t : TreeTable ρ K} {pos : Nat} {x : StoredRow ρ}

theorem TreeTable.Ordered.keyCompare_eq_zero [LinearOrder K] (o : t.Ordered)
    {a b : K} : t.keyCompare a b = 0 ↔ a = b := by
  constructor
  · intro zero
    rw [← o.zero, zero]
    rfl
  · rintro rfl
    exact o.self a

def TreeTable.Ordered.comparator [LinearOrder K] (o : t.Ordered) :
    OrderedComparator K (RowChunk ρ K) :=
  { t.comparator with
    iDiff_neg := fun key r => o.neg key r.key
    iDiff_zero := fun key r => o.zero key r.key
    pfComp_zero := fun _ _ => o.keyCompare_eq_zero }

/-- All rows of some records. -/
def storedRows (rs : List (RowChunk ρ K)) : List (StoredRow ρ) := rs.flatMap RowChunk.rows

/-- The sizes of the chunks of some records. -/
def chunkBytes (rs : List (RowChunk ρ K)) : Nat := (rs.map RowChunk.chunkSize).sum

@[simp] theorem storedRows_nil : storedRows ([] : List (RowChunk ρ K)) = [] := rfl

@[simp] theorem storedRows_cons (r : RowChunk ρ K) (rs : List (RowChunk ρ K)) :
    storedRows (r :: rs) = r.rows ++ storedRows rs := rfl

theorem storedRows_append (rs rs' : List (RowChunk ρ K)) :
    storedRows (rs ++ rs') = storedRows rs ++ storedRows rs' := flatMap_append

variable {rs : List (RowChunk ρ K)}

theorem mem_storedRows :
    x ∈ storedRows rs ↔ ∃ r ∈ rs, x ∈ r.rows := mem_flatMap

@[simp] theorem chunkBytes_cons (r : RowChunk ρ K) (rs : List (RowChunk ρ K)) :
    chunkBytes (r :: rs) = r.chunkSize + chunkBytes rs := by
  simp [chunkBytes]

section
variable (t)

@[simp] theorem TreeTable.rowsSize_nil : t.rowsSize [] = 0 := rfl

@[simp] theorem TreeTable.rowsSize_cons (x : StoredRow ρ) (xs : List (StoredRow ρ)) :
    t.rowsSize (x :: xs) = t.rowSize x.row + t.rowsSize xs := by
  simp [rowsSize]

@[simp] theorem TreeTable.rowsSize_append (xs ys : List (StoredRow ρ)) :
    t.rowsSize (xs ++ ys) = t.rowsSize xs + t.rowsSize ys := by
  simp [rowsSize]

theorem TreeTable.rowsSize_perm {xs ys : List (StoredRow ρ)} (perm : xs.Perm ys) :
    t.rowsSize xs = t.rowsSize ys :=
  (perm.map _).sum_eq

theorem TreeTable.rowsSize_eraseIdx {xs : List (StoredRow ρ)}
    (at_ : xs[pos]? = some x) : t.rowsSize (xs.eraseIdx pos) + t.rowSize x.row = t.rowsSize xs := by
  obtain ⟨inside, rfl⟩ := List.getElem?_eq_some_iff.mp at_
  have same := t.rowsSize_perm (getElem_cons_eraseIdx_perm inside)
  rw [rowsSize_cons] at same
  omega

theorem TreeTable.rowsSize_set {xs : List (StoredRow ρ)} {y : StoredRow ρ}
    (at_ : xs[pos]? = some x) :
    t.rowsSize (xs.set pos y) + t.rowSize x.row = t.rowsSize xs + t.rowSize y.row := by
  obtain ⟨inside, -⟩ := List.getElem?_eq_some_iff.mp at_
  have same := t.rowsSize_perm (set_perm_cons_eraseIdx inside y)
  have erased := t.rowsSize_eraseIdx at_
  rw [rowsSize_cons] at same
  omega

end

variable {r : RowChunk ρ K}

theorem TreeTable.rowsSize_le (t : TreeTable ρ K) (mem : r ∈ rs) :
    t.rowsSize r.rows ≤ t.rowsSize (storedRows rs) := by
  obtain ⟨front, back, rfl⟩ := append_of_mem mem
  rw [storedRows_append, storedRows_cons, rowsSize_append, rowsSize_append]
  omega

/-- The rows of a node, in no order. -/
def TreeData.rows (s : TreeData ρ K) : Multiset (StoredRow ρ) := storedRows (records s.root)

/-- What holds of one record. -/
structure RowChunk.Sound (t : TreeTable ρ K) (calls : Nat) (r : RowChunk ρ K) : Prop where
  same : ∀ x ∈ r.rows, t.index x.row = r.key
  inside : r.dataSize t ≤ r.chunkSize
  range : r.chunkSize < 2 ^ 32
  handle : r.handle < calls

theorem RowChunk.Sound.mono {calls calls' : Nat} (sound : r.Sound t calls)
    (le : calls ≤ calls') : r.Sound t calls' :=
  { sound with handle := lt_of_lt_of_le sound.handle le }

/-- The records in any order, and the counters of the header. -/
structure TreeData.Keeps (t : TreeTable ρ K) (s : TreeData ρ K) (rs : List (RowChunk ρ K)) :
    Prop where
  handles : (rs.map RowChunk.handle).Nodup
  chunks : ∀ r ∈ rs, r.Sound t s.calls
  rowCount : s.rowCount = (storedRows rs).length % 2 ^ 32
  nodeCount : s.nodeCount = rs.length % 2 ^ 32
  rawSize : s.totalRawSize = t.rowsSize (storedRows rs) % 2 ^ 32
  treeSize : s.freesNoted = true →
    s.treeSize = (sizeofTtreeNode * nodes s.root + chunkBytes rs) % 2 ^ 32

theorem TreeData.Keeps.perm {s : TreeData ρ K} {rs' : List (RowChunk ρ K)}
    (keeps : s.Keeps t rs) (perm : rs.Perm rs') : s.Keeps t rs' := by
  have rows : (storedRows rs).Perm (storedRows rs') := perm.flatMap_right _
  refine ⟨(perm.map _).nodup_iff.mp keeps.handles,
    fun r mem => keeps.chunks r (perm.mem_iff.mpr mem), ?_, ?_, ?_, fun noted => ?_⟩
  · rw [keeps.rowCount, rows.length_eq]
  · rw [keeps.nodeCount, perm.length_eq]
  · rw [keeps.rawSize, TreeTable.rowsSize, TreeTable.rowsSize, (rows.map _).sum_eq]
  · rw [keeps.treeSize noted, chunkBytes, chunkBytes, (perm.map _).sum_eq]

/-- What holds between two steps of an operation. -/
structure TreeData.Good [LinearOrder K] {t : TreeTable ρ K} (o : t.Ordered) (s : TreeData ρ K) :
    Prop where
  wellFormed : WellFormed o.comparator s.root
  keeps : s.Keeps t (records s.root)

/-- A step has changed the record of one index value, from some rows to others. -/
structure Touched (s s' : TreeData ρ K) (key : K) (old new : List (StoredRow ρ)) : Prop where
  split : ∃ before after rest, (records s.root).Perm (before ++ rest) ∧
    (records s'.root).Perm (after ++ rest) ∧ storedRows before = old ∧ storedRows after = new ∧
    (∀ r ∈ before ++ after, r.key = key) ∧ ∀ r ∈ rest, r.key ≠ key

section Touched
variable {s s' : TreeData ρ K} {key : K} {old new : List (StoredRow ρ)}

section
variable (touched : Touched s s' key old new)
include touched

/-- The records of other index values are as before. -/
theorem Touched.mem_iff (ne : r.key ≠ key) : r ∈ records s'.root ↔ r ∈ records s.root := by
  obtain ⟨before, after, rest, perm, perm', -, -, keys, -⟩ := touched.split
  rw [perm.mem_iff, perm'.mem_iff, mem_append, mem_append]
  refine or_congr_left ⟨fun mem => ?_, fun mem => ?_⟩
  · exact absurd (keys r (mem_append_right _ mem)) ne
  · exact absurd (keys r (mem_append_left _ mem)) ne

/-- Only the rows of the record count in the difference. -/
theorem Touched.exchange : s'.rows + old = s.rows + new := by
  obtain ⟨before, after, rest, perm, perm', rfl, rfl, -, -⟩ := touched.split
  have split : s.rows = storedRows before + storedRows rest := by
    rw [TreeData.rows, Multiset.coe_add, ← storedRows_append, Multiset.coe_eq_coe]
    exact perm.flatMap_right _
  have split' : s'.rows = storedRows after + storedRows rest := by
    rw [TreeData.rows, Multiset.coe_add, ← storedRows_append, Multiset.coe_eq_coe]
    exact perm'.flatMap_right _
  rw [split, split']
  abel

end

end Touched

/-- No record is empty. -/
def TreeData.Filled (s : TreeData ρ K) : Prop := ∀ r ∈ records s.root, r.rows ≠ []

theorem length_le_storedRows (filled : ∀ r ∈ rs, r.rows ≠ []) :
    rs.length ≤ (storedRows rs).length := by
  induction rs with
  | nil => exact Nat.le_refl 0
  | cons r rs ih =>
    have here := length_pos_of_ne_nil (filled r mem_cons_self)
    have rest := ih fun q mem => filled q (mem_cons_of_mem _ mem)
    rw [storedRows_cons, length_append, length_cons]
    omega

section Keys
variable [LinearOrder K] {t : TreeTable ρ K} {o : t.Ordered} {s s' s'' : TreeData ρ K} {key : K}
  {old mid new : List (StoredRow ρ)}

/-- A step that leaves the records alone. -/
theorem Touched.idle (root : s'.root = s.root) (key : K) : ∃ old, Touched s s' key old old := by
  have perm : (records s.root).Perm ((records s.root).filter (fun r => r.key = key) ++
      (records s.root).filter fun r => !decide (r.key = key)) :=
    (filter_append_perm _ _).symm
  refine ⟨_, _, _, _, perm, root ▸ perm, rfl, rfl, ?_, ?_⟩
  · intro r mem
    rcases mem_append.mp mem with mem | mem <;> exact of_decide_eq_true (mem_filter.mp mem).2
  · intro r mem same
    have := (mem_filter.mp mem).2
    simp [same] at this

/-- Two steps at one index value. -/
theorem Touched.trans (first : Touched s s' key old mid) (second : Touched s' s'' key mid new) :
    Touched s s'' key old new := by
  obtain ⟨before, between, rest, perm, perm', rows, -, keys, others⟩ := first.split
  obtain ⟨between', after, rest', perm₂, perm₂', -, rows', keys', others'⟩ := second.split
  have same : rest.Perm rest' := by
    have cut := (perm'.symm.trans perm₂).filter fun r => !decide (r.key = key)
    have none : ∀ rs : List (RowChunk ρ K), (∀ r ∈ rs, r.key = key) →
        rs.filter (fun r => !decide (r.key = key)) = [] := fun rs all =>
      filter_eq_nil_iff.mpr fun r mem => by simp [all r mem]
    have whole : ∀ rs : List (RowChunk ρ K), (∀ r ∈ rs, r.key ≠ key) →
        rs.filter (fun r => !decide (r.key = key)) = rs := fun rs all =>
      filter_eq_self.mpr fun r mem => by simp [all r mem]
    rwa [filter_append, filter_append, whole rest others, whole rest' others',
      none between fun r mem => keys r (mem_append_right _ mem),
      none between' fun r mem => keys' r (mem_append_left _ mem), nil_append, nil_append] at cut
  refine ⟨before, after, rest', perm.trans (same.append_left _), perm₂', rows, rows', ?_, others'⟩
  intro r mem
  rcases mem_append.mp mem with mem | mem
  · exact keys r (mem_append_left _ mem)
  · exact keys' r (mem_append_right _ mem)

/-- The record of the index value has the new rows. -/
theorem Touched.rows_eq (touched : Touched s s' key old new) (good : s'.Good o)
    (mem : r ∈ records s'.root) (same : r.key = key) : r.rows = new := by
  obtain ⟨before, after, rest, -, perm, -, rows, keys, others⟩ := touched.split
  have inside : r ∈ after := by
    rcases mem_append.mp (perm.mem_iff.mp mem) with mem | mem
    · exact mem
    · exact absurd same (others r mem)
  have single : after = [r] := by
    obtain ⟨front, back, split⟩ := append_of_mem inside
    have apart : ∀ q ∈ front ++ back ++ rest, q.key ≠ r.key := by
      intro q hq
      refine good.wellFormed.sorted.key_ne_of_perm (perm.trans ?_).symm hq
      rw [split, append_assoc, append_assoc]
      exact perm_middle
    have none : front ++ back = [] := by
      refine eq_nil_iff_forall_not_mem.mpr fun q hq => ?_
      refine apart q (mem_append_left _ hq) ((keys q (mem_append_right _ ?_)).trans same.symm)
      rw [split]
      exact perm_middle.mem_iff.mpr (mem_cons_of_mem _ hq)
    obtain ⟨rfl, rfl⟩ := append_eq_nil_iff.mp none
    exact split
  rw [← rows, single]
  simp

/-- A step that leaves rows at its index value keeps the records filled. -/
theorem Touched.filled (touched : Touched s s' key old new) (good : s'.Good o) (filled : s.Filled)
    (some : new ≠ []) : s'.Filled := by
  intro r mem
  by_cases same : r.key = key
  · rwa [touched.rows_eq good mem same]
  · exact filled r ((touched.mem_iff same).mp mem)

end Keys

end Dtc.Tree
