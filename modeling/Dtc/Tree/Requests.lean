import Dtc.Tree.Edits

/-!
# The rows of a copy

What `copy_tree_all` leaves in a node: all rows, or none where the memory has run out.
-/

namespace Dtc.Tree

open Library TreeData Multiset
open Raw (operSelect)

section Calls
variable {ρ K : Type} [LinearOrder K] [Inhabited K] {t : TreeTable ρ K} {o : t.Ordered}
  {alloc : Allocator} {s : TreeData ρ K}

omit [Inhabited K] in
/-- A node with rows has records. -/
theorem TreeData.Good.nodeCount_ne_zero (good : s.Good o) (filled : s.Filled)
    (few : s.rows.card < 2 ^ 32) (some : s.rows ≠ 0) : s.nodeCount ≠ 0 := by
  intro empty
  have count := good.keeps.nodeCount
  have le : (records s.root).length ≤ s.rows.card := length_le_storedRows filled
  rw [empty, Nat.mod_eq_of_lt (by omega)] at count
  exact some (by rw [rows, List.eq_nil_of_length_eq_zero count.symm]; rfl)

/-- Rows as they come from the database. -/
def cleanRows (rows : List ρ) : Multiset (StoredRow ρ) := rows.map (StoredRow.mk operSelect)

omit [LinearOrder K] [Inhabited K] in
theorem cleanRows_cons (row : ρ) (rows : List ρ) :
    cleanRows (row :: rows) = {⟨operSelect, row⟩} + cleanRows rows := rfl

/-- The sizes of all rows in one record fit 32 bits. -/
def Spacious (t : TreeTable ρ K) (rows : Multiset (StoredRow ρ)) (new : List ρ) : Prop :=
  recordHead + (rows.map fun x => t.rowSize x.row).sum + (new.map t.rowSize).sum < 2 ^ 32

omit [LinearOrder K] [Inhabited K] in
theorem rowsSize_eq : t.rowsSize (storedRows (records s.root)) =
    (s.rows.map fun x => t.rowSize x.row).sum := rfl

/-- Where there is room for all rows, an insertion fails for want of memory only. -/
theorem Spacious.insertRow {row : ρ} {rows : List ρ} (good : s.Good o) (filled : s.Filled)
    (spacious : Spacious t s.rows (row :: rows)) (memory : (s.insertRow t alloc row false).1 ≠ ecNoMem) :
    (s.insertRow t alloc row false).1 = 0 ∧ Spacious t (s.insertRow t alloc row false).2.rows rows := by
  have inserted : Inserted o s (s.insertRow t alloc row false).2 _ _ :=
    insertRow_spec good filled row false
  unfold Spacious at spacious
  rw [List.map_cons, List.sum_cons] at spacious
  have ok : (s.insertRow t alloc row false).1 = 0 := by
    rcases inserted.outcome with ok | refused | ⟨-, big⟩
    · exact ok
    · exact absurd refused memory
    · rw [rowsSize_eq] at big
      dsimp only at big
      omega
  have rows' := inserted.rows
  rw [if_pos ok] at rows'
  refine ⟨ok, ?_⟩
  rw [Spacious, rows', map_add, sum_add, map_singleton, sum_singleton]
  dsimp only
  omega

/-- A copy that succeeds has all rows. -/
theorem copyTreeAll_ok (alloc : Allocator) {rows : List ρ} (good : s.Good o) (filled : s.Filled)
    (spacious : Spacious t s.rows rows) :
    (copyTreeAll t alloc rows s).1 = 0 ∧
        (copyTreeAll t alloc rows s).2.rows = s.rows + cleanRows rows ∨
      (copyTreeAll t alloc rows s).1 = ecNoMem ∧ (copyTreeAll t alloc rows s).2.rows = 0 := by
  induction rows generalizing s with
  | nil => exact .inl ⟨rfl, (add_zero _).symm⟩
  | cons row rows ih =>
    have inserted : Inserted o s (s.insertRow t alloc row false).2 _ _ :=
      insertRow_spec good filled row false
    rw [copyTreeAll]
    by_cases noMem : (s.insertRow t alloc row false).1 = ecNoMem
    · rw [if_pos noMem]
      exact .inr ⟨rfl, rfl⟩
    · rw [if_neg noMem]
      obtain ⟨ok, next⟩ := spacious.insertRow good filled noMem
      have rows' := inserted.rows
      rw [if_pos ok] at rows'
      rw [cleanRows_cons, ← add_assoc]
      have rest := ih inserted.good inserted.filled next
      rwa [rows'] at rest

end Calls

end Dtc.Tree
