import Dtc.Tree.Update

/-!
# Deletions and replacements in tree data

`delete_sub_raw_data` goes through the rows of one record and deletes those that meet the
conditions; a record without rows is removed from the tree. `replace_tree_data` looks for
a row with the unique fields of the new row and writes it over or moves it.
-/

namespace Dtc.Tree

open Library List TreeData

variable {ρ K : Type} {t : TreeTable ρ K} {s s' : TreeData ρ K}

variable {pos : Nat}

section Loop
variable {compareRow : ρ → Bool} {r : RowChunk ρ K} {hRecord iAffectRows : Nat} {curRow : Option ρ}

variable {total : Nat} {ret : Int}

/-- What comes behind the loop is as in an update that has moved the rows away. -/
theorem deleteRows_zero [Inhabited K] (le : iAffectRows ≤ total) :
    deleteRows t compareRow hRecord total 0 pos iAffectRows curRow s =
      finishUpdate t total ⟨hRecord, pos, iAffectRows, iAffectRows, curRow⟩ s := by
  unfold deleteRows finishUpdate
  cases s.chunkAt hRecord with
  | none => rfl
  | some r =>
    simp only [Option.bind_eq_bind, Option.bind_some, if_neg (not_lt.mpr le), ne_eq,
      not_true_eq_false, if_false, and_comm (a := 0 < total)]
    split_ifs with all
    · cases curRow with
      | none => rfl
      | some row =>
        simp only [Option.map_some, Option.bind_some]
        split_ifs with ok
        · rw [← ok]
          rfl
        · rfl
    · rfl

variable [LinearOrder K] {o : t.Ordered}

variable [Inhabited K]

/-- The loop, from any round on. -/
theorem deleteRows_good {n : Nat}
    (working : Working o total n ⟨hRecord, pos, iAffectRows, iAffectRows, curRow⟩ s r)
    (call : deleteRows t compareRow hRecord total n pos iAffectRows curRow s = some (ret, s')) :
    s'.Good o ∧ s'.Filled := by
  induction n generalizing pos iAffectRows curRow s r with
  | zero =>
    have le : iAffectRows ≤ total := Nat.le.intro (by rw [Nat.add_comm]; exact working.gone)
    rw [deleteRows_zero le] at call
    exact finishUpdate_good working call
  | succ n ih =>
    obtain ⟨old, at_⟩ := working.current
    have found : s.chunkAt hRecord = some r := working.chunkAt
    rw [deleteRows] at call
    simp only [found, Option.bind_eq_bind, Option.bind_some, at_] at call
    by_cases matched : compareRow old.row = true
    · have filled := working.filled (ne_nil_of_mem (mem_of_getElem? at_))
      obtain ⟨s₁, deleted, next⟩ :=
        working.erase at_ working.good filled working.mem (working.index_eq at_)
      simp only [if_pos matched, deleted, ne_eq, not_true_eq_false, if_false] at call
      exact ih (next.counters _ _ _) call
    · rw [if_neg matched] at call
      exact ih (working.skip working.good working.mem working.handle working.others rfl rfl
        (working.index_eq at_)) call

theorem deleteSubRawData_good (good : s.Good o) (filled : s.Filled)
    (call : s.deleteSubRawData t compareRow hRecord = some (ret, s')) :
    s'.Good o ∧ s'.Filled := by
  unfold deleteSubRawData at call
  cases found : s.chunkAt hRecord with
  | none =>
    rw [found] at call
    exact nomatch call
  | some r =>
    rw [found] at call
    exact deleteRows_good (Working.start good filled found) call

end Loop

section Replace
variable [LinearOrder K] [Inhabited K] {o : t.Ordered} {alloc : Allocator} {row : ρ}

/-- A row found by `compare_tree_data`. -/
theorem compareTreeData_some (good : s.Good o) {r : RowChunk ρ K}
    (found : s.compareTreeData t row = some (r, pos)) :
    r ∈ records s.root ∧ ∃ old, r.rows[pos]? = some old ∧ t.sameUniq row old.row = true := by
  have here : ∀ q, sameRow t row q = some (r, pos) →
      q = r ∧ ∃ old, r.rows[pos]? = some old ∧ t.sameUniq row old.row = true := by
    intro q hit
    obtain ⟨i, index, same⟩ := Option.map_eq_some_iff.mp hit
    obtain ⟨rfl, rfl⟩ := Prod.mk.inj same
    obtain ⟨inside, holds, -⟩ := findIdx?_eq_some_iff_getElem.mp index
    exact ⟨rfl, _, getElem?_eq_getElem inside, holds⟩
  unfold compareTreeData at found
  split_ifs at found with none part
  · obtain ⟨q, hit, same⟩ := Option.bind_eq_some_iff.mp found
    obtain ⟨rfl, rest⟩ := here q same
    exact ⟨((good.doFind _).mp hit).1, rest⟩
  · obtain ⟨q, mem, same⟩ := exists_of_findSome?_eq_some found
    obtain ⟨rfl, rest⟩ := here q same
    exact ⟨mem, rest⟩

/-- The old row is deleted after the new one has been inserted under another index value. -/
theorem replaceMoved {r : RowChunk ρ K} {old x : StoredRow ρ} (good : s.Good o)
    (mem : r ∈ records s.root) (at_ : r.rows[pos]? = some old) (other : t.index x.row ≠ r.key)
    (inserted : Inserted o s s' x 0) :
    s'.chunkAt r.handle = some r ∧ ∃ s'',
      (if r.rows.length = 1 ∧ (s'.deleteCurRow t r pos).1 = 0 then
        (s'.deleteCurRow t r pos).2.dropChunk t (t.index old.row) r.chunkSize
      else (0, (s'.deleteCurRow t r pos).2)) = (0, s'') ∧ s''.Good o ∧ s''.Filled := by
  obtain ⟨inside, -⟩ := List.getElem?_eq_some_iff.mp at_
  have index := (good.keeps.chunks r mem).same old (mem_of_getElem? at_)
  have mem' := inserted.mem_of_ne mem other
  obtain ⟨s₁, call, good₁, erased, mem₁⟩ := deleteCurRow_spec inserted.good mem' at_
  refine ⟨(chunkAt_eq_some_iff inserted.good.keeps.handles).mpr ⟨mem', rfl⟩, ?_⟩
  rw [call, index]
  have others : ∀ q ∈ records s₁.root, q.key ≠ r.key → q.rows ≠ [] := fun q hq ne =>
    inserted.filled q ((erased.mem_iff ne).mp hq)
  by_cases single : r.rows.length = 1
  · rw [if_pos ⟨single, rfl⟩]
    have empty : r.rows.eraseIdx pos = [] :=
      eq_nil_of_length_eq_zero (by rw [length_eraseIdx_of_lt inside, single])
    obtain ⟨s₂, dropped, good₂, touched₂, apart⟩ := dropChunk_spec good₁ mem₁ empty
    refine ⟨s₂, dropped, good₂, ?_⟩
    intro q hq
    exact others q ((touched₂.mem_iff (apart q hq)).mp hq) (apart q hq)
  · rw [if_neg fun both => single both.1]
    refine ⟨s₁, rfl, good₁, ?_⟩
    intro q hq
    by_cases same : q.key = r.key
    · rw [erased.rows_eq good₁ hq same]
      exact ne_nil_of_length_pos (by rw [length_eraseIdx_of_lt inside]; omega)
    · exact others q hq same

theorem replaceTreeData_good (good : s.Good o) (filled : s.Filled) {mAsync : Bool} {ret : Int}
    {flag : Option UInt8} (call : s.replaceTreeData t alloc row mAsync = some ((ret, flag), s')) :
    s'.Good o ∧ s'.Filled := by
  unfold replaceTreeData at call
  extract_lets s₀ inserted s₁ at call
  have good₀ : s₀.Good o := good.counters 0 _ _
  have filled₀ : s₀.Filled := filled
  rw [show s₀.compareTreeData t row = s.compareTreeData t row from rfl] at call
  cases found : s.compareTreeData t row with
  | none =>
    rw [found] at call
    obtain ⟨rfl, rfl, rfl⟩ := answer_inj call
    exact ⟨good₀, filled₀⟩
  | some place =>
    obtain ⟨r, pos⟩ := place
    obtain ⟨mem, old, at_, -⟩ := compareTreeData_some good found
    rw [found] at call
    dsimp only at call
    by_cases moves : t.keyCompare (t.index row) r.key ≠ 0
    · rw [if_pos moves] at call
      have other : t.index row ≠ r.key := o.keyCompare_eq_zero.not.mp moves
      have insertion : Inserted o s₀ s₁ _ inserted.1 := insertRow_spec good₀ filled₀ row mAsync
      clear_value inserted s₁
      generalize inserted.1 = ret' at call insertion
      by_cases noMem : ret' = ecNoMem
      · rw [if_pos noMem] at call
        obtain ⟨rfl, rfl, rfl⟩ := answer_inj call
        exact ⟨insertion.good, insertion.filled⟩
      · rw [if_neg noMem] at call
        by_cases ok : ret' = 0
        · subst ok
          obtain ⟨there, s₂, dropped, good₂, filled₂⟩ := replaceMoved good₀ mem at_ other insertion
          simp only [if_true, there, Option.bind_eq_bind, Option.bind_some, at_, dropped, ne_eq,
            not_true_eq_false, if_false] at call
          obtain ⟨rfl, rfl, rfl⟩ := answer_inj call
          exact ⟨good₂.counters 2 _ _, filled₂⟩
        · rw [if_neg ok] at call
          obtain ⟨rfl, rfl, rfl⟩ := answer_inj call
          exact ⟨insertion.good.counters 2 _ _, insertion.filled⟩
    · rw [if_neg moves] at call
      have same : t.index row = r.key := o.keyCompare_eq_zero.mp (not_not.mp moves)
      have slot : Ttree.doFind t.comparator s₀.root (t.index row) = some r :=
        (good.doFind _).mpr ⟨mem, same.symm⟩
      rw [slot] at call
      cases replaced : s₀.replaceCurRow t alloc r pos row mAsync with
      | none =>
        simp only [replaced] at call
        exact nomatch call
      | some answer =>
        obtain ⟨⟨ret', r'⟩, s₂⟩ := answer
        simp only [replaced, Option.bind_eq_bind, Option.bind_some] at call
        have step := replaceCurRow_spec good₀ mem at_ same replaced
        have filled₂ : s₂.Filled := by
          refine step.touched.filled step.good filled₀ ?_
          rcases step.outcome with ⟨-, rows⟩ | ⟨-, rows⟩
          · rw [rows]
            exact fun none => filled r mem ((set_eq_nil_iff _ _).mp none)
          · rw [rows]
            exact filled r mem
        rcases step.outcome with ⟨rfl, -⟩ | ⟨rfl, -⟩
        · obtain ⟨rfl, rfl, rfl⟩ := answer_inj call
          exact ⟨step.good.counters 2 _ _, filled₂⟩
        · obtain ⟨rfl, rfl, rfl⟩ := answer_inj call
          exact ⟨step.good, filled₂⟩

end Replace

end Dtc.Tree
