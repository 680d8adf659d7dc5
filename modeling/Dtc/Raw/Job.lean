import Dtc.Field.Update
import Dtc.Raw.Format
import Dtc.Tree.Filter

/-!
# What a request asks of a row

A request has conditions, which `compare_row` tests, and operations, which `update_row` applies
after it has set the time stamps. Both are lists of entries for fields of the table.
-/

namespace Dtc.Raw

open List

/-- The conditions and operations of a request. A condition that is tested is on a field that is
stored: what a discard field holds in the variable of a loop comes from an earlier row. -/
structure RowJob (t : TableDefinition) where
  platform : Tree.Platform
  floats : Field.FloatArithmetic
  allRows : Bool
  conditionInfo : List Tree.FieldValue
  /-- the fields that hold a time stamp of the request -/
  timestampFields : List Nat
  timestamp : BitVec 32
  updateInfo : List Field.FieldValue
  stored : ∀ fv ∈ conditionInfo, t.keyFields ≤ fv.id → fv.id ∈ storedFields t (t.keyFields - 1)

/-- `update_timestamp` -/
def updateTimestamp (now : BitVec 32) : List Nat → RowValue → RowValue
  | [], row => row
  | id :: ids, row =>
    updateTimestamp now ids (Function.update row id { row id with num := now.setWidth 64 })

section Job
variable {t : TableDefinition}

/-- `compare_row` -/
def RowJob.compareRow (job : RowJob t) (row : RowValue) : Bool :=
  job.allRows || Tree.fieldValueCompare job.platform t 256 row job.conditionInfo

/-- `update_row` -/
def RowJob.updateRow (job : RowJob t) (row : RowValue) : RowValue :=
  Field.update job.floats t job.updateInfo (updateTimestamp job.timestamp job.timestampFields row)

/-! ### Only stored fields matter -/

variable {f : FieldDefinition} {v w : DTCValue} {a b : RowValue}

theorem compareValues_congr (same : f.member v = f.member w) (p : Tree.Platform) (type : DField)
    (oper : Tree.Comparison) (x : DTCValue) :
    Tree.compareValues p f.fieldType type oper v x = Tree.compareValues p f.fieldType type oper w x := by
  unfold FieldDefinition.member at same
  unfold Tree.compareValues Tree.binaryEqual
  cases kind : f.fieldType with
  | signed | unsigned =>
    rw [kind] at same
    have num := FieldValue.num.inj same
    cases type <;> cases oper <;> simp only [Tree.compareS64, num]
  | string | binary =>
    rw [kind] at same
    have bin := FieldValue.bin.inj same
    cases type <;> simp only [bin]
  | float | none => cases type <;> rfl

theorem updateValue_congr (same : f.member v = f.member w) (fl : Field.FloatArithmetic)
    (type : DField) (oper : Field.Operation) (x : DTCValue) :
    f.member (Field.updateValue fl f type oper v x) =
      f.member (Field.updateValue fl f type oper w x) := by
  unfold FieldDefinition.member at same ⊢
  unfold Field.updateValue
  cases kind : f.fieldType with
  | signed | unsigned | float =>
    rw [kind] at same
    have num := FieldValue.num.inj same
    cases type <;> cases oper <;> simp only [num]
  | string | binary | none =>
    rw [kind] at same
    have bin := FieldValue.bin.inj same
    cases type <;> cases oper <;> simp only [bin]

variable (view : rowView t (t.keyFields - 1) a = rowView t (t.keyFields - 1) b)
include view

theorem rowView_update {id : Nat} {v w : DTCValue} (same : id ∈ storedFields t (t.keyFields - 1) →
      (t.field id).member v = (t.field id).member w) :
    rowView t (t.keyFields - 1) (Function.update a id v) =
      rowView t (t.keyFields - 1) (Function.update b id w) := by
  refine map_congr_left fun j stored => ?_
  by_cases here : j = id
  · rw [here, Function.update_self, Function.update_self]
    exact same (here ▸ stored)
  · rw [Function.update_of_ne here, Function.update_of_ne here]
    exact map_inj_left.mp view j stored

theorem rowView_updateTimestamp (now : BitVec 32) (ids : List Nat) :
    rowView t (t.keyFields - 1) (updateTimestamp now ids a) =
      rowView t (t.keyFields - 1) (updateTimestamp now ids b) := by
  induction ids generalizing a b with
  | nil => exact view
  | cons id ids ih =>
    refine ih (rowView_update view fun stored => ?_)
    have same := map_inj_left.mp view id stored
    unfold FieldDefinition.member at same ⊢
    cases kind : (t.field id).fieldType with
    | signed | unsigned | float => rfl
    | string | binary | none =>
      rw [kind] at same
      exact same

theorem RowJob.updateRow_congr (job : RowJob t) :
    rowView t (t.keyFields - 1) (job.updateRow a) = rowView t (t.keyFields - 1) (job.updateRow b) := by
  have stamped := rowView_updateTimestamp view job.timestamp job.timestampFields
  unfold RowJob.updateRow
  generalize updateTimestamp job.timestamp job.timestampFields a = a at stamped
  generalize updateTimestamp job.timestamp job.timestampFields b = b at stamped
  generalize job.updateInfo = entries
  induction entries generalizing a b with
  | nil => exact stamped
  | cons fv entries ih =>
    refine ih _ _ (rowView_update stamped fun stored => ?_)
    exact updateValue_congr (map_inj_left.mp stamped fv.id stored) _ _ _ _

theorem RowJob.compareRow_congr (job : RowJob t) : job.compareRow a = job.compareRow b := by
  have stored := job.stored
  unfold RowJob.compareRow
  refine congrArg (job.allRows || ·) ?_
  generalize job.conditionInfo = entries at stored
  induction entries with
  | nil => rfl
  | cons fv entries ih =>
    have rest := ih fun fv mem => stored fv (mem_cons_of_mem _ mem)
    rw [Tree.fieldValueCompare, Tree.fieldValueCompare, rest]
    split_ifs with skipped first second second
    · rfl
    · rfl
    · exact absurd ((compareValues_congr (map_inj_left.mp view fv.id
        (stored fv mem_cons_self (by omega))) _ _ _ _).symm.trans first) second
    · exact absurd ((compareValues_congr (map_inj_left.mp view fv.id
        (stored fv mem_cons_self (by omega))) _ _ _ _).trans second) first
    · rfl

end Job

end Dtc.Raw
