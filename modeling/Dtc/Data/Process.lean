import Mathlib

/-!
# Requests on the data of a node

`DataProcess` is what flat data and tree data have in common: an operation works on the data
of one node and reports through `rows_count_` and `dirty_rows_count_` what the node has
gained. A flag byte stands in front of each row.
-/

namespace Dtc

/-- `OPER_DIRTY`. -/
def operDirty : UInt8 := 0x02

/-- The flag of a row that is to be written to the database. -/
def isDirty (flag : UInt8) : Bool := flag &&& operDirty ≠ 0

/-- 1 for the flag of a row that is to be written to the database. -/
def dirtyOne (flag : UInt8) : Int := if flag &&& operDirty ≠ 0 then 1 else 0

/-- What a call leaves behind: the return value, `affected_rows` of the result, the two
deltas, and the data. -/
structure Served (σ : Type) where
  ret : Int
  affectedRows : Nat
  rowsCount : Int
  dirtyRowsCount : Int
  data : σ

end Dtc
