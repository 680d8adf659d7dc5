import Dtc.Raw.RawData

/-!
# The comparison of rows

`RowValue::Compare` compares two rows in some fields, by the types that the table gives them. Texts
are compared without regard to case and up to a zero byte, and two floats are never the same. It
reads the members of the `DTCValue` union that the type selects: the eight bytes of a number, or the
bytes of a text.
-/

namespace Dtc.Raw

/-- `INTERNAL_TO_LOWER` -/
def internalToLower (c : UInt8) : UInt8 := if 65 ≤ c ∧ c ≤ 90 then c + 32 else c

/-- `mystrcmp` on two texts of one length. -/
def mystrcmp : List UInt8 → List UInt8 → Int
  | a :: as, b :: bs =>
    let result : Int := (internalToLower a).toNat - (internalToLower b).toNat
    if result ≠ 0 then result else if a = 0 then 0 else mystrcmp as bs
  | _, _ => 0

/-- `string_equal` -/
def stringEqual (a b : List UInt8) : Bool := a.length == b.length && mystrcmp a b == 0

/-- The number and the bytes of a value. -/
abbrev Content := BitVec 64 × List UInt8

/-- A field in `RowValue::Compare`; `binary_equal` compares lengths and bytes. -/
def compareField (type : DField) (a b : Content) : Int :=
  match type with
  | .signed | .unsigned => if a.1 = b.1 then 0 else -1
  | .float => -2
  | .string => if stringEqual a.2 b.2 then 0 else -1
  | .binary => if a.2 = b.2 then 0 else -1
  | .none => -3

/-- `RowValue::Compare` over a list of fields. -/
def compareFields (type : Nat → DField) (a b : Nat → Content) : List Nat → Int
  | [] => 0
  | id :: ids =>
    let result := compareField (type id) (a id) (b id)
    if result = 0 then compareFields type a b ids else result

theorem mystrcmp_self (bytes : List UInt8) : mystrcmp bytes bytes = 0 := by
  induction bytes with
  | nil => rfl
  | cons c bytes ih =>
    rw [mystrcmp, sub_self, if_neg (not_not.mpr rfl)]
    split_ifs
    · rfl
    · exact ih

/-- A value is the same as itself, unless it is a float. -/
theorem compareField_self {type : DField} (a : Content) :
    compareField type a a = 0 ↔ type ≠ .float ∧ type ≠ .none := by
  unfold compareField
  cases type <;> simp [stringEqual, mystrcmp_self]

theorem compareFields_eq_zero {type : Nat → DField} {a b : Nat → Content} {ids : List Nat} :
    compareFields type a b ids = 0 ↔ ∀ id ∈ ids, compareField (type id) (a id) (b id) = 0 := by
  induction ids with
  | nil => simp [compareFields]
  | cons id ids ih =>
    rw [compareFields, List.forall_mem_cons, ← ih]
    split_ifs with same
    · simp [same]
    · simp [same]

end Dtc.Raw
