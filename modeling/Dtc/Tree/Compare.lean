import Dtc.Raw.Format
import Dtc.Tree.Order

/-!
# The comparison of index values

`KeyCompare` subtracts the index value in the first row of a record from a given value.
The two are read in the width of the index field and subtracted in 64 bits; the callers
in the T-tree keep the result in an `int`. The last step loses the sign of differences
that do not fit 32 bits, among them differences of two values of a four-byte field.

A record begins with its type byte, the size of its data and its number of rows; the
flag byte of the first row comes next, then the index field.
-/

namespace Dtc.Tree

open Library Memory Raw.RawData
open Raw (DField FieldDefinition DTCValue DTCBinary FloatFormat nil_short)

/-- What the comparison of other than integer fields takes from the platform: the two
comparisons of byte strings of one length, and the difference of two doubles as
`int64_t`, which is 0 for values closer than 0.0001. -/
structure Platform where
  strncasecmp : List UInt8 → List UInt8 → Int
  memcmp : List UInt8 → List UInt8 → Int
  floatDiff : BitVec 64 → BitVec 64 → Int
  floatFormat : FloatFormat

/-- `sizeof(unsigned char) * 2 + 2 * sizeof(uint32_t)`. -/
def keyOffset : Nat := 1 * 2 + 2 * 4

section Model
variable (f : FieldDefinition) (record : Nat → UInt8)

/-- `GET_KEY` of a signed field. -/
def storedSigned : Int :=
  if 4 < f.fieldSize then (BitVec.ofNat 64 (load record keyOffset 8)).toInt
  else (BitVec.ofNat 32 (load record keyOffset 4)).toInt

/-- `GET_KEY` of an unsigned field. -/
def storedUnsigned : Nat :=
  if 4 < f.fieldSize then load record keyOffset 8 else load record keyOffset 4

/-- The comparison of byte strings: the shorter one decides the compared length, and then
is the smaller one. -/
def compareBytes (compare : List UInt8 → List UInt8 → Int) (key : List UInt8) : Int :=
  let tKeyLen := load record keyOffset 4
  if key.length = 0 ∧ tKeyLen = 0 then 0
  else if key.length = 0 then -1
  else if tKeyLen = 0 then 1
  else
    let len := min key.length tKeyLen
    let res := compare (key.take len) (slice record (keyOffset + 4) len)
    if key.length = tKeyLen then res
    else if res = 0 then if tKeyLen < key.length then 1 else -1
    else res

/-- `KeyCompare`. -/
def keyCompareField (p : Platform) (value : DTCValue) : Int :=
  match f.fieldType with
  | .signed => (value.num.toInt - storedSigned f record).bmod (2 ^ 64)
  | .unsigned => (value.num.toNat - storedUnsigned f record : Int).bmod (2 ^ 64)
  | .float =>
    p.floatDiff value.num
      (if 4 < f.fieldSize then .ofNat 64 (load record keyOffset 8)
      else p.floatFormat.widen (.ofNat 32 (load record keyOffset 4)))
  | .string => compareBytes record p.strncasecmp value.bin.1
  | .binary => compareBytes record p.memcmp value.bin.1
  | .none => 0

/-- `convert_cvalue`. A negative length selects no bytes. -/
def convertCvalue (p : Platform) : DTCValue :=
  let len := load record keyOffset 4
  let bin : DTCBinary :=
    if h : len < 2 ^ 31 then ⟨slice record (keyOffset + 4) len, by rwa [length_slice]⟩
    else ⟨[], nil_short⟩
  match f.fieldType with
  | .signed => ⟨.ofInt 64 (storedSigned f record), ⟨[], nil_short⟩⟩
  | .unsigned => ⟨.ofNat 64 (storedUnsigned f record), ⟨[], nil_short⟩⟩
  | .float =>
    ⟨if 4 < f.fieldSize then .ofNat 64 (load record keyOffset 8)
      else p.floatFormat.widen (.ofNat 32 (load record keyOffset 4)), ⟨[], nil_short⟩⟩
  | .string | .binary => ⟨0, bin⟩
  | .none => ⟨0, ⟨[], nil_short⟩⟩

/-- The comparator of a table with an index field. -/
def indexComparator (p : Platform) : KeyComparator DTCValue (Nat → UInt8) where
  pfComp value record := keyCompareField f record p value
  convertCvalue record := convertCvalue f record p

end Model

/-! ### Integer fields -/

/-- The number that a value of an integer field stands for. -/
def intValue (f : FieldDefinition) (v : DTCValue) : Int :=
  match f.fieldType with
  | .signed => v.num.toInt
  | _ => v.num.toNat

/-- An integer field of a legal size. -/
structure IsInteger (f : FieldDefinition) : Prop where
  type : f.fieldType = .signed ∨ f.fieldType = .unsigned
  pos : 1 ≤ f.fieldSize
  le : f.fieldSize ≤ 8

/-- The numbers of an integer field by its size in bytes. -/
def InField (f : FieldDefinition) (x : Int) : Prop :=
  match f.fieldType with
  | .signed => -2 ^ (8 * f.fieldSize - 1) ≤ x ∧ x < 2 ^ (8 * f.fieldSize - 1)
  | _ => 0 ≤ x ∧ x < 2 ^ (8 * f.fieldSize)

instance (x : Int) : ∀ f : FieldDefinition, Decidable (InField f x)
  | ⟨.signed, size, _⟩ =>
    inferInstanceAs (Decidable (-2 ^ (8 * size - 1) ≤ x ∧ x < 2 ^ (8 * size - 1)))
  | ⟨.unsigned, size, _⟩ | ⟨.float, size, _⟩ | ⟨.string, size, _⟩ | ⟨.binary, size, _⟩
  | ⟨.none, size, _⟩ => inferInstanceAs (Decidable (0 ≤ x ∧ x < 2 ^ (8 * size)))

/-- The lower 32 bits of the difference have its sign. -/
def SignKept (a b : Int) : Prop :=
  a = b ∨ b < a ∧ 0 < (a - b) % 2 ^ 32 ∧ (a - b) % 2 ^ 32 < 2 ^ 31 ∨
    a < b ∧ 0 < (b - a) % 2 ^ 32 ∧ (b - a) % 2 ^ 32 ≤ 2 ^ 31

theorem sign_bmod_iff (a b : Int) : ((a - b).bmod (2 ^ 32)).sign = (a - b).sign ↔ SignKept a b := by
  unfold SignKept
  rw [Int.bmod_def]
  rcases lt_trichotomy a b with lt | rfl | gt
  · rw [Int.sign_eq_neg_one_of_neg (show a - b < 0 by omega), Int.sign_eq_neg_one_iff_neg]
    split_ifs <;> omega
  · simp
  · rw [Int.sign_eq_one_of_pos (show 0 < a - b by omega), Int.sign_eq_one_iff_pos]
    split_ifs <;> omega

section Stored
variable {f : FieldDefinition} {record : Nat → UInt8} {p : Platform} {value stored : DTCValue}

section
variable (field : InField f (intValue f stored))
  (holds : Holds record keyOffset (fieldBytes p.floatFormat f stored))

include field holds

theorem storedSigned_eq (signed : f.fieldType = .signed) :
    storedSigned f record = stored.num.toInt := by
  simp only [InField, intValue, signed] at field
  simp only [fieldBytes, signed] at holds
  unfold storedSigned
  split_ifs at holds ⊢ with wide
  · rw [load, show 8 = (leBytes 8 stored.num.toNat).length by simp, holds,
      leNat_leBytes_of_lt stored.num.isLt, BitVec.ofNat_toNat, BitVec.setWidth_eq]
  · have bytes : 8 * f.fieldSize - 1 ≤ 31 := by omega
    have bound : (2 : Int) ^ (8 * f.fieldSize - 1) ≤ 2 ^ 31 :=
      pow_le_pow_right₀ (by decide) bytes
    have low : BitVec.ofNat 32 (leNat (leBytes 4 stored.num.toNat)) =
        stored.num.setWidth 32 := by
      rw [leNat_leBytes]
      apply BitVec.eq_of_toNat_eq
      exact Nat.mod_mod _ _
    have narrowed : (stored.num.toNat : Int).bmod (2 ^ 32) = stored.num.toInt.bmod (2 ^ 32) := by
      rw [BitVec.toInt_eq_toNat_bmod, Int.bmod_bmod_of_dvd (Nat.pow_dvd_pow 2 (by decide))]
    rw [load, show 4 = (leBytes 4 stored.num.toNat).length by simp, holds, low,
      BitVec.toInt_setWidth, narrowed]
    exact Int.bmod_eq_of_le (by omega) (by omega)

theorem storedUnsigned_eq (unsigned : f.fieldType = .unsigned) :
    storedUnsigned f record = stored.num.toNat := by
  simp only [InField, intValue, unsigned] at field
  simp only [fieldBytes, unsigned] at holds
  unfold storedUnsigned
  split_ifs at holds ⊢ with wide
  · rw [load, show 8 = (leBytes 8 stored.num.toNat).length by simp, holds,
      leNat_leBytes_of_lt stored.num.isLt]
  · have bytes : 8 * f.fieldSize ≤ 32 := by omega
    have bound : (2 : Int) ^ (8 * f.fieldSize) ≤ 2 ^ 32 := pow_le_pow_right₀ (by decide) bytes
    rw [load, show 4 = (leBytes 4 stored.num.toNat).length by simp, holds]
    exact leNat_leBytes_of_lt (by omega)

/-- The result that the T-tree code works with is the difference of the two numbers in 32
bits. -/
theorem iDiff_eq (integer : IsInteger f) :
    (indexComparator f p).iDiff value record =
      (intValue f value - intValue f stored).bmod (2 ^ 32) := by
  have narrowed : ∀ x : Int, (x.bmod (2 ^ 64)).bmod (2 ^ 32) = x.bmod (2 ^ 32) := fun x =>
    Int.bmod_bmod_of_dvd (Nat.pow_dvd_pow 2 (by decide))
  rcases integer.type with signed | unsigned
  · simp only [KeyComparator.iDiff, indexComparator, keyCompareField, intValue, signed]
    rw [narrowed, storedSigned_eq field holds signed]
  · simp only [KeyComparator.iDiff, indexComparator, keyCompareField, intValue, unsigned]
    rw [narrowed, storedUnsigned_eq field holds unsigned]

end

/-- For every two numbers of an integer index field, the stored result of the comparison
has the sign of their order if and only if the difference keeps its sign in 32 bits. -/
theorem keyCompare_sign_iff (integer : IsInteger f) (field : InField f (intValue f stored))
    (holds : Holds record keyOffset (Raw.RawData.fieldBytes p.floatFormat f stored)) :
    ((indexComparator f p).iDiff value record).sign =
        (intValue f value - intValue f stored).sign ↔
      SignKept (intValue f value) (intValue f stored) := by
  rw [iDiff_eq field holds integer]
  exact sign_bmod_iff _ _

end Stored

/-- The conversions and comparisons are not used for integers. -/
def integersOnly : Platform := ⟨fun _ _ => 0, fun _ _ => 0, fun _ _ => 0, ⟨fun _ => 0, fun _ => 0⟩⟩

/-- A signed index field of some bytes. -/
def signedField (size : Nat) : FieldDefinition := ⟨.signed, size, false⟩

def signedValue (x : Int) : DTCValue := ⟨.ofInt 64 x, ⟨[], nil_short⟩⟩

/-- A record whose first row has an index value. -/
def recordOf (size : Nat) (x : Int) : Nat → UInt8 :=
  store (fun _ => 0) keyOffset
    (Raw.RawData.fieldBytes integersOnly.floatFormat (signedField size) (signedValue x))

/-- Two values of a two-byte field. -/
theorem keyCompare_sign_short :
    IsInteger (signedField 2) ∧ InField (signedField 2) (intValue (signedField 2) (signedValue 3)) ∧
      (((indexComparator (signedField 2) integersOnly).iDiff (signedValue (-5))
          (recordOf 2 3)).sign =
        (intValue (signedField 2) (signedValue (-5)) -
          intValue (signedField 2) (signedValue 3)).sign ↔
      SignKept (intValue (signedField 2) (signedValue (-5)))
        (intValue (signedField 2) (signedValue 3))) :=
  have integer : IsInteger (signedField 2) := ⟨.inl rfl, by decide, by decide⟩
  have field : InField (signedField 2) (intValue (signedField 2) (signedValue 3)) := by decide
  ⟨integer, field, keyCompare_sign_iff integer field holds_store⟩

/-- Of the two values of a four-byte field the larger one is taken for the smaller. -/
theorem keyCompare_wrong_sign :
    IsInteger (signedField 4) ∧
      InField (signedField 4) (intValue (signedField 4) (signedValue (2 ^ 31 - 1))) ∧
      InField (signedField 4) (intValue (signedField 4) (signedValue (-1))) ∧
      intValue (signedField 4) (signedValue (-1)) <
        intValue (signedField 4) (signedValue (2 ^ 31 - 1)) ∧
      (indexComparator (signedField 4) integersOnly).iDiff (signedValue (2 ^ 31 - 1))
        (recordOf 4 (-1)) < 0 :=
  ⟨⟨.inl rfl, by decide, by decide⟩, by decide, by decide, by decide, by decide +kernel⟩

end Dtc.Tree
