import Dtc.Packet.Section
import Dtc.Raw.Compare
import Dtc.Tree.Compare
import Dtc.Tree.Match

/-!
# Conditions on fields

`DTCFieldValue::Compare` filters rows by the conditions of a request. It is dispatched by the
type of the field, the type of the value and the operator; a combination that is not listed
selects no row. The T-tree searches by `KeyCompare`, which looks at the type of the field only.

Both are compared with the order that the type of a field stands for: numbers, the bytes of a
binary field, and for strings, which are case insensitive and end at a zero byte, the folded
text and then the length.
-/

namespace Dtc.Tree

open Library Memory List Raw.RawData
open Raw (DField FieldDefinition DTCValue DTCBinary RowValue nil_short internalToLower mystrcmp
  stringEqual)

/-! ### The code -/

def binaryEqual (p : Platform) (a b : DTCValue) : Bool :=
  a.bin.1.length == b.bin.1.length && p.memcmp a.bin.1 b.bin.1 == 0

/-- An entry of a `DTCFieldValue`. -/
structure FieldValue where
  id : Nat
  oper : Comparison
  type : DField
  val : DTCValue

/-- The six cases of two integers, compared as `s64`. -/
def compareS64 (v1 v2 : DTCValue) : Comparison → Bool
  | .eq => v1.num.toInt == v2.num.toInt
  | .ne => v1.num.toInt != v2.num.toInt
  | .lt => v1.num.toInt < v2.num.toInt
  | .le => v1.num.toInt ≤ v2.num.toInt
  | .gt => v2.num.toInt < v1.num.toInt
  | .ge => v2.num.toInt ≤ v1.num.toInt

/-- The two cases of texts. -/
def compareEqual (equal : Bool) : Comparison → Bool
  | .eq => equal
  | .ne => !equal
  | _ => false

/-- The `switch` of `DTCFieldValue::Compare`. -/
def compareValues (p : Platform) (fieldType type : DField) (oper : Comparison) (v1 v2 : DTCValue) :
    Bool :=
  match fieldType, type with
  | .signed, .signed | .unsigned, .signed => compareS64 v1 v2 oper
  | .string, .string => compareEqual (stringEqual v1.bin.1 v2.bin.1) oper
  | .binary, .binary | .string, .binary | .binary, .string =>
    compareEqual (binaryEqual p v1 v2) oper
  | _, _ => false

/-- `DTCFieldValue::Compare`: conditions on the key and on later fields are skipped. -/
def fieldValueCompare (p : Platform) (t : Raw.TableDefinition) (iCmpFirstNRows : Nat) (r : RowValue) :
    List FieldValue → Bool
  | [] => true
  | fv :: fieldValue =>
    if fv.id < t.keyFields ∨ iCmpFirstNRows ≤ fv.id then
      fieldValueCompare p t iCmpFirstNRows r fieldValue
    else if compareValues p (t.field fv.id).fieldType fv.type fv.oper (r fv.id) fv.val then
      fieldValueCompare p t iCmpFirstNRows r fieldValue
    else false

/-! ### The orders -/

/-- The bytes as numbers, in the lexicographic order. -/
def byteValue (bytes : List UInt8) : List ℕ := bytes.map UInt8.toNat

/-- The text before the first zero byte, without case. -/
def text (bytes : List UInt8) : List ℕ :=
  (bytes.takeWhile (· ≠ 0)).map fun b => (internalToLower b).toNat

/-- Strings of one text are ordered by their lengths. -/
def stringValue (bytes : List UInt8) : List ℕ ×ₗ ℕ := toLex (text bytes, bytes.length)

/-- A stored value and the value of a condition are as the operator says, in the order of the
type of the field. -/
def Prescribed (f : FieldDefinition) (oper : Comparison) (stored value : DTCValue) : Prop :=
  match f.fieldType with
  | .signed | .unsigned => oper.Holds (intValue f stored) (intValue f value)
  | .string => oper.Holds (stringValue stored.bin.1) (stringValue value.bin.1)
  | .binary => oper.Holds (byteValue stored.bin.1) (byteValue value.bin.1)
  | _ => False

/-- What the C library promises: `memcmp` and, in the C locale, `strncasecmp` decide the orders of
two byte strings of one length by the sign of an `int`. -/
structure Platform.Ordered (p : Platform) : Prop where
  memcmp_int : ∀ a b, -2 ^ 31 ≤ p.memcmp a b ∧ p.memcmp a b < 2 ^ 31
  memcmp_neg : ∀ a b, a.length = b.length → (p.memcmp a b < 0 ↔ byteValue a < byteValue b)
  memcmp_zero : ∀ a b, a.length = b.length → (p.memcmp a b = 0 ↔ byteValue a = byteValue b)
  strncasecmp_int : ∀ a b, -2 ^ 31 ≤ p.strncasecmp a b ∧ p.strncasecmp a b < 2 ^ 31
  strncasecmp_neg : ∀ a b, a.length = b.length → (p.strncasecmp a b < 0 ↔ text a < text b)
  strncasecmp_zero : ∀ a b, a.length = b.length → (p.strncasecmp a b = 0 ↔ text a = text b)

/-- The operator, asked of the sign of a difference. -/
theorem holds_iff_of_sign {K : Type*} [LinearOrder K] {stored value : K} {diff : Int}
    (neg : diff < 0 ↔ value < stored) (zero : diff = 0 ↔ value = stored) (oper : Comparison) :
    oper.Holds 0 diff ↔ oper.Holds stored value := by
  have pos : 0 < diff ↔ stored < value := by
    rw [← not_iff_not, not_lt, not_lt, le_iff_lt_or_eq, le_iff_lt_or_eq, neg, zero]
  cases oper with
  | eq => exact eq_comm.trans (zero.trans eq_comm)
  | ne => exact not_congr (eq_comm.trans (zero.trans eq_comm))
  | lt => exact pos
  | le => exact not_lt.symm.trans ((not_congr neg).trans not_lt)
  | gt => exact neg
  | ge => exact not_lt.symm.trans ((not_congr pos).trans not_lt)

/-! ### Texts -/

section Texts

theorem byteValue_lt_iff (x y : List UInt8) :
    byteValue x < byteValue y ↔
      byteValue (x.take (min x.length y.length)) < byteValue (y.take (min x.length y.length)) ∨
        byteValue (x.take (min x.length y.length)) = byteValue (y.take (min x.length y.length)) ∧
          x.length < y.length := by
  induction x generalizing y with
  | nil => cases y <;> simp [byteValue]
  | cons a x ih =>
    cases y with
    | nil => simp [byteValue]
    | cons b y =>
      have step := ih y
      unfold byteValue at step ⊢
      simp only [length_cons, Nat.add_min_add_right, take_succ_cons, map_cons,
        cons_lt_cons_iff, cons.injEq, Nat.add_lt_add_iff_right]
      rw [step, and_or_left, ← or_assoc, and_assoc]

theorem byteValue_injective : Function.Injective byteValue :=
  map_injective_iff.mpr fun _ _ same => UInt8.toNat_inj.mp same

theorem text_zero (x : List UInt8) : text (0 :: x) = [] := by simp [text]

theorem text_cons {a : UInt8} (nonzero : a ≠ 0) (x : List UInt8) :
    text (a :: x) = (internalToLower a).toNat :: text x := by simp [text, nonzero]

theorem stringValue_lt_iff (x y : List UInt8) :
    stringValue x < stringValue y ↔
      text (x.take (min x.length y.length)) < text (y.take (min x.length y.length)) ∨
        text (x.take (min x.length y.length)) = text (y.take (min x.length y.length)) ∧
          x.length < y.length := by
  unfold stringValue
  rw [Prod.Lex.toLex_lt_toLex]
  induction x generalizing y with
  | nil =>
    cases y with
    | nil => simp
    | cons b y =>
      by_cases zero : b = 0
      · simp [zero, text]
      · simp [text, zero]
  | cons a x ih =>
    cases y with
    | nil =>
      by_cases zero : a = 0
      · simp [zero, text]
      · simp [text, zero]
    | cons b y =>
      have step := ih y
      simp only [length_cons, Nat.add_min_add_right, take_succ_cons, Nat.add_lt_add_iff_right]
      by_cases zero : a = 0
      · by_cases zero' : b = 0
        · simp [zero, zero', text_zero]
        · simp [zero, text_zero, text_cons zero']
      · by_cases zero' : b = 0
        · simp [zero', text_zero, text_cons zero]
        · simp only [text_cons zero, text_cons zero', cons_lt_cons_iff, cons.injEq]
          rw [or_assoc, and_assoc, ← and_or_left, step, and_or_left, ← or_assoc, and_assoc]

theorem stringValue_eq_iff (x y : List UInt8) :
    stringValue x = stringValue y ↔ text x = text y ∧ x.length = y.length := by
  simp [stringValue]

theorem internalToLower_eq_zero (c : UInt8) : (internalToLower c).toNat = 0 ↔ c = 0 := by
  unfold internalToLower
  rw [← UInt8.toNat_inj]
  split_ifs with upper
  · simp only [UInt8.le_iff_toNat_le, UInt8.reduceToNat] at upper
    rw [UInt8.toNat_add]
    simp only [UInt8.reduceToNat]
    omega
  · simp

/-- `mystrcmp` and `strncasecmp` know the same texts. -/
theorem mystrcmp_eq_zero_iff {x y : List UInt8} (length : x.length = y.length) :
    mystrcmp x y = 0 ↔ text x = text y := by
  induction x generalizing y with
  | nil =>
    obtain rfl := length_eq_zero_iff.mp length.symm
    simp [mystrcmp]
  | cons a x ih =>
    cases y with
    | nil => simp at length
    | cons b y =>
      have tail := ih (Nat.succ_injective length)
      rw [mystrcmp]
      by_cases zero : a = 0
      · subst zero
        by_cases zero' : b = 0
        · subst zero'
          simp [text_zero]
        · have nonzero : (internalToLower b).toNat ≠ 0 := (internalToLower_eq_zero b).not.mpr zero'
          have first : (internalToLower 0).toNat = 0 := rfl
          rw [text_zero, text_cons zero', first, if_pos (by omega)]
          simp [nonzero]
      · by_cases zero' : b = 0
        · subst zero'
          have nonzero : (internalToLower a).toNat ≠ 0 := (internalToLower_eq_zero a).not.mpr zero
          have second : (internalToLower 0).toNat = 0 := rfl
          rw [text_zero, text_cons zero, second, if_pos (by omega)]
          simp [nonzero]
        · rw [text_cons zero, text_cons zero', if_neg zero, cons.injEq, ← tail]
          split_ifs with differ
          · constructor
            · intro same
              omega
            · intro same
              omega
          · exact ⟨fun same => ⟨by omega, same⟩, fun same => same.2⟩

theorem stringEqual_iff (a b : List UInt8) :
    stringEqual a b ↔ stringValue a = stringValue b := by
  rw [stringEqual, Bool.and_eq_true, beq_iff_eq, beq_iff_eq, stringValue_eq_iff, and_comm]
  exact and_congr_left fun length => mystrcmp_eq_zero_iff length

theorem binaryEqual_iff {p : Platform} (ordered : p.Ordered) (a b : DTCValue) :
    binaryEqual p a b ↔ byteValue a.bin.1 = byteValue b.bin.1 := by
  rw [binaryEqual, Bool.and_eq_true, beq_iff_eq, beq_iff_eq]
  constructor
  · rintro ⟨length, same⟩
    exact (ordered.memcmp_zero _ _ length).mp same
  · intro same
    have length : a.bin.1.length = b.bin.1.length := congrArg length (byteValue_injective same)
    exact ⟨length, (ordered.memcmp_zero _ _ length).mpr same⟩

end Texts

/-! ### The index comparator on texts -/

section Bytes
variable {K : Type*} [LinearOrder K] {L : Type*} [LinearOrder L]
variable {record : Nat → UInt8} {stored : List UInt8}

/-- The stored length and the stored bytes. -/
theorem stored_bytes (short : stored.length < 2 ^ 31)
    (holds : Holds record keyOffset (leBytes 4 stored.length ++ stored)) :
    load record keyOffset 4 = stored.length ∧
      ∀ len ≤ stored.length, slice record (keyOffset + 4) len = stored.take len := by
  obtain ⟨first, second⟩ := holds_append.mp holds
  refine ⟨?_, fun len le => ?_⟩
  · exact first.load (by omega)
  · exact second.slice_take le

/-- The comparison of byte strings by a comparison of strings of one length. -/
theorem compareBytes_sign (key : List UInt8) {compare : List UInt8 → List UInt8 → Int} {ord : List UInt8 → L}
    {val : List UInt8 → K}
    (neg : ∀ a b, a.length = b.length → (compare a b < 0 ↔ ord a < ord b))
    (zero : ∀ a b, a.length = b.length → (compare a b = 0 ↔ ord a = ord b))
    (lt_iff : ∀ x y, val x < val y ↔
      ord (x.take (min x.length y.length)) < ord (y.take (min x.length y.length)) ∨
        ord (x.take (min x.length y.length)) = ord (y.take (min x.length y.length)) ∧
          x.length < y.length)
    (eq_iff : ∀ x y, val x = val y ↔ ord x = ord y ∧ x.length = y.length)
    (short : stored.length < 2 ^ 31)
    (holds : Holds record keyOffset (leBytes 4 stored.length ++ stored)) :
    (compareBytes record compare key < 0 ↔ val key < val stored) ∧
      (compareBytes record compare key = 0 ↔ val key = val stored) := by
  obtain ⟨length, bytes⟩ := stored_bytes short holds
  unfold compareBytes
  simp only [length]
  rw [bytes _ (min_le_right _ _), lt_iff key stored, eq_iff key stored]
  set n := min key.length stored.length with hn
  have same : (key.take n).length = (stored.take n).length := by
    rw [length_take, length_take]
    omega
  have low := neg _ _ same
  have null := zero _ _ same
  by_cases empty : key.length = 0
  · have none : n = 0 := by omega
    rw [none, take_zero, take_zero]
    by_cases empty' : stored.length = 0
    · rw [if_pos ⟨empty, empty'⟩, length_eq_zero_iff.mp empty, length_eq_zero_iff.mp empty']
      simp
    · rw [if_neg (fun both => empty' both.2), if_pos empty]
      refine ⟨by simp; omega, by simp; omega⟩
  · rw [if_neg (fun both => empty both.1), if_neg empty]
    by_cases empty' : stored.length = 0
    · have none : n = 0 := by omega
      rw [if_pos empty', none, take_zero, take_zero]
      refine ⟨by simp; omega, by simp; omega⟩
    · rw [if_neg empty']
      by_cases equal : key.length = stored.length
      · have whole : key.take n = key := take_of_length_le (by omega)
        have whole' : stored.take n = stored := take_of_length_le (by omega)
        rw [if_pos equal, low, null, whole, whole']
        exact ⟨by simp [equal], by simp [equal]⟩
      · rw [if_neg equal]
        by_cases same : compare (key.take n) (stored.take n) = 0
        · have equal' := null.mp same
          rw [if_pos same, equal']
          split_ifs with longer
          · exact ⟨by simp; omega, by simp; omega⟩
          · exact ⟨by simp; omega, by simp; omega⟩
        · rw [if_neg same, low]
          have differ : ord (key.take n) ≠ ord (stored.take n) := null.not.mp same
          exact ⟨by simp [differ], by simp [same, equal]⟩

theorem compareBytes_int (record : Nat → UInt8) (key : List UInt8)
    {compare : List UInt8 → List UInt8 → Int} (int : ∀ a b, -2 ^ 31 ≤ compare a b ∧ compare a b < 2 ^ 31) :
    -2 ^ 31 ≤ compareBytes record compare key ∧ compareBytes record compare key < 2 ^ 31 := by
  unfold compareBytes
  dsimp only
  split_ifs
  · exact ⟨by decide, by decide⟩
  · exact ⟨by decide, by decide⟩
  · exact ⟨by decide, by decide⟩
  · exact int _ _
  · exact ⟨by decide, by decide⟩
  · exact ⟨by decide, by decide⟩
  · exact int _ _

end Bytes

section Index
variable {f : FieldDefinition} {record : Nat → UInt8} {p : Platform} {value stored : DTCValue}

/-- The index comparator orders strings as their type says. -/
theorem iDiff_string (ordered : p.Ordered) (string : f.fieldType = .string) (oper : Comparison)
    (holds : Holds record keyOffset (fieldBytes p.floatFormat f stored)) :
    oper.Holds 0 ((indexComparator f p).iDiff value record) ↔ Prescribed f oper stored value := by
  simp only [fieldBytes, string] at holds
  have int := compareBytes_int record value.bin.1 ordered.strncasecmp_int
  have whole : (indexComparator f p).iDiff value record =
      compareBytes record p.strncasecmp value.bin.1 := by
    simp only [KeyComparator.iDiff, indexComparator, keyCompareField, string]
    exact Int.bmod_eq_of_le (by omega) (by omega)
  obtain ⟨neg, zero⟩ := compareBytes_sign value.bin.1 ordered.strncasecmp_neg
    ordered.strncasecmp_zero stringValue_lt_iff stringValue_eq_iff stored.bin.2 holds
  rw [whole, holds_iff_of_sign neg zero]
  simp only [Prescribed, string]

theorem iDiff_binary (ordered : p.Ordered) (binary : f.fieldType = .binary) (oper : Comparison)
    (holds : Holds record keyOffset (fieldBytes p.floatFormat f stored)) :
    oper.Holds 0 ((indexComparator f p).iDiff value record) ↔ Prescribed f oper stored value := by
  simp only [fieldBytes, binary] at holds
  have int := compareBytes_int record value.bin.1 ordered.memcmp_int
  have whole : (indexComparator f p).iDiff value record =
      compareBytes record p.memcmp value.bin.1 := by
    simp only [KeyComparator.iDiff, indexComparator, keyCompareField, binary]
    exact Int.bmod_eq_of_le (by omega) (by omega)
  have eq_iff : ∀ x y, byteValue x = byteValue y ↔ byteValue x = byteValue y ∧ x.length = y.length :=
    fun x y => ⟨fun same => ⟨same, congrArg length (byteValue_injective same)⟩, And.left⟩
  obtain ⟨neg, zero⟩ := compareBytes_sign value.bin.1 ordered.memcmp_neg
    ordered.memcmp_zero byteValue_lt_iff eq_iff stored.bin.2 holds
  rw [whole, holds_iff_of_sign neg zero]
  simp only [Prescribed, binary]

/-- The lower 32 bits of the difference give the right answer to the operator. -/
def KeptBy (oper : Comparison) (stored value : Int) : Prop :=
  match oper with
  | .eq | .ne => (value - stored) % 2 ^ 32 = 0 → value = stored
  | .lt | .ge => stored < value ↔ 0 < (value - stored) % 2 ^ 32 ∧ (value - stored) % 2 ^ 32 < 2 ^ 31
  | .gt | .le => value < stored ↔ 2 ^ 31 ≤ (value - stored) % 2 ^ 32

theorem holds_bmod_iff (oper : Comparison) (stored value : Int) :
    (oper.Holds 0 ((value - stored).bmod (2 ^ 32)) ↔ oper.Holds stored value) ↔
      KeptBy oper stored value := by
  rw [Int.bmod_def]
  cases oper <;> simp only [Comparison.Holds, KeptBy] <;> split_ifs <;> omega

end Index

/-! ### The filter -/

section Filter
variable {p : Platform} {v1 v2 : DTCValue}

theorem compareS64_iff (oper : Comparison) :
    compareS64 v1 v2 oper ↔ oper.Holds v1.num.toInt v2.num.toInt := by
  cases oper <;> simp [compareS64, Comparison.Holds]

/-- Unsigned numbers are compared as signed ones: right for equality, and else only for two
numbers of one half. -/
theorem compareS64_unsigned_iff (oper : Comparison) :
    (compareS64 v1 v2 oper ↔ oper.Holds (v1.num.toNat : Int) v2.num.toNat) ↔
      oper = .eq ∨ oper = .ne ∨ (2 ^ 63 ≤ v1.num.toNat ↔ 2 ^ 63 ≤ v2.num.toNat) := by
  rw [compareS64_iff, BitVec.toInt_eq_toNat_cond, BitVec.toInt_eq_toNat_cond]
  cases oper with
  | eq =>
    simp only [Comparison.Holds, true_or, iff_true]
    split_ifs <;> omega
  | ne =>
    simp only [Comparison.Holds, true_or, or_true, iff_true]
    split_ifs <;> omega
  | lt | le | gt | ge =>
    simp only [Comparison.Holds, reduceCtorEq, false_or]
    split_ifs <;> omega

/-- Texts are only compared for equality. -/
theorem compareEqual_iff {K : Type*} [LinearOrder K] {equal : Bool} {stored value : K}
    (same : equal = true ↔ stored = value) (oper : Comparison) :
    (compareEqual equal oper ↔ oper.Holds stored value) ↔
      oper = .eq ∨ oper = .ne ∨ ¬ oper.Holds stored value := by
  cases oper with
  | eq => simpa [compareEqual, Comparison.Holds] using same
  | ne => simpa [compareEqual, Comparison.Holds] using not_congr same
  | lt | le | gt | ge => simp [compareEqual, Comparison.Holds]

theorem fieldValueCompare_singleton {t : Raw.TableDefinition} {iCmpFirstNRows : Nat} {r : RowValue}
    {fv : FieldValue} (evaluated : t.keyFields ≤ fv.id ∧ fv.id < iCmpFirstNRows) :
    fieldValueCompare p t iCmpFirstNRows r [fv] =
      compareValues p (t.field fv.id).fieldType fv.type fv.oper (r fv.id) fv.val := by
  unfold fieldValueCompare
  rw [if_neg (by omega), fieldValueCompare]
  simp

end Filter

/-- The filter and the index are right about a condition. Integers: the type of the condition is
`Signed` (a condition of type `Unsigned` selects nothing), unsigned numbers are of one half
unless they are compared for equality, and the difference keeps what the operator needs in 32
bits. Texts: an order is asked for only where it does not hold. -/
def Agrees (f : FieldDefinition) (type : DField) (oper : Comparison) (stored value : DTCValue) :
    Prop :=
  match f.fieldType with
  | .signed =>
    (type = .signed ∨ ¬ Prescribed f oper stored value) ∧
      KeptBy oper (intValue f stored) (intValue f value)
  | .unsigned =>
    (if type = .signed then
        oper = .eq ∨ oper = .ne ∨ (2 ^ 63 ≤ stored.num.toNat ↔ 2 ^ 63 ≤ value.num.toNat)
      else ¬ Prescribed f oper stored value) ∧
      KeptBy oper (intValue f stored) (intValue f value)
  | _ => oper = .eq ∨ oper = .ne ∨ ¬ Prescribed f oper stored value

/-- The first row of a record holds a value of a field; numbers are in the range of the field. -/
structure HoldsIndex (p : Platform) (f : FieldDefinition) (record : Nat → UInt8)
    (stored : DTCValue) : Prop where
  bytes : Holds record keyOffset (Raw.RawData.fieldBytes p.floatFormat f stored)
  integer : f.fieldType = .signed ∨ f.fieldType = .unsigned →
    1 ≤ f.fieldSize ∧ f.fieldSize ≤ 8 ∧ InField f (intValue f stored)

section Agreement
variable {p : Platform} {f : FieldDefinition} {type : DField} {stored value : DTCValue}
  {record : Nat → UInt8}

theorem iDiff_integer_iff (integer : f.fieldType = .signed ∨ f.fieldType = .unsigned)
    (holds : HoldsIndex p f record stored) (oper : Comparison) :
    (oper.Holds 0 ((indexComparator f p).iDiff value record) ↔ Prescribed f oper stored value) ↔
      KeptBy oper (intValue f stored) (intValue f value) := by
  obtain ⟨pos, le, field⟩ := holds.integer integer
  have order : Prescribed f oper stored value ↔ oper.Holds (intValue f stored) (intValue f value) := by
    rcases integer with signed | unsigned
    · simp only [Prescribed, signed]
    · simp only [Prescribed, unsigned]
  rw [iDiff_eq field holds.bytes ⟨integer, pos, le⟩, order]
  exact holds_bmod_iff oper _ _

theorem agrees_signed (signed : f.fieldType = .signed) (admitted : Packet.validxtype 0 .signed type)
    (oper : Comparison) :
    (compareValues p .signed type oper stored value ↔ Prescribed f oper stored value) ↔
      (type = .signed ∨ ¬ Prescribed f oper stored value) := by
  cases type with
  | signed =>
    have order : Prescribed f oper stored value ↔
        oper.Holds stored.num.toInt value.num.toInt := by
      simp only [Prescribed, intValue, signed]
    simp only [compareValues, true_or, iff_true]
    rw [compareS64_iff, order]
  | unsigned => simp [compareValues]
  | none | float | string | binary => exact absurd admitted (by decide)

theorem agrees_unsigned (unsigned : f.fieldType = .unsigned)
    (admitted : Packet.validxtype 0 .unsigned type) (oper : Comparison) :
    (compareValues p .unsigned type oper stored value ↔ Prescribed f oper stored value) ↔
      if type = .signed then
        oper = .eq ∨ oper = .ne ∨ (2 ^ 63 ≤ stored.num.toNat ↔ 2 ^ 63 ≤ value.num.toNat)
      else ¬ Prescribed f oper stored value := by
  cases type with
  | signed =>
    have order : Prescribed f oper stored value ↔
        oper.Holds (stored.num.toNat : Int) value.num.toNat := by
      simp only [Prescribed, intValue, unsigned]
    rw [if_pos rfl, order]
    exact compareS64_unsigned_iff oper
  | unsigned => simp [compareValues]
  | none | float | string | binary => exact absurd admitted (by decide)

theorem agrees_string (string : f.fieldType = .string) (admitted : Packet.validxtype 0 .string type)
    (oper : Comparison) :
    (compareValues p .string type oper stored value ↔ Prescribed f oper stored value) ↔
      oper = .eq ∨ oper = .ne ∨ ¬ Prescribed f oper stored value := by
  cases type with
  | string =>
    simp only [compareValues, Prescribed, string]
    exact compareEqual_iff (stringEqual_iff stored.bin.1 value.bin.1) oper
  | none | signed | unsigned | float | binary => exact absurd admitted (by decide)

theorem agrees_binary (ordered : p.Ordered) (binary : f.fieldType = .binary)
    (admitted : Packet.validxtype 0 .binary type) (oper : Comparison) :
    (compareValues p .binary type oper stored value ↔ Prescribed f oper stored value) ↔
      oper = .eq ∨ oper = .ne ∨ ¬ Prescribed f oper stored value := by
  cases type with
  | string | binary =>
    simp only [compareValues, Prescribed, binary]
    exact compareEqual_iff (binaryEqual_iff ordered stored value) oper
  | none | signed | unsigned | float => exact absurd admitted (by decide)

/-- A condition that a request may have, on an integer, string or binary field: the filter selects
a row by the order of the field's type, and the index comparator finds it by the same order, if and
only if `Agrees` holds. -/
theorem compare_agrees_iff {t : Raw.TableDefinition} {iCmpFirstNRows : Nat} (r : RowValue)
    (fv : FieldValue) (ordered : p.Ordered)
    (evaluated : t.keyFields ≤ fv.id ∧ fv.id < iCmpFirstNRows)
    (notFloat : (t.field fv.id).fieldType ≠ .float)
    (admitted : Packet.validxtype 0 (t.field fv.id).fieldType fv.type)
    (holds : HoldsIndex p (t.field fv.id) record (r fv.id)) :
    ((fieldValueCompare p t iCmpFirstNRows r [fv] ↔
          Prescribed (t.field fv.id) fv.oper (r fv.id) fv.val) ∧
        (fv.oper.Holds 0 ((indexComparator (t.field fv.id) p).iDiff fv.val record) ↔
          Prescribed (t.field fv.id) fv.oper (r fv.id) fv.val)) ↔
      Agrees (t.field fv.id) fv.type fv.oper (r fv.id) fv.val := by
  rw [fieldValueCompare_singleton evaluated]
  generalize t.field fv.id = f at *
  unfold Agrees
  cases type : f.fieldType with
  | none => exact absurd admitted (by rw [type]; simp [Packet.validxtype])
  | float => exact absurd type notFloat
  | signed =>
    rw [type] at admitted
    rw [agrees_signed type admitted, iDiff_integer_iff (.inl type) holds]
  | unsigned =>
    rw [type] at admitted
    rw [agrees_unsigned type admitted, iDiff_integer_iff (.inr type) holds]
  | string =>
    rw [type] at admitted
    rw [agrees_string type admitted]
    exact and_iff_left (iDiff_string ordered type fv.oper holds.bytes)
  | binary =>
    rw [type] at admitted
    rw [agrees_binary ordered type admitted]
    exact and_iff_left (iDiff_binary ordered type fv.oper holds.bytes)

end Agreement

/-- A C library that answers with -1, 0 and 1. -/
def cLibrary : Platform where
  strncasecmp a b := if text a < text b then -1 else if text a = text b then 0 else 1
  memcmp a b := if byteValue a < byteValue b then -1 else if byteValue a = byteValue b then 0 else 1
  floatDiff _ _ := 0
  floatFormat := ⟨fun _ => 0, fun _ => 0⟩

theorem cLibrary_ordered : cLibrary.Ordered := by
  have int : ∀ (less equal : Prop) [Decidable less] [Decidable equal],
      (-2 ^ 31 : Int) ≤ (if less then -1 else if equal then 0 else 1) ∧
        (if less then -1 else if equal then 0 else 1 : Int) < 2 ^ 31 := by
    intro less equal _ _
    split_ifs <;> decide
  have neg : ∀ x y : List ℕ, (if x < y then -1 else if x = y then 0 else 1 : Int) < 0 ↔ x < y := by
    intro x y
    split_ifs <;> simp_all
  have zero : ∀ x y : List ℕ, (if x < y then -1 else if x = y then 0 else 1 : Int) = 0 ↔ x = y := by
    intro x y
    split_ifs with less same
    · simp [less.ne]
    · simp [same]
    · simp [same]
  exact ⟨fun _ _ => int _ _, fun a b _ => neg _ _, fun a b _ => zero _ _, fun _ _ => int _ _,
    fun a b _ => neg _ _, fun a b _ => zero _ _⟩

/-- A table with an unsigned field of eight bytes behind the key. -/
def unsignedTable : Raw.TableDefinition := ⟨1, 1, 4, fun _ => ⟨.unsigned, 8, false⟩⟩

def unsignedValue (n : Nat) : DTCValue := ⟨.ofNat 64 n, ⟨[], nil_short⟩⟩

/-- The condition that the field is greater than a number. -/
def greaterThan (n : Nat) : FieldValue := ⟨1, .gt, .signed, unsignedValue n⟩

/-- A record whose first row has an unsigned index value. -/
def unsignedRecord (n : Nat) : Nat → UInt8 :=
  store (fun _ => 0) keyOffset
    (Raw.RawData.fieldBytes cLibrary.floatFormat (unsignedTable.field 1) (unsignedValue n))

theorem compare_agrees_small :
    Packet.validxtype 0 (unsignedTable.field 1).fieldType (greaterThan 3).type ∧
      (((fieldValueCompare cLibrary unsignedTable 256 (fun _ => unsignedValue 5) [greaterThan 3] ↔
            Prescribed (unsignedTable.field 1) .gt (unsignedValue 5) (unsignedValue 3)) ∧
          (Comparison.Holds .gt 0 ((indexComparator (unsignedTable.field 1) cLibrary).iDiff
              (unsignedValue 3) (unsignedRecord 5)) ↔
            Prescribed (unsignedTable.field 1) .gt (unsignedValue 5) (unsignedValue 3))) ↔
        Agrees (unsignedTable.field 1) .signed .gt (unsignedValue 5) (unsignedValue 3)) :=
  have admitted : Packet.validxtype 0 (unsignedTable.field 1).fieldType (greaterThan 3).type := by
    decide
  have holds : HoldsIndex cLibrary (unsignedTable.field 1) (unsignedRecord 5) (unsignedValue 5) :=
    ⟨holds_store, fun _ => ⟨by decide, by decide, by decide⟩⟩
  ⟨admitted, compare_agrees_iff (fun _ => unsignedValue 5) (greaterThan 3) cLibrary_ordered
    (by decide) (by decide) admitted holds⟩

/-- An unsigned number of the upper half is not greater than 1 for the filter. -/
theorem compare_unsigned_wrong :
    Packet.validxtype 0 (unsignedTable.field 1).fieldType (greaterThan 1).type ∧
      InField (unsignedTable.field 1) (intValue (unsignedTable.field 1) (unsignedValue (2 ^ 63))) ∧
      Prescribed (unsignedTable.field 1) .gt (unsignedValue (2 ^ 63)) (unsignedValue 1) ∧
      fieldValueCompare cLibrary unsignedTable 256 (fun _ => unsignedValue (2 ^ 63))
        [greaterThan 1] = false := by
  refine ⟨by decide, by decide, ?_, by decide⟩
  show (1 : Int) < (2 : Int) ^ 63
  decide

end Dtc.Tree
