import Mathlib.Tactic.IntervalCases
import Dtc.Library.Bits
import Dtc.Raw.RawData

/-!
# Updates of a field

`DTCFieldValue::Update` applies the operations of an update request to a row. Integers are kept in
64 bits: a sum is corrected when its sign is wrong, and `TruncateIntValue` then cuts a value to the
range of a field of at most seven bytes. `SetBits` takes its offset, its number of bits and their
value from one operand.
-/

namespace Dtc.Field

open Library.Bits
open Raw (DField FieldDefinition DTCValue DTCBinary RowValue TableDefinition)

/-- The operations of an update. -/
inductive Operation
  | set
  | add
  | setBits
  | or
  deriving DecidableEq

/-- An entry of a `DTCFieldValue`. -/
structure FieldValue where
  id : Nat
  oper : Operation
  type : DField
  val : DTCValue

/-- The arithmetic of `double`, on bit patterns. -/
structure FloatArithmetic where
  ofSigned : Int → BitVec 64
  ofUnsigned : Nat → BitVec 64
  add : BitVec 64 → BitVec 64 → BitVec 64

/-- The least number of an integer field. -/
def lowest (type : DField) (size : Nat) : Int :=
  if type = .signed then -2 ^ (8 * size - 1) else 0

/-- The greatest number of an integer field. -/
def highest (type : DField) (size : Nat) : Int :=
  if type = .signed then 2 ^ (8 * size - 1) - 1 else 2 ^ (8 * size) - 1

/-- `TruncateIntValue`: there is no case for eight bytes. -/
def truncateIntValue (v1 : BitVec 64) (type : DField) (size : Nat) : BitVec 64 :=
  if 1 ≤ size ∧ size ≤ 7 then
    if v1.toInt < lowest type size then .ofInt 64 (lowest type size)
    else if highest type size < v1.toInt then .ofInt 64 (highest type size)
    else v1
  else v1

/-- `Add` before the value is truncated. -/
def addIntValue (v1 v2 : BitVec 64) : BitVec 64 :=
  let sum := v1 + v2
  if 0 < v1.toInt then
    if 0 < v2.toInt ∧ sum.toInt < 0 then 0x7FFFFFFFFFFFFFFF else sum
  else
    if v2.toInt < 0 ∧ 0 < sum.toInt then 0x8000000000000000 else sum

/-- `SetBits` of an integer. -/
def setIntBits (v1 v2 : BitVec 64) : BitVec 64 :=
  let off := v2.toNat / 2 ^ 32
  let size := off / 2 ^ 24
  let off := off % 2 ^ 24
  let value := v2.toNat % 2 ^ 32
  if 64 ≤ off ∨ size = 0 then v1
  else
    let size := if 32 < size then 32 else size
    let size := if 64 - off < size then 64 - off else size
    let mask := (1#64 <<< size - 1#64) <<< off
    (v1 &&& ~~~mask) ||| ((BitVec.ofNat 64 value <<< off) &&& mask)

/-- `SET_B`. -/
def setB (bit : Nat) (bytes : List UInt8) : List UInt8 :=
  bytes.modify (bit / 8) fun b => .ofBitVec (setBit b.toBitVec (bit % 8))

/-- `CLR_B`. -/
def clrB (bit : Nat) (bytes : List UInt8) : List UInt8 :=
  bytes.modify (bit / 8) fun b => .ofBitVec (clearBit b.toBitVec (bit % 8))

/-- The loop of `SetBits` over the bits of a text. -/
def writeBits : Nat → Nat → Nat → List UInt8 → List UInt8
  | 0, _, _, bytes => bytes
  | n + 1, off, value, bytes =>
    writeBits n (off + 1) (value / 2) (if value % 2 = 0 then clrB off bytes else setB off bytes)

/-- `SetBits` of a text: offset, size and length are `int`. -/
def setTextBits (bytes : List UInt8) (v2 : BitVec 64) : List UInt8 :=
  let width : Int := (8 * bytes.length : Int).bmod (2 ^ 32)
  let off : Int := (BitVec.ofNat 32 (v2.toNat / 2 ^ 32)).toInt
  let size := off / 2 ^ 24
  let off := off % 2 ^ 24
  let value := v2.toNat % 2 ^ 32
  if width ≤ off ∨ size = 0 then bytes
  else
    let size := if 32 < size then 32 else size
    let size := if width - off < size then width - off else size
    writeBits size.toNat off.toNat value bytes

theorem length_writeBits (n off value : Nat) (bytes : List UInt8) :
    (writeBits n off value bytes).length = bytes.length := by
  induction n generalizing off value bytes with
  | zero => rfl
  | succ n ih =>
    rw [writeBits, ih]
    split_ifs
    · exact List.length_modify ..
    · exact List.length_modify ..

theorem length_setTextBits (bytes : List UInt8) (v2 : BitVec 64) :
    (setTextBits bytes v2).length = bytes.length := by
  unfold setTextBits
  extract_lets width off size off' value
  split_ifs
  · rfl
  · exact length_writeBits ..

/-- The text cut to the size of the field. -/
def cut (size : Nat) (bin : DTCBinary) : DTCBinary :=
  ⟨bin.1.take size, lt_of_le_of_lt (List.length_take_le' ..) bin.2⟩

/-- The `switch` of `DTCFieldValue::Update`. -/
def updateValue (fl : FloatArithmetic) (f : FieldDefinition) (type : DField) (oper : Operation)
    (v1 v2 : DTCValue) : DTCValue :=
  match f.fieldType, type, oper with
  | .signed, .signed, .set | .unsigned, .signed, .set | .unsigned, .unsigned, .set =>
    { v1 with num := truncateIntValue v2.num f.fieldType f.fieldSize }
  | .signed, .signed, .add | .unsigned, .signed, .add =>
    { v1 with num := truncateIntValue (addIntValue v1.num v2.num) f.fieldType f.fieldSize }
  | .signed, .signed, .or | .unsigned, .signed, .or =>
    { v1 with num := truncateIntValue (v1.num ||| v2.num) f.fieldType f.fieldSize }
  | .float, .signed, .set => { v1 with num := fl.ofSigned v2.num.toInt }
  | .float, .unsigned, .set => { v1 with num := fl.ofUnsigned v2.num.toNat }
  | .float, .float, .set => { v1 with num := v2.num }
  | .float, .signed, .add => { v1 with num := fl.add v1.num (fl.ofSigned v2.num.toInt) }
  | .float, .unsigned, .add => { v1 with num := fl.add v1.num (fl.ofUnsigned v2.num.toNat) }
  | .float, .float, .add => { v1 with num := fl.add v1.num v2.num }
  | .string, .string, .set | .binary, .string, .set | .binary, .binary, .set =>
    { v1 with bin := cut f.fieldSize v2.bin }
  | .signed, .signed, .setBits | .signed, .unsigned, .setBits
  | .unsigned, .signed, .setBits | .unsigned, .unsigned, .setBits =>
    { v1 with num := setIntBits v1.num v2.num }
  | .binary, .signed, .setBits | .binary, .unsigned, .setBits
  | .string, .signed, .setBits | .string, .unsigned, .setBits =>
    { v1 with bin := ⟨setTextBits v1.bin.1 v2.num, by rw [length_setTextBits]; exact v1.bin.2⟩ }
  | _, _, _ => v1

/-- `DTCFieldValue::Update`. -/
def update (fl : FloatArithmetic) (t : TableDefinition) : List FieldValue → RowValue → RowValue
  | [], r => r
  | fv :: fieldValue, r =>
    update fl t fieldValue (Function.update r fv.id
      (updateValue fl (t.field fv.id) fv.type fv.oper (r fv.id) fv.val))

/-! ### Sums and ranges -/

/-- The number in 64 bits, by the type that is read. -/
def integer (type : DField) (v : BitVec 64) : Int := if type = .unsigned then v.toNat else v.toInt

theorem integer_signed (v : BitVec 64) : integer .signed v = v.toInt := rfl

theorem integer_unsigned (v : BitVec 64) : integer .unsigned v = v.toNat := rfl

/-- The number of the field that is nearest to `x`. -/
def clamped (f : FieldDefinition) (x : Int) : Int :=
  max (lowest f.fieldType f.fieldSize) (min (highest f.fieldType f.fieldSize) x)

/-- A number of the field. -/
def InRange (f : FieldDefinition) (x : Int) : Prop :=
  lowest f.fieldType f.fieldSize ≤ x ∧ x ≤ highest f.fieldType f.fieldSize

/-- An integer field of one to eight bytes. -/
structure IsInteger (f : FieldDefinition) : Prop where
  type : f.fieldType = .signed ∨ f.fieldType = .unsigned
  pos : 1 ≤ f.fieldSize
  le : f.fieldSize ≤ 8

/-- The operands `y` with which `Set` clamps, over the stored `x`. -/
def SetClamps (f : FieldDefinition) (type : DField) (x y : Int) : Prop :=
  if f.fieldType = .signed then
    type = .unsigned → x = min (highest .signed f.fieldSize) y
  else if type = .signed then f.fieldSize = 8 → 0 ≤ y
  else f.fieldSize < 8 → y < 2 ^ 63

/-- The operands `y` with which `Add` clamps, over the stored `x`. -/
def AddClamps (f : FieldDefinition) (type : DField) (x y : Int) : Prop :=
  if type = .unsigned then y = 0 ∨ x = highest f.fieldType f.fieldSize
  else if f.fieldType = .signed then ¬(f.fieldSize = 8 ∧ x = -2 ^ 63 ∧ y = -2 ^ 63)
  else
    f.fieldSize = 8 → 0 ≤ x + y ∧ (x < 2 ^ 63 → x + y < 2 ^ 63) ∧
      (2 ^ 63 ≤ x → x + y = 0 ∨ 2 ^ 63 ≤ x + y ∧ x + y < 2 ^ 64)

instance (f : FieldDefinition) (type : DField) (x y : Int) : Decidable (AddClamps f type x y) := by
  unfold AddClamps
  infer_instance

/-- The signed and the unsigned reading of 64 bits. -/
theorem toInt_cases (v : BitVec 64) :
    (v.toInt = v.toNat ∧ (v.toNat : Int) < 2 ^ 63) ∨
      (v.toInt = v.toNat - 2 ^ 64 ∧ (2 ^ 63 : Int) ≤ v.toNat ∧ (v.toNat : Int) < 2 ^ 64) := by
  have lt := v.isLt
  rw [BitVec.toInt_eq_toNat_cond]
  split_ifs <;> omega

theorem toInt_ofInt_eq {x : Int} (low : -2 ^ 63 ≤ x) (high : x < 2 ^ 63) :
    (BitVec.ofInt 64 x).toInt = x := by
  rw [BitVec.toInt_ofInt, Int.bmod_def]
  split_ifs <;> omega

/-- The ranges of the short fields. -/
theorem range_small (type : DField) {size : Nat} (pos : 1 ≤ size) (le : size ≤ 7) :
    -2 ^ 55 ≤ lowest type size ∧ lowest type size ≤ 0 ∧ 127 ≤ highest type size ∧
      highest type size < 2 ^ 56 ∧ (type ≠ .signed → lowest type size = 0) := by
  unfold lowest highest
  interval_cases size <;> by_cases signed : type = .signed <;> simp [signed]

/-- A short field gets the nearest number of its range. -/
theorem toInt_truncateIntValue (type : DField) {size : Nat} (pos : 1 ≤ size) (le : size ≤ 7)
    (v : BitVec 64) :
    (truncateIntValue v type size).toInt =
      max (lowest type size) (min (highest type size) v.toInt) := by
  obtain ⟨low, nonpos, high, small, -⟩ := range_small type pos le
  unfold truncateIntValue
  rw [if_pos ⟨pos, le⟩]
  split_ifs
  · rw [toInt_ofInt_eq (by omega) (by omega)]
    omega
  · rw [toInt_ofInt_eq (by omega) (by omega)]
    omega
  · omega

/-- The sum in 64 bits is the nearest number of 64 bits, except for twice the least one. -/
theorem toInt_addIntValue (v1 v2 : BitVec 64) :
    (addIntValue v1 v2).toInt =
      if v1.toInt = -2 ^ 63 ∧ v2.toInt = -2 ^ 63 then 0
      else max (-2 ^ 63) (min (2 ^ 63 - 1) (v1.toInt + v2.toInt)) := by
  have low1 := BitVec.le_toInt v1
  have high1 := BitVec.toInt_lt (x := v1)
  have low2 := BitVec.le_toInt v2
  have high2 := BitVec.toInt_lt (x := v2)
  have sum : (v1 + v2).toInt =
      if v1.toInt + v2.toInt < -2 ^ 63 then v1.toInt + v2.toInt + 2 ^ 64
      else if 2 ^ 63 ≤ v1.toInt + v2.toInt then v1.toInt + v2.toInt - 2 ^ 64
      else v1.toInt + v2.toInt := by
    rw [BitVec.toInt_add, Int.bmod_def]
    split_ifs <;> omega
  have most : (0x7FFFFFFFFFFFFFFF : BitVec 64).toInt = 2 ^ 63 - 1 := rfl
  have least : (0x8000000000000000 : BitVec 64).toInt = -2 ^ 63 := rfl
  unfold addIntValue
  simp only [apply_ite BitVec.toInt, sum, most, least]
  split_ifs <;> omega

section Clamps
variable {f : FieldDefinition}

/-- The range of a field: short, or of eight bytes. -/
theorem IsInteger.range (isInt : IsInteger f) :
    (f.fieldSize ≤ 7 ∧ -2 ^ 55 ≤ lowest f.fieldType f.fieldSize ∧
      lowest f.fieldType f.fieldSize ≤ 0 ∧ 127 ≤ highest f.fieldType f.fieldSize ∧
      highest f.fieldType f.fieldSize < 2 ^ 56) ∨
    (f.fieldSize = 8 ∧ f.fieldType = .signed ∧ lowest f.fieldType f.fieldSize = -2 ^ 63 ∧
      highest f.fieldType f.fieldSize = 2 ^ 63 - 1) ∨
    (f.fieldSize = 8 ∧ f.fieldType = .unsigned ∧ lowest f.fieldType f.fieldSize = 0 ∧
      highest f.fieldType f.fieldSize = 2 ^ 64 - 1) := by
  have pos := isInt.pos
  by_cases short : f.fieldSize ≤ 7
  · obtain ⟨low, nonpos, high, small, -⟩ :=
      range_small f.fieldType pos short
    exact .inl ⟨short, low, nonpos, high, small⟩
  · have eight : f.fieldSize = 8 := by have := isInt.le; omega
    refine .inr ?_
    rw [eight]
    rcases isInt.type with type | type
    · exact .inl ⟨rfl, type, by rw [type]; rfl, by rw [type]; rfl⟩
    · exact .inr ⟨rfl, type, by rw [type]; rfl, by rw [type]; rfl⟩

theorem integer_truncateIntValue (isInt : IsInteger f) (v : BitVec 64) :
    integer f.fieldType (truncateIntValue v f.fieldType f.fieldSize) =
      if f.fieldSize ≤ 7 then clamped f v.toInt else integer f.fieldType v := by
  have pos := isInt.pos
  split_ifs with short
  · have value := toInt_truncateIntValue f.fieldType isInt.pos short v
    rw [clamped, ← value]
    rcases isInt.type with signed | unsigned
    · rw [integer, if_neg (by rw [signed]; decide)]
    · have zero : lowest f.fieldType f.fieldSize = 0 := if_neg (by rw [unsigned]; decide)
      have cases := toInt_cases (truncateIntValue v f.fieldType f.fieldSize)
      rw [integer, if_pos unsigned]
      omega
  · rw [truncateIntValue, if_neg (fun both => short both.2)]

/-- What an update with an integer leaves in an integer field. -/
theorem updateValue_num (isInt : IsInteger f) (fl : FloatArithmetic) (v1 v2 : DTCValue) :
    (updateValue fl f .signed .set v1 v2).num = truncateIntValue v2.num f.fieldType f.fieldSize ∧
    (updateValue fl f .signed .add v1 v2).num =
      truncateIntValue (addIntValue v1.num v2.num) f.fieldType f.fieldSize ∧
    (updateValue fl f .unsigned .set v1 v2).num =
      (if f.fieldType = .unsigned then truncateIntValue v2.num f.fieldType f.fieldSize else v1.num) ∧
    updateValue fl f .unsigned .add v1 v2 = v1 := by
  unfold updateValue
  rcases isInt.type with type | type <;> simp [type]

/-- In a short field the correction of the sum does not show. -/
theorem clamped_toInt_addIntValue (isInt : IsInteger f) (short : f.fieldSize ≤ 7) {v1 : BitVec 64}
    (stored : InRange f v1.toInt) (v2 : BitVec 64) :
    clamped f (addIntValue v1 v2).toInt = clamped f (v1.toInt + v2.toInt) := by
  obtain ⟨low, nonpos, high, small, -⟩ :=
    range_small f.fieldType isInt.pos short
  obtain ⟨least, most⟩ := stored
  rw [toInt_addIntValue, if_neg (fun least => by omega), clamped, clamped]
  omega

section Cases
variable (isInt : IsInteger f) (fl : FloatArithmetic) (v1 v2 : DTCValue)
include isInt

theorem set_signed_iff :
    integer f.fieldType (updateValue fl f .signed .set v1 v2).num = clamped f (integer .signed v2.num) ↔
      SetClamps f .signed (integer f.fieldType v1.num) (integer .signed v2.num) := by
  rw [(updateValue_num isInt fl v1 v2).1, integer_truncateIntValue isInt, integer_signed, SetClamps]
  rcases isInt.range with ⟨short, -⟩ | ⟨eight, type, low, high⟩ | ⟨eight, type, low, high⟩
  · rw [if_pos short]
    refine iff_of_true rfl ?_
    split_ifs with type
    · exact nofun
    · omega
    · exact absurd rfl ‹_›
  · rw [if_neg (by omega), if_pos type, clamped, low, high, type, integer_signed]
    refine iff_of_true ?_ nofun
    have cases := toInt_cases v2.num
    omega
  · rw [if_neg (by omega), clamped, low, high, type, integer_unsigned, if_neg (by decide), if_pos rfl]
    have cases := toInt_cases v2.num
    omega

section
variable (stored : InRange f (integer f.fieldType v1.num))
include stored

theorem set_unsigned_iff :
    integer f.fieldType (updateValue fl f .unsigned .set v1 v2).num =
        clamped f (integer .unsigned v2.num) ↔
      SetClamps f .unsigned (integer f.fieldType v1.num) (integer .unsigned v2.num) := by
  obtain ⟨least, -⟩ := stored
  rw [(updateValue_num isInt fl v1 v2).2.2.1, integer_unsigned, SetClamps]
  have cases := toInt_cases v2.num
  rcases isInt.type with type | type
  · have range : lowest f.fieldType f.fieldSize ≤ 0 ∧ 0 ≤ highest f.fieldType f.fieldSize := by
      rcases isInt.range with h | h | h <;> omega
    rw [if_neg (by rw [type]; decide), if_pos type, clamped, forall_prop_of_true rfl]
    rw [type] at range least ⊢
    omega
  · have signed : ¬f.fieldType = .signed := by rw [type]; decide
    rw [if_pos type, integer_truncateIntValue isInt, if_neg signed,
      if_neg (show ¬DField.unsigned = .signed by decide)]
    rcases isInt.range with ⟨short, -, -, high, small⟩ | ⟨-, type, -⟩ | ⟨eight, -, low, high⟩
    · have low : lowest f.fieldType f.fieldSize = 0 := if_neg signed
      rw [if_pos short, clamped, clamped]
      omega
    · exact absurd ‹_› signed
    · rw [if_neg (by omega), clamped, low, high, type, integer_unsigned]
      omega

theorem add_signed_iff :
    integer f.fieldType (updateValue fl f .signed .add v1 v2).num =
        clamped f (integer f.fieldType v1.num + integer .signed v2.num) ↔
      AddClamps f .signed (integer f.fieldType v1.num) (integer .signed v2.num) := by
  have cases := toInt_cases v1.num
  rw [(updateValue_num isInt fl v1 v2).2.1, integer_truncateIntValue isInt, integer_signed, AddClamps,
    if_neg (show ¬DField.signed = .unsigned by decide)]
  rcases isInt.range with ⟨short, -, -, -, small⟩ | ⟨eight, type, low, high⟩ | ⟨eight, type, low, high⟩
  · have read : integer f.fieldType v1.num = v1.num.toInt := by
      rcases isInt.type with type | type
      · rw [type, integer_signed]
      · have le := stored.2
        rw [type, integer_unsigned] at le ⊢
        rw [type] at small
        omega
    rw [read] at stored ⊢
    rw [if_pos short, clamped_toInt_addIntValue isInt short stored]
    refine iff_of_true rfl ?_
    split_ifs
    · omega
    · omega
  · rw [if_neg (by omega), if_pos type, clamped, low, high, type, integer_signed, integer_signed,
      toInt_addIntValue]
    have cases2 := toInt_cases v2.num
    split_ifs
    · omega
    · omega
  · have sum := toInt_addIntValue v1.num v2.num
    have cases2 := toInt_cases v2.num
    have casesSum := toInt_cases (addIntValue v1.num v2.num)
    rw [if_neg (by omega), clamped, low, high, type, integer_unsigned, integer_unsigned,
      if_neg (by decide), forall_prop_of_true eight]
    split_ifs at sum
    · omega
    · rcases cases with low1 | high1
      · omega
      · omega

theorem add_unsigned_iff :
    integer f.fieldType (updateValue fl f .unsigned .add v1 v2).num =
        clamped f (integer f.fieldType v1.num + integer .unsigned v2.num) ↔
      AddClamps f .unsigned (integer f.fieldType v1.num) (integer .unsigned v2.num) := by
  rw [(updateValue_num isInt fl v1 v2).2.2.2, integer_unsigned, AddClamps, if_pos rfl, clamped]
  obtain ⟨low, high⟩ := stored
  omega

end

end Cases

end Clamps

/-- `Set` and `Add` leave the operand and the sum clamped to the range of the field exactly for the
operands of `SetClamps` and `AddClamps`. -/
theorem update_clamps_iff (fl : FloatArithmetic) (t : TableDefinition) (id : Nat) (r : RowValue)
    (v : DTCValue) {type : DField} (isInt : IsInteger (t.field id))
    (operand : type = .signed ∨ type = .unsigned)
    (stored : InRange (t.field id) (integer (t.field id).fieldType (r id).num)) :
    let f := t.field id
    let x := integer f.fieldType (r id).num
    let y := integer type v.num
    (integer f.fieldType (update fl t [⟨id, .set, type, v⟩] r id).num = clamped f y ↔
        SetClamps f type x y) ∧
      (integer f.fieldType (update fl t [⟨id, .add, type, v⟩] r id).num = clamped f (x + y) ↔
        AddClamps f type x y) := by
  intro f x y
  rw [update, update, Function.update_self, update, update, Function.update_self]
  rcases operand with rfl | rfl
  · exact ⟨set_signed_iff isInt fl (r id) v, add_signed_iff isInt fl (r id) v stored⟩
  · exact ⟨set_unsigned_iff isInt fl (r id) v stored, add_unsigned_iff isInt fl (r id) v stored⟩

/-- A table whose fields are all of one type and size. -/
def plainTable (type : DField) (size : Nat) : TableDefinition := ⟨1, 1, 4, fun _ => ⟨type, size, false⟩⟩

/-- A number as a value. -/
def number (x : BitVec 64) : DTCValue := ⟨x, ⟨[], by decide⟩⟩

def noFloats : FloatArithmetic := ⟨fun _ => 0, fun _ => 0, fun _ _ => 0⟩

/-- 100 + 100 in a signed byte. -/
theorem update_clamps_byte :
    integer .signed (update noFloats (plainTable .signed 1)
      [⟨1, .add, .signed, number 100⟩] (fun _ => number 100) 1).num = 127 :=
  ((update_clamps_iff noFloats (plainTable .signed 1) 1 (fun _ => number 100) (number 100)
    ⟨.inl rfl, by decide, by decide⟩ (.inl rfl) ⟨by decide, by decide⟩).2).mpr (by decide)

/-- Twice the least number of eight bytes is 0, and one less than 0 in an unsigned field of eight
bytes is its greatest number. -/
theorem update_does_not_clamp :
    integer .signed (update noFloats (plainTable .signed 8)
        [⟨1, .add, .signed, number (.ofInt 64 (-2 ^ 63))⟩] (fun _ => number (.ofInt 64 (-2 ^ 63))) 1).num = 0 ∧
      clamped ((plainTable .signed 8).field 1) (-2 ^ 63 + -2 ^ 63) = -2 ^ 63 ∧
    integer .unsigned (update noFloats (plainTable .unsigned 8)
        [⟨1, .add, .signed, number (.ofInt 64 (-1))⟩] (fun _ => number 0) 1).num = 2 ^ 64 - 1 ∧
      clamped ((plainTable .unsigned 8).field 1) (0 + -1) = 0 := by
  decide

end Dtc.Field
