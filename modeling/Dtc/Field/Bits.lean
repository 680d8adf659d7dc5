import Dtc.Field.Update

/-!
# What `SetBits` changes

The operand holds the offset in 24 bits, the number of bits in the eight bits above them, and the
value in its low 32 bits. At most 32 bits are replaced. An integer is 64 bits wide whatever the size
of its field, and the offset and the number of bits of a text are `int`, so that a number of bits
from 128 on is negative.
-/

namespace Dtc.Field

open Library.Bits
open Raw (DField DTCValue RowValue TableDefinition)

def bitOffset (v : BitVec 64) : Nat := v.toNat / 2 ^ 32 % 2 ^ 24

def bitCount (v : BitVec 64) : Nat := v.toNat / 2 ^ 56

def bitValue (v : BitVec 64) : Nat := v.toNat % 2 ^ 32

/-- The bits that an operand addresses. -/
def Addressed (v : BitVec 64) (i : Nat) : Prop :=
  bitOffset v ≤ i ∧ i < bitOffset v + min (bitCount v) 32

instance (v : BitVec 64) (i : Nat) : Decidable (Addressed v i) :=
  inferInstanceAs (Decidable (_ ∧ _))

/-- A bit of a text. -/
def bit (bytes : List UInt8) (i : Nat) : Bool :=
  (bytes.getD (i / 8) 0).toBitVec.getLsbD (i % 8)

/-! ### Integers -/

theorem getLsbD_mask {size off i : Nat} (le : size ≤ 32) (lt : i < 64) :
    ((1#64 <<< size - 1#64) <<< off).getLsbD i = decide (off ≤ i ∧ i < off + size) := by
  have pow : 2 ^ size ≤ 2 ^ 32 := Nat.pow_le_pow_right (by decide) le
  have ones : (1#64 <<< size - 1#64).toNat = 2 ^ size - 1 := by
    have pos := Nat.two_pow_pos size
    have shifted : (1#64 <<< size).toNat = 2 ^ size := by
      rw [BitVec.toNat_shiftLeft, BitVec.toNat_ofNat, Nat.shiftLeft_eq]
      omega
    rw [BitVec.toNat_sub, shifted, BitVec.toNat_ofNat]
    omega
  rw [BitVec.getLsbD_shiftLeft, BitVec.getLsbD, ones, Nat.testBit_two_pow_sub_one]
  grind

theorem count_eq (v : BitVec 64) : v.toNat / 2 ^ 32 / 2 ^ 24 = bitCount v := Nat.div_div_eq_div_mul ..

/-- The two cuts of the number of bits. -/
theorem cut_count (count room : Nat) :
    (if room < (if 32 < count then 32 else count) then room else if 32 < count then 32 else count) =
      min (min count 32) room := by
  split_ifs <;> omega

theorem setIntBits_eq (v1 v2 : BitVec 64) :
    setIntBits v1 v2 =
      if 64 ≤ bitOffset v2 ∨ bitCount v2 = 0 then v1
      else
        let mask :=
          (1#64 <<< min (min (bitCount v2) 32) (64 - bitOffset v2) - 1#64) <<< bitOffset v2
        (v1 &&& ~~~mask) ||| ((BitVec.ofNat 64 (bitValue v2) <<< bitOffset v2) &&& mask) := by
  unfold setIntBits
  simp only [count_eq, cut_count]
  rfl

/-- `SetBits` of an integer replaces the bits that are addressed. -/
theorem getLsbD_setIntBits (v1 v2 : BitVec 64) {i : Nat} (lt : i < 64) :
    (setIntBits v1 v2).getLsbD i =
      if Addressed v2 i then (bitValue v2).testBit (i - bitOffset v2) else v1.getLsbD i := by
  rw [setIntBits_eq]
  by_cases skipped : 64 ≤ bitOffset v2 ∨ bitCount v2 = 0
  · rw [if_pos skipped, if_neg (by unfold Addressed; omega)]
  rw [if_neg skipped]
  extract_lets mask
  have masked : mask.getLsbD i = decide (Addressed v2 i) := by
    rw [getLsbD_mask (by omega) lt]
    exact decide_eq_decide.mpr (by unfold Addressed; omega)
  rw [BitVec.getLsbD_or, BitVec.getLsbD_and, BitVec.getLsbD_not, BitVec.getLsbD_and, masked,
    BitVec.getLsbD_shiftLeft, BitVec.getLsbD_ofNat]
  by_cases addressed : Addressed v2 i
  · have behind := addressed.1
    simp [addressed, lt, show ¬i < bitOffset v2 by omega, show i - bitOffset v2 < 64 by omega]
  · simp [addressed, lt]

/-! ### Texts -/

theorem bit_modify (g : UInt8 → UInt8) (bytes : List UInt8) (k i : Nat) :
    bit (bytes.modify (k / 8) g) i =
      if i / 8 = k / 8 ∧ k / 8 < bytes.length then
        (g (bytes.getD (i / 8) 0)).toBitVec.getLsbD (i % 8)
      else bit bytes i := by
  unfold bit
  rw [List.getD_eq_getElem?_getD, List.getElem?_modify, List.getD_eq_getElem?_getD]
  grind

/-- One turn of the loop replaces one bit. -/
theorem bit_turn (value k : Nat) (bytes : List UInt8) (inside : k < 8 * bytes.length) (i : Nat) :
    bit (if value % 2 = 0 then clrB k bytes else setB k bytes) i =
      if i = k then value.testBit 0 else bit bytes i := by
  have byte : k / 8 < bytes.length := by omega
  have place : i / 8 = k / 8 → (i % 8 = k % 8 ↔ i = k) := by omega
  have lt : i % 8 < 8 := Nat.mod_lt _ (by decide)
  rw [Nat.testBit_zero]
  by_cases even : value % 2 = 0
  · rw [if_pos even, clrB, bit_modify, getLsbD_clearBit _ _ lt, ← bit]
    by_cases here : i = k
    · simp [here, byte, even]
    · split_ifs with same
      · simp [place same.1, here]
      · rfl
  · rw [if_neg even, setB, bit_modify, getLsbD_setBit _ _ lt, ← bit]
    by_cases here : i = k
    · simp [here, byte, Nat.mod_two_ne_zero.mp even]
    · split_ifs with same
      · simp [place same.1, here]
      · rfl

theorem bit_writeBits (n off value : Nat) (bytes : List UInt8)
    (inside : off + n ≤ 8 * bytes.length) (i : Nat) :
    bit (writeBits n off value bytes) i =
      if off ≤ i ∧ i < off + n then value.testBit (i - off) else bit bytes i := by
  induction n generalizing off value bytes with
  | zero => rw [if_neg (by omega)]; rfl
  | succ n ih =>
    have length : (if value % 2 = 0 then clrB off bytes else setB off bytes).length = bytes.length := by
      split_ifs <;> exact List.length_modify ..
    rw [writeBits, ih _ _ _ (by omega), bit_turn value off bytes (by omega)]
    by_cases here : i = off
    · rw [if_neg (by omega), if_pos here, if_pos (by omega), here, Nat.sub_self]
    · rw [if_neg here]
      by_cases later : off + 1 ≤ i ∧ i < off + 1 + n
      · rw [if_pos later, if_pos (by omega), Nat.testBit_div_two,
          show i - (off + 1) + 1 = i - off by omega]
      · rw [if_neg later, if_neg (by omega)]

section
variable {bytes : List UInt8} (short : bytes.length < 2 ^ 28) {v2 : BitVec 64}
  (few : bitCount v2 < 128)

include short few in
/-- The operand of a text in which the number of bits is not negative. -/
theorem setTextBits_eq :
    setTextBits bytes v2 =
      if 8 * bytes.length ≤ bitOffset v2 ∨ bitCount v2 = 0 then bytes
      else
        writeBits (min (min (bitCount v2) 32) (8 * bytes.length - bitOffset v2)) (bitOffset v2)
          (bitValue v2) bytes := by
  have width : (8 * bytes.length : Int).bmod (2 ^ 32) = 8 * bytes.length := by
    rw [Int.bmod_def]
    split_ifs <;> omega
  have off : (BitVec.ofNat 32 (v2.toNat / 2 ^ 32)).toInt = (v2.toNat / 2 ^ 32 : Nat) := by
    have small : v2.toNat / 2 ^ 32 < 2 ^ 31 := by
      unfold bitCount at few
      omega
    rw [BitVec.toInt_ofNat', Int.bmod_def]
    split_ifs <;> omega
  have size : ((v2.toNat / 2 ^ 32 : Nat) : Int) / 2 ^ 24 = bitCount v2 := by
    rw [← count_eq]
    rfl
  have start : ((v2.toNat / 2 ^ 32 : Nat) : Int) % 2 ^ 24 = bitOffset v2 := rfl
  unfold setTextBits
  simp only [width, off, size, start]
  by_cases skipped : 8 * bytes.length ≤ bitOffset v2 ∨ bitCount v2 = 0
  · rw [if_pos skipped, if_pos (by omega)]
  · rw [if_neg skipped, if_neg (by omega), Int.toNat_natCast]
    refine congrArg (writeBits · _ _ _) ?_
    split_ifs <;> omega

include short few in
/-- `SetBits` of a text replaces the bits that are addressed. -/
theorem bit_setTextBits (i : Nat) :
    bit (setTextBits bytes v2) i =
      if Addressed v2 i ∧ i < 8 * bytes.length then (bitValue v2).testBit (i - bitOffset v2)
      else bit bytes i := by
  rw [setTextBits_eq short few]
  by_cases skipped : 8 * bytes.length ≤ bitOffset v2 ∨ bitCount v2 = 0
  · rw [if_pos skipped, if_neg (by unfold Addressed; omega)]
  · rw [if_neg skipped, bit_writeBits _ _ _ _ (by omega)]
    refine if_congr ?_ rfl rfl
    unfold Addressed
    omega

/-- A text is determined by its length and its bits. -/
theorem eq_of_bits {a b : List UInt8} (length : a.length = b.length)
    (bits : ∀ i, bit a i = bit b i) : a = b := by
  refine List.ext_getElem length fun k hk hk' => UInt8.eq_of_toBitVec_eq ?_
  refine BitVec.eq_of_getLsbD_eq fun j hj => ?_
  have same := bits (8 * k + j)
  unfold bit at same
  rw [show (8 * k + j) / 8 = k by omega, show (8 * k + j) % 8 = j by omega,
    List.getD_eq_getElem _ _ hk, List.getD_eq_getElem _ _ hk'] at same
  exact same

theorem setIntBits_twice (v1 v2 : BitVec 64) :
    setIntBits (setIntBits v1 v2) v2 = setIntBits v1 v2 := by
  refine BitVec.eq_of_getLsbD_eq fun i lt => ?_
  rw [getLsbD_setIntBits _ _ lt, getLsbD_setIntBits _ _ lt]
  split_ifs <;> rfl

include short few in
theorem setTextBits_twice : setTextBits (setTextBits bytes v2) v2 = setTextBits bytes v2 := by
  refine eq_of_bits (length_setTextBits ..) fun i => ?_
  rw [bit_setTextBits (by rwa [length_setTextBits]) few, bit_setTextBits short few,
    length_setTextBits]
  split_ifs <;> rfl

end

/-! ### Updates -/

section Entry
variable (fl : FloatArithmetic) (t : TableDefinition) (id : Nat) (r : RowValue) (v : DTCValue)
  {type : DField}

theorem update_entry (oper : Operation) :
    update fl t [⟨id, oper, type, v⟩] r =
      Function.update r id (updateValue fl (t.field id) type oper (r id) v) := rfl

theorem update_twice {oper : Operation}
    (fixed : let once := updateValue fl (t.field id) type oper (r id) v
      updateValue fl (t.field id) type oper once v = once) :
    update fl t [⟨id, oper, type, v⟩] (update fl t [⟨id, oper, type, v⟩] r) =
      update fl t [⟨id, oper, type, v⟩] r := by
  rw [update_entry, update_entry, Function.update_self, Function.update_idem, fixed]

theorem updateValue_setIntBits (operand : type = .signed ∨ type = .unsigned)
    (field : (t.field id).fieldType = .signed ∨ (t.field id).fieldType = .unsigned) (x : DTCValue) :
    updateValue fl (t.field id) type .setBits x v = { x with num := setIntBits x.num v.num } := by
  unfold updateValue
  rcases field with field | field <;> rcases operand with rfl | rfl <;> simp only [field]

theorem updateValue_setTextBits (operand : type = .signed ∨ type = .unsigned)
    (field : (t.field id).fieldType = .string ∨ (t.field id).fieldType = .binary) (x : DTCValue) :
    updateValue fl (t.field id) type .setBits x v =
      { x with bin := ⟨setTextBits x.bin.1 v.num, by rw [length_setTextBits]; exact x.bin.2⟩ } := by
  unfold updateValue
  rcases field with field | field <;> rcases operand with rfl | rfl <;> simp only [field]

end Entry

end Dtc.Field
