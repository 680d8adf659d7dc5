import Mathlib.Data.BitVec

/-!
# The bits of a byte

One bit of a byte is set or cleared with a shifted one; every other bit stays.
-/

namespace Library.Bits

variable (b : BitVec 8) (k : Nat)

def setBit : BitVec 8 := b ||| 1#8 <<< k

def clearBit : BitVec 8 := b &&& ~~~(1#8 <<< k)

variable {i : Nat}

theorem getLsbD_one_shiftLeft (lt : i < 8) : (1#8 <<< k).getLsbD i = decide (i = k) := by
  rw [BitVec.getLsbD_shiftLeft, BitVec.getLsbD_one]
  grind

theorem getLsbD_setBit (lt : i < 8) : (setBit b k).getLsbD i = (decide (i = k) || b.getLsbD i) := by
  rw [setBit, BitVec.getLsbD_or, getLsbD_one_shiftLeft k lt, Bool.or_comm]

theorem getLsbD_clearBit (lt : i < 8) :
    (clearBit b k).getLsbD i = (decide (i ≠ k) && b.getLsbD i) := by
  rw [clearBit, BitVec.getLsbD_and, BitVec.getLsbD_not, getLsbD_one_shiftLeft k lt, Bool.and_comm]
  simp [lt]

end Library.Bits
