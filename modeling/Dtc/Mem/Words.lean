import Dtc.Mem.Heap

/-!
# The size words

A size word is a multiple of eight with the `PREV_INUSE` bit. The lemmas say what the
macros on size words do to the size and to the bit, and which bytes they write.
-/

namespace Dtc.Mem

open Library.Memory

section Arith
variable {n w : Nat}

theorem realSize_of_dvd (aligned : 8 ∣ n) : realSize n = n := Nat.div_mul_cancel aligned

theorem tSize_lt (m : Nat → UInt8) (c : Nat) : tSize m c < 2 ^ 32 := load_lt m (c + 4) 4

section
variable (aligned : 8 ∣ n) (bits : w < 8)
include aligned bits

theorem or_bits : n ||| w = n + w := by
  obtain ⟨k, rfl⟩ := aligned
  exact (Nat.two_pow_add_eq_or_of_lt (i := 3) bits k).symm

theorem realSize_or_bits : realSize (n ||| w) = n := by
  rw [or_bits aligned bits]
  unfold realSize
  omega

theorem or_bits_mod : (n ||| w) % 2 = w % 2 := by
  rw [or_bits aligned bits]
  omega

end

theorem or_one (w : Nat) : w ||| 1 = w / 2 * 2 + 1 := by
  have div := Nat.or_div_two (a := w) (b := 1)
  have mod := Nat.or_mod_two_eq_one (a := w) (b := 1)
  rw [show 1 / 2 = 0 from rfl, Nat.or_zero] at div
  have := mod.mpr (.inr rfl)
  omega

theorem realSize_or_one : realSize (w ||| 1) = realSize w := by
  rw [or_one]
  unfold realSize
  omega

end Arith

section Setters
variable {s : PtMalloc} {c i v n : Nat}

theorem mem_setTSize (outside : i < c + 4 ∨ c + 8 ≤ i) : (s.setTSize c v).mem i = s.mem i :=
  store_outside (by rw [length_leBytes]; omega)

theorem mem_setTPreSize (outside : i < c ∨ c + 4 ≤ i) : (s.setTPreSize c v).mem i = s.mem i :=
  store_outside (by rw [length_leBytes]; omega)

theorem mem_setSize (outside : i < c + 4 ∨ c + 8 ≤ i) : (s.setSize c v).mem i = s.mem i :=
  mem_setTSize outside

theorem mem_setPresize (outside : i < c ∨ c + 4 ≤ i) : (s.setPresize c v).mem i = s.mem i :=
  mem_setTPreSize outside

theorem mem_setInuseBit (outside : i < c + 4 ∨ c + 8 ≤ i) : (s.setInuseBit c).mem i = s.mem i :=
  mem_setTSize outside

theorem mem_clearInuseBit (outside : i < c + 4 ∨ c + 8 ≤ i) : (s.clearInuseBit c).mem i = s.mem i :=
  mem_setTSize outside

theorem tSize_setTSize (fits : v < 2 ^ 32) : tSize (s.setTSize c v).mem c = v := load_store fits

theorem tPreSize_setTPreSize (fits : v < 2 ^ 32) : tPreSize (s.setTPreSize c v).mem c = v :=
  load_store fits

section
variable (aligned : 8 ∣ n) (fits : n < 2 ^ 32)

include aligned fits

theorem tPreSize_setPresize : tPreSize (s.setPresize c n).mem c = n := by
  unfold PtMalloc.setPresize
  rw [realSize_of_dvd aligned, tPreSize_setTPreSize fits]

theorem setSize_fits (w : Nat) : realSize n ||| w % 8 < 2 ^ 32 := by
  rw [realSize_of_dvd aligned, or_bits aligned (Nat.mod_lt w (by decide))]
  omega

theorem chunkSize_setSize : chunkSize (s.setSize c n).mem c = n := by
  unfold chunkSize PtMalloc.setSize
  rw [tSize_setTSize (setSize_fits aligned fits _), realSize_of_dvd aligned,
    realSize_or_bits aligned (Nat.mod_lt _ (by decide))]

theorem prevInuse_setSize : prevInuse (s.setSize c n).mem c = prevInuse s.mem c := by
  unfold prevInuse PtMalloc.setSize
  rw [tSize_setTSize (setSize_fits aligned fits _), realSize_of_dvd aligned,
    or_bits_mod aligned (Nat.mod_lt _ (by decide)), Nat.mod_mod_of_dvd _ (by decide)]

end

theorem tSize_setInuseBit : tSize (s.setInuseBit c).mem c = tSize s.mem c ||| 1 := by
  refine tSize_setTSize ?_
  have := tSize_lt s.mem c
  rw [or_one]
  omega

theorem chunkSize_setInuseBit : chunkSize (s.setInuseBit c).mem c = chunkSize s.mem c := by
  rw [chunkSize, tSize_setInuseBit, realSize_or_one, chunkSize]

theorem prevInuse_setInuseBit : prevInuse (s.setInuseBit c).mem c = true := by
  rw [prevInuse, tSize_setInuseBit, or_one, beq_iff_eq]
  omega

theorem tSize_clearInuseBit : tSize (s.clearInuseBit c).mem c = tSize s.mem c / 2 * 2 := by
  refine tSize_setTSize ?_
  have := tSize_lt s.mem c
  omega

theorem chunkSize_clearInuseBit : chunkSize (s.clearInuseBit c).mem c = chunkSize s.mem c := by
  rw [chunkSize, tSize_clearInuseBit, chunkSize]
  unfold realSize
  omega

theorem prevInuse_clearInuseBit : prevInuse (s.clearInuseBit c).mem c = false := by
  rw [prevInuse, tSize_clearInuseBit, beq_eq_false_iff_ne]
  omega

end Setters

end Dtc.Mem
