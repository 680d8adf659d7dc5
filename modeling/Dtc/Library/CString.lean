import Dtc.Library.Memory

/-!
# Strings that end at a zero byte

A reader of such a string goes on until it meets a zero byte. What a writer has left behind a
string that it did not terminate belongs to the string.
-/

namespace Library.Memory

open List

/-- The bytes up to the first zero byte; `none` if there is none among the first `n`. -/
def cString (m : Nat → UInt8) : Nat → Nat → Option (List UInt8)
  | 0, _ => none
  | n + 1, a => if m a = 0 then some [] else (cString m n (a + 1)).map (m a :: ·)

/-- A string with its zero byte. -/
structure StringAt (m : Nat → UInt8) (a : Nat) (text : List UInt8) : Prop where
  nonzero : 0 ∉ text
  holds : Holds m a (text ++ [0])

section
variable {m : Nat → UInt8} {a b n : Nat} {text bytes : List UInt8}

theorem StringAt.cString_eq (string : StringAt m a text) (inside : text.length < n) :
    cString m n a = some text := by
  obtain ⟨nonzero, holds⟩ := string
  induction text generalizing a n with
  | nil =>
    cases n with
    | zero => exact absurd inside (Nat.not_lt_zero _)
    | succ n => rw [cString, if_pos (holds_cons.mp holds).1]
  | cons x text ih =>
    cases n with
    | zero => exact absurd inside (Nat.not_lt_zero _)
    | succ n =>
      obtain ⟨first, rest⟩ := holds_cons.mp holds
      obtain ⟨ne, nonzero⟩ := not_or.mp (mt mem_cons.mpr nonzero)
      rw [cString, first, if_neg (Ne.symm ne), ih (Nat.lt_of_succ_lt_succ inside) nonzero rest]
      rfl

theorem StringAt.store_apart (string : StringAt m b text)
    (apart : b + text.length + 1 ≤ a ∨ a + bytes.length ≤ b) : StringAt (store m a bytes) b text where
  nonzero := string.nonzero
  holds := string.holds.store_apart (by
    rw [length_append, length_singleton]
    omega)

/-- `strcpy`. -/
theorem stringAt_store (nonzero : 0 ∉ text) : StringAt (store m a (text ++ [0])) a text :=
  ⟨nonzero, holds_store⟩

/-- Bytes with a zero byte among them, or in front of one, are a string. -/
theorem Holds.stringAt (holds : Holds m a bytes) (ends : 0 ∈ bytes ∨ m (a + bytes.length) = 0) :
    StringAt m a (bytes.takeWhile (· ≠ 0)) := by
  induction bytes generalizing a with
  | nil =>
    have zero : m a = 0 := ends.resolve_left not_mem_nil
    exact ⟨not_mem_nil, holds_cons.mpr ⟨zero, holds_nil⟩⟩
  | cons x bytes ih =>
    obtain ⟨first, rest⟩ := holds_cons.mp holds
    by_cases zero : x = 0
    · subst zero
      exact ⟨by simp, holds_cons.mpr ⟨first, holds_nil⟩⟩
    · have ends' : 0 ∈ bytes ∨ m (a + 1 + bytes.length) = 0 := by
        refine ends.imp (fun among => (mem_cons.mp among).resolve_left (Ne.symm zero)) ?_
        intro behind
        rw [length_cons] at behind
        rw [← behind]
        congr 1
        omega
      obtain ⟨nonzero, tail⟩ := ih rest ends'
      have step : (x :: bytes).takeWhile (· ≠ 0) = x :: bytes.takeWhile (· ≠ 0) := by simp [zero]
      rw [step]
      refine ⟨fun among => ?_, holds_cons.mpr ⟨first, tail⟩⟩
      exact (mem_cons.mp among).elim (Ne.symm zero) nonzero

/-- `memcpy` of bytes with a zero byte among them, or in front of one. -/
theorem stringAt_store_takeWhile (ends : 0 ∈ bytes ∨ m (a + bytes.length) = 0) :
    StringAt (store m a bytes) a (bytes.takeWhile (· ≠ 0)) := by
  refine holds_store.stringAt (ends.imp_right fun zero => ?_)
  rw [store_outside (.inr le_rfl), zero]

end

end Library.Memory
