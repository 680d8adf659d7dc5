import Dtc.Library.Memory

/-!
# Length-encoded texts

The integers and strings of the MySQL protocol. A first byte below 251 is the number itself, 251
stands for `NULL`, and 252, 253 and 254 announce a number of two, three and eight bytes. A string is
a number and that many bytes.
-/

namespace Library.LengthEncoded

open Library.Memory List

/-- A number of `n` bytes. -/
def fixed (n : Nat) (bytes : List UInt8) : Option (Option Nat × List UInt8) :=
  if bytes.length < n then none else some (some (leNat (bytes.take n)), bytes.drop n)

/-- A number, or `NULL`, and what is behind it. -/
def integer : List UInt8 → Option (Option Nat × List UInt8)
  | [] => none
  | b :: rest =>
    if b.toNat < 251 then some (some b.toNat, rest)
    else if b = 251 then some (none, rest)
    else if b = 252 then fixed 2 rest
    else if b = 253 then fixed 3 rest
    else if b = 254 then fixed 8 rest
    else none

/-- A string, or `NULL`, and what is behind it. -/
def text (bytes : List UInt8) : Option (Option (List UInt8) × List UInt8) :=
  match integer bytes with
  | none => none
  | some (none, rest) => some (none, rest)
  | some (some n, rest) =>
    if rest.length < n then none else some (some (rest.take n), rest.drop n)

/-- Exactly `n` strings. -/
def texts : Nat → List UInt8 → Option (List (Option (List UInt8)))
  | 0, [] => some []
  | 0, _ :: _ => none
  | n + 1, bytes =>
    (text bytes).bind fun first => (texts n first.2).map fun later => first.1 :: later

/-- A number takes a byte, and at least three from 251 on. -/
theorem length_integer {bytes rest : List UInt8} {n : Nat}
    (read : integer bytes = some (some n, rest)) :
    rest.length + 1 ≤ bytes.length ∧ (251 ≤ n → rest.length + 3 ≤ bytes.length) := by
  have fixedLength : ∀ {k : Nat} {tail : List UInt8}, 2 ≤ k → fixed k tail = some (some n, rest) →
      rest.length + 2 ≤ tail.length := by
    intro k tail large taken
    unfold fixed at taken
    split_ifs at taken with short
    cases taken
    rw [length_drop]
    omega
  cases bytes with
  | nil => cases read
  | cons b tail =>
    rw [integer] at read
    rw [length_cons]
    split_ifs at read with small null two three eight
    · cases read
      omega
    · cases read
    · have := fixedLength (Nat.le_refl 2) read
      omega
    · have := fixedLength (by decide) read
      omega
    · have := fixedLength (by decide) read
      omega

theorem length_text {bytes rest s : List UInt8} (read : text bytes = some (some s, rest)) :
    rest.length + (s.length + 1) ≤ bytes.length ∧
      (251 ≤ s.length → rest.length + (s.length + 3) ≤ bytes.length) := by
  unfold text at read
  match number : integer bytes with
  | none =>
    rw [number] at read
    cases read
  | some (none, tail) =>
    rw [number] at read
    cases read
  | some (some n, tail) =>
    rw [number] at read
    dsimp only at read
    split_ifs at read with short
    cases read
    obtain ⟨one, three⟩ := length_integer number
    rw [length_take, length_drop]
    omega

/-- A short string is its length and its bytes. -/
theorem text_short {s : List UInt8} (short : s.length < 251) (rest : List UInt8) :
    text (UInt8.ofNat s.length :: (s ++ rest)) = some (some s, rest) := by
  have length : (UInt8.ofNat s.length).toNat = s.length := by
    exact Nat.mod_eq_of_lt (by omega)
  have number : integer (UInt8.ofNat s.length :: (s ++ rest)) = some (some s.length, s ++ rest) := by
    rw [integer, length, if_pos short]
  unfold text
  rw [number]
  dsimp only
  rw [if_neg (by rw [length_append]; omega), take_left, drop_left]

/-- The bytes short strings would take. -/
def shortSize (strings : List (List UInt8)) : Nat := (strings.map fun s => s.length + 1).sum

@[simp] theorem shortSize_cons (s : List UInt8) (strings : List (List UInt8)) :
    shortSize (s :: strings) = s.length + 1 + shortSize strings := rfl

/-- Strings take as many bytes as short ones only if they are short. -/
theorem shortSize_le {strings : List (List UInt8)} {bytes : List UInt8}
    (read : texts strings.length bytes = some (strings.map some)) :
    shortSize strings ≤ bytes.length ∧
      (bytes.length = shortSize strings → ∀ s ∈ strings, s.length < 251) := by
  induction strings generalizing bytes with
  | nil => exact ⟨Nat.zero_le _, by simp⟩
  | cons s strings ih =>
    obtain ⟨⟨first, rest⟩, head, tail⟩ := Option.bind_eq_some_iff.mp read
    obtain ⟨later, found, same⟩ := Option.map_eq_some_iff.mp tail
    cases same
    obtain ⟨bound, tight⟩ := ih found
    obtain ⟨one, three⟩ := length_text head
    dsimp only at bound tight
    rw [shortSize_cons]
    refine ⟨by omega, fun equal => ?_⟩
    refine forall_mem_cons.mpr ⟨?_, tight (by omega)⟩
    by_contra long
    omega

theorem texts_short {strings : List (List UInt8)} (short : ∀ s ∈ strings, s.length < 251) :
    texts strings.length (strings.flatMap fun s => UInt8.ofNat s.length :: s) =
      some (strings.map some) := by
  induction strings with
  | nil => rfl
  | cons s strings ih =>
    rw [length_cons, texts, flatMap_cons, cons_append,
      text_short (short s mem_cons_self), Option.bind_some,
      ih fun r mem => short r (mem_cons_of_mem s mem)]
    rfl

end Library.LengthEncoded
