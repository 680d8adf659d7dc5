import Mathlib

/-!
# Byte-addressed memory

A memory maps every address to a byte. `slice` reads a range, `store` overwrites
one, and `move` copies a range onto another that may overlap it, as `memmove` does.
Numbers are little-endian byte strings, in packets big-endian ones.

The lemmas describe a store by the slices it leaves: the written range holds the
written bytes and every range apart from it is as before. `Holds m a bytes` says
that a byte string stands at an address; the content of a packed buffer is one such
fact, taken apart and put together by `holds_append`.
-/

namespace Library.Memory

open List

/-- The sum of two unsigned 32-bit numbers. -/
def add32 (a b : Nat) : Nat := (a + b) % 2 ^ 32

/-- The difference of two unsigned 32-bit numbers. -/
def sub32 (a b : Nat) : Nat := (a + 2 ^ 32 - b) % 2 ^ 32

theorem add32_eq {a b : Nat} (fits : a + b < 2 ^ 32) : add32 a b = a + b := Nat.mod_eq_of_lt fits

theorem sub32_eq {a b : Nat} (le : b ≤ a) (fits : a < 2 ^ 32) : sub32 a b = a - b := by
  unfold sub32
  omega

/-- A sum that overflows comes back into range when enough is taken away. -/
theorem sub32_add32 {a b c : Nat} (le : c ≤ a) (range : a < 2 ^ 32) (fits : a + b - c < 2 ^ 32) :
    sub32 (add32 a b) c = a + b - c := by
  unfold sub32 add32
  omega

/-- The bytes of a number, lowest first, cut off after `n` bytes. -/
def leBytes : Nat → Nat → List UInt8
  | 0, _ => []
  | n + 1, x => UInt8.ofNat x :: leBytes n (x / 256)

/-- The number of a little-endian byte string. -/
def leNat : List UInt8 → Nat
  | [] => 0
  | b :: bs => b.toNat + 256 * leNat bs

/-- The `n` bytes from address `a` on. -/
def slice (m : Nat → UInt8) : Nat → Nat → List UInt8
  | _, 0 => []
  | a, n + 1 => m a :: slice m (a + 1) n

/-- The memory with a byte string written at address `a`. -/
def store (m : Nat → UInt8) (a : Nat) (bytes : List UInt8) : Nat → UInt8 := fun i =>
  if a ≤ i ∧ i < a + bytes.length then bytes.getD (i - a) 0 else m i

/-- The memory with `n` bytes copied from `src` to `dst`. -/
def move (m : Nat → UInt8) (dst src n : Nat) : Nat → UInt8 := store m dst (slice m src n)

/-- The `n`-byte number at address `a`. -/
def load (m : Nat → UInt8) (a n : Nat) : Nat := leNat (slice m a n)

@[simp] theorem length_leBytes (n x : Nat) : (leBytes n x).length = n := by
  induction n generalizing x with
  | zero => rfl
  | succ n ih => simp [leBytes, ih]

theorem leNat_leBytes (n x : Nat) : leNat (leBytes n x) = x % 256 ^ n := by
  induction n generalizing x with
  | zero => simp [leBytes, leNat, Nat.mod_one]
  | succ n ih =>
    rw [leBytes, leNat, ih, pow_succ', Nat.mod_mul]
    simp

theorem leNat_leBytes_of_lt {n x : Nat} (bound : x < 256 ^ n) : leNat (leBytes n x) = x := by
  rw [leNat_leBytes, Nat.mod_eq_of_lt bound]

theorem leBytes_leNat (bytes : List UInt8) : leBytes bytes.length (leNat bytes) = bytes := by
  induction bytes with
  | nil => rfl
  | cons b bs ih =>
    have low : UInt8.ofNat (b.toNat + 256 * leNat bs) = b := by
      apply UInt8.toNat.inj
      rw [UInt8.toNat_ofNat']
      have := b.toNat_lt
      omega
    have high : (b.toNat + 256 * leNat bs) / 256 = leNat bs := by
      have := b.toNat_lt
      omega
    rw [leNat, length_cons, leBytes, low, high, ih]

theorem leNat_lt (bytes : List UInt8) : leNat bytes < 256 ^ bytes.length := by
  induction bytes with
  | nil => simp [leNat]
  | cons b bs ih =>
    have := b.toNat_lt
    rw [leNat, length_cons, pow_succ']
    omega

theorem leNat_append (xs ys : List UInt8) :
    leNat (xs ++ ys) = leNat xs + 256 ^ xs.length * leNat ys := by
  induction xs with
  | nil => simp [leNat]
  | cons b bs ih =>
    rw [cons_append, leNat, ih, leNat, length_cons, pow_succ', Nat.mul_add,
      Nat.mul_assoc, Nat.add_assoc]

theorem leNat_replicate_zero (n : Nat) : leNat (replicate n 0) = 0 := by
  induction n with
  | zero => rfl
  | succ n ih => simp [replicate_succ, leNat, ih]

theorem leNat_replicate_max (n : Nat) : leNat (replicate n 255) + 1 = 256 ^ n := by
  induction n with
  | zero => rfl
  | succ n ih =>
    have top : (255 : UInt8).toNat = 255 := rfl
    rw [replicate_succ, leNat, top, pow_succ']
    omega

/-- The bytes of a number, one at a time. -/
theorem leBytes_mod (n x : Nat) : leBytes n (x % 256 ^ n) = leBytes n x := by
  have back := leBytes_leNat (leBytes n x)
  rwa [length_leBytes, leNat_leBytes] at back

theorem getD_leBytes {n i : Nat} (bound : i < n) (x : Nat) (d : UInt8) :
    (leBytes n x).getD i d = UInt8.ofNat (x / 256 ^ i) := by
  induction n generalizing i x with
  | zero => omega
  | succ n ih =>
    cases i with
    | zero => simp [leBytes]
    | succ i =>
      rw [leBytes, getD_cons_succ, ih (by omega), Nat.div_div_eq_div_mul, pow_succ']

/-- The last `n` bytes of a number, highest first. -/
def beBytes (n x : Nat) : List UInt8 := (leBytes n x).reverse

/-- The number of a big-endian byte string. -/
def beNat (bytes : List UInt8) : Nat := leNat bytes.reverse

@[simp] theorem length_beBytes (n x : Nat) : (beBytes n x).length = n := by simp [beBytes]

theorem leBytes_succ' (n x : Nat) : leBytes (n + 1) x = leBytes n x ++ [UInt8.ofNat (x / 256 ^ n)] := by
  induction n generalizing x with
  | zero => simp [leBytes]
  | succ n ih =>
    rw [leBytes, ih, leBytes, cons_append, Nat.div_div_eq_div_mul, pow_succ']

theorem beBytes_succ (n x : Nat) : beBytes (n + 1) x = UInt8.ofNat (x / 256 ^ n) :: beBytes n x := by
  rw [beBytes, leBytes_succ', reverse_append]
  rfl

theorem beNat_cons (b : UInt8) (bytes : List UInt8) :
    beNat (b :: bytes) = b.toNat * 256 ^ bytes.length + beNat bytes := by
  rw [beNat, reverse_cons, leNat_append, length_reverse, beNat]
  simp only [leNat]
  rw [Nat.mul_zero, Nat.add_zero, Nat.add_comm, Nat.mul_comm]

theorem beNat_beBytes (n x : Nat) : beNat (beBytes n x) = x % 256 ^ n := by
  rw [beNat, beBytes, reverse_reverse, leNat_leBytes]

theorem beNat_beBytes_of_lt {n x : Nat} (bound : x < 256 ^ n) : beNat (beBytes n x) = x := by
  rw [beNat_beBytes, Nat.mod_eq_of_lt bound]

section Slice
variable {m m' : Nat → UInt8} {a n k : Nat}

@[simp] theorem slice_zero : slice m a 0 = [] := rfl

@[simp] theorem length_slice : (slice m a n).length = n := by
  induction n generalizing a with
  | zero => rfl
  | succ n ih => simp [slice, ih]

/-- Adjacent slices. -/
theorem slice_add : slice m a (n + k) = slice m a n ++ slice m (a + n) k := by
  induction n generalizing a with
  | zero => simp
  | succ n ih =>
    rw [Nat.succ_add, slice, slice, ih, cons_append]
    congr 3
    omega

theorem getD_slice {i : Nat} (bound : i < n) (d : UInt8) : (slice m a n).getD i d = m (a + i) := by
  induction n generalizing a i with
  | zero => omega
  | succ n ih =>
    cases i with
    | zero => rfl
    | succ i =>
      rw [slice, getD_cons_succ, ih (by omega)]
      congr 1
      omega

theorem slice_congr (same : ∀ i, a ≤ i → i < a + n → m i = m' i) : slice m a n = slice m' a n := by
  induction n generalizing a with
  | zero => rfl
  | succ n ih =>
    rw [slice, slice, same a le_rfl (by omega), ih fun i hi hb => same i (by omega) (by omega)]

end Slice

section Store
variable {m : Nat → UInt8} {a b n : Nat} {bytes : List UInt8}

theorem store_outside {i : Nat} (apart : i < a ∨ a + bytes.length ≤ i) :
    store m a bytes i = m i := by
  unfold store
  rw [if_neg (by omega)]

/-- The written range holds the written bytes. -/
theorem slice_store : slice (store m a bytes) a bytes.length = bytes := by
  have inside : ∀ i, a ≤ i → i < a + bytes.length →
      store m a bytes i = bytes.getD (i - a) 0 := fun i low high => if_pos ⟨low, high⟩
  generalize store m a bytes = m' at inside
  induction bytes generalizing a with
  | nil => rfl
  | cons b bs ih =>
    rw [length_cons] at inside ⊢
    rw [slice, inside a le_rfl (by omega), ih]
    · simp
    · intro i low high
      rw [inside i (by omega) (by omega), show i - a = i - (a + 1) + 1 by omega, getD_cons_succ]

theorem slice_store_of_length (length : bytes.length = n) : slice (store m a bytes) a n = bytes := by
  subst length
  exact slice_store

/-- A range apart from the written one is as before. -/
theorem slice_store_apart (apart : b + n ≤ a ∨ a + bytes.length ≤ b) :
    slice (store m a bytes) b n = slice m b n := by
  apply slice_congr
  intro i low high
  exact store_outside (by omega)

theorem slice_move (dst src n : Nat) : slice (move m dst src n) dst n = slice m src n :=
  slice_store_of_length length_slice

theorem slice_move_apart {dst src k : Nat} (apart : b + n ≤ dst ∨ dst + k ≤ b) :
    slice (move m dst src k) b n = slice m b n :=
  slice_store_apart (by simpa using apart)

theorem load_lt (m : Nat → UInt8) (a n : Nat) : load m a n < 256 ^ n := by
  have := leNat_lt (slice m a n)
  rwa [length_slice] at this

theorem load_store {x : Nat} (bound : x < 256 ^ n) : load (store m a (leBytes n x)) a n = x := by
  rw [load, slice_store_of_length (length_leBytes n x), leNat_leBytes_of_lt bound]

theorem load_store_apart (apart : b + n ≤ a ∨ a + bytes.length ≤ b) :
    load (store m a bytes) b n = load m b n := by
  rw [load, slice_store_apart apart, load]

end Store

/-- A byte string stands at an address. -/
def Holds (m : Nat → UInt8) (a : Nat) (bytes : List UInt8) : Prop :=
  slice m a bytes.length = bytes

section Holds
variable {m m' : Nat → UInt8} {a b n : Nat} {bytes xs ys : List UInt8}

@[simp] theorem holds_nil : Holds m a [] := rfl

theorem holds_append : Holds m a (xs ++ ys) ↔ Holds m a xs ∧ Holds m (a + xs.length) ys := by
  unfold Holds
  rw [length_append, slice_add]
  constructor
  · intro same
    exact append_inj same length_slice
  · rintro ⟨left, right⟩
    rw [left, right]

theorem holds_cons {x : UInt8} : Holds m a (x :: xs) ↔ m a = x ∧ Holds m (a + 1) xs := by
  unfold Holds
  rw [length_cons, slice, cons.injEq]

theorem Holds.slice_eq (holds : Holds m a bytes) (length : bytes.length = n) :
    slice m a n = bytes := length ▸ holds

/-- The start of a byte string. -/
theorem Holds.slice_take (holds : Holds m a bytes) (le : n ≤ bytes.length) :
    slice m a n = bytes.take n := by
  rw [← take_append_drop n bytes, holds_append] at holds
  exact holds.1.slice_eq (length_take_of_le le)

theorem Holds.load {x : Nat} (holds : Holds m a (leBytes n x)) (bound : x < 256 ^ n) :
    load m a n = x := by
  rw [Memory.load, holds.slice_eq (length_leBytes n x), leNat_leBytes_of_lt bound]

theorem Holds.congr (holds : Holds m a bytes)
    (same : ∀ i, a ≤ i → i < a + bytes.length → m' i = m i) : Holds m' a bytes :=
  (slice_congr same).trans holds

theorem holds_store : Holds (store m a bytes) a bytes := slice_store

theorem Holds.store_apart (holds : Holds m b bytes)
    (apart : b + bytes.length ≤ a ∨ a + xs.length ≤ b) : Holds (store m a xs) b bytes :=
  (slice_store_apart apart).trans holds

theorem Holds.move_to (holds : Holds m a bytes) (dst : Nat) :
    Holds (move m dst a bytes.length) dst bytes :=
  (slice_move dst a bytes.length).trans holds

theorem Holds.move_apart (holds : Holds m b bytes) {dst src : Nat}
    (apart : b + bytes.length ≤ dst ∨ dst + n ≤ b) : Holds (move m dst src n) b bytes :=
  (slice_move_apart apart).trans holds

/-- Writing two byte strings one after the other. -/
theorem store_append : store (store m a xs) (a + xs.length) ys = store m a (xs ++ ys) := by
  funext i
  by_cases before : i < a + xs.length
  · rw [store_outside (.inl before)]
    unfold store
    simp only [length_append]
    by_cases inside : a ≤ i
    · rw [if_pos ⟨inside, before⟩, if_pos (by omega), getD_append _ _ _ _ (by omega)]
    · rw [if_neg (by omega), if_neg (by omega)]
  · unfold store
    simp only [length_append]
    by_cases inside : i < a + xs.length + ys.length
    · rw [if_pos (by omega), if_pos (by omega), getD_append_right _ _ _ _ (by omega)]
      congr 1
      omega
    · rw [if_neg (by omega), if_neg (by omega), if_neg (by omega)]

theorem move_self : move m a a n = m := by
  funext i
  unfold move store
  split_ifs with h
  · rw [length_slice] at h
    rw [getD_slice (by omega), Nat.add_sub_cancel' h.1]
  · rfl

@[simp] theorem store_nil : store m a [] = m := by
  funext i
  exact store_outside (by simp; omega)

end Holds

end Library.Memory
