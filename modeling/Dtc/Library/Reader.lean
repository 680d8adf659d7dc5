import Mathlib

/-!
# Byte readers

A reader takes bytes from the front of its input and gives a value and the rest, or an
error. `Reads r bytes a` says that `r` takes exactly `bytes`, whatever follows, and gives
`a`: it is the round trip of a format whose writer produces `bytes` for `a`, in the form
that passes through sequencing (`Reads.bind`).
-/

namespace Library

/-- A reader with errors in `ε`. -/
abbrev Reader (ε α : Type) := StateT (List UInt8) (Except ε) α

namespace Reader

variable {ε α β : Type}

/-- The next byte. -/
def byte (short : ε) : Reader ε UInt8
  | [] => .error short
  | b :: rest => .ok (b, rest)

/-- The next `n` bytes. -/
def take (short : ε) (n : Nat) : Reader ε (List UInt8) := fun bytes =>
  if bytes.length < n then .error short else .ok (bytes.take n, bytes.drop n)

/-- Fails. -/
def fail (e : ε) : Reader ε α := fun _ => .error e

/-- Fails if a condition does not hold. -/
def ensure (p : Prop) [Decidable p] (e : ε) : Reader ε Unit := if p then pure () else fail e

/-- A result that takes no input. -/
def lift (result : Except ε α) : Reader ε α := fun bytes => result.map fun a => (a, bytes)

/-- Reads over all of the input; bytes left behind are an error. -/
def whole (r : Reader ε α) (extra : ε) (bytes : List UInt8) : Except ε α :=
  match r bytes with
  | .ok (a, []) => .ok a
  | .ok (_, _ :: _) => .error extra
  | .error e => .error e

/-- The reader takes exactly these bytes and gives this value. -/
def Reads (r : Reader ε α) (bytes : List UInt8) (a : α) : Prop :=
  ∀ rest, r (bytes ++ rest) = .ok (a, rest)

theorem Reads.pure (a : α) : Reads (Pure.pure a : Reader ε α) [] a := fun _ => rfl

variable {r : Reader ε α} {f : α → Reader ε β}

variable {bytes rest xs ys : List UInt8} {b : β} {a : α} {short : ε}

theorem bind_of_ok (ok : r bytes = .ok (a, rest)) : (r >>= f) bytes = f a rest := by
  change (r bytes).bind _ = _
  rw [ok]
  rfl

theorem bind_of_error {e : ε} (error : r bytes = .error e) : (r >>= f) bytes = .error e := by
  change (r bytes).bind _ = _
  rw [error]
  rfl

/-- A sequence that succeeds is two readers that succeed. -/
theorem bind_eq_ok (ok : (r >>= f) bytes = .ok (b, rest)) :
    ∃ a mid, r bytes = .ok (a, mid) ∧ f a mid = .ok (b, rest) := by
  change (r bytes).bind _ = _ at ok
  cases read : r bytes with
  | error e => rw [read] at ok; exact nomatch ok
  | ok result =>
    rw [read] at ok
    exact ⟨result.1, result.2, rfl, ok⟩

theorem eq_of_pure_ok {b : α}
    (ok : (Pure.pure a : Reader ε α) bytes = .ok (b, rest)) : a = b ∧ bytes = rest :=
  Prod.mk.inj (Except.ok.inj ok)

theorem eq_of_take_ok {n : Nat}
    (ok : take short n bytes = .ok (xs, rest)) : xs.length = n ∧ bytes = xs ++ rest := by
  unfold take at ok
  split_ifs at ok with enough
  obtain ⟨rfl, rfl⟩ := Prod.mk.inj (Except.ok.inj ok)
  exact ⟨List.length_take_of_le (Nat.le_of_not_lt enough), (List.take_append_drop n bytes).symm⟩

theorem Reads.bind (first : Reads r xs a)
    (second : Reads (f a) ys b) : Reads (r >>= f) (xs ++ ys) b := by
  intro rest
  rw [List.append_assoc, bind_of_ok (first (ys ++ rest))]
  exact second rest

/-- Sequencing where the first reader takes nothing. -/
theorem Reads.bind_nil (first : Reads r [] a) (second : Reads (f a) ys b) : Reads (r >>= f) ys b :=
  first.bind second

/-- Sequencing where the second reader takes nothing. -/
theorem Reads.bind_last (first : Reads r xs a)
    (second : Reads (f a) [] b) : Reads (r >>= f) xs b := by
  have all := first.bind second
  rwa [List.append_nil] at all

theorem Reads.bind_cons {f : UInt8 → Reader ε β} {x : UInt8} {b : β}
    (second : Reads (f x) ys b) : Reads (byte short >>= f) (x :: ys) b := by
  have first : Reads (byte short) [x] x := fun _ => rfl
  exact first.bind second

theorem Reads.bind_pure (first : Reads r xs a) (g : α → β) :
    Reads (r >>= fun a => Pure.pure (g a)) xs (g a) :=
  first.bind_last (Reads.pure (g a))

theorem reads_take (short : ε) {n : Nat} (length : bytes.length = n) :
    Reads (take short n) bytes bytes := by
  subst length
  intro rest
  simp [take]

theorem reads_ensure {p : Prop} [Decidable p] {e : ε} (holds : p) : Reads (ensure p e) [] () := by
  intro rest
  rw [ensure, if_pos holds]
  rfl

theorem reads_lift (a : α) : Reads (lift (.ok a) : Reader ε α) [] a := fun _ => rfl

theorem Reads.whole (reads : Reads r bytes a) (extra : ε) : Reader.whole r extra bytes = .ok a := by
  have all := reads []
  rw [List.append_nil] at all
  rw [Reader.whole, all]

/-- A reader for each of a list of indices, in order. -/
def each {ι : Type} (r : ι → Reader ε α) : List ι → Reader ε (List α)
  | [] => Pure.pure []
  | i :: is => do
      let a ← r i
      let as ← each r is
      Pure.pure (a :: as)

theorem Reads.each {ι : Type} {r : ι → Reader ε α} {write : ι → List UInt8} {value : ι → α}
    {is : List ι} (reads : ∀ i ∈ is, Reads (r i) (write i) (value i)) :
    Reads (Reader.each r is) (is.flatMap write) (is.map value) := by
  induction is with
  | nil => exact Reads.pure []
  | cons i is ih =>
    refine (reads i (by simp)).bind ?_
    exact (ih fun j mem => reads j (by simp [mem])).bind_pure fun as => value i :: as

/-- A reader several times. -/
def times (r : Reader ε α) : Nat → Reader ε (List α)
  | 0 => Pure.pure []
  | n + 1 => do
      let a ← r
      let as ← times r n
      Pure.pure (a :: as)

theorem Reads.times {ι : Type} {write : ι → List UInt8} {value : ι → α} {xs : List ι}
    (reads : ∀ x ∈ xs, Reads r (write x) (value x)) :
    Reads (Reader.times r xs.length) (xs.flatMap write) (xs.map value) := by
  have same : Reader.times r xs.length = Reader.each (fun _ => r) xs := by
    induction xs with
    | nil => rfl
    | cons x xs ih => rw [List.length_cons, Reader.times, Reader.each, ih fun y mem => reads y (by simp [mem])]
  rw [same]
  exact Reads.each reads

theorem length_of_times_ok {n : Nat} {as : List α} (ok : Reader.times r n bytes = .ok (as, rest)) :
    as.length = n := by
  induction n generalizing as bytes rest with
  | zero =>
    obtain ⟨rfl, -⟩ := eq_of_pure_ok ok
    rfl
  | succ n ih =>
    obtain ⟨a, mid, -, ok⟩ := bind_eq_ok ok
    obtain ⟨as', mid', tail, ok⟩ := bind_eq_ok ok
    obtain ⟨rfl, -⟩ := eq_of_pure_ok ok
    rw [List.length_cons, ih tail]

end Reader
end Library
