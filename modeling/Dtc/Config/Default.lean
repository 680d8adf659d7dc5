import Mathlib

/-!
# Default values of fields

`DefaultValue` of a string or binary field is a quoted text or a hexadecimal number, whose bytes a
`-` may separate. A text is the bytes in front of its terminator. The loop over the digits takes no
step at a separator, and what is copied behind it is the text itself.
-/

namespace Dtc.Config

open List

/-- The value of a hexadecimal digit. -/
def hexDigit (c : UInt8) : Option UInt8 :=
  if 48 ≤ c ∧ c ≤ 57 then some (c - 48)
  else if 97 ≤ c ∧ c ≤ 102 then some (c - 97 + 10)
  else if 65 ≤ c ∧ c ≤ 70 then some (c - 65 + 10)
  else none

/-- The loop over the digits: `none` if it has not ended after so many rounds, `some none` for an
invalid digit, and else the number of bytes. -/
def hexLoop : Nat → List UInt8 → Int → Option (Option Int)
  | 0, _, _ => none
  | _ + 1, [], len => some (some len)
  | fuel + 1, c :: rest, len =>
    -- `if (cp[j] == '-') continue;`
    if c = 45 then hexLoop fuel (c :: rest) len
    else
      match rest with
      | [] => some none
      | d :: rest =>
        if (hexDigit c).isSome ∧ (hexDigit d).isSome then hexLoop fuel rest (len + 1)
        else some none

inductive Outcome
  | rejected
  | undefined
  | default (bytes : List UInt8)
  deriving DecidableEq

/-- What follows the branches: `len` bytes at `cp` are copied. -/
def copyDefault (size len : Int) (cp : List UInt8) : Outcome :=
  if size < len then .rejected
  else if len = 0 then .default []
  else if len < 0 then .undefined
  else .default (cp.take len.toNat)

/-- What follows the loop over the digits. -/
def hexDefault (size : Int) (cp : List UInt8) : Option Int → Outcome
  | none => .rejected
  | some len => copyDefault size len cp

/-- The default value of a string or binary field, `first` for `Field1`. The byte in front of an
empty text in quotes is the opening quote. -/
def parseDefault (fuel : Nat) (first : Bool) (size : Int) : List UInt8 → Option Outcome
  | [] => some (if first then .rejected else .default [])
  | c :: cp =>
    if first then some .rejected
    else if c = 34 then
      some (if (c :: cp).getLast? = some 34 then copyDefault size (cp.length - 1) cp else .rejected)
    else if c = 48 ∧ cp.head?.map (· ||| 0x20) = some 120 then
      (hexLoop fuel cp.tail 0).map (hexDefault size (c :: cp))
    else some .rejected

/-- The bytes of a hexadecimal number with separators. -/
def decodeHex : List UInt8 → Option (List UInt8)
  | [] => some []
  | [c] => if c = 45 then some [] else none
  | c :: d :: rest =>
    if c = 45 then decodeHex (d :: rest)
    else
      match hexDigit c, hexDigit d, decodeHex rest with
      | some v, some w, some bytes => some ((v * 16 + w) :: bytes)
      | _, _, _ => none

/-- What a text denotes. -/
inductive Denotes : List UInt8 → List UInt8 → Prop
  | empty : Denotes [] []
  | quoted (bytes : List UInt8) : Denotes (34 :: (bytes ++ [34])) bytes
  | hex {x : UInt8} {digits bytes : List UInt8} (number : x ||| 0x20 = 120)
      (decoded : decodeHex digits = some bytes) : Denotes (48 :: x :: digits) bytes

/-- A separator stands where the loop looks for a byte. -/
def separated : List UInt8 → Bool
  | [] => false
  | [c] => c == 45
  | c :: d :: rest => c == 45 || (hexDigit c).isSome && (hexDigit d).isSome && separated rest

/-- Parsing ends, with the configuration rejected or with what the text denotes. -/
def Right (first : Bool) (size : Int) (text : List UInt8) : Prop :=
  ∃ fuel outcome, parseDefault fuel first size text = some outcome ∧
    (outcome = .rejected ∨ ∃ bytes, outcome = .default bytes ∧ Denotes text bytes)

theorem hexLoop_separator (fuel : Nat) (rest : List UInt8) (len : Int) :
    hexLoop fuel (45 :: rest) len = none := by
  induction fuel with
  | zero => rfl
  | succ fuel ih =>
    unfold hexLoop
    rw [if_pos rfl, ih]

theorem exists_hexLoop_succ {digits : List UInt8} {len : Int} {r : Option Int} :
    (∃ fuel, hexLoop fuel digits len = some r) ↔ ∃ fuel, hexLoop (fuel + 1) digits len = some r := by
  constructor
  · rintro ⟨_ | fuel, run⟩
    · exact nomatch run
    · exact ⟨fuel, run⟩
  · rintro ⟨fuel, run⟩
    exact ⟨fuel + 1, run⟩

/-- The loop ends unless there is a separator in its way, and counts the bytes of the number. -/
theorem hexLoop_ends_iff {digits : List UInt8} {len : Int} {r : Option Int} :
    (∃ fuel, hexLoop fuel digits len = some r) ↔
      separated digits = false ∧ (decodeHex digits).map (fun bytes => len + bytes.length) = r := by
  induction digits using separated.induct generalizing len with
  | case1 => simp [exists_hexLoop_succ, hexLoop, separated, decodeHex]
  | case2 c =>
    rw [exists_hexLoop_succ]
    by_cases sep : c = 45
    · subst sep
      simp [hexLoop_separator, separated]
    · simp [hexLoop, separated, decodeHex, sep]
  | case3 c d rest ih =>
    rw [exists_hexLoop_succ]
    by_cases sep : c = 45
    · subst sep
      simp [hexLoop_separator, separated]
    · simp only [hexLoop, separated, decodeHex, if_neg sep]
      cases hexDigit c with
      | none => simp [sep]
      | some v =>
        cases hexDigit d with
        | none => simp [sep]
        | some w =>
          simp only [Option.isSome_some, and_self, if_true, ih]
          cases decodeHex rest <;> simp [sep, Int.add_assoc, Int.add_comm 1]

theorem copyDefault_natCast (size : Int) (n : Nat) (cp : List UInt8) :
    copyDefault size n cp = if size < n then .rejected else .default (cp.take n) := by
  unfold copyDefault
  split_ifs with large zero neg
  · rfl
  · rw [Int.natCast_eq_zero.mp zero, take_zero]
  · omega
  · rfl

theorem denotes_quoted_iff {cp bytes : List UInt8} :
    Denotes (34 :: cp) bytes ↔ cp = bytes ++ [34] := by
  constructor
  · rintro ⟨⟩
    rfl
  · rintro rfl
    exact .quoted bytes

theorem denotes_hex_iff {x : UInt8} {digits bytes : List UInt8} (number : x ||| 0x20 = 120) :
    Denotes (48 :: x :: digits) bytes ↔ decodeHex digits = some bytes := by
  constructor
  · rintro ⟨⟩
    assumption
  · exact .hex number

section
variable {size : Int} {text : List UInt8}

theorem right_of_eq {first : Bool} {outcome : Outcome}
    (same : ∀ fuel, parseDefault fuel first size text = some outcome) :
    Right first size text ↔
      outcome = .rejected ∨ ∃ bytes, outcome = .default bytes ∧ Denotes text bytes := by
  constructor
  · rintro ⟨fuel, result, parsed, right⟩
    rw [same fuel] at parsed
    exact Option.some.inj parsed ▸ right
  · exact fun right => ⟨0, outcome, same 0, right⟩

theorem right_quoted_iff (cp : List UInt8) :
    Right false size (34 :: cp) ↔ (cp = [] → size < -1) := by
  rw [right_of_eq fun fuel => by rw [parseDefault, if_neg Bool.false_ne_true, if_pos rfl]]
  rcases eq_nil_or_concat' cp with rfl | ⟨bytes, c, rfl⟩
  · simp [copyDefault, denotes_quoted_iff]
  · have last : (34 :: (bytes ++ [c])).getLast? = some c := by
      rw [← cons_append, getLast?_concat]
    have length : ((bytes ++ [c]).length : Int) - 1 = bytes.length := by
      rw [length_append, length_singleton]
      omega
    rw [last, length, copyDefault_natCast, take_left]
    refine iff_of_true ?_ fun empty => absurd empty (by simp)
    by_cases quote : c = 34
    · subst quote
      rw [if_pos rfl]
      split_ifs
      · exact .inl rfl
      · exact .inr ⟨bytes, rfl, .quoted bytes⟩
    · rw [if_neg fun same => quote (Option.some.inj same)]
      exact .inl rfl

theorem right_hex_iff {x : UInt8} {digits : List UInt8} (number : x ||| 0x20 = 120) :
    Right false size (48 :: x :: digits) ↔ separated digits = false ∧
      ∀ bytes, decodeHex digits = some bytes → bytes.length ≤ size → bytes <+: 48 :: x :: digits := by
  have run : ∀ fuel, parseDefault fuel false size (48 :: x :: digits) =
      (hexLoop fuel digits 0).map (hexDefault size (48 :: x :: digits)) := fun fuel => by
    simp [parseDefault, number]
  have ended : Right false size (48 :: x :: digits) ↔ ∃ r, (∃ fuel, hexLoop fuel digits 0 = some r) ∧
      (hexDefault size (48 :: x :: digits) r = .rejected ∨ ∃ bytes,
        hexDefault size (48 :: x :: digits) r = .default bytes ∧ decodeHex digits = some bytes) := by
    simp only [Right, run, Option.map_eq_some_iff, denotes_hex_iff number]
    constructor
    · rintro ⟨fuel, _, ⟨r, ends, rfl⟩, right⟩
      exact ⟨r, ⟨fuel, ends⟩, right⟩
    · rintro ⟨r, ⟨fuel, ends⟩, right⟩
      exact ⟨fuel, _, ⟨r, ends, rfl⟩, right⟩
  rw [ended]
  simp only [hexLoop_ends_iff, and_assoc, exists_and_left]
  refine and_congr_right fun _ => ?_
  simp only [exists_eq_left']
  cases decodeHex digits with
  | none => simp [hexDefault]
  | some bytes =>
    simp only [Option.map_some, hexDefault, Int.zero_add, copyDefault_natCast, Option.some.injEq,
      forall_eq', prefix_iff_eq_take]
    split_ifs with large
    · exact iff_of_true (.inl rfl) fun fits => absurd large (Int.not_lt.mpr fits)
    · simp [Int.not_lt.mp large, eq_comm]

theorem default_right_iff (first : Bool) (size : Int) (text : List UInt8) :
    Right first size text ↔ first = true ∨ (text = [34] → size < -1) ∧
      ∀ x digits, text = 48 :: x :: digits → x ||| 0x20 = 120 → separated digits = false ∧
        ∀ bytes, decodeHex digits = some bytes → bytes.length ≤ size → bytes <+: text := by
  cases first with
  | true =>
    refine iff_of_true ⟨0, .rejected, ?_, .inl rfl⟩ (.inl rfl)
    cases text <;> rfl
  | false =>
    rw [or_iff_right Bool.false_ne_true]
    cases text with
    | nil => exact iff_of_true ⟨0, .default [], rfl, .inr ⟨[], rfl, .empty⟩⟩ ⟨nofun, nofun⟩
    | cons c cp =>
      by_cases quoted : c = 34
      · subst quoted
        rw [right_quoted_iff]
        simp
      · by_cases hex : c = 48 ∧ cp.head?.map (· ||| 0x20) = some 120
        · obtain ⟨rfl, number⟩ := hex
          cases cp with
          | nil => exact nomatch number
          | cons x digits =>
            rw [right_hex_iff (Option.some.inj number)]
            constructor
            · rintro right
              refine ⟨nofun, ?_⟩
              rintro _ _ ⟨⟩ -
              exact right
            · exact fun right => right.2 x digits rfl (Option.some.inj number)
        · rw [right_of_eq fun fuel => by
            rw [parseDefault, if_neg Bool.false_ne_true, if_neg quoted, if_neg hex]]
          refine iff_of_true (.inl rfl) ⟨fun same => absurd (cons.inj same).1 quoted, ?_⟩
          rintro x digits ⟨⟩ number
          exact absurd ⟨rfl, congrArg some number⟩ hex

/-- A separator keeps the parser busy for ever, and a number gives its own text. -/
theorem hex_default_wrong :
    (∀ fuel, parseDefault fuel false 8 [48, 120, 45, 52, 49] = none) ∧
      parseDefault 2 false 8 [48, 120, 52, 49] = some (.default [48]) ∧
      decodeHex [52, 49] = some [65] ∧ parseDefault 0 false 8 [34] = some .undefined := by
  refine ⟨fun fuel => ?_, by decide, by decide, by decide⟩
  change (hexLoop fuel (45 :: [52, 49]) 0).map _ = none
  rw [hexLoop_separator, Option.map_none]

end
end Dtc.Config
