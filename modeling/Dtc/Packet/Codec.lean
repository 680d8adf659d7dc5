import Dtc.Library.Reader
import Dtc.Raw.RawData

/-!
# Lengths and values in packets

Everything in a packet is written as a length and that many bytes. A length takes one to
five bytes. Integers are written big-endian in as few bytes as their sign allows, floats
as text, strings with a zero byte behind them; a `NULL` string has length zero and is
read as the empty string.

Each encoder has a function that announces how many bytes it writes, and a decoder.
-/

namespace Dtc.Packet

open Library Memory Reader Raw List Reads

/-- The error codes of the decoders. -/
inductive ErrorCode
  | badSectionLength
  | badValueLength
  | badFloatValue
  | badStringValue
  | badFieldName
  | duplicateTag
  | extraSectionData
  | badInvalidField
  | badValueType
  | badOperator
  | badMultikey
  | readonlyField
  | duplicateField
  | badFieldId
  | noMoreData
  deriving DecidableEq, Repr

/-- `MAXPACKETSIZE` -/
def maxPacketSize : Nat := 64 * 2 ^ 20

/-! ### Lengths -/

/-- `encode_length` -/
def encodeLength (len : Nat) : List UInt8 :=
  if len < 240 then [UInt8.ofNat len]
  else if len < 13 * 256 then [UInt8.ofNat (0xF0 + len / 256), UInt8.ofNat len]
  else if len < 2 ^ 16 then 253 :: beBytes 2 len
  else if len < 2 ^ 24 then 254 :: beBytes 3 len
  else 255 :: beBytes 4 len

/-- `encoded_bytes_length` -/
def encodedBytesLength (n : Nat) : Nat :=
  if n < 240 then 1
  else if n < 13 * 256 then 2
  else if n < 2 ^ 16 then 3
  else if n < 2 ^ 24 then 4
  else 5

/-- `decode_length` -/
def decodeLength : Reader ErrorCode Nat := do
  let len ← byte .badSectionLength
  if len < 240 then pure len.toNat
  else if len ≤ 252 then do
    let b ← byte .badSectionLength
    pure ((len.toNat % 16) * 256 + b.toNat)
  else if len = 253 then do
    let bytes ← take .badSectionLength 2
    pure (beNat bytes)
  else if len = 254 then do
    let bytes ← take .badSectionLength 3
    pure (beNat bytes)
  else do
    let bytes ← take .badSectionLength 4
    ensure (beNat bytes ≤ maxPacketSize) .badValueLength
    pure (beNat bytes)

theorem length_encodeLength (len : Nat) : (encodeLength len).length = encodedBytesLength len := by
  unfold encodeLength encodedBytesLength
  split_ifs <;> simp

theorem reads_number {n x : Nat} (bound : x < 256 ^ n) :
    Reads (do
      let bytes ← take ErrorCode.badSectionLength n
      pure (beNat bytes)) (beBytes n x) x := by
  have read := (reads_take ErrorCode.badSectionLength (length_beBytes n x)).bind_pure beNat
  rwa [beNat_beBytes_of_lt bound] at read

/-- A larger length is refused. -/
theorem decodeLength_large {len : Nat} (large : maxPacketSize < len) (bound : len < 2 ^ 32)
    (rest : List UInt8) : decodeLength (encodeLength len ++ rest) = .error .badValueLength := by
  have max : maxPacketSize = 67108864 := rfl
  have bytes : encodeLength len = 255 :: beBytes 4 len := by
    unfold encodeLength
    rw [if_neg (by omega), if_neg (by omega), if_neg (by omega), if_neg (by omega)]
  have read : take ErrorCode.badSectionLength 4 (beBytes 4 len ++ rest) = .ok (beBytes 4 len, rest) :=
    reads_take ErrorCode.badSectionLength (length_beBytes 4 len) rest
  have refused : ¬ beNat (beBytes 4 len) ≤ maxPacketSize := by
    rw [beNat_beBytes_of_lt (by omega)]
    exact not_le.mpr large
  have long : decodeLength (255 :: (beBytes 4 len ++ rest)) = (do
      let bytes ← take ErrorCode.badSectionLength 4
      ensure (beNat bytes ≤ maxPacketSize) .badValueLength
      pure (beNat bytes) : Reader ErrorCode Nat) (beBytes 4 len ++ rest) := rfl
  rw [bytes, List.cons_append, long, bind_of_ok read, ensure, if_neg refused]
  rfl

/-- A length up to the packet size is read back. -/
theorem reads_decodeLength {len : Nat} (bound : len ≤ maxPacketSize) :
    Reads decodeLength (encodeLength len) len := by
  have max : maxPacketSize = 67108864 := rfl
  have ofNat : ∀ n, (UInt8.ofNat n).toNat = n % 256 := fun n => UInt8.toNat_ofNat'
  unfold encodeLength decodeLength
  split_ifs with h₁ h₂ h₃ h₄
  · refine bind_cons ?_
    have small : UInt8.ofNat len < 240 := by
      exact lt_of_le_of_lt (Nat.mod_le _ _) h₁
    have value : (UInt8.ofNat len).toNat = len := by
      rw [ofNat]
      omega
    rw [if_pos small, value]
    exact pure len
  · refine bind_cons ?_
    have first : (UInt8.ofNat (0xF0 + len / 256)).toNat = 240 + len / 256 := by
      rw [ofNat]
      omega
    have large : ¬ UInt8.ofNat (0xF0 + len / 256) < 240 := by
      rw [UInt8.lt_iff_toNat_lt, first]
      exact Nat.not_lt.mpr (Nat.le_add_right 240 _)
    have short : UInt8.ofNat (0xF0 + len / 256) ≤ 252 := by
      rw [UInt8.le_iff_toNat_le, first]
      change 240 + len / 256 ≤ 252
      omega
    rw [if_neg large, if_pos short, first]
    refine bind_cons ?_
    have value : (240 + len / 256) % 16 * 256 + (UInt8.ofNat len).toNat = len := by
      rw [ofNat]
      omega
    rw [value]
    exact pure len
  · refine bind_cons ?_
    exact reads_number (by omega)
  · refine bind_cons ?_
    exact reads_number (by omega)
  · refine bind_cons ?_
    have value : beNat (beBytes 4 len) = len := beNat_beBytes_of_lt (by omega)
    refine (reads_take _ (length_beBytes 4 len)).bind_last ?_
    rw [value]
    exact (reads_ensure bound).bind_nil (pure len)

/-! ### Values -/

/-- `snprintf` and `sscanf` of a `long double` with the format `%LA`, and the values that the
decoder names. -/
structure FloatFunctions (φ : Type) where
  snprintf : φ → List UInt8
  sscanf : List UInt8 → Option φ
  nan : φ
  infinity : φ
  negInfinity : φ

/-- `"NAN"` -/
def nanText : List UInt8 := [78, 65, 78]

/-- The value of a text in `decode_data_value`: `"NAN"`, `"INF"`, `"-INF"` or what `sscanf` finds. -/
def FloatFunctions.parse {φ : Type} (f : FloatFunctions φ) (text : List UInt8) : Option φ :=
  if text = nanText then some f.nan
  else if text = [73, 78, 70] then some f.infinity
  else if text = [45, 73, 78, 70] then some f.negInfinity
  else f.sscanf text

/-- The text of a float determines it; it is no longer than the buffers the code has for it. -/
structure FloatText (φ : Type) extends FloatFunctions φ where
  short : ∀ x, 2 ≤ (snprintf x).length ∧ (snprintf x).length < 40
  plain : ∀ x, 0 ∉ snprintf x
  exact : ∀ x, toFloatFunctions.parse (snprintf x) = some x

/-- The values of a type: the member of the `DTCValue` union that the type selects. A string is
`none` if its pointer is `NULL`. -/
def Value (φ : Type) : DField → Type
  | .none => Unit
  | .signed | .unsigned => BitVec 64
  | .float => φ
  | .string | .binary => Option (List UInt8)

/-- `encode_data_value`: the bytes an integer takes. -/
def intLength (s64 : Int) : Nat :=
  if 0 ≤ s64 then
    if s64 < 0x80 then 1
    else if s64 < 0x8000 then 2
    else if s64 < 0x800000 then 3
    else if s64 < 0x80000000 then 4
    else if s64 < 0x8000000000 then 5
    else if s64 < 0x800000000000 then 6
    else if s64 < 0x80000000000000 then 7
    else 8
  else if -0x80 ≤ s64 then 1
  else if -0x8000 ≤ s64 then 2
  else if -0x800000 ≤ s64 then 3
  else if -0x80000000 ≤ s64 then 4
  else if -0x8000000000 ≤ s64 then 5
  else if -0x800000000000 ≤ s64 then 6
  else if -0x80000000000000 ≤ s64 then 7
  else 8

/-- `encoded_bytes_data_value` of an integer. -/
def encodedBytesInt (s64 : Int) : Nat :=
  if 0 ≤ s64 then
    if s64 < 0x80 then 2
    else if s64 < 0x8000 then 3
    else if s64 < 0x800000 then 4
    else if s64 < 0x80000000 then 5
    else if s64 < 0x8000000000 then 6
    else if s64 < 0x800000000000 then 7
    else if s64 < 0x80000000000000 then 8
    else 9
  else if -0x80 ≤ s64 then 2
  else if -0x8000 ≤ s64 then 3
  else if -0x800000 ≤ s64 then 4
  else if -0x80000000 ≤ s64 then 5
  else if -0x8000000000 ≤ s64 then 6
  else if -0x800000000000 ≤ s64 then 7
  else if -0x80000000000000 ≤ s64 then 8
  else 9

/-- `encode_data_value` of an integer. -/
def encodeInt (v : BitVec 64) : List UInt8 :=
  UInt8.ofNat (intLength v.toInt) :: beBytes (intLength v.toInt) v.toNat

/-- `(s64 << 8) | *p` -/
def shiftIn (s64 : BitVec 64) (b : UInt8) : BitVec 64 := s64 <<< 8 ||| b.toBitVec.setWidth 64

/-- `decode_data_value` of an integer: the first byte is read with its sign. -/
def decodeInt : List UInt8 → Except ErrorCode (BitVec 64)
  | [] => .error .badValueLength
  | first :: rest =>
    if 8 < rest.length + 1 then .error .badValueLength
    else .ok (rest.foldl shiftIn (first.toBitVec.signExtend 64))

/-- `encode_data_value` of a string. -/
def encodeString : Option (List UInt8) → List UInt8
  | none => [0]
  | some str => encodeLength (str.length + 1) ++ str ++ [0]

/-- `encoded_bytes_data_value` of a string. -/
def encodedBytesString : Option (List UInt8) → Nat
  | none => 1
  | some str => str.length + 1 + encodedBytesLength (str.length + 1)

/-- `decode_data_value` of a string. -/
def decodeString (bytes : List UInt8) : Except ErrorCode (Option (List UInt8)) :=
  if bytes.length = 0 then .ok (some [])
  else if bytes.getLast? ≠ some 0 then .error .badStringValue
  else .ok (some bytes.dropLast)

section Float
variable {φ : Type} (F : FloatText φ)

/-- `encode_data_value` of a float. -/
def encodeFloat (x : φ) : List UInt8 :=
  let buf := if 40 ≤ (F.snprintf x).length then nanText else F.snprintf x
  UInt8.ofNat (buf.length + 1) :: buf ++ [0]

/-- `encoded_bytes_data_value` of a float. -/
def encodedBytesFloat (x : φ) : Nat :=
  if 40 ≤ (F.snprintf x).length then 5 else 2 + (F.snprintf x).length

/-- `decode_data_value` of a float. -/
def decodeFloat (bytes : List UInt8) : Except ErrorCode φ :=
  if bytes.length < 3 then .error .badValueLength
  else if bytes.getLast? ≠ some 0 then .error .badFloatValue
  else
    match F.parse (bytes.takeWhile (· ≠ 0)) with
    | some x => .ok x
    | none => .error .badFloatValue

/-- `encode_data_value` -/
def encodeDataValue : (type : DField) → Value φ type → List UInt8
  | .none, _ => [0]
  | .signed, v | .unsigned, v => encodeInt v
  | .float, v => encodeFloat F v
  | .string, v | .binary, v => encodeString v

/-- `encoded_bytes_data_value` -/
def encodedBytesDataValue : (type : DField) → Value φ type → Nat
  | .none, _ => 1
  | .signed, v | .unsigned, v => encodedBytesInt v.toInt
  | .float, v => encodedBytesFloat F v
  | .string, v | .binary, v => encodedBytesString v

/-- `decode_data_value` of the bytes that the length spans. -/
def decodeBytes : (type : DField) → List UInt8 → Except ErrorCode (Value φ type)
  | .none, _ => .ok ()
  | .signed, bytes | .unsigned, bytes => decodeInt bytes
  | .float, bytes => decodeFloat F bytes
  | .string, bytes | .binary, bytes => decodeString bytes

/-- `decode_data_value` -/
def decodeDataValue (type : DField) : Reader ErrorCode (Value φ type) := do
  let len ← decodeLength
  let bytes ← take .badSectionLength len
  lift (decodeBytes F type bytes)

end Float

/-- What the decoder makes of a value: a `NULL` string is read as the empty one. -/
def Value.decoded {φ : Type} : {type : DField} → Value φ type → Value φ type
  | .none, v | .signed, v | .unsigned, v | .float, v => v
  | .string, v | .binary, v => some (Option.getD v [])

/-- The value fits a packet: a string with its zero byte is not longer than the largest one. -/
def Value.Fits {φ : Type} : {type : DField} → Value φ type → Prop
  | .none, _ | .signed, _ | .unsigned, _ | .float, _ => True
  | .string, v | .binary, v => ∀ str, v = some str → str.length < maxPacketSize

theorem toNat_shiftLeft_or (s : BitVec 64) (b : UInt8) :
    (shiftIn s b).toNat = (s.toNat * 256 + b.toNat) % 2 ^ 64 := by
  have range := b.toNat_lt
  have low : (b.toBitVec.setWidth 64).toNat = b.toNat := by
    rw [BitVec.toNat_setWidth]
    exact Nat.mod_eq_of_lt (by rw [UInt8.toNat_toBitVec]; omega)
  rw [shiftIn, BitVec.toNat_or, BitVec.toNat_shiftLeft, low, Nat.shiftLeft_eq]
  have high : s.toNat * 2 ^ 8 % 2 ^ 64 = 2 ^ 8 * (s.toNat % 2 ^ 56) := by omega
  rw [high, ← Nat.two_pow_add_eq_or_of_lt range]
  omega

theorem toNat_foldl_bytes (rest : List UInt8) (s : BitVec 64) :
    (rest.foldl shiftIn s).toNat = (s.toNat * 256 ^ rest.length + beNat rest) % 2 ^ 64 := by
  induction rest generalizing s with
  | nil =>
    have range := s.isLt
    simp [beNat, leNat, Nat.mod_eq_of_lt range]
  | cons b rest ih =>
    rw [foldl_cons, ih, toNat_shiftLeft_or, beNat_cons, length_cons, pow_succ']
    rw [Nat.add_mod, Nat.mod_mul_mod, ← Nat.add_mod]
    congr 1
    ring

theorem toNat_signExtend_byte (b : UInt8) :
    (b.toBitVec.signExtend 64).toNat = if 128 ≤ b.toNat then b.toNat + 2 ^ 64 - 2 ^ 8 else b.toNat := by
  rw [BitVec.toNat_signExtend, BitVec.msb_eq_decide, BitVec.toNat_setWidth]
  split_ifs <;> simp_all

/-- The number is in the range of `n` bytes with sign. -/
def InRange (s64 : Int) (n : Nat) : Prop :=
  1 ≤ n ∧ n ≤ 8 ∧ -2 ^ (8 * n - 1) ≤ s64 ∧ s64 < 2 ^ (8 * n - 1)

theorem inRange_intLength (v : BitVec 64) : InRange v.toInt (intLength v.toInt) := by
  have low := BitVec.le_toInt v
  have high := BitVec.toInt_lt (x := v)
  repeat' refine iteInduction (fun _ => ?_) (fun _ => ?_)
  all_goals exact ⟨by decide, by decide, by omega, by omega⟩

/-- An integer is read back from the bytes that its size needs. -/
theorem decodeInt_beBytes (v : BitVec 64) :
    decodeInt (beBytes (intLength v.toInt) v.toNat) = .ok v := by
  obtain ⟨low, high, above, below⟩ := inRange_intLength v
  generalize intLength v.toInt = n at low high above below
  obtain ⟨k, rfl⟩ : ∃ k, n = k + 1 := ⟨n - 1, by omega⟩
  rw [beBytes_succ, decodeInt, length_beBytes, if_neg (by omega)]
  congr 1
  apply BitVec.eq_of_toNat_eq
  rw [toNat_foldl_bytes, toNat_signExtend_byte, beNat_beBytes, length_beBytes, UInt8.toNat_ofNat']
  rw [BitVec.toInt_eq_toNat_cond] at above below
  have small : k ≤ 7 := by omega
  -- in each size the sign of the first byte decides about the bytes in front
  interval_cases k <;> split_ifs at above below ⊢ <;> omega

theorem encodedBytesInt_eq (s64 : Int) : encodedBytesInt s64 = intLength s64 + 1 := by
  simp only [encodedBytesInt, intLength, apply_ite (· + 1)]

section RoundTrip
variable {φ : Type} {F : FloatText φ}

/-- An encoder writes as many bytes as announced. -/
theorem length_encodeDataValue (type : DField) (v : Value φ type) :
    (encodeDataValue F type v).length = encodedBytesDataValue F type v := by
  have int : ∀ v : BitVec 64, (encodeInt v).length = encodedBytesInt v.toInt := by
    intro v
    rw [encodeInt, length_cons, length_beBytes, encodedBytesInt_eq]
  have string : ∀ v : Option (List UInt8), (encodeString v).length = encodedBytesString v := by
    intro v
    cases v with
    | none => rfl
    | some str =>
      simp only [encodeString, encodedBytesString, length_append, length_encodeLength,
        length_singleton]
      omega
  cases type with
  | none => rfl
  | signed | unsigned => exact int v
  | string | binary => exact string v
  | float =>
    simp only [encodeDataValue, encodeFloat, encodedBytesDataValue, encodedBytesFloat]
    split_ifs
    · rfl
    · simp only [cons_append, length_cons, length_append, length_nil]
      omega

/-- A value behind its length. -/
theorem reads_of_decodeBytes {type : DField} (bytes : List UInt8) {v : Value φ type}
    (bound : bytes.length ≤ maxPacketSize) (decoded : decodeBytes F type bytes = .ok v) :
    Reads (decodeDataValue F type) (encodeLength bytes.length ++ bytes) v := by
  refine (reads_decodeLength bound).bind ?_
  refine (reads_take _ rfl).bind_last ?_
  rw [decoded]
  exact reads_lift v

/-- The text of a float, in a buffer with its zero byte. -/
theorem decodeFloat_snprintf (x : φ) : decodeFloat F (F.snprintf x ++ [0]) = .ok x := by
  have length := (F.short x).1
  have plain := F.plain x
  have text : (F.snprintf x ++ [0]).takeWhile (· ≠ 0) = F.snprintf x := by
    rw [takeWhile_append_of_pos]
    · simp
    · intro b mem
      simpa using fun zero : b = 0 => plain (zero ▸ mem)
  rw [decodeFloat, if_neg (by rw [length_append]; simp; omega), if_neg (by simp), text, F.exact x]

theorem decodeString_terminated (str : List UInt8) : decodeString (str ++ [0]) = .ok (some str) := by
  simp [decodeString]

/-- A value is read back from what the encoder writes. -/
theorem reads_decodeDataValue {type : DField} {v : Value φ type} (fits : v.Fits) :
    Reads (decodeDataValue F type) (encodeDataValue F type v) v.decoded := by
  have int : ∀ type (v : Value φ type) (u : BitVec 64), (∀ bytes, decodeInt bytes = .ok u →
      decodeBytes F type bytes = .ok v) → Reads (decodeDataValue F type) (encodeInt u) v := by
    intro type v u same
    obtain ⟨low, high, -⟩ := inRange_intLength u
    have read := reads_of_decodeBytes (F := F) (beBytes (intLength u.toInt) u.toNat)
      (by rw [length_beBytes]; exact high.trans (by decide)) (same _ (decodeInt_beBytes u))
    rw [length_beBytes, encodeLength, if_pos (by omega)] at read
    exact read
  have string : ∀ type (v : Value φ type) (str : Option (List UInt8)),
      (∀ s, str = some s → s.length < maxPacketSize) →
      (∀ bytes, decodeString bytes = .ok (some (str.getD [])) → decodeBytes F type bytes = .ok v) →
      Reads (decodeDataValue F type) (encodeString str) v := by
    intro type v str fits same
    cases str with
    | none => exact reads_of_decodeBytes [] (by decide) (same [] rfl)
    | some s =>
      have bound := fits s rfl
      have read := reads_of_decodeBytes (F := F) (s ++ [0])
        (by rw [length_append]; exact bound) (same _ (decodeString_terminated s))
      rw [length_append, ← append_assoc] at read
      exact read
  cases type with
  | none => exact reads_of_decodeBytes [] (by decide) rfl
  | signed => exact int .signed v v fun _ decoded => decoded
  | unsigned => exact int .unsigned v v fun _ decoded => decoded
  | string => exact string .string _ v fits fun _ decoded => decoded
  | binary => exact string .binary _ v fits fun _ decoded => decoded
  | float =>
    obtain ⟨low, high⟩ := F.short v
    have decoded : decodeBytes F .float (F.snprintf v ++ [0]) = .ok v := decodeFloat_snprintf v
    have read := reads_of_decodeBytes _
      (by rw [length_append]; exact high.trans (by decide)) decoded
    rw [length_append, length_singleton, encodeLength, if_pos (by omega)] at read
    simp only [encodeDataValue, encodeFloat]
    rw [if_neg (by omega)]
    exact read

end RoundTrip

end Dtc.Packet
