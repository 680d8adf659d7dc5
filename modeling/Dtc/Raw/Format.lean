import Dtc.Raw.RawData

/-!
# The row format

The loops that size, write, read and skip a row are four functions of the source.
Each is described by one byte string, `rowBytes`: sizing gives its length, writing
stores it, and reading and skipping step over it. Reading gives back the row if its
numbers fit the width of their fields.
-/

namespace Dtc.Raw

open Library Memory List

/-- What a field of a row holds, by its type. -/
inductive FieldValue
  | num (bits : BitVec 64)
  | bin (bytes : DTCBinary)
  deriving DecidableEq

/-- The member of the union that belongs to the type of a field. -/
def FieldDefinition.member (f : FieldDefinition) (v : DTCValue) : FieldValue :=
  match f.fieldType with
  | .signed | .unsigned | .float => .num v.num
  | .string | .binary | .none => .bin v.bin

/-- The value survives being stored in the width of its field. -/
def FieldDefinition.Fits (fmt : FloatFormat) (f : FieldDefinition) (v : DTCValue) : Prop :=
  match f.fieldType with
  | .signed => f.fieldSize ≤ 4 → (v.num.setWidth 32).signExtend 64 = v.num
  | .unsigned => f.fieldSize ≤ 4 → (v.num.setWidth 32).setWidth 64 = v.num
  | .float => f.fieldSize ≤ 4 → fmt.widen (fmt.narrow v.num) = v.num
  | .string | .binary | .none => True

instance (fmt : FloatFormat) (v : DTCValue) : ∀ f : FieldDefinition, Decidable (f.Fits fmt v)
  | ⟨.signed, size, _⟩ =>
    inferInstanceAs (Decidable (size ≤ 4 → (v.num.setWidth 32).signExtend 64 = v.num))
  | ⟨.unsigned, size, _⟩ =>
    inferInstanceAs (Decidable (size ≤ 4 → (v.num.setWidth 32).setWidth 64 = v.num))
  | ⟨.float, size, _⟩ =>
    inferInstanceAs (Decidable (size ≤ 4 → fmt.widen (fmt.narrow v.num) = v.num))
  | ⟨.string, _, _⟩ | ⟨.binary, _, _⟩ | ⟨.none, _, _⟩ => inferInstanceAs (Decidable True)

section
variable (fmt : FloatFormat) (t : TableDefinition)

/-- The fields of a row that are stored. -/
def storedFields (keyIndex : Nat) : List Nat :=
  (rowFields keyIndex t.numFields).filter fun j => !(t.field j).discard

/-- The stored content of a row. -/
def rowView (keyIndex : Nat) (row : RowValue) : List FieldValue :=
  (storedFields t keyIndex).map fun j => (t.field j).member (row j)

/-- The bytes of the fields of a row. -/
def fieldsBytes (row : RowValue) (js : List Nat) : List UInt8 :=
  (js.filter fun j => !(t.field j).discard).flatMap fun j =>
    RawData.fieldBytes fmt (t.field j) (row j)

/-- The bytes of a row. -/
def rowBytes (keyIndex : Nat) (flag : UInt8) (row : RowValue) : List UInt8 :=
  flag :: fieldsBytes fmt t row (rowFields keyIndex t.numFields)

/-- Every stored number of the row fits its field. -/
def RowFits (keyIndex : Nat) (row : RowValue) : Prop :=
  ∀ j ∈ storedFields t keyIndex, (t.field j).Fits fmt (row j)

instance (keyIndex : Nat) (row : RowValue) : Decidable (RowFits fmt t keyIndex row) :=
  inferInstanceAs (Decidable (∀ j ∈ storedFields t keyIndex, _))

end

theorem rowFields_nodup (keyIndex numFields : Nat) : (rowFields keyIndex numFields).Nodup :=
  nodup_range'

variable {fmt : FloatFormat} {t : TableDefinition} {row : RowValue} {js : List Nat}

section Fields
variable {j : Nat}

theorem fieldsBytes_discard (discard : (t.field j).discard = true) :
    fieldsBytes fmt t row (j :: js) = fieldsBytes fmt t row js := by
  simp [fieldsBytes, discard]

theorem fieldsBytes_stored (stored : (t.field j).discard = false) :
    fieldsBytes fmt t row (j :: js) =
      RawData.fieldBytes fmt (t.field j) (row j) ++ fieldsBytes fmt t row js := by
  simp [fieldsBytes, stored]

end Fields

namespace RawData

variable {s : RawData}

theorem calcField_eq (fmt : FloatFormat) (f : FieldDefinition) (v : DTCValue) :
    calcField f v = (fieldBytes fmt f v).length := by
  unfold calcField fieldBytes
  cases f.fieldType <;> dsimp only
  case none | string | binary => simp
  all_goals split_ifs <;> simp

/-- `calc_row_size` is the length of the row in 32 bits. -/
theorem calcRowSize_eq (fmt : FloatFormat) (t : TableDefinition) (row : RowValue) (keyIdx : Nat)
    (flag : UInt8) :
    calcRowSize t row keyIdx = (rowBytes fmt t keyIdx flag row).length % 2 ^ 32 := by
  have loop : ∀ (js : List Nat) (n : Nat), js.foldl (fun size j =>
      if (t.field j).discard then size else add32 size (calcField (t.field j) (row j)))
        (n % 2 ^ 32) = (n + (fieldsBytes fmt t row js).length) % 2 ^ 32 := by
    intro js
    induction js with
    | nil => intro n; rfl
    | cons j js ih =>
      intro n
      rw [foldl_cons]
      cases h : (t.field j).discard with
      | true => rw [fieldsBytes_discard h, if_pos rfl, ih]
      | false =>
        rw [fieldsBytes_stored h, if_neg Bool.false_ne_true, add32, Nat.mod_add_mod, ih,
          length_append, calcField_eq fmt, Nat.add_assoc]
  rw [rowBytes, length_cons, Nat.add_comm, ← loop]
  rfl

variable {bytes : List UInt8}

theorem setValue_ok {s' : RawData} (ok : s.setValue bytes = .ok s') :
    s.offset + bytes.length ≤ s.size ∧
      s' = { s with mem := store s.mem s.offset bytes, offset := s.offset + bytes.length } := by
  unfold setValue at ok
  split_ifs at ok with h
  exact ⟨by omega, (Except.ok.inj ok).symm⟩

section Moves
variable {s' : RawData} {n : Nat}

theorem getValue_ok (ok : s.getValue n = .ok (bytes, s')) :
    s.offset + n ≤ s.size ∧ bytes = slice s.mem s.offset n ∧ s' = { s with offset := s.offset + n } := by
  unfold getValue at ok
  split_ifs at ok with outside
  obtain ⟨rfl, rfl⟩ := Prod.mk.inj (Except.ok.inj ok)
  exact ⟨not_lt.mp outside, rfl, rfl⟩

theorem skipSize_of_getValue (ok : s.getValue n = .ok (bytes, s')) : s.skipSize n = .ok s' := by
  obtain ⟨inside, -, rfl⟩ := getValue_ok ok
  exact if_neg (not_lt.mpr inside)

theorem skipSize_ok (ok : s.skipSize n = .ok s') :
    s.offset + n ≤ s.size ∧ s' = { s with offset := s.offset + n } := by
  unfold skipSize at ok
  split_ifs at ok with outside
  exact ⟨not_lt.mp outside, (Except.ok.inj ok).symm⟩

theorem skipLen_ok (ok : s.skipLen n = .ok s') :
    add32 s.offset n ≤ s.size ∧ s' = { s with offset := add32 s.offset n } := by
  unfold skipLen at ok
  split_ifs at ok with outside
  exact ⟨not_lt.mp outside, (Except.ok.inj ok).symm⟩

/-- Reading a field moves the position as skipping it does. -/
theorem decodeField_skips {f : FieldDefinition} {v v' : DTCValue} (ok : decodeField fmt f v s = .ok (v', s')) :
    skipField f s = .ok s' := by
  unfold decodeField at ok
  unfold skipField
  cases type : f.fieldType <;> simp only [type] at ok ⊢
  case signed | unsigned | float =>
    split_ifs at ok ⊢
    all_goals
      obtain ⟨⟨bytes, s₁⟩, value, last⟩ := bind_ok ok
      obtain ⟨-, rfl⟩ := Prod.mk.inj (Except.ok.inj last)
      exact skipSize_of_getValue value
  case string | binary | none =>
    obtain ⟨⟨bytes, s₁⟩, value, rest⟩ := bind_ok ok
    obtain ⟨s₂, skipped, last⟩ := bind_ok rest
    obtain ⟨-, rfl⟩ := Prod.mk.inj (Except.ok.inj last)
    rw [value]
    exact skipped

end Moves

/-- Writing the fields of a row stores their bytes at the offset. -/
theorem encodeFields_ok {s' : RawData} (inside : s.offset ≤ s.size)
    (ok : encodeFields fmt t row js s = .ok s') :
    s.offset + (fieldsBytes fmt t row js).length ≤ s.size ∧
      s' = { s with mem := store s.mem s.offset (fieldsBytes fmt t row js),
                    offset := s.offset + (fieldsBytes fmt t row js).length } := by
  induction js generalizing s with
  | nil =>
    obtain rfl := Except.ok.inj ok
    simp [fieldsBytes, inside]
  | cons j js ih =>
    rw [encodeFields] at ok
    cases h : (t.field j).discard with
    | true =>
      rw [h, if_pos rfl] at ok
      rw [fieldsBytes_discard h]
      exact ih inside ok
    | false =>
      rw [h, if_neg Bool.false_ne_true] at ok
      cases hset : s.setValue (fieldBytes fmt (t.field j) (row j)) with
      | error e => rw [hset] at ok; exact nomatch ok
      | ok s₁ =>
        rw [hset] at ok
        obtain ⟨fits, rfl⟩ := setValue_ok hset
        obtain ⟨fits', rfl⟩ := ih fits ok
        rw [fieldsBytes_stored h, length_append, ← store_append, ← Nat.add_assoc]
        exact ⟨fits', rfl⟩

/-- The state after a row has been written at the offset, before it is counted. -/
def written (fmt : FloatFormat) (t : TableDefinition) (s : RawData) (row : RowValue) (op : UInt8) :
    RawData :=
  { s with mem := store s.mem s.offset (rowBytes fmt t s.keyIndex op row),
           offset := s.offset + (rowBytes fmt t s.keyIndex op row).length }

theorem countRow_congr {m n : Nat} (same : m % 2 ^ 32 = n % 2 ^ 32) :
    s.countRow m = s.countRow n := by
  unfold countRow add32
  rw [← Nat.add_mod_mod, same, Nat.add_mod_mod]

/-- `encode_row` succeeds only if the row fits into the chunk, and then writes it. -/
theorem encodeRowHere_ok {op : UInt8} (ok : (encodeRowHere fmt t s row op).1 = 0) :
    s.offset + (rowBytes fmt t s.keyIndex op row).length ≤ s.size ∧
      (encodeRowHere fmt t s row op).2 =
        (written fmt t s row op).countRow (rowBytes fmt t s.keyIndex op row).length := by
  unfold encodeRowHere at ok ⊢
  cases hset : s.setValue [op] with
  | error e =>
    rw [hset] at ok
    exact absurd ok (by simp [bind, Except.bind])
  | ok s₁ =>
    rw [hset] at ok
    obtain ⟨fits, rfl⟩ := setValue_ok hset
    simp only [bind, Except.bind] at ok ⊢
    cases hfields : encodeFields fmt t row (rowFields s.keyIndex t.numFields)
        { s with mem := store s.mem s.offset [op], offset := s.offset + [op].length } with
    | error e =>
      rw [hfields] at ok
      exact absurd ok (by simp)
    | ok s₂ =>
      obtain ⟨fits', rfl⟩ := encodeFields_ok fits hfields
      have length : (rowBytes fmt t s.keyIndex op row).length =
          1 + (fieldsBytes fmt t row (rowFields s.keyIndex t.numFields)).length := by
        rw [rowBytes, length_cons, Nat.add_comm]
      dsimp only at fits' ⊢
      rw [store_append, Nat.add_assoc] at *
      refine ⟨by rw [length]; exact fits', ?_⟩
      rw [countRow_congr (n := (rowBytes fmt t s.keyIndex op row).length)
        (by rw [calcRowSize_eq fmt t row s.keyIndex op, Nat.mod_mod]), written, length]
      rfl

theorem encodeFields_fits (fits : s.offset + (fieldsBytes fmt t row js).length ≤ s.size) :
    ∃ s', encodeFields fmt t row js s = .ok s' := by
  induction js generalizing s with
  | nil => exact ⟨s, rfl⟩
  | cons j js ih =>
    rw [encodeFields]
    cases h : (t.field j).discard with
    | true =>
      rw [fieldsBytes_discard h] at fits
      exact ih fits
    | false =>
      rw [fieldsBytes_stored h, length_append] at fits
      rw [if_neg Bool.false_ne_true, setValue, if_neg (by omega)]
      refine ih ?_
      dsimp only
      omega

theorem encodeRowHere_fits {op : UInt8}
    (fits : s.offset + (rowBytes fmt t s.keyIndex op row).length ≤ s.size) :
    (encodeRowHere fmt t s row op).1 = 0 := by
  rw [rowBytes, length_cons] at fits
  unfold encodeRowHere
  rw [setValue, if_neg (by rw [length_singleton]; omega)]
  simp only [bind, Except.bind]
  obtain ⟨s', eq⟩ : ∃ s', encodeFields fmt t row (rowFields s.keyIndex t.numFields)
      { s with mem := store s.mem s.offset [op], offset := s.offset + [op].length } = .ok s' :=
    encodeFields_fits (by dsimp only [length_singleton]; omega)
  rw [eq]

/-- The object with its read position moved forward. -/
@[simps -fullyApplied]
def advance (s : RawData) (n : Nat) : RawData := { s with offset := s.offset + n }

theorem advance_advance (m n : Nat) : (s.advance m).advance n = s.advance (m + n) := by
  simp only [advance, Nat.add_assoc]

/-- The bytes of the next row are in the chunk. -/
structure Reads (s : RawData) (bytes : List UInt8) : Prop where
  holds : Holds s.mem s.offset bytes
  inside : s.offset + bytes.length ≤ s.size
  range : s.size < 2 ^ 32

theorem reads_append {xs ys : List UInt8} :
    Reads s (xs ++ ys) ↔ Reads s xs ∧ Reads (s.advance xs.length) ys := by
  constructor
  · rintro ⟨holds, inside, range⟩
    rw [length_append] at inside
    obtain ⟨left, right⟩ := holds_append.mp holds
    exact ⟨⟨left, by omega, range⟩, ⟨right, by rw [advance_offset, advance_size]; omega, range⟩⟩
  · rintro ⟨left, right⟩
    have inside := right.inside
    rw [advance_offset, advance_size] at inside
    exact ⟨holds_append.mpr ⟨left.holds, right.holds⟩, by rw [length_append]; omega, left.range⟩

theorem Reads.getValue {n : Nat} (reads : Reads s bytes) (length : bytes.length = n) :
    s.getValue n = .ok (bytes, s.advance n) := by
  subst length
  rw [RawData.getValue, if_neg (by have := reads.inside; omega), reads.holds]
  rfl

theorem Reads.skipSize {n : Nat} (reads : Reads s bytes) (length : bytes.length = n) :
    s.skipSize n = .ok (s.advance n) := by
  rw [RawData.skipSize, if_neg (by have := reads.inside; omega)]
  rfl

theorem Reads.skipLen (reads : Reads s bytes) :
    s.skipLen bytes.length = .ok (s.advance bytes.length) := by
  have small : add32 s.offset bytes.length = s.offset + bytes.length :=
    add32_eq (lt_of_le_of_lt reads.inside reads.range)
  rw [RawData.skipLen, small, if_neg (by have := reads.inside; omega)]
  rfl

/-- Reading one field that fits gives back its value. -/
theorem decodeField_spec {f : FieldDefinition} {v : DTCValue}
    (reads : Reads s (fieldBytes fmt f v)) (old : DTCValue) :
    ∃ v', decodeField fmt f old s = .ok (v', s.advance (fieldBytes fmt f v).length) ∧
      (f.Fits fmt v → f.member v' = f.member v) := by
  have word : ∀ w : BitVec 64, (BitVec.ofNat 64 (leNat (leBytes 8 w.toNat))) = w := by
    intro w
    rw [leNat_leBytes_of_lt (by exact w.isLt), BitVec.ofNat_toNat, BitVec.setWidth_eq]
  have half : ∀ w : BitVec 64, BitVec.ofNat 32 (leNat (leBytes 4 w.toNat)) = w.setWidth 32 := by
    intro w
    rw [leNat_leBytes]
    apply BitVec.eq_of_toNat_eq
    exact Nat.mod_mod _ _
  have single : ∀ w : BitVec 32, BitVec.ofNat 32 (leNat (leBytes 4 w.toNat)) = w := by
    intro w
    rw [leNat_leBytes_of_lt (by exact w.isLt), BitVec.ofNat_toNat, BitVec.setWidth_eq]
  unfold decodeField fieldBytes FieldDefinition.member FieldDefinition.Fits at *
  cases hf : f.fieldType
  case signed | unsigned | float =>
    all_goals
      simp only [hf] at reads ⊢
      by_cases wide : 4 < f.fieldSize
      · simp only [wide, if_true] at reads ⊢
        rw [reads.getValue (length_leBytes 8 _), length_leBytes]
        refine ⟨_, rfl, fun _ => ?_⟩
        rw [word]
      · simp only [wide, if_false] at reads ⊢
        rw [reads.getValue (length_leBytes 4 _), length_leBytes]
        refine ⟨_, rfl, fun fits => ?_⟩
        simp only [half, single, fits (by omega)]
  case none | string | binary =>
    all_goals
      simp only [hf] at reads ⊢
      obtain ⟨first, rest⟩ := reads_append.mp reads
      have short : v.bin.1.length < 256 ^ 4 := lt_trans v.bin.2 (by decide)
      rw [length_leBytes] at rest
      rw [first.getValue (length_leBytes 4 _)]
      simp only [bind, Except.bind, leNat_leBytes_of_lt short, rest.skipLen]
      refine ⟨_, by rw [advance_advance, length_append, length_leBytes]; rfl, fun _ => ?_⟩
      simp only [dif_pos v.bin.2]
      congr 1
      exact Subtype.ext rest.holds

theorem skipField_spec {f : FieldDefinition} {v : DTCValue} (reads : Reads s (fieldBytes fmt f v)) :
    skipField f s = .ok (s.advance (fieldBytes fmt f v).length) := by
  obtain ⟨v', read, -⟩ := decodeField_spec reads v
  exact decodeField_skips read

/-- Reading the fields of a row gives back the stored ones and leaves the others. -/
theorem decodeFields_spec (nodup : js.Nodup)
    (fits : ∀ j ∈ js, (t.field j).discard = false → (t.field j).Fits fmt (row j))
    (reads : Reads s (fieldsBytes fmt t row js)) (old : RowValue) :
    ∃ row', decodeFields fmt t js old s = .ok (row', s.advance (fieldsBytes fmt t row js).length) ∧
      (∀ j ∈ js, (t.field j).discard = false →
        (t.field j).member (row' j) = (t.field j).member (row j)) ∧
      ∀ j, j ∉ js → row' j = old j := by
  induction js generalizing s old with
  | nil => exact ⟨old, rfl, by simp, fun _ _ => rfl⟩
  | cons j js ih =>
    obtain ⟨absent, nodup⟩ := nodup_cons.mp nodup
    have fits' := fun i hi => fits i (mem_cons_of_mem j hi)
    rw [decodeFields]
    cases h : (t.field j).discard with
    | true =>
      rw [fieldsBytes_discard h] at reads ⊢
      obtain ⟨row', ok, same, others⟩ := ih nodup fits' reads old
      refine ⟨row', ok, fun i hi stored => ?_, fun i hi => others i (by simp_all)⟩
      obtain rfl | hi := mem_cons.mp hi
      · exact nomatch h.symm.trans stored
      · exact same i hi stored
    | false =>
      rw [fieldsBytes_stored h] at reads ⊢
      obtain ⟨first, rest⟩ := reads_append.mp reads
      obtain ⟨v, hv, member⟩ := decodeField_spec first (old j)
      obtain ⟨row', ok, same, others⟩ := ih nodup fits' rest (Function.update old j v)
      refine ⟨row', ?_, fun i hi stored => ?_, fun i hi => ?_⟩
      · rw [if_neg Bool.false_ne_true, hv]
        simp only [bind, Except.bind, ok, advance_advance, length_append]
      · obtain rfl | hi := mem_cons.mp hi
        · rw [others i absent, Function.update_self, member (fits i mem_cons_self h)]
        · exact same i hi stored
      · rw [mem_cons, not_or] at hi
        rw [others i hi.2, Function.update_of_ne hi.1]

/-- Reading the fields of a row leaves what is not stored. -/
theorem decodeFields_unstored {row row' : RowValue} {s s' : RawData} {j : Nat}
    (ok : decodeFields fmt t js row s = .ok (row', s'))
    (unstored : j ∉ js.filter fun j => !(t.field j).discard) : row' j = row j := by
  induction js generalizing s row with
  | nil =>
    obtain ⟨rfl, -⟩ := Prod.mk.inj (Except.ok.inj ok)
    rfl
  | cons i js ih =>
    rw [decodeFields] at ok
    cases discard : (t.field i).discard with
    | true =>
      rw [discard, if_pos rfl] at ok
      rw [filter_cons_of_neg (by simp [discard])] at unstored
      exact ih ok unstored
    | false =>
      rw [discard, if_neg Bool.false_ne_true] at ok
      rw [filter_cons_of_pos (by simp [discard]), mem_cons, not_or] at unstored
      obtain ⟨⟨v, s₁⟩, -, rest⟩ := bind_ok ok
      rw [ih rest unstored.2, Function.update_of_ne unstored.1]

theorem skipFields_spec (reads : Reads s (fieldsBytes fmt t row js)) :
    skipFields t js s = .ok (s.advance (fieldsBytes fmt t row js).length) := by
  induction js generalizing s with
  | nil => rfl
  | cons j js ih =>
    rw [skipFields]
    cases h : (t.field j).discard with
    | true =>
      rw [fieldsBytes_discard h] at reads ⊢
      exact ih reads
    | false =>
      rw [fieldsBytes_stored h] at reads ⊢
      obtain ⟨first, rest⟩ := reads_append.mp reads
      rw [if_neg Bool.false_ne_true, skipField_spec first]
      simp only [bind, Except.bind, ih rest, advance_advance, length_append]

theorem rowView_congr {keyIndex : Nat} {row' : RowValue}
    (same : ∀ j ∈ rowFields keyIndex t.numFields, (t.field j).discard = false →
      (t.field j).member (row' j) = (t.field j).member (row j)) :
    rowView t keyIndex row' = rowView t keyIndex row := by
  apply map_congr_left
  intro j hj
  obtain ⟨hj, stored⟩ := mem_filter.mp hj
  exact same j hj (by simpa using stored)

/-- `decode_row` at the start of a row gives its flag and content and moves behind it. -/
theorem decodeRow_spec {flag : UInt8} (fits : RowFits fmt t s.keyIndex row)
    (reads : Reads s (rowBytes fmt t s.keyIndex flag row)) (old : RowValue) (preDecode : Bool) :
    ∃ row', decodeRow fmt t s old preDecode = (0, flag, row', if preDecode then s else
        { s with rowOffset := s.offset,
                 offset := s.offset + (rowBytes fmt t s.keyIndex flag row).length }) ∧
      rowView t s.keyIndex row' = rowView t s.keyIndex row := by
  have reads' : Reads { s with rowOffset := s.offset } (rowBytes fmt t s.keyIndex flag row) :=
    { reads with }
  obtain ⟨first, rest⟩ := reads_append.mp (show Reads { s with rowOffset := s.offset }
    ([flag] ++ fieldsBytes fmt t row (rowFields s.keyIndex t.numFields)) from reads')
  obtain ⟨row', ok, same, -⟩ := decodeFields_spec (rowFields_nodup s.keyIndex t.numFields)
    (fun j hj stored => fits j (mem_filter.mpr ⟨hj, by simp [stored]⟩)) rest old
  refine ⟨row', ?_, ?_⟩
  · rw [decodeRow, first.getValue (n := 1) rfl]
    simp only [bind, Except.bind]
    have step : decodeFields fmt t (rowFields s.keyIndex t.numFields) old
        (advance { s with rowOffset := s.offset } 1) = _ := ok
    simp only [advance_keyIndex, step]
    rw [advance_advance]
    cases preDecode with
    | true => rfl
    | false =>
      simp only [rowBytes, length_cons, length_nil, advance, pure, Except.pure,
        Bool.false_eq_true, if_false, headD_cons]
      rw [Nat.zero_add, Nat.add_comm 1]
  · exact rowView_congr same

theorem decodeRow_unstored {j : Nat} (old : RowValue) (preDecode : Bool)
    (unstored : j ∉ storedFields t s.keyIndex) :
    (decodeRow fmt t s old preDecode).2.2.1 j = old j := by
  unfold decodeRow
  dsimp only
  split
  · next ok =>
    obtain ⟨⟨bytes, s₁⟩, value, ok⟩ := bind_ok ok
    obtain ⟨-, -, rfl⟩ := getValue_ok value
    obtain ⟨⟨row', s₂⟩, fields, ok⟩ := bind_ok ok
    obtain ⟨-, same⟩ := Prod.mk.inj (Except.ok.inj ok)
    obtain ⟨rfl, -⟩ := Prod.mk.inj same
    exact decodeFields_unstored fields unstored
  · rfl

/-- `skip_row` on a current row moves behind it. -/
theorem skipRow_spec {flag : UInt8} (inside : s.rowOffset < s.dataSize)
    (reads : Reads { s with offset := s.rowOffset } (rowBytes fmt t s.keyIndex flag row)) :
    skipRow t s = (0, { s with
      offset := s.rowOffset + (rowBytes fmt t s.keyIndex flag row).length }) := by
  obtain ⟨first, rest⟩ := reads_append.mp (show Reads { s with offset := s.rowOffset }
    ([flag] ++ fieldsBytes fmt t row (rowFields s.keyIndex t.numFields)) from reads)
  have step : skipFields t (rowFields s.keyIndex t.numFields)
      (advance { s with offset := s.rowOffset } 1) = _ := skipFields_spec rest
  rw [skipRow, if_neg (by exact not_le.mpr inside), first.skipSize (n := 1) rfl]
  simp only [bind, Except.bind, advance_keyIndex]
  rw [step, advance_advance]
  simp only [advance, rowBytes, length_cons]
  rw [Nat.add_comm 1]

end RawData

end Dtc.Raw
