import Dtc.Packet.Result
import Dtc.Raw.Compare

/-!
# Records of the hot/cold journal

A record of the journal has a type, a packed key and a value. The value of a write is a
`HwcBinlogCont`: the statement, a check flag and, if the flag is set, the rows that the hot database
answered with. `ParseFromString` compares the length of the value with that of an empty object only;
what it reads behind the end of the value is undefined, and so is a row that does not decode.

The rows of the record and those of the cold database are compared by `RowValue::Compare`.
-/

namespace Dtc.Hwc

open Library Memory Reader Packet List
open Raw (DField)

/-! ### Values -/

@[ext]
structure HwcBinlogCont where
  sql : List UInt8
  checkFlag : BitVec 32
  rawNums : BitVec 32
  rawVal : List UInt8
  deriving DecidableEq

/-- `parse_int`: a read behind the end has no result. -/
def parseInt : Reader Unit (BitVec 32) := do
  let bytes ← take () 4
  pure (BitVec.ofNat 32 (leNat bytes))

/-- `parse_str`: so has one of a negative length. -/
def parseStr (len : BitVec 32) : Reader Unit (List UInt8) := do
  ensure (0 ≤ len.toInt) ()
  take () len.toNat

/-- `ParseFromString`, behind the check of the length. -/
def parseCont : Reader Unit HwcBinlogCont := do
  let sqlLen ← parseInt
  let sql ← parseStr sqlLen
  let checkFlag ← parseInt
  if checkFlag = 0 then pure ⟨sql, checkFlag, 0, []⟩
  else do
    let rawNums ← parseInt
    if rawNums = 0 then pure ⟨sql, checkFlag, 0, []⟩
    else do
      let rawLen ← parseInt
      let rawVal ← parseStr rawLen
      pure ⟨sql, checkFlag, rawNums, rawVal⟩

/-- What `ParseFromString` ends with. -/
inductive Parse
  | failed
  | overrun
  | parsed (cont : HwcBinlogCont)
  deriving DecidableEq

/-- `ParseFromString` into a new object, whose `total_length` is that of two numbers. -/
def parseFromString (value : List UInt8) : Parse :=
  if value.length < 2 * 4 then .failed
  else
    match parseCont value with
    | .error _ => .overrun
    | .ok (cont, _) => .parsed cont

/-- `append_int_to_buf` -/
def appendInt (n : BitVec 32) : List UInt8 := leBytes 4 n.toNat

/-- `SerializeToString` -/
def serializeToString (c : HwcBinlogCont) : List UInt8 :=
  appendInt (BitVec.ofNat 32 c.sql.length) ++ c.sql ++ appendInt c.checkFlag ++
    if c.checkFlag = 0 then []
    else appendInt c.rawNums ++
      if c.rawNums = 0 then []
      else appendInt (BitVec.ofNat 32 c.rawVal.length) ++ c.rawVal

/-- `total_length`: the sum is a `size_t`, kept in an `int`. -/
def HwcBinlogCont.totalLength (c : HwcBinlogCont) : Int :=
  Int.bmod (2 * 4 + c.sql.length + if c.checkFlag = 0 then 0 else 2 * 4 + c.rawVal.length) (2 ^ 32)

/-- Only checked records have rows, and the lengths are numbers of type `int`. -/
structure HwcBinlogCont.Valid (c : HwcBinlogCont) : Prop where
  sql : c.sql.length < 2 ^ 31
  rawVal : c.rawVal.length < 2 ^ 31
  unchecked : c.checkFlag = 0 → c.rawNums = 0
  empty : c.rawNums = 0 → c.rawVal = []

variable {c : HwcBinlogCont} {bytes rest value : List UInt8}

theorem HwcBinlogCont.Valid.eq_of_empty (valid : c.Valid) (rows : c.rawNums = 0) :
    (⟨c.sql, c.checkFlag, 0, []⟩ : HwcBinlogCont) = c :=
  HwcBinlogCont.ext rfl rfl rows.symm (valid.empty rows).symm

theorem reads_parseInt (n : BitVec 32) : Reads parseInt (appendInt n) n := by
  have read := (reads_take () (length_leBytes 4 n.toNat)).bind_pure
    fun bytes => BitVec.ofNat 32 (leNat bytes)
  rw [leNat_leBytes_of_lt (by have := n.isLt; omega), BitVec.ofNat_toNat, BitVec.setWidth_eq] at read
  exact read

theorem reads_parseStr (short : bytes.length < 2 ^ 31) :
    Reads (parseStr (BitVec.ofNat 32 bytes.length)) bytes bytes := by
  have value : (BitVec.ofNat 32 bytes.length).toNat = bytes.length := by
    rw [BitVec.toNat_ofNat]
    omega
  have positive : 0 ≤ (BitVec.ofNat 32 bytes.length).toInt := by
    rw [BitVec.toInt_eq_toNat_of_lt (by omega)]
    omega
  exact (reads_ensure positive).bind_nil (reads_take () value.symm)

/-- What the server serializes is parsed, whatever the buffer has behind it. -/
theorem parseFromString_serialize (valid : c.Valid) (behind : List UInt8) :
    parseFromString (serializeToString c ++ behind) = .parsed c := by
  have ints : ∀ n, (appendInt n).length = 4 := fun n => length_leBytes 4 n.toNat
  have long : ¬ (serializeToString c ++ behind).length < 2 * 4 := by
    simp only [serializeToString, length_append, ints]
    omega
  have read : Reads parseCont (serializeToString c) c := by
    unfold parseCont serializeToString
    rw [append_assoc, append_assoc]
    refine (reads_parseInt _).bind ((reads_parseStr valid.sql).bind ?_)
    by_cases unchecked : c.checkFlag = 0
    · have rows := valid.unchecked unchecked
      rw [if_pos unchecked]
      refine (reads_parseInt _).bind_last ?_
      rw [if_pos unchecked, valid.eq_of_empty rows]
      exact Reads.pure c
    · rw [if_neg unchecked]
      refine (reads_parseInt _).bind ?_
      rw [if_neg unchecked]
      by_cases rows : c.rawNums = 0
      · rw [if_pos rows]
        refine (reads_parseInt _).bind_last ?_
        rw [if_pos rows, valid.eq_of_empty rows]
        exact Reads.pure c
      · rw [if_neg rows]
        refine (reads_parseInt _).bind ?_
        rw [if_neg rows]
        exact (reads_parseInt _).bind ((reads_parseStr valid.rawVal).bind_last (Reads.pure c))
  unfold parseFromString
  rw [if_neg long, read behind]

theorem eq_of_parseInt_ok {n : BitVec 32}
    (ok : parseInt bytes = .ok (n, rest)) : bytes = appendInt n ++ rest := by
  obtain ⟨read, mid, taken, ok⟩ := bind_eq_ok ok
  obtain ⟨rfl, rfl⟩ := eq_of_pure_ok ok
  obtain ⟨length, rfl⟩ := eq_of_take_ok taken
  have range : leNat read < 2 ^ 32 := by
    have := leNat_lt read
    rw [length] at this
    exact this
  rw [appendInt, BitVec.toNat_ofNat, Nat.mod_eq_of_lt range, ← length, leBytes_leNat]

theorem eq_of_parseStr_ok {s : List UInt8} {len : BitVec 32}
    (ok : parseStr len bytes = .ok (s, rest)) :
    len = BitVec.ofNat 32 s.length ∧ s.length < 2 ^ 31 ∧ bytes = s ++ rest := by
  obtain ⟨_, mid, ensured, ok⟩ := bind_eq_ok ok
  obtain ⟨length, rfl⟩ := eq_of_take_ok ok
  unfold ensure at ensured
  split_ifs at ensured with positive
  · obtain ⟨-, rfl⟩ := eq_of_pure_ok ensured
    rw [BitVec.toInt_eq_toNat_cond] at positive
    refine ⟨?_, by split_ifs at positive <;> omega, rfl⟩
    rw [length, BitVec.ofNat_toNat, BitVec.setWidth_eq]
  · exact nomatch ensured

/-- What is parsed has been serialized. -/
theorem eq_of_parseCont_ok {c : HwcBinlogCont}
    (ok : parseCont value = .ok (c, rest)) : c.Valid ∧ value = serializeToString c ++ rest := by
  obtain ⟨sqlLen, _, first, ok⟩ := bind_eq_ok ok
  obtain ⟨sql, _, second, ok⟩ := bind_eq_ok ok
  obtain ⟨checkFlag, _, third, ok⟩ := bind_eq_ok ok
  obtain ⟨len, short, read⟩ := eq_of_parseStr_ok second
  rw [eq_of_parseInt_ok first, len, read, eq_of_parseInt_ok third]
  split_ifs at ok with unchecked
  · obtain ⟨rfl, rfl⟩ := eq_of_pure_ok ok
    exact ⟨⟨short, by simp, fun _ => rfl, fun _ => rfl⟩, by simp [serializeToString, unchecked]⟩
  obtain ⟨rawNums, _, fourth, ok⟩ := bind_eq_ok ok
  rw [eq_of_parseInt_ok fourth]
  split_ifs at ok with none
  · obtain ⟨rfl, rfl⟩ := eq_of_pure_ok ok
    exact ⟨⟨short, by simp, fun _ => rfl, fun _ => rfl⟩, by
      simp only [serializeToString, if_neg unchecked, none, if_true, append_assoc, append_nil]⟩
  obtain ⟨rawLen, _, fifth, ok⟩ := bind_eq_ok ok
  obtain ⟨rawVal, _, sixth, ok⟩ := bind_eq_ok ok
  obtain ⟨rawSize, shortVal, rawRead⟩ := eq_of_parseStr_ok sixth
  obtain ⟨rfl, rfl⟩ := eq_of_pure_ok ok
  rw [eq_of_parseInt_ok fifth, rawSize, rawRead]
  exact ⟨⟨short, shortVal, fun zero => absurd zero unchecked, fun zero => absurd zero none⟩,
    by simp only [serializeToString, if_neg unchecked, if_neg none, append_assoc]⟩

theorem parsed_iff :
    parseFromString value = .parsed c ↔ c.Valid ∧ serializeToString c <+: value := by
  constructor
  · intro parsed
    unfold parseFromString at parsed
    split_ifs at parsed
    split at parsed
    · exact nomatch parsed
    · next read =>
      cases parsed
      obtain ⟨valid, rfl⟩ := eq_of_parseCont_ok read
      exact ⟨valid, prefix_append _ _⟩
  · rintro ⟨valid, rest, rfl⟩
    exact parseFromString_serialize valid rest

/-- Nothing is declared that is not inside the value. -/
theorem not_overrun_iff : parseFromString value ≠ .overrun ↔
    value.length < 8 ∨ ∃ c : HwcBinlogCont, c.Valid ∧ serializeToString c <+: value := by
  simp only [← parsed_iff]
  by_cases short : value.length < 8
  · simp [parseFromString, short]
  · unfold parseFromString
    cases parseCont value with
    | error e => simp [short]
    | ok read => simp [short]

theorem length_serializeToString (c : HwcBinlogCont) : (serializeToString c).length =
    8 + c.sql.length + if c.checkFlag = 0 then 0
      else 4 + if c.rawNums = 0 then 0 else 4 + c.rawVal.length := by
  have ints : ∀ n, (appendInt n).length = 4 := fun n => length_leBytes 4 n.toNat
  unfold serializeToString
  split_ifs <;> simp only [length_append, length_nil, ints] <;> omega

/-- The length is what `total_length` says, and the content comes back. -/
def HwcBinlogCont.Kept (c : HwcBinlogCont) : Prop :=
  (serializeToString c).length = c.totalLength ∧ parseFromString (serializeToString c) = .parsed c

/-- `total_length` counts the length of the rows also if there are none. -/
theorem kept_iff : c.Kept ↔ c.Valid ∧ (c.checkFlag ≠ 0 → c.rawNums ≠ 0) ∧
    (serializeToString c).length < 2 ^ 31 := by
  have parsed : parseFromString (serializeToString c) = .parsed c ↔ c.Valid :=
    parsed_iff.trans (and_iff_left prefix_rfl)
  refine and_comm.trans ((and_congr_left' parsed).trans (and_congr_right fun valid => ?_))
  unfold HwcBinlogCont.totalLength
  simp only [length_serializeToString, Int.bmod_def]
  by_cases unchecked : c.checkFlag = 0
  · simp only [unchecked, if_true, ne_eq, not_true, false_imp_iff, true_and]
    omega
  · by_cases none : c.rawNums = 0
    · simp only [unchecked, none, valid.empty none, if_true, if_false, length_nil, ne_eq,
        not_true_eq_false, not_false_eq_true, forall_const, false_and, iff_false]
      omega
    · simp only [unchecked, none, if_false, ne_eq, not_false_eq_true, true_and, imp_true_iff]
      omega

/-- A content is written with its `total_length` and comes back exactly if it has rows just when it
is checked and its lengths are numbers of type `int`; a value is parsed within its bounds exactly if
it is too short for two numbers or begins with what a content is written as. -/
theorem journal_value_iff (c : HwcBinlogCont) (value : List UInt8) :
    (c.Kept ↔ c.Valid ∧ (c.checkFlag ≠ 0 → c.rawNums ≠ 0) ∧
      (serializeToString c).length < 2 ^ 31) ∧
    (parseFromString value ≠ .overrun ↔
      value.length < 8 ∨ ∃ c : HwcBinlogCont, c.Valid ∧ serializeToString c <+: value) :=
  ⟨kept_iff, not_overrun_iff⟩

/-- A checked write without rows is written four bytes short of its `total_length`, and a value
with a negative length is parsed. -/
theorem checked_without_rows_short :
    (serializeToString ⟨[], 1, 0, []⟩).length = 12 ∧
      HwcBinlogCont.totalLength ⟨[], 1, 0, []⟩ = 16 ∧
      parseFromString (replicate 8 255) = .overrun := by
  decide

/-! ### Rows -/

section Compare
variable {φ : Type} {t : TableDefinition}

/-- What `RowValue::Compare` reads of a value. -/
def content : (type : DField) → Value φ type → Raw.Content
  | .signed, (v : BitVec 64) => (v, [])
  | .unsigned, (v : BitVec 64) => (v, [])
  | .string, v => (0, Option.getD v [])
  | .binary, v => (0, Option.getD v [])
  | .none, _ => (0, [])
  | .float, _ => (0, [])

/-- `RowValue::Compare` -/
def compare (a b : RowValue φ t) (ids : List UInt8) : Int :=
  Raw.compareFields t.fieldType (fun id => content (t.fieldType id) (a id))
    (fun id => content (t.fieldType id) (b id)) (ids.map UInt8.toNat)

/-- `raw_fields_list`: the numbers of all fields. -/
def rawFieldsList (t : TableDefinition) : List UInt8 :=
  (List.range (t.numFields + 1)).map UInt8.ofNat

/-- The fields of a row that are compared. -/
def fieldsOf (row : RowValue φ t) : Fields φ t :=
  (rawFieldsList t).map fun id => ⟨id.toNat, row id.toNat⟩

/-- A row of zeros. -/
def zeroRow [Zero φ] (t : TableDefinition) : RowValue φ t := fun id =>
  match t.fieldType id with
  | .none => ()
  | .signed | .unsigned => (0 : BitVec 64)
  | .float => (0 : φ)
  | .string | .binary => (none : Option (List UInt8))

/-- The row that `decode_row` has set the fields of. -/
def rowOf [Zero φ] (fields : Fields φ t) : RowValue φ t :=
  fields.foldl (fun row f => Function.update row f.1 f.2) (zeroRow t)

/-- The rows that `fetch_row` gives, `none` for `NULL`: nothing is behind a row that does not
decode. -/
def fetchRows [Zero φ] (F : FloatText φ) (t : TableDefinition) :
    Nat → List UInt8 → List (Option (RowValue φ t))
  | 0, _ => []
  | n + 1, bytes =>
    match decodeRow F t (rawFieldsList t) bytes with
    | .error _ => [none]
    | .ok (fields, rest) => some (rowOf fields) :: fetchRows F t n rest

/-- The rows of a record. -/
def HwcBinlogCont.rows [Zero φ] (F : FloatText φ) (t : TableDefinition) (c : HwcBinlogCont) :
    List (Option (RowValue φ t)) :=
  fetchRows F t c.rawNums.toNat c.rawVal

end Compare
end Dtc.Hwc
