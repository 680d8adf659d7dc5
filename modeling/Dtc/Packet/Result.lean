import Dtc.Packet.RoundTrip

/-!
# Result packets

`ResultPacket` collects the rows of an answer: it counts every row appended and encodes
the requested fields of the rows inside the limit. The row count is written last, right
aligned into a hole of five bytes in front of the field list. `encode_result` sends the
collected section, or none if there are no rows or the packet would be too long.

The client decodes the head of the section once and then a row at a time.

Allocation does not fail here. A field number above those of the table would be a `NULL`
value in `append_row`; the theorems ask for numbers of the table.
-/

namespace Dtc.Packet

open Library Memory Reader Raw List

variable {φ : Type} (F : FloatText φ)

/-- The values of a row by field number. -/
abbrev RowValue (φ : Type) (t : TableDefinition) := (i : Nat) → Value φ (t.fieldType i)

/-- A `ResultPacket`. The counters are unsigned 32-bit numbers; an empty field set stands for
`NULL`. -/
structure ResultPacket where
  fieldSet : List UInt8
  limitStart : Nat
  limitNext : Nat
  totalRows : Nat
  numRows : Nat
  /-- the used part of the buffer -/
  data : List UInt8

namespace ResultPacket

/-- The constructor, with the field numbers and the limit. -/
def new (ids : List UInt8) (st cnt : Nat) : ResultPacket :=
  let st := if cnt = 0 then 0 else st
  { fieldSet := ids
    limitStart := st
    limitNext := add32 st cnt
    totalRows := 0
    numRows := 0
    data := List.replicate 5 0 ++ UInt8.ofNat ids.length :: ids }

/-- The fields of a row that are encoded. -/
def rowBytes {t : TableDefinition} (ids : List UInt8) (r : RowValue φ t) : List UInt8 :=
  ids.flatMap fun id => encodeDataValue F (t.fieldType id.toNat) (r id.toNat)

/-- `append_row`, with its return code. -/
def appendRow {t : TableDefinition} (rp : ResultPacket) (r : RowValue φ t) : Int × ResultPacket :=
  let rp := { rp with totalRows := add32 rp.totalRows 1 }
  if 0 < rp.limitNext ∧ (rp.totalRows ≤ rp.limitStart ∨ rp.limitNext < rp.totalRows) then (0, rp)
  else
    let numRows := sub32 rp.totalRows rp.limitStart
    if rp.fieldSet.length ≠ 0 then
      (1, { rp with data := rp.data ++ rowBytes F rp.fieldSet r, numRows })
    else (0, { rp with numRows })

/-- The packet after a sequence of rows. -/
def appendRows {t : TableDefinition} (rp : ResultPacket) (rows : List (RowValue φ t)) :
    ResultPacket :=
  rows.foldl (fun rp r => (appendRow F rp r).2) rp

end ResultPacket

/-- What a packet says about the result. -/
structure Reply where
  /-- the result set section -/
  resultSet : Option (List UInt8)
  totalRows : Nat
  /-- `-EMSGSIZE` -/
  tooLarge : Bool
  deriving DecidableEq

/-- `encode_result` of a job without an error; `others` is the size of the header and of the other
sections. -/
def encodeResult (rp : ResultPacket) (others : Nat) (mtu : Int) : Reply :=
  let mtu := if mtu ≤ 0 then maxPacketSize else mtu.toNat
  if rp.numRows ≠ 0 ∨ rp.totalRows ≠ 0 then
    let off := 5 - encodedBytesLength rp.numRows
    let data := rp.data.take off ++ encodeLength rp.numRows ++ rp.data.drop 5
    let resultSet := data.drop off
    if mtu < others + resultSet.length then ⟨none, rp.totalRows, true⟩
    else ⟨some resultSet, rp.totalRows, false⟩
  else ⟨none, 0, false⟩

/-- A `ResultSet`: the number of rows, the fields, and the encoded rows. -/
structure ResultSet where
  numRows : Nat
  fieldId : List UInt8
  rows : List UInt8
  deriving DecidableEq

/-- `decode_result_set`: the check of the field numbers. -/
def checkFieldIds : List UInt8 → List UInt8 → Option ErrorCode
  | [], _ => none
  | id :: ids, mask =>
    if id = 255 then some .badFieldId
    else if id ∈ mask then some .duplicateField
    else checkFieldIds ids (id :: mask)

/-- `decode_result_set` -/
def decodeResultSet (bytes : List UInt8) : Except ErrorCode ResultSet :=
  let head : Reader ErrorCode (Nat × List UInt8) := do
    let numRows ← decodeLength
    let num ← byte .badSectionLength
    let ids ← take .badSectionLength num.toNat
    match checkFieldIds ids [] with
    | some e => fail e
    | none => pure (numRows, ids)
  (head bytes).map fun ((numRows, ids), rows) => ⟨numRows, ids, rows⟩

/-- The fields that a call of `decode_row` sets, in order. -/
abbrev Fields (φ : Type) (t : TableDefinition) := List ((i : Nat) × Value φ (t.fieldType i))

/-- `decode_row` -/
def decodeRow (t : TableDefinition) (ids : List UInt8) : Reader ErrorCode (Fields φ t) :=
  each (fun id : UInt8 => do
    let v ← decodeDataValue F (t.fieldType id.toNat)
    pure ⟨id.toNat, v⟩) ids

/-- `decode_row` for each of the rows. -/
def ResultSet.decodeRows (t : TableDefinition) (rs : ResultSet) :
    Except ErrorCode (List (Fields φ t)) :=
  (times (decodeRow F t rs.fieldId) rs.numRows rs.rows).map Prod.fst

/-- The requested fields of a row, as they are decoded. -/
def requested {t : TableDefinition} (ids : List UInt8) (r : RowValue φ t) : Fields φ t :=
  ids.map fun id => ⟨id.toNat, (r id.toNat).decoded⟩

/-- The rows inside a limit, all rows if the count is zero. -/
def limited {α : Type} (st cnt : Nat) (rows : List α) : List α :=
  if cnt = 0 then rows else (rows.drop st).take cnt

/-! ### Collecting rows -/

variable {α : Type}

/-- One row more. -/
theorem limited_append (st cnt : Nat) (rows : List α) (r : α) :
    limited st cnt (rows ++ [r]) = limited st cnt rows ++
      if cnt = 0 ∨ st < rows.length + 1 ∧ rows.length + 1 ≤ st + cnt then [r] else [] := by
  unfold limited
  by_cases all : cnt = 0
  · simp [all]
  · rw [if_neg all, if_neg all, drop_append, take_append, length_drop]
    congr 1
    by_cases inside : st < rows.length + 1 ∧ rows.length + 1 ≤ st + cnt
    · rw [if_pos (.inr inside), show st - rows.length = 0 by omega, drop_zero,
        take_of_length_le (by simp; omega)]
    · rw [if_neg (by tauto)]
      by_cases before : rows.length + 1 ≤ st
      · rw [drop_of_length_le (by simp; omega), take_nil]
      · rw [show cnt - (rows.length - st) = 0 by omega, take_zero]

theorem length_limited (st cnt : Nat) (rows : List α) :
    (limited st cnt rows).length = if cnt = 0 then rows.length else min cnt (rows.length - st) := by
  unfold limited
  split_ifs <;> simp

theorem mem_of_mem_limited {st cnt : Nat} {rows : List α} {r : α}
    (mem : r ∈ limited st cnt rows) : r ∈ rows := by
  unfold limited at mem
  split_ifs at mem
  · exact mem
  · exact mem_of_mem_drop (mem_of_mem_take mem)

section Collect
variable {F} {t : TableDefinition} {ids : List UInt8} {st cnt next numRows : Nat}

/-- The state of a packet after some rows: the rows that were encoded and the number of rows that
it announces. -/
structure Collected (F : FloatText φ) (ids : List UInt8) (st next : Nat) (kept : List (RowValue φ t))
    (numRows : Nat) (rows : List (RowValue φ t)) (rp : ResultPacket) : Prop where
  fieldSet : rp.fieldSet = ids
  limitStart : rp.limitStart = st
  limitNext : rp.limitNext = next
  totalRows : rp.totalRows = rows.length
  numRows : rp.numRows = numRows
  data : rp.data = List.replicate 5 0 ++ (UInt8.ofNat ids.length :: ids) ++
    kept.flatMap (ResultPacket.rowBytes F ids)

open ResultPacket

variable {rows kept : List (RowValue φ t)} {rp : ResultPacket}

theorem collected_new :
    Collected F ids (if cnt = 0 then 0 else st) (add32 (if cnt = 0 then 0 else st) cnt)
      ([] : List (RowValue φ t)) 0 [] (new ids st cnt) :=
  ⟨rfl, rfl, rfl, rfl, rfl, by simp [new]⟩

section Step
variable (collected : Collected F ids st next kept numRows rows rp) (room : rows.length + 1 < 2 ^ 32)
  (r : RowValue φ t)

include collected room

/-- `append_row` outside the limit. -/
theorem Collected.skip (outside : 0 < next ∧ (rows.length + 1 ≤ st ∨ next < rows.length + 1)) :
    Collected F ids st next kept numRows (rows ++ [r]) (appendRow F rp r).2 := by
  obtain ⟨fieldSet, limitStart, limitNext, totalRows, numRows, data⟩ := collected
  have total : add32 rp.totalRows 1 = rows.length + 1 := by
    rw [totalRows, add32_eq room]
  unfold ResultPacket.appendRow
  simp only [total, limitStart, limitNext]
  rw [if_pos outside]
  exact ⟨fieldSet, rfl, rfl, by simp, numRows, data⟩

/-- `append_row` inside the limit. -/
theorem Collected.keep (inside : ¬ (0 < next ∧ (rows.length + 1 ≤ st ∨ next < rows.length + 1))) :
    Collected F ids st next (kept ++ [r]) (sub32 (rows.length + 1) st) (rows ++ [r])
      (appendRow F rp r).2 := by
  obtain ⟨fieldSet, limitStart, limitNext, totalRows, numRows, data⟩ := collected
  have total : add32 rp.totalRows 1 = rows.length + 1 := by
    rw [totalRows, add32_eq room]
  unfold ResultPacket.appendRow
  simp only [total, limitStart, limitNext, fieldSet]
  rw [if_neg inside]
  by_cases fields : ids.length ≠ 0
  · rw [if_pos fields]
    refine ⟨rfl, rfl, rfl, by simp, rfl, ?_⟩
    rw [flatMap_append, ← append_assoc, ← data]
    simp
  · rw [if_neg fields]
    refine ⟨rfl, rfl, rfl, by simp, rfl, ?_⟩
    have empty : ids = [] := by simpa using fields
    simp only [data, flatMap_append, empty]
    simp [rowBytes]

end Step

/-- What holds of an empty packet and is kept by `append_row` holds after all rows. -/
theorem appendRows_induction {P : List (RowValue φ t) → ResultPacket → Prop} {rp : ResultPacket}
    (start : P [] rp)
    (step : ∀ rows rp r, P rows rp → rows.length + 1 < 2 ^ 32 → P (rows ++ [r]) (appendRow F rp r).2)
    (room : rows.length < 2 ^ 32) : P rows (appendRows F rp rows) := by
  suffices ∀ (before rows : List (RowValue φ t)) (rp : ResultPacket), P before rp →
      (before ++ rows).length < 2 ^ 32 → P (before ++ rows) (appendRows F rp rows) by
    simpa using this [] rows rp start (by simpa using room)
  intro before rows rp holds room
  induction rows generalizing before rp with
  | nil =>
    rw [append_nil]
    exact holds
  | cons r rows ih =>
    rw [length_append, length_cons] at room
    have next := ih (before ++ [r]) _ (step before rp r holds (by omega)) (by simp; omega)
    rw [append_assoc, singleton_append] at next
    exact next

/-- Within a limit whose end fits 32 bits the rows of the limit are encoded. -/
theorem collected_limited (limit : cnt = 0 ∨ st + cnt < 2 ^ 32) (room : rows.length < 2 ^ 32) :
    Collected F ids (if cnt = 0 then 0 else st) (if cnt = 0 then 0 else st + cnt)
      (limited st cnt rows) (limited st cnt rows).length rows (appendRows F (new ids st cnt) rows) := by
  refine appendRows_induction (P := fun rows rp => Collected F ids (if cnt = 0 then 0 else st)
    (if cnt = 0 then 0 else st + cnt) (limited st cnt rows) (limited st cnt rows).length rows rp)
    ?_ ?_ room
  · have none : limited st cnt ([] : List (RowValue φ t)) = [] := by simp [limited]
    have start : Collected F ids _ _ ([] : List (RowValue φ t)) 0 [] (new ids st cnt) := collected_new
    have last : add32 (if cnt = 0 then 0 else st) cnt = if cnt = 0 then 0 else st + cnt := by
      split_ifs with all
      · rw [all]
        rfl
      · exact add32_eq (by omega)
    rw [last] at start
    rwa [none]
  · intro rows rp r collected room
    have selected := limited_append st cnt rows r
    have count := length_limited st cnt rows
    by_cases inside : cnt = 0 ∨ st < rows.length + 1 ∧ rows.length + 1 ≤ st + cnt
    · rw [if_pos inside] at selected
      have number : sub32 (rows.length + 1) (if cnt = 0 then 0 else st) =
          (limited st cnt (rows ++ [r])).length := by
        rw [selected, length_append, count, length_singleton]
        split_ifs with all
        · rw [sub32_eq (by omega) room]
          omega
        · rw [sub32_eq (by omega) room]
          omega
      rw [← number, selected]
      exact collected.keep room r (by split_ifs <;> omega)
    · rw [if_neg inside, append_nil] at selected
      rw [selected]
      exact collected.skip room r (by split_ifs <;> omega)

/-- An end of `2 ^ 32` is stored as zero, and every row is encoded. -/
theorem collected_unlimited (wraps : st + cnt = 2 ^ 32) (some : cnt ≠ 0) (room : rows.length < 2 ^ 32) :
    Collected F ids st 0 rows (if rows = [] then 0 else sub32 rows.length st) rows
      (appendRows F (new ids st cnt) rows) := by
  refine appendRows_induction (P := fun rows rp => Collected F ids st 0 rows
    (if rows = [] then 0 else sub32 rows.length st) rows rp) ?_ ?_ room
  · have start : Collected F ids _ _ ([] : List (RowValue φ t)) 0 [] (new ids st cnt) := collected_new
    rwa [if_neg some, add32, wraps] at start
  · intro rows rp r collected room
    have next := collected.keep room r (by omega)
    rwa [if_neg (by simp), length_append, length_singleton]

/-- A larger end is stored as a number below the start, and no row is encoded. -/
theorem collected_shut (wraps : 2 ^ 32 < st + cnt) (start32 : st < 2 ^ 32) (count32 : cnt < 2 ^ 32)
    (room : rows.length < 2 ^ 32) :
    Collected F ids st (st + cnt - 2 ^ 32) [] 0 rows (appendRows F (new ids st cnt) rows) := by
  refine appendRows_induction (P := fun rows rp => Collected F ids st (st + cnt - 2 ^ 32) [] 0 rows rp)
    ?_ ?_ room
  · have start : Collected F ids _ _ ([] : List (RowValue φ t)) 0 [] (new ids st cnt) := collected_new
    have last : add32 st cnt = st + cnt - 2 ^ 32 := by
      unfold add32
      omega
    rwa [if_neg (by omega), last] at start
  · intro rows rp r collected room
    exact collected.skip room r (by omega)

/-! ### Sending and reading -/

/-- Field numbers that the client accepts: of the table, different, and not 255. -/
structure Selectable (t : TableDefinition) (ids : List UInt8) : Prop where
  inside : ∀ id ∈ ids, id.toNat ≤ t.numFields
  nodup : ids.Nodup
  named : 255 ∉ ids
  few : ids.length ≤ 255

theorem checkFieldIds_eq_none {mask : List UInt8} (nodup : ids.Nodup) (named : 255 ∉ ids)
    (fresh : ∀ id ∈ ids, id ∉ mask) : checkFieldIds ids mask = none := by
  induction ids generalizing mask with
  | nil => rfl
  | cons id ids ih =>
    rw [nodup_cons] at nodup
    rw [mem_cons, not_or] at named
    simp only [forall_mem_cons] at fresh
    rw [checkFieldIds, if_neg (fun same => named.1 same.symm), if_neg fresh.1]
    refine ih nodup.2 named.2 fun other mem => ?_
    rw [mem_cons, not_or]
    exact ⟨fun same => nodup.1 (same ▸ mem), fresh.2 other mem⟩

/-- The head of a result set. -/
theorem decodeResultSet_encode {n : Nat} {rows : List UInt8} (selectable : Selectable t ids)
    (bound : n ≤ maxPacketSize) :
    decodeResultSet (encodeLength n ++ UInt8.ofNat ids.length :: ids ++ rows) =
      .ok ⟨n, ids, rows⟩ := by
  have few := selectable.few
  have valid : checkFieldIds ids [] = none :=
    checkFieldIds_eq_none selectable.nodup selectable.named fun _ _ => not_mem_nil
  have head : Reads (do
      let numRows ← decodeLength
      let num ← byte ErrorCode.badSectionLength
      let ids ← take ErrorCode.badSectionLength num.toNat
      match checkFieldIds ids [] with
      | some e => fail e
      | none => pure (numRows, ids)) (encodeLength n ++ UInt8.ofNat ids.length :: ids) (n, ids) := by
    refine (reads_decodeLength bound).bind (Reads.bind_cons ?_)
    rw [toNat_ofNat_of_lt (by omega)]
    refine (reads_take _ rfl).bind_last ?_
    rw [valid]
    exact Reads.pure _
  rw [decodeResultSet]
  simp only [head rows]
  rfl

/-- The values of a row that are sent fit a packet. -/
def RowFits (ids : List UInt8) (r : RowValue φ t) : Prop := ∀ id ∈ ids, (r id.toNat).Fits

theorem reads_decodeRow {r : RowValue φ t} (fits : RowFits ids r) :
    Reads (decodeRow F t ids) (rowBytes F ids r) (requested ids r) := by
  refine Reads.each fun id mem => ?_
  exact (reads_decodeDataValue (fits id mem)).bind_pure
    fun v => (⟨id.toNat, v⟩ : (i : Nat) × Value φ (t.fieldType i))

/-- The client reads as many of the encoded rows as are announced. -/
theorem decodeRows_take (fits : ∀ r ∈ kept, RowFits ids r) (few : numRows ≤ kept.length) :
    ResultSet.decodeRows F t ⟨numRows, ids, kept.flatMap (rowBytes F ids)⟩ =
      .ok ((kept.take numRows).map (requested ids)) := by
  have first : ∀ r ∈ kept.take numRows, RowFits ids r := fun r mem => fits r (mem_of_mem_take mem)
  have read := (Reads.times fun r mem => reads_decodeRow (F := F) (first r mem))
    ((kept.drop numRows).flatMap (rowBytes F ids))
  rw [← flatMap_append, take_append_drop, length_take_of_le few] at read
  rw [ResultSet.decodeRows, read]
  rfl

theorem length_of_decodeRows {rs : ResultSet} {fields : List (Fields φ t)}
    (read : rs.decodeRows F t = .ok fields) : fields.length = rs.numRows := by
  rw [ResultSet.decodeRows] at read
  cases result : times (decodeRow F t rs.fieldId) rs.numRows rs.rows with
  | error e =>
    simp only [result] at read
    exact nomatch read
  | ok pair =>
    simp only [result] at read
    obtain rfl := Except.ok.inj read
    exact length_of_times_ok result

/-- A head that announces more rows than a packet has bytes is refused. -/
theorem decodeResultSet_large {n : Nat} (large : maxPacketSize < n) (bound : n < 2 ^ 32)
    (rest : List UInt8) : decodeResultSet (encodeLength n ++ rest) = .error .badValueLength := by
  have refused := decodeLength_large large bound rest
  rw [decodeResultSet]
  simp only [bind_of_error refused]
  rfl

/-- What `encode_result` sends: the row count, right aligned in its hole, and the rest of the
buffer. -/
theorem encodeResult_collected (collected : Collected F ids st next kept numRows rows rp)
    (nonempty : rows ≠ []) (others : Nat) (mtu : Int)
    (sent : (encodeResult rp others mtu).tooLarge = false) :
    encodeResult rp others mtu = ⟨some (encodeLength numRows ++ UInt8.ofNat ids.length :: ids ++
      kept.flatMap (rowBytes F ids)), rows.length, false⟩ := by
  have total : rp.totalRows ≠ 0 := by
    rw [collected.totalRows]
    simpa using nonempty
  have front : (rp.data.take (5 - encodedBytesLength rp.numRows)).length =
      5 - encodedBytesLength rp.numRows := by
    rw [collected.data, length_take_of_le]
    simp
    omega
  have back : rp.data.drop 5 = UInt8.ofNat ids.length :: ids ++
      kept.flatMap (rowBytes F ids) := by
    rw [collected.data, append_assoc, drop_left' (by simp)]
  unfold encodeResult at sent ⊢
  simp only at sent ⊢
  rw [if_pos (.inr total)] at sent ⊢
  rw [append_assoc, drop_left' front, back, collected.numRows, collected.totalRows] at sent ⊢
  rw [← append_assoc] at sent ⊢
  split_ifs at sent ⊢
  all_goals rfl

theorem totalRows_encodeResult (total : rp.totalRows ≠ 0) (others : Nat)
    (mtu : Int) : (encodeResult rp others mtu).totalRows = rp.totalRows := by
  simp only [encodeResult]
  rw [if_pos (.inr total)]
  split_ifs <;> rfl

theorem encodeResult_empty (number : rp.numRows = 0) (total : rp.totalRows = 0) (others : Nat)
    (mtu : Int) : encodeResult rp others mtu = ⟨none, 0, false⟩ := by
  simp only [encodeResult]
  rw [if_neg (by simp [number, total])]

/-- Every row is counted. -/
theorem appendRows_total (room : rows.length < 2 ^ 32) :
    (appendRows F (new ids st cnt) rows).totalRows = rows.length := by
  refine appendRows_induction (P := fun rows rp => rp.totalRows = rows.length) rfl ?_ room
  intro rows rp r total room
  have next : add32 rp.totalRows 1 = (rows ++ [r]).length := by
    rw [total, add32_eq room, length_append, length_singleton]
  unfold ResultPacket.appendRow
  dsimp only
  split_ifs <;> exact next

/-- The client reads these rows from the result set. -/
def Reply.Read (F : FloatText φ) (t : TableDefinition) (reply : Reply) (fields : List (Fields φ t)) :
    Prop :=
  ∃ bytes resultSet, reply.resultSet = some bytes ∧ decodeResultSet bytes = .ok resultSet ∧
    resultSet.decodeRows F t = .ok fields

section Read
variable {others : Nat} {mtu : Int} (collected : Collected F ids st next kept numRows rows rp)
  (selectable : Selectable t ids) (nonempty : rows ≠ [])
  (sent : (encodeResult rp others mtu).tooLarge = false)

include collected selectable nonempty sent

/-- The number of rows is announced, and the client refuses it above the packet size. -/
theorem Collected.read (bound : numRows < 2 ^ 32) (fields : List (Fields φ t)) :
    (encodeResult rp others mtu).Read F t fields ↔ numRows ≤ maxPacketSize ∧
      ResultSet.decodeRows F t ⟨numRows, ids, kept.flatMap (rowBytes F ids)⟩ = .ok fields := by
  rw [encodeResult_collected collected nonempty others mtu sent]
  constructor
  · rintro ⟨bytes, resultSet, isBytes, decoded, isRows⟩
    obtain rfl := Option.some.inj isBytes
    have small : numRows ≤ maxPacketSize := by
      by_contra large
      rw [append_assoc, decodeResultSet_large (not_le.mp large) bound] at decoded
      exact nomatch decoded
    rw [decodeResultSet_encode selectable small] at decoded
    obtain rfl := Except.ok.inj decoded
    exact ⟨small, isRows⟩
  · rintro ⟨small, isRows⟩
    exact ⟨_, _, rfl, decodeResultSet_encode selectable small, isRows⟩

theorem Collected.read_iff (bound : numRows < 2 ^ 32) (fits : ∀ r ∈ kept, RowFits ids r)
    (few : numRows ≤ kept.length) (fields : List (Fields φ t)) :
    (encodeResult rp others mtu).Read F t fields ↔
      numRows ≤ maxPacketSize ∧ (kept.take numRows).map (requested ids) = fields := by
  rw [collected.read selectable nonempty sent bound, decodeRows_take fits few, Except.ok.injEq]

end Read

end Collect

/-- The end of the limit fits 32 bits, or the rows that are sent instead are the same. -/
def LimitKept {t : TableDefinition} (ids : List UInt8) (st cnt : Nat) (rows : List (RowValue φ t)) :
    Prop :=
  cnt = 0 ∨ st + cnt < 2 ^ 32 ∨ 2 ^ 32 < st + cnt ∧ rows.length ≤ st ∨
    st + cnt = 2 ^ 32 ∧ st ≤ rows.length ∧
      (rows.take (rows.length - st)).map (requested ids) = (rows.drop st).map (requested ids)

section Overflow
variable {F} {t : TableDefinition} {ids : List UInt8} {st cnt : Nat} {rows : List (RowValue φ t)}
  {others : Nat} {mtu : Int} (selectable : Selectable t ids) (room : rows.length < 2 ^ 32)
  (nonempty : rows ≠ [])
  (sent : (encodeResult (ResultPacket.appendRows F (.new ids st cnt) rows) others mtu).tooLarge = false)

include selectable room nonempty sent

/-- The end of the limit is `2 ^ 32`: as many rows as stand behind the start are read, from the
first row on. -/
theorem read_unlimited_iff (fits : ∀ r ∈ rows, RowFits ids r) (wraps : st + cnt = 2 ^ 32)
    (some : cnt ≠ 0) :
    (encodeResult (ResultPacket.appendRows F (.new ids st cnt) rows) others mtu).Read F t
        ((limited st cnt rows).map (requested ids)) ↔
      (limited st cnt rows).length ≤ maxPacketSize ∧ st ≤ rows.length ∧
        (rows.take (rows.length - st)).map (requested ids) =
          (rows.drop st).map (requested ids) := by
  have collected : Collected F ids st 0 rows _ rows _ := collected_unlimited wraps some room
  rw [if_neg nonempty] at collected
  have number : sub32 rows.length st < 2 ^ 32 := Nat.mod_lt _ (by decide)
  have length := length_limited st cnt rows
  rw [if_neg some] at length
  by_cases behind : st ≤ rows.length
  · have announced : sub32 rows.length st = rows.length - st := sub32_eq behind room
    have inside : limited st cnt rows = rows.drop st := by
      rw [limited, if_neg some, take_of_length_le]
      rw [length_drop]
      omega
    have read := collected.read_iff selectable nonempty sent number fits (by omega)
    rw [read, announced, inside, length_drop]
    exact ⟨fun ⟨small, same⟩ => ⟨small, behind, same⟩, fun ⟨small, _, same⟩ => ⟨small, same⟩⟩
  · -- A row before the start: the announced number wraps and is not zero.
    refine iff_of_false (fun read => ?_) fun ⟨_, le, _⟩ => behind le
    obtain ⟨-, isRows⟩ := (collected.read selectable nonempty sent number _).mp read
    have announced : _ = sub32 rows.length st := length_of_decodeRows isRows
    have wrapped : sub32 rows.length st ≠ 0 := by
      unfold sub32
      omega
    rw [length_map] at announced
    omega

/-- A larger end: no row is read. -/
theorem read_shut_iff (wraps : 2 ^ 32 < st + cnt) (start32 : st < 2 ^ 32) (count32 : cnt < 2 ^ 32) :
    (encodeResult (ResultPacket.appendRows F (.new ids st cnt) rows) others mtu).Read F t
        ((limited st cnt rows).map (requested ids)) ↔ rows.length ≤ st := by
  have collected : Collected F ids st _ _ _ rows _ := collected_shut wraps start32 count32 room
  have length := length_limited st cnt rows
  rw [if_neg (by omega)] at length
  have read := collected.read_iff selectable nonempty sent (by decide) (by simp) (by simp)
  rw [read, take_nil, map_nil, eq_comm, map_eq_nil_iff, ← length_eq_zero_iff]
  constructor
  · rintro ⟨-, none⟩
    omega
  · intro short
    exact ⟨Nat.zero_le _, by omega⟩

end Overflow

/-- The rows of a table of two integer fields. -/
def integerRow (n : BitVec 64) : RowValue Unit twoFields := fun _ => n

end Dtc.Packet
