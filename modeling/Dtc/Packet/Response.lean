import Dtc.Library.LengthEncoded
import Dtc.Packet.Result

/-!
# MySQL responses

`Packet::encode_result_v2` answers a MySQL client. A job with a result set is answered with a packet
that has the number of columns, a packet for each column, a packet for each row and an end packet; a
job without one is answered with an OK packet. The packets are the buffers of a chain, and the number
of buffers that is announced to the sender is computed apart from the chain.

A packet is a length of three bytes, a sequence number and a payload. A row is the texts of the
selected fields, each behind its length; the length of the row is added up in a first pass, and the
texts are written in a second.

The rows are those of the decoded result set, and the first buffer, with the DTC header, is left out.
-/

namespace Dtc.Packet

open Library Memory Raw List LengthEncoded

variable {φ : Type} {t : TableDefinition}

/-! ### Buffers -/

/-- A `BufferChain` node: of its data the first `usedBytes` bytes are sent. -/
structure Buffer where
  data : List UInt8
  usedBytes : Nat
  deriving DecidableEq

def Buffer.sent (b : Buffer) : List UInt8 := b.data.take b.usedBytes

/-- `encode_mysql_header`: `int_conv_3` of the length, and the sequence number. -/
def encodeMysqlHeader (len : Nat) (pktNum : UInt8) : List UInt8 := leBytes 3 len ++ [pktNum]

/-- `encode_my_fileds_info` -/
def encodeMyFiledsInfo (pktNum fieldsNum : UInt8) : Buffer where
  data := encodeMysqlHeader 1 pktNum ++ [fieldsNum]
  usedBytes := 5

/-! ### Columns -/

/-- A selected field: its name, its number and the type that the configuration has checked. -/
structure Column (t : TableDefinition) where
  name : List UInt8
  id : Nat
  typed : t.fieldType id ≠ .none

/-- `my_result_set_field` -/
structure ResultSetField where
  catalog : List UInt8
  database : List UInt8
  table : List UInt8
  originalTable : List UInt8
  name : List UInt8
  originalName : List UInt8
  charsetNumber : Nat
  length : Nat
  type : UInt8
  flags : Nat
  decimals : UInt8
  reverse : UInt8

/-- A text behind its length. -/
def lengthByte (s : List UInt8) : List UInt8 := UInt8.ofNat s.length :: s

/-- `encode_set_field`: of the two last bytes only the first is stored, the buffer is zero. -/
def encodeSetField (sf : ResultSetField) : List UInt8 :=
  lengthByte sf.catalog ++ lengthByte sf.database ++ lengthByte sf.table ++
    lengthByte sf.originalTable ++ lengthByte sf.name ++ lengthByte sf.originalName ++ [0x0c] ++
    leBytes 2 sf.charsetNumber ++ leBytes 4 sf.length ++ [sf.type] ++ leBytes 2 sf.flags ++
    [sf.decimals] ++ [sf.reverse, 0]

/-- `build_field_type`: `MYSQL_TYPE_LONG`, `MYSQL_TYPE_FLOAT`, `MYSQL_TYPE_VAR_STRING`. -/
def buildFieldType : DField → UInt8
  | .none => 0
  | .signed | .unsigned => 3
  | .float => 4
  | .string | .binary => 253

/-- `build_charset` -/
def buildCharset (type : UInt8) : Nat := if type = 253 then 0xff else 0x3f

/-- `build_length` -/
def buildLength (type : UInt8) : Nat := if type = 253 then 200 else 11

/-- The definition of a column; the texts are `def` and `dtc`. -/
def fieldDef (tableName : List UInt8) (c : Column t) : ResultSetField where
  catalog := [0x64, 0x65, 0x66]
  database := [0x64, 0x74, 0x63]
  table := tableName
  originalTable := tableName
  name := c.name
  originalName := c.name
  charsetNumber := buildCharset (buildFieldType (t.fieldType c.id))
  length := buildLength (buildFieldType (t.fieldType c.id))
  type := buildFieldType (t.fieldType c.id)
  flags := 0
  decimals := 0
  reverse := 0

/-- `encode_field_def`: the buffers of the columns and the next sequence number. -/
def encodeFieldDef (tableName : List UInt8) : UInt8 → List (Column t) → List Buffer × UInt8
  | pktNum, [] => ([], pktNum)
  | pktNum, c :: cs =>
    let set := encodeSetField (fieldDef tableName c)
    let later := encodeFieldDef tableName (pktNum + 1) cs
    (⟨encodeMysqlHeader set.length pktNum ++ set, 4 + set.length⟩ :: later.1, later.2)

/-! ### Rows -/

/-- `%lld` -/
def signedBytes (n : BitVec 64) : List UInt8 :=
  (if n.toInt < 0 then [45] else []) ++
    (Nat.toDigits 10 n.toInt.natAbs).map fun c => UInt8.ofNat c.toNat

/-- `%llu` -/
def unsignedBytes (n : BitVec 64) : List UInt8 :=
  (Nat.toDigits 10 n.toNat).map fun c => UInt8.ofNat c.toNat

section Rows
-- the text of a float with the conversion `%f`
variable (fixed : φ → List UInt8)

/-- The text that is written for a field: `snprintf` has a buffer of 32 bytes for a number. -/
def writtenText : (type : DField) → Value φ type → Option (List UInt8)
  | .none, _ => none
  | .signed, n => some ((signedBytes n).take 31)
  | .unsigned, n => some ((unsignedBytes n).take 31)
  | .float, x => some ((fixed x).take 31)
  | .string, s | .binary, s => some (Option.getD s [])

/-- The value of a selected field; the key is that of the request. -/
def Column.value (c : Column t) (key : Value φ (t.fieldType 0)) (row : RowValue φ t) :
    Value φ (t.fieldType c.id) :=
  if h : c.id = 0 then h ▸ key else row c.id

variable (columns : List (Column t)) (key : Value φ (t.fieldType 0)) (row : RowValue φ t)

/-- The first pass over a row. -/
def rowLen : Nat :=
  (columns.map fun c => match writtenText fixed (t.fieldType c.id) (c.value key row) with
    | none => 0
    | some s => 1 + s.length).sum

/-- The second pass over a row. -/
def rowContent : List UInt8 :=
  columns.flatMap fun c => match writtenText fixed (t.fieldType c.id) (c.value key row) with
    | none => []
    | some s => lengthByte s

/-- `encode_row_data`: the buffers of the rows and the next sequence number. -/
def encodeRowData : UInt8 → List (RowValue φ t) → List Buffer × UInt8
  | pktNr, [] => ([], pktNr)
  | pktNr, row :: rows =>
    let len := rowLen fixed columns key row
    let later := encodeRowData (pktNr + 1) rows
    (⟨encodeMysqlHeader len pktNr ++ rowContent fixed columns key row, 4 + len⟩ :: later.1, later.2)

end Rows

/-! ### The response -/

/-- `encode_eof`: the mark, no warning, the server status and two reserved bytes. -/
def encodeEof (pktNr : UInt8) : Buffer where
  data := encodeMysqlHeader 7 pktNr ++ [0xfe, 0, 0, 0x22, 0, 0, 0]
  usedBytes := 4 + 7

/-- What the encoder reads of a job. -/
structure Job (φ : Type) (t : TableDefinition) where
  /-- `mr.get_pkt_nr()` -/
  pktNr : UInt8
  tableName : List UInt8
  /-- `mr.get_need_array()` -/
  need : List (Column t)
  requestKey : Value φ (t.fieldType 0)
  /-- the result packet has rows, or rows in total -/
  hasResult : Bool
  /-- the rows of `result` -/
  rows : List (RowValue φ t)
  affectedRows : Nat

/-- `encode_mysql_ok`: the count is cut to 16 bits. -/
def encodeMysqlOk (job : Job φ t) : List Buffer :=
  [⟨encodeMysqlHeader 7 (job.pktNr + 1) ++ ([0] ++ leBytes 2 job.affectedRows ++ [2, 0, 0, 0]), 7 + 4⟩]

section Response
variable (fixed : φ → List UInt8) (job : Job φ t)

/-- `encode_mysql_protocol` -/
def encodeMysqlProtocol : List Buffer :=
  let pktNr := job.pktNr + 1
  let columns := encodeFieldDef job.tableName (pktNr + 1) job.need
  let rows := encodeRowData fixed job.need job.requestKey columns.2 job.rows
  [encodeMyFiledsInfo pktNr (UInt8.ofNat job.need.length)] ++ columns.1 ++ rows.1 ++ [encodeEof rows.2]

/-- `encode_result_v2`: the number of buffers that is announced, and the chain. -/
def encodeResultV2 : Nat × List Buffer :=
  if job.hasResult then
    (1 + job.need.length + 0 + job.rows.length + 1, encodeMysqlProtocol fixed job)
  else (1, encodeMysqlOk job)

end Response

/-! ### What a client reads -/

/-- The bytes are a packet with the sequence number: the header has the length of the rest. -/
def IsPacket (number : UInt8) (bytes : List UInt8) : Prop :=
  bytes.length = 4 + leNat (bytes.take 3) ∧ bytes[3]? = some number

/-- Packets with consecutive sequence numbers, modulo 256. -/
def IsSequence : UInt8 → List (List UInt8) → Prop
  | _, [] => True
  | number, p :: ps => IsPacket number p ∧ IsSequence (number + 1) ps

section Client
variable (fixed : φ → List UInt8)

/-- The text of a field. -/
def fieldText : (type : DField) → Value φ type → List UInt8
  | .none, _ => []
  | .signed, n => signedBytes n
  | .unsigned, n => unsignedBytes n
  | .float, x => fixed x
  | .string, s | .binary, s => Option.getD s []

/-- The texts of the selected fields of a row. -/
def rowTexts (columns : List (Column t)) (key : Value φ (t.fieldType 0)) (row : RowValue φ t) :
    List (List UInt8) :=
  columns.map fun c => fieldText fixed (t.fieldType c.id) (c.value key row)

/-- The count of an OK packet: a number behind the zero byte. -/
def okAffectedRows (payload : List UInt8) : Option Nat :=
  match payload with
  | 0 :: rest => (LengthEncoded.integer rest).bind Prod.fst
  | _ => none

variable (job : Job φ t)

/-- The response is well-formed, and is the answer to the job. -/
structure WellFormed (response : Nat × List Buffer) : Prop where
  /-- the packets have the lengths of their headers, and are numbered from the request on -/
  packets : IsSequence (job.pktNr + 1) (response.2.map Buffer.sent)
  announced : response.1 = response.2.length
  /-- each row packet has the selected fields of its row -/
  rows : job.hasResult = true →
    List.Forall₂ (fun buffer row => LengthEncoded.texts job.need.length ((Buffer.sent buffer).drop 4) =
        some ((rowTexts fixed job.need job.requestKey row).map some))
      ((response.2.drop (1 + job.need.length)).take job.rows.length) job.rows
  ok : job.hasResult = false → ∃ buffer, response.2 = [buffer] ∧
    okAffectedRows (buffer.sent.drop 4) = some job.affectedRows

/-- A field has a text that one byte of length and the buffer for numbers are enough for. -/
def Encodable : (type : DField) → Value φ type → Prop
  | .none, _ | .signed, _ | .unsigned, _ => True
  | .float, x => (fixed x).length ≤ 31
  | .string, s | .binary, s => (Option.getD s []).length < 251

/-- The bytes of a column definition. -/
def fieldDefLen (tableName : List UInt8) (c : Column t) : Nat :=
  25 + 2 * tableName.length + 2 * c.name.length

/-- No packet is longer than its header can say, every selected field is short, and a count is one
byte. -/
def Job.Encodable : Prop :=
  if job.hasResult then
    (∀ c ∈ job.need, fieldDefLen job.tableName c < 2 ^ 24) ∧
      ∀ row ∈ job.rows, ((rowTexts fixed job.need job.requestKey row).map
          fun s => 1 + s.length).sum < 2 ^ 24 ∧
        ∀ c ∈ job.need, Packet.Encodable fixed (t.fieldType c.id) (c.value job.requestKey row)
  else job.affectedRows < 251

end Client

/-! ### Packets -/

@[simp] theorem length_encodeMysqlHeader (len : Nat) (pktNum : UInt8) :
    (encodeMysqlHeader len pktNum).length = 4 := by
  simp [encodeMysqlHeader]

theorem isPacket_iff (payload : List UInt8) (pktNum : UInt8) :
    IsPacket pktNum (encodeMysqlHeader payload.length pktNum ++ payload) ↔
      payload.length < 2 ^ 24 := by
  have length : (encodeMysqlHeader payload.length pktNum ++ payload).take 3 =
      leBytes 3 payload.length := by
    exact take_left' (length_leBytes 3 _)
  have number : (encodeMysqlHeader payload.length pktNum ++ payload)[3]? = some pktNum := rfl
  unfold IsPacket
  rw [length, number, leNat_leBytes, length_append, length_encodeMysqlHeader]
  constructor
  · rintro ⟨same, -⟩
    omega
  · intro small
    exact ⟨by omega, rfl⟩

/-- A buffer is sent as a whole if its used bytes are the header and the payload. -/
theorem sent_eq {payload : List UInt8} {len used : Nat} (pktNum : UInt8)
    (whole : used = 4 + payload.length) :
    Buffer.sent ⟨encodeMysqlHeader len pktNum ++ payload, used⟩ =
      encodeMysqlHeader len pktNum ++ payload := by
  refine take_of_length_le ?_
  rw [length_append, length_encodeMysqlHeader, whole]

theorem length_encodeSetField (tableName : List UInt8) (c : Column t) :
    (encodeSetField (fieldDef tableName c)).length = fieldDefLen tableName c := by
  simp only [encodeSetField, fieldDef, lengthByte, fieldDefLen, length_append,
    length_cons, length_nil, length_leBytes]
  omega

theorem length_encodeFieldDef (tableName : List UInt8) (pktNum : UInt8) (cs : List (Column t)) :
    (encodeFieldDef tableName pktNum cs).1.length = cs.length := by
  induction cs generalizing pktNum with
  | nil => rfl
  | cons c cs ih => exact congrArg Nat.succ (ih (pktNum + 1))

/-- The packets of the columns, with packets behind them. -/
theorem isSequence_encodeFieldDef (tableName : List UInt8) (pktNum : UInt8) (cs : List (Column t))
    (rest : List (List UInt8)) :
    IsSequence pktNum ((encodeFieldDef tableName pktNum cs).1.map Buffer.sent ++ rest) ↔
      (∀ c ∈ cs, fieldDefLen tableName c < 2 ^ 24) ∧
        IsSequence (encodeFieldDef tableName pktNum cs).2 rest := by
  induction cs generalizing pktNum with
  | nil => simp [encodeFieldDef]
  | cons c cs ih =>
    rw [encodeFieldDef]
    rw [map_cons, sent_eq pktNum rfl, cons_append, IsSequence, isPacket_iff, ih,
      length_encodeSetField, forall_mem_cons, and_assoc]

/-! ### Rows -/

section Rows
variable (fixed : φ → List UInt8) (columns : List (Column t)) (key : Value φ (t.fieldType 0))
  (row : RowValue φ t)

/-- The texts that are written for a row. -/
def rowWritten : List (List UInt8) :=
  columns.map fun c => (writtenText fixed (t.fieldType c.id) (c.value key row)).getD []

variable {type : DField}

theorem writtenText_typed (typed : type ≠ .none) (v : Value φ type) :
    writtenText fixed type v = some ((writtenText fixed type v).getD []) := by
  cases type with
  | none => exact absurd rfl typed
  | _ => rfl

theorem rowContent_eq :
    rowContent fixed columns key row = (rowWritten fixed columns key row).flatMap lengthByte := by
  unfold rowContent rowWritten
  rw [flatMap_map]
  refine congrArg flatten (map_congr_left fun c _ => ?_)
  rw [writtenText_typed fixed c.typed]
  rfl

theorem rowLen_eq :
    rowLen fixed columns key row = shortSize (rowWritten fixed columns key row) := by
  unfold rowLen rowWritten shortSize
  rw [map_map]
  refine congrArg sum (map_congr_left fun c _ => ?_)
  rw [writtenText_typed fixed c.typed]
  exact Nat.add_comm 1 _

/-- The two passes agree. -/
theorem length_rowContent : (rowContent fixed columns key row).length = rowLen fixed columns key row := by
  rw [rowContent_eq, rowLen_eq, length_flatMap]
  rfl

theorem length_encodeRowData (pktNr : UInt8) (rows : List (RowValue φ t)) :
    (encodeRowData fixed columns key pktNr rows).1.length = rows.length := by
  induction rows generalizing pktNr with
  | nil => rfl
  | cons row rows ih => exact congrArg Nat.succ (ih (pktNr + 1))

theorem sent_row (pktNr : UInt8) :
    Buffer.sent ⟨encodeMysqlHeader (rowLen fixed columns key row) pktNr ++
        rowContent fixed columns key row, 4 + rowLen fixed columns key row⟩ =
      encodeMysqlHeader (rowContent fixed columns key row).length pktNr ++
        rowContent fixed columns key row := by
  rw [length_rowContent]
  exact sent_eq pktNr (congrArg (4 + ·) (length_rowContent fixed columns key row).symm)

/-- The packets of the rows, with packets behind them. -/
theorem isSequence_encodeRowData (pktNr : UInt8) (rows : List (RowValue φ t))
    (rest : List (List UInt8)) :
    IsSequence pktNr ((encodeRowData fixed columns key pktNr rows).1.map Buffer.sent ++ rest) ↔
      (∀ row ∈ rows, rowLen fixed columns key row < 2 ^ 24) ∧
        IsSequence (encodeRowData fixed columns key pktNr rows).2 rest := by
  induction rows generalizing pktNr with
  | nil => simp [encodeRowData]
  | cons row rows ih =>
    rw [encodeRowData]
    rw [map_cons, sent_row, cons_append, IsSequence, isPacket_iff, ih,
      length_rowContent, forall_mem_cons, and_assoc]

/-- What is read off the row packets is what is read off the contents. -/
theorem forall₂_encodeRowData (P : List UInt8 → RowValue φ t → Prop) (pktNr : UInt8)
    (rows : List (RowValue φ t)) :
    List.Forall₂ (fun buffer row => P ((Buffer.sent buffer).drop 4) row)
        (encodeRowData fixed columns key pktNr rows).1 rows ↔
      ∀ row ∈ rows, P (rowContent fixed columns key row) row := by
  induction rows generalizing pktNr with
  | nil => simp [encodeRowData]
  | cons row rows ih =>
    rw [encodeRowData]
    rw [forall₂_cons, sent_row, ih, forall_mem_cons, drop_left' (length_encodeMysqlHeader _ _)]

theorem length_toDigits_le {n : Nat} (small : n < 2 ^ 64) : (Nat.toDigits 10 n).length ≤ 20 :=
  Nat.toDigits_length 10 n 20 (by decide) (lt_trans small (by decide))

theorem length_unsignedBytes_le (n : BitVec 64) : (unsignedBytes n).length ≤ 31 := by
  rw [unsignedBytes, length_map]
  exact (length_toDigits_le n.isLt).trans (by decide)

theorem length_signedBytes_le (n : BitVec 64) : (signedBytes n).length ≤ 31 := by
  have digits : (Nat.toDigits 10 n.toInt.natAbs).length ≤ 20 := by
    refine length_toDigits_le ?_
    have := BitVec.le_toInt n
    have := BitVec.toInt_lt (x := n)
    omega
  rw [signedBytes, length_append, length_map]
  split_ifs <;> simp only [length_cons, length_nil] <;> omega

/-- What is written for a field is no longer than its text. -/
theorem length_written_le (v : Value φ type) :
    ((writtenText fixed type v).getD []).length ≤ (fieldText fixed type v).length := by
  cases type with
  | none => exact Nat.le_refl 0
  | signed | unsigned | float => exact (length_take_le' 31 _)
  | string | binary => exact Nat.le_refl _

/-- A field is encodable if its text is written whole and is short. -/
theorem encodable_iff (v : Value φ type) :
    Encodable fixed type v ↔
      ((writtenText fixed type v).getD []).length = (fieldText fixed type v).length ∧
        (fieldText fixed type v).length < 251 := by
  cases type with
  | none => exact ⟨fun _ => ⟨rfl, Nat.zero_lt_succ 250⟩, fun _ => trivial⟩
  | signed =>
    have short := length_signedBytes_le v
    exact ⟨fun _ => ⟨congrArg length (take_of_length_le short), short.trans_lt (by decide)⟩,
      fun _ => trivial⟩
  | unsigned =>
    have short := length_unsignedBytes_le v
    exact ⟨fun _ => ⟨congrArg length (take_of_length_le short), short.trans_lt (by decide)⟩,
      fun _ => trivial⟩
  | float =>
    constructor
    · intro short
      exact ⟨congrArg length (take_of_length_le short), Nat.lt_of_le_of_lt short (by decide)⟩
    · rintro ⟨whole, -⟩
      have : (take 31 (fixed v)).length = (fixed v).length := whole
      rw [length_take] at this
      exact min_eq_right_iff.mp this
  | string | binary => exact ⟨fun short => ⟨rfl, short⟩, And.right⟩

theorem written_eq {v : Value φ type} (ok : Encodable fixed type v) :
    (writtenText fixed type v).getD [] = fieldText fixed type v := by
  cases type with
  | none => rfl
  | signed => exact take_of_length_le (length_signedBytes_le v)
  | unsigned => exact take_of_length_le (length_unsignedBytes_le v)
  | float => exact take_of_length_le ok
  | string | binary => rfl

/-- A row is read as it is if and only if each of its fields is encodable: every length-encoded
text takes at least the bytes that are written for it, and more if it is long. -/
theorem texts_rowContent_iff :
    texts columns.length (rowContent fixed columns key row) =
        some ((rowTexts fixed columns key row).map some) ↔
      ∀ c ∈ columns, Encodable fixed (t.fieldType c.id) (c.value key row) := by
  have count : columns.length = (rowTexts fixed columns key row).length := by
    rw [rowTexts, length_map]
  constructor
  · intro read
    rw [count] at read
    obtain ⟨least, short⟩ := shortSize_le read
    rw [length_rowContent, rowLen_eq] at least short
    have most : shortSize (rowWritten fixed columns key row) ≤
        shortSize (rowTexts fixed columns key row) := by
      unfold shortSize rowWritten rowTexts
      rw [map_map, map_map]
      exact sum_le_sum fun c _ => Nat.succ_le_succ (length_written_le fixed _)
    intro c mem
    refine (encodable_iff fixed _).mpr
      ⟨?_, short (Nat.le_antisymm most least) _ (mem_map_of_mem mem)⟩
    by_contra differ
    refine Nat.not_lt_of_le least ?_
    unfold shortSize rowWritten rowTexts
    rw [map_map, map_map]
    refine sum_lt_sum _ _ (fun c _ => Nat.succ_le_succ (length_written_le fixed _)) ⟨c, mem, ?_⟩
    exact Nat.succ_lt_succ (Nat.lt_of_le_of_ne (length_written_le fixed _) differ)
  · intro ok
    have same : rowWritten fixed columns key row = rowTexts fixed columns key row :=
      map_congr_left fun c mem => written_eq fixed (ok c mem)
    rw [rowContent_eq, same, count]
    refine texts_short fun s mem => ?_
    obtain ⟨c, selected, rfl⟩ := mem_map.mp mem
    exact ((encodable_iff fixed _).mp (ok c selected)).2

theorem rowLen_of_encodable
    (ok : ∀ c ∈ columns, Encodable fixed (t.fieldType c.id) (c.value key row)) :
    rowLen fixed columns key row =
      ((rowTexts fixed columns key row).map fun s => 1 + s.length).sum := by
  have same : rowWritten fixed columns key row = rowTexts fixed columns key row :=
    map_congr_left fun c mem => written_eq fixed (ok c mem)
  rw [rowLen_eq, same]
  exact congrArg sum (map_congr_left fun s _ => Nat.add_comm _ 1)

end Rows

/-! ### The response -/

theorem okAffectedRows_iff (n : Nat) :
    okAffectedRows ([0] ++ leBytes 2 n ++ [2, 0, 0, 0]) = some n ↔ n < 251 := by
  have read : okAffectedRows ([0] ++ leBytes 2 n ++ [2, 0, 0, 0]) =
      (integer [UInt8.ofNat n, UInt8.ofNat (n / 256), 2, 0, 0, 0]).bind Prod.fst := rfl
  have low : (UInt8.ofNat n).toNat = n % 256 := UInt8.toNat_ofNat'
  have high : (UInt8.ofNat (n / 256)).toNat = n / 256 % 256 := UInt8.toNat_ofNat'
  rw [read, integer]
  by_cases small : (UInt8.ofNat n).toNat < 251
  · rw [if_pos small, Option.bind_some, Option.some_inj, low]
    omega
  · have large : ¬ n < 251 := by omega
    refine iff_of_false (fun same => ?_) large
    -- behind a mark stand the high byte of the count and the status bytes
    split_ifs at same with null two three eight
    · cases same
    · have : n = (UInt8.ofNat (n / 256)).toNat + 512 := (Option.some_inj.mp same).symm
      have : n % 256 = 252 := by rw [← low, two]; rfl
      omega
    · have : n = (UInt8.ofNat (n / 256)).toNat + 512 := (Option.some_inj.mp same).symm
      have : n % 256 = 253 := by rw [← low, three]; rfl
      omega
    · cases same
    · cases same

section Response
variable (fixed : φ → List UInt8) (job : Job φ t)

theorem isSequence_ok : IsSequence (job.pktNr + 1) ((encodeMysqlOk job).map Buffer.sent) := by
  have short : ([0] ++ leBytes 2 job.affectedRows ++ [2, 0, 0, 0]).length < 2 ^ 24 := by
    simp
  exact ⟨(isPacket_iff _ (job.pktNr + 1)).mpr short, trivial⟩

theorem isSequence_protocol :
    IsSequence (job.pktNr + 1) ((encodeMysqlProtocol fixed job).map Buffer.sent) ↔
      (∀ c ∈ job.need, fieldDefLen job.tableName c < 2 ^ 24) ∧
        ∀ row ∈ job.rows, rowLen fixed job.need job.requestKey row < 2 ^ 24 := by
  have info : IsPacket (job.pktNr + 1)
      (encodeMyFiledsInfo (job.pktNr + 1) (UInt8.ofNat job.need.length)).sent :=
    (isPacket_iff [UInt8.ofNat job.need.length] _).mpr (by decide : 1 < 2 ^ 24)
  have eof : ∀ pktNr, IsPacket pktNr (encodeEof pktNr).sent := fun pktNr =>
    (isPacket_iff [0xfe, 0, 0, 0x22, 0, 0, 0] pktNr).mpr (by decide)
  unfold encodeMysqlProtocol
  rw [append_assoc, append_assoc, map_append, map_append, map_append,
    map_singleton, singleton_append, IsSequence, isSequence_encodeFieldDef,
    isSequence_encodeRowData]
  simp only [info, eof, map_cons, map_nil, IsSequence, and_true, true_and]

/-- The buffers of the rows stand behind the field count and the columns. -/
theorem take_drop_protocol :
    ((encodeMysqlProtocol fixed job).drop (1 + job.need.length)).take job.rows.length =
      (encodeRowData fixed job.need job.requestKey
        (encodeFieldDef job.tableName (job.pktNr + 1 + 1) job.need).2 job.rows).1 := by
  unfold encodeMysqlProtocol
  rw [append_assoc, drop_left', take_left']
  · exact length_encodeRowData fixed job.need job.requestKey _ job.rows
  · rw [length_append, length_encodeFieldDef]
    rfl

theorem length_protocol :
    (encodeMysqlProtocol fixed job).length = 1 + job.need.length + job.rows.length + 1 := by
  unfold encodeMysqlProtocol
  rw [length_append, length_append, length_append, length_encodeFieldDef, length_encodeRowData]
  rfl

theorem wellFormed_of_result (result : job.hasResult = true) :
    WellFormed fixed job (encodeResultV2 fixed job) ↔
      (∀ c ∈ job.need, fieldDefLen job.tableName c < 2 ^ 24) ∧
        (∀ row ∈ job.rows, rowLen fixed job.need job.requestKey row < 2 ^ 24) ∧
        ∀ row ∈ job.rows, ∀ c ∈ job.need,
          Encodable fixed (t.fieldType c.id) (c.value job.requestKey row) := by
  have response : encodeResultV2 fixed job =
      (1 + job.need.length + 0 + job.rows.length + 1, encodeMysqlProtocol fixed job) :=
    if_pos result
  have rows := forall₂_encodeRowData fixed job.need job.requestKey
    (fun bytes row => texts job.need.length bytes =
      some ((rowTexts fixed job.need job.requestKey row).map some))
    (encodeFieldDef job.tableName (job.pktNr + 1 + 1) job.need).2 job.rows
  rw [← take_drop_protocol] at rows
  rw [response, ← and_assoc, ← isSequence_protocol]
  constructor
  · intro formed
    refine ⟨formed.packets, fun row mem => ?_⟩
    exact (texts_rowContent_iff fixed job.need job.requestKey row).mp
      (rows.mp (formed.rows result) row mem)
  · rintro ⟨packets, ok⟩
    refine ⟨packets, (length_protocol fixed job).symm, fun _ => rows.mpr fun row mem => ?_, ?_⟩
    · exact (texts_rowContent_iff fixed job.need job.requestKey row).mpr (ok row mem)
    · intro empty
      rw [result] at empty
      cases empty

theorem wellFormed_of_ok (empty : job.hasResult = false) :
    WellFormed fixed job (encodeResultV2 fixed job) ↔ job.affectedRows < 251 := by
  have response : encodeResultV2 fixed job = (1, encodeMysqlOk job) :=
    if_neg (by rw [empty]; exact Bool.false_ne_true)
  rw [response, ← okAffectedRows_iff]
  constructor
  · intro formed
    obtain ⟨buffer, single, count⟩ := formed.ok empty
    cases single
    exact count
  · intro count
    refine ⟨isSequence_ok job, rfl, ?_, fun _ => ⟨_, rfl, count⟩⟩
    intro result
    rw [empty] at result
    cases result

/-- The response to a job is a well-formed answer if and only if the job is encodable. -/
theorem response_wellFormed_iff :
    WellFormed fixed job (encodeResultV2 fixed job) ↔ job.Encodable fixed := by
  unfold Job.Encodable
  cases kind : job.hasResult with
  | false =>
    rw [wellFormed_of_ok fixed job kind]
    exact Iff.rfl
  | true =>
    rw [wellFormed_of_result fixed job kind, if_pos rfl, ← forall₂_and]
    refine and_congr_right fun _ => forall₂_congr fun row _ => ?_
    refine and_congr_left fun ok => ?_
    rw [rowLen_of_encodable fixed job.need job.requestKey row ok]

end Response

/-- A table of strings. -/
def longTextTable : TableDefinition where
  numFields := 1
  keyFields := 1
  keyFormat := 0
  field := fun _ => ⟨.string, 255, false⟩
  readOnly := fun _ => false
  fieldId := fun _ => none

/-- A job with one row, whose one selected text has 251 bytes; without a result it has changed 251
rows. -/
def longTextJob (hasResult : Bool) : Job Unit longTextTable where
  pktNr := 0
  tableName := [116]
  need := [⟨[118], 1, by decide⟩]
  requestKey := some [107]
  hasResult := hasResult
  rows := [fun _ => some (List.replicate 251 97)]
  affectedRows := 251

/-- The row is written as a `NULL` and 251 bytes behind it, the count as a `NULL`. -/
theorem long_text_response_malformed :
    ¬ WellFormed (fun _ => []) (longTextJob true) (encodeResultV2 (fun _ => []) (longTextJob true)) ∧
      ¬ WellFormed (fun _ => []) (longTextJob false)
        (encodeResultV2 (fun _ => []) (longTextJob false)) := by
  constructor
  · intro formed
    have rows := formed.rows rfl
    cases rows with
    | cons row _ => exact absurd row (by decide +kernel)
  · intro formed
    obtain ⟨buffer, single, count⟩ := formed.ok rfl
    cases single
    exact absurd count (by decide +kernel)

end Dtc.Packet
