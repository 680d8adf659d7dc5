import Dtc.Library.Memory

/-!
# Packed row buffers

`RawData` keeps the rows of one key in a chunk: a header of 16 bytes (type byte,
`data_size_`, `row_count_`, get count, three time stamps), the packed key, and the
rows one after another. A row is a flag byte followed by its fields without the
key fields and without the discard fields; integers and floats take four or eight
bytes, everything else a four-byte length and its bytes.

The chunk is a memory of `size` bytes at offset 0. The allocator is a parameter of
each call. All that is assumed of it is what its interface says: a call fails or
gives a chunk with at least the bytes asked for, and a reallocation keeps the
bytes up to the smaller of the two sizes. `chunk_size` has 32 bits.

Error exits (`goto ERROR_RET`) return the state they leave behind. Row values are
copies: callers encode a row into a private area before they pass it to a function
that may move the chunk.
-/

namespace Dtc.Raw

open Library Memory

/-- `DField`, the types of fields. -/
inductive DField
  | none
  | signed
  | unsigned
  | float
  | string
  | binary
  deriving DecidableEq, Repr

/-- The number of a field type. -/
def DField.code : DField → Nat
  | .none => 0
  | .signed => 1
  | .unsigned => 2
  | .float => 3
  | .string => 4
  | .binary => 5

/-- The part of a field definition that the row format depends on. -/
structure FieldDefinition where
  fieldType : DField
  fieldSize : Nat
  discard : Bool

/-- The part of a table definition that the row format depends on. The components that read more
of it extend this structure. -/
structure TableDefinition where
  keyFields : Nat
  numFields : Nat
  keyFormat : Nat
  field : Nat → FieldDefinition

/-- `field_type` -/
abbrev TableDefinition.fieldType (t : TableDefinition) (id : Nat) : DField := (t.field id).fieldType

/-- A `DTCBinary`: its length is a non-negative `int`. -/
abbrev DTCBinary := { bytes : List UInt8 // bytes.length < 2 ^ 31 }

theorem nil_short : ([] : List UInt8).length < 2 ^ 31 := by
  simp

/-- The members of the `DTCValue` union that a field type selects: the eight bytes
read as `s64`, `u64` or `flt`, and `bin`. -/
structure DTCValue where
  num : BitVec 64
  bin : DTCBinary
  deriving DecidableEq

/-- The values of a row by field number. -/
abbrev RowValue := Nat → DTCValue

/-- The conversions between `double` and `float`, on bit patterns. -/
structure FloatFormat where
  narrow : BitVec 64 → BitVec 32
  widen : BitVec 32 → BitVec 64

/-- A chunk handed out by the allocator: its usable size, and the bytes in it that
were not copied from an old chunk. -/
structure Grant where
  usable : Nat
  fresh : Nat → UInt8

/-- The answer of the allocator to a call, by the size asked for. -/
structure Allocator where
  answer : Nat → Option Grant
  covers : ∀ n grant, answer n = some grant → n ≤ grant.usable
  range : ∀ n grant, answer n = some grant → grant.usable < 2 ^ 32

/-- A `RawData` object and the chunk it is attached to. -/
structure RawData where
  mem : Nat → UInt8
  size : Nat
  dataSize : Nat
  rowCount : Nat
  keyIndex : Nat
  keySize : Nat
  keyStart : Nat
  dataStart : Nat
  rowOffset : Nat
  offset : Nat

/-- `OPER_SELECT`. -/
def operSelect : UInt8 := 0x30

/-- `OPER_UPDATE`. -/
def operUpdate : UInt8 := 0x32

/-- `OPER_INSERT`. -/
def operInsert : UInt8 := 0x36

/-- `EC_NO_MEM`. -/
def ecNoMem : Int := 2041

/-- The field numbers that the loops over a row visit. -/
def rowFields (keyIndex numFields : Nat) : List Nat :=
  List.range' (keyIndex + 1) (numFields - keyIndex)

theorem bind_ok {ε α β : Type} {x : Except ε α} {f : α → Except ε β} {b : β}
    (ok : (x >>= f) = .ok b) : ∃ a, x = .ok a ∧ f a = .ok b := by
  cases x with
  | error e => exact nomatch ok
  | ok a => exact ⟨a, rfl, ok⟩

namespace RawData

section
variable (s : RawData)

/-- `GET_VALUE`: the next `n` bytes. -/
def getValue (n : Nat) : Except RawData (List UInt8 × RawData) :=
  if s.size < s.offset + n then .error s
  else .ok (slice s.mem s.offset n, { s with offset := s.offset + n })

/-- `SET_VALUE` and `SET_BIN_VALUE`. -/
def setValue (bytes : List UInt8) : Except RawData RawData :=
  if s.size < s.offset + bytes.length then .error s
  else .ok { s with mem := store s.mem s.offset bytes, offset := s.offset + bytes.length }

/-- `SKIP_SIZE(sizeof(t))`. -/
def skipSize (n : Nat) : Except RawData RawData :=
  if s.size < s.offset + n then .error s else .ok { s with offset := s.offset + n }

/-- `SKIP_SIZE(len)` for an `int`, whose sum with `offset_` has 32 bits. -/
def skipLen (len : Nat) : Except RawData RawData :=
  if s.size < add32 s.offset len then .error s
  else .ok { s with offset := add32 s.offset len }

/-- The object with its chunk reallocated to `n` bytes. -/
def reAlloc (n : Nat) (alloc : Allocator) : Option RawData :=
  (alloc.answer n).map fun grant =>
    let mem := fun i => if i < min s.size grant.usable then s.mem i else grant.fresh i
    { s with mem, size := grant.usable }

/-- `set_data_size`. -/
def setDataSize : RawData :=
  if s.size < 1 + 4 then s else { s with mem := store s.mem 1 (leBytes 4 s.dataSize) }

/-- `set_row_count`. -/
def setRowCount : RawData :=
  if s.size < 5 + 4 then s else { s with mem := store s.mem 5 (leBytes 4 s.rowCount) }

/-- The end of `encode_row`: a row of `tSize` bytes is counted. -/
def countRow (tSize : Nat) : RawData :=
  let s := { s with dataSize := add32 s.dataSize tSize }.setDataSize
  { s with rowCount := add32 s.rowCount 1 }.setRowCount

/-- `row_count_--; data_size_ -= curSize`. -/
def uncountRow (curSize : Nat) : RawData :=
  { s with rowCount := sub32 s.rowCount 1,
           dataSize := sub32 s.dataSize curSize }

/-- `rewind`. -/
def rewind : RawData := { s with offset := s.dataStart, rowOffset := s.dataStart }

/-- `init` at the current hour. The header is written field by field; the key is
copied without a further check. -/
def init (keyIdx keySize : Nat) (key : List UInt8) (dataSize nodeIdx hour : Nat)
    (alloc : Allocator) : Except Int RawData :=
  let ks := if keySize ≠ 0 then keySize else 1 + (key.headD 0).toNat
  match alloc.answer (add32 dataSize (16 + ks)) with
  | none => .error ecNoMem
  | some grant =>
    if nodeIdx ≠ 0 ∧ nodeIdx ≠ 1 then .error (-100)
    else
      let s : RawData :=
        { mem := grant.fresh, size := grant.usable, dataSize := 16 + ks, rowCount := 0,
          keyIndex := keyIdx, keySize, keyStart := 0, dataStart := 0, rowOffset := 0,
          offset := 0 }
      let header : Except RawData RawData := do
        let s ← s.setValue [UInt8.ofNat (nodeIdx * 128)]
        let s ← s.setValue (leBytes 4 s.dataSize)
        let s ← s.setValue (leBytes 4 s.rowCount)
        let s ← s.setValue [1]
        s.setValue (leBytes 2 hour ++ leBytes 2 hour ++ leBytes 2 hour)
      match header with
      | .error _ => .error (-100)
      | .ok s =>
        let stop := s.offset + ks
        .ok { s with mem := store s.mem s.offset (key.take ks), keyStart := s.offset,
                     dataStart := stop, rowOffset := stop, offset := stop }

/-- The reads of `do_attach`. -/
def attachBody (keyIdx keySize : Nat) : Except RawData (Int × RawData) := do
  let (type, s) ← s.getValue 1
  if leNat type % 128 ≠ 0 then return (-2, s)
  let (bytes, s) ← s.getValue 4
  let s := { s with dataSize := leNat bytes }
  let (bytes, s) ← s.getValue 4
  let s := { s with rowCount := leNat bytes }
  let (_, s) ← s.getValue 1
  let s ← s.skipSize 6
  if s.size < s.dataSize then return (-3, s)
  let s := { s with keyIndex := keyIdx, keyStart := s.offset, keySize }
  let ks := if keySize ≠ 0 then keySize else 1 + (s.mem s.keyStart).toNat
  let s ← s.skipLen ks
  return (0, { s with dataStart := s.offset, rowOffset := s.offset })

/-- `do_attach` to the chunk the object already has. -/
def doAttach (keyIdx keySize : Nat) : Int × RawData :=
  if s.size = 0 then (-1, s)
  else
    match { s with offset := 0 }.attachBody keyIdx keySize with
    | .ok result => result
    | .error s => (-100, s)

/-- `expand_chunk`. -/
def expandChunk (expandSize : Nat) (alloc : Allocator) : Int × RawData :=
  if s.size < add32 s.dataSize expandSize then
    match s.reAlloc (add32 s.dataSize expandSize) alloc with
    | none => (ecNoMem, s)
    | some s => (0, s)
  else (0, s)

end

/-- One round of the loop of `calc_row_size`. -/
def calcField (f : FieldDefinition) (v : DTCValue) : Nat :=
  match f.fieldType with
  | .signed | .unsigned => if 4 < f.fieldSize then 8 else 4
  | .float => if 4 < f.fieldSize then 8 else 4
  | .string | .binary | .none => 4 + v.bin.1.length

/-- `calc_row_size`, in 32 bits. -/
def calcRowSize (t : TableDefinition) (row : RowValue) (keyIdx : Nat) : Nat :=
  (rowFields keyIdx t.numFields).foldl (fun size j =>
    if (t.field j).discard then size else add32 size (calcField (t.field j) (row j))) 1

/-- The bytes that one round of the loop of `encode_row` writes. -/
def fieldBytes (fmt : FloatFormat) (f : FieldDefinition) (v : DTCValue) : List UInt8 :=
  match f.fieldType with
  | .signed | .unsigned =>
    if 4 < f.fieldSize then leBytes 8 v.num.toNat else leBytes 4 v.num.toNat
  | .float => if 4 < f.fieldSize then leBytes 8 v.num.toNat else leBytes 4 (fmt.narrow v.num).toNat
  | .string | .binary | .none => leBytes 4 v.bin.1.length ++ v.bin.1

/-- The loop of `encode_row`. -/
def encodeFields (fmt : FloatFormat) (t : TableDefinition) (row : RowValue) :
    List Nat → RawData → Except RawData RawData
  | [], s => .ok s
  | j :: js, s =>
    if (t.field j).discard then encodeFields fmt t row js s
    else do
      let s ← s.setValue (fieldBytes fmt (t.field j) (row j))
      encodeFields fmt t row js s

variable (fmt : FloatFormat) (t : TableDefinition) (s : RawData) (row : RowValue)

/-- `encode_row` behind the expansion of the chunk. -/
def encodeRowHere (op : UInt8) : Int × RawData :=
  let encoded : Except RawData RawData := do
    let s ← s.setValue [op]
    encodeFields fmt t row (rowFields s.keyIndex t.numFields) s
  match encoded with
  | .error s => (-100, s)
  | .ok s => (0, s.countRow (calcRowSize t row s.keyIndex))

/-- `encode_row` with `expendBuf`. -/
def encodeRow (op : UInt8) (alloc : Allocator) : Int × RawData :=
  match s.expandChunk (calcRowSize t row s.keyIndex) alloc with
  | (0, s) => encodeRowHere fmt t s row op
  | failed => failed

/-- `insert_row_flag`. The temporary buffer of the rotation is allocated if `temp`. -/
def insertRowFlag (byFirst : Bool) (op : UInt8) (alloc : Allocator) (temp : Bool) : Int × RawData :=
  let oldSize := s.dataSize
  let encoded := encodeRow fmt t { s with offset := s.dataSize } row op alloc
  let ret := encoded.1
  let s := encoded.2
  let newRowSize := sub32 s.dataSize oldSize
  if ret = 0 ∧ byFirst ∧ 0 < newRowSize ∧ 0 < sub32 oldSize s.dataStart then
    if !temp then (-12, s)
    else
      let last := slice s.mem oldSize newRowSize
      let moved := move s.mem (s.dataStart + newRowSize) s.dataStart
        (sub32 oldSize s.dataStart)
      (ret, { s with mem := store moved s.dataStart last })
  else (ret, s)

/-- `insert_row`. -/
def insertRow (byFirst isDirty : Bool) (alloc : Allocator) (temp : Bool) : Int × RawData :=
  s.insertRowFlag fmt t row byFirst (if isDirty then operInsert else operSelect) alloc temp

/-- One round of the loop of `decode_row`. A negative length selects no bytes. -/
def decodeField (fmt : FloatFormat) (f : FieldDefinition) (v : DTCValue) (s : RawData) :
    Except RawData (DTCValue × RawData) :=
  match f.fieldType with
  | .signed =>
    if 4 < f.fieldSize then do
      let (bytes, s) ← s.getValue 8
      return ({ v with num := .ofNat 64 (leNat bytes) }, s)
    else do
      let (bytes, s) ← s.getValue 4
      return ({ v with num := (BitVec.ofNat 32 (leNat bytes)).signExtend 64 }, s)
  | .unsigned =>
    if 4 < f.fieldSize then do
      let (bytes, s) ← s.getValue 8
      return ({ v with num := .ofNat 64 (leNat bytes) }, s)
    else do
      let (bytes, s) ← s.getValue 4
      return ({ v with num := (BitVec.ofNat 32 (leNat bytes)).setWidth 64 }, s)
  | .float =>
    if 4 < f.fieldSize then do
      let (bytes, s) ← s.getValue 8
      return ({ v with num := .ofNat 64 (leNat bytes) }, s)
    else do
      let (bytes, s) ← s.getValue 4
      return ({ v with num := fmt.widen (.ofNat 32 (leNat bytes)) }, s)
  | .string | .binary | .none => do
      let (bytes, s) ← s.getValue 4
      let len := leNat bytes
      let bin : DTCBinary :=
        if h : len < 2 ^ 31 then ⟨slice s.mem s.offset len, by rwa [length_slice]⟩
        else ⟨[], nil_short⟩
      let s ← s.skipLen len
      return ({ v with bin }, s)

/-- The loop of `decode_row`. -/
def decodeFields (fmt : FloatFormat) (t : TableDefinition) :
    List Nat → RowValue → RawData → Except RawData (RowValue × RawData)
  | [], row, s => .ok (row, s)
  | j :: js, row, s =>
    if (t.field j).discard then decodeFields fmt t js row s
    else do
      let (v, s) ← decodeField fmt (t.field j) (row j) s
      decodeFields fmt t js (Function.update row j v) s

/-- `decode_row`: the flag and the row are meaningful if the code is 0. With
`PRE_DECODE_ROW` the cursor stays. -/
def decodeRow (preDecode : Bool) : Int × UInt8 × RowValue × RawData :=
  let restore := fun s' : RawData =>
    if preDecode then { s' with offset := s.offset, rowOffset := s.rowOffset } else s'
  let decoded : Except RawData (UInt8 × RowValue × RawData) := do
    let (flag, s) ← { s with rowOffset := s.offset }.getValue 1
    let (row, s) ← decodeFields fmt t (rowFields s.keyIndex t.numFields) row s
    return (flag.headD 0, row, s)
  match decoded with
  | .ok (flag, row, s) => (0, flag, row, restore s)
  | .error s => (-100, 0, row, restore s)

/-- One round of the loop of `skip_row`. -/
def skipField (f : FieldDefinition) (s : RawData) : Except RawData RawData :=
  match f.fieldType with
  | .unsigned | .signed => if 4 < f.fieldSize then s.skipSize 8 else s.skipSize 4
  | .float => if 4 < f.fieldSize then s.skipSize 8 else s.skipSize 4
  | .string | .binary | .none => do
      let (bytes, s) ← s.getValue 4
      s.skipLen (leNat bytes)

/-- The loop of `skip_row`. -/
def skipFields (t : TableDefinition) : List Nat → RawData → Except RawData RawData
  | [], s => .ok s
  | j :: js, s =>
    if (t.field j).discard then skipFields t js s
    else do
      let s ← skipField (t.field j) s
      skipFields t js s

/-- `skip_row`: the offset behind the current row. -/
def skipRow (t : TableDefinition) (s : RawData) : Int × RawData :=
  let s := { s with offset := s.rowOffset }
  if s.dataSize ≤ s.offset then (-2, s)
  else
    let skipped : Except RawData RawData := do
      let s ← s.skipSize 1
      skipFields t (rowFields s.keyIndex t.numFields) s
    match skipped with
    | .ok s => (0, s)
    | .error s => (-100, s)

/-- The branch of `replace_cur_row` for a longer row, behind `skip_row`. -/
def replaceLonger (flag : UInt8) (newSize curSize : Nat) (alloc : Allocator) : Int × RawData :=
  let nextOffset := s.offset
  let nextSize := sub32 s.dataSize s.offset
  match s.reAlloc (sub32 (add32 s.dataSize newSize) curSize) alloc with
  | none => (ecNoMem, s)
  | some s =>
    let s := if 0 < nextSize then
        { s with mem := move s.mem (nextOffset + (newSize - curSize)) nextOffset nextSize }
      else s
    let encoded := encodeRowHere fmt t { s with offset := s.rowOffset } row flag
    let s := encoded.2
    if encoded.1 ≠ 0 then
      let s := if 0 < nextSize then
          { s with mem := move s.mem nextOffset (nextOffset + (newSize - curSize)) nextSize }
        else s
      (-1, s)
    else (0, s.uncountRow curSize)

/-- The branch of `replace_cur_row` for a row that is not longer, behind `skip_row`.
When the chunk is to be shortened, `encode_row` has already added the new row to
`data_size_`. -/
def replaceShorter (flag : UInt8) (newSize curSize : Nat) (alloc : Allocator) : Int × RawData :=
  let nextOffset := s.offset
  let nextSize := sub32 s.dataSize s.offset
  let backup := slice s.mem s.rowOffset curSize
  let encoded := encodeRowHere fmt t { s with offset := s.rowOffset } row flag
  let s := encoded.2
  if encoded.1 ≠ 0 then (-1, { s with mem := store s.mem s.rowOffset backup })
  else
    let s := if 0 < nextSize ∧ s.offset ≠ nextOffset then
        { s with mem := move s.mem s.offset nextOffset nextSize }
      else s
    let s := (s.reAlloc (sub32 (add32 s.dataSize newSize) curSize) alloc).getD s
    (0, s.uncountRow curSize)

/-- `replace_cur_row`. -/
def replaceCurRow (isDirty : Bool) (alloc : Allocator) (temp : Bool) : Int × RawData :=
  let oldOffset := s.offset
  let fail := fun (ret : Int) (s : RawData) => (ret, { s with offset := oldOffset })
  let skipped := skipRow t s
  let s := skipped.2
  if skipped.1 ≠ 0 then fail skipped.1 s
  else if s.size < s.rowOffset + 1 then fail 0 s
  else
    let flag := if isDirty then operUpdate else s.mem s.rowOffset
    let newSize := calcRowSize t row s.keyIndex
    let curSize := sub32 s.offset s.rowOffset
    if curSize < newSize then
      let replaced := replaceLonger fmt t s row flag newSize curSize alloc
      if replaced.1 ≠ 0 then fail replaced.1 replaced.2
      else (0, replaced.2.setDataSize.setRowCount)
    else if !temp then (-12, s)
    else
      let replaced := replaceShorter fmt t s row flag newSize curSize alloc
      if replaced.1 ≠ 0 then fail replaced.1 replaced.2
      else (0, replaced.2.setDataSize.setRowCount)

/-- `delete_cur_row`. -/
def deleteCurRow (t : TableDefinition) (s : RawData) : Int × RawData :=
  let oldOffset := s.offset
  let skipped := skipRow t s
  let s := skipped.2
  if skipped.1 ≠ 0 then (skipped.1, { s with offset := oldOffset })
  else
    let nextSize := sub32 s.dataSize s.offset
    let curSize := sub32 s.offset s.rowOffset
    let s := { s with mem := move s.mem s.rowOffset s.offset nextSize }
    let s := (s.uncountRow curSize).setDataSize.setRowCount
    (0, { s with offset := s.rowOffset })

/-- `delete_all_rows`. -/
def deleteAllRows (s : RawData) : Int × RawData :=
  let s := { s with dataSize := s.dataStart, rowOffset := s.dataStart, rowCount := 0,
                    offset := s.dataStart }
  (0, s.setDataSize.setRowCount)

/-- `set_cur_row_flag`. -/
def setCurRowFlag (s : RawData) (flag : UInt8) : Int × RawData :=
  if s.dataSize ≤ s.rowOffset then (-1, s)
  else (0, { s with mem := store s.mem s.rowOffset [flag] })

end RawData

end Dtc.Raw
