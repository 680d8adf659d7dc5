import Dtc.Raw.Compare

/-!
# Packed keys

A packed key is the form in which the cache stores and compares the key of a node. The
table definition fixes its layout (`set_key_fields`): a single string or binary key is a
length byte and its bytes, `key_format` 0; integer keys are their low bytes one behind
the other, and `key_format` is the number of these bytes. `build_packed_key` checks that
every integer is in the range of its field.

Reading a member of the `DTCValue` union that has not been set, and reading behind the
end of a table, is undefined; such calls are told apart from the error codes.
-/

namespace Dtc.Key

open Library.Memory Raw

/-- `add_field` accepts the type and the size of the field. -/
def Valid (f : FieldDefinition) : Prop :=
  match f.fieldType with
  | .none => False
  | .signed | .unsigned => 1 ≤ f.fieldSize ∧ f.fieldSize ≤ 8
  | .float => f.fieldSize = 4 ∨ f.fieldSize = 8
  | .string | .binary => 1 ≤ f.fieldSize ∧ f.fieldSize ≤ 64 * 2 ^ 20

/-- A field as `add_field` accepts it. -/
structure KeyField extends FieldDefinition where
  valid : Valid toFieldDefinition

/-- The part of a table definition that the packed key depends on; `key_format` has one byte. -/
structure TableDefinition extends Raw.TableDefinition where
  valid : ∀ i, Valid (field i)
  /-- `fieldList[i].offset`, one byte -/
  offset : Nat → Nat
  maxKeySize : Nat

/-- The value of a key field: the eight bytes read as `u64`, or `str`. -/
inductive KeyValue
  | num (u64 : BitVec 64)
  | str (bytes : List UInt8)
  deriving DecidableEq

/-- Why there is no packed key: a return code, or undefined behaviour. -/
inductive PackError
  | code (n : Int)
  | undefined
  deriving DecidableEq

namespace TableDefinition
variable (t : TableDefinition) (values : Nat → KeyValue) (packKey : Nat → UInt8)

abbrev keyField (i : Nat) : KeyField := ⟨t.field i, t.valid i⟩

/-- The constructor and `add_field` for each field. -/
def new (field : Nat → KeyField) (numFields : Nat) : TableDefinition where
  field := fun i => (field i).toFieldDefinition
  valid := fun i => (field i).valid
  numFields := numFields
  keyFields := 0
  offset := fun _ => 0
  keyFormat := 0
  maxKeySize := 0

/-- The loop of `set_key_fields`: the offsets, `maxSize` and `nvar`. -/
def keyLayout (field : Nat → KeyField) : List Nat → (Nat → Nat) × Nat × Nat →
    (Nat → Nat) × Nat × Nat
  | [], layout => layout
  | i :: is, (offset, maxSize, nvar) =>
    let offset := Function.update offset i (maxSize % 256)
    match (field i).fieldType with
    | .signed | .unsigned | .float =>
      keyLayout field is (offset, maxSize + (field i).fieldSize, nvar)
    | _ => keyLayout field is (offset, 1 + (field i).fieldSize, nvar + 1)

/-- `set_key_fields`. The limits are checked against the old `maxKeySize`. -/
def setKeyFields (n : Int) : Int × TableDefinition :=
  let n := if n < 0 then 1 else n
  if n ≤ 0 then (0, t)
  else if 32 < n then (-1, t)
  else
    let keyFields := min n.toNat (t.numFields + 1)
    let (offset, maxSize, nvar) := keyLayout t.keyField (List.range keyFields) (t.offset, 0, 0)
    let t := { t with keyFields, offset }
    if nvar = 0 then
      if 256 ≤ t.maxKeySize then (-1, t)
      else (0, { t with keyFormat := maxSize % 256, maxKeySize := maxSize % 2 ^ 16 })
    else if 256 + 1 ≤ t.maxKeySize then (-1, t)
    else if keyFields ≠ 1 then (-1, t)
    else
      let maxKeySize := maxSize + if 1 < nvar then 1 else 0
      (0, { t with keyFormat := 0, maxKeySize := maxKeySize % 2 ^ 16 })

/-- `intoff` of `store_value` -/
def intoff : List (BitVec 64) :=
  [0x80, 0x8000, 0x800000, 0x80000000, 0x8000000000, 0x800000000000, 0x80000000000000, 0,
    0, 0, 0, 0, 0, 0, 0, 0]

/-- `intmask` of `store_value` -/
def intmask : List (BitVec 64) :=
  [0xFFFFFFFFFFFFFF00, 0xFFFFFFFFFFFF0000, 0xFFFFFFFFFF000000, 0xFFFFFFFF00000000,
    0xFFFFFF0000000000, 0xFFFF000000000000, 0xFF00000000000000, 0]

/-- `store_value`: the bytes it writes, on a little-endian machine. -/
def storeValue (val : BitVec 64) (type : DField) (size : Nat) : Except PackError (List UInt8) :=
  match intoff[type.code * 8 + size - 9]?, intmask[size - 1]? with
  | some off, some mask =>
    if (val + off) &&& mask ≠ 0 then .error (.code (-1)) else .ok (leBytes size val.toNat)
  | _, _ => .error .undefined

/-- `u64` of a value. -/
def u64 : KeyValue → Except PackError (BitVec 64)
  | .num u64 => .ok u64
  | .str _ => .error .undefined

/-- `build_packed_key`: the loop over an integer key; a range error is `fail`. -/
def storeFields (fail : Int) : List Nat → (Nat → UInt8) → Except PackError (Nat → UInt8)
  | [], packKey => .ok packKey
  | i :: is, packKey =>
    match u64 (values i) with
    | .error e => .error e
    | .ok val =>
      match storeValue val (t.keyField i).fieldType (t.keyField i).fieldSize with
      | .error .undefined => .error .undefined
      | .error (.code _) => .error (.code fail)
      | .ok bytes => storeFields fail is (store packKey (t.offset i) bytes)

/-- `build_packed_key` into a buffer of `bufSize` bytes. -/
def buildPackedKey (bufSize : BitVec 32) (packKey : Nat → UInt8) : Except PackError (Nat → UInt8) :=
  if t.keyFormat = 0 then
    match values 0 with
    | .num _ => .error .undefined
    | .str bytes =>
      if (t.keyField 0).fieldSize < bytes.length then .error (.code (-1))
      else if bufSize.toInt < bytes.length + 1 then .error (.code (-2))
      else
        let bytes := if (t.keyField 0).fieldType = .string then bytes.map internalToLower else bytes
        .ok (store packKey 0 (UInt8.ofNat bytes.length :: bytes))
  else if t.keyFields = 1 then
    if bufSize.toNat < t.keyFormat then .error (.code (-3))
    -- a single key is stored at the start of the buffer
    else storeFields { t with offset := fun _ => 0 } values (-4) [0] packKey
  else if bufSize.toInt < t.keyFormat then .error (.code (-5))
  else storeFields t values (-6) (List.range t.keyFields) packKey

/-- `packed_key_size` -/
def packedKeySize : Nat :=
  if t.keyFormat = 0 then 1 + (packKey 0).toNat else t.keyFormat

/-- The bytes of a packed key. -/
def packedKey : List UInt8 :=
  slice packKey 0 (t.packedKeySize packKey)

/-- `unpack_key`: one integer, its high bytes are those of `0` or `-1`. -/
def loadValue (type : DField) (bytes : List UInt8) : BitVec 64 :=
  let fill : UInt8 :=
    if type = .unsigned then 0 else if 128 ≤ bytes.getD (bytes.length - 1) 0 then 255 else 0
  BitVec.ofNat 64 (leNat (bytes ++ List.replicate (8 - bytes.length) fill))

/-- `unpack_key`: the loop over an integer key. -/
def loadFields : List Nat → Nat → List KeyValue
  | [], _ => []
  | i :: is, p =>
    .num (loadValue (t.keyField i).fieldType (slice packKey p (t.keyField i).fieldSize)) ::
      loadFields is (p + (t.keyField i).fieldSize)

/-- `unpack_key` -/
def unpackKey : List KeyValue :=
  if t.keyFormat = 0 then [.str (slice packKey 1 (packKey 0).toNat)]
  else loadFields t packKey (List.range t.keyFields) 0

/-- The values of the key; the value of a string key in lower case. -/
def keyValues : List KeyValue :=
  if t.keyFormat = 0 then
    [match values 0 with
      | .str bytes =>
        .str (if (t.keyField 0).fieldType = .string then bytes.map internalToLower else bytes)
      | .num u64 => .num u64]
  else (List.range t.keyFields).map values

end TableDefinition

/-- The number of bytes of a string value. -/
def KeyValue.length : KeyValue → Nat
  | .str bytes => bytes.length
  | .num _ => 8

end Dtc.Key
