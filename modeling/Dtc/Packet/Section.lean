import Dtc.Packet.Codec

/-!
# Packet sections

A packet has simple sections (tags with values of predefined types), a field set, lists
of field values (conditions and updates) and, in the place of a condition list, the
further keys of a multi-field key. Each has an encoder, a function that announces its
size, and a decoder that checks what it reads against the table definition.

A field is named by its number; number 0, the key, is written as two zero bytes, since
one zero byte announces a field given by its name.

The decoders write into the job; the model returns what they write. The type masks of a
value list, which are derived from the fields, are left out.
-/

namespace Dtc.Packet

open Library Reader Raw

variable {φ : Type} (F : FloatText φ)

/-! ### Simple sections -/

/-- A section definition: `maxTags` and the types of the tags, `None` behind the end. -/
structure SectionDefinition where
  maxTags : Nat
  tagType : List DField

def versionInfoDefinition : SectionDefinition where
  maxTags := 20
  tagType := [.none, .string, .binary, .unsigned, .binary, .string, .string, .string, .unsigned,
    .unsigned, .unsigned, .unsigned, .binary, .binary, .unsigned, .signed, .signed, .unsigned,
    .string, .unsigned]

def requestInfoDefinition : SectionDefinition where
  maxTags := 8
  tagType := [.binary, .unsigned, .unsigned, .unsigned, .string, .unsigned, .string, .unsigned]

def resultInfoDefinition : SectionDefinition where
  maxTags := 10
  tagType := [.binary, .signed, .string, .string, .signed, .unsigned, .unsigned, .binary,
    .unsigned, .unsigned]

/-- The type with which a tag is encoded: tag 0 is the key, with the key type of the table. -/
def SectionDefinition.type (d : SectionDefinition) (kt : DField) (id : Nat) : DField :=
  if id = 0 then kt else d.tagType.getD id .none

/-- The tags that are set. -/
structure SimpleSection (φ : Type) (d : SectionDefinition) (kt : DField) where
  tagValue : (id : Nat) → Option (Value φ (d.type kt id))
  numTags : Nat

namespace SimpleSection
variable {d : SectionDefinition} {kt : DField}

/-- The constructor. -/
def new : SimpleSection φ d kt := ⟨fun _ => none, 0⟩

/-- `set_tag` -/
def setTag (s : SimpleSection φ d kt) (id : Nat) (v : Value φ (d.type kt id)) :
    SimpleSection φ d kt :=
  if d.tagType.getD id .none = .none then s
  else
    { tagValue := Function.update s.tagValue id (some v)
      numTags := if (s.tagValue id).isSome then s.numTags else s.numTags + 1 }

/-- `get_tag`: only the first `MAX_STATIC_SECTION` tags are present. -/
def getTag (s : SimpleSection φ d kt) (id : Nat) : Option (Value φ (d.type kt id)) :=
  if 20 ≤ id then none else s.tagValue id

end SimpleSection

section Simple
variable {d : SectionDefinition} {kt : DField}

/-- `encoded_bytes_simple_section` -/
def encodedBytesSimpleSection (s : SimpleSection φ d kt) : Nat :=
  ((List.range (d.maxTags + 1)).map fun i =>
    match s.getTag i with
    | none => 0
    | some v => 1 + encodedBytesDataValue F _ v).sum

/-- `encode_simple_section` -/
def encodeSimpleSection (s : SimpleSection φ d kt) : List UInt8 :=
  (List.range (d.maxTags + 1)).flatMap fun i =>
    match s.getTag i with
    | none => []
    | some v => UInt8.ofNat i :: encodeDataValue F _ v

/-- `decode_simple_section`: the loop, with the tags met so far. Every turn takes bytes, so as many
turns as bytes are enough. -/
def decodeTags : Nat → List Nat → SimpleSection φ d kt → List UInt8 →
    Except ErrorCode (SimpleSection φ d kt)
  | _, _, s, [] => .ok s
  | 0, _, _, _ :: _ => .error .badSectionLength
  | turns + 1, mask, s, b :: bin =>
    let id := b.toNat
    if id ∈ mask then .error .duplicateTag
    else
      match decodeDataValue F (d.type kt id) bin with
      | .error e => .error e
      | .ok (v, bin) =>
        if d.type kt id = .none then decodeTags turns mask s bin
        else
          decodeTags turns (id :: mask)
            { tagValue := Function.update s.tagValue id (some v)
              numTags := s.numTags + 1 } bin

/-- `decode_simple_section` into a clean section. -/
def decodeSimpleSection (d : SectionDefinition) (kt : DField) (bytes : List UInt8) :
    Except ErrorCode (SimpleSection φ d kt) :=
  decodeTags F bytes.length [] .new bytes

end Simple

/-! ### Field sets -/

/-- The part of a table definition that the decoders look at. -/
structure TableDefinition extends Raw.TableDefinition where
  readOnly : Nat → Bool
  /-- `field_id` of a name -/
  fieldId : List UInt8 → Option UInt8

/-- A field set: the numbers in the order they were added, and the mask of those present. -/
structure FieldSet where
  maxFields : Nat
  fieldId : List UInt8
  fieldMask : UInt8 → Bool

namespace FieldSet

/-- `DTCFieldSet(n)` -/
def new (n : Nat) : FieldSet := ⟨min n 255, [], fun _ => false⟩

/-- `add_field` -/
def addField (fs : FieldSet) (id : UInt8) : FieldSet :=
  if fs.maxFields ≤ fs.fieldId.length then fs
  else
    { fs with
      fieldId := fs.fieldId ++ [id]
      fieldMask := Function.update fs.fieldMask id true }

end FieldSet

/-- `encoded_bytes_field_set` -/
def encodedBytesFieldSet (fs : FieldSet) : Nat :=
  if fs.fieldId.length = 0 then 0
  else if fs.fieldMask 0 then fs.fieldId.length + 2
  else fs.fieldId.length + 1

/-- `encode_field_set` -/
def encodeFieldSet (fs : FieldSet) : List UInt8 :=
  if fs.fieldId.length = 0 then []
  else UInt8.ofNat fs.fieldId.length :: fs.fieldId.flatMap fun id => if id = 0 then [id, 0] else [id]

variable (t : TableDefinition)

/-- `decode_field_id`, and whether the field was given by its name. -/
def decodeFieldId : Reader ErrorCode (UInt8 × Bool) := do
  let n ← byte .badSectionLength
  if n ≠ 0 then pure (n, false)
  else do
    let n ← byte .badSectionLength
    if n = 0 then pure (n, false)
    else do
      let name ← take .badSectionLength n.toNat
      match t.fieldId name with
      | none => fail .badFieldName
      | some id => pure (id, true)

/-- `decode_field_set`: the loop. A field that is already there is skipped. -/
def decodeFieldIds : Nat → List UInt8 → Bool → Reader ErrorCode (List UInt8 × Bool)
  | 0, ids, needDefinition => pure (ids, needDefinition)
  | n + 1, ids, needDefinition => do
      let (id, named) ← decodeFieldId t
      if id ∈ ids then decodeFieldIds n ids needDefinition
      else decodeFieldIds n (ids ++ [id]) (needDefinition || named)

/-- `decode_field_set`: the numbers, and whether the client needs the table definition. -/
def decodeFieldSet : List UInt8 → Except ErrorCode (List UInt8 × Bool)
  | [] => .error .badSectionLength
  | num :: bin =>
    if num = 0 then .ok ([], false)
    else whole (decodeFieldIds t num.toNat [] false) .extraSectionData bin

/-! ### Field values -/

/-- An entry of a `DTCFieldValue`. -/
structure FieldValue (φ : Type) where
  id : UInt8
  oper : Nat
  type : DField
  val : Value φ type

/-- The entry as the decoder gives it back. -/
def FieldValue.decoded (fv : FieldValue φ) : FieldValue φ := { fv with val := fv.val.decoded }

/-- `encoded_bytes_field_value` -/
def encodedBytesFieldValue (fvs : List (FieldValue φ)) : Nat :=
  if fvs.length = 0 then 0
  else
    1 + (fvs.map fun fv =>
      (if fv.id = 0 then 1 else 0) + (2 + encodedBytesDataValue F fv.type fv.val)).sum

/-- `encode_field_value`: one entry. -/
def encodeEntry (fv : FieldValue φ) : List UInt8 :=
  UInt8.ofNat (fv.oper * 16 + fv.type.code) ::
    (if fv.id = 0 then [fv.id, 0] else [fv.id]) ++ encodeDataValue F fv.type fv.val

/-- `encode_field_value` -/
def encodeFieldValue (fvs : List (FieldValue φ)) : List UInt8 :=
  if fvs.length = 0 then [] else UInt8.ofNat fvs.length :: fvs.flatMap (encodeEntry F)

/-- What a list of field values is for. -/
inductive Mode
  | condition
  | insert
  | update
  deriving DecidableEq

/-- `validcomps`: the comparisons a field type allows, from `EQ` to `GE`. -/
def validcomps : DField → List Bool
  | .none | .float => [false, false, false, false, false, false]
  | .signed | .unsigned => [true, true, true, true, true, true]
  | .string | .binary => [true, true, false, false, false, false]

/-- `validxtype`: the types of a value for an operation (`Set`, `Add`, `SetBits`, `OR`) on a field
type. -/
def validxtype (op : Nat) (field value : DField) : Bool :=
  match op, field with
  | 0, .signed | 0, .unsigned => value = .signed ∨ value = .unsigned
  | 0, .float => value = .signed ∨ value = .unsigned ∨ value = .float
  | 0, .string => value = .string
  | 0, .binary => value = .string ∨ value = .binary
  | 1, .signed | 1, .unsigned => value = .signed ∨ value = .unsigned
  | 1, .float => value = .signed ∨ value = .unsigned ∨ value = .float
  | 2, .signed | 2, .unsigned | 2, .string | 2, .binary => value = .signed ∨ value = .unsigned
  | 3, .signed | 3, .unsigned => value = .signed ∨ value = .unsigned
  | _, _ => false

variable (mode : Mode)

/-- `decode_field_value`: the checks of one entry, `none` if it passes. -/
def checkEntry (id op : Nat) (value : DField) : Option ErrorCode :=
  let field := t.fieldType id
  match mode with
  | .condition =>
    if ¬ (validcomps field).getD op false then some .badOperator
    else if id < t.keyFields ∧ op ≠ 0 then some .badMultikey
    else if ¬ validxtype 0 field value then some .badOperator
    else none
  | .insert => if op ≠ 0 ∨ ¬ validxtype op field value then some .badOperator else none
  | .update =>
    if t.readOnly id then some .readonlyField
    else if ¬ validxtype op field value then some .badOperator
    else none

/-- The type with a number below `TotalType`. -/
def typeOfCode : Nat → Option DField
  | 0 => some .none
  | 1 => some .signed
  | 2 => some .unsigned
  | 3 => some .float
  | 4 => some .string
  | 5 => some .binary
  | _ => none

/-- `decode_field_value`: one entry, and whether its field was given by its name. -/
def decodeEntry : Reader ErrorCode (FieldValue φ × Bool) := do
  let op ← byte .badSectionLength
  let (id, named) ← decodeFieldId t
  ensure (id.toNat ≤ t.numFields) .badInvalidField
  match typeOfCode (op.toNat % 16) with
  | none => fail .badValueType
  | some type =>
    match checkEntry t mode id.toNat (op.toNat / 16) type with
    | some e => fail e
    | none => do
        let val ← decodeDataValue F type
        pure (⟨id, op.toNat / 16, type, val⟩, named)

/-- `decode_field_value`: the loop, with the key fields met so far. -/
def decodeEntries : Nat → List UInt8 → Reader ErrorCode (List (FieldValue φ) × Bool)
  | 0, _ => pure ([], false)
  | n + 1, keys => do
      let (fv, named) ← decodeEntry F t mode
      if fv.id.toNat < t.keyFields ∧ fv.id ∈ keys then fail .badMultikey
      else do
        let keys := if fv.id.toNat < t.keyFields then fv.id :: keys else keys
        let (fvs, needDefinition) ← decodeEntries n keys
        pure (fv :: fvs, named || needDefinition)

/-- `decode_field_value` into an empty list. -/
def decodeFieldValue : List UInt8 → Except ErrorCode (List (FieldValue φ) × Bool)
  | [] => .error .badSectionLength
  | num :: bin =>
    if num = 0 then .ok ([], false)
    else whole (decodeEntries F t mode num.toNat []) .extraSectionData bin

/-! ### The further keys of a multi-field key -/

/-- The values of the key fields. -/
abbrev KeyValues (φ : Type) (t : TableDefinition) := (i : Nat) → Value φ (t.fieldType i)

/-- `encoded_bytes_multi_key` -/
def encodedBytesMultiKey (v : KeyValues φ t) : Nat :=
  if t.keyFields ≤ 1 then 0
  else
    1 + ((List.range' 1 (t.keyFields - 1)).map fun i =>
      2 + encodedBytesDataValue F (t.fieldType i) (v i)).sum

/-- `encode_multi_key` -/
def encodeMultiKey (v : KeyValues φ t) : List UInt8 :=
  if t.keyFields ≤ 1 then []
  else
    UInt8.ofNat (t.keyFields - 1) :: (List.range' 1 (t.keyFields - 1)).flatMap fun i =>
      UInt8.ofNat (t.fieldType i).code :: UInt8.ofNat i ::
        encodeDataValue F (t.fieldType i) (v i)

end Dtc.Packet
