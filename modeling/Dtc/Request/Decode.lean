import Dtc.Key.PackedKey
import Dtc.Packet.Section
import Dtc.Sql.Expr

/-!
# Decoding an SQL statement into a job

`decode_request_v2` looks for the key of the request at one place of the `WHERE` clause,
collects its comparisons by a second walk, and turns those on other fields into the
condition list of the job. A read before the start or behind the end of the field list is
undefined; such a request is told apart from the others.

Before a job is processed, `build_packed_key` packs its key, and refuses a job whose key is missing
or does not fit. It reads the literal of the key through the member of the `DTCValue` union that
belongs to the key field.
-/

namespace Dtc.Request

open Raw Sql

/-- A field with its name. -/
structure Field extends Key.KeyField where
  name : List UInt8

/-- A table as the configuration accepts it: at most 240 fields, the key first. Two fields of
one name could not be told apart in a statement. A string or binary key is the only key field, and
`set_key_fields` gives it the format 0. -/
structure TableDefinition extends packed : Key.TableDefinition where
  name : Nat → List UInt8
  bounded : numFields < 240
  named : ((List.range (numFields + 1)).map name).Nodup
  textKey : keyFormat = 0 ↔ (field 0).fieldType = .string ∨ (field 0).fieldType = .binary

namespace TableDefinition
variable (t : TableDefinition)

def fieldOf (id : Nat) : Field := ⟨⟨t.field id, t.valid id⟩, t.name id⟩

/-- The field list. -/
def fields : List Field := (List.range (t.numFields + 1)).map t.fieldOf

def field? (id : Nat) : Option Field :=
  t.fields[id]?

def keyField : Field := t.fieldOf 0

/-- The number of the field with a name; the source returns `-1` for `none`. -/
def fieldId (name : List UInt8) : Option Nat :=
  t.fields.findIdx? fun f => f.name = name

/-- The field with a name; the source reads before the field list for `none`. -/
def fieldNamed (name : List UInt8) : Option Field := do
  t.field? (← t.fieldId name)

end TableDefinition

section Decode
variable {F : Type}

/-- `DTCValue::Make` of a literal. -/
def makeValue : Expr F → Option (Value F)
  | .literalInt ival => some (.int ival)
  | .literalFloat fval => some (.float fval)
  | .literalString name => some (.string name)
  | _ => none

/-- The key of a request: the literal that the key field is compared with in the clause
itself or in the left operand of its `AND`. The operator is not looked at. -/
def getKey (keyName : List UInt8) (where_ : Expr F) : Option (Value F) :=
  let place :=
    match where_ with
    | .binary .and l _ => l
    | e => e
  match place with
  | .binary _ (.columnRef name) literal => if name = keyName then makeValue literal else none
  | _ => none

/-- The comparisons of the clause, from left to right. -/
def buildConditionFields : Expr F → Option (Expr F) → List (Expr F)
  | .columnRef _, some parent => [parent]
  | .unary op e, _ =>
    if op.IsComparison ∨ op = .and then buildConditionFields e (some (.unary op e)) else []
  | .binary op l r, _ =>
    if op.IsComparison ∨ op = .and then
      buildConditionFields l (some (.binary op l r)) ++ buildConditionFields r none
    else []
  | _, _ => []

/-- The type of a condition on a field of type `tType`; `none` is `-1`. Integer literals are
refused for unsigned fields: the source asks for `Signed` twice. -/
def buildFieldTypeR (literal : Expr F) (tType : DField) : Option DField :=
  match literal with
  | .literalInt _ => if tType = .signed ∨ tType = .signed then some tType else none
  | .literalFloat _ => if tType = .float then some tType else none
  | .literalString _ => if tType = .string ∨ tType = .binary then some tType else none
  | _ => none

/-- `DField::Set`, and as a comparison `DField::EQ`. -/
def set : Nat := 0

/-- An entry of the list `ci`, by name. -/
structure NamedValue (F : Type) where
  name : List UInt8
  oper : Nat
  type : DField
  val : Value F

/-- An entry of the condition list. -/
structure FieldValue (F : Type) where
  id : Nat
  oper : Nat
  type : DField
  val : Value F

/-- `add_value`: a list of 255 values takes no more. -/
def addValue (ci : List (NamedValue F)) (v : NamedValue F) : List (NamedValue F) :=
  if ci.length = 255 then ci else ci ++ [v]

/-- The loop over the comparisons; `none` is a read before the field list. -/
def collect (t : TableDefinition) :
    List (Expr F) → List (NamedValue F) → Option (List (NamedValue F))
  | [], ci => some ci
  | .binary _ (.columnRef name) literal :: exprList, ci =>
    if name = t.keyField.name then collect t exprList ci
    else do
      match buildFieldTypeR literal (← t.fieldNamed name).fieldType, makeValue literal with
      | some rtype, some val =>
        collect t exprList (addValue ci { name, oper := set, type := rtype, val })
      | _, _ => collect t exprList ci
  | _ :: exprList, ci => collect t exprList ci

/-- `check_int_value`; fields of eight bytes are not checked. -/
def checkIntValue (v : Int) (type : DField) (size : Nat) : Bool :=
  if size < 8 then
    if type = .signed then -2 ^ (8 * size - 1) ≤ v ∧ v < 2 ^ (8 * size - 1)
    else 0 ≤ v ∧ v < 2 ^ (8 * size)
  else true

/-- A field can hold a value, as `Resolve` checks it. -/
def Field.takes (f : Field) : Value F → Bool
  | .int n => checkIntValue n f.fieldType f.fieldSize
  | .string s => s.length ≤ f.fieldSize
  | _ => false

def invalidFieldId : Nat := 255

/-- `Resolve`: the field number of each value. It stops at the first value its field cannot
hold, and passes over floats; what is left has no field number. -/
def resolve (t : TableDefinition) : List (NamedValue F) → List (FieldValue F)
  | [] => []
  | v :: ci =>
    let unresolved (v : NamedValue F) : FieldValue F := ⟨invalidFieldId, v.oper, v.type, v.val⟩
    match t.fieldId v.name, t.fieldNamed v.name with
    | some fid, some field =>
      if field.fieldType = .float then unresolved v :: resolve t ci
      else if field.takes v.val then ⟨fid, v.oper, v.type, v.val⟩ :: resolve t ci
      else unresolved v :: ci.map unresolved
    | _, _ => unresolved v :: ci.map unresolved

/-- `Copy` in mode 0. An error ends it, and the values so far stay in the list; `none` is a
read behind the field list. -/
def copy (t : TableDefinition) : List (FieldValue F) → Option (List (FieldValue F))
  | [] => some []
  | v :: rq => do
      let ft := (← t.field? v.id).fieldType
      if v.type = .none then some []
      else if ¬ (Packet.validcomps ft).getD v.oper false then some []
      else if ¬ Packet.validxtype 0 ft v.type then some []
      else return v :: (← copy t rq)

/-- What is decoded of the `WHERE` clause. -/
structure Job (F : Type) where
  key : Option (Value F)
  conditionInfo : List (FieldValue F)

def decodeRequestV2 (t : TableDefinition) (where_ : Expr F) : Option (Job F) := do
  let key := getKey t.keyField.name where_
  let exprList := buildConditionFields where_ none
  if 1 < exprList.length then
    let ci ← collect t exprList []
    return ⟨key, ← copy t (resolve t ci)⟩
  else return ⟨key, []⟩

/-! ### The key of a job -/

/-- What `build_packed_key` refuses a job with. -/
inductive KeyError
  | noKey
  | intOverflow
  | stringOverflow
  | noMemory
  | duplicateKey
  | missingKey
  deriving DecidableEq

/-- The text of the error; the key is verified for all of them. -/
def KeyError.text : KeyError → String
  | .noKey => "No Key Sepcified"
  | .intOverflow => "int key value overflow"
  | .stringOverflow => "string key size overflow"
  | .noMemory => "no enough memory"
  | .duplicateKey => "duplicate key field"
  | .missingKey => "Missing Key Component"

/-- Why a job has no packed key. -/
inductive KeyFailure
  | refused (error : KeyError)
  | undefined
  deriving DecidableEq

section PackedKey
variable (bits : F → BitVec 64) (t : TableDefinition)

/-- The eight bytes of a value, `u64`. The four bytes behind the length of a string are not set. -/
def word : Value F → Option (BitVec 64)
  | .int n => some (.ofInt 64 n)
  | .float x => some (bits x)
  | _ => none

/-- `build_single_string_key`. The length of a literal of another type are its low four bytes; no
memory is got for a negative one, and a positive one belongs to no string. -/
def buildSingleStringKey (key : Option (Value F)) : Except KeyFailure (Value F) :=
  match key with
  | none => .ok (.string [])
  | some (.string s) =>
    if t.keyField.fieldSize < s.length then .error (.refused .stringOverflow) else .ok (.string s)
  | some value =>
    match word bits value with
    | none => .error .undefined
    | some u64 =>
      let len := (u64.setWidth 32).toInt
      if t.keyField.fieldSize < len then .error (.refused .stringOverflow)
      else if len = 0 then .ok (.string [])
      else if len < -1 then .error (.refused .noMemory)
      else .error .undefined

/-- `store_value` of one field of the key. -/
def storeKey (id : Nat) (value : Value F) : Except KeyFailure (BitVec 64) :=
  match word bits value with
  | none => .error .undefined
  | some u64 =>
    match Key.TableDefinition.storeValue u64 (t.field id).fieldType (t.field id).fieldSize with
    | .ok _ => .ok u64
    | .error (.code _) => .error (.refused .intOverflow)
    | .error .undefined => .error .undefined

/-- The number that an integer field holds. -/
def intKey (u64 : BitVec 64) : Value F :=
  if t.keyField.fieldType = .signed then .int u64.toInt else .int u64.toNat

/-- `build_single_int_key` of a request that inserts nothing. -/
def buildSingleIntKey (key : Option (Value F)) : Except KeyFailure (Value F) :=
  match key with
  | none => .error (.refused .noKey)
  | some value => (storeKey bits t 0 value).map (intKey t)

/-- `build_multi_key_values`: each further key field has one condition. `ids` is `keymask`. -/
def buildMultiKeyValues : List (FieldValue F) → List Nat → Except KeyFailure Unit
  | [], ids =>
    if (List.range t.keyFields).all (· ∈ ids) then .ok () else .error (.refused .missingKey)
  | v :: kop, ids =>
    if t.keyFields ≤ v.id then buildMultiKeyValues kop ids
    else if v.id ∈ ids then .error (.refused .duplicateKey)
    else if (t.field v.id).fieldSize < 8 ∧ (word bits v.val).any (fun u64 => u64.toInt < 0) ∧
        ((t.field v.id).fieldType = .unsigned ∧ v.type = .signed ∨
          (t.field v.id).fieldType = .signed ∧ v.type = .unsigned) then
      .error (.refused .intOverflow)
    else buildMultiKeyValues kop (v.id :: ids)

/-- The loop of `build_multi_int_key` over the further key fields. -/
def storeParts (kop : List (FieldValue F)) : List Nat → Except KeyFailure Unit
  | [] => .ok ()
  | id :: ids => do
    if let some v := kop.find? fun v => v.id = id then discard (storeKey bits t id v.val)
    storeParts kop ids

/-- `build_multi_int_key` -/
def buildMultiIntKey (job : Job F) : Except KeyFailure (Value F) := do
  let key ← buildSingleIntKey bits t job.key
  buildMultiKeyValues bits t job.conditionInfo [0]
  storeParts bits t job.conditionInfo (List.range' 1 (t.keyFields - 1))
  return key

/-- `build_packed_key`. The further fields of a key stay in the condition list. -/
def buildPackedKey (job : Job F) : Except KeyFailure (Value F) :=
  if t.keyFormat = 0 then buildSingleStringKey bits t job.key
  else if t.keyFields = 1 then buildSingleIntKey bits t job.key
  else buildMultiIntKey bits t job

end PackedKey

end Decode

end Dtc.Request
