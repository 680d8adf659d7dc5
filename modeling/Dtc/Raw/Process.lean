import Dtc.Data.Process
import Dtc.Raw.Compare
import Dtc.Raw.Job
import Dtc.Raw.Stored

/-!
# Requests on flat data

`RawDataProcess` serves a request on the buffer of one node. It attaches to the buffer and
goes through the rows: a row is read, and where it meets the conditions it is replaced or
deleted in the buffer that is being read. If the memory runs out and `try_purge_size` makes
room, a call is tried again.

What the memory management answers is a parameter, by the number of the row. The node and
the request have the same table definition. The time stamps in the header are left out.
-/

namespace Dtc.Raw

open Library Memory

/-- What `RowValue::Compare` reads of a row. -/
def contents (row : RowValue) (id : Nat) : Content := ((row id).num, (row id).bin.1)

/-- `key_as_uniq_field`: the unique fields of the table are its key fields. -/
def keyAsUniqField (t : TableDefinition) (uniqFields : List Nat) : Bool :=
  uniqFields.length = t.keyFields && (List.range t.keyFields).all (· ∈ uniqFields)

/-- What the memory management answers in the course of a request: the allocator of the pool,
whether the system gives a temporary buffer, whether a purge has made room, the allocator
after that, and the system's allocator. -/
structure Supply where
  alloc : Nat → Allocator
  temp : Nat → Bool
  purged : Nat → Bool
  again : Nat → Allocator
  system : Nat → Allocator

/-- A row whose memory was cleared. -/
def zeroRow : RowValue := fun _ => ⟨0, ⟨[], nil_short⟩⟩

/-- The counters of a request. -/
@[ext]
structure Tally where
  affectedRows : Nat
  rowsCount : Int
  dirtyRowsCount : Int

/-- What a round of a loop leaves behind: the code it returns with, if it is not 0, and the row variable. -/
structure Round where
  ret : Int
  row : RowValue
  tally : Tally
  raw : RawData

namespace RawProcess
variable (fmt : FloatFormat) (t : TableDefinition)

/-- A loop over the rows. `decodeFailed` is returned if a row cannot be read. -/
def eachRow (decodeFailed : Int) (act : Nat → UInt8 → RowValue → Tally → RawData → Round) :
    Nat → Nat → RowValue → Tally → RawData → Int × Tally × RawData
  | 0, _, _, x, s => (0, x, s)
  | n + 1, i, row, x, s =>
    let read := s.decodeRow fmt t row false
    if read.1 ≠ 0 then (decodeFailed, x, read.2.2.2)
    else
      let round := act i read.2.1 read.2.2.1 x read.2.2.2
      if round.ret ≠ 0 then (round.ret, round.tally, round.raw)
      else eachRow decodeFailed act n (i + 1) round.row round.tally round.raw

/-- The bytes of the key. -/
def key (s : RawData) : List UInt8 :=
  slice s.mem s.keyStart (if t.keyFormat ≠ 0 then t.keyFormat else 1 + (s.mem s.keyStart).toNat)

variable (sup : Supply) (nodeIdx hour : Nat)

/-- `encode_to_private_area`: the row is written to a buffer of its own and read back. -/
def encodeToPrivateArea (alloc : Allocator) (key : List UInt8) (row : RowValue) : Int × RowValue :=
  match RawData.init (t.keyFields - 1) t.keyFormat key (RawData.calcRowSize t row (t.keyFields - 1))
      nodeIdx hour alloc with
  | .error _ => (-1, row)
  | .ok raw =>
    let inserted := raw.insertRow fmt t row false false alloc true
    if inserted.1 ≠ 0 then (-2, row)
    else
      let read := inserted.2.rewind.decodeRow fmt t row false
      if read.1 ≠ 0 then (-3, row) else (0, read.2.2.1)

/-- `replace_cur_row`, tried again after a purge. -/
def replaceRetried (i : Nat) (row : RowValue) (isDirty : Bool) (s : RawData) : Int × RawData :=
  let first := s.replaceCurRow fmt t row isDirty (sup.alloc i) (sup.temp i)
  if first.1 = ecNoMem ∧ sup.purged i then
    first.2.replaceCurRow fmt t row isDirty (sup.again i) (sup.temp i)
  else first

/-- `insert_row`, tried again after a purge. -/
def insertRetried (i : Nat) (row : RowValue) (byFirst isDirty : Bool) (s : RawData) :
    Int × RawData :=
  let first := s.insertRow fmt t row byFirst isDirty (sup.alloc i) (sup.temp i)
  if first.1 = ecNoMem ∧ sup.purged i then
    first.2.insertRow fmt t row byFirst isDirty (sup.again i) (sup.temp i)
  else first

/-- A round of `do_update`. -/
def updateRound (job : RowJob t) (async : Bool) (i : Nat) (flag : UInt8) (row : RowValue)
    (x : Tally) (s : RawData) : Round :=
  if job.compareRow row = false then ⟨0, row, x, s⟩
  else
    let row := job.updateRow row
    let x := { x with affectedRows := x.affectedRows + 1 }
    let encoded := encodeToPrivateArea fmt t nodeIdx hour (sup.system i) (key t s) row
    let row := encoded.2
    if encoded.1 ≠ 0 then ⟨-3, row, x, s⟩
    else
      let replaced := replaceRetried fmt t sup i row async s
      if replaced.1 ≠ 0 then ⟨-6, row, x, replaced.2⟩
      else
        ⟨0, row, { x with
          dirtyRowsCount := x.dirtyRowsCount - dirtyOne flag + if async then 1 else 0 }, replaced.2⟩

/-- A round of `do_delete`. -/
def deleteRound (job : RowJob t) (_ : Nat) (flag : UInt8) (row : RowValue) (x : Tally)
    (s : RawData) : Round :=
  if job.compareRow row = false then ⟨0, row, x, s⟩
  else
    let deleted := s.deleteCurRow t
    if deleted.1 ≠ 0 then ⟨-5, row, x, deleted.2⟩
    else
      ⟨0, row, ⟨x.affectedRows + 1, x.rowsCount - 1, x.dirtyRowsCount - dirtyOne flag⟩, deleted.2⟩

/-- A round of `do_replace`. The first row with the same unique fields is replaced, the
others are deleted; each of them is counted as one row that was made dirty. -/
def replaceRound (uniqFields : List Nat) (new : RowValue) (async : Bool) (i : Nat) (flag : UInt8)
    (row : RowValue) (x : Tally) (s : RawData) : Round :=
  if keyAsUniqField t uniqFields = false ∧
      compareFields t.fieldType (contents new) (contents row) uniqFields ≠ 0 then ⟨0, row, x, s⟩
  else
    let first : Nat × Int × RawData :=
      if x.affectedRows = 0 then (2, s.replaceCurRow fmt t new async (sup.alloc i) (sup.temp i))
      else (x.affectedRows + 1, s.deleteCurRow t)
    let last : Int × RawData :=
      if first.2.1 = ecNoMem ∧ sup.purged i then
        first.2.2.replaceCurRow fmt t new async (sup.again i) (sup.temp i)
      else first.2
    let x := { x with affectedRows := first.1 }
    if last.1 ≠ 0 then ⟨-3, row, x, last.2⟩
    else
      ⟨0, row, { x with
        dirtyRowsCount := x.dirtyRowsCount - dirtyOne flag + if async then 1 else 0 }, last.2⟩

/-- `attach_data`. -/
def attachData (s : RawData) : Int × RawData :=
  let attached := s.doAttach (t.keyFields - 1) t.keyFormat
  (if attached.1 ≠ 0 then -1 else 0, attached.2)

/-- The object when a loop has ended. -/
def afterLoop (call : Served RawData) (looped : Int × Tally × RawData) : Served RawData :=
  { call with
    ret := looped.1
    rowsCount := looped.2.1.rowsCount
    dirtyRowsCount := looped.2.1.dirtyRowsCount
    data := looped.2.2 }

/-- `do_update`. -/
def doUpdate (job : RowJob t) (async setrows : Bool) (call : Served RawData) : Served RawData :=
  let call := { call with rowsCount := 0, dirtyRowsCount := 0 }
  let attached := attachData t call.data
  let s := attached.2
  if attached.1 ≠ 0 then { call with ret := attached.1, data := s }
  else
    let looped := eachRow fmt t (-1) (updateRound fmt t sup nodeIdx hour job async) s.rowCount 0
      zeroRow ⟨0, 0, 0⟩ s
    let done := afterLoop call looped
    if looped.1 ≠ 0 then done
    else
      { done with
        affectedRows := if async || setrows then looped.2.1.affectedRows else call.affectedRows }

/-- `do_delete`, with `has_type_timestamp` of the conditions. -/
def doDelete (job : RowJob t) (hasTypeTimestamp : Bool) (call : Served RawData) : Served RawData :=
  let call := { call with rowsCount := 0, dirtyRowsCount := 0 }
  let attached := attachData t call.data
  let s := attached.2
  if attached.1 ≠ 0 then { call with ret := attached.1, data := s }
  else
    let looped := eachRow fmt t (-4) (deleteRound t job) s.rowCount 0 zeroRow ⟨0, 0, 0⟩ s
    let done := afterLoop call looped
    if looped.1 ≠ 0 then done
    else if looped.2.1.affectedRows = 0 then done
    else
      { done with
        affectedRows :=
          if call.affectedRows = 0 ∨ hasTypeTimestamp then looped.2.1.affectedRows
          else call.affectedRows
        -- `strip_mem`; its return value is not used
        data := (done.data.reAlloc done.data.dataSize (sup.alloc s.rowCount)).getD done.data }

/-- The start of `do_replace`. A node without data has no chunk; it gets one (`init_data`). -/
def openData (packedKey : List UInt8) (s : RawData) : Int × RawData :=
  if s.size = 0 then
    match RawData.init (t.keyFields - 1) t.keyFormat packedKey 0 nodeIdx hour (sup.alloc 0) with
    | .error _ => (-1, s)
    | .ok s => (0, s)
  else attachData t s

/-- `do_replace`, with the list of the unique fields of the table and the new row. -/
def doReplace (packedKey : List UInt8) (uniqFields : List Nat) (new : RowValue) (async setrows : Bool)
    (call : Served RawData) : Served RawData :=
  let call := { call with rowsCount := 0, dirtyRowsCount := 0 }
  let attached := openData t sup nodeIdx hour packedKey call.data
  let s := attached.2
  if attached.1 ≠ 0 then { call with ret := attached.1, data := s }
  else
    let looped := eachRow fmt t (-1) (replaceRound fmt t sup uniqFields new async) s.rowCount 0
      zeroRow ⟨0, 0, 0⟩ s
    let done := afterLoop call looped
    let reported := fun affected : Nat => if async || setrows then affected else call.affectedRows
    if looped.1 ≠ 0 then done
    else if looped.2.1.affectedRows = 0 then
      let inserted := insertRetried fmt t sup s.rowCount new false async done.data
      if inserted.1 ≠ 0 then { done with ret := -3, data := inserted.2 }
      else
        { done with
          affectedRows := reported 1
          rowsCount := done.rowsCount + 1
          dirtyRowsCount := done.dirtyRowsCount + if async then 1 else 0
          data := inserted.2 }
    else { done with affectedRows := reported looped.2.1.affectedRows }

/-- `copy_all`. `do_attach` takes everything but the chunk itself from the bytes. -/
def copyAll (s new : RawData) (alloc : Allocator) : Int × RawData :=
  match if s.size < new.dataSize then s.reAlloc new.dataSize alloc else some s with
  | none => (ecNoMem, s)
  | some s =>
    { new with
      mem := store s.mem 0 (slice new.mem 0 new.dataSize)
      size := s.size }.doAttach (t.keyFields - 1) t.keyFormat

end RawProcess

end Dtc.Raw
