import Dtc.Data.Process
import Dtc.Raw.RawData
import Dtc.Tree.Nodes

/-!
# Tree data

A node stored as tree data has a header chunk (`RootData`) and a T-tree. The items of the
tree are handles of records, chunks with the rows of one index value. The operations keep
four counters in the header up to date as they insert, replace and delete rows, and they
reallocate records on the way.

A record is modelled by its rows and the size of its chunk; the bytes of a row are those
of `RawData`. A handle is the number of the allocator call that has returned it, so a
freed handle is never a handle again. An operation that reads a record through a freed
handle has the result `none`: what the code does then depends on what the memory is
used for. The answers of the allocator are a parameter. Calls of the system's `malloc` for
temporary buffers succeed.
-/

namespace Dtc.Tree

open Library Memory
open Raw (operSelect operUpdate operInsert)

/-- `sizeof(TtreeNode)`: two handles, the balance, the number of items and the items. -/
def sizeofTtreeNode : Nat := 8 + 8 + 1 + 2 + 8 * pageSize

/-- The bytes in front of the rows of a record: type, data size and number of rows. -/
def recordHead : Nat := 1 + 4 + 4

/-- What the operations use of a table with one key field: the bytes of a row with its
flag byte, the index value of a row, `KeyCompare` on two index values, the comparison of
the unique fields, and whether the index is one of them. A row arrives in a section of a
packet, whose length has 32 bits. -/
structure TreeTable (ρ K : Type) where
  rowSize : ρ → Nat
  rowSize_lt : ∀ row, rowSize row < 2 ^ 32
  index : ρ → K
  keyCompare : K → K → Int
  sameUniq : ρ → ρ → Bool
  indexPartOfUniqField : Bool

/-- A row with its flag byte. -/
structure StoredRow (ρ : Type) where
  flag : UInt8
  row : ρ

/-- The row is to be written to the database. -/
def StoredRow.isDirty {ρ : Type} (x : StoredRow ρ) : Bool := Dtc.isDirty x.flag

/-- A record. Its key is the index value in the bytes behind the header; they stay when
the last row is deleted. -/
structure RowChunk (ρ K : Type) where
  handle : Nat
  chunkSize : Nat
  key : K
  rows : List (StoredRow ρ)

instance {ρ K : Type} [Inhabited K] : Inhabited (RowChunk ρ K) := ⟨⟨0, 0, default, []⟩⟩

/-- The answers of the allocator by the number of the call and the size asked for: the
usable size, and for `ReAlloc` whether the chunk was moved. -/
structure Allocator where
  malloc : Nat → Nat → Option Nat
  reAlloc : Nat → Nat → Option (Nat × Bool)
  malloc_covers : ∀ call size usable, malloc call size = some usable →
    size ≤ usable ∧ usable < 2 ^ 32
  reAlloc_covers : ∀ call size usable moved, reAlloc call size = some (usable, moved) →
    size ≤ usable ∧ usable < 2 ^ 32

/-- A `TreeData` object attached to a node: the counters of `RootData`, the tree, the
counters of the operation, and the number of allocator calls so far. `freesNoted` is not
a field of the source: it records that every deletion from the T-tree has raised
`isFreeNode` exactly if it has freed a node. -/
structure TreeData (ρ K : Type) where
  treeSize : Nat
  totalRawSize : Nat
  nodeCount : Nat
  rowCount : Nat
  root : TtreeNode (RowChunk ρ K)
  affectedRows : Nat
  rowsCount : Int
  dirtyRowsCount : Int
  calls : Nat
  freesNoted : Bool

variable {ρ K : Type}

/-- An update request: `compare_row` and `update_row` of the job. The strings of a decoded row
point into its record, and `SetBits` writes to them: `writeBits` is what `update_row` leaves of
the row in the record. -/
structure UpdateRequest (t : TreeTable ρ K) where
  compareRow : ρ → Bool
  updateRow : ρ → ρ
  writeBits : ρ → ρ
  rowSize_writeBits : ∀ row, t.rowSize (writeBits row) = t.rowSize row

/-- `KeyCompare` on a record. -/
def TreeTable.comparator (t : TreeTable ρ K) : KeyComparator K (RowChunk ρ K) where
  pfComp key r := t.keyCompare key r.key
  convertCvalue := RowChunk.key

/-- The bytes of some rows. -/
def TreeTable.rowsSize (t : TreeTable ρ K) (rows : List (StoredRow ρ)) : Nat :=
  (rows.map fun x => t.rowSize x.row).sum

/-- The data size of a record. -/
def RowChunk.dataSize (t : TreeTable ρ K) (r : RowChunk ρ K) : Nat :=
  recordHead + t.rowsSize r.rows

namespace TreeData

variable [Inhabited K] (t : TreeTable ρ K) (mem : Allocator)
variable (s : TreeData ρ K) (r : RowChunk ρ K)

/-- `do_init`. -/
def doInit (calls : Nat) : TreeData ρ K := ⟨0, 0, 0, 0, .nil, 0, 0, 0, calls, true⟩

/-- The record with a handle. -/
def chunkAt (handle : Nat) : Option (RowChunk ρ K) :=
  (records s.root).find? fun r => r.handle = handle

/-- The record with a handle is replaced. -/
def writeChunk (handle : Nat) (r : RowChunk ρ K) : TreeData ρ K :=
  { s with root := s.root.map (List.map fun r' => if r'.handle = handle then r else r') }

/-- `ReAlloc` of a record, with `tree_size_` adjusted. -/
def reAllocChunk (size : Nat) :
    Option (RowChunk ρ K) × TreeData ρ K :=
  match mem.reAlloc s.calls size with
  | none => (none, { s with calls := s.calls + 1 })
  | some (usable, moved) =>
    let r' := { r with handle := if moved then s.calls else r.handle, chunkSize := usable }
    (some r', { s.writeChunk r.handle r' with
                treeSize := add32 (sub32 s.treeSize r.chunkSize) usable
                calls := s.calls + 1 })

/-- `expand_tree_chunk`. -/
def expandTreeChunk (expandSize : Nat) :
    Option (RowChunk ρ K) × TreeData ρ K :=
  if r.chunkSize < add32 (r.dataSize t) expandSize then
    s.reAllocChunk mem r (add32 (r.dataSize t) expandSize)
  else (some r, s)

/-- `insert_sub_tree`. -/
def insertSubTree : Int × TreeData ρ K :=
  let res := Ttree.doInsert t.comparator s.root (mem.malloc s.calls sizeofTtreeNode).isSome r.key r
    false
  let s := { s with root := res.hNode, calls := s.calls + 1 }
  if res.ret = 0 ∧ res.isAllocNode then
    (res.ret, { s with treeSize := add32 s.treeSize sizeofTtreeNode })
  else (res.ret, s)

/-- The end of `insert_row_flag`: a row is counted. -/
def countRow (trowSize : Nat) : TreeData ρ K :=
  { s with rowCount := add32 s.rowCount 1, totalRawSize := add32 s.totalRawSize trowSize }

/-- `insert_row_flag` for a new index value. The row is encoded before the record is
inserted into the tree. -/
def insertNew (row : ρ) (flag : UInt8) : Int × TreeData ρ K :=
  let handle := s.calls
  match mem.malloc s.calls (add32 (t.rowSize row) recordHead) with
  | none => (ecNoMem, { s with calls := s.calls + 1 })
  | some chunkSize =>
    let s := { s with calls := s.calls + 1 }
    if chunkSize < recordHead + t.rowSize row then (-100, s)
    else
      let inserted := s.insertSubTree t mem ⟨handle, chunkSize, t.index row, [⟨flag, row⟩]⟩
      if inserted.1 ≠ 0 then inserted
      else
        let s := inserted.2
        (0, { s with treeSize := add32 s.treeSize chunkSize
                     nodeCount := add32 s.nodeCount 1 }.countRow (t.rowSize row))

/-- `insert_row_flag` for an index value that has a record. -/
def insertInto (row : ρ) (flag : UInt8) :
    Int × TreeData ρ K :=
  match s.expandTreeChunk t mem r (t.rowSize row) with
  | (none, s) => (ecNoMem, s)
  | (some r, s) =>
    if r.chunkSize < r.dataSize t + t.rowSize row then (-100, s)
    else
      (0, (s.writeChunk r.handle { r with rows := r.rows ++ [⟨flag, row⟩] }).countRow
        (t.rowSize row))

/-- `insert_row_flag`. -/
def insertRowFlag (row : ρ) (flag : UInt8) : Int × TreeData ρ K :=
  match Ttree.doFind t.comparator s.root (t.index row) with
  | none => s.insertNew t mem row flag
  | some r => s.insertInto t mem r row flag

/-- `insert_row`. -/
def insertRow (row : ρ) (isDirty : Bool) : Int × TreeData ρ K :=
  s.insertRowFlag t mem row (if isDirty then operInsert else operSelect)

/-- `delete_cur_row`, for the row of a record at a position. -/
def deleteCurRow (pos : Nat) : Int × TreeData ρ K :=
  match r.rows[pos]? with
  | none => (-2, s)
  | some old =>
    (0, { s.writeChunk r.handle { r with rows := r.rows.eraseIdx pos } with
          rowCount := sub32 s.rowCount 1
          totalRawSize := sub32 s.totalRawSize (t.rowSize old.row) })

/-- The branch of `replace_cur_row` for a longer row. A sum of sizes that does not fit 32
bits makes the chunk smaller, and the rows behind are moved out of it. -/
def replaceLonger (pos : Nat) (old new : StoredRow ρ) :
    Option ((Int × RowChunk ρ K) × TreeData ρ K) :=
  let grown := r.dataSize t + t.rowSize new.row - t.rowSize old.row
  match s.reAllocChunk mem r (grown % 2 ^ 32) with
  | (none, s) => some ((ecNoMem, r), s)
  | (some r, s) =>
    if 2 ^ 32 ≤ grown then none
    else
      let r := { r with rows := r.rows.set pos new }
      some ((0, r), { s.writeChunk r.handle r with
        totalRawSize := add32 s.totalRawSize (t.rowSize new.row - t.rowSize old.row) })

/-- The branch of `replace_cur_row` for a row that is not longer: the chunk keeps its size
if it cannot be shortened. -/
def replaceShorter (pos : Nat) (old new : StoredRow ρ) :
    (Int × RowChunk ρ K) × TreeData ρ K :=
  let r := { r with rows := r.rows.set pos new }
  let s := s.writeChunk r.handle r
  let s := { s with
    totalRawSize := sub32 s.totalRawSize (t.rowSize old.row - t.rowSize new.row) }
  match s.reAllocChunk mem r (r.dataSize t) with
  | (none, s) => ((0, r), s)
  | (some r, s) => ((0, r), s)

/-- `replace_cur_row`, for the row of a record at a position: the return value and the
record afterwards. The new row lies inside the chunk, so that it can be encoded. -/
def replaceCurRow (pos : Nat) (row : ρ) (isDirty : Bool) :
    Option ((Int × RowChunk ρ K) × TreeData ρ K) :=
  match r.rows[pos]? with
  | none => some ((-2, r), s)
  | some old =>
    let new : StoredRow ρ := ⟨if isDirty then operUpdate else old.flag, row⟩
    if t.rowSize old.row < t.rowSize row then s.replaceLonger t mem r pos old new
    else some (s.replaceShorter t mem r pos old new)

/-- The end of the operations when a record has lost its last row. `size` is the size of
the chunk. -/
def dropChunk (key : K) (size : Nat) : Int × TreeData ρ K :=
  let res := Ttree.delete t.comparator s.root key false
  let noted := decide (nodes res.hNode + (if res.isFreeNode then 1 else 0) = nodes s.root)
  if res.ret ≠ 0 then (-4, { s with root := res.hNode })
  else
    (0, { s with
          root := res.hNode
          treeSize :=
            sub32 (if res.isFreeNode then sub32 s.treeSize sizeofTtreeNode else s.treeSize) size
          nodeCount := sub32 s.nodeCount 1
          freesNoted := s.freesNoted && noted })

/-- The affected rows and the dirty rows of an update. -/
def countUpdate (old : StoredRow ρ) (async : Bool) : TreeData ρ K :=
  { s with
    affectedRows := s.affectedRows + 1
    dirtyRowsCount :=
      s.dirtyRowsCount - (if old.isDirty then 1 else 0) + (if async then 1 else 0) }

/-- The variables of the loop of `update_sub_raw_data`: the record that `p_content_`
points to, the rows in front of `offset_`, the counters, and `stpCurRow`. -/
structure Cursor (ρ : Type) where
  chunk : Nat
  pos : Nat
  iInsert : Nat
  iDelete : Nat
  curRow : Option ρ

/-- `update_sub_raw_data` behind the loop over `total` rows. -/
def finishUpdate (total : Nat) (k : Cursor ρ) (s : TreeData ρ K) : Option (Int × TreeData ρ K) := do
  let r ← s.chunkAt k.chunk
  let dropped ←
    if 0 < total ∧ k.iDelete = total then k.curRow.map fun row => s.dropChunk t (t.index row) r.chunkSize
    else some (0, s)
  if dropped.1 ≠ 0 then return dropped
  if k.iInsert ≠ k.iDelete then return (-10, dropped.2)
  return (0, dropped.2)

/-- What `update_row` writes to the row of a record at a position. The first row holds the key of
the record. -/
def writeBits (request : UpdateRequest t) (r : RowChunk ρ K) (pos : Nat) (old : StoredRow ρ) :
    RowChunk ρ K :=
  let row := request.writeBits old.row
  { r with
    key := if pos = 0 then t.index row else r.key
    rows := r.rows.set pos ⟨old.flag, row⟩ }

section
variable (request : UpdateRequest t) (async : Bool)

/-- A round of the loop of `update_sub_raw_data` on a row that meets the conditions. The
result `inl` is the return of the function. `KeyCompare` reads the record through the handle `hRecord`
that the function was called with. `stpCurRow` has the pointers of the decoded row. -/
def updateRound (hRecord : Nat) (k : Cursor ρ)
    (r : RowChunk ρ K) (old : StoredRow ρ) (s : TreeData ρ K) :
    Option ((Int × TreeData ρ K) ⊕ (Cursor ρ × TreeData ρ K)) :=
  match Ttree.doFind t.comparator s.root (t.index old.row) with
  | none => some (.inl (0, s))
  | some slot =>
    let new := request.updateRow old.row
    let r := writeBits t request r k.pos old
    let s := s.writeChunk r.handle r
    let k := { k with curRow := some (request.writeBits old.row) }
    -- another record is moved while the bytes of this one are changed
    if k.chunk ≠ hRecord ∨ slot.handle ≠ r.handle then none
    else if t.keyCompare (t.index new) r.key ≠ 0 then
      let inserted := s.insertRow t mem new async
      if inserted.1 = ecNoMem then some (.inl inserted)
      else if inserted.1 = 0 then do
        let r ← inserted.2.chunkAt k.chunk
        let deleted := inserted.2.deleteCurRow t r k.pos
        let k := { k with iInsert := k.iInsert + 1 }
        if deleted.1 = 0 then
          return .inr ({ k with iDelete := k.iDelete + 1 }, deleted.2.countUpdate old async)
        else return .inr (k, deleted.2.countUpdate old async)
      else some (.inr ({ k with pos := k.pos + 1 }, inserted.2.countUpdate old async))
    else do
      let ((ret, r), s) ← s.replaceCurRow t mem r k.pos new async
      if ret = ecNoMem then return .inl (ret, s)
      else if ret ≠ 0 then return .inl (-6, s)
      else return .inr ({ k with chunk := r.handle, pos := k.pos + 1 }, s.countUpdate old async)

/-- The loop of `update_sub_raw_data`, for the rest of the rows. -/
def updateRows (hRecord total : Nat) : Nat → Cursor ρ → TreeData ρ K → Option (Int × TreeData ρ K)
  | 0, k, s => finishUpdate t total k s
  | n + 1, k, s => do
      let r ← s.chunkAt k.chunk
      let old ← r.rows[k.pos]?
      if request.compareRow old.row then
        match ← updateRound t mem request async hRecord k r old s with
        | .inl result => return result
        | .inr (k, s) => updateRows hRecord total n k s
      else
        updateRows hRecord total n
          { k with pos := k.pos + 1, curRow := some old.row } s

/-- `update_sub_raw_data`. -/
def updateSubRawData (hRecord : Nat) (s : TreeData ρ K) : Option (Int × TreeData ρ K) := do
  let r ← s.chunkAt hRecord
  updateRows t mem request async hRecord r.rows.length r.rows.length ⟨hRecord, 0, 0, 0, none⟩ s

end

/-- The loop of `delete_sub_raw_data`, for the rest of the rows of the record, and what
comes behind it. `curRow` is the last row that was decoded. -/
def deleteRows (compareRow : ρ → Bool) (hRecord total : Nat) :
    Nat → Nat → Nat → Option ρ → TreeData ρ K → Option (Int × TreeData ρ K)
  | 0, _, iAffectRows, curRow, s => do
      let r ← s.chunkAt hRecord
      if total < iAffectRows then return (-3, s)
      else if iAffectRows = total ∧ 0 < total then
        curRow.map fun row => s.dropChunk t (t.index row) r.chunkSize
      else return (0, s)
  | n + 1, pos, iAffectRows, _, s => do
      let r ← s.chunkAt hRecord
      let old ← r.rows[pos]?
      if compareRow old.row then
        let deleted := s.deleteCurRow t r pos
        if deleted.1 ≠ 0 then return (-5, deleted.2)
        else
          deleteRows compareRow hRecord total n pos (iAffectRows + 1) (some old.row)
            { deleted.2 with
              rowsCount := s.rowsCount - 1
              dirtyRowsCount := s.dirtyRowsCount - (if old.isDirty then 1 else 0) }
      else deleteRows compareRow hRecord total n (pos + 1) iAffectRows (some old.row) s

/-- `delete_sub_raw_data`. -/
def deleteSubRawData (compareRow : ρ → Bool) (hRecord : Nat) (s : TreeData ρ K) :
    Option (Int × TreeData ρ K) := do
  let r ← s.chunkAt hRecord
  deleteRows t compareRow hRecord r.rows.length r.rows.length 0 0 none s

/-- The calls of a function on collected handles. -/
def processAll (proc : Nat → TreeData ρ K → Option (Int × TreeData ρ K)) :
    List Nat → TreeData ρ K → Option (Int × TreeData ρ K)
  | [], s => some (0, s)
  | handle :: handles, s => do
      let (ret, s) ← proc handle s
      if ret ≠ 0 then return (ret, s) else processAll proc handles s

-- `select` gives the handles of the records that `match_index_condition` collects.
variable (select : TtreeNode (RowChunk ρ K) → List Nat)

/-- `update_tree_data`. -/
def updateTreeData (request : UpdateRequest t) (async : Bool) (s : TreeData ρ K) :
    Option (Int × TreeData ρ K) :=
  if s.nodeCount = 0 then some (0, s)
  else
    processAll (updateSubRawData t mem request async) (select s.root) { s with dirtyRowsCount := 0 }

/-- `delete_tree_data`. A request that only counts, or whose limit lies behind all rows,
deletes nothing (`counted`). -/
def deleteTreeData (compareRow : ρ → Bool) (counted : Bool) (s : TreeData ρ K) :
    Option (Int × TreeData ρ K) :=
  if s.nodeCount = 0 then some (0, s)
  else
    let s := { s with rowsCount := 0, dirtyRowsCount := 0 }
    if counted then some (0, s) else processAll (deleteSubRawData t compareRow) (select s.root) s

/-- The first row of a record with the unique fields of a row. -/
def sameRow (row : ρ) (r : RowChunk ρ K) : Option (RowChunk ρ K × Nat) :=
  (r.rows.findIdx? fun x => t.sameUniq row x.row).map fun pos => (r, pos)

/-- `compare_tree_data`: the record and the position of a row with the same unique fields. -/
def compareTreeData (row : ρ) : Option (RowChunk ρ K × Nat) :=
  if s.nodeCount = 0 then none
  else if t.indexPartOfUniqField then
    (Ttree.doFind t.comparator s.root (t.index row)).bind (sameRow t row)
  else (records s.root).findSome? (sameRow t row)

/-- `replace_tree_data`, with `m_async` as the last update has left it: the return value,
and `RowFlag` where it is set. -/
def replaceTreeData (row : ρ) (mAsync : Bool) (s : TreeData ρ K) :
    Option ((Int × Option UInt8) × TreeData ρ K) :=
  let s := { s with affectedRows := 0 }
  match s.compareTreeData t row with
  | none => some ((0, none), s)
  | some (r, pos) =>
    if t.keyCompare (t.index row) r.key ≠ 0 then
      let inserted := s.insertRow t mem row mAsync
      let s := inserted.2
      if inserted.1 = ecNoMem then some ((ecNoMem, none), s)
      else if inserted.1 = 0 then do
        let r ← s.chunkAt r.handle
        let old ← r.rows[pos]?
        let deleted := s.deleteCurRow t r pos
        let dropped :=
          if r.rows.length = 1 ∧ deleted.1 = 0 then
            deleted.2.dropChunk t (t.index old.row) r.chunkSize
          else (0, deleted.2)
        if dropped.1 ≠ 0 then return ((dropped.1, some old.flag), dropped.2)
        else return ((0, some old.flag), { dropped.2 with affectedRows := 2 })
      else some ((0, none), { s with affectedRows := 2 })
    else
      match Ttree.doFind t.comparator s.root (t.index row) with
      | none => some ((0, none), s)
      | some slot => do
          let ((ret, _), s) ← s.replaceCurRow t mem slot pos row mAsync
          if ret = ecNoMem then return ((ecNoMem, none), s)
          else if ret ≠ 0 then return ((-6, none), s)
          else return ((0, none), { s with affectedRows := 2 })

/-- `destroy_sub_tree`. -/
def destroySubTree : TreeData ρ K :=
  { s with root := .nil, rowCount := 0, treeSize := 0, totalRawSize := 0, nodeCount := 0,
           freesNoted := true }

/-- `copy_tree_all`, from the rows of the flat data. -/
def copyTreeAll : List ρ → TreeData ρ K → Int × TreeData ρ K
  | [], s => (0, s)
  | row :: rows, s =>
    let inserted := s.insertRow t mem row false
    if inserted.1 = ecNoMem then (ecNoMem, inserted.2.destroySubTree)
    else copyTreeAll rows inserted.2

end TreeData

end Dtc.Tree
