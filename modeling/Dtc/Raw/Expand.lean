import Dtc.Raw.Requests

/-!
# Column expansion of a node

While a table is being expanded there are two definitions of it, and the type byte of a chunk says
which of them its rows follow. `expand_node` reads the rows of a chunk by the old definition and
writes them to a new chunk by the new one. The values go over by the names of the fields; a field
that is new gets its default value.

The rows are written with `insert_row`, as rows that come from the database are: they get the flag
of a clean row, and the insert order of the node decides at which end.
-/

namespace Dtc.Raw

open Library Memory List RawData RawProcess

/-- A table definition with the names and the default values of its fields. -/
structure NamedTable where
  table : TableDefinition
  fieldName : Nat → List UInt8
  defaultValue : Nat → DTCValue

namespace NamedTable

/-- The index of the last key field. -/
abbrev keyIdx (t : NamedTable) : Nat := t.table.keyFields - 1

/-- `field_id`. -/
def fieldId (t : NamedTable) (name : List UInt8) : Option Nat :=
  (List.range (t.table.numFields + 1)).find? fun id => t.fieldName id = name

/-- `default_value` and then `Copy`, on the cleared row that `expand_node` uses. -/
def copy (new old : NamedTable) (row : RowValue) : RowValue := fun j =>
  if 1 ≤ j ∧ j ≤ new.table.numFields then
    match old.fieldId (new.fieldName j) with
    | some id => row id
    | none => new.defaultValue j
  else zeroRow j

end NamedTable

namespace RawProcess
variable (fmt : FloatFormat) (sup : Supply) (hour : Nat)

/-- The loop of `expand_node`: rows of `s` are read, and inserted into `tmp`. -/
def expandRows (old new : NamedTable) (insertOrder : Bool) :
    Nat → Nat → RowValue → RawData → RawData → Int × RawData
  | 0, _, _, _, tmp => (0, tmp)
  | n + 1, i, row, s, tmp =>
    let read := s.decodeRow fmt old.table row false
    if read.1 ≠ 0 then (-1, tmp)
    else
      let inserted := tmp.insertRow fmt new.table (new.copy old read.2.2.1) insertOrder false
        (sup.system i) (sup.temp i)
      if inserted.1 ≠ 0 then (-2, inserted.2)
      else expandRows old new insertOrder n (i + 1) read.2.2.1 read.2.2.2 inserted.2

/-- `do_init` of the new chunk. After a purge less is asked for. -/
def initExpanded (new : NamedTable) (newIdx : Nat) (tmp : RawData) : Except Int RawData :=
  let init := fun size => RawData.init new.keyIdx new.table.keyFormat (key new.table tmp) size newIdx
    hour
  match init tmp.dataSize (sup.alloc 0) with
  | .error code =>
    if code = ecNoMem ∧ sup.purged 0 then
      init (sub32 tmp.dataSize tmp.dataStart) (sup.again 0)
    else .error code
  | .ok s => .ok s

/-- `expand_node` on a node of the old version that it has attached to: the new chunk. -/
def expandedChunk (old new : NamedTable) (newIdx : Nat) (insertOrder : Bool) (s : RawData) :
    Except Int RawData :=
  match RawData.init new.keyIdx new.table.keyFormat (key old.table s) s.dataSize newIdx hour
      (sup.system 0) with
  | .error _ => .error (-2)
  | .ok tmp =>
    let looped := expandRows fmt sup old new insertOrder s.rowCount 1 zeroRow s tmp
    if looped.1 ≠ 0 then .error looped.1
    else
      match initExpanded sup hour new newIdx looped.2 with
      | .error _ => .error (-3)
      | .ok chunk =>
        let copied := copyAll new.table chunk looped.2 (sup.alloc 1)
        if copied.1 ≠ 0 then .error (-3) else .ok copied.2

/-- `expand_node` on the chunk of a node, with the two definitions by their index. The chunk is
only read until the new one takes its place. -/
def expandNode (tables : Nat → NamedTable) (newIdx : Nat) (insertOrder : Bool) (s : RawData) :
    Int × RawData :=
  let nodeIdx := (s.mem 0).toNat / 128
  let attached := attachData (tables nodeIdx).table s
  if attached.1 ≠ 0 then (-1, s)
  else if nodeIdx = newIdx then (0, s)
  else
    match expandedChunk fmt sup hour (tables nodeIdx) (tables newIdx) newIdx insertOrder attached.2 with
    | .error code => (code, s)
    | .ok chunk => (0, chunk)

end RawProcess

/-! ### What an expansion is to do -/

/-- The fields of the old definition are fields of the new one, under their names. -/
structure Expansion (old new : NamedTable) : Prop where
  keyFields : new.table.keyFields = old.table.keyFields
  keyFormat : new.table.keyFormat = old.table.keyFormat
  more : old.table.numFields < new.table.numFields
  oldNames : ∀ i ≤ old.table.numFields, ∀ j ≤ old.table.numFields,
    old.fieldName i = old.fieldName j → i = j
  newNames : ∀ i ≤ new.table.numFields, ∀ j ≤ new.table.numFields,
    new.fieldName i = new.fieldName j → i = j
  kept : ∀ i ≤ old.table.numFields, ∃ j ≤ new.table.numFields,
    new.fieldName j = old.fieldName i ∧ new.table.field j = old.table.field i ∧
      (new.keyIdx < j ↔ old.keyIdx < i)

/-- A row of the new table that is a row of the old one with the default values of the added
fields. -/
structure Extends (fmt : FloatFormat) (old new : NamedTable) (row row' : RowValue) : Prop where
  kept : ∀ i ∈ storedFields old.table old.keyIdx, ∀ j ∈ storedFields new.table new.keyIdx,
    new.fieldName j = old.fieldName i →
      (new.table.field j).member (row' j) = (old.table.field i).member (row i)
  added : ∀ j ∈ storedFields new.table new.keyIdx,
    (∀ i ≤ old.table.numFields, old.fieldName i ≠ new.fieldName j) →
      (new.table.field j).member (row' j) =
        (new.table.field j).member ((new.table.field j).stored fmt (new.defaultValue j))

/-- A chunk that holds the extended rows, in their order, the same of them dirty. -/
def Expanded (fmt : FloatFormat) (old new : NamedTable) (rows : List (UInt8 × RowValue))
    (s : RawData) : Prop :=
  ∃ rows', s.Layout fmt new.table rows' ∧
    List.Forall₂ (fun r r' => isDirty r'.1 = isDirty r.1 ∧ Extends fmt old new r.2 r'.2) rows rows'

section Copy
variable {fmt : FloatFormat} {old new : NamedTable} {a b row row' : RowValue}

theorem mem_storedFields {t : TableDefinition} {k j : Nat} :
    j ∈ storedFields t k ↔ k < j ∧ j ≤ t.numFields ∧ (t.field j).discard = false := by
  simp only [storedFields, rowFields, mem_filter, mem_range'_1, Bool.not_eq_true']
  rw [← and_assoc]
  exact and_congr_left' (by omega)

theorem fieldId_some {t : NamedTable} {name : List UInt8} {i : Nat} (found : t.fieldId name = some i) :
    i ≤ t.table.numFields ∧ t.fieldName i = name := by
  have inside := mem_of_find?_eq_some found
  have named := find?_some found
  exact ⟨Nat.le_of_lt_succ (mem_range.mp inside), by simpa using named⟩

theorem fieldId_none {t : NamedTable} {name : List UInt8} (absent : t.fieldId name = none) :
    ∀ i ≤ t.table.numFields, t.fieldName i ≠ name := by
  intro i le
  simpa using find?_eq_none.mp absent i (mem_range.mpr (Nat.lt_succ_of_le le))

/-- A field of the new table that has a name of the old one is that field. -/
theorem Expansion.field_eq (expansion : Expansion old new) {i j : Nat} (hi : i ≤ old.table.numFields)
    (hj : j ≤ new.table.numFields) (name : new.fieldName j = old.fieldName i) :
    new.table.field j = old.table.field i ∧ (new.keyIdx < j ↔ old.keyIdx < i) := by
  obtain ⟨j', hj', named, field, key⟩ := expansion.kept i hi
  obtain rfl := expansion.newNames j hj j' hj' (name.trans named.symm)
  exact ⟨field, key⟩

/-- The copied row is the extended one, and every other extended row looks like it. -/
theorem Expansion.extends_iff (expansion : Expansion old new)
    (fits : RowFits fmt old.table old.keyIdx row) :
    Extends fmt old new row row' ↔ rowView new.table new.keyIdx row' =
      rowView new.table new.keyIdx (storedRow fmt new.table (new.copy old row)) := by
  have copied : ∀ j ∈ storedFields new.table new.keyIdx, new.copy old row j =
      match old.fieldId (new.fieldName j) with
      | some id => row id
      | none => new.defaultValue j := by
    intro j stored
    obtain ⟨key, le, -⟩ := mem_storedFields.mp stored
    rw [NamedTable.copy, if_pos ⟨by omega, le⟩]
  have moved : ∀ i ∈ storedFields old.table old.keyIdx, ∀ j ∈ storedFields new.table new.keyIdx,
      new.fieldName j = old.fieldName i → (new.table.field j).member
        (storedRow fmt new.table (new.copy old row) j) = (old.table.field i).member (row i) := by
    intro i hi j hj name
    obtain ⟨-, le, -⟩ := mem_storedFields.mp hi
    rw [storedRow, copied j hj, (expansion.field_eq le (mem_storedFields.mp hj).2.1 name).1]
    cases found : old.fieldId (new.fieldName j) with
    | none => exact absurd name.symm (fieldId_none found i le)
    | some id =>
      obtain ⟨le', named⟩ := fieldId_some found
      obtain rfl := expansion.oldNames id le' i le (named.trans name)
      exact member_stored (fits id hi)
  have added : ∀ j ∈ storedFields new.table new.keyIdx,
      (∀ i ≤ old.table.numFields, old.fieldName i ≠ new.fieldName j) →
        storedRow fmt new.table (new.copy old row) j =
          (new.table.field j).stored fmt (new.defaultValue j) := by
    intro j hj absent
    rw [storedRow, copied j hj]
    cases found : old.fieldId (new.fieldName j) with
    | none => rfl
    | some id => exact absurd (fieldId_some found).2 (absent id (fieldId_some found).1)
  rw [rowView_eq_iff]
  constructor
  · intro extended j hj
    by_cases absent : ∀ i ≤ old.table.numFields, old.fieldName i ≠ new.fieldName j
    · rw [extended.added j hj absent, added j hj absent]
    · push Not at absent
      obtain ⟨i, le, name⟩ := absent
      obtain ⟨field, key⟩ := expansion.field_eq le (mem_storedFields.mp hj).2.1 name.symm
      have hi : i ∈ storedFields old.table old.keyIdx := by
        obtain ⟨above, -, stored⟩ := mem_storedFields.mp hj
        exact mem_storedFields.mpr ⟨key.mp above, le, field ▸ stored⟩
      rw [extended.kept i hi j hj name.symm, moved i hi j hj name.symm]
  · intro view
    refine ⟨fun i hi j hj name => ?_, fun j hj absent => ?_⟩
    · rw [view j hj, moved i hi j hj name]
    · rw [view j hj, added j hj absent]

/-- Rows look the same after the expansion exactly if they did before. -/
theorem Expansion.copy_view_iff (expansion : Expansion old new)
    (fitsA : RowFits fmt old.table old.keyIdx a) (fitsB : RowFits fmt old.table old.keyIdx b) :
    rowView new.table new.keyIdx (storedRow fmt new.table (new.copy old a)) =
        rowView new.table new.keyIdx (storedRow fmt new.table (new.copy old b)) ↔
      rowView old.table old.keyIdx a = rowView old.table old.keyIdx b := by
  have extendsA : Extends fmt old new a (storedRow fmt new.table (new.copy old a)) :=
    (expansion.extends_iff fitsA).mpr rfl
  constructor
  · intro view
    have extendsB := (expansion.extends_iff fitsB).mpr view
    refine rowView_eq_iff.mpr fun i hi => ?_
    obtain ⟨above, le, stored⟩ := mem_storedFields.mp hi
    obtain ⟨j, hj, name, field, key⟩ := expansion.kept i le
    have mem : j ∈ storedFields new.table new.keyIdx :=
      mem_storedFields.mpr ⟨key.mpr above, hj, field ▸ stored⟩
    rw [← extendsA.kept i hi j mem name, extendsB.kept i hi j mem name]
  · intro view
    refine (expansion.extends_iff fitsB).mp ⟨fun i hi j hj name => ?_, extendsA.added⟩
    rw [extendsA.kept i hi j hj name, rowView_eq_iff.mp view i hi]

end Copy

/-! ### The rows of the new chunk -/

section Insert
variable {fmt : FloatFormat} {t : TableDefinition} {s : RawData} {row : RowValue} {op : UInt8}
  {alloc : Allocator}

namespace RawData

/-- With enough memory an insertion succeeds. -/
theorem insertRowFlag_granted {N : Nat} {byFirst : Bool} (grants : ∀ n ≤ N, (alloc.answer n).isSome)
    (small : N < 2 ^ 32) (room : s.dataSize + (rowBytes fmt t s.keyIndex op row).length ≤ N) :
    (s.insertRowFlag fmt t row byFirst op alloc true).1 = 0 := by
  have length : calcRowSize t row s.keyIndex = (rowBytes fmt t s.keyIndex op row).length := by
    rw [calcRowSize_eq fmt t row s.keyIndex op, Nat.mod_eq_of_lt (by omega)]
  have encoded : (encodeRow fmt t { s with offset := s.dataSize } row op alloc).1 = 0 := by
    unfold encodeRow expandChunk
    dsimp only
    rw [length, add32_eq (by omega)]
    by_cases full : s.size < s.dataSize + (rowBytes fmt t s.keyIndex op row).length
    · rw [if_pos full]
      obtain ⟨grant, answer⟩ := Option.isSome_iff_exists.mp (grants _ room)
      have covers := alloc.covers _ _ answer
      rw [reAlloc, answer]
      exact encodeRowHere_fits covers
    · rw [if_neg full]
      exact encodeRowHere_fits (not_lt.mp full)
  unfold insertRowFlag
  simp only [Bool.not_true, Bool.false_eq_true, if_false]
  split_ifs <;> exact encoded

end RawData

end Insert

section Loop
variable {fmt : FloatFormat} {old new : NamedTable} {sup : Supply} {insertOrder : Bool} {N : Nat}
  {acc rest : List (UInt8 × RowValue)} {s tmp : RawData}

/-- The row that the loop writes for a row of the node. -/
def expandedRow (fmt : FloatFormat) (old new : NamedTable) (r : UInt8 × RowValue) : UInt8 × RowValue :=
  cleanRow fmt new.table (new.copy old r.2)

/-- Rows added to a list at the end that the insert order selects. -/
def placed (insertOrder : Bool) (acc rows : List (UInt8 × RowValue)) : List (UInt8 × RowValue) :=
  if insertOrder then rows.reverse ++ acc else acc ++ rows

theorem placed_nil : placed insertOrder acc [] = acc := by
  cases insertOrder with
  | false | true => simp [placed]

theorem placed_placed (r : UInt8 × RowValue) :
    placed insertOrder (placed insertOrder acc [r]) rest = placed insertOrder acc (r :: rest) := by
  cases insertOrder with
  | false | true => simp [placed]

theorem rowsBytes_placed_length {t : TableDefinition} {k : Nat} :
    (rowsBytes fmt t k (placed insertOrder acc rest)).length =
      (rowsBytes fmt t k acc).length + (rowsBytes fmt t k rest).length := by
  cases insertOrder with
  | false => rw [placed, if_neg (by simp), rowsBytes_append, length_append]
  | true =>
    rw [placed, if_pos rfl, rowsBytes_append, length_append, Nat.add_comm]
    congr 1
    exact ((reverse_perm rest).flatMap_right _).length_eq

/-- One row is read from the node and added to the new data. -/
theorem Expansion.insertRow_ok (expansion : Expansion old new) (stable : fmt.Stable)
    {r : UInt8 × RowValue} {read : RowValue} {alloc : Allocator} {temp : Bool}
    (fits : RowFits fmt old.table old.keyIdx r.2)
    (view : rowView old.table old.keyIdx read = rowView old.table old.keyIdx r.2)
    (layout : tmp.Layout fmt new.table acc)
    (ok : (tmp.insertRow fmt new.table (new.copy old read) insertOrder false alloc temp).1 = 0) :
    let tmp' := (tmp.insertRow fmt new.table (new.copy old read) insertOrder false alloc temp).2
    tmp'.Layout fmt new.table (placed insertOrder acc [expandedRow fmt old new r]) ∧
      tmp'.mem 0 = tmp.mem 0 ∧ tmp'.dataStart = tmp.dataStart := by
  intro tmp'
  have same : rowView new.table new.keyIdx (storedRow fmt new.table (new.copy old read)) =
      rowView new.table new.keyIdx (storedRow fmt new.table (new.copy old r.2)) :=
    (expansion.copy_view_iff (rowFits_congr view.symm fits) fits).mpr view
  unfold tmp' insertRow at *
  rw [← insertRowFlag_stored stable] at ok ⊢
  have fits' : RowFits fmt new.table tmp.keyIndex (storedRow fmt new.table (new.copy old read)) :=
    storedRow_fits stable
  obtain ⟨s', eq, inserted, kept, -, typeByte⟩ := layout.insertRowFlag fits' ok
  rw [eq]
  refine ⟨inserted.congr ?_, typeByte, kept.dataStart⟩
  rw [inserted.keyIndex]
  cases insertOrder with
  | false | true => simp [placed, rowsView, expandedRow, cleanRow, same]

section
variable (expansion : Expansion old new) (stable : fmt.Stable) (pre : List (UInt8 × RowValue))
  (facing : Facing fmt old.table s (pre ++ rest) pre.length) (layout : tmp.Layout fmt new.table acc)
include expansion stable pre facing layout

/-- The loop writes all rows of the node. -/
theorem Expansion.expandRows_ok {i : Nat} {row : RowValue}
    (ok : (expandRows fmt sup old new insertOrder rest.length i row s tmp).1 = 0) :
    let tmp' := (expandRows fmt sup old new insertOrder rest.length i row s tmp).2
    tmp'.Layout fmt new.table (placed insertOrder acc (rest.map (expandedRow fmt old new))) ∧
      tmp'.mem 0 = tmp.mem 0 := by
  induction rest generalizing pre i row s tmp acc with
  | nil =>
    refine ⟨?_, rfl⟩
    rw [map_nil, placed_nil]
    exact layout
  | cons r rest ih =>
    obtain ⟨code, -, view, current⟩ := facing.decodeRow row
    have fits : RowFits fmt old.table old.keyIdx r.2 := by
      rw [NamedTable.keyIdx, ← current.layout.keyIndex]
      exact current.layout.fits r (by simp)
    rw [length_cons, expandRows] at ok ⊢
    rw [if_neg (not_not.mpr code)] at ok ⊢
    generalize s.decodeRow fmt old.table row false = read at *
    by_cases inserted : (tmp.insertRow fmt new.table (new.copy old read.2.2.1) insertOrder false
        (sup.system i) (sup.temp i)).1 = 0
    · rw [if_neg (not_not.mpr inserted)] at ok ⊢
      obtain ⟨layout', typeByte, -⟩ := expansion.insertRow_ok stable fits view layout inserted
      have next : Facing fmt old.table read.2.2.2 ((pre ++ [r]) ++ rest) (pre ++ [r]).length := by
        rw [append_assoc, length_append]
        exact ⟨_, current⟩
      obtain ⟨all, typeByte'⟩ := ih (pre ++ [r]) next layout' ok
      rw [placed_placed] at all
      exact ⟨all, typeByte'.trans typeByte⟩
    · rw [if_pos inserted] at ok
      exact absurd ok (by decide : (-2 : Int) ≠ 0)

/-- With enough memory the loop succeeds. -/
theorem Expansion.expandRows_granted
    {i : Nat} {row : RowValue}
    (grants : ∀ i, sup.temp i = true ∧ ∀ n ≤ N, ((sup.system i).answer n).isSome) (small : N < 2 ^ 32)
    (room : tmp.dataSize +
      (rowsBytes fmt new.table new.keyIdx (rest.map (expandedRow fmt old new))).length ≤ N) :
    (expandRows fmt sup old new insertOrder rest.length i row s tmp).1 = 0 := by
  induction rest generalizing pre i row s tmp acc with
  | nil => rfl
  | cons r rest ih =>
    obtain ⟨code, -, view, current⟩ := facing.decodeRow row
    have fits : RowFits fmt old.table old.keyIdx r.2 := by
      rw [NamedTable.keyIdx, ← current.layout.keyIndex]
      exact current.layout.fits r (by simp)
    rw [map_cons, rowsBytes_cons, length_append] at room
    rw [length_cons, expandRows]
    rw [if_neg (not_not.mpr code)]
    generalize s.decodeRow fmt old.table row false = read at *
    have same : rowView new.table new.keyIdx (storedRow fmt new.table (new.copy old read.2.2.1)) =
        rowView new.table new.keyIdx (expandedRow fmt old new r).2 :=
      (expansion.copy_view_iff (rowFits_congr view.symm fits) fits).mpr view
    have inserted : (tmp.insertRow fmt new.table (new.copy old read.2.2.1) insertOrder false
        (sup.system i) (sup.temp i)).1 = 0 := by
      rw [insertRow, ← insertRowFlag_stored stable, (grants i).1]
      refine insertRowFlag_granted (grants i).2 small ?_
      rw [layout.keyIndex, rowBytes_congr same]
      change tmp.dataSize + (rowBytes fmt new.table new.keyIdx (expandedRow fmt old new r).1
        (expandedRow fmt old new r).2).length ≤ N
      omega
    rw [if_neg (not_not.mpr inserted)]
    obtain ⟨layout', -, start⟩ := expansion.insertRow_ok stable fits view layout inserted
    refine ih (pre ++ [r]) ?_ layout' ?_
    · rw [append_assoc, length_append]
      exact ⟨_, current⟩
    · have size := layout.size_eq
      have size' := layout'.size_eq
      rw [layout.keyIndex] at size
      rw [layout'.keyIndex, rowsBytes_placed_length, rowsBytes_cons, length_append, start] at size'
      rw [rowsBytes_nil, length_nil] at size'
      dsimp only [NamedTable.keyIdx] at room ⊢
      omega

end

end Loop

/-! ### The new chunk -/

section Init
variable {keyIdx keySize size nodeIdx hour : Nat} {key : List UInt8} {alloc : Allocator}

/-- With enough memory `init` succeeds. -/
theorem init_granted {ks : Nat} (hks : ks = if keySize ≠ 0 then keySize else 1 + (key.headD 0).toNat)
    (idx : nodeIdx ≤ 1) (room : size + (16 + ks) < 2 ^ 32)
    (granted : (alloc.answer (size + (16 + ks))).isSome) :
    ∃ s, init keyIdx keySize key size nodeIdx hour alloc = .ok s := by
  obtain ⟨grant, answer⟩ := Option.isSome_iff_exists.mp granted
  have covers := alloc.covers _ _ answer
  unfold init
  rw [← hks]
  dsimp only
  rw [add32_eq room, answer]
  dsimp only
  rw [if_neg (by omega)]
  simp only [setValue, bind, Except.bind, length_append, length_leBytes, length_cons, length_nil]
  rw [if_neg (by omega)]
  dsimp only
  rw [if_neg (by omega)]
  dsimp only
  rw [if_neg (by omega)]
  dsimp only
  rw [if_neg (by omega)]
  dsimp only
  rw [if_neg (by omega)]
  exact ⟨_, rfl⟩

end Init

/-- Memory is there for every chunk of at most `N` bytes. -/
def Supply.Grants (sup : Supply) (N : Nat) : Prop :=
  ∀ i, sup.temp i = true ∧ ∀ n ≤ N, ((sup.system i).answer n).isSome ∧ ((sup.alloc i).answer n).isSome

section Node
variable {fmt : FloatFormat} {old new : NamedTable} {newIdx hour : Nat} {sup : Supply}
  {insertOrder : Bool} {s : RawData} {rows : List (UInt8 × RowValue)}

/-- The chunk as `expand_node` attaches to it. -/
def attachedNode (t : TableDefinition) (s : RawData) : RawData :=
  { s with keyIndex := t.keyFields - 1, keySize := t.keyFormat, keyStart := 16,
           rowOffset := s.dataStart, offset := s.dataStart }

theorem attachData_eq {t : TableDefinition} (layout : s.Layout fmt t rows) :
    attachData t s = (0, attachedNode t s) := by
  rw [attachData, layout.doAttach]
  rfl

theorem key_attached {t : TableDefinition} (layout : s.Layout fmt t rows) :
    16 + (key t (attachedNode t s)).length = s.dataStart := by
  rw [key, length_slice, layout.dataStart]
  rfl

/-- A node that `expand_node` has attached to. Chunks have sizes of 32 bits. -/
structure ToExpand (fmt : FloatFormat) (old new : NamedTable) (s : RawData)
    (rows : List (UInt8 × RowValue)) : Prop where
  expansion : Expansion old new
  layout : s.Layout fmt old.table rows
  room : s.dataSize + s.dataStart < 2 ^ 32

/-- The data that the rows are written to has none at first. -/
theorem ToExpand.start (todo : ToExpand fmt old new s rows) {tmp : RawData} {alloc : Allocator}
    (init : init new.keyIdx new.table.keyFormat (key old.table
      (attachedNode old.table s)) s.dataSize newIdx hour alloc = .ok tmp) :
    tmp.Layout fmt new.table [] := by
  have size := key_attached todo.layout
  have room := todo.room
  have start : Simulates fmt new.table tmp ⟨[], 0, 0, false⟩ := by
    refine init_simulates ?_ (by omega) le_rfl init
    rw [todo.expansion.keyFormat]
    exact key_size _ _
  exact start.layout

theorem initExpanded_ok {tmp chunk : RawData}
    (ok : initExpanded sup hour new newIdx tmp = .ok chunk) : chunk.size < 2 ^ 32 := by
  unfold initExpanded at ok
  dsimp only at ok
  split at ok
  · split_ifs at ok
    exact (init_ok ok).1
  next first =>
    obtain rfl := Except.ok.inj ok
    exact (init_ok first).1

/-- What a successful expansion writes. -/
theorem ToExpand.expandedChunk_ok (todo : ToExpand fmt old new s rows) (stable : fmt.Stable)
    {chunk : RawData} (ok : expandedChunk fmt sup hour old new newIdx insertOrder
      (attachedNode old.table s) = .ok chunk) :
    chunk.Layout fmt new.table (placed insertOrder [] (rows.map (expandedRow fmt old new))) ∧
      (chunk.mem 0).toNat / 128 = newIdx := by
  obtain ⟨-, count, facing⟩ := attachData_ok todo.layout
  rw [attachData_eq todo.layout] at count facing
  unfold expandedChunk at ok
  rw [count] at ok
  split at ok
  · exact nomatch ok
  next tmp init =>
    dsimp only at ok
    split_ifs at ok with failed
    split at ok
    · exact nomatch ok
    next fresh init' =>
      split_ifs at ok with failed'
      obtain rfl := Except.ok.inj ok
      obtain ⟨-, typeByte, index⟩ := init_ok init
      obtain ⟨written, typeByte'⟩ := todo.expansion.expandRows_ok stable [] facing (todo.start init)
        (not_not.mp failed)
      obtain ⟨copied, typeByte''⟩ := copyAll_ok written (initExpanded_ok init') (not_not.mp failed')
      refine ⟨copied, ?_⟩
      rw [typeByte'', typeByte', typeByte]
      obtain rfl | rfl : newIdx = 0 ∨ newIdx = 1 := by omega
      · rfl
      · rfl

theorem expandedChunk_error {code : Int}
    (failed : expandedChunk fmt sup hour old new newIdx insertOrder s = .error code) :
    code ≠ 0 := by
  unfold expandedChunk at failed
  split at failed
  · obtain rfl := Except.error.inj failed
    decide
  · dsimp only at failed
    split_ifs at failed with looped
    · obtain rfl := Except.error.inj failed
      exact looped
    · split at failed
      · obtain rfl := Except.error.inj failed
        decide
      · split_ifs at failed
        obtain rfl := Except.error.inj failed
        decide

/-- With enough memory the expansion succeeds. -/
theorem ToExpand.expandedChunk_granted (todo : ToExpand fmt old new s rows) (stable : fmt.Stable)
    (index : newIdx ≤ 1) {N : Nat} (grants : sup.Grants N) (small : N < 2 ^ 32)
    (room : s.dataSize + headRoom old.table ≤ N)
    (room' : (rowsBytes fmt new.table new.keyIdx (rows.map (expandedRow fmt old new))).length +
      2 * headRoom old.table ≤ N) :
    ∃ chunk, expandedChunk fmt sup hour old new newIdx insertOrder
      (attachedNode old.table s) = .ok chunk := by
  obtain ⟨-, count, facing⟩ := attachData_ok todo.layout
  rw [attachData_eq todo.layout] at count facing
  have size := key_attached todo.layout
  have start := todo.layout.dataStart_le
  have heads : headRoom new.table = headRoom old.table := by
    rw [headRoom, headRoom, todo.expansion.keyFormat]
  obtain ⟨tmp, init⟩ : ∃ tmp, RawData.init new.keyIdx new.table.keyFormat (key old.table
      (attachedNode old.table s)) s.dataSize newIdx hour (sup.system 0) = .ok tmp := by
    have length := key_size old.table (attachedNode old.table s)
    rw [← todo.expansion.keyFormat] at length
    exact init_granted length index (by omega) ((grants 0).2 _ (by omega)).1
  have empty := todo.start init
  have least := empty.dataStart_le
  have none := empty.size_eq
  rw [rowsBytes_nil, length_nil] at none
  have looped : (expandRows fmt sup old new insertOrder rows.length 1 zeroRow
      (attachedNode old.table s) tmp).1 = 0 :=
    todo.expansion.expandRows_granted stable [] facing empty
      (fun i => ⟨(grants i).1, fun n le => ((grants i).2 n le).1⟩) small (by omega)
  obtain ⟨written, -⟩ := todo.expansion.expandRows_ok stable [] facing empty looped
  unfold expandedChunk
  rw [count, show (attachedNode old.table s).dataSize = s.dataSize from rfl, init]
  dsimp only
  rw [if_neg (not_not.mpr looped)]
  generalize (expandRows fmt sup old new insertOrder rows.length 1 zeroRow
    (attachedNode old.table s) tmp).2 = tmp' at *
  have above := written.dataStart_le
  have total := written.size_eq
  rw [written.keyIndex, rowsBytes_placed_length, rowsBytes_nil, length_nil] at total
  have keyLength : 16 + (key new.table tmp').length ≤ headRoom new.table := by
    have byte := ((key new.table tmp').headD 0).toNat_lt
    rw [key_size, headRoom]
    split_ifs <;> omega
  dsimp only [NamedTable.keyIdx] at room'
  obtain ⟨fresh, init'⟩ : ∃ fresh, RawData.init new.keyIdx new.table.keyFormat
      (key new.table tmp') tmp'.dataSize newIdx hour (sup.alloc 0) = .ok fresh :=
    init_granted (key_size _ _) index (by omega) ((grants 0).2 _ (by omega)).2
  have range := (RawData.init_ok init').1
  rw [initExpanded]
  dsimp only
  rw [init']
  dsimp only
  obtain ⟨grown, grow⟩ : ∃ grown, (if fresh.size < tmp'.dataSize then
      fresh.reAlloc tmp'.dataSize (sup.alloc 1) else some fresh) = some grown := by
    split_ifs
    · obtain ⟨grant, answer⟩ := Option.isSome_iff_exists.mp ((grants 1).2 tmp'.dataSize (by omega)).2
      exact ⟨_, by rw [RawData.reAlloc, answer]; rfl⟩
    · exact ⟨fresh, rfl⟩
  rw [if_neg (not_not.mpr (copyAll_into written range grow).1)]
  exact ⟨_, rfl⟩

/-- What the rows of a node look like under the new definition. -/
def expandedView (fmt : FloatFormat) (old new : NamedTable) (r : UInt8 × RowValue) : List FieldValue :=
  rowView new.table new.keyIdx (expandedRow fmt old new r).2

/-- Which of the rows are dirty, and the stored fields. -/
def dirtyView (t : TableDefinition) (k : Nat) (rows : List (UInt8 × RowValue)) :
    List (Bool × List FieldValue) :=
  rows.map fun r => (isDirty r.1, rowView t k r.2)

theorem dirtyView_eq (t : TableDefinition) (k : Nat) (rows : List (UInt8 × RowValue)) :
    dirtyView t k rows = (rowsView t k rows).map (Prod.map isDirty id) := by
  rw [rowsView, map_map]
  rfl

/-- No row that `expand_node` has written is dirty. -/
theorem dirtyView_expanded (fmt : FloatFormat) (old new : NamedTable) (rows : List (UInt8 × RowValue)) :
    dirtyView new.table new.keyIdx (rows.map (expandedRow fmt old new)) =
      rows.map fun r => (false, expandedView fmt old new r) := by
  have clean : isDirty operSelect = false := by decide
  rw [← clean, dirtyView, map_map]
  rfl

theorem Expansion.forall₂_iff (expansion : Expansion old new) {rows' : List (UInt8 × RowValue)}
    (fits : ∀ r ∈ rows, RowFits fmt old.table old.keyIdx r.2) :
    List.Forall₂ (fun r r' => isDirty r'.1 = isDirty r.1 ∧ Extends fmt old new r.2 r'.2) rows rows' ↔
      dirtyView new.table new.keyIdx rows' =
        rows.map fun r => (isDirty r.1, expandedView fmt old new r) := by
  induction rows generalizing rows' with
  | nil =>
    rw [forall₂_nil_left_iff, dirtyView, map_nil, map_eq_nil_iff]
  | cons r rows ih =>
    cases rows' with
    | nil => simp [dirtyView]
    | cons r' rows' =>
      have head : Extends fmt old new r.2 r'.2 ↔ _ := expansion.extends_iff (fits r mem_cons_self)
      rw [forall₂_cons, ih fun x mem => fits x (mem_cons_of_mem r mem), head]
      simp only [dirtyView, map_cons, cons.injEq, Prod.mk.injEq]
      rfl

/-- If the entries of two lists that are mapped to the same are mapped to the same by other functions
too, the lists stay equal. -/
theorem map_eq_map_imp {α β γ : Type} {f g : α → β} {f' g' : α → γ} {l l' : List α}
    (imp : ∀ a ∈ l, ∀ b ∈ l', f a = g b → f' a = g' b) (same : l.map f = l'.map g) :
    l.map f' = l'.map g' := by
  induction l generalizing l' with
  | nil => rw [map_eq_nil_iff.mp same.symm, map_nil, map_nil]
  | cons a l ih =>
    obtain ⟨b, rest, rfl, head, tail⟩ := map_eq_cons_iff.mp same.symm
    rw [map_cons, map_cons, imp a mem_cons_self b mem_cons_self head.symm,
      ih (fun x hx y hy => imp x (mem_cons_of_mem a hx) y (mem_cons_of_mem b hy)) tail.symm]

/-- The rows stay dirty and keep their order if none is dirty, and they are added at the end or are
the same from both ends. -/
theorem ToExpand.expanded_iff (todo : ToExpand fmt old new s rows) {chunk : RawData}
    (written : chunk.Layout fmt new.table
      (placed insertOrder [] (rows.map (expandedRow fmt old new)))) :
    Expanded fmt old new rows chunk ↔ (∀ r ∈ rows, isDirty r.1 = false) ∧
      (insertOrder = false ∨ (rows.map fun r => rowView old.table old.keyIdx r.2).reverse =
        rows.map fun r => rowView old.table old.keyIdx r.2) := by
  have fits : ∀ r ∈ rows, RowFits fmt old.table old.keyIdx r.2 := by
    rw [NamedTable.keyIdx, ← todo.layout.keyIndex]
    exact todo.layout.fits
  have views : ∀ a ∈ rows, ∀ b ∈ rows, expandedView fmt old new a = expandedView fmt old new b ↔
      rowView old.table old.keyIdx a.2 = rowView old.table old.keyIdx b.2 :=
    fun a ha b hb => todo.expansion.copy_view_iff (fits a ha) (fits b hb)
  have shown : Expanded fmt old new rows chunk ↔
      dirtyView new.table new.keyIdx (placed insertOrder [] (rows.map (expandedRow fmt old new))) =
        rows.map fun r => (isDirty r.1, expandedView fmt old new r) := by
    constructor
    · rintro ⟨rows', layout, extended⟩
      rw [← (todo.expansion.forall₂_iff fits).mp extended, dirtyView_eq, dirtyView_eq]
      exact congrArg _ (written.view_unique layout)
    · intro same
      exact ⟨_, written, (todo.expansion.forall₂_iff fits).mpr same⟩
  rw [shown]
  cases insertOrder with
  | false =>
    rw [placed, if_neg Bool.false_ne_true, nil_append, dirtyView_expanded, map_inj_left]
    refine ⟨fun same => ⟨fun r mem => ?_, .inl rfl⟩, fun clean r mem => ?_⟩
    · exact ((Prod.mk.inj (same r mem)).1).symm
    · rw [clean.1 r mem]
  | true =>
    rw [placed, if_pos rfl, append_nil, ← map_reverse, dirtyView_expanded, ← map_reverse]
    constructor
    · intro same
      have clean : ∀ r ∈ rows, isDirty r.1 = false := by
        intro r mem
        have there : (isDirty r.1, expandedView fmt old new r) ∈
            rows.map fun r => (isDirty r.1, expandedView fmt old new r) := mem_map_of_mem mem
        rw [← same] at there
        obtain ⟨r', -, eq⟩ := mem_map.mp there
        exact (Prod.mk.inj eq).1.symm
      refine ⟨clean, .inr (map_eq_map_imp (fun a ha b hb eq => ?_) same)⟩
      exact (views a (mem_reverse.mp ha) b hb).mp (Prod.mk.inj eq).2
    · rintro ⟨clean, never | same⟩
      · exact absurd never (by decide)
      · refine map_eq_map_imp (fun a ha b hb eq => ?_) same
        rw [clean b hb, (views a (mem_reverse.mp ha) b hb).mpr eq]

/-- `expand_node` on a flat node of the old version. -/
theorem ToExpand.expandNode_spec (hour : Nat) (sup : Supply) (insertOrder : Bool)
    {tables : Nat → NamedTable}
    (todo : ToExpand fmt (tables ((s.mem 0).toNat / 128)) (tables newIdx) s rows)
    (stable : fmt.Stable) (index : newIdx ≤ 1) (older : (s.mem 0).toNat / 128 ≠ newIdx) :
    let old := tables ((s.mem 0).toNat / 128)
    let new := tables newIdx
    let result := expandNode fmt sup hour tables newIdx insertOrder s
    (result.1 ≠ 0 → result.2 = s) ∧
    (∀ N < 2 ^ 32, sup.Grants N →
      (rowsBytes fmt old.table old.keyIdx rows).length + 2 * headRoom old.table ≤ N →
      (rowsBytes fmt new.table new.keyIdx (rows.map (expandedRow fmt old new))).length +
        2 * headRoom old.table ≤ N → result.1 = 0) ∧
    (result.1 = 0 → result.2.Layout fmt new.table
      (placed insertOrder [] (rows.map (expandedRow fmt old new))) ∧
        (result.2.mem 0).toNat / 128 = newIdx) := by
  unfold expandNode
  dsimp only
  rw [attachData_eq todo.layout, if_neg (by simp), if_neg older]
  cases ended : expandedChunk fmt sup hour (tables ((s.mem 0).toNat / 128)) (tables newIdx)
      newIdx insertOrder (attachedNode (tables ((s.mem 0).toNat / 128)).table s) with
  | error code =>
    refine ⟨fun _ => rfl, fun N small grants room room' => ?_,
      fun zero => absurd zero (expandedChunk_error ended)⟩
    have start := todo.layout.dataStart_le
    have size := todo.layout.size_eq
    rw [todo.layout.keyIndex] at size
    dsimp only [NamedTable.keyIdx] at room
    obtain ⟨chunk, ok⟩ := todo.expandedChunk_granted stable index grants small (by omega) room'
    exact nomatch ended.symm.trans ok
  | ok chunk =>
    refine ⟨fun failed => absurd rfl failed, fun _ _ _ _ _ => rfl, fun _ => ?_⟩
    exact todo.expandedChunk_ok stable ended

end Node

/-! ### Nodes of both formats -/

/-- The data of a node. Of tree data only the index of its table definition matters here. -/
inductive NodeData (τ : Type)
  | flat (chunk : RawData)
  | tree (tableIndex : Nat) (data : τ)

namespace NodeData
variable {τ : Type}

/-- The index of the table definition that the node follows. -/
def tableIndex : NodeData τ → Nat
  | .flat chunk => (chunk.mem 0).toNat / 128
  | .tree tableIndex _ => tableIndex

/-- `expand_node` of the two data processes. That of tree data does nothing. -/
def expandNode (fmt : FloatFormat) (sup : Supply) (hour : Nat) (tables : Nat → NamedTable)
    (newIdx : Nat) (insertOrder : Bool) : NodeData τ → Int × NodeData τ
  | .flat chunk =>
    let result := RawProcess.expandNode fmt sup hour tables newIdx insertOrder chunk
    (result.1, .flat result.2)
  | .tree tableIndex data => (0, .tree tableIndex data)

variable (fmt : FloatFormat) (treeRows : NamedTable → τ → List (UInt8 × RowValue))

/-- The node holds the rows; the sizes that an expansion of a flat node asks for have 32 bits. -/
def Has (t : NamedTable) (rows : List (UInt8 × RowValue)) : NodeData τ → Prop
  | .flat chunk => chunk.Layout fmt t.table rows ∧ chunk.dataSize + chunk.dataStart < 2 ^ 32
  | .tree _ data => treeRows t data = rows

/-- The node follows the new definition and holds the extended rows, in their order, the same of them
dirty. -/
def IsExpanded (old new : NamedTable) (newIdx : Nat) (rows : List (UInt8 × RowValue))
    (node : NodeData τ) : Prop :=
  node.tableIndex = newIdx ∧ match node with
    | .flat chunk => Expanded fmt old new rows chunk
    | .tree _ data =>
      List.Forall₂ (fun r r' => isDirty r'.1 = isDirty r.1 ∧ Extends fmt old new r.2 r'.2) rows
        (treeRows new data)

/-- The node is stored flat. -/
def Flat : NodeData τ → Prop
  | .flat _ => True
  | .tree _ _ => False

end NodeData

/-- What `expand_node` does to a node of the old version: if it fails the node is as it was, it does
not fail if there is memory, and a success gives the extended rows with their dirty flags and in
their order exactly if the node is flat, none of its rows is dirty, and they are inserted at the end
or read the same from both ends. -/
theorem expandNode_expands_iff {τ : Type} (fmt : FloatFormat) (stable : fmt.Stable)
    (treeRows : NamedTable → τ → List (UInt8 × RowValue)) (tables : Nat → NamedTable)
    (newIdx hour : Nat) (sup : Supply) (insertOrder : Bool) (node : NodeData τ)
    (rows : List (UInt8 × RowValue)) (index : newIdx ≤ 1) (older : node.tableIndex ≠ newIdx)
    (expansion : Expansion (tables node.tableIndex) (tables newIdx))
    (has : node.Has fmt treeRows (tables node.tableIndex) rows) :
    let old := tables node.tableIndex
    let new := tables newIdx
    let result := node.expandNode fmt sup hour tables newIdx insertOrder
    (result.1 ≠ 0 → result.2 = node) ∧
    (∀ N < 2 ^ 32, sup.Grants N →
      (rowsBytes fmt old.table old.keyIdx rows).length + 2 * headRoom old.table ≤ N →
      (rowsBytes fmt new.table new.keyIdx (rows.map (expandedRow fmt old new))).length +
        2 * headRoom old.table ≤ N → result.1 = 0) ∧
    (result.1 = 0 → (result.2.IsExpanded fmt treeRows old new newIdx rows ↔
      node.Flat ∧ (∀ r ∈ rows, isDirty r.1 = false) ∧ (insertOrder = false ∨
        (rows.map fun r => rowView old.table old.keyIdx r.2).reverse =
          rows.map fun r => rowView old.table old.keyIdx r.2))) := by
  intro old new result
  cases node with
  | tree tableIndex data =>
    refine ⟨fun failed => absurd rfl failed, fun _ _ _ _ _ => rfl, fun _ => ?_⟩
    exact ⟨fun expanded => absurd expanded.1 older, fun flat => absurd flat.1 id⟩
  | flat chunk =>
    have todo : ToExpand fmt old new chunk rows := ⟨expansion, has.1, has.2⟩
    obtain ⟨kept, granted, written⟩ := todo.expandNode_spec hour sup insertOrder stable index older
    refine ⟨fun failed => congrArg NodeData.flat (kept failed), granted, fun zero => ?_⟩
    obtain ⟨layout, version⟩ := written zero
    rw [← todo.expanded_iff layout]
    exact ⟨fun expanded => ⟨trivial, expanded.2⟩, fun both => ⟨version, both.2⟩⟩

/-! ### A table that gets a second field -/

/-- The table with one field, and with a second one whose default is a byte. -/
def widened (index : Nat) : NamedTable where
  table := { blobTable with numFields := if index = 0 then 1 else 2 }
  fieldName i := List.replicate i 0
  defaultValue _ := ⟨0, ⟨[9], by simp⟩⟩

theorem widened_expansion : Expansion (widened 0) (widened 1) where
  keyFields := rfl
  keyFormat := rfl
  more := by decide
  oldNames _ _ _ _ same := by simpa [widened] using same
  newNames _ _ _ _ same := by simpa [widened] using same
  kept i le := ⟨i, le.trans (by decide), rfl, rfl, Iff.rfl⟩

/-- A clean row is expanded. -/
theorem expandNode_expands_blob :
    let result := (NodeData.flat blobNode : NodeData Unit).expandNode halfFormat slackSupply 0 widened 1
      false
    result.1 = 0 ∧ result.2.IsExpanded halfFormat (fun _ _ => []) (widened 0) (widened 1) 1
      [(operSelect, blobRow none)] := by
  intro result
  have ok : result.1 = 0 := by decide +kernel
  refine ⟨ok, ?_⟩
  refine ((expandNode_expands_iff halfFormat halfFormat_stable (fun _ _ => []) widened 1 0 slackSupply
    false (.flat blobNode) [(operSelect, blobRow none)] le_rfl (by decide +kernel) ?_ ?_).2.2 ok).mpr
      ⟨trivial, by decide, .inl rfl⟩
  · exact widened_expansion
  · exact ⟨blobNode_layout, by decide +kernel⟩

/-- A node with a row that was inserted and not yet flushed. -/
def dirtyNode : RawData :=
  (blobChunk.insertRowFlag halfFormat blobTable (blobRow none) false operInsert slackAllocator true).2

/-- A node with two clean rows. -/
def pairNode : RawData :=
  (blobNode.insertRowFlag halfFormat blobTable (blobRow (some 7)) false operSelect slackAllocator true).2

theorem dirtyNode_layout : dirtyNode.Layout halfFormat blobTable [(operInsert, blobRow none)] :=
  blobChunk_layout.inserted (by decide) (by decide +kernel)

theorem pairNode_layout : pairNode.Layout halfFormat blobTable
    [(operSelect, blobRow none), (operSelect, blobRow (some 7))] :=
  blobNode_layout.inserted (by decide +kernel) (by decide +kernel)

/-- A row that is not flushed loses its flag, and with the other insert order two rows are
exchanged; both calls succeed. -/
theorem expandNode_not_expanded :
    (∃ chunk, RawProcess.expandNode halfFormat slackSupply 0 widened 1 false dirtyNode = (0, chunk) ∧
      ¬Expanded halfFormat (widened 0) (widened 1) [(operInsert, blobRow none)] chunk) ∧
    ∃ chunk, RawProcess.expandNode halfFormat slackSupply 0 widened 1 true pairNode = (0, chunk) ∧
      ¬Expanded halfFormat (widened 0) (widened 1)
        [(operSelect, blobRow none), (operSelect, blobRow (some 7))] chunk := by
  constructor
  · have todo : ToExpand halfFormat (widened ((dirtyNode.mem 0).toNat / 128)) (widened 1) dirtyNode
        [(operInsert, blobRow none)] := ⟨widened_expansion, dirtyNode_layout, by decide +kernel⟩
    have ok : (expandNode halfFormat slackSupply 0 widened 1 false dirtyNode).1 = 0 := by
      decide +kernel
    obtain ⟨-, -, written⟩ := todo.expandNode_spec 0 slackSupply false halfFormat_stable le_rfl
      (by decide +kernel)
    refine ⟨_, Prod.ext ok rfl, fun expanded => ?_⟩
    obtain ⟨clean, -⟩ := (todo.expanded_iff (written ok).1).mp expanded
    exact absurd (clean _ mem_cons_self) (by decide)
  · have todo : ToExpand halfFormat (widened ((pairNode.mem 0).toNat / 128)) (widened 1) pairNode
        [(operSelect, blobRow none), (operSelect, blobRow (some 7))] :=
      ⟨widened_expansion, pairNode_layout, by decide +kernel⟩
    have ok : (expandNode halfFormat slackSupply 0 widened 1 true pairNode).1 = 0 := by
      decide +kernel
    obtain ⟨-, -, written⟩ := todo.expandNode_spec 0 slackSupply true halfFormat_stable le_rfl
      (by decide +kernel)
    refine ⟨_, Prod.ext ok rfl, fun expanded => ?_⟩
    obtain ⟨-, never | same⟩ := (todo.expanded_iff (written ok).1).mp expanded
    · exact absurd never (by decide)
    · exact absurd same (by decide +kernel)

end Dtc.Raw
