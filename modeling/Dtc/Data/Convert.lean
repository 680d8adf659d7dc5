import Dtc.Raw.Expand
import Dtc.Tree.Agreement
import Dtc.Tree.Header
import Dtc.Tree.Requests
import Dtc.Tree.Traversals

/-!
# Flat data made into a tree and back

`copy_tree_all` reads the rows of flat data and inserts them into a tree, and `copy_raw_all` copies
the records of a tree, in the order of their index values, behind the header of flat data. The rows
of one index value stay in one record, in the order in which they were inserted.

Both formats write a row as its flag and its fields. Flat data leaves out all key fields; a tree
leaves out the first one only, and takes the second field for the index.
-/

namespace Dtc.Tree

open Library List TreeData

variable {ρ K : Type} [LinearOrder K]

/-- The rows of one index value. -/
def TreeData.keyRows (s : TreeData ρ K) (key : K) : List (StoredRow ρ) :=
  storedRows ((records s.root).filter fun r => r.key = key)

section KeyRows
variable {t : TreeTable ρ K} {o : t.Ordered} {s s' : TreeData ρ K} {key : K}

/-- There is at most one record of an index value, so that its place does not matter. -/
theorem TreeData.Good.filter_key (good : s.Good o) {rs : List (RowChunk ρ K)}
    (perm : (records s.root).Perm rs) (key : K) :
    (records s.root).filter (fun r => r.key = key) = rs.filter fun r => r.key = key := by
  have sorted := good.wellFormed.sorted.filter fun r => r.key = key
  have keys : ∀ r ∈ (records s.root).filter (fun r => r.key = key), r.key = key :=
    fun r mem => of_decide_eq_true (mem_filter.mp mem).2
  have perm := perm.filter fun r => decide (r.key = key)
  generalize (records s.root).filter (fun r => decide (r.key = key)) = found at *
  match found with
  | [] => exact (nil_perm.mp perm).symm
  | [r] => exact singleton_perm.mp perm
  | a :: b :: _ =>
    have lt : a.key < b.key := (pairwise_cons.mp sorted).1 b mem_cons_self
    rw [keys a mem_cons_self, keys b (mem_cons_of_mem a mem_cons_self)] at lt
    exact absurd lt (lt_irrefl _)

/-- The rows of one index value, found among all rows. -/
theorem TreeData.Good.filter_rows (good : s.Good o) (key : K) :
    (storedRows (records s.root)).filter (fun x => t.index x.row = key) = s.keyRows key := by
  have sound := good.keeps.chunks
  unfold keyRows
  generalize records s.root = rs at *
  induction rs with
  | nil => rfl
  | cons r rs ih =>
    have same := (sound r mem_cons_self).same
    have rest := ih fun q mem => sound q (mem_cons_of_mem r mem)
    rw [storedRows_cons, filter_append, rest]
    by_cases here : r.key = key
    · rw [filter_cons_of_pos (by simpa using here), storedRows_cons,
        filter_eq_self.mpr fun x mem => by simpa using (same x mem).trans here]
    · rw [filter_cons_of_neg (by simpa using here),
        filter_eq_nil_iff.mpr fun x mem => by simpa using fun eq => here ((same x mem).symm.trans eq),
        nil_append]

/-- A step has changed the rows of one index value. -/
theorem Touched.keyRows {old new : List (StoredRow ρ)} (touched : Touched s s' key old new)
    (good : s.Good o) (good' : s'.Good o) :
    s.keyRows key = old ∧ s'.keyRows key = new ∧ ∀ k, k ≠ key → s'.keyRows k = s.keyRows k := by
  obtain ⟨before, after, rest, perm, perm', rfl, rfl, keys, others⟩ := touched.split
  have all : ∀ rs : List (RowChunk ρ K), (∀ r ∈ rs, r.key = key) →
      (rs ++ rest).filter (fun r => r.key = key) = rs := by
    intro rs same
    rw [filter_append, filter_eq_self.mpr fun r mem => by simpa using same r mem,
      filter_eq_nil_iff.mpr fun r mem => by simpa using others r mem, append_nil]
  have none : ∀ rs : List (RowChunk ρ K), (∀ r ∈ rs, r.key = key) → ∀ k, k ≠ key →
      (rs ++ rest).filter (fun r => r.key = k) = rest.filter fun r => r.key = k := by
    intro rs same k ne
    rw [filter_append, filter_eq_nil_iff.mpr fun r mem => by
      simpa using fun eq => ne (eq.symm.trans (same r mem)), nil_append]
  have keysBefore : ∀ r ∈ before, r.key = key := fun r mem => keys r (mem_append_left _ mem)
  have keysAfter : ∀ r ∈ after, r.key = key := fun r mem => keys r (mem_append_right _ mem)
  refine ⟨?_, ?_, fun k ne => ?_⟩
  · rw [TreeData.keyRows, good.filter_key perm, all before keysBefore]
  · rw [TreeData.keyRows, good'.filter_key perm', all after keysAfter]
  · rw [TreeData.keyRows, TreeData.keyRows, good'.filter_key perm', good.filter_key perm,
      none after keysAfter k ne, none before keysBefore k ne]

/-- The copied rows of an index value stand behind those that were there, in their order. -/
theorem copyTreeAll_keyRows [Inhabited K] (alloc : Allocator) {rows : List ρ} (good : s.Good o)
    (filled : s.Filled) (spacious : Spacious t s.rows rows)
    (ok : (copyTreeAll t alloc rows s).1 = 0) (key : K) :
    (copyTreeAll t alloc rows s).2.keyRows key =
      s.keyRows key ++ (rows.filter fun row => t.index row = key).map (StoredRow.mk Raw.operSelect) := by
  induction rows generalizing s with
  | nil => exact (append_nil _).symm
  | cons row rows ih =>
    have inserted : Inserted o s (s.insertRow t alloc row false).2 ⟨_, row⟩ _ :=
      insertRow_spec good filled row false
    rw [copyTreeAll] at ok ⊢
    by_cases noMem : (s.insertRow t alloc row false).1 = ecNoMem
    · rw [if_pos noMem] at ok
      exact absurd ok (show ecNoMem ≠ 0 by decide)
    · rw [if_neg noMem] at ok ⊢
      obtain ⟨added, next⟩ := spacious.insertRow good filled noMem
      obtain ⟨old, touched⟩ := inserted.touched
      rw [if_pos added] at touched
      obtain ⟨before, after, others⟩ := touched.keyRows good inserted.good
      rw [ih inserted.good inserted.filled next ok]
      by_cases here : t.index row = key
      · rw [filter_cons_of_pos (by simpa using here), map_cons, ← here, before, after, append_assoc]
        rfl
      · rw [filter_cons_of_neg (by simpa using here), others key (Ne.symm here)]

end KeyRows

end Dtc.Tree

namespace Dtc.Data

open Library Memory Raw List
open Dtc.Tree (TreeTable StoredRow RowChunk storedRows records ttreeIndexPos)

/-- A table that can be kept in both formats. There is a field behind the key fields, and the field
that the trees are ordered by is stored. -/
structure Formats (K : Type) where
  fmt : FloatFormat
  t : TableDefinition
  keys : 1 ≤ t.keyFields
  fields : t.keyFields ≤ t.numFields
  indexStored : (t.field ttreeIndexPos).discard = false
  /-- `default_value` on a cleared row -/
  defaults : RowValue
  /-- the index value in a field -/
  field : DTCValue → K
  field_congr : ∀ a b, (t.field ttreeIndexPos).member a = (t.field ttreeIndexPos).member b →
    field a = field b
  keyCompare : K → K → Int

namespace Formats
variable {K : Type} (e : Formats K)

/-- The table as the trees see it. Unique fields do not matter for a copy. -/
def tree : TreeTable RowValue K where
  rowSize row := RawData.calcRowSize e.t row 0
  rowSize_lt row := by
    rw [RawData.calcRowSize_eq e.fmt e.t row 0 0]
    exact Nat.mod_lt _ (by decide)
  index row := e.field (row ttreeIndexPos)
  keyCompare := e.keyCompare
  sameUniq _ _ := false
  indexPartOfUniqField := false

/-- The index value of a row: the first field behind the key. -/
def rowIndex (row : RowValue) : K := e.field (row e.t.keyFields)

/-- A row of flat data as it is inserted into a tree: the key fields have their default values. -/
def treeRow (row : RowValue) : RowValue := fun j => if e.t.keyFields ≤ j then row j else e.defaults j

variable [Inhabited K]

/-- The loop of `copy_tree_all`. -/
def copyTreeRows (alloc : Tree.Allocator) : Nat → RawData → Tree.TreeData RowValue K →
    Int × Tree.TreeData RowValue K
  | 0, _, tree => (0, tree)
  | n + 1, s, tree =>
    let read := s.decodeRow e.fmt e.t e.defaults false
    if read.1 ≠ 0 then (-1, tree)
    else
      let inserted := tree.insertRow e.tree alloc read.2.2.1 false
      if inserted.1 = Tree.ecNoMem then (Tree.ecNoMem, inserted.2.destroySubTree)
      else copyTreeRows alloc n read.2.2.2 inserted.2

/-- `copy_tree_all`. -/
def copyTreeAll (alloc : Tree.Allocator) (s : RawData) (tree : Tree.TreeData RowValue K) :
    Int × Tree.TreeData RowValue K :=
  if e.t.numFields < 1 then (-1, tree)
  else if s.rowCount = 0 then (0, tree)
  else e.copyTreeRows alloc s.rowCount s.rewind tree

/-- `append_n_records`. The bytes are copied without a further check. -/
def appendNRecords (s : RawData) (nRows : Nat) (data : List UInt8) (alloc : Raw.Allocator) :
    Int × RawData :=
  match s.expandChunk data.length alloc with
  | (0, s) =>
    (0, { s with mem := store s.mem s.dataSize data
                 dataSize := add32 s.dataSize data.length
                 rowCount := add32 s.rowCount nRows }.setDataSize.setRowCount)
  | failed => failed

/-- The rows of a record with their flags. -/
def flagged (r : RowChunk RowValue K) : List (UInt8 × RowValue) := r.rows.map fun x => (x.flag, x.row)

/-- The loop of `copy_raw_all` over the records. -/
def copyRecords (alloc : Nat → Raw.Allocator) : List (RowChunk RowValue K) → Nat → RawData →
    Int × RawData
  | [], _, new => (0, new)
  | r :: rs, i, new =>
    let appended := appendNRecords new r.rows.length (rowsBytes e.fmt e.t 0 (flagged r)) (alloc i)
    if appended.1 ≠ 0 then appended else copyRecords alloc rs (i + 1) appended.2

/-- `Visit`, for as many records as there are. -/
def visit (handles : List (RowChunk RowValue K)) (r : RowChunk RowValue K) :
    Int × List (RowChunk RowValue K) := (0, handles ++ [r])

/-- `copy_raw_all`. -/
def copyRawAll (alloc : Nat → Raw.Allocator) (tree : Tree.TreeData RowValue K) (new : RawData) :
    Int × RawData :=
  if tree.nodeCount = 0 then (1, new)
  else
    let traversed := Tree.traverseForward visit tree.root []
    if traversed.1 ≠ 0 then (-1, new)
    else
      let copied := e.copyRecords alloc traversed.2 0 new
      if copied.1 ≠ 0 then copied else copied.2.doAttach (e.t.keyFields - 1) e.t.keyFormat

end Formats

/-! ### From flat data to a tree -/

section Decode
variable {fmt : FloatFormat} {t : TableDefinition} {s : RawData}

/-- Fields that are not read keep what the row had before. -/
theorem decodeFields_others {js : List Nat} {row row' : RowValue} {s' : RawData}
    (ok : RawData.decodeFields fmt t js row s = .ok (row', s')) {j : Nat} (apart : j ∉ js) :
    row' j = row j := by
  induction js generalizing row s with
  | nil =>
    obtain ⟨rfl, -⟩ := Prod.mk.inj (Except.ok.inj ok)
    rfl
  | cons i js ih =>
    obtain ⟨ne, apart⟩ := not_or.mp (mt mem_cons.mpr apart)
    rw [RawData.decodeFields] at ok
    split_ifs at ok with discard
    · exact ih ok apart
    · obtain ⟨⟨v, s₁⟩, -, ok⟩ := bind_ok ok
      rw [ih ok apart, Function.update_of_ne ne]

theorem decodeRow_others {row : RowValue} {j : Nat} (apart : j ∉ rowFields s.keyIndex t.numFields) :
    (s.decodeRow fmt t row false).2.2.1 j = row j := by
  unfold RawData.decodeRow
  dsimp only
  split
  · rename_i decoded
    obtain ⟨⟨flag, s₁⟩, first, decoded⟩ := bind_ok decoded
    obtain ⟨⟨row', s₂⟩, fields, decoded⟩ := bind_ok decoded
    obtain ⟨-, rest⟩ := Prod.mk.inj (Except.ok.inj decoded)
    obtain ⟨rfl, -⟩ := Prod.mk.inj rest
    have index : s₁.keyIndex = s.keyIndex := by
      obtain ⟨-, -, rfl⟩ := RawData.getValue_ok first
      rfl
    exact decodeFields_others fields (index ▸ apart)
  · rfl

end Decode

namespace Formats
variable {K : Type} {e : Formats K} {s : RawData} {rest : List (UInt8 × RowValue)}

/-- A row of flat data, read over the default values. -/
theorem decodeRow_treeRow {pre : List (UInt8 × RowValue)} {r : UInt8 × RowValue}
    (facing : Facing e.fmt e.t s (pre ++ r :: rest) pre.length) :
    rowView e.t 0 (s.decodeRow e.fmt e.t e.defaults false).2.2.1 = rowView e.t 0 (e.treeRow r.2) := by
  obtain ⟨-, -, view, -⟩ := facing.decodeRow e.defaults
  obtain ⟨cur, sim⟩ := facing
  have index := sim.layout.keyIndex
  have keys := e.keys
  refine rowView_eq_iff.mpr fun j mem => ?_
  obtain ⟨-, le, stored⟩ := mem_storedFields.mp mem
  unfold treeRow
  by_cases behind : e.t.keyFields ≤ j
  · rw [if_pos behind]
    exact rowView_eq_iff.mp view j (mem_storedFields.mpr ⟨by omega, le, stored⟩)
  · rw [if_neg behind, decodeRow_others]
    rw [index, rowFields, mem_range'_1]
    omega

/-- The loop of `copy_tree_all` inserts the rows that it reads. -/
theorem copyTreeRows_eq [LinearOrder K] [Inhabited K] (alloc : Tree.Allocator) (pre : List (UInt8 × RowValue))
    (facing : Facing e.fmt e.t s (pre ++ rest) pre.length) :
    ∃ reads, List.Forall₂ (fun r read => rowView e.t 0 read = rowView e.t 0 (e.treeRow r.2)) rest reads ∧
      ∀ tree, e.copyTreeRows alloc rest.length s tree = Tree.TreeData.copyTreeAll e.tree alloc reads tree := by
  induction rest generalizing pre s with
  | nil => exact ⟨[], .nil, fun _ => rfl⟩
  | cons r rest ih =>
    have view := decodeRow_treeRow facing
    obtain ⟨code, -, -, current⟩ := facing.decodeRow e.defaults
    have next : Facing e.fmt e.t (s.decodeRow e.fmt e.t e.defaults false).2.2.2 ((pre ++ [r]) ++ rest)
        (pre ++ [r]).length := by
      rw [append_assoc, length_append]
      exact ⟨_, current⟩
    obtain ⟨reads, views, copies⟩ := ih (pre ++ [r]) next
    refine ⟨_, .cons view views, fun tree => ?_⟩
    rw [length_cons, copyTreeRows, Tree.TreeData.copyTreeAll]
    dsimp only
    rw [if_neg (not_not.mpr code), copies]

end Formats

/-! ### From a tree to flat data -/

/-- Flat data whose rows are written as in a tree. -/
structure Carries (fmt : FloatFormat) (t : TableDefinition) (s : RawData)
    (rows : List (UInt8 × RowValue)) : Prop extends s.Header t where
  holds : Holds s.mem s.dataStart (rowsBytes fmt t 0 rows)
  size_eq : s.dataSize = s.dataStart + (rowsBytes fmt t 0 rows).length
  count_eq : s.rowCount = rows.length

section Append
variable {fmt : FloatFormat} {t : TableDefinition} {s : RawData} {rows more : List (UInt8 × RowValue)}
  {alloc : Raw.Allocator}

theorem appendNRecords_eq {s₁ : RawData} {nRows : Nat} {data : List UInt8}
    (expanded : s.expandChunk data.length alloc = (0, s₁)) :
    Formats.appendNRecords s nRows data alloc =
      (0, { s₁ with mem := store s₁.mem s₁.dataSize data
                    dataSize := add32 s₁.dataSize data.length
                    rowCount := add32 s₁.rowCount nRows }.setDataSize.setRowCount) := by
  rw [Formats.appendNRecords, expanded]
  rfl

/-- `append_n_records` puts the rows behind those that are there. -/
theorem Carries.append (carries : Carries fmt t s rows)
    (small : s.dataSize + (rowsBytes fmt t 0 more).length < 2 ^ 32)
    (ok : (Formats.appendNRecords s more.length (rowsBytes fmt t 0 more) alloc).1 = 0) :
    Carries fmt t (Formats.appendNRecords s more.length (rowsBytes fmt t 0 more) alloc).2
        (rows ++ more) ∧
      (Formats.appendNRecords s more.length (rowsBytes fmt t 0 more) alloc).2.dataStart =
        s.dataStart := by
  have above := carries.start_lt
  have size := carries.size_eq
  have expanded : (s.expandChunk (rowsBytes fmt t 0 more).length alloc).1 = 0 := by
    unfold Formats.appendNRecords at ok
    split at ok
    next eq => rw [eq]
    next failed _ => exact ok
  obtain ⟨s₁, eq, room, range, same, rest⟩ :=
    RawData.expandChunk_ok carries.inside carries.range expanded
  rw [add32_eq small] at room
  have dataStart : s₁.dataStart = s.dataStart := by rw [rest]
  have keyIndex : s₁.keyIndex = s.keyIndex := by rw [rest]
  have dataSize : s₁.dataSize = s.dataSize := by rw [rest]
  have rowCount : s₁.rowCount = s.rowCount := by rw [rest]
  have few : add32 s.rowCount more.length = s.rowCount + more.length := by
    have rows' := length_le_rowsBytes fmt t 0 rows
    have more' := length_le_rowsBytes fmt t 0 more
    have count := carries.count_eq
    exact add32_eq (by omega)
  rw [appendNRecords_eq eq, dataSize, rowCount, add32_eq small, few]
  generalize grown : { s₁ with mem := store s₁.mem s.dataSize (rowsBytes fmt t 0 more)
                               dataSize := s.dataSize + (rowsBytes fmt t 0 more).length
                               rowCount := s.rowCount + more.length } = s₂
  have mem : s₂.mem = store s₁.mem s.dataSize (rowsBytes fmt t 0 more) := by rw [← grown]
  have below : ∀ i < s.dataSize, s₂.mem i = s.mem i := by
    intro i low
    rw [mem, store_outside (.inl low), same i low]
  have sizes : s₂.dataStart = s.dataStart ∧ s₂.keyIndex = s.keyIndex ∧ s₂.size = s₁.size ∧
      s₂.dataSize = s.dataSize + (rowsBytes fmt t 0 more).length ∧
      s₂.rowCount = s.rowCount + more.length := by
    rw [← grown]
    exact ⟨dataStart, keyIndex, rfl, rfl, rfl⟩
  obtain ⟨start₂, index₂, size₂, dataSize₂, rowCount₂⟩ := sizes
  have base : s₂.Base t := carries.toBase.congr (by omega) start₂ index₂ fun i _ low => below i (by omega)
  obtain ⟨header, outside⟩ := base.header (by omega) (by omega)
  have kept := RawData.setCounters_same s₂
  have counted : s₂.setDataSize.setRowCount.dataSize = s₂.dataSize ∧
      s₂.setDataSize.setRowCount.rowCount = s₂.rowCount := by
    rw [RawData.setCounters_eq (by omega)]
    exact ⟨rfl, rfl⟩
  refine ⟨⟨header, ?_, ?_, ?_⟩, kept.dataStart.trans start₂⟩
  · rw [kept.dataStart, start₂, rowsBytes_append, holds_append]
    constructor
    · refine carries.holds.congr fun i low high => ?_
      rw [outside i (.inr (by omega)), below i (by omega)]
    · rw [← size]
      have stored : Holds s₂.mem s.dataSize (rowsBytes fmt t 0 more) := by
        rw [mem]
        exact holds_store
      exact stored.congr fun i low _ => outside i (.inr (by omega))
  · rw [counted.1, dataSize₂, kept.dataStart, start₂, rowsBytes_append, length_append]
    omega
  · rw [counted.2, rowCount₂, carries.count_eq, length_append]

end Append

namespace Formats
variable {K : Type} {e : Formats K} {new : RawData} {alloc : Nat → Raw.Allocator}
  {rows : List (UInt8 × RowValue)}

/-- The rows of records with their flags. -/
def flaggedRows (rs : List (RowChunk RowValue K)) : List (UInt8 × RowValue) :=
  (storedRows rs).map fun x => (x.flag, x.row)

/-- The loop of `copy_raw_all` copies all rows. -/
theorem copyRecords_ok {rs : List (RowChunk RowValue K)} {i : Nat} (carries : Carries e.fmt e.t new rows)
    (small : new.dataSize + (rowsBytes e.fmt e.t 0 (flaggedRows rs)).length < 2 ^ 32)
    (ok : (e.copyRecords alloc rs i new).1 = 0) :
    Carries e.fmt e.t (e.copyRecords alloc rs i new).2 (rows ++ flaggedRows rs) ∧
      (e.copyRecords alloc rs i new).2.dataStart = new.dataStart := by
  induction rs generalizing i new rows with
  | nil =>
    rw [flaggedRows, Tree.storedRows_nil, map_nil, append_nil]
    exact ⟨carries, rfl⟩
  | cons r rs ih =>
    have split : flaggedRows (r :: rs) = flagged r ++ flaggedRows rs := by
      rw [flaggedRows, Tree.storedRows_cons, map_append]
      rfl
    have length : r.rows.length = (flagged r).length := (length_map _).symm
    rw [split, rowsBytes_append, length_append] at small
    rw [copyRecords, length] at ok ⊢
    by_cases failed : (appendNRecords new (flagged r).length (rowsBytes e.fmt e.t 0 (flagged r))
        (alloc i)).1 ≠ 0
    · rw [if_pos failed] at ok
      exact absurd ok failed
    · rw [if_neg failed] at ok ⊢
      obtain ⟨next, start⟩ := carries.append (by omega) (not_not.mp failed)
      have size := carries.size_eq
      have size' := next.size_eq
      rw [rowsBytes_append, length_append] at size'
      obtain ⟨all, start'⟩ := ih next (by omega) ok
      rw [split, ← append_assoc]
      exact ⟨all, start'.trans start⟩

theorem copyRecords_code (e : Formats K) (alloc : Nat → Raw.Allocator) (rs : List (RowChunk RowValue K)) (i : Nat) (new : RawData) :
    (e.copyRecords alloc rs i new).1 = 0 ∨ (e.copyRecords alloc rs i new).1 = Raw.ecNoMem := by
  induction rs generalizing i new with
  | nil => exact .inl rfl
  | cons r rs ih =>
    rw [copyRecords]
    split_ifs with failed
    · right
      unfold appendNRecords RawData.expandChunk at failed ⊢
      split_ifs at failed ⊢ with full
      · cases realloc : new.reAlloc
            (add32 new.dataSize (rowsBytes e.fmt e.t 0 (flagged r)).length) (alloc i) with
        | none => rfl
        | some s' =>
          rw [realloc] at failed
          exact absurd rfl failed
      · exact absurd rfl failed
    · exact ih (i + 1) _

/-- `Visit` collects the records in their order. -/
theorem traverseForward_visit (root : Tree.TtreeNode (RowChunk RowValue K)) :
    Tree.traverseForward visit root [] = (0, records root) := by
  have all : Tree.walk (fun _ => true) (fun _ => true) id root = records root := by
    induction root with
    | nil => rfl
    | node hLeft hRight chBalance items ihLeft ihRight =>
      rw [Tree.walk, if_pos rfl, if_pos rfl, ihLeft, ihRight, Tree.records_node]
      rfl
  rw [Tree.traverseForward, Tree.forward_eq, all]
  exact Tree.visitItems_takeDown (records root) []

/-- `copy_raw_all` copies the rows in the order of the records. -/
theorem copyRawAll_ok {tree : Tree.TreeData RowValue K} (carries : Carries e.fmt e.t new [])
    (empty : tree.nodeCount = 0 → records tree.root = [])
    (small : new.dataSize + (rowsBytes e.fmt e.t 0 (flaggedRows (records tree.root))).length < 2 ^ 32)
    (ok : (e.copyRawAll alloc tree new).1 = 0 ∨ (e.copyRawAll alloc tree new).1 = 1) :
    Carries e.fmt e.t (e.copyRawAll alloc tree new).2 (flaggedRows (records tree.root)) ∧
      (e.copyRawAll alloc tree new).2.dataStart = new.dataStart := by
  unfold copyRawAll at ok ⊢
  by_cases none : tree.nodeCount = 0
  · rw [if_pos none, empty none]
    exact ⟨carries, rfl⟩
  · rw [if_neg none, traverseForward_visit] at ok ⊢
    rw [if_neg (by simp)] at ok ⊢
    by_cases failed : (e.copyRecords alloc (records tree.root) 0 new).1 ≠ 0
    · rw [if_pos failed] at ok
      have code := copyRecords_code e alloc (records tree.root) 0 new
      rw [code.resolve_left failed] at ok
      exact absurd ok (by decide)
    · rw [if_neg failed]
      obtain ⟨copied, start⟩ := copyRecords_ok carries small (not_not.mp failed)
      rw [nil_append] at copied
      generalize (e.copyRecords alloc (records tree.root) 0 new).2 = s at *
      have counted : s.rowCount < 2 ^ 32 := by
        have count := copied.count_eq
        have least := length_le_rowsBytes e.fmt e.t 0 (flaggedRows (records tree.root))
        omega
      rw [copied.toHeader.doAttach counted]
      exact ⟨{ copied with keyIndex := rfl }, start⟩

end Formats

/-! ### There and back -/

section Sizes
variable {fmt : FloatFormat} {t : TableDefinition} {k : Nat}

/-- The bytes of rows that look the same are as many, in whatever order they stand. -/
theorem rowsBytes_length_perm {a b : List (UInt8 × RowValue)}
    (perm : (rowsView t k a).Perm (rowsView t k b)) :
    (rowsBytes fmt t k a).length = (rowsBytes fmt t k b).length := by
  obtain ⟨size, sized⟩ : ∃ size : UInt8 × List FieldValue → Nat, ∀ r : UInt8 × RowValue,
      (rowBytes fmt t k r.1 r.2).length = size (r.1, rowView t k r.2) := by
    obtain ⟨size, eq⟩ := (Function.factorsThrough_iff _).mp
      (show Function.FactorsThrough (fun r : UInt8 × RowValue => (rowBytes fmt t k r.1 r.2).length)
        fun r => (r.1, rowView t k r.2) from by
          intro r r' same
          obtain ⟨flag, view⟩ := Prod.mk.inj same
          dsimp only
          rw [flag, rowBytes_congr view])
    exact ⟨size, fun r => congrFun eq r⟩
  have total : ∀ rows : List (UInt8 × RowValue),
      (rowsBytes fmt t k rows).length = ((rowsView t k rows).map size).sum := by
    intro rows
    rw [rowsBytes, length_flatMap, rowsView, map_map]
    exact congrArg sum (map_congr_left fun r _ => sized r)
  rw [total, total, (perm.map size).sum_eq]

/-- A tree stores the second field also if it belongs to the key. -/
theorem rowBytes_length_lt (flag : UInt8) (row : RowValue) (key : 1 ≤ k) (inside : k ≤ t.numFields)
    (stored : (t.field ttreeIndexPos).discard = false) :
    (rowBytes fmt t k flag row).length < (rowBytes fmt t 0 flag row).length := by
  have split : rowFields 0 t.numFields = range' 1 k ++ rowFields k t.numFields := by
    rw [rowFields, rowFields, Nat.add_comm k, range'_append_1]
    congr 1
    omega
  have first : 0 < (fieldsBytes fmt t row (range' 1 k)).length := by
    obtain ⟨n, rfl⟩ : ∃ n, k = n + 1 := ⟨k - 1, by omega⟩
    rw [range'_succ, fieldsBytes_stored (show (t.field 1).discard = false from stored),
      length_append]
    have least : 0 < (RawData.fieldBytes fmt (t.field 1) (row 1)).length := by
      rw [← RawData.calcField_eq]
      unfold RawData.calcField
      cases (t.field 1).fieldType <;> dsimp only <;> first | split_ifs <;> omega | omega
    omega
  rw [rowBytes, rowBytes, split, length_cons, length_cons, fieldsBytes, fieldsBytes,
    filter_append, flatMap_append, length_append]
  unfold fieldsBytes at first
  omega

end Sizes

namespace Formats
variable {K : Type} [LinearOrder K] {e : Formats K} {s new : RawData} {rows : List (UInt8 × RowValue)}
  {reads : List RowValue}

/-- The rows as the tree gets them from flat data. -/
def treeRows (e : Formats K) (rows : List (UInt8 × RowValue)) : List (UInt8 × RowValue) :=
  rows.map fun r => (operSelect, e.treeRow r.2)

/-- Flat data with the same rows and flags, and with the rows of one index value in the same
order. -/
def Returns (e : Formats K) (rows : List (UInt8 × RowValue)) (s : RawData) : Prop :=
  ∃ rows', s.Layout e.fmt e.t rows' ∧
    (rowsView e.t (e.t.keyFields - 1) rows').Perm (rowsView e.t (e.t.keyFields - 1) rows) ∧
    ∀ key, rowsView e.t (e.t.keyFields - 1) (rows'.filter fun r => e.rowIndex r.2 = key) =
      rowsView e.t (e.t.keyFields - 1) (rows.filter fun r => e.rowIndex r.2 = key)

/-- `KeyCompare` decides the order of the index values that the rows have in a tree. -/
def OrderedOn (e : Formats K) (rows : List (UInt8 × RowValue)) : Prop :=
  e.tree.OrderedOn {key | ∃ r ∈ rows, e.tree.index (e.treeRow r.2) = key}

/-- The rows that were read for the tree. -/
abbrev Reads (e : Formats K) (rows : List (UInt8 × RowValue)) (reads : List RowValue) : Prop :=
  List.Forall₂ (fun r read => rowView e.t 0 read = rowView e.t 0 (e.treeRow r.2)) rows reads

omit [LinearOrder K] in
theorem Reads.view (views : e.Reads rows reads) :
    rowsView e.t 0 (reads.map (Prod.mk operSelect)) = rowsView e.t 0 (e.treeRows rows) := by
  induction views with
  | nil => rfl
  | @cons r read rows reads view _ ih =>
    change (operSelect, rowView e.t 0 read) :: _ = (operSelect, rowView e.t 0 (e.treeRow r.2)) :: _
    rw [view]
    exact congrArg _ ih

omit [LinearOrder K] in
theorem index_treeRow {row read : RowValue} (view : rowView e.t 0 read = rowView e.t 0 (e.treeRow row)) :
    e.tree.index read = e.tree.index (e.treeRow row) := by
  have one : ttreeIndexPos = 1 := rfl
  have keys := e.keys
  have fields := e.fields
  exact e.field_congr _ _ (rowView_eq_iff.mp view ttreeIndexPos
    (mem_storedFields.mpr ⟨by omega, by omega, e.indexStored⟩))

omit [LinearOrder K] in
theorem Reads.index_mem (views : e.Reads rows reads) :
    ∀ read ∈ reads, ∃ r ∈ rows, e.tree.index (e.treeRow r.2) = e.tree.index read := by
  induction views with
  | nil => simp
  | @cons r read rows reads view _ ih =>
    intro row mem
    rcases mem_cons.mp mem with rfl | mem
    · exact ⟨r, mem_cons_self, (index_treeRow view).symm⟩
    · obtain ⟨q, hq, same⟩ := ih row mem
      exact ⟨q, mem_cons_of_mem _ hq, same⟩

omit [LinearOrder K] in
/-- With one key field flat data and trees store the same fields. -/
theorem treeRow_view (single : e.t.keyFields = 1) (row : RowValue) :
    rowView e.t 0 (e.treeRow row) = rowView e.t (e.t.keyFields - 1) row := by
  rw [single]
  refine rowView_eq_iff.mpr fun j mem => ?_
  obtain ⟨above, -, -⟩ := mem_storedFields.mp mem
  rw [treeRow, if_pos (by omega)]

/-- The index value is that of the row, so that the rows of an index value are those that were read
for it. -/
theorem Reads.filter (single : e.t.keyFields = 1) (views : e.Reads rows reads) (key : K) :
    e.Reads (rows.filter fun r => e.rowIndex r.2 = key)
      (reads.filter fun row => e.tree.index row = key) := by
  induction views with
  | nil => exact .nil
  | @cons r read rows reads view _ ih =>
    have one : ttreeIndexPos = 1 := rfl
    have index : e.tree.index read = e.rowIndex r.2 := by
      rw [index_treeRow view, tree, rowIndex, single]
      dsimp only
      rw [treeRow, if_pos (by omega), one]
    by_cases here : e.rowIndex r.2 = key
    · rw [filter_cons_of_pos (by simpa using here),
        filter_cons_of_pos (by simpa using index.trans here)]
      exact .cons view ih
    · rw [filter_cons_of_neg (by simpa using here),
        filter_cons_of_neg (by simpa using fun eq => here (index.symm.trans eq))]
      exact ih

omit [LinearOrder K] in
/-- The sizes that a tree counts for its rows. -/
theorem rowSizes_le (reads : List RowValue) : (reads.map e.tree.rowSize).sum ≤
    (rowsBytes e.fmt e.t 0 (reads.map (Prod.mk operSelect))).length := by
  rw [rowsBytes, length_flatMap, map_map]
  refine sum_le_sum fun row _ => ?_
  change RawData.calcRowSize e.t row 0 ≤ (rowBytes e.fmt e.t 0 operSelect row).length
  rw [RawData.calcRowSize_eq e.fmt e.t row 0 operSelect]
  exact Nat.mod_le _ _

section Steps
variable [Inhabited K] {treeAlloc : Tree.Allocator} {rawAlloc : Nat → Raw.Allocator}

/-- `copy_tree_all` inserts every row. -/
theorem copyTreeAll_eq (layout : s.Layout e.fmt e.t rows) (alloc : Tree.Allocator) :
    ∃ reads, e.Reads rows reads ∧
      ∀ tree, e.copyTreeAll alloc s tree = Tree.TreeData.copyTreeAll e.tree alloc reads tree := by
  have keys := e.keys
  have fields := e.fields
  have rewound := simulates_rewound (layout.moveCursor s.dataStart s.dataStart) rfl rfl
  obtain ⟨reads, views, copies⟩ := copyTreeRows_eq alloc [] ⟨0, rewound⟩
  refine ⟨reads, views, fun tree => ?_⟩
  rw [copyTreeAll, if_neg (by omega), layout.count_eq]
  by_cases none : rows.length = 0
  · obtain rfl := length_eq_zero_iff.mp none
    cases views
    rfl
  · rw [if_neg none]
    exact copies tree

/-- What both conversions together make of the rows. -/
structure Converted (e : Formats K) (rows : List (UInt8 × RowValue)) (reads : List RowValue)
    (kept : List (UInt8 × RowValue)) : Prop where
  views : e.Reads rows reads
  perm : kept.Perm (reads.map (Prod.mk operSelect))
  order : ∀ key, kept.filter (fun r => e.tree.index r.2 = key) =
    (reads.filter fun row => e.tree.index row = key).map (Prod.mk operSelect)

/-- The tree has the rows that were read, those of one index value in their order. -/
theorem copyTreeAll_converts (o : e.OrderedOn rows) (views : e.Reads rows reads)
    (small : Tree.recordHead + (rowsBytes e.fmt e.t 0 (e.treeRows rows)).length < 2 ^ 32) {calls : Nat}
    {tree : Tree.TreeData RowValue K}
    (copied : Tree.TreeData.copyTreeAll e.tree treeAlloc reads (Tree.TreeData.doInit calls) = (0, tree)) :
    (tree.nodeCount = 0 → records tree.root = []) ∧
      Converted e rows reads (flaggedRows (records tree.root)) := by
  have start : (Tree.TreeData.doInit calls : Tree.TreeData RowValue K).Good o.mended :=
    .doInit o.mended calls
  have filled : (Tree.TreeData.doInit calls : Tree.TreeData RowValue K).Filled := by
    simp [Tree.TreeData.Filled, Tree.TreeData.doInit, records]
  have spacious : Tree.Spacious e.tree (Tree.TreeData.doInit calls : Tree.TreeData RowValue K).rows reads := by
    have sizes := rowSizes_le (e := e) reads
    rw [rowsBytes_congr views.view] at sizes
    have none : ((Tree.TreeData.doInit calls : Tree.TreeData RowValue K).rows.map
        fun x => e.tree.rowSize x.row).sum = 0 := rfl
    rw [Tree.Spacious, none]
    omega
  rw [Tree.copyTreeAll_mended start filled (by simp [Tree.TreeData.doInit, records])
    views.index_mem] at copied
  obtain ⟨good, filled'⟩ := Tree.copyTreeAll_good treeAlloc start filled reads
  have all := Tree.copyTreeAll_ok treeAlloc start filled spacious
  have order := Tree.copyTreeAll_keyRows treeAlloc start filled spacious (by rw [copied])
  rw [copied] at good filled' all order
  dsimp only at good filled' all order
  have rows' : tree.rows = Tree.cleanRows reads := by
    obtain ⟨-, rows'⟩ | ⟨failed, -⟩ := all
    · rw [rows']
      exact zero_add _
    · exact absurd failed (by decide)
  have stored : (storedRows (records tree.root)).Perm (reads.map (StoredRow.mk operSelect)) :=
    Multiset.coe_eq_coe.mp rows'
  refine ⟨fun empty => ?_, views, ?_, fun key => ?_⟩
  · have few : tree.rows.card < 2 ^ 32 := by
      have least := length_le_rowsBytes e.fmt e.t 0 (reads.map (Prod.mk operSelect))
      rw [rowsBytes_congr views.view, length_map] at least
      rw [rows', Tree.cleanRows, Multiset.coe_card, length_map]
      omega
    have none : tree.rows = 0 := by
      by_contra some
      exact good.nodeCount_ne_zero filled' few some empty
    refine eq_nil_iff_forall_not_mem.mpr fun r mem => filled' r mem ?_
    exact flatMap_eq_nil_iff.mp (Multiset.coe_eq_zero _ |>.mp none) r mem
  · have perm := stored.map fun x => (x.flag, x.row)
    rw [map_map] at perm
    exact perm
  · have filter := congrArg (map fun x => (x.flag, x.row)) (good.filter_rows key)
    rw [order key, map_append, map_map] at filter
    rw [flaggedRows, filter_map]
    exact filter

omit [LinearOrder K] [Inhabited K] in
/-- With several key fields the rows of a tree are longer than those of flat data. -/
theorem treeRows_longer (several : 1 < e.t.keyFields) (some : rows ≠ []) :
    (rowsBytes e.fmt e.t (e.t.keyFields - 1) rows).length <
      (rowsBytes e.fmt e.t 0 (e.treeRows rows)).length := by
  have fields := e.fields
  have each : ∀ r : UInt8 × RowValue, (rowBytes e.fmt e.t (e.t.keyFields - 1) r.1 r.2).length <
      (rowBytes e.fmt e.t 0 operSelect (e.treeRow r.2)).length := by
    intro r
    have view : rowView e.t (e.t.keyFields - 1) r.2 = rowView e.t (e.t.keyFields - 1) (e.treeRow r.2) := by
      refine rowView_eq_iff.mpr fun j mem => ?_
      obtain ⟨above, -, -⟩ := mem_storedFields.mp mem
      rw [treeRow, if_pos (by omega)]
    rw [rowBytes_congr view]
    exact rowBytes_length_lt r.1 _ (by omega) (by omega) e.indexStored
  rw [rowsBytes, rowsBytes, treeRows, flatMap_map, length_flatMap, length_flatMap]
  exact sum_lt_sum_of_ne_nil some _ _ fun r _ => each r

omit [LinearOrder K] [Inhabited K] in
/-- Rows without flags come back as they were. -/
theorem treeRows_view (single : e.t.keyFields = 1) (clean : ∀ r ∈ rows, r.1 = operSelect) :
    rowsView e.t 0 (e.treeRows rows) = rowsView e.t (e.t.keyFields - 1) rows := by
  rw [rowsView, treeRows, map_map, rowsView]
  refine map_congr_left fun r mem => ?_
  rw [← treeRow_view single, clean r mem]
  rfl

omit [Inhabited K] in
/-- The converted rows are the old ones iff nothing was there, or the key has one field and no row
had a flag. -/
theorem Converted.returns_iff {kept : List (UInt8 × RowValue)} {back : RawData}
    (converted : Converted e rows reads kept) (carries : Carries e.fmt e.t back kept)
    (start : back.dataStart = s.dataStart) (layout : s.Layout e.fmt e.t rows) :
    e.Returns rows back ↔ rows = [] ∨ e.t.keyFields = 1 ∧ ∀ r ∈ rows, r.1 = operSelect := by
  have keys := e.keys
  have index := carries.keyIndex
  have view : (rowsView e.t 0 kept).Perm (rowsView e.t 0 (e.treeRows rows)) :=
    converted.views.view ▸ converted.perm.map _
  have flat : e.t.keyFields = 1 → back.Layout e.fmt e.t kept := by
    intro single
    have zero : back.keyIndex = 0 := by omega
    refine ⟨carries.toHeader, zero ▸ carries.holds, zero ▸ carries.size_eq, carries.count_eq, ?_⟩
    intro r mem
    have seen := view.subset (mem_map_of_mem mem)
    obtain ⟨_, inserted, eq⟩ := mem_map.mp seen
    obtain ⟨r', mem', rfl⟩ := mem_map.mp inserted
    have same := (treeRow_view single r'.2).symm.trans (Prod.mk.inj eq).2
    rw [single] at same
    rw [zero]
    have fits := layout.fits r' mem'
    rw [layout.keyIndex, single] at fits
    exact rowFits_congr same fits
  constructor
  · rintro ⟨rows', layout', perm, -⟩
    by_cases some : rows = []
    · exact .inl some
    have single : e.t.keyFields = 1 := by
      by_contra several
      have longer := treeRows_longer (e := e) (by omega) some
      have size := carries.size_eq
      have size' := layout'.size_eq
      rw [layout'.keyIndex, rowsBytes_length_perm perm] at size'
      rw [rowsBytes_length_perm view] at size
      omega
    refine .inr ⟨single, fun r mem => ?_⟩
    have unique := (flat single).view_unique layout'
    rw [single] at perm unique
    have seen := view.subset (unique ▸ perm.symm.subset (mem_map_of_mem mem))
    obtain ⟨_, mem', eq⟩ := mem_map.mp seen
    obtain ⟨r', -, rfl⟩ := mem_map.mp mem'
    exact (Prod.mk.inj eq).1.symm
  · rintro (rfl | ⟨single, clean⟩)
    · obtain rfl := forall₂_nil_left_iff.mp converted.views
      obtain rfl := perm_nil.mp converted.perm
      exact ⟨[], { carries with fits := fun r mem => absurd mem not_mem_nil }, .nil, fun _ => rfl⟩
    · refine ⟨kept, flat single, ?_, fun key => ?_⟩
      · rw [← treeRows_view single clean, single]
        exact view
      · have index : ∀ row, e.rowIndex row = e.tree.index row := by
          intro row
          rw [rowIndex, single]
          rfl
        have order := converted.order key
        rw [← treeRows_view single fun r mem => clean r (mem_of_mem_filter mem),
          ← (converted.views.filter single key).view, ← order, single]
        simp only [index]

omit [LinearOrder K] [Inhabited K] in
/-- The bytes of the rows in the tree, for one key field. -/
theorem treeRows_length (single : e.t.keyFields = 1) (layout : s.Layout e.fmt e.t rows) :
    s.dataStart + (rowsBytes e.fmt e.t 0 (e.treeRows rows)).length = s.dataSize := by
  have length : ∀ r : UInt8 × RowValue, (rowBytes e.fmt e.t 0 operSelect (e.treeRow r.2)).length =
      (rowBytes e.fmt e.t s.keyIndex r.1 r.2).length := by
    intro r
    have view := treeRow_view single r.2
    rw [layout.keyIndex]
    rw [single] at view ⊢
    rw [rowBytes_congr view]
    rfl
  rw [layout.size_eq, treeRows, rowsBytes, rowsBytes, flatMap_map, length_flatMap, length_flatMap]
  simp only [length]

section Convert
variable (e) (treeAlloc) (rawAlloc) (calls : Nat) (layout : s.Layout e.fmt e.t rows)
  (fresh : new.Layout e.fmt e.t []) (start : new.dataStart = s.dataStart)
  (room : 1 < e.t.keyFields →
    s.dataStart + (rowsBytes e.fmt e.t 0 (e.treeRows rows)).length < 2 ^ 32)
  (made : (e.copyTreeAll treeAlloc s (Tree.TreeData.doInit calls)).1 = 0)
  (back : (e.copyRawAll rawAlloc (e.copyTreeAll treeAlloc s (Tree.TreeData.doInit calls)).2 new).1 ∈
    [(0 : Int), 1])
include layout fresh start room made back

/-- The rows that are in flat data after both conversions. -/
theorem convert_carries (o : e.OrderedOn rows) : ∃ reads kept, Converted e rows reads kept ∧
    Carries e.fmt e.t
      (e.copyRawAll rawAlloc (e.copyTreeAll treeAlloc s (Tree.TreeData.doInit calls)).2 new).2 kept ∧
    (e.copyRawAll rawAlloc (e.copyTreeAll treeAlloc s (Tree.TreeData.doInit calls)).2 new).2.dataStart =
      s.dataStart := by
  have keys := e.keys
  have above := layout.start_lt
  have small : s.dataStart + (rowsBytes e.fmt e.t 0 (e.treeRows rows)).length < 2 ^ 32 := by
    by_cases several : 1 < e.t.keyFields
    · exact room several
    · rw [treeRows_length (by omega) layout]
      have inside := layout.inside
      have range := layout.range
      omega
  obtain ⟨reads, views, copies⟩ := copyTreeAll_eq layout treeAlloc
  rw [copies] at made back ⊢
  generalize copied : Tree.TreeData.copyTreeAll e.tree treeAlloc reads (Tree.TreeData.doInit calls) = result at *
  obtain ⟨code, tree⟩ := result
  obtain rfl : code = 0 := made
  have head : Tree.recordHead = 9 := rfl
  obtain ⟨empty, converted⟩ := copyTreeAll_converts o views (by omega) copied
  have length : (rowsBytes e.fmt e.t 0 (flaggedRows (records tree.root))).length =
      (rowsBytes e.fmt e.t 0 (e.treeRows rows)).length :=
    rowsBytes_length_perm (views.view ▸ converted.perm.map _)
  have none : Carries e.fmt e.t new [] := { fresh with }
  have size := none.size_eq
  have zero : (rowsBytes e.fmt e.t 0 []).length = 0 := rfl
  obtain ⟨carries, start'⟩ := copyRawAll_ok none empty (by omega) (by simpa using back)
  exact ⟨reads, _, converted, carries, start'.trans start⟩

theorem convert_ordered (o : e.OrderedOn rows) :
    e.Returns rows
        (e.copyRawAll rawAlloc (e.copyTreeAll treeAlloc s (Tree.TreeData.doInit calls)).2 new).2 ↔
      rows = [] ∨ e.t.keyFields = 1 ∧ ∀ r ∈ rows, r.1 = operSelect := by
  obtain ⟨reads, kept, converted, carries, start'⟩ :=
    convert_carries e treeAlloc rawAlloc calls layout fresh start room made back o
  exact converted.returns_iff carries start' layout

end Convert

end Steps

/-! ### Rows with one binary field -/

/-- The table of binary fields, ordered by their length. -/
def blobs : Formats Nat where
  fmt := halfFormat
  t := blobTable
  keys := le_rfl
  fields := le_rfl
  indexStored := rfl
  defaults := blobRow none
  field v := v.bin.1.length
  field_congr a b same := by
    rw [FieldValue.bin.inj (show FieldValue.bin a.bin = FieldValue.bin b.bin from same)]
  keyCompare := Tree.numberTable.keyCompare

theorem blobs_ordered (rows : List (UInt8 × RowValue)) : blobs.OrderedOn rows :=
  ⟨fun a _ b _ => Tree.numberTable_ordered.neg a b, fun a _ b _ => Tree.numberTable_ordered.zero a b,
    fun a _ => Tree.numberTable_ordered.self a⟩

/-- A table with two integer key fields and a binary field. -/
def twoKeys : Formats Nat where
  fmt := halfFormat
  t := ⟨2, 2, 8, fun i => if i < 2 then ⟨.signed, 4, false⟩ else ⟨.binary, 16, false⟩⟩
  keys := by decide
  fields := le_rfl
  indexStored := rfl
  defaults := blobRow none
  field v := v.num.toNat
  field_congr a b same := by
    rw [FieldValue.num.inj (show FieldValue.num a.num = FieldValue.num b.num from same)]
  keyCompare := Tree.numberTable.keyCompare

theorem twoKeys_ordered (rows : List (UInt8 × RowValue)) : twoKeys.OrderedOn rows :=
  ⟨fun a _ b _ => Tree.numberTable_ordered.neg a b, fun a _ b _ => Tree.numberTable_ordered.zero a b,
    fun a _ => Tree.numberTable_ordered.self a⟩

/-- A chunk for a key of two fields. -/
def pairKeyChunk : RawData :=
  (RawData.init 1 8 [1, 0, 0, 0, 5, 0, 0, 0] 0 0 0 slackAllocator).toOption.get (by decide)

/-- A clean row of it. -/
def pairKeyNode : RawData :=
  (pairKeyChunk.insertRowFlag halfFormat twoKeys.t (blobRow none) false operSelect
    slackAllocator true).2

theorem pairKeyChunk_layout : pairKeyChunk.Layout halfFormat twoKeys.t [] := by
  have start : Simulates halfFormat twoKeys.t pairKeyChunk ⟨[], 0, 0, false⟩ :=
    init_simulates rfl (by decide) le_rfl
      (show RawData.init 1 8 [1, 0, 0, 0, 5, 0, 0, 0] 0 0 0 slackAllocator = .ok pairKeyChunk from rfl)
  exact start.layout

theorem pairKeyNode_layout :
    pairKeyNode.Layout halfFormat twoKeys.t [(operSelect, blobRow none)] :=
  pairKeyChunk_layout.inserted (by decide) (by decide +kernel)

end Formats

end Dtc.Data
