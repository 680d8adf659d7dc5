import Dtc.Raw.TreeRow

/-!
# The time stamps of a row

`get_expire_time` and `get_lastcmod` step over the fields in front of the stamp they read. The
loop of the latter leaves out the fields that are not stored, that of the former does not, and
both read four bytes whatever the size of the field is. `TreeData::get_expire_time` has the loop of
`get_expire_time`, but begins at the header of the record instead of its first row.
-/

namespace Dtc.Raw

open Library Memory List

namespace RawData

section
variable (t : TableDefinition) (lastcmodId : Option Nat)

/-- The loop of `get_expire_time`. -/
def expireLoop (expireId : Nat) : List Nat → RawData → Except RawData (Nat × RawData)
  | [], s => .ok (0, s)
  | j :: js, s =>
    if j = expireId then .ok (load s.mem s.offset 4, s)
    else skipField (t.field j) s >>= expireLoop expireId js

/-- `get_expire_time`; a table without the field has the number `-1` for it. -/
def getExpireTime (expireId : Option Nat) (s : RawData) : Int × Nat :=
  match expireId with
  | none => (0, 0)
  | some expireId =>
    match s.skipSize 1 >>= expireLoop t expireId (rowFields s.keyIndex t.numFields) with
    | .ok (expire, _) => (0, expire)
    | .error _ => (-100, 0)

/-- `TreeData::get_expire_time`: `first` is the record of the first item of the root, which is
read from its first byte on, where its type and its sizes are. -/
def getTreeExpireTime (expireId : Option Nat) (first : Option RawData) : Int × Nat :=
  match expireId, first with
  | none, _ => (0, 0)
  | some _, none => (-1, 0)
  | some expireId, some s => getExpireTime t (some expireId) { s with offset := 0 }

/-- The loop of `get_lastcmod`. -/
def lastcmodLoop : List Nat → Nat → RawData → Except RawData (Nat × RawData)
  | [], lastcmod, s => .ok (lastcmod, s)
  | j :: js, lastcmod, s =>
    if (t.field j).discard then lastcmodLoop js lastcmod s
    else
      let lastcmod := if lastcmodId = some j then load s.mem s.offset 4 else lastcmod
      skipField (t.field j) s >>= lastcmodLoop js lastcmod

/-- `get_lastcmod` -/
def getLastcmod (s : RawData) : Except RawData (Nat × RawData) :=
  { s with rowOffset := s.offset }.skipSize 1 >>=
    lastcmodLoop t lastcmodId (rowFields s.keyIndex t.numFields) 0

/-- The loop of `BufferPond::get_cmodtime` over the rows of a node. -/
def getCmodtime : Nat → Nat → RawData → Nat
  | 0, lastcmod, _ => lastcmod
  | n + 1, lastcmod, s =>
    match getLastcmod t lastcmodId s with
    | .ok (thisRow, s) => getCmodtime n (max lastcmod thisRow) s
    | .error _ => 0

/-- The table with every field stored. -/
def undropped : TableDefinition :=
  { t with field := fun j => { t.field j with discard := false } }

/-- Behind a flag byte and all fields in front of a field, dropped ones included, stands this
number. -/
def StandsAt (e v : Nat) (s : RawData) : Prop :=
  ∃ s', (s.skipSize 1 >>= skipFields (undropped t) (rowFields s.keyIndex (e - 1))) = .ok s' ∧
    load s'.mem s'.offset 4 = v

/-- The bytes that a number takes. -/
def numberSize (f : FieldDefinition) : Nat := if 4 < f.fieldSize then 8 else 4

def IsNumber (f : FieldDefinition) : Prop :=
  f.fieldType = .signed ∨ f.fieldType = .unsigned ∨ f.fieldType = .float

/-- The record with its first row at the cursor, behind type, data size and number of rows. -/
def atFirstRow (record : RawData) : RawData := { record with offset := 1 + 4 + 4 }

/-- The value of a field of a row as a time stamp. -/
def stamp (j : Nat) (row : RowValue) : Nat := (row j).num.toNat

/-- The latest of the stamps in a field. -/
def latest (j : Nat) (rows : List (UInt8 × RowValue)) : Nat :=
  (rows.map fun r => stamp j r.2).foldr max 0

/-- A field with a time stamp: it is stored, as an integer. -/
structure IsStamp (keyIndex j : Nat) : Prop where
  inside : j ∈ rowFields keyIndex t.numFields
  stored : (t.field j).discard = false
  integer : (t.field j).fieldType = .signed ∨ (t.field j).fieldType = .unsigned

end

variable {fmt : FloatFormat} {t : TableDefinition} {s : RawData} {row : RowValue} {e l : Nat}
  {js : List Nat}

/-- The four bytes at an integer are its lower half. -/
theorem load_stamp (integer : (t.field e).fieldType = .signed ∨ (t.field e).fieldType = .unsigned)
    (reads : Reads s (fieldBytes fmt (t.field e) (row e))) :
    load s.mem s.offset 4 = stamp e row % 2 ^ 32 := by
  have half : Holds s.mem s.offset (leBytes 4 (stamp e row)) := by
    have holds := reads.holds
    have bytes : fieldBytes fmt (t.field e) (row e) = if 4 < (t.field e).fieldSize then
        leBytes 8 (stamp e row) else leBytes 4 (stamp e row) := by
      unfold fieldBytes
      rcases integer with type | type <;> rw [type] <;> rfl
    rw [bytes] at holds
    split_ifs at holds
    · simp only [leBytes_succ' 7, leBytes_succ' 6, leBytes_succ' 5, leBytes_succ' 4,
        append_assoc] at holds
      exact (holds_append.mp holds).1
    · exact holds
  rw [Holds, length_leBytes] at half
  rw [load, half]
  exact leNat_leBytes 4 _

/-- The loop of `get_expire_time` skips as in a table without dropped fields. -/
theorem expireLoop_append {pre post : List Nat} (fresh : e ∉ pre) :
    expireLoop t e (pre ++ e :: post) s =
      skipFields (undropped t) pre s >>= fun s' => .ok (load s'.mem s'.offset 4, s') := by
  induction pre generalizing s with
  | nil =>
    rw [nil_append, expireLoop, if_pos rfl]
    rfl
  | cons j pre ih =>
    obtain ⟨other, fresh⟩ := not_or.mp (mem_cons.not.mp fresh)
    rw [cons_append, expireLoop, if_neg (Ne.symm other), skipFields, if_neg (by simp [undropped])]
    change (skipField (t.field j) s).bind _ = ((skipField (t.field j) s).bind _).bind _
    cases skipField (t.field j) s with
    | error s' => rfl
    | ok s' => exact ih fresh

/-- The fields of a row up to one of them. -/
theorem rowFields_split {k n : Nat} (mem : e ∈ rowFields k n) :
    rowFields k n = rowFields k (e - 1) ++ e :: rowFields e n := by
  obtain ⟨low, high⟩ := mem_range'_1.mp mem
  unfold rowFields
  rw [← range'_succ]
  have start : k + 1 + (e - 1 - k) = e := by omega
  have total : n - k = e - 1 - k + (n - e + 1) := by omega
  rw [total, ← range'_append_1, start]

theorem rowFields_lt {k j : Nat} (mem : j ∈ rowFields k (e - 1)) : j < e := by
  obtain ⟨low, high⟩ := mem_range'_1.mp mem
  omega

/-- `get_expire_time` returns the number that stands at the field. -/
theorem getExpireTime_iff (inside : e ∈ rowFields s.keyIndex t.numFields) (v : Nat) :
    getExpireTime t (some e) s = (0, v) ↔ StandsAt t e v s := by
  unfold getExpireTime StandsAt
  rw [rowFields_split inside]
  cases s.skipSize 1 with
  | error s₁ => exact ⟨fun eq => absurd (Prod.mk.inj eq).1 (by decide), fun ⟨_, eq, _⟩ => nomatch eq⟩
  | ok s₁ =>
    simp only [bind, Except.bind]
    rw [expireLoop_append fun mem => absurd (rowFields_lt mem) (lt_irrefl e)]
    cases skipFields (undropped t) (rowFields s.keyIndex (e - 1)) s₁ with
    | error s₂ =>
      exact ⟨fun eq => absurd (Prod.mk.inj eq).1 (by decide), fun ⟨_, eq, _⟩ => nomatch eq⟩
    | ok s₂ =>
      constructor
      · intro eq
        exact ⟨s₂, rfl, (Prod.mk.inj eq).2⟩
      · rintro ⟨s', eq, rfl⟩
        rw [← Except.ok.inj eq]
        rfl

theorem skipFields_undropped (kept : ∀ j ∈ js, (t.field j).discard = false) :
    skipFields (undropped t) js s = skipFields t js s := by
  induction js generalizing s with
  | nil => rfl
  | cons j js ih =>
    obtain ⟨here, kept⟩ := forall_mem_cons.mp kept
    rw [skipFields, skipFields, here, if_neg (by simp [undropped]), if_neg Bool.false_ne_true]
    exact bind_congr fun s' => ih kept

/-- With all fields in front stored, the lower half of the stamp stands there. -/
theorem standsAt_iff {flag : UInt8} (reads : Reads s (rowBytes fmt t s.keyIndex flag row))
    (stamped : IsStamp t s.keyIndex e)
    (kept : ∀ j ∈ rowFields s.keyIndex (e - 1), (t.field j).discard = false) (v : Nat) :
    StandsAt t e v s ↔ stamp e row % 2 ^ 32 = v := by
  obtain ⟨head, rest⟩ := reads_append.mp (show Reads s
    ([flag] ++ fieldsBytes fmt t row (rowFields s.keyIndex t.numFields)) from reads)
  rw [rowFields_split stamped.inside, fieldsBytes_append, fieldsBytes_stored stamped.stored] at rest
  obtain ⟨front, rest⟩ := reads_append.mp rest
  have number := load_stamp stamped.integer (reads_append.mp rest).1
  have skipped : (s.skipSize 1 >>= skipFields (undropped t) (rowFields s.keyIndex (e - 1))) =
      .ok ((s.advance 1).advance (fieldsBytes fmt t row (rowFields s.keyIndex (e - 1))).length) := by
    rw [head.skipSize (n := 1) rfl]
    exact (skipFields_undropped kept).trans (skipFields_spec front)
  unfold StandsAt
  rw [skipped, ← number]
  constructor
  · rintro ⟨s', eq, rfl⟩
    rw [← Except.ok.inj eq]
    rfl
  · rintro rfl
    exact ⟨_, rfl, rfl⟩

theorem skipFields_numbers (numbers : ∀ j ∈ js, IsNumber (t.field j)) (inside : s.offset ≤ s.size)
    (s' : RawData) :
    skipFields (undropped t) js s = .ok s' ↔
      s.offset + (js.map fun j => numberSize (t.field j)).sum ≤ s.size ∧
        s' = s.advance (js.map fun j => numberSize (t.field j)).sum := by
  induction js generalizing s with
  | nil =>
    rw [skipFields, map_nil, sum_nil, Except.ok.injEq, and_iff_right (by exact inside), eq_comm]
    rfl
  | cons j js ih =>
    obtain ⟨number, numbers⟩ := forall_mem_cons.mp numbers
    have first : skipField (t.field j) s = s.skipSize (numberSize (t.field j)) := by
      unfold skipField numberSize
      rcases number with type | type | type <;> rw [type] <;> exact (apply_ite s.skipSize _ _ _).symm
    rw [skipFields, if_neg (by simp [undropped]), map_cons, sum_cons]
    change (skipField (t.field j) s).bind _ = _ ↔ _
    rw [first, skipSize]
    split_ifs with short
    · refine iff_of_false (fun eq => ?_) fun held => absurd held.1 (by omega)
      cases eq
    · have rest := ih (s := s.advance (numberSize (t.field j))) numbers (not_lt.mp short)
      refine rest.trans ?_
      rw [advance_advance]
      exact and_congr_left fun _ => by simp only [advance]; omega

/-- Behind numbers the place is known. -/
theorem standsAt_numbers (numbers : ∀ j ∈ rowFields s.keyIndex (e - 1), IsNumber (t.field j)) (v : Nat) :
    let place := s.offset + 1 + ((rowFields s.keyIndex (e - 1)).map fun j => numberSize (t.field j)).sum
    StandsAt t e v s ↔ place ≤ s.size ∧ load s.mem place 4 = v := by
  intro place
  unfold StandsAt
  rw [skipSize]
  split_ifs with short
  · refine iff_of_false (fun stands => ?_) fun held => absurd held.1 (by omega)
    obtain ⟨_, eq, _⟩ := stands
    cases eq
  · have skip := skipFields_numbers (s := s.advance 1) numbers (not_lt.mp short)
    constructor
    · rintro ⟨s', eq, rfl⟩
      obtain ⟨room, rfl⟩ := (skip s').mp eq
      exact ⟨room, rfl⟩
    · rintro ⟨room, rfl⟩
      exact ⟨_, (skip _).mpr ⟨room, rfl⟩, rfl⟩

theorem lastcmodLoop_spec (reads : Reads s (fieldsBytes fmt t row js)) (nodup : js.Nodup)
    (stamped : IsStamp t s.keyIndex l) (n : Nat) :
    lastcmodLoop t (some l) js n s = .ok (if l ∈ js then stamp l row % 2 ^ 32 else n,
      s.advance (fieldsBytes fmt t row js).length) := by
  induction js generalizing s n with
  | nil => rfl
  | cons j js ih =>
    obtain ⟨fresh, nodup⟩ := nodup_cons.mp nodup
    rw [lastcmodLoop]
    cases h : (t.field j).discard with
    | true =>
      have other : l ≠ j := by
        rintro rfl
        exact absurd (stamped.stored.symm.trans h) (by decide)
      rw [fieldsBytes_discard h] at reads ⊢
      rw [if_pos rfl, ih reads nodup stamped]
      simp only [mem_cons, other, false_or]
    | false =>
      rw [fieldsBytes_stored h, reads_append] at reads
      rw [if_neg Bool.false_ne_true, skipField_spec reads.1]
      refine (ih reads.2 nodup stamped _).trans ?_
      rw [fieldsBytes_stored h, length_append, advance_advance]
      by_cases here : l = j
      · subst here
        simp [fresh, load_stamp stamped.integer reads.1]
      · simp [here]

variable {flag : UInt8} {rows : List (UInt8 × RowValue)}

theorem getLastcmod_spec (reads : Reads s (rowBytes fmt t s.keyIndex flag row))
    (stamped : IsStamp t s.keyIndex l) :
    getLastcmod t (some l) s = .ok (stamp l row % 2 ^ 32,
      { s with rowOffset := s.offset }.advance (rowBytes fmt t s.keyIndex flag row).length) := by
  obtain ⟨first, rest⟩ := reads_append.mp (show Reads { s with rowOffset := s.offset }
    ([flag] ++ fieldsBytes fmt t row (rowFields s.keyIndex t.numFields)) from
    { reads with })
  have loop := lastcmodLoop_spec rest (rowFields_nodup _ _) (l := l) stamped 0
  rw [if_pos stamped.inside, advance_advance] at loop
  rw [getLastcmod, first.skipSize (n := 1) rfl]
  refine loop.trans ?_
  rw [Nat.add_comm]
  rfl

theorem getCmodtime_spec (reads : Reads s (rowsBytes fmt t s.keyIndex rows))
    (stamped : IsStamp t s.keyIndex l) (n : Nat) :
    getCmodtime t (some l) rows.length n s =
      max n ((rows.map fun r => stamp l r.2 % 2 ^ 32).foldr max 0) := by
  induction rows generalizing s n with
  | nil => exact (Nat.max_zero n).symm
  | cons r rows ih =>
    obtain ⟨first, rest⟩ := reads_append.mp reads
    rw [length_cons, getCmodtime, getLastcmod_spec first stamped]
    refine (ih (s := { s with rowOffset := s.offset }.advance _) { rest with } stamped _).trans ?_
    rw [map_cons, foldr_cons, max_assoc]

/-- The lower halves of some numbers have the same maximum if and only if they are the numbers. -/
theorem foldr_max_mod {ns : List Nat} {m : Nat} (positive : 0 < m) :
    (ns.map (· % m)).foldr max 0 = ns.foldr max 0 ↔ ∀ n ∈ ns, n < m := by
  constructor
  · intro same n mem
    have less : (ns.map (· % m)).foldr max ⊥ ≤ m - 1 := by
      refine max_le_of_forall_le _ _ fun k hk => ?_
      obtain ⟨n, -, rfl⟩ := mem_map.mp hk
      exact Nat.le_sub_one_of_lt (Nat.mod_lt n positive)
    have most : n ≤ ns.foldr max ⊥ := le_max_of_le mem le_rfl
    have : (ns.map (· % m)).foldr max ⊥ = ns.foldr max ⊥ := same
    omega
  · intro small
    rw [map_congr_left fun n mem => Nat.mod_eq_of_lt (small n mem), map_id']

/-- The stored fields of a row determine its stamps. -/
theorem stamp_of_view {row' : RowValue} {k j : Nat} (view : rowView t k row' = rowView t k row)
    (stamped : IsStamp t k j) : stamp j row' = stamp j row := by
  have member := map_inj_left.mp view j
    (mem_filter.mpr ⟨stamped.inside, by simp [stamped.stored]⟩)
  unfold FieldDefinition.member at member
  rcases stamped.integer with type | type <;>
  · rw [type] at member
    exact congrArg BitVec.toNat (FieldValue.num.inj member)

/-- The functions return what `decode_row` yields, of the first row and over the rows: `get_lastcmod`
exactly if that has 32 bits, `get_expire_time` exactly if it stands behind all fields in front of it,
dropped ones included, and `TreeData::get_expire_time` exactly if it stands there counted from the
header of the record. -/
theorem times_agree_iff (reads : Reads s (rowsBytes fmt t s.keyIndex ((flag, row) :: rows)))
    (fits : RowFits fmt t s.keyIndex row) (expire : IsStamp t s.keyIndex e)
    (change : IsStamp t s.keyIndex l) (old : RowValue) {record : RawData} {treeFlag : UInt8}
    {treeRow : RowValue} (first : Reads record.atFirstRow (rowBytes fmt t 0 treeFlag treeRow))
    (treeFits : RowFits fmt t 0 treeRow) (treeExpire : e ∈ rowFields record.keyIndex t.numFields) :
    (∃ row' s', decodeRow fmt t s old false = (0, flag, row', s') ∧
      (getExpireTime t (some e) s = (0, stamp e row') ↔ StandsAt t e (stamp e row') s) ∧
      ((∀ j ∈ rowFields s.keyIndex (e - 1), (t.field j).discard = false) →
        (StandsAt t e (stamp e row') s ↔ stamp e row' < 2 ^ 32)) ∧
      ((∃ s', getLastcmod t (some l) s = .ok (stamp l row', s')) ↔ stamp l row' < 2 ^ 32) ∧
      (getCmodtime t (some l) (rows.length + 1) 0 s = latest l ((flag, row) :: rows) ↔
        ∀ r ∈ (flag, row) :: rows, stamp l r.2 < 2 ^ 32)) ∧
    ∃ row' s', decodeTreeRow fmt t record.atFirstRow old = (0, treeFlag, row', s') ∧
      (getTreeExpireTime t (some e) (some record) = (0, stamp e row') ↔
        StandsAt t e (stamp e row') { record with offset := 0 }) ∧
      ((∀ j ∈ rowFields record.keyIndex (e - 1), IsNumber (t.field j)) →
        let place := 1 + ((rowFields record.keyIndex (e - 1)).map fun j => numberSize (t.field j)).sum
        (StandsAt t e (stamp e row') { record with offset := 0 } ↔
          place ≤ record.size ∧ load record.mem place 4 = stamp e row')) := by
  constructor
  · have here := (reads_append.mp reads).1
    obtain ⟨row', decoded, view⟩ := decodeRow_spec fits here old false
    refine ⟨row', _, decoded, getExpireTime_iff expire.inside _, fun kept => ?_, ?_, ?_⟩
    · rw [standsAt_iff here expire kept, stamp_of_view view expire, Nat.mod_eq_iff_lt (by decide)]
    · rw [getLastcmod_spec here change, stamp_of_view view change, ← Nat.mod_eq_iff_lt (by decide)]
      constructor
      · rintro ⟨s', eq⟩
        exact (Prod.mk.inj (Except.ok.inj eq)).1
      · intro eq
        exact ⟨_, by rw [eq]⟩
    · have run := getCmodtime_spec reads change 0
      rw [length_cons, Nat.zero_max] at run
      have exact_iff := @foldr_max_mod (((flag, row) :: rows).map fun r => stamp l r.2)
        (2 ^ 32) (by decide)
      rw [map_map, forall_mem_map] at exact_iff
      rw [run]
      exact exact_iff
  · obtain ⟨row', s', decoded, -⟩ := decodeTreeRow_spec treeFits first old
    refine ⟨row', s', decoded, getExpireTime_iff (s := { record with offset := 0 }) treeExpire _,
      fun numbers => ?_⟩
    have place := standsAt_numbers (s := { record with offset := 0 }) numbers (stamp e row')
    rwa [Nat.zero_add] at place

/-- A table with an expire time in field 3 and a time of change in field 4, behind a field that
may have been dropped. -/
def stampTable (dropped : Bool) : TableDefinition :=
  ⟨1, 4, 4, fun j => ⟨.unsigned, 4, dropped && j == 2⟩⟩

def stampRow : RowValue := fun j => ⟨BitVec.ofNat 64 (10 * j), ⟨[], nil_short⟩⟩

/-- A chunk of a table with one key field that holds some bytes. -/
def chunkOf (bytes : List UInt8) : RawData :=
  ⟨store (fun _ => 0) 0 bytes, 64, 0, 1, 0, 4, 0, 0, 0, 0⟩

def stampNode (dropped : Bool) : RawData :=
  chunkOf (rowBytes halfFormat (stampTable dropped) 0 7 stampRow)

/-- A record of a tree with the same row. -/
def stampRecord : RawData :=
  chunkOf ([2] ++ leBytes 4 26 ++ leBytes 4 1 ++ rowBytes halfFormat (stampTable false) 0 7 stampRow)

theorem times_agree_stamps :
    getExpireTime (stampTable false) (some 3) (stampNode false) = (0, 30) ∧
      getCmodtime (stampTable false) (some 4) 1 0 (stampNode false) = 40 := by
  have reads : Reads (stampNode false) (rowsBytes halfFormat (stampTable false)
      (stampNode false).keyIndex [(7, stampRow)]) := by
    refine ⟨?_, by decide, by decide⟩
    rw [Holds]
    decide
  have first : Reads stampRecord.atFirstRow (rowBytes halfFormat (stampTable false) 0 7 stampRow) := by
    refine ⟨?_, by decide, by decide⟩
    rw [Holds]
    decide
  obtain ⟨⟨row', s', decoded, expire, place, -, change⟩, -⟩ := times_agree_iff (e := 3) (l := 4) reads
    (by decide) ⟨by decide, rfl, .inr rfl⟩ ⟨by decide, rfl, .inr rfl⟩ stampRow first (by decide)
    (by decide)
  have read : stamp 3 row' = 30 := by
    rw [show row' = (decodeRow halfFormat (stampTable false) (stampNode false) stampRow false).2.2.1
      by rw [decoded]]
    decide
  rw [read] at expire place
  exact ⟨expire.mpr ((place (by decide)).mpr (by decide)), change.mpr (by decide)⟩

/-- With the field dropped the time of change is returned for the expire time; and for a row in a
record of a tree whose expire time is 20, the number of rows in its header is. -/
theorem expireTime_differs :
    stamp 3 (decodeRow halfFormat (stampTable true) (stampNode true) stampRow false).2.2.1 = 30 ∧
      getExpireTime (stampTable true) (some 3) (stampNode true) = (0, 40) ∧
      stamp 2 (decodeTreeRow halfFormat (stampTable false) stampRecord.atFirstRow stampRow).2.2.1 = 20 ∧
      getTreeExpireTime (stampTable false) (some 2) (some stampRecord) = (0, 1) := by
  decide

end RawData

end Dtc.Raw
