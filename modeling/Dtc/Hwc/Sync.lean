import Dtc.Hwc.Record
import Dtc.Library.Machine

/-!
# The hot/cold synchroniser

`HwcSync::Run` asks the hot server for the next records of its journal, brings the cold database up
to date with them, and saves the journal position behind them. The position is saved for the whole
batch, after a loop that may have ended early.

The cold database is the environment: what it answers to a statement and to a query, and how the
query changes it. A turn of `Run` that is left with `return`, that is still retrying a statement, or
that runs into undefined behaviour does not save a position; a later turn starts at the saved one
again. Log messages, pauses and the check of the creation time are left out.
-/

namespace Dtc.Hwc

open Library Packet List

/-- A record of the journal. -/
structure Record where
  type : Nat
  key : List UInt8
  value : List UInt8
  deriving DecidableEq

/-- `DTCHotBackup::SYNC_NONE`: the type of the records of writes. -/
def syncNone : Nat := 256

def Record.IsWrite (r : Record) : Prop := r.type = syncNone

instance (r : Record) : Decidable r.IsWrite := inferInstanceAs (Decidable (_ = _))

/-! ### The cold database -/

/-- `s_sql.replace` at the first place where `s_sql.find` finds the name. -/
def replaceFirst (old new : List UInt8) : List UInt8 → List UInt8
  | [] => if old = [] then new else []
  | c :: cs =>
    if old.isPrefixOf (c :: cs) then new ++ (c :: cs).drop old.length
    else c :: replaceFirst old new cs

variable {σ φ : Type} {t : TableDefinition}

/-- The cold database, and how statements are sent to it. -/
structure Cold (σ φ : Type) (t : TableDefinition) where
  /-- `depoly & 2`: the table is split -/
  split : Bool
  tableName : List UInt8
  /-- the table that `init_table_name` finds for a key -/
  tableOf : List UInt8 → List UInt8
  /-- what the database answers to a statement for the database of a key -/
  execute : σ → List UInt8 → List UInt8 → Int × σ
  /-- the rows of a key, `none` if there is no result set -/
  query : σ → List UInt8 → Option (List (RowValue φ t)) × σ

/-- `ER_DUP_ENTRY` -/
def erDupEntry : Int := 1062

/-- What has been done for a record. -/
inductive Event (φ : Type) (t : TableDefinition)
  /-- a statement, for a key, and what the database answered -/
  | statement (key sql : List UInt8) (result : Int)
  /-- the rows of a key that were compared with those of the record -/
  | rows (key : List UInt8) (cold : List (RowValue φ t))

section Statements
variable (db : Cold σ φ t)

/-- The statement that `process_statement_query` sends; it is written to the caller's string. -/
def Cold.route (key sql : List UInt8) : List UInt8 :=
  if db.split then replaceFirst db.tableName (db.tableOf key) sql else sql

/-- `sql_statement_query` with a bound on the attempts. The result says whether it ended. -/
def sqlStatementQuery : Nat → σ → List UInt8 → List UInt8 → Bool × List (Event φ t) × σ
  | 0, s, _, _ => (false, [], s)
  | attempts + 1, s, key, sql =>
    let sent := db.route key sql
    let answer := db.execute s key sent
    if answer.1 = -erDupEntry ∨ answer.1 = 0 then (true, [.statement key sent answer.1], answer.2)
    else
      let later := sqlStatementQuery attempts answer.2 key sent
      (later.1, .statement key sent answer.1 :: later.2.1, later.2.2)

end Statements

/-! ### A batch -/

/-- How the body of the loop over a batch ends. -/
inductive Flow
  | next
  /-- `break` -/
  | stop
  /-- `return`, undefined behaviour, or a statement that is still retried -/
  | leave
  deriving DecidableEq

/-- The result of the nested search. -/
inductive Check
  | found
  | missing
  /-- a row that is `NULL` -/
  | fault
  deriving DecidableEq

/-- The nested search: every hot row, in turn, among the cold rows. -/
def checkRows (cold : List (RowValue φ t)) : List (Option (RowValue φ t)) → Check
  | [] => .found
  | none :: _ => .fault
  | some hot :: hots =>
    if cold.any fun row => compare hot row (rawFieldsList t) = 0 then checkRows cold hots
    else .missing

section Batch
variable [Zero φ] (F : FloatText φ) (db : Cold σ φ t) (attempts : Nat)

/-- A statement, and how the body of the loop ends if it has been executed. -/
def execute (flow : Flow) (before : List (Event φ t)) (s : σ) (r : Record) (c : HwcBinlogCont) :
    Flow × List (Event φ t) × σ :=
  let done := sqlStatementQuery db attempts s r.key c.sql
  (if done.1 then flow else .leave, before ++ done.2.1, done.2.2)

/-- A record with the check flag. -/
def checkRecord (s : σ) (r : Record) (c : HwcBinlogCont) : Flow × List (Event φ t) × σ :=
  match db.query s r.key with
  | (none, s) => (.leave, [], s)
  | (some cold, s) =>
    if c.rawNums.toInt ≠ cold.length then execute db attempts .stop [.rows r.key cold] s r c
    else
      match checkRows cold (c.rows F t) with
      | .found => (.next, [.rows r.key cold], s)
      | .missing => execute db attempts .next [.rows r.key cold] s r c
      | .fault => (.leave, [.rows r.key cold], s)

/-- The body of the loop of `Run`. -/
def processRecord (s : σ) (r : Record) : Flow × List (Event φ t) × σ :=
  if ¬ r.IsWrite then (.stop, [], s)
  else
    match parseFromString r.value with
    | .failed => (.stop, [], s)
    | .overrun => (.leave, [], s)
    | .parsed c =>
      if c.checkFlag = 0 then execute db attempts .stop [] s r c
      else if c.checkFlag = 1 then checkRecord F db attempts s r c
      else (.next, [], s)

/-- The loop over a batch, with a flag for the records that `FetchRow` fails on. If the loop ends,
the result is what was done for each of the records. -/
def runRows (s : σ) : List (Record × Bool) → Option (List (List (Event φ t))) × σ
  | [] => (some [], s)
  | (_, true) :: _ => (none, s)
  | (r, false) :: rs =>
    match processRecord F db attempts s r with
    | (.leave, _, s) => (none, s)
    | (.stop, events, s) => (some (events :: rs.map fun _ => []), s)
    | (.next, events, s) =>
      let later := runRows s rs
      (later.1.map fun work => events :: work, later.2)

end Batch

/-! ### Runs -/

/-- The synchroniser: the saved position, and what was done for each record before it. -/
structure Sync (σ φ : Type) (t : TableDefinition) where
  journalId : Nat
  work : List (List (Event φ t))
  cold : σ

/-- A turn of the loop of `Run`. -/
inductive Turn
  /-- the hot server does not answer with records -/
  | failed
  /-- `count` records are fetched, with a bound on the attempts of each statement; `FetchRow` may
  fail at one of them -/
  | fetched (count attempts : Nat) (broken : Option Nat)
  deriving DecidableEq

/-- The rows of an answer. -/
def fetchedRows (journal : Nat → Record) (start count : Nat) (broken : Option Nat) :
    List (Record × Bool) :=
  (List.range count).map fun i => (journal (start + i), broken = some i)

section Run
variable [Zero φ] (F : FloatText φ) (db : Cold σ φ t) (journal : Nat → Record)

def Sync.step (s : Sync σ φ t) : Turn → Unit × Sync σ φ t
  | .failed => ((), s)
  | .fetched count attempts broken =>
    match runRows F db attempts s.cold (fetchedRows journal s.journalId count broken) with
    | (none, cold) => ((), { s with cold })
    | (some work, cold) =>
      ((), { journalId := s.journalId + count, work := s.work ++ work, cold })

/-- The rows of the record are the rows of the cold database, in some order. -/
def SameRows (c : HwcBinlogCont) (cold : List (RowValue φ t)) : Prop :=
  ∃ hot : List (RowValue φ t), c.rows F t = hot.map some ∧ (hot.map fieldsOf).Perm (cold.map fieldsOf)

/-- The statement of the record has been executed, or its rows were found to be the cold ones. -/
def Settled (r : Record) (events : List (Event φ t)) : Prop :=
  ∃ c, parseFromString r.value = .parsed c ∧
    ((∃ result, (result = 0 ∨ result = -erDupEntry) ∧
        .statement r.key (db.route r.key c.sql) result ∈ events) ∨
      c.checkFlag = 1 ∧ ∃ cold, .rows r.key cold ∈ events ∧ SameRows F c cold)

/-- Every write record before the saved position is settled. -/
def Sync.Current (s : Sync σ φ t) : Prop :=
  s.work.length = s.journalId ∧
    ∀ i events, s.work[i]? = some events → (journal i).IsWrite → Settled F db (journal i) events

end Run

/-! ### When a batch settles its records -/

section Statement
variable (db : Cold σ φ t) (attempts : Nat) (key : List UInt8)

/-- The database takes the statement. -/
def Accepted (s : σ) (sql : List UInt8) : Prop :=
  (db.execute s key (db.route key sql)).1 = -erDupEntry ∨ (db.execute s key (db.route key sql)).1 = 0

/-- The statement is executed as it is: at the first attempt, or with a text that is not changed by
being sent again. -/
def Direct (s : σ) (sql : List UInt8) : Prop :=
  db.route key (db.route key sql) = db.route key sql ∨ Accepted db key s sql

/-- The statement, sent until it is taken, brings the database from one state to another. -/
inductive Sent : σ → List UInt8 → σ → Prop
  | accepted {s : σ} {sql : List UInt8} : Accepted db key s sql →
      Sent s sql (db.execute s key (db.route key sql)).2
  | again {s s' : σ} {sql : List UInt8} :
      Sent (db.execute s key (db.route key sql)).2 (db.route key sql) s' → Sent s sql s'

/-- The loop of `sql_statement_query` ends with the statement that was to be executed. -/
theorem sqlStatementQuery_direct {s : σ} {sql : List UInt8} (direct : Direct db key s sql)
    (ended : (sqlStatementQuery db attempts s key sql).1 = true) :
    (∃ result, (result = 0 ∨ result = -erDupEntry) ∧
      .statement key (db.route key sql) result ∈ (sqlStatementQuery db attempts s key sql).2.1) ∧
    Sent db key s sql (sqlStatementQuery db attempts s key sql).2.2 := by
  induction attempts generalizing s sql with
  | zero => cases ended
  | succ attempts ih =>
    rw [sqlStatementQuery] at ended ⊢
    by_cases good : (db.execute s key (db.route key sql)).1 = -erDupEntry ∨
        (db.execute s key (db.route key sql)).1 = 0
    · rw [if_pos good]
      exact ⟨⟨_, good.symm, mem_singleton_self _⟩, Sent.accepted good⟩
    · rw [if_neg good] at ended ⊢
      have again : db.route key (db.route key sql) = db.route key sql := direct.resolve_right good
      obtain ⟨⟨result, answer, sent⟩, later⟩ := ih (Or.inl (congrArg (db.route key) again)) ended
      rw [again] at sent
      exact ⟨⟨result, answer, mem_cons_of_mem _ sent⟩, Sent.again later⟩

end Statement

section Rows
variable [Zero φ] (F : FloatText φ) (c : HwcBinlogCont) (cold : List (RowValue φ t))

/-- Every row of the record decodes, and a cold row is the same by `RowValue::Compare`. -/
def Matched : Prop :=
  ∀ hot ∈ c.rows F t, ∃ row, hot = some row ∧ ∃ other ∈ cold, compare row other (rawFieldsList t) = 0

/-- No row stands twice in the record, and `RowValue::Compare` tells its rows from the cold ones:
they do not differ in the case of letters, or behind a zero byte, only. -/
structure Distinct : Prop where
  once : ((c.rows F t).reduceOption.map fieldsOf).Nodup
  told : ∀ hot ∈ (c.rows F t).reduceOption, ∀ row ∈ cold,
    compare hot row (rawFieldsList t) = 0 → fieldsOf hot = fieldsOf row

variable {F c cold}

omit [Zero φ] in
theorem checkRows_found_iff {hots : List (Option (RowValue φ t))} : checkRows cold hots = .found ↔
    ∀ hot ∈ hots, ∃ row, hot = some row ∧
      ∃ other ∈ cold, compare row other (rawFieldsList t) = 0 := by
  induction hots with
  | nil => simp [checkRows]
  | cons hot hots ih =>
    rw [forall_mem_cons, ← ih]
    cases hot with
    | none => simp [checkRows]
    | some hot =>
      rw [checkRows]
      split_ifs with found
      · have other : ∃ other ∈ cold, compare hot other (rawFieldsList t) = 0 := by
          simpa only [any_eq_true, decide_eq_true_eq] using found
        exact (and_iff_right ⟨hot, rfl, other⟩).symm
      · refine iff_of_false (fun found => by cases found) fun ⟨⟨row, same, other⟩, _⟩ => found ?_
        cases same
        simpa only [any_eq_true, decide_eq_true_eq] using other

/-- `fetch_row` gives as many rows as the record declares, if all of them decode. -/
theorem length_fetchRows {n : Nat} {bytes : List UInt8}
    (decoded : ∀ hot ∈ fetchRows F t n bytes, ∃ row, hot = some row) :
    (fetchRows F t n bytes).length = n := by
  induction n generalizing bytes with
  | zero => rfl
  | succ n ih =>
    rw [fetchRows] at decoded ⊢
    cases read : decodeRow F t (rawFieldsList t) bytes with
    | error e =>
      rw [read] at decoded
      obtain ⟨row, same⟩ := decoded none (mem_singleton_self _)
      cases same
    | ok result =>
      rw [read] at decoded
      exact congrArg (· + 1) (ih fun hot mem => decoded hot (mem_cons_of_mem _ mem))

/-- Distinct rows that are all matched by as many cold ones are the cold ones. -/
theorem Matched.sameRows (matched : Matched F c cold) (distinct : Distinct F c cold)
    (count : c.rawNums.toInt = cold.length) : SameRows F c cold := by
  have decoded : ∀ hot ∈ c.rows F t, ∃ row, hot = some row := fun hot mem =>
    (matched hot mem).imp fun _ found => found.1
  have rows : c.rows F t = (c.rows F t).reduceOption.map some := by
    have inside : c.rows F t ∈ Set.range (map some) := by
      rw [Set.range_list_map]
      exact fun hot mem => (decoded hot mem).imp fun _ same => same.symm
    obtain ⟨hots, same⟩ := inside
    rw [← same, reduceOption, filterMap_map]
    exact congrArg (map some) filterMap_some.symm
  refine ⟨_, rows, ?_⟩
  have subset : (c.rows F t).reduceOption.map fieldsOf ⊆ cold.map fieldsOf := by
    intro fields mem
    obtain ⟨hot, hotMem, rfl⟩ := mem_map.mp mem
    obtain ⟨row, same, other, inside, equal⟩ := matched _ (reduceOption_mem_iff.mp hotMem)
    cases same
    rw [distinct.told hot hotMem other inside equal]
    exact mem_map_of_mem inside
  refine (subperm_of_subset distinct.once subset).perm_of_length_le ?_
  have size : (c.rows F t).length = c.rawNums.toNat := length_fetchRows decoded
  have declared : c.rawNums.toNat = cold.length := by
    have := BitVec.toInt_eq_toNat_cond c.rawNums
    have := c.rawNums.isLt
    split_ifs at * <;> omega
  have kept := congrArg length rows
  rw [length_map] at kept
  rw [length_map, length_map, ← kept, size, declared]

end Rows

section Covered
variable [Zero φ] (F : FloatText φ) (db : Cold σ φ t) (attempts : Nat)

/-- No record of a write. -/
def NoWrite (rs : List (Record × Bool)) : Prop := ∀ row ∈ rs, ¬ row.1.IsWrite

/-- A checked write in a cold database with some rows of its key: it has distinct rows if they are
as many. The conditions on the records behind it are given for the states it may leave. -/
def RowsCovered (key : List UInt8) (c : HwcBinlogCont) (rest : σ → Prop) (noWrite : Prop)
    (cold : List (RowValue φ t)) (s : σ) : Prop :=
  if c.rawNums.toInt ≠ cold.length then Direct db key s c.sql ∧ noWrite
  else
    Distinct F c cold ∧ (Matched F c cold → rest s) ∧
      (¬ Matched F c cold → Direct db key s c.sql ∧ ∀ s', Sent db key s c.sql s' → rest s')

/-- The writes of a batch have a flag of zero or one and statements that are sent as they are. A
write whose rows are compared has distinct ones. No write stands behind a record of another type,
behind one with a flag of zero, or behind one with more or fewer rows than the cold database has
when it is asked for them. -/
def Covered (s : σ) : List (Record × Bool) → Prop
  | [] => True
  | (_, true) :: _ => True
  | (r, false) :: rs =>
    if r.IsWrite then
      match parseFromString r.value with
      | .failed => False
      | .overrun => True
      | .parsed c =>
        c.checkFlag = 0 ∧ Direct db r.key s c.sql ∧ NoWrite rs ∨
          c.checkFlag = 1 ∧ ∀ cold s', db.query s r.key = (some cold, s') →
            RowsCovered F db r.key c (fun s => Covered s rs) (NoWrite rs) cold s'
    else NoWrite rs

/-- What the loop goes on with after a record. -/
def Onward (rs : List (Record × Bool)) : Flow → σ → Prop
  | .next, s => Covered F db s rs
  | .stop, _ => NoWrite rs
  | .leave, _ => True

/-- The write is settled, and so will be the rest of the batch. -/
def Handled (r : Record) (rs : List (Record × Bool)) (done : Flow × List (Event φ t) × σ) : Prop :=
  done.1 ≠ .leave → Settled F db r done.2.1 ∧ Onward F db rs done.1 done.2.2

theorem execute_handled {flow : Flow} {before : List (Event φ t)} {s : σ} {r : Record}
    {rs : List (Record × Bool)} {c : HwcBinlogCont} (parsed : parseFromString r.value = .parsed c)
    (direct : Direct db r.key s c.sql)
    (onward : ∀ s', Sent db r.key s c.sql s' → Onward F db rs flow s') :
    Handled F db r rs (execute db attempts flow before s r c) := by
  intro ended
  unfold execute at ended ⊢
  have done : (sqlStatementQuery db attempts s r.key c.sql).1 = true := by
    by_contra running
    exact ended (if_neg running)
  obtain ⟨⟨result, answer, sent⟩, state⟩ := sqlStatementQuery_direct db attempts r.key direct done
  refine ⟨⟨c, parsed, Or.inl ⟨result, answer, mem_append_right before sent⟩⟩, ?_⟩
  dsimp only
  rw [if_pos done]
  exact onward _ state

theorem checkRecord_handled {s : σ} {r : Record} {rs : List (Record × Bool)} {c : HwcBinlogCont}
    (parsed : parseFromString r.value = .parsed c) (checked : c.checkFlag = 1)
    (covered : ∀ cold s', db.query s r.key = (some cold, s') →
      RowsCovered F db r.key c (fun s => Covered F db s rs) (NoWrite rs) cold s') :
    Handled F db r rs (checkRecord F db attempts s r c) := by
  unfold checkRecord
  match answer : db.query s r.key with
  | (none, s') => exact fun ended => absurd rfl ended
  | (some cold, s') =>
    have covered := covered cold s' answer
    unfold RowsCovered at covered
    dsimp only
    by_cases differ : c.rawNums.toInt ≠ cold.length
    · rw [if_pos differ] at covered ⊢
      exact execute_handled F db attempts parsed covered.1 fun _ _ => covered.2
    rw [if_neg differ] at covered ⊢
    obtain ⟨distinct, same, other⟩ := covered
    match search : checkRows cold (c.rows F t) with
    | .found =>
      have matched : Matched F c cold := checkRows_found_iff.mp search
      have rows := matched.sameRows distinct (not_not.mp differ)
      exact fun _ => ⟨⟨c, parsed, Or.inr ⟨checked, cold, mem_singleton_self _, rows⟩⟩, same matched⟩
    | .missing =>
      have unmatched : ¬ Matched F c cold := fun matched =>
        Check.noConfusion (search.symm.trans (checkRows_found_iff.mpr matched))
      exact execute_handled F db attempts parsed (other unmatched).1 (other unmatched).2
    | .fault => exact fun ended => absurd rfl ended

/-- The first record of a covered batch. -/
theorem processRecord_handled {s : σ} {r : Record} {rs : List (Record × Bool)}
    (covered : Covered F db s ((r, false) :: rs)) (write : r.IsWrite) :
    Handled F db r rs (processRecord F db attempts s r) := by
  unfold processRecord
  rw [Covered, if_pos write] at covered
  rw [if_neg (not_not_intro write)]
  match parsed : parseFromString r.value with
  | .failed =>
    rw [parsed] at covered
    exact covered.elim
  | .overrun => exact fun ended => absurd rfl ended
  | .parsed c =>
    rw [parsed] at covered
    dsimp only at covered ⊢
    obtain ⟨plain, direct, behind⟩ | ⟨checked, covered⟩ := covered
    · rw [if_pos plain]
      exact execute_handled F db attempts parsed direct fun _ _ => behind
    · rw [if_neg (by rw [checked]; decide), if_pos checked]
      exact checkRecord_handled F db attempts parsed checked covered

/-- What a batch leaves for a row of the answer. -/
def RowSettled (row : Record × Bool) (events : List (Event φ t)) : Prop :=
  row.1.IsWrite → Settled F db row.1 events

theorem rowSettled_of_noWrite {rs : List (Record × Bool)} (none_ : NoWrite rs) :
    List.Forall₂ (RowSettled F db) rs (rs.map fun _ => []) := by
  rw [forall₂_map_right_iff, forall₂_same]
  intro row mem write
  exact absurd write (none_ row mem)

/-- The records of a covered batch are settled when the position is saved. -/
theorem runRows_settled {s : σ} {rows : List (Record × Bool)} (covered : Covered F db s rows)
    (work : List (List (Event φ t))) (ended : (runRows F db attempts s rows).1 = some work) :
    List.Forall₂ (RowSettled F db) rows work := by
  induction rows generalizing s work with
  | nil =>
    cases ended
    exact List.Forall₂.nil
  | cons row rs ih =>
    match row with
    | (_, true) => cases ended
    | (r, false) =>
      rw [runRows] at ended
      by_cases write : r.IsWrite
      · have handled := processRecord_handled F db attempts covered write
        match result : processRecord F db attempts s r with
        | (.leave, events, s') =>
          rw [result] at ended
          cases ended
        | (.stop, events, s') =>
          rw [result] at ended handled
          cases ended
          obtain ⟨settled, behind⟩ := handled Flow.noConfusion
          exact List.Forall₂.cons (fun _ => settled) (rowSettled_of_noWrite F db behind)
        | (.next, events, s') =>
          rw [result] at ended handled
          obtain ⟨settled, onward⟩ := handled Flow.noConfusion
          obtain ⟨later, run, rfl⟩ := Option.map_eq_some_iff.mp ended
          exact List.Forall₂.cons (fun _ => settled) (ih onward later run)
      · rw [Covered, if_neg write] at covered
        rw [processRecord, if_pos write] at ended
        cases ended
        exact List.Forall₂.cons (fun write' => absurd write' write)
          (rowSettled_of_noWrite F db covered)

end Covered

section Run
variable [Zero φ] (F : FloatText φ) (db : Cold σ φ t) (journal : Nat → Record)

/-- A turn is covered if the batch that it fetches is. -/
def Sync.Covers (s : Sync σ φ t) : Turn → Prop
  | .failed => True
  | .fetched count _ broken =>
    Covered F db s.cold (fetchedRows journal s.journalId count broken)

theorem Sync.Current.step {s : Sync σ φ t} (current : s.Current F db journal) (turn : Turn)
    (covers : s.Covers F db journal turn) : (s.step F db journal turn).2.Current F db journal := by
  cases turn with
  | failed => exact current
  | fetched count attempts broken =>
    have settled := runRows_settled F db attempts covers
    unfold Sync.step
    dsimp only
    match result : runRows F db attempts s.cold (fetchedRows journal s.journalId count broken) with
    | (none, cold) => exact current
    | (some work, cold) =>
      rw [result] at settled
      have rows := settled work rfl
      obtain ⟨length, before⟩ := current
      have size : work.length = count := by
        rw [← rows.length_eq, fetchedRows, length_map, length_range]
      refine ⟨by rw [length_append, length, size], fun i events done write => ?_⟩
      rw [getElem?_append] at done
      split_ifs at done with old
      · exact before i events done write
      · -- a record of the batch: its place is counted from the position of before
        obtain ⟨inside, rfl⟩ := List.getElem?_eq_some_iff.mp done
        have served : i - s.work.length < (fetchedRows journal s.journalId count broken).length := by
          rw [rows.length_eq]
          exact inside
        have record : ((fetchedRows journal s.journalId count broken).get ⟨_, served⟩).1 = journal i := by
          have place : s.journalId + (i - s.work.length) = i := by omega
          simp only [fetchedRows, get_eq_getElem, getElem_map, getElem_range, place]
        have here := rows.get served inside
        unfold RowSettled at here
        rw [record] at here
        exact here write

/-- The synchroniser before its first turn. -/
def Sync.new (cold : σ) : Sync σ φ t := ⟨0, [], cold⟩

/-- In every run whose batches are covered, every write record before the saved position has been
executed on the cold database, or its rows were found to be the cold ones. -/
theorem passed_writes_settled (cold : σ) (turns : List Turn)
    (covered : Machine.Admitted (Sync.Covers F db journal) (Sync.step F db journal)
      (Sync.new cold : Sync σ φ t) turns) :
    (Machine.final (Sync.step F db journal) (Sync.new cold) turns).Current F db journal := by
  have start : (Sync.new cold : Sync σ φ t).Current F db journal :=
    ⟨rfl, fun i events none_ => by cases none_⟩
  exact Machine.final_invariant (Sync.Current F db journal)
    (fun _ turn current covers => current.step F db journal turn covers) start covered

end Run

/-! ### Samples -/

/-- A record of a write: a statement of one byte, the flag, and rows of two equal integers. -/
def sampleCont (sql : UInt8) (rows : List (BitVec 64)) : HwcBinlogCont where
  sql := [sql]
  checkFlag := if rows = [] then 0 else 1
  rawNums := BitVec.ofNat 32 rows.length
  rawVal := rows.flatMap fun n =>
    ResultPacket.rowBytes zeroFloat (rawFieldsList twoFields) (integerRow n)

def sampleRecord (sql : UInt8) (rows : List (BitVec 64)) : Record :=
  ⟨syncNone, [7], serializeToString (sampleCont sql rows)⟩

/-- A cold database that executes every statement, with fixed rows. -/
def sampleCold (rows : List (BitVec 64)) : Cold Unit Unit twoFields where
  split := false
  tableName := []
  tableOf := fun _ => []
  execute := fun _ _ _ => (0, ())
  query := fun _ _ => (some (rows.map integerRow), ())

/-- A checked record and then others that are not. -/
def sampleJournal : Nat → Record
  | 0 => sampleRecord 1 [5]
  | _ => sampleRecord 2 []

theorem sample_covered : Machine.Admitted
    (Sync.Covers zeroFloat (sampleCold [5]) sampleJournal)
    (Sync.step zeroFloat (sampleCold [5]) sampleJournal)
    (Sync.new () : Sync Unit Unit twoFields) [.fetched 2 1 none] := by
  have second : Covered zeroFloat (sampleCold [5]) () [(sampleRecord 2 [], false)] :=
    Or.inl ⟨rfl, Or.inl rfl, fun _ mem => absurd mem not_mem_nil⟩
  have one : (sampleCont 1 [5]).rows zeroFloat twoFields =
    [some (rowOf (t := twoFields) [⟨0, (5 : BitVec 64)⟩, ⟨1, (5 : BitVec 64)⟩])] := rfl
  have distinct : Distinct zeroFloat (sampleCont 1 [5]) [integerRow 5] := by
    constructor
    · rw [one]
      exact nodup_singleton _
    · intro hot mem row inside _
      rw [one] at mem
      cases mem_singleton.mp mem
      cases mem_singleton.mp inside
      rfl
  have write : (sampleRecord 1 [5]).IsWrite := rfl
  have parsed : parseFromString (sampleRecord 1 [5]).value = .parsed (sampleCont 1 [5]) := rfl
  have first : Covered zeroFloat (sampleCold [5]) ()
      [(sampleRecord 1 [5], false), (sampleRecord 2 [], false)] := by
    rw [Covered, if_pos write, parsed]
    refine Or.inr ⟨rfl, fun cold s' answer => ?_⟩
    cases answer
    exact ⟨distinct, fun _ => second, fun _ => ⟨Or.inl rfl, fun _ _ => second⟩⟩
  exact ⟨first, trivial⟩

theorem passed_writes_settled_sample :
    (Machine.final (Sync.step zeroFloat (sampleCold [5]) sampleJournal)
      (Sync.new () : Sync Unit Unit twoFields) [.fetched 2 1 none]).Current zeroFloat (sampleCold [5])
        sampleJournal :=
  passed_writes_settled zeroFloat (sampleCold [5]) sampleJournal () [.fetched 2 1 none] sample_covered

/-- The number of a field of the sample table. -/
def sampleNumber (v : Value Unit .signed) : BitVec 64 := v

/-- Two statements in a batch: only the first is executed. A record with two equal rows: both are
found in a cold database that has one of them and another row. -/
theorem passed_write_unsettled :
    ¬ (Machine.final (Sync.step zeroFloat (sampleCold []) fun _ => sampleRecord 2 [])
        (Sync.new () : Sync Unit Unit twoFields) [.fetched 2 1 none]).Current zeroFloat (sampleCold [])
          (fun _ => sampleRecord 2 []) ∧
      ¬ (Machine.final (Sync.step zeroFloat (sampleCold [5, 6]) fun _ => sampleRecord 1 [5, 5])
        (Sync.new () : Sync Unit Unit twoFields) [.fetched 1 1 none]).Current zeroFloat
          (sampleCold [5, 6]) (fun _ => sampleRecord 1 [5, 5]) := by
  constructor
  · intro current
    obtain ⟨c, -, executed | ⟨-, cold, found, -⟩⟩ := current.2 1 [] rfl rfl
    · obtain ⟨result, -, sent⟩ := executed
      cases sent
    · cases found
  · intro current
    obtain ⟨c, parsed, executed | ⟨-, cold, found, same⟩⟩ :=
      current.2 0 [.rows [7] [integerRow 5, integerRow 6]] rfl rfl
    · obtain ⟨result, -, sent⟩ := executed
      cases sent with
      | tail _ sent => cases sent
    · have five : ∀ row ∈ (sampleCont 1 [5, 5]).rows zeroFloat twoFields,
          row.map (fun r => sampleNumber (r 1)) = some 5 := by decide +kernel
      have value : parseFromString (sampleRecord 1 [5, 5]).value = .parsed (sampleCont 1 [5, 5]) := rfl
      cases value.symm.trans parsed
      cases found with
      | tail _ found => cases found
      | head =>
        obtain ⟨hot, rows, perm⟩ := same
        have six : fieldsOf (integerRow 6) ∈ hot.map fieldsOf := perm.mem_iff.mpr (by simp)
        obtain ⟨row, mem, equal⟩ := mem_map.mp six
        have hotFive : some (sampleNumber (row 1)) = some 5 :=
          five (some row) (rows ▸ mem_map_of_mem mem)
        have hotSix : [sampleNumber (row 0), sampleNumber (row 1)] = [6, 6] :=
          congrArg (map fun f : (i : Nat) × Value Unit (twoFields.fieldType i) => sampleNumber f.2) equal
        rw [(cons_eq_cons.mp (cons_eq_cons.mp hotSix).2).1] at hotFive
        exact absurd hotFive (by decide)

end Dtc.Hwc
