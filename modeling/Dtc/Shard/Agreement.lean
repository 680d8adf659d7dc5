import Dtc.Shard.Config

/-!
# Server and connector agree on the place of a key

Both take a number of the key, divide it and reduce it. The group map takes the reduced
number to the one connected machine that lists it as a database, as long as the number of
a machine fits the `short` of the map. So the two agree whenever they take the same
number; without key hash they do not for the least signed key and for unsigned keys above
`2 ^ 63`, which the server reads as negative.
-/

namespace Dtc.Shard

open Library.Memory Raw List DbConfig

variable {groupMap : Nat → Int} {cfg : DbConfig}

namespace DbConfig

/-- The machine has helpers. -/
def Connected (cfg : DbConfig) (i : Nat) : Prop :=
  (cfg.mach i).helperType ≠ .dummy ∧ (cfg.mach i).procs ≠ 0

/-- Where a group map sends one database, after the machines of a list. -/
inductive Placed (cfg : DbConfig) (machines : List Nat) (db : Nat) : Int → Prop
  | none : (∀ i ∈ machines, cfg.Connected i → db ∉ (cfg.mach i).dbIdx) → Placed cfg machines db (-1)
  | dummy (i : Nat) : i ∈ machines → (cfg.mach i).helperType = .dummy → db ∈ (cfg.mach i).dbIdx →
      (∀ j ∈ machines, cfg.Connected j → db ∉ (cfg.mach j).dbIdx) → Placed cfg machines db (-2)
  | machine (i : Nat) : i ∈ machines → cfg.Connected i → db ∈ (cfg.mach i).dbIdx →
      (∀ j ∈ machines, cfg.Connected j → db ∈ (cfg.mach j).dbIdx → j = i) →
      Placed cfg machines db i

theorem toShort_natCast {i : Nat} (small : i < 32768) : toShort i = i := by
  rw [toShort, Int.bmod_eq_of_le] <;> omega

theorem toShort_dummy : toShort (-2) = -2 := by decide

variable {groupMap' : Nat → Int}

/-- The databases of one machine: none of them had a machine, and all have this one now. -/
theorem mapDatabases_eq_some {gmId : Int} {dbs : List Nat}
    (mapped : mapDatabases gmId dbs groupMap = some groupMap') :
    (∀ db ∈ dbs, groupMap db < 0) ∧
      ∀ db, groupMap' db = if db ∈ dbs then toShort gmId else groupMap db := by
  induction dbs generalizing groupMap with
  | nil =>
    cases mapped
    exact ⟨by simp, by simp⟩
  | cons first dbs ih =>
    rw [mapDatabases] at mapped
    split_ifs at mapped with duplicate
    obtain ⟨free, result⟩ := ih mapped
    constructor
    · intro db mem
      by_cases same : db = first
      · subst same
        omega
      · have := free db (by simpa [same] using mem)
        rwa [Function.update_of_ne same] at this
    · intro db
      rw [result db]
      by_cases same : db = first
      · subst same
        simp
      · simp [same]

section Machines
variable {cfg : DbConfig} {machines : List Nat} {db i : Nat} {id : Int}

/-- A machine that does not list the database changes nothing for it. -/
theorem Placed.append_of_notMem (placed : cfg.Placed machines db id)
    (notMem : cfg.Connected i → db ∉ (cfg.mach i).dbIdx) : cfg.Placed (machines ++ [i]) db id := by
  cases placed with
  | none free =>
    exact .none (forall_mem_append.mpr ⟨free, forall_mem_singleton.mpr notMem⟩)
  | dummy k mem dummy listed free =>
    exact .dummy k (by simp [mem]) dummy listed
      (forall_mem_append.mpr ⟨free, forall_mem_singleton.mpr notMem⟩)
  | machine k mem connected listed unique =>
    refine .machine k (by simp [mem]) connected listed
      (forall_mem_append.mpr ⟨unique, forall_mem_singleton.mpr ?_⟩)
    exact fun connected listed => absurd listed (notMem connected)

/-- A database without a machine is on no connected one so far. -/
theorem Placed.notMem_of_neg (placed : cfg.Placed machines db id) (negative : id < 0) :
    ∀ j ∈ machines, cfg.Connected j → db ∉ (cfg.mach j).dbIdx := by
  cases placed with
  | none free => exact free
  | dummy k mem dummy listed free => exact free
  | machine k mem connected listed unique => omega

/-- One machine of `build_master_group_mapping`. -/
theorem Placed.mapDatabases {gmId : Int} (placed : ∀ db, cfg.Placed machines db (groupMap db))
    (mapped : mapDatabases gmId (cfg.mach i).dbIdx groupMap = some groupMap')
    (kind : (cfg.mach i).helperType = .dummy ∧ gmId = -2 ∨
      cfg.Connected i ∧ gmId = i ∧ i < 32768) (db : Nat) :
    cfg.Placed (machines ++ [i]) db (groupMap' db) := by
  obtain ⟨free, result⟩ := mapDatabases_eq_some mapped
  rw [result db]
  by_cases listed : db ∈ (cfg.mach i).dbIdx
  · have others := (placed db).notMem_of_neg (free db listed)
    rw [if_pos listed]
    rcases kind with ⟨dummy, rfl⟩ | ⟨connected, rfl, small⟩
    · rw [toShort_dummy]
      refine .dummy i (by simp) dummy listed
        (forall_mem_append.mpr ⟨others, forall_mem_singleton.mpr ?_⟩)
      exact fun connected => absurd dummy connected.1
    · rw [toShort_natCast small]
      refine .machine i (by simp) connected listed
        (forall_mem_append.mpr ⟨?_, forall_mem_singleton.mpr fun _ _ => rfl⟩)
      exact fun j mem connected listed => absurd listed (others j mem connected)
  · rw [if_neg listed]
    exact (placed db).append_of_notMem fun _ => listed

/-- The loop over the machines. -/
theorem Placed.mapMachines {is : List Nat} (placed : ∀ db, cfg.Placed machines db (groupMap db))
    (mapped : cfg.mapMachines is groupMap = some groupMap') (small : ∀ i ∈ is, i < 32768) (db : Nat) :
    cfg.Placed (machines ++ is) db (groupMap' db) := by
  induction is generalizing machines groupMap with
  | nil =>
    cases mapped
    simpa using placed db
  | cons i is ih =>
    have bound := small i (by simp)
    have rest : ∀ j ∈ is, j < 32768 := fun j mem => small j (by simp [mem])
    have step : ∃ next, (∀ db, cfg.Placed (machines ++ [i]) db (next db)) ∧
        cfg.mapMachines is next = some groupMap' := by
      rw [mapMachines] at mapped
      by_cases dummy : (cfg.mach i).helperType = .dummy
      · simp only [dummy, if_true, Option.bind_eq_some_iff] at mapped
        obtain ⟨next, here, mapped⟩ := mapped
        exact ⟨next, Placed.mapDatabases placed here (.inl ⟨dummy, rfl⟩), mapped⟩
      · by_cases idle : (cfg.mach i).procs = 0
        · simp only [dummy, idle, if_true, if_false] at mapped
          refine ⟨groupMap, fun db => ?_, mapped⟩
          exact (placed db).append_of_notMem fun connected => absurd idle connected.2
        · simp only [dummy, idle, if_false, Option.bind_eq_some_iff] at mapped
          obtain ⟨next, here, mapped⟩ := mapped
          exact ⟨next, Placed.mapDatabases placed here (.inr ⟨⟨dummy, idle⟩, rfl, bound⟩), mapped⟩
    obtain ⟨next, placed, mapped⟩ := step
    simpa using ih placed mapped rest

end Machines

theorem buildMasterGroupMapping_eq_some (built : cfg.buildMasterGroupMapping = some groupMap) :
    cfg.mapMachines (range cfg.machineCnt) (fun _ => -1) = some groupMap ∧
      ∀ db < cfg.databaseMaxCount, groupMap db ≠ -1 := by
  rw [buildMasterGroupMapping] at built
  split at built
  · cases built
  · rename_i result mapped
    split_ifs at built with missing
    cases built
    simp only [any_eq_true, mem_range, decide_eq_true_eq, not_exists, not_and] at missing
    exact ⟨mapped, missing⟩

/-- The group map of a configuration places every database on the connected machine that lists
it. -/
theorem buildMasterGroupMapping_placed (built : cfg.buildMasterGroupMapping = some groupMap)
    (few : cfg.machineCnt ≤ 32768) (db : Nat) :
    cfg.Placed (range cfg.machineCnt) db (groupMap db) := by
  have start : ∀ db, cfg.Placed [] db (-1) := fun db => .none (by simp)
  have small : ∀ i ∈ range cfg.machineCnt, i < 32768 := by
    intro i mem
    have := mem_range.mp mem
    omega
  exact Placed.mapMachines start (buildMasterGroupMapping_eq_some built).1 small db

/-- The machine of a choice is the one whose list holds the database. -/
def Holds (cfg : DbConfig) (db : Nat) : Choice → Prop
  | .group machine _ =>
    machine < cfg.machineCnt ∧ db ∈ (cfg.mach machine).dbIdx ∧
      ∀ i < cfg.machineCnt, cfg.Connected i → db ∈ (cfg.mach i).dbIdx → i = machine
  | .dummy =>
    ∃ machine < cfg.machineCnt, (cfg.mach machine).helperType = .dummy ∧
      db ∈ (cfg.mach machine).dbIdx ∧
      ∀ i < cfg.machineCnt, cfg.Connected i → db ∉ (cfg.mach i).dbIdx
  -- no machine is chosen
  | .null | .readonly => True
  | .undefined => False

theorem holds_lastGroup {db machine : Nat} (g : Nat)
    (holds : ∀ slot, cfg.Holds db (.group machine slot)) :
    cfg.Holds db (cfg.lastGroup machine g) := by
  induction g with
  | zero => trivial
  | succ g ih =>
    rw [lastGroup]
    split_ifs
    · exact holds g
    · exact ih

/-- `select_group` chooses the machine of the database that it computes. -/
theorem selectGroup_holds (built : cfg.buildMasterGroupMapping = some groupMap)
    (few : cfg.machineCnt ≤ 32768) (job : Job) :
    cfg.Holds (cfg.selectNumber job.requestKey / cfg.dbDiv % cfg.dbMod)
      (cfg.selectGroup groupMap job) := by
  rw [selectGroup]
  generalize cfg.selectNumber job.requestKey = uk
  simp only
  by_cases readonly : job.migrating uk ∧ ¬ job.isGet
  · rw [if_pos readonly]
    trivial
  rw [if_neg readonly]
  have placed := buildMasterGroupMapping_placed built few (uk / cfg.dbDiv % cfg.dbMod)
  generalize groupMap (uk / cfg.dbDiv % cfg.dbMod) = id at placed
  generalize uk / cfg.dbDiv % cfg.dbMod = db at placed
  cases placed with
  | none free => trivial
  | dummy i mem dummy listed free =>
    exact ⟨i, mem_range.mp mem, dummy, listed, fun j below => free j (mem_range.mpr below)⟩
  | machine i mem connected listed unique =>
    have bound := mem_range.mp mem
    have holds : ∀ slot, cfg.Holds db (.group i slot) := fun _ =>
      ⟨bound, listed, fun j below => unique j (mem_range.mpr below)⟩
    rw [if_neg (by omega), if_neg (by omega), if_neg (by omega), Int.toNat_natCast]
    split_ifs
    · exact holds _
    · trivial
    · exact holds_lastGroup _ holds

end DbConfig

/-- What an accepted configuration says about the placement of keys. -/
structure Accepted (raw : RawConfig) (cfg : DbConfig) : Prop where
  machineCnt : cfg.machineCnt = raw.serverCount.toNat
  keyType : cfg.keyType = raw.keyType
  keyHash : cfg.keyHash = raw.keyHash
  dbMod_pos : 0 < cfg.dbMod
  dbMod_le : cfg.dbMod ≤ cfg.databaseMaxCount
  /-- one database unless the deployment is over several -/
  single : cfg.depoly = 0 → cfg.dbMod = 1
  unhashed : (raw.keyType = .string ∨ raw.keyType = .binary) → raw.keyHash = none →
    cfg.depoly = 0 ∧ cfg.machineCnt = 1

theorem parseNumber_pos {used : Bool} {number : Option (UInt32 × UInt32)} {div mod : Nat}
    (parsed : parseNumber used number = some (div, mod)) : 0 < mod ∧ (used = false → mod = 1) := by
  unfold parseNumber at parsed
  cases used with
  | false =>
    cases parsed
    exact ⟨by decide, fun _ => rfl⟩
  | true =>
    rcases number with _ | ⟨d, m⟩
    · simp at parsed
    · simp only [if_true, Option.ite_none_left_eq_some, not_or] at parsed
      obtain ⟨⟨-, nonzero⟩, same⟩ := parsed
      cases same
      refine ⟨Nat.pos_of_ne_zero fun zero => nonzero ?_, by simp⟩
      exact UInt32.toNat.inj zero

variable {raw : RawConfig}

theorem RawConfig.parseDbConfig_accepted (parsed : raw.parseDbConfig = some cfg) :
    Accepted raw cfg := by
  rw [RawConfig.parseDbConfig] at parsed
  by_cases count : raw.serverCount ≤ 0
  · simp [count] at parsed
  rw [if_neg count] at parsed
  simp only at parsed
  split at parsed
  · rename_i dbDiv dbMod tblDiv tblMod numbers tables
    split_ifs at parsed with large range bad type unhashed
    cases parsed
    obtain ⟨pos, unused⟩ := parseNumber_pos numbers
    refine ⟨rfl, rfl, rfl, pos, le_max_right _ _, ?_, ?_⟩
    · intro none
      exact unused (by simp only at none; rw [none]; rfl)
    · intro string plain
      simp only [plain, Option.isNone_none, and_true, not_and, not_or, not_not] at unhashed
      obtain ⟨one, -, none⟩ := unhashed (.inl string)
      exact ⟨none, one⟩
  · cases parsed

/-- The keys of which server and connector take the same number. -/
def Routable (type : DField) (hash : Option KeyHash) : Option KeyValue → Prop
  | none => True
  | some key =>
    hash ≠ none ∨ type = .string ∨ type = .binary ∨
      type = .signed ∧ key.s64 ≠ BitVec.intMin 64 ∨
      type = .unsigned ∧ key.s64.toNat ≤ 2 ^ 63

/-- `0 - key->s64` -/
theorem toNat_zero_sub (x : BitVec 64) : (0 - x).toNat = (2 ^ 64 - x.toNat) % 2 ^ 64 := by
  rfl

/-- Keys of integer types, not hashed. -/
theorem selectNumber_eq_tableNumber {key : KeyValue}
    (same : cfg.keyHash ≠ none ∨ cfg.keyType = .signed ∧ key.s64 ≠ BitVec.intMin 64 ∨
      cfg.keyType = .unsigned ∧ key.s64.toNat ≤ 2 ^ 63) :
    cfg.selectNumber (some key) = cfg.tableNumber key := by
  rw [selectNumber, tableNumber, hashKey]
  cases hash : cfg.keyHash with
  | some h => rfl
  | none =>
    simp only [hash, ne_eq, not_true_eq_false, false_or] at same
    rcases same with ⟨signed, notLeast⟩ | ⟨unsigned, small⟩
    · simp only [Option.map_none, signed, notLeast, if_false]
      by_cases negative : key.s64.toInt < 0
      · rw [if_pos negative, if_neg (by omega)]
      · rw [if_neg negative, if_pos (by omega)]
    · simp only [Option.map_none, unsigned]
      -- read as signed, `2 ^ 63` is its own negative
      rw [BitVec.toInt_eq_toNat_cond, toNat_zero_sub]
      split_ifs <;> omega

variable {key : Option KeyValue}

/-- Server and connector compute the same database for a key that is read alike. -/
theorem database_eq (accepted : Accepted raw cfg)
    (routable : Routable raw.keyType raw.keyHash key) :
    cfg.selectNumber key / cfg.dbDiv % cfg.dbMod = (cfg.initTableName key).1 := by
  cases key with
  | none => simp [selectNumber, initTableName]
  | some key =>
    rw [initTableName]
    by_cases one : cfg.depoly = 0
    · rw [if_pos one, accepted.single one, Nat.mod_one]
    · rw [if_neg one]
      rw [Routable, ← accepted.keyType, ← accepted.keyHash] at routable
      have same : cfg.keyHash ≠ none ∨ cfg.keyType = .signed ∧ key.s64 ≠ BitVec.intMin 64 ∨
          cfg.keyType = .unsigned ∧ key.s64.toNat ≤ 2 ^ 63 := by
        by_cases hashed : cfg.keyHash = none
        · -- strings that are not hashed have a single database
          have unhashed := accepted.unhashed
          rw [← accepted.keyType, ← accepted.keyHash] at unhashed
          rcases routable with plain | string | binary | rest
          · exact absurd hashed plain
          · exact absurd (unhashed (.inl string) hashed).1 one
          · exact absurd (unhashed (.inr binary) hashed).1 one
          · exact .inr rest
        · exact .inl hashed
      rw [selectNumber_eq_tableNumber same]

theorem initTableName_lt (accepted : Accepted raw cfg) (key : Option KeyValue) :
    (cfg.initTableName key).1 < cfg.databaseMaxCount := by
  refine lt_of_lt_of_le ?_ accepted.dbMod_le
  cases key with
  | none => exact accepted.dbMod_pos
  | some key =>
    rw [initTableName]
    split_ifs
    · exact accepted.dbMod_pos
    · exact Nat.mod_lt _ accepted.dbMod_pos

/-- A single machine lists every database. -/
theorem holds_of_single {choice : Choice} {db db' : Nat}
    (built : cfg.buildMasterGroupMapping = some groupMap) (one : cfg.machineCnt = 1)
    (bound : db' < cfg.databaseMaxCount) (holds : cfg.Holds db choice) : cfg.Holds db' choice := by
  have listed : db' ∈ (cfg.mach 0).dbIdx := by
    have placed := buildMasterGroupMapping_placed built (by omega) db'
    have complete := (buildMasterGroupMapping_eq_some built).2 db' bound
    rw [one] at placed
    generalize groupMap db' = id at placed complete
    cases placed with
    | none free => exact absurd rfl complete
    | dummy i mem dummy listed free =>
      obtain rfl : i = 0 := by simpa using mem
      exact listed
    | machine i mem connected listed unique =>
      obtain rfl : i = 0 := by simpa using mem
      exact listed
  cases choice with
  | null | readonly => trivial
  | undefined => exact holds
  | dummy =>
    obtain ⟨machine, below, dummy, -⟩ := holds
    obtain rfl : machine = 0 := by omega
    refine ⟨0, below, dummy, listed, fun i below connected => ?_⟩
    obtain rfl : i = 0 := by omega
    exact absurd dummy connected.1
  | group machine slot =>
    obtain ⟨below, -⟩ := holds
    obtain rfl : machine = 0 := by omega
    exact ⟨below, listed, fun i below _ _ => by omega⟩

/-! ### Configurations that separate the two computations -/

/-- The databases `0, …, count - 1`: `home` on the machine `first`, the others on `second`. -/
def separating (n count home first second : Nat) (type : DField) (hash : Option KeyHash) :
    RawConfig where
  serverCount := n
  deploy := 1
  databaseNumber := some (1, UInt32.ofNat count)
  tableNum := none
  databaseMaxCount := count
  keyHash := hash
  machine := fun i =>
    { helperType := .mysql
      workload := some .byMaster
      databaseIndex :=
        if i = first then [UInt16.ofNat home]
        else if i = second then ((List.range count).erase home).map UInt16.ofNat
        else []
      procs := 10
      writeProcs := 10
      commitProcs := 10 }
  keyType := type
  autoIncKey := false

/-- What `parse_db_config` makes of it. -/
def separatingConfig (n count home first second : Nat) (type : DField) (hash : Option KeyHash) :
    DbConfig where
  depoly := 1
  dbDiv := 1
  dbMod := count
  tblDiv := 1
  tblMod := 1
  machineCnt := n
  databaseMaxCount := count
  keyHash := hash
  mach := fun i => ((separating n count home first second type hash).machine i).parse
  keyType := type

/-- The processes of a machine with ten of each kind. -/
theorem RawMachine.parse_procs {m : RawMachine}
    (ten : m.procs = 10 ∧ m.writeProcs = 10 ∧ m.commitProcs = 10) :
    m.parse.dbIdx = [] ∧ m.parse.procs = 0 ∨ m.parse.procs ≠ 0 ∧ m.parse.gprocs 0 ≠ 0 := by
  cases list : m.databaseIndex with
  | nil => exact .inl (by simp [RawMachine.parse, list])
  | cons db dbs => exact .inr (by simp [RawMachine.parse, list, ten])

/-- Databases that have no machine yet are mapped. -/
theorem DbConfig.mapDatabases_of_free (gmId : Int) {dbs : List Nat} (nodup : dbs.Nodup)
    (free : ∀ db ∈ dbs, groupMap db < 0) :
    ∃ groupMap', mapDatabases gmId dbs groupMap = some groupMap' := by
  induction dbs generalizing groupMap with
  | nil => exact ⟨groupMap, rfl⟩
  | cons first dbs ih =>
    rw [nodup_cons] at nodup
    have here := free first (by simp)
    rw [mapDatabases, if_neg (by omega)]
    refine ih nodup.2 fun db mem => ?_
    rw [Function.update_of_ne fun same => nodup.1 (by rwa [← same])]
    exact free db (by simp [mem])

/-- Machines whose lists are disjoint are mapped, each list to the number of its machine. -/
theorem DbConfig.mapMachines_of_disjoint {is : List Nat} (distinct : is.Nodup)
    (real : ∀ i, (cfg.mach i).helperType ≠ .dummy)
    (busy : ∀ i, (cfg.mach i).procs = 0 → (cfg.mach i).dbIdx = [])
    (nodup : ∀ i, (cfg.mach i).dbIdx.Nodup)
    (disjoint : ∀ i j db, db ∈ (cfg.mach i).dbIdx → db ∈ (cfg.mach j).dbIdx → i = j)
    (free : ∀ i ∈ is, ∀ db ∈ (cfg.mach i).dbIdx, groupMap db < 0) :
    ∃ groupMap', cfg.mapMachines is groupMap = some groupMap' ∧
      (∀ i ∈ is, ∀ db ∈ (cfg.mach i).dbIdx, groupMap' db = toShort i) ∧
      ∀ db, (∀ i ∈ is, db ∉ (cfg.mach i).dbIdx) → groupMap' db = groupMap db := by
  induction is generalizing groupMap with
  | nil => exact ⟨groupMap, rfl, by simp, fun _ _ => rfl⟩
  | cons i is ih =>
    obtain ⟨fresh, distinct⟩ := nodup_cons.mp distinct
    obtain ⟨here, free⟩ := forall_mem_cons.mp free
    obtain ⟨next, mapped⟩ := mapDatabases_of_free i (nodup i) here
    obtain ⟨-, result⟩ := mapDatabases_eq_some mapped
    have later : ∀ j ∈ is, ∀ db ∈ (cfg.mach j).dbIdx, next db = groupMap db := by
      intro j mem db listed
      rw [result db, if_neg]
      intro here
      exact fresh (disjoint i j db here listed ▸ mem)
    have stillFree : ∀ j ∈ is, ∀ db ∈ (cfg.mach j).dbIdx, next db < 0 := by
      intro j mem db listed
      rw [later j mem db listed]
      exact free j mem db listed
    obtain ⟨groupMap', rest, set, keep⟩ := ih distinct stillFree
    refine ⟨groupMap', ?_, ?_, ?_⟩
    · rw [mapMachines, if_neg (real i)]
      by_cases idle : (cfg.mach i).procs = 0
      · have same : next = groupMap := by
          funext db
          rw [result db, busy i idle]
          simp
        rw [if_pos idle, ← same]
        exact rest
      · rw [if_neg idle, mapped]
        exact rest
    · refine forall_mem_cons.mpr ⟨fun db listed => ?_, set⟩
      rw [keep db fun j mem other => fresh (disjoint i j db listed other ▸ mem), result db,
        if_pos listed]
    · intro db none
      obtain ⟨notHere, none⟩ := forall_mem_cons.mp none
      rw [keep db none, result db, if_neg notHere]

section Separating
variable {n count home first second : Nat} {type : DField} {hash : Option KeyHash}

theorem toNat_ofNat_of_mem {db : Nat} (small : count ≤ 1000) (bound : db < count) :
    (UInt16.ofNat db).toNat = db := by
  rw [UInt16.toNat_ofNat']
  omega

theorem separating_dbIdx (small : count ≤ 1000) (bound : home < count) (i : Nat) :
    ((separatingConfig n count home first second type hash).mach i).dbIdx =
      if i = first then [home] else if i = second then (range count).erase home else [] := by
  simp only [separatingConfig, separating, RawMachine.parse]
  split_ifs
  · simp [toNat_ofNat_of_mem small bound]
  · rw [map_map]
    refine (map_congr_left fun db mem => ?_).trans (map_id _)
    exact toNat_ofNat_of_mem small (mem_range.mp (mem_of_mem_erase mem))
  · rfl

theorem separating_parse (pos : 0 < n) (small : count ≤ 1000) (bound : home < count)
    (supported : type ≠ .none ∧ type ≠ .float)
    (spread : ¬ ((type = .string ∨ type = .binary) ∧ hash = none)) :
    (separating n count home first second type hash).parseDbConfig =
      some (separatingConfig n count home first second type hash) := by
  have pair : parseNumber true (some (1, UInt32.ofNat count)) = some (1, count) := by
    have value : (UInt32.ofNat count).toNat = count := by
      rw [UInt32.toNat_ofNat']
      omega
    have nonzero : UInt32.ofNat count ≠ 0 := by
      intro zero
      rw [zero] at value
      exact absurd value.symm (by simp; omega)
    simp [parseNumber, nonzero, value]
  have listed : ∀ i, ∀ db ∈ ((separating n count home first second type hash).machine i).databaseIndex,
      db.toNat < count := by
    intro i db mem
    have inside : db.toNat ∈
        ((separatingConfig n count home first second type hash).mach i).dbIdx :=
      mem_map_of_mem mem
    rw [separating_dbIdx small bound] at inside
    split_ifs at inside
    · rw [mem_singleton] at inside
      omega
    · exact mem_range.mp (mem_of_mem_erase inside)
    · cases inside
  have numbers : parseNumber ((BitVec.ofInt 8 1).getLsbD 0) (some (1, UInt32.ofNat count)) =
      some (1, count) := pair
  have tables : parseNumber ((BitVec.ofInt 8 1).getLsbD 1) none = some (1, 1) := rfl
  have valid : ¬ (range n).any (fun i =>
      ((separating n count home first second type hash).machine i).databaseIndex.any
        fun db => count ≤ db.toNat) = true := by
    simp only [any_eq_true, decide_eq_true_eq, not_exists, not_and, not_le]
    exact fun i _ => listed i
  rw [RawConfig.parseDbConfig, if_neg (by simp only [separating]; omega)]
  simp only [separating] at valid ⊢
  simp only [numbers, tables, Int.toNat_natCast, max_self]
  have some_work : (HelperType.mysql != .dummy && some Workload.byMaster == none) = false := rfl
  rw [if_neg (by omega), if_neg (by omega)]
  simp only [some_work, Bool.or_false]
  rw [if_neg valid, if_neg (by simp [supported]), if_neg (by simpa using spread)]
  rfl

theorem separating_built (small : count ≤ 1000) (bound : home < count) (ne : first ≠ second)
    (firstBound : first < n) (secondBound : second < n)
    (real : toShort first ≠ -1 ∧ toShort second ≠ -1) :
    ∃ groupMap, (separatingConfig n count home first second type hash).buildMasterGroupMapping =
      some groupMap ∧ groupMap home = toShort first := by
  have lists := @separating_dbIdx n count home first second type hash small bound
  set cfg := separatingConfig n count home first second type hash
  have mem_iff : ∀ i db, db ∈ (cfg.mach i).dbIdx ↔
      i = first ∧ db = home ∨ i = second ∧ db < count ∧ db ≠ home := by
    intro i db
    rw [lists i]
    split_ifs with isFirst isSecond
    · simp [isFirst, ne]
    · simp [isSecond, nodup_range.mem_erase_iff, ne.symm, and_comm]
    · simp [isFirst, isSecond]
  have procs := fun i => RawMachine.parse_procs
    (m := (separating n count home first second type hash).machine i) ⟨rfl, rfl, rfl⟩
  have busy : ∀ i, (cfg.mach i).procs = 0 → (cfg.mach i).dbIdx = [] := by
    intro i idle
    rcases procs i with ⟨empty, -⟩ | ⟨working, -⟩
    · exact empty
    · exact absurd idle working
  have nodup : ∀ i, (cfg.mach i).dbIdx.Nodup := by
    intro i
    rw [lists i]
    split_ifs
    · exact pairwise_singleton _ home
    · exact nodup_range.erase home
    · exact nodup_nil
  have disjoint : ∀ i j db, db ∈ (cfg.mach i).dbIdx → db ∈ (cfg.mach j).dbIdx → i = j := by
    intro i j db hi hj
    rw [mem_iff] at hi hj
    omega
  obtain ⟨groupMap, mapped, set, -⟩ := mapMachines_of_disjoint (@nodup_range n)
    (fun _ => HelperType.noConfusion) busy nodup disjoint
    fun _ _ _ _ => Int.negSucc_lt_zero 0
  have placed : ∀ i db, i < n → db ∈ (cfg.mach i).dbIdx →
      groupMap db = toShort i := fun i db below listed =>
    set i (mem_range.mpr below) db listed
  have atHome := placed first home firstBound ((mem_iff first home).mpr (.inl ⟨rfl, rfl⟩))
  refine ⟨groupMap, ?_, atHome⟩
  rw [buildMasterGroupMapping]
  have mapped : cfg.mapMachines (range cfg.machineCnt) (fun _ => -1) = some groupMap := mapped
  rw [mapped]
  simp only
  rw [if_neg]
  simp only [any_eq_true, mem_range, decide_eq_true_eq, not_exists, not_and]
  intro db below
  by_cases same : db = home
  · rw [same, atHome]
    exact real.1
  · rw [placed second db secondBound ((mem_iff second db).mpr (.inr ⟨rfl, below, same⟩))]
    exact real.2

theorem separating_hasGroup {machine : Nat}
    (busy : ((separatingConfig n count home first second type hash).mach machine).dbIdx ≠ []) :
    (separatingConfig n count home first second type hash).hasGroup machine 0 := by
  rcases RawMachine.parse_procs
    (m := (separating n count home first second type hash).machine machine) ⟨rfl, rfl, rfl⟩ with
    ⟨empty, -⟩ | ⟨-, working⟩
  · exact absurd empty busy
  · rw [hasGroup, Bool.and_eq_true]
    exact ⟨rfl, bne_iff_ne.mpr working⟩

end Separating

/-- A write that nothing holds back. -/
def plainWrite (key : Option KeyValue) : Job where
  requestKey := key
  isGet := false
  requestType := 1
  barrierKey := 0
  guarded := false
  migrating := fun _ => false

/-- The machine of a plain write depends on the group map only. -/
theorem selectGroup_plainWrite {id : Int}
    (mapped : groupMap (cfg.selectNumber key / cfg.dbDiv % cfg.dbMod) = id)
    (real : id ≠ -1 ∧ id ≠ -2) :
    cfg.selectGroup groupMap (plainWrite key) =
      if id < 0 ∨ cfg.machineCnt ≤ id then .undefined else cfg.lastGroup id.toNat 1 := by
  simp only [selectGroup, plainWrite, mapped, real, Bool.false_eq_true, false_and, if_false]

/-- A number other than zero below `2 ^ 63` is no multiple of all of these moduli. -/
theorem exists_modulus_not_dvd {d : Nat} (pos : 0 < d) (bound : d < 2 ^ 63) :
    ∃ p, 2 < p ∧ p ≤ 1000 ∧ p % 2 = 1 ∧ ¬ p ∣ d := by
  by_contra none
  have divides : ∀ p, 2 < p → p ≤ 1000 → p % 2 = 1 → p ∣ d := by
    intro p low high odd
    by_contra notDvd
    exact none ⟨p, low, high, odd, notDvd⟩
  have d₁ := divides 997 (by decide) (by decide) (by decide)
  have d₂ := divides 991 (by decide) (by decide) (by decide)
  have d₃ := divides 983 (by decide) (by decide) (by decide)
  have d₄ := divides 977 (by decide) (by decide) (by decide)
  have d₅ := divides 971 (by decide) (by decide) (by decide)
  have d₆ := divides 967 (by decide) (by decide) (by decide)
  have d₇ := divides 953 (by decide) (by decide) (by decide)
  -- they are pairwise coprime and their product is larger
  have all : 997 * (991 * (983 * (977 * (971 * (967 * 953))))) ∣ d := by
    refine Nat.Coprime.mul_dvd_of_dvd_of_dvd (by norm_num) d₁ ?_
    refine Nat.Coprime.mul_dvd_of_dvd_of_dvd (by norm_num) d₂ ?_
    refine Nat.Coprime.mul_dvd_of_dvd_of_dvd (by norm_num) d₃ ?_
    refine Nat.Coprime.mul_dvd_of_dvd_of_dvd (by norm_num) d₄ ?_
    refine Nat.Coprime.mul_dvd_of_dvd_of_dvd (by norm_num) d₅ ?_
    exact Nat.Coprime.mul_dvd_of_dvd_of_dvd (by norm_num) d₆ d₇
  have large := lt_of_le_of_lt (Nat.le_of_dvd pos all) bound
  norm_num at large

/-- An odd modulus tells two numbers apart if it does not divide half of their distance. -/
theorem mod_ne_of_not_dvd {a b d p : Nat} (distance : b = a + 2 * d) (odd : p % 2 = 1)
    (notDvd : ¬ p ∣ d) : a % p ≠ b % p := by
  intro same
  have twice : p ∣ b - a := (Nat.modEq_iff_dvd' (by omega)).mp same
  rw [distance, Nat.add_sub_cancel_left] at twice
  have coprime : Nat.Coprime p 2 := Nat.coprime_two_right.mpr (Nat.odd_iff.mpr odd)
  exact notDvd (coprime.dvd_of_dvd_mul_left twice)

/-- An unsigned key above `2 ^ 63` and its negative differ modulo a small number. -/
theorem exists_modulus {u : Nat} (low : 2 ^ 63 < u) (high : u < 2 ^ 64) :
    ∃ p, 0 < p ∧ p ≤ 1000 ∧ (2 ^ 64 - u) % p ≠ u % p := by
  obtain ⟨d, same⟩ : ∃ d, u = 2 ^ 63 + d := ⟨u - 2 ^ 63, by omega⟩
  obtain ⟨p, large, small, odd, notDvd⟩ := exists_modulus_not_dvd (d := d) (by omega) (by omega)
  exact ⟨p, by omega, small, mod_ne_of_not_dvd (by omega) odd notDvd⟩

/-- A key that is not read alike: the two numbers differ modulo a small number. -/
theorem exists_count_of_not_routable {type : DField} {hash : Option KeyHash}
    (supported : type ≠ .none ∧ type ≠ .float) (unroutable : ¬ Routable type hash key) :
    hash = none ∧ ∃ count, 0 < count ∧ count ≤ 1000 ∧ ∀ cfg : DbConfig, cfg.keyType = type →
      cfg.keyHash = none → cfg.depoly ≠ 0 → cfg.dbDiv = 1 → cfg.dbMod = count →
      (cfg.initTableName key).1 ≠ cfg.selectNumber key % count := by
  cases key with
  | none => exact absurd trivial unroutable
  | some key =>
    simp only [Routable, not_or, not_and, not_not] at unroutable
    obtain ⟨plain, notString, notBinary, signed, unsigned⟩ := unroutable
    refine ⟨plain, ?_⟩
    cases type with
    | none => exact absurd rfl supported.1
    | float => exact absurd rfl supported.2
    | string => exact absurd rfl notString
    | binary => exact absurd rfl notBinary
    | signed =>
      -- the least key counts as zero and as `2 ^ 63`
      refine ⟨3, by decide, by decide, fun cfg type hash several div mod => ?_⟩
      have least := signed rfl
      simp only [initTableName, tableNumber, selectNumber,
        hashKey, hash, type, several, div, mod, least, Option.map_none, if_false]
      decide
    | unsigned =>
      have range := key.s64.isLt
      have large : 2 ^ 63 < key.s64.toNat := by
        have := unsigned rfl
        omega
      obtain ⟨count, pos, small, ne⟩ := exists_modulus large range
      refine ⟨count, pos, small, fun cfg type hash several div mod => ?_⟩
      have negative : key.s64.toInt < 0 := by
        rw [BitVec.toInt_eq_toNat_cond, if_neg (by omega)]
        omega
      have flipped : (0 - key.s64).toNat = 2 ^ 64 - key.s64.toNat := by
        rw [toNat_zero_sub, Nat.mod_eq_of_lt (by omega)]
      simp only [initTableName, tableNumber, selectNumber,
        hashKey, hash, type, several, div, mod, negative, Option.map_none, if_false,
        if_true, Nat.div_one]
      rw [flipped]
      exact ne.symm

/-- The machine that `select_group` chooses is the one that lists the database of
`init_table_name`, in every configuration that is accepted: exactly if string keys are not hashed
(then there is one machine), or the machines are at most `2 ^ 15` and there is one of them or the
key is read alike. -/
theorem machine_holds_database_iff (n : Nat) (type : DField) (hash : Option KeyHash)
    (key : Option KeyValue) (pos : 0 < n) (supported : type ≠ .none ∧ type ≠ .float) :
    (∀ (raw : RawConfig) (cfg : DbConfig) (groupMap : Nat → Int) (job : Job),
      raw.serverCount = n → raw.keyType = type → raw.keyHash = hash →
      raw.parseDbConfig = some cfg → cfg.buildMasterGroupMapping = some groupMap →
      job.requestKey = key →
      cfg.Holds (cfg.initTableName key).1 (cfg.selectGroup groupMap job)) ↔
    ((type = .string ∨ type = .binary) ∧ hash = none ∨
      n ≤ 2 ^ 15 ∧ (n = 1 ∨ Routable type hash key)) := by
  constructor
  · intro agree
    by_cases single : (type = .string ∨ type = .binary) ∧ hash = none
    · exact .inl single
    refine .inr ⟨?_, ?_⟩
    · -- the machine with the number `2 ^ 15` is not found again
      by_contra many
      have parsed := @separating_parse n 1 0 32768 0 type hash pos (by decide) (by decide) supported
        single
      obtain ⟨groupMap, built, atHome⟩ := @separating_built n 1 0 32768 0 type hash (by decide)
        (by decide) (by decide) (by omega) (by omega) (by decide)
      have holds := agree _ _ groupMap (plainWrite key) rfl rfl rfl parsed built rfl
      have lost : selectGroup (separatingConfig n 1 0 32768 0 type hash) groupMap
          (plainWrite key) = .undefined := by
        have mapped : groupMap (selectNumber
            (separatingConfig n 1 0 32768 0 type hash) key / 1 % 1) = -32768 := by
          rw [Nat.mod_one, atHome]
          decide
        rw [selectGroup_plainWrite mapped (by decide), if_pos (.inl (by decide))]
      rw [lost] at holds
      exact holds
    · by_contra unroutable
      rw [not_or] at unroutable
      obtain ⟨rfl, count, countPos, small, ne⟩ :=
        exists_count_of_not_routable supported unroutable.2
      -- the database of the server is alone on the first machine
      have number : ∀ home, selectNumber (separatingConfig n count home 0 1 type none) key =
          selectNumber (separatingConfig n count 0 0 1 type none) key := fun _ => rfl
      generalize selectNumber (separatingConfig n count 0 0 1 type none) key = uk at number
      have bound := Nat.mod_lt uk countPos
      have parsed := @separating_parse n count (uk % count) 0 1 type none pos small bound supported
        single
      obtain ⟨groupMap, built, atHome⟩ := @separating_built n count (uk % count) 0 1 type none small
        bound (by decide) pos (by omega) (by decide)
      have holds := agree _ _ groupMap (plainWrite key) rfl rfl rfl parsed built rfl
      have list := @separating_dbIdx n count (uk % count) 0 1 type none small bound 0
      rw [if_pos rfl] at list
      have group := separating_hasGroup (list ▸ cons_ne_nil _ _)
      have chosen : selectGroup (separatingConfig n count (uk % count) 0 1 type none)
          groupMap (plainWrite key) = .group 0 0 := by
        have mapped : groupMap (selectNumber
            (separatingConfig n count (uk % count) 0 1 type none) key / 1 % count) = 0 := by
          rw [number, Nat.div_one, atHome]
          decide
        have below : ¬ ((0 : Int) < 0 ∨ (n : Int) ≤ 0) := by omega
        rw [selectGroup_plainWrite mapped (by decide)]
        exact (if_neg below).trans (if_pos group)
      rw [chosen] at holds
      have listed := holds.2.1
      rw [list, mem_singleton] at listed
      have several : (1 : BitVec 8) ≠ 0 := by decide
      refine ne _ rfl rfl several rfl rfl (listed.trans ?_)
      rw [number]
  · rintro condition raw cfg groupMap job count rfl rfl parsed built rfl
    have accepted := RawConfig.parseDbConfig_accepted parsed
    have machines : cfg.machineCnt = n := by
      rw [accepted.machineCnt, count, Int.toNat_natCast]
    have single : cfg.machineCnt = 1 → cfg.Holds (cfg.initTableName job.requestKey).1
        (cfg.selectGroup groupMap job) := fun one =>
      holds_of_single built one (initTableName_lt accepted _)
        (selectGroup_holds built (by omega) job)
    rcases condition with ⟨string, plain⟩ | ⟨few, one | routable⟩
    · exact single (accepted.unhashed string plain).2
    · exact single (machines.trans one)
    · rw [← database_eq accepted routable]
      exact selectGroup_holds built (by omega) job

theorem machine_holds_database_seven :
    ∃ groupMap, (separatingConfig 2 3 1 0 1 .unsigned none).buildMasterGroupMapping =
      some groupMap ∧
      DbConfig.Holds (separatingConfig 2 3 1 0 1 .unsigned none)
        (DbConfig.initTableName (separatingConfig 2 3 1 0 1 .unsigned none) (some (.num 7))).1
        (DbConfig.selectGroup (separatingConfig 2 3 1 0 1 .unsigned none) groupMap
          (plainWrite (some (.num 7)))) := by
  have parsed := @separating_parse 2 3 1 0 1 .unsigned none (by decide) (by decide) (by decide)
    (by decide) (by simp)
  obtain ⟨groupMap, built, -⟩ := @separating_built 2 3 1 0 1 .unsigned none (by decide) (by decide)
    (by decide) (by decide) (by decide) (by decide)
  have routable : Routable .unsigned none (some (.num 7)) :=
    .inr (.inr (.inr (.inr ⟨rfl, by decide⟩)))
  refine ⟨groupMap, built, ?_⟩
  exact (machine_holds_database_iff 2 .unsigned none (some (.num 7)) (by decide) (by decide)).mpr
    (.inr ⟨by decide, .inr routable⟩) _ _ groupMap (plainWrite _) rfl rfl rfl parsed built rfl

/-- Three databases on two machines, and the unsigned key `2 ^ 63 + 1`: the server takes its
negative and sends the request to the machine of database 1, the connector names database 0. -/
theorem large_unsigned_key_misplaced :
    (separating 2 3 1 0 1 .unsigned none).parseDbConfig =
      some (separatingConfig 2 3 1 0 1 .unsigned none) ∧
    ((separatingConfig 2 3 1 0 1 .unsigned none).buildMasterGroupMapping.map fun groupMap =>
      DbConfig.selectGroup (separatingConfig 2 3 1 0 1 .unsigned none) groupMap
        (plainWrite (some (.num (BitVec.ofNat 64 (2 ^ 63 + 1)))))) = some (.group 0 0) ∧
    DbConfig.initTableName (separatingConfig 2 3 1 0 1 .unsigned none)
      (some (.num (BitVec.ofNat 64 (2 ^ 63 + 1)))) = (0, 0) ∧
    ((separatingConfig 2 3 1 0 1 .unsigned none).mach 0).dbIdx = [1] ∧
    ((separatingConfig 2 3 1 0 1 .unsigned none).mach 1).dbIdx = [0, 2] := by
  refine ⟨?_, ?_, ?_, ?_, ?_⟩
  · exact separating_parse (by decide) (by decide) (by decide) (by decide) (by simp)
  all_goals decide +kernel

end Dtc.Shard
