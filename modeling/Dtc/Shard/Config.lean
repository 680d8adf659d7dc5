import Dtc.Raw.RawData

/-!
# Databases, machines and keys

A table is spread over databases and these over machines. The cache server and the
connector work out the place of a key on their own, from one configuration:
`select_group` chooses the machine whose helpers get a request, `init_table_name` the
database that the helper then names in its statements.

Of a configuration file the model keeps the values that the placement depends on:
`RawConfig` holds what `get_int_val` and `sscanf` return, and `ParseDbLine` for the
database list of a machine. A float key is refused when the configuration is parsed.
-/

namespace Dtc.Shard

open Library.Memory Raw

inductive HelperType
  | dummy | dtc | mysql | tdb | custom
  deriving DecidableEq

/-- `mode`: which role of a machine serves a read. -/
inductive Workload
  | byMaster | bySlave | byDb | byTable | byKey
  deriving DecidableEq

/-- The plugin that hashes keys, with the part of the key it reads. -/
structure KeyHash where
  keyHashFunction : List UInt8 → Int → Int → BitVec 64
  keyHashLeftBegin : Int
  keyHashRightBegin : Int

/-- A `MACHINE` section. -/
structure RawMachine where
  helperType : HelperType
  /-- `none`: not one of the names -/
  workload : Option Workload
  databaseIndex : List UInt16
  procs : Int
  writeProcs : Int
  commitProcs : Int

structure RawConfig where
  serverCount : Int
  deploy : Int
  /-- `none`: not of the form `(div,mod)` -/
  databaseNumber : Option (UInt32 × UInt32)
  tableNum : Option (UInt32 × UInt32)
  databaseMaxCount : Int
  keyHash : Option KeyHash
  machine : Nat → RawMachine
  keyType : DField
  /-- the key is filled in by the database -/
  autoIncKey : Bool

structure MachineConfig where
  helperType : HelperType
  mode : Workload
  dbIdx : List Nat
  /-- `gprocs`; the fourth group is that of the slave -/
  gprocs : Nat → Nat
  procs : Nat

structure DbConfig where
  /-- 0: none, 1: multiple databases, 2: multiple tables, 3: both -/
  depoly : BitVec 8
  dbDiv : Nat
  dbMod : Nat
  tblDiv : Nat
  tblMod : Nat
  machineCnt : Nat
  databaseMaxCount : Nat
  keyHash : Option KeyHash
  mach : Nat → MachineConfig
  keyType : DField

/-- The machine loop of `parse_db_config`, one machine. -/
def RawMachine.parse (m : RawMachine) : MachineConfig :=
  let dbIdx := m.databaseIndex.map UInt16.toNat
  let idle := dbIdx.isEmpty
  let count (procs : Int) : Nat := if idle then 0 else (procs % 2 ^ 16).toNat
  let mode := if idle ∨ m.helperType = .dummy then .byMaster else m.workload.getD .byMaster
  let gprocs (j : Nat) : Nat :=
    match j with
    | 0 => count m.procs
    | 1 => count m.writeProcs
    | 2 => count m.commitProcs
    | _ => if mode = .byMaster then 0 else count m.procs
  { helperType := m.helperType
    mode
    dbIdx
    gprocs
    procs := (gprocs 0 + gprocs 1 + gprocs 2) % 2 ^ 16 }

/-- A `(div,mod)` pair of the configuration, `(1,1)` if the deployment does not use it. -/
def parseNumber (used : Bool) (number : Option (UInt32 × UInt32)) : Option (Nat × Nat) :=
  if used then
    match number with
    | some (div, mod) => if div = 0 ∨ mod = 0 then none else some (div.toNat, mod.toNat)
    | none => none
  else some (1, 1)

/-- `parse_db_config` -/
def RawConfig.parseDbConfig (raw : RawConfig) : Option DbConfig :=
  if raw.serverCount ≤ 0 then none
  else
    let depoly := BitVec.ofInt 8 raw.deploy
    match parseNumber (depoly.getLsbD 0) raw.databaseNumber,
      parseNumber (depoly.getLsbD 1) raw.tableNum with
    | some (dbDiv, dbMod), some (tblDiv, tblMod) =>
      if 1000000 < dbMod then none
      else if raw.databaseMaxCount < 0 ∨ 10000 < raw.databaseMaxCount then none
      else
        let machineCnt := raw.serverCount.toNat
        let databaseMaxCount := max raw.databaseMaxCount.toNat dbMod
        let bad (i : Nat) : Bool :=
          (raw.machine i).databaseIndex.any (fun db => databaseMaxCount ≤ db.toNat) ||
            (raw.machine i).helperType != .dummy && (raw.machine i).workload == none
        if (List.range machineCnt).any bad then none
        else if raw.keyType = .none ∨ raw.keyType = .float then none
        else if ((raw.keyType = .string ∨ raw.keyType = .binary) ∧ raw.keyHash.isNone ∨
            raw.autoIncKey) ∧ (machineCnt ≠ 1 ∨ databaseMaxCount ≠ 1 ∨ depoly ≠ 0) then none
        else
          some
            { depoly, dbDiv, dbMod, tblDiv, tblMod, machineCnt, databaseMaxCount
              keyHash := raw.keyHash
              mach := fun i => (raw.machine i).parse
              keyType := raw.keyType }
    | _, _ => none

namespace DbConfig
variable (cfg : DbConfig)

/-- A database number in the `short` of a group map. -/
def toShort (n : Int) : Int := n.bmod (2 ^ 16)

/-- `build_master_group_mapping`: the databases of one machine; `none` is a duplicate. -/
def mapDatabases (gmId : Int) : List Nat → (Nat → Int) → Option (Nat → Int)
  | [], groupMap => some groupMap
  | db :: dbs, groupMap =>
    if 0 ≤ groupMap db then none
    else mapDatabases gmId dbs (Function.update groupMap db (toShort gmId))

/-- `build_master_group_mapping`: the loop over the machines. -/
def mapMachines : List Nat → (Nat → Int) → Option (Nat → Int)
  | [], groupMap => some groupMap
  | i :: is, groupMap =>
    let m := cfg.mach i
    if m.helperType = .dummy then
      (mapDatabases (-2) m.dbIdx groupMap).bind (mapMachines is)
    else if m.procs = 0 then mapMachines is groupMap
    else (mapDatabases i m.dbIdx groupMap).bind (mapMachines is)

/-- `build_master_group_mapping`: the number of the machine of each database, `GMAP_NONE` -1 and
`GMAP_DUMMY` -2. -/
def buildMasterGroupMapping : Option (Nat → Int) :=
  match cfg.mapMachines (List.range cfg.machineCnt) (fun _ => -1) with
  | none => none
  | some groupMap =>
    if (List.range cfg.databaseMaxCount).any (fun db => groupMap db = -1) then none
    else some groupMap

end DbConfig

/-- The value of a key. A string is in the same memory as the numbers are; `word` is what a read
as `s64` gives. -/
inductive KeyValue
  | num (u64 : BitVec 64)
  | str (bin : List UInt8) (word : BitVec 64)

/-- `s64` -/
def KeyValue.s64 : KeyValue → BitVec 64
  | .num u64 => u64
  | .str _ word => word

/-- The bytes of the member that a field type uses. -/
def KeyValue.bytes : KeyValue → List UInt8
  | .num u64 => leBytes 8 u64.toNat
  | .str bin _ => bin

/-- What `select_group` reads of a job and of the state of the chain. -/
structure Job where
  requestKey : Option KeyValue
  isGet : Bool
  /-- 1 for a read, 2 for a write, 3 for a commit -/
  requestType : Nat
  barrierKey : Nat
  /-- `guard->in_set` -/
  guarded : Bool
  /-- whether a configuration that is being migrated to has a group for a number -/
  migrating : Nat → Bool

inductive Choice
  | null
  | dummy
  | readonly
  | group (machine slot : Nat)
  /-- the group array is read out of its bounds -/
  | undefined
  deriving DecidableEq

namespace DbConfig
variable (cfg : DbConfig)

/-- The key hash, if it is enabled. -/
def hashKey (key : KeyValue) : Option Nat :=
  cfg.keyHash.map fun h =>
    (h.keyHashFunction key.bytes h.keyHashLeftBegin h.keyHashRightBegin).toNat

/-- `select_group`: the number `uk` of a key. -/
def selectNumber : Option KeyValue → Nat
  | none => 0
  | some key =>
    match cfg.hashKey key with
    | some uk => uk
    | none => if key.s64.toInt < 0 then (0 - key.s64).toNat else key.s64.toNat

/-- A group exists if it has processes. -/
def hasGroup (machine slot : Nat) : Bool :=
  (cfg.mach machine).helperType != .dummy && (cfg.mach machine).gprocs slot != 0

/-- `select_group`: the last group before the request type that exists. -/
def lastGroup (machine : Nat) : Nat → Choice
  | 0 => .null
  | g + 1 => if cfg.hasGroup machine g then .group machine g else lastGroup machine g

/-- `select_group` -/
def selectGroup (groupMap : Nat → Int) (job : Job) : Choice :=
  let uk := cfg.selectNumber job.requestKey
  if job.migrating uk ∧ ¬ job.isGet then .readonly
  else
    let machineId := groupMap (uk / cfg.dbDiv % cfg.dbMod)
    if machineId = -1 then .null
    else if machineId = -2 then .dummy
    else if machineId < 0 ∨ cfg.machineCnt ≤ machineId then .undefined
    else
      let machine := machineId.toNat
      if job.isGet ∧ cfg.hasGroup machine 3 ∧ ¬ job.guarded then
        let role :=
          match (cfg.mach machine).mode with
          | .byMaster => 0
          | .bySlave => 1
          -- the cases of the source fall through to the last one
          | .byDb | .byTable | .byKey => job.barrierKey % 2
        if cfg.hasGroup machine (role * 3) then .group machine (role * 3) else .null
      else cfg.lastGroup machine job.requestType

/-- `init_table_name`: the number `n` of a key. -/
def tableNumber (key : KeyValue) : Nat :=
  match cfg.hashKey key with
  | some n => n
  | none =>
    match cfg.keyType with
    | .signed =>
      if 0 ≤ key.s64.toInt then key.s64.toNat
      else if key.s64 = BitVec.intMin 64 then 0
      else (0 - key.s64).toNat
    | .unsigned => key.s64.toNat
    | _ => 0

/-- `init_table_name`: the numbers of the database and of the table. -/
def initTableName : Option KeyValue → Nat × Nat
  | none => (0, 0)
  | some key =>
    if cfg.depoly = 0 then (0, 0)
    else
      let n := cfg.tableNumber key
      (n / cfg.dbDiv % cfg.dbMod, n / cfg.tblDiv % cfg.tblMod)

end DbConfig

end Dtc.Shard
