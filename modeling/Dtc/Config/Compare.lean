import Dtc.Raw.RawData

/-!
# Comparing configurations

`Compare` decides whether a new configuration may take the place of the one in use. What it is to
decide is `Agree`: the same numbers, fields and, in any order, machines. Machines are compared by
what a connection needs, the second role only if the mode uses it.
-/

namespace Dtc.Config

open Raw List

/-- A role of a machine, as far as it is compared. -/
structure Role where
  addr : List UInt8
  user : List UInt8
  pass : List UInt8
  deriving DecidableEq

structure MachineConfig where
  master : Role
  slave : Role
  mode : Int

structure FieldConfig where
  name : List UInt8
  type : DField
  size : Int
  flags : Int
  dval : DTCValue

/-- The numbers that are compared. -/
structure Numbers where
  depoly : BitVec 8
  keyFieldCnt : Int
  idxFieldCnt : Int
  databaseMaxCount : Int
  dbDiv : BitVec 32
  dbMod : BitVec 32
  tblMod : BitVec 32
  tblDiv : BitVec 32
  deriving DecidableEq

structure DbConfig where
  numbers : Numbers
  field : List FieldConfig
  mach : List MachineConfig

/-- `MachineConfig::is_same` -/
def MachineConfig.isSame (m n : MachineConfig) : Bool :=
  if m.master ≠ n.master then false
  else if m.mode ≠ n.mode then false
  else if 0 < m.mode then m.slave = n.slave
  else true

/-- `FieldConfig::is_same` -/
def FieldConfig.isSame (f g : FieldConfig) : Bool :=
  if f.type ≠ g.type ∧ f.size ≠ g.size ∧ f.flags ≠ g.flags ∧ f.name ≠ g.name then false
  else
    match f.type with
    | .signed | .unsigned | .float => f.dval.num = g.dval.num
    | .string | .binary => f.dval.bin = g.dval.bin
    | .none => false

namespace DbConfig

/-- `compare_mach` -/
def compareMach (a b : DbConfig) : Bool :=
  a.mach.length = b.mach.length ∧ ∀ m ∈ a.mach, ∃ n ∈ b.mach, m.isSame n

/-- `Compare` -/
def compare (a b : DbConfig) (withMach : Bool) : Bool :=
  (!withMach || a.compareMach b) && a.numbers = b.numbers && a.field.length = b.field.length &&
    (a.field.zip b.field).all fun p => p.1.isSame p.2

end DbConfig

/-- What a connection to a machine needs. -/
def MachineConfig.key (m : MachineConfig) : Role × Int × Option Role :=
  (m.master, m.mode, if 0 < m.mode then some m.slave else none)

/-- The attributes of a field. -/
def FieldConfig.head (f : FieldConfig) : List UInt8 × DField × Int × Int :=
  (f.name, f.type, f.size, f.flags)

/-- The default of a field. -/
def FieldConfig.default (f : FieldConfig) : BitVec 64 ⊕ DTCBinary :=
  match f.type with
  | .string | .binary => .inr f.dval.bin
  | _ => .inl f.dval.num

def FieldConfig.key (f : FieldConfig) := (f.head, f.default)

/-- Fields that are told apart: all four attributes differ, or the default does. A field without a
type is told apart from every field. -/
def FieldConfig.Apart (f g : FieldConfig) : Prop :=
  f.type ≠ g.type ∧ f.size ≠ g.size ∧ f.flags ≠ g.flags ∧ f.name ≠ g.name ∨
    match f.type with
    | .signed | .unsigned | .float => f.dval.num ≠ g.dval.num
    | .string | .binary => f.dval.bin ≠ g.dval.bin
    | .none => True

namespace DbConfig

/-- Configurations that are told apart. -/
inductive Apart (a b : DbConfig) : Prop
  | numbers (differ : a.numbers ≠ b.numbers)
  | fieldCnt (differ : a.field.length ≠ b.field.length)
  | field {f g : FieldConfig} (pair : (f, g) ∈ a.field.zip b.field) (apart : f.Apart g)
  | machineCnt (differ : a.mach.length ≠ b.mach.length)
  | machine {m : MachineConfig} (mem : m ∈ a.mach) (missing : ∀ n ∈ b.mach, m.key ≠ n.key)

/-- What the comparison is to decide. -/
structure Agree (a b : DbConfig) : Prop where
  numbers : a.numbers = b.numbers
  fields : a.field.map FieldConfig.key = b.field.map FieldConfig.key
  machines : (a.mach.map MachineConfig.key).Perm (b.mach.map MachineConfig.key)

/-- Among these configurations `Compare` is an equivalence and right. -/
structure Right (S : Set DbConfig) : Prop where
  refl : ∀ a ∈ S, a.compare a true
  symm : ∀ a ∈ S, ∀ b ∈ S, a.compare b true → b.compare a true
  trans : ∀ a ∈ S, ∀ b ∈ S, ∀ c ∈ S, a.compare b true → b.compare c true → a.compare c true
  agree : ∀ a ∈ S, ∀ b ∈ S, a.compare b true → a.Agree b

end DbConfig

theorem MachineConfig.isSame_iff {m n : MachineConfig} : m.isSame n = true ↔ m.key = n.key := by
  unfold isSame key
  split_ifs <;> simp_all

/-- Fields with the same attributes are the same if their defaults are. -/
theorem FieldConfig.isSame_iff {f g : FieldConfig} (heads : f.head = g.head) :
    f.isSame g = true ↔ f.type ≠ .none ∧ f.key = g.key := by
  have type : f.type = g.type := congrArg (·.2.1) heads
  rw [key, key, heads, Prod.mk.injEq, eq_self, true_and]
  unfold isSame default
  rw [if_neg fun differ => differ.1 type, ← type]
  cases f.type <;> simp

theorem FieldConfig.apart_iff {f g : FieldConfig} : f.Apart g ↔ ¬ f.isSame g = true := by
  unfold Apart isSame
  split_ifs with differ
  · simp [differ]
  · rw [or_iff_right differ]
    cases f.type <;> simp

theorem map_eq_map_iff_forall₂ {α κ : Type} {key : α → κ} {l l' : List α} :
    l.map key = l'.map key ↔ Forall₂ (fun a b => key a = key b) l l' := by
  rw [← forall₂_eq_eq_eq, forall₂_map_left_iff, forall₂_map_right_iff]

namespace DbConfig
variable {a b : DbConfig}

theorem compareMach_iff : a.compareMach b = true ↔ a.mach.length = b.mach.length ∧
    a.mach.map MachineConfig.key ⊆ b.mach.map MachineConfig.key := by
  rw [compareMach, decide_eq_true_eq]
  refine and_congr_right fun _ => ?_
  simp only [MachineConfig.isSame_iff]
  constructor
  · intro found key mem
    obtain ⟨m, hm, rfl⟩ := mem_map.mp mem
    obtain ⟨n, hn, same⟩ := found m hm
    exact mem_map.mpr ⟨n, hn, same.symm⟩
  · intro subset m hm
    obtain ⟨n, hn, same⟩ := mem_map.mp (subset (mem_map_of_mem hm))
    exact ⟨n, hn, same.symm⟩

theorem compare_iff : a.compare b true = true ↔ a.compareMach b = true ∧ a.numbers = b.numbers ∧
    Forall₂ (fun f g => f.isSame g = true) a.field b.field := by
  simp [compare, forall₂_iff_zip, and_assoc]

/-- `Compare` says no exactly to configurations that are told apart. -/
theorem apart_iff : a.Apart b ↔ ¬ a.compare b true = true := by
  rw [compare_iff, compareMach_iff, forall₂_iff_zip]
  constructor
  · rintro (differ | differ | ⟨pair, apart⟩ | differ | ⟨mem, missing⟩) ⟨⟨count, among⟩, numbers, length, fields⟩
    · exact differ numbers
    · exact differ length
    · exact FieldConfig.apart_iff.mp apart (fields pair)
    · exact differ count
    · obtain ⟨n, hn, same⟩ := mem_map.mp (among (mem_map_of_mem mem))
      exact missing n hn same.symm
  · intro differ
    by_contra together
    refine differ ⟨⟨?_, fun key mem => ?_⟩, ?_, ?_, fun {f g} pair => ?_⟩
    · by_contra differ
      exact together (.machineCnt differ)
    · obtain ⟨m, hm, rfl⟩ := mem_map.mp mem
      by_contra missing
      exact together (.machine hm fun n hn same => missing (mem_map.mpr ⟨n, hn, same.symm⟩))
    · by_contra differ
      exact together (.numbers differ)
    · by_contra differ
      exact together (.fieldCnt differ)
    · by_contra apart
      exact together (.field pair (FieldConfig.apart_iff.mpr apart))

theorem Agree.equivalence : Equivalence Agree where
  refl _ := ⟨rfl, rfl, .refl _⟩
  symm agree := ⟨agree.numbers.symm, agree.fields.symm, agree.machines.symm⟩
  trans first second := ⟨first.numbers.trans second.numbers, first.fields.trans second.fields,
    first.machines.trans second.machines⟩

/-- It is enough that the attributes of the fields and the machines agree. -/
theorem agree_of_compare (same : a.compare b true = true)
    (heads : a.field.map FieldConfig.head = b.field.map FieldConfig.head)
    (machines : (a.mach.map MachineConfig.key).Perm (b.mach.map MachineConfig.key)) : a.Agree b := by
  obtain ⟨-, numbers, fields⟩ := compare_iff.mp same
  refine ⟨numbers, map_eq_map_iff_forall₂.mpr ?_, machines⟩
  refine Forall₂.mp (fun f g heads same => ?_) (map_eq_map_iff_forall₂.mp heads) fields
  exact ((FieldConfig.isSame_iff heads).mp same).2

theorem compare_of_agree (typed : ∀ f ∈ a.field, f.type ≠ .none) (agree : a.Agree b) :
    a.compare b true = true := by
  refine compare_iff.mpr ⟨compareMach_iff.mpr ⟨?_, agree.machines.subset⟩, agree.numbers, ?_⟩
  · simpa using agree.machines.length_eq
  · have fields := map_eq_map_iff_forall₂.mp agree.fields
    refine ((forall₂_and_left _ _).mpr ⟨typed, fields⟩).imp fun f g ⟨type, same⟩ => ?_
    exact (FieldConfig.isSame_iff (Prod.mk.inj same).1).mpr ⟨type, same⟩

end DbConfig
end Dtc.Config
