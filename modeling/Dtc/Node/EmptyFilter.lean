import Dtc.Library.Bits
import Dtc.Library.Machine

/-!
# The empty-node filter

A bitmap of keys, spread over `enf_mod` tables. The tables grow on demand by multiples of
`enf_step` bytes, and a key outside its table is not set. The bytes a reallocation adds are not
cleared, and a failed one leaves the table without a block but with its size, so that its bits are
then looked up through a null pointer, and the process dies.
-/

namespace Dtc.Node

open Library.Bits Library.Machine Function

section Bits

abbrev Byte := BitVec 8

/-- The bytes from an address on. -/
abbrev Bytes := Nat → Byte

/-- `ISSET_B` -/
def issetB (bit : Nat) (addr : Bytes) : Bool := addr (bit / 8) &&& (1#8 <<< (bit % 8)) ≠ 0

/-- `SET_B` -/
def setB (bit : Nat) (addr : Bytes) : Bytes :=
  Function.update addr (bit / 8) (setBit (addr (bit / 8)) (bit % 8))

/-- `CLR_B` -/
def clrB (bit : Nat) (addr : Bytes) : Bytes :=
  Function.update addr (bit / 8) (clearBit (addr (bit / 8)) (bit % 8))

theorem issetB_eq_getLsbD (bit : Nat) (addr : Bytes) :
    issetB bit addr = (addr (bit / 8)).getLsbD (bit % 8) := by
  have inByte : bit % 8 < 8 := Nat.mod_lt _ (by decide)
  have single : ∀ (b : Byte) (k : Fin 8), (decide (b &&& (1#8 <<< k.val) ≠ 0)) = b.getLsbD k.val := by
    decide +kernel
  exact single (addr (bit / 8)) ⟨bit % 8, inByte⟩

theorem issetB_setB (bit other : Nat) (addr : Bytes) :
    issetB other (setB bit addr) = (decide (other = bit) || issetB other addr) := by
  rw [issetB_eq_getLsbD, issetB_eq_getLsbD, setB]
  by_cases sameByte : other / 8 = bit / 8
  · have sameBit : other = bit ↔ other % 8 = bit % 8 := by omega
    rw [sameByte, update_self, getLsbD_setBit _ _ (Nat.mod_lt _ (by decide))]
    simp only [sameBit]
  · have different : other ≠ bit := fun same => sameByte (by rw [same])
    rw [update_of_ne sameByte]
    simp [different]

theorem issetB_clrB (bit other : Nat) (addr : Bytes) :
    issetB other (clrB bit addr) = (decide (other ≠ bit) && issetB other addr) := by
  rw [issetB_eq_getLsbD, issetB_eq_getLsbD, clrB]
  by_cases sameByte : other / 8 = bit / 8
  · have sameBit : other = bit ↔ other % 8 = bit % 8 := by omega
    rw [sameByte, update_self, getLsbD_clearBit _ _ (Nat.mod_lt _ (by decide))]
    simp only [ne_eq, sameBit]
  · have different : other ≠ bit := fun same => sameByte (by rw [same])
    rw [update_of_ne sameByte]
    simp [different]

end Bits

/-- `DF_ENF_STEP` -/
def defaultStep : UInt32 := 512

/-- `DF_ENF_MOD` -/
def defaultMod : UInt32 := 30000

/-- What `do_init` keeps in the header. -/
structure Params where
  step : UInt32
  mod : UInt32
  step_pos : 0 < step.toNat
  mod_pos : 0 < mod.toNat

/-- Zero asks for the default. -/
def doInit (step mod : UInt32) : Params where
  step := if step = 0 then defaultStep else step
  mod := if mod = 0 then defaultMod else mod
  step_pos := by
    split_ifs with zero
    · decide
    · exact Nat.pos_of_ne_zero fun h => zero (UInt32.toNat_inj.mp h)
  mod_pos := by
    split_ifs with zero
    · decide
    · exact Nat.pos_of_ne_zero fun h => zero (UInt32.toNat_inj.mp h)

/-- `t_handle`, `none` if it is invalid, and `t_size`. -/
structure Table where
  handle : Option Bytes
  size : Nat

structure Filter where
  tables : Nat → Table

def Filter.initial : Filter := ⟨fun _ => ⟨none, 0⟩⟩

/-- A call, with what the reallocation it may need returns: the bytes behind the old ones. -/
inductive Call
  | set (key : UInt32) (memory : Option Bytes)
  | clr (key : UInt32)

def Call.key : Call → UInt32
  | .set key _ | .clr key => key

section Filter
variable (p : Params)

def getIndex (key : UInt32) : Nat := key.toNat % p.mod.toNat

def getOffset (key : UInt32) : Nat := key.toNat / p.mod.toNat

variable (f : Filter)

def Filter.table (key : UInt32) : Table := f.tables (getIndex p key)

/-- The key is inside its table. -/
def Filter.Covers (key : UInt32) : Prop := getOffset p key / 8 + 1 ≤ (f.table p key).size

instance (key : UInt32) : Decidable (f.Covers p key) :=
  inferInstanceAs (Decidable (_ ≤ _))

/-- `ISSET`; through a null pointer the process dies, which is `none`. -/
def isset (key : UInt32) : Option Bool :=
  if f.Covers p key then (f.table p key).handle.map (issetB (getOffset p key)) else some false

def Filter.setTable (index : Nat) (t : Table) : Filter :=
  { f with tables := Function.update f.tables index t }

/-- Write through the handle of a table. -/
def Filter.write (index : Nat) (change : Bytes → Bytes) : Option Filter :=
  (f.tables index).handle.map fun bytes =>
    f.setTable index ⟨some (change bytes), (f.tables index).size⟩

/-- The size a table grows to, in the arithmetic of `uint32_t`. -/
def grownSize (size bitoff : Nat) : Nat :=
  let incbyte := bitoff / 8 + 1 - size
  let how := (incbyte + p.step.toNat - 1) % 2 ^ 32 / p.step.toNat
  (size + how * p.step.toNat) % 2 ^ 32

/-- The reallocated block: the old bytes, as far as there are any, and then whatever was there. -/
def reallocated (t : Table) (size : Nat) (memory : Bytes) : Bytes := fun i =>
  match t.handle with
  | some bytes => if i < min t.size size then bytes i else memory i
  | none => memory i

/-- `SET`, and whether the bit was written. -/
def set (key : UInt32) (memory : Option Bytes) : Bool × Option Filter :=
  let bitoff := getOffset p key
  let index := getIndex p key
  let t := f.tables index
  if f.Covers p key then (true, f.write index (setB bitoff))
  else
    match memory with
    | none => (false, some (f.setTable index ⟨none, t.size⟩))
    | some memory =>
      let size := grownSize p t.size bitoff
      let f := f.setTable index ⟨some (reallocated t size memory), size⟩
      (true, f.write index (setB bitoff))

def clr (key : UInt32) : Option Filter :=
  if f.Covers p key then f.write (getIndex p key) (clrB (getOffset p key)) else some f

/-- A call, as long as the process lives. -/
def step : Option Filter → Call → Bool × Option Filter
  | none, _ => (false, none)
  | some f, .set key memory => set p f key memory
  | some f, .clr key => (true, clr p f key)

/-- A table grows into cleared memory, by a step that does not overflow, and only an empty table
fails to grow. -/
def Call.Legal : Call → Prop
  | .clr _ => True
  | .set key memory =>
    f.Covers p key ∨ getOffset p key / 8 + p.step.toNat < 2 ^ 32 ∧
      match memory with
      | none => (f.table p key).size = 0
      | some memory => ∀ i, (f.table p key).size ≤ i →
          i < grownSize p (f.table p key).size (getOffset p key) → memory i = 0

end Filter

/-- The last call on the key is a `SET` that wrote the bit. -/
def LastSet (log : List (Call × Bool)) (key : UInt32) : Prop :=
  ∃ before memory after, log = before ++ (.set key memory, true) :: after ∧
    ∀ entry ∈ after, entry.1.key ≠ key

section Steps
variable {p : Params} {f : Filter}

theorem key_eq_iff {key key' : UInt32} :
    key' = key ↔ getIndex p key' = getIndex p key ∧ getOffset p key' = getOffset p key := by
  constructor
  · rintro rfl
    exact ⟨rfl, rfl⟩
  · rintro ⟨index, offset⟩
    refine UInt32.toNat_inj.mp ?_
    rw [← Nat.div_add_mod key'.toNat p.mod.toNat, ← Nat.div_add_mod key.toNat p.mod.toNat]
    exact congrArg₂ (fun d m => p.mod.toNat * d + m) offset index

theorem grownSize_bounds {size bitoff : Nat} (short : size < bitoff / 8 + 1)
    (fits : bitoff / 8 + p.step.toNat < 2 ^ 32) : bitoff / 8 + 1 ≤ grownSize p size bitoff := by
  have pos := p.step_pos
  unfold grownSize
  dsimp only
  generalize p.step.toNat = step at pos fits ⊢
  have small : bitoff / 8 + 1 - size + step - 1 < 2 ^ 32 := by omega
  rw [Nat.mod_eq_of_lt small]
  generalize total : bitoff / 8 + 1 - size + step - 1 = n at small ⊢
  have split := Nat.div_add_mod n step
  have rest := Nat.mod_lt n pos
  rw [Nat.mul_comm] at split
  omega

/-- The bit of a key, where there is a block. -/
def Filter.Has (f : Filter) (p : Params) (key : UInt32) : Prop :=
  f.Covers p key ∧ ∃ bytes, (f.table p key).handle = some bytes ∧ issetB (getOffset p key) bytes = true

/-- A table with a size has a block. -/
def Filter.Sound (f : Filter) : Prop :=
  ∀ index, (f.tables index).handle = none → (f.tables index).size = 0

theorem Filter.has_setTable (index : Nat) (t : Table) (key : UInt32) :
    (f.setTable index t).Has p key ↔
      if getIndex p key = index then getOffset p key / 8 + 1 ≤ t.size ∧
        ∃ bytes, t.handle = some bytes ∧ issetB (getOffset p key) bytes = true
      else f.Has p key := by
  by_cases inTable : getIndex p key = index
  · subst inTable
    simp [Filter.Has, Filter.Covers, Filter.table, Filter.setTable]
  · have same : (f.setTable index t).table p key = f.table p key := update_of_ne inTable _ _
    rw [if_neg inTable, Filter.Has, Filter.Covers, same]
    rfl

section
variable (sound : f.Sound)

include sound

variable {key : UInt32}

theorem Filter.Sound.block (covers : f.Covers p key) :
    ∃ bytes, (f.tables (getIndex p key)).handle = some bytes := by
  cases handle : (f.tables (getIndex p key)).handle with
  | some bytes => exact ⟨bytes, rfl⟩
  | none =>
    have empty := sound _ handle
    unfold Filter.Covers Filter.table at covers
    omega

/-- `ISSET` answers, and tells whether the bit is there. -/
theorem Filter.Sound.isset (key : UInt32) :
    ∃ answer, isset p f key = some answer ∧ (answer = true ↔ f.Has p key) := by
  by_cases covers : f.Covers p key
  · obtain ⟨bytes, block⟩ := sound.block covers
    have handle : (f.table p key).handle = some bytes := block
    refine ⟨issetB (getOffset p key) bytes, ?_, ?_⟩
    · rw [Node.isset, if_pos covers, handle]
      rfl
    · simp [Filter.Has, covers, handle]
  · exact ⟨false, if_neg covers, by simp [Filter.Has, covers]⟩

theorem Filter.Sound.setTable (index : Nat) {t : Table} (kept : t.handle = none → t.size = 0) :
    (f.setTable index t).Sound := by
  intro other
  by_cases same : other = index
  · subst same
    simpa [Filter.setTable] using kept
  · simpa [Filter.setTable, same] using sound other

/-- A write through the handle of the table of a key that is inside it. -/
theorem Filter.Sound.write (covers : f.Covers p key) (change : Bytes → Bytes) :
    ∃ f', f.write (getIndex p key) change = some f' ∧ f'.Sound ∧ ∀ key',
      f'.Has p key' ↔ if getIndex p key' = getIndex p key then f.Covers p key' ∧
        ∃ bytes, (f.table p key').handle = some bytes ∧
          issetB (getOffset p key') (change bytes) = true
      else f.Has p key' := by
  obtain ⟨bytes, block⟩ := sound.block covers
  refine ⟨_, by rw [Filter.write, block]; rfl, sound.setTable _ (by simp), fun key' => ?_⟩
  rw [Filter.has_setTable]
  by_cases inTable : getIndex p key' = getIndex p key
  · simp [inTable, Filter.Covers, Filter.table, block]
  · simp [inTable]

/-- Writing the bit of a key that is inside its table. -/
theorem Filter.Sound.write_setB (covers : f.Covers p key) :
    ∃ f', f.write (getIndex p key) (setB (getOffset p key)) = some f' ∧ f'.Sound ∧
      ∀ key', f'.Has p key' ↔ key' = key ∨ f.Has p key' := by
  obtain ⟨f', written, sound', has⟩ := sound.write covers (setB (getOffset p key))
  obtain ⟨bytes, block⟩ := sound.block covers
  refine ⟨f', written, sound', fun key' => ?_⟩
  rw [has]
  by_cases inTable : getIndex p key' = getIndex p key
  · have table : f.table p key' = f.table p key := by simp [Filter.table, inTable]
    have handle : (f.table p key).handle = some bytes := block
    rw [if_pos inTable, Filter.Has, key_eq_iff (p := p), table, handle]
    simp only [Option.some.injEq, exists_eq_left', issetB_setB, Bool.or_eq_true, decide_eq_true_eq,
      inTable, true_and]
    constructor
    · rintro ⟨covered, same | set⟩
      · exact .inl same
      · exact .inr ⟨covered, set⟩
    · rintro (same | ⟨covered, set⟩)
      · refine ⟨?_, .inl same⟩
        rw [Filter.Covers, same, table]
        exact covers
      · exact ⟨covered, .inr set⟩
  · have other : key' ≠ key := fun same => inTable (by rw [same])
    simp [inTable, other]

theorem Filter.Sound.clr (key : UInt32) :
    ∃ f', clr p f key = some f' ∧ f'.Sound ∧ ∀ key', f'.Has p key' ↔ key' ≠ key ∧ f.Has p key' := by
  unfold Node.clr
  by_cases covers : f.Covers p key
  · obtain ⟨f', written, sound', has⟩ := sound.write covers (clrB (getOffset p key))
    obtain ⟨bytes, block⟩ := sound.block covers
    refine ⟨f', by rw [if_pos covers, written], sound', fun key' => ?_⟩
    rw [has]
    by_cases inTable : getIndex p key' = getIndex p key
    · have handle : (f.table p key').handle = some bytes := by
        simp [Filter.table, inTable, block]
      rw [if_pos inTable, Filter.Has, ne_eq, key_eq_iff (p := p), handle]
      simp only [Option.some.injEq, exists_eq_left', issetB_clrB, Bool.and_eq_true,
        decide_eq_true_eq, inTable, true_and, ne_eq]
      exact and_left_comm
    · have other : key' ≠ key := fun same => inTable (by rw [same])
      simp [inTable, other]
  · refine ⟨f, if_neg covers, sound, fun key' => ?_⟩
    constructor
    · intro has
      exact ⟨fun same => covers (same ▸ has.1), has⟩
    · exact fun both => both.2

/-- The table of a key, grown into some memory. -/
def Filter.grown (p : Params) (f : Filter) (key : UInt32) (memory : Bytes) : Table :=
  let size := grownSize p (f.table p key).size (getOffset p key)
  ⟨some (reallocated (f.table p key) size memory), size⟩

/-- Growing a table into cleared memory does not change what is set. -/
theorem has_grown {memory : Bytes} (outside : ¬ f.Covers p key)
    (fits : getOffset p key / 8 + p.step.toNat < 2 ^ 32) (cleared : ∀ i, (f.table p key).size ≤ i →
      i < grownSize p (f.table p key).size (getOffset p key) → memory i = 0) (key' : UInt32) :
    (f.setTable (getIndex p key) (f.grown p key memory)).Has p key' ↔ f.Has p key' := by
  have short : (f.table p key).size < getOffset p key / 8 + 1 := Nat.lt_of_not_le outside
  have grown := grownSize_bounds (p := p) short fits
  rw [Filter.has_setTable]
  by_cases inTable : getIndex p key' = getIndex p key
  · have table : f.table p key' = f.table p key := by simp [Filter.table, inTable]
    rw [if_pos inTable]
    simp only [Filter.grown, Option.some.injEq, exists_eq_left']
    by_cases covered : f.Covers p key'
    · obtain ⟨bytes, block⟩ := sound.block covered
      have inside : getOffset p key' / 8 + 1 ≤ (f.table p key).size := by
        rw [← table]
        exact covered
      have handle : (f.table p key).handle = some bytes := by rw [← table]; exact block
      have old : getOffset p key' / 8 < min (f.table p key).size
          (grownSize p (f.table p key).size (getOffset p key)) := by
        refine Nat.lt_min.mpr ⟨by omega, by omega⟩
      have byte : issetB (getOffset p key') (reallocated (f.table p key)
          (grownSize p (f.table p key).size (getOffset p key)) memory) =
            issetB (getOffset p key') bytes := by
        simp [issetB, reallocated, handle, old]
      rw [byte, Filter.Has, table, handle]
      simp only [covered, true_and, Option.some.injEq, exists_eq_left', and_iff_right_iff_imp]
      omega
    · have beyond : (f.table p key).size ≤ getOffset p key' / 8 := by
        have := Nat.lt_of_not_le covered
        rw [table] at this
        omega
      refine iff_of_false (fun ⟨inside, set⟩ => ?_) fun has => covered has.1
      have zero := cleared (getOffset p key' / 8) beyond (by omega)
      have new : ¬ getOffset p key' / 8 < min (f.table p key).size
          (grownSize p (f.table p key).size (getOffset p key)) := by
        omega
      cases handle : (f.table p key).handle <;> simp [issetB, reallocated, handle, zero, new] at set
  · rw [if_neg inTable]

/-- What a legal call does to the set of keys. -/
theorem Filter.Sound.step {call : Call} (legal : call.Legal p f) :
    ∃ ok f', step p (some f) call = (ok, some f') ∧ f'.Sound ∧ ∀ key', f'.Has p key' ↔
      if key' = call.key then ok = true ∧ ∃ memory, call = .set key' memory else f.Has p key' := by
  cases call with
  | clr key =>
    obtain ⟨f', cleared, sound', has⟩ := sound.clr (p := p) key
    refine ⟨true, f', by rw [Node.step, cleared], sound', fun key' => ?_⟩
    rw [has]
    by_cases same : key' = key <;> simp [same, Call.key]
  | set key memory =>
    simp only [Node.step, Node.set, Call.key]
    by_cases covers : f.Covers p key
    · obtain ⟨f', written, sound', has⟩ := sound.write_setB covers
      refine ⟨true, f', by rw [if_pos covers, written], sound', fun key' => ?_⟩
      rw [has]
      by_cases same : key' = key <;> simp [same]
    · obtain ⟨fits, enough⟩ := legal.resolve_left covers
      rw [if_neg covers]
      cases memory with
      | none =>
        have empty : (f.tables (getIndex p key)).size = 0 := enough
        refine ⟨false, _, rfl, sound.setTable _ fun _ => empty, fun key' => ?_⟩
        rw [Filter.has_setTable]
        by_cases inTable : getIndex p key' = getIndex p key
        · have outside : ¬ f.Has p key' := by
            simp [Filter.Has, Filter.Covers, Filter.table, inTable, empty]
          simp [inTable, empty, outside]
        · have other : key' ≠ key := fun same => inTable (by rw [same])
          simp [inTable, other]
      | some memory =>
        have soundGrown := sound.setTable (getIndex p key) (t := f.grown p key memory)
          (by simp [Filter.grown])
        have covered : (f.setTable (getIndex p key) (f.grown p key memory)).Covers p key := by
          have bound := grownSize_bounds (p := p) (Nat.lt_of_not_le covers) fits
          simpa [Filter.grown, Filter.Covers, Filter.table, Filter.setTable] using bound
        obtain ⟨f', written, sound', has⟩ := soundGrown.write_setB covered
        refine ⟨true, f', Prod.ext rfl written, sound', fun key' => ?_⟩
        rw [has, has_grown sound covers fits enough]
        by_cases same : key' = key <;> simp [same]

end

end Steps

section Runs
variable {p : Params}

theorem lastSet_cons (call : Call) (ok : Bool) (log : List (Call × Bool)) (key : UInt32) :
    LastSet ((call, ok) :: log) key ↔ LastSet log key ∨
      (∀ entry ∈ log, entry.1.key ≠ key) ∧ (∃ memory, call = .set key memory) ∧ ok = true := by
  constructor
  · rintro ⟨before, memory, after, same, none'⟩
    cases before with
    | nil =>
      cases same
      exact .inr ⟨none', ⟨memory, rfl⟩, rfl⟩
    | cons entry before =>
      cases same
      exact .inl ⟨before, memory, after, rfl, none'⟩
  · rintro (⟨before, memory, after, rfl, none'⟩ | ⟨none', ⟨memory, rfl⟩, rfl⟩)
    · exact ⟨(call, ok) :: before, memory, after, rfl, none'⟩
    · exact ⟨[], memory, log, rfl, none'⟩

theorem forall_zip_key {step : Option Filter → Call → Bool × Option Filter} {f : Option Filter} {calls : List Call}
    {key : UInt32} : (∀ entry ∈ calls.zip (replies step f calls), entry.1.key ≠ key) ↔
      ∀ call ∈ calls, call.key ≠ key := by
  induction calls generalizing f with
  | nil => simp
  | cons call calls ih =>
    rw [replies_cons, List.zip_cons_cons, List.forall_mem_cons, List.forall_mem_cons, ih]

/-- The state a run starts in counts for the keys it does not name. -/
theorem has_final {f : Filter} (sound : f.Sound) {calls : List Call}
    (legal : Admitted (fun f call => ∀ g ∈ f, call.Legal p g) (step p) (some f) calls) :
    ∃ f', final (step p) (some f) calls = some f' ∧ f'.Sound ∧ ∀ key, f'.Has p key ↔
      LastSet (calls.zip (replies (step p) (some f) calls)) key ∨
        (∀ call ∈ calls, call.key ≠ key) ∧ f.Has p key := by
  induction calls generalizing f with
  | nil => exact ⟨f, rfl, sound, fun key => by simp [LastSet]⟩
  | cons call calls ih =>
    obtain ⟨now, later⟩ := legal
    obtain ⟨ok, f₁, stepped, sound₁, has₁⟩ := sound.step (now f rfl)
    rw [stepped] at later
    obtain ⟨f', ended, sound', has⟩ := ih sound₁ later
    rw [final_cons, replies_cons, stepped]
    refine ⟨f', ended, sound', fun key => ?_⟩
    rw [has, has₁, List.zip_cons_cons, lastSet_cons, forall_zip_key, List.forall_mem_cons, or_assoc]
    refine or_congr_right ?_
    by_cases same : key = call.key
    · subst same
      simp [and_comm]
    · have other : ¬ ∃ memory, call = .set key memory := by
        rintro ⟨memory, rfl⟩
        exact same rfl
      simp [same, other, Ne.symm same]

/-- `ISSET` answers, and tells that a key is set exactly if the last call on it was a successful
`SET`, in every run in which tables grow into cleared memory and only an empty table fails to
grow. -/
theorem isset_iff_lastSet (calls : List Call)
    (legal : Admitted (fun f call => ∀ g ∈ f, call.Legal p g) (step p) (some .initial) calls)
    (key : UInt32) :
    ∃ f answer, final (step p) (some .initial) calls = some f ∧ isset p f key = some answer ∧
      (answer = true ↔ LastSet (calls.zip (replies (step p) (some .initial) calls)) key) := by
  have sound : Filter.initial.Sound := fun _ _ => rfl
  obtain ⟨f, ended, sound', has⟩ := has_final sound legal
  obtain ⟨answer, answered, told⟩ := sound'.isset (p := p) key
  have unset : ¬ Filter.initial.Has p key := by
    simp [Filter.Has, Filter.Covers, Filter.table, Filter.initial]
  refine ⟨f, answer, ended, answered, ?_⟩
  rw [told, has, or_iff_left fun both => unset both.2]

/-- Two keys of one table are set and one is cleared again, in cleared memory. -/
theorem isset_iff_lastSet_sample :
    ∃ f answer, final (step (doInit 0 0)) (some .initial)
        [.set 7 (some fun _ => 0), .set 30007 none, .clr 7] = some f ∧
      isset (doInit 0 0) f 30007 = some answer ∧
      (answer = true ↔ LastSet ([Call.set 7 (some fun _ => 0), .set 30007 none, .clr 7].zip
        (replies (step (doInit 0 0)) (some .initial)
          [.set 7 (some fun _ => 0), .set 30007 none, .clr 7])) 30007) := by
  refine isset_iff_lastSet (p := doInit 0 0) [.set 7 (some fun _ => 0), .set 30007 none, .clr 7]
    ⟨?_, ?_, fun _ _ => trivial, trivial⟩ 30007
  · rintro _ ⟨⟩
    exact .inr ⟨by decide, fun _ _ _ => rfl⟩
  · rintro _ ⟨⟩
    exact .inl (by decide)

/-- A key that was never named is set after its table grew into used memory, and after its table has
failed to grow, `ISSET` of a key that was set does not answer. -/
theorem empty_filter_wrong :
    ((final (step (doInit 0 0)) (some .initial) [.set 7 (some fun _ => 255)]).bind
      fun f => isset (doInit 0 0) f 30007) = some true ∧
    (final (step (doInit 0 0)) (some .initial)
      [.set 7 (some fun _ => 0), .set 122880007 none]).map
        (fun f => isset (doInit 0 0) f 7) = some none := by
  decide +kernel

end Runs

end Dtc.Node
