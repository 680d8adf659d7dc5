import Dtc.Library.Machine
import Dtc.Mem.Calls

/-!
# Runs of the allocator

A world is the allocator with the handles its callers hold. The callers may use every
live region as they like and change the split threshold between calls. Calls that get
null or live handles keep the heap well formed as long as the threshold is at least
`MINSIZE` and no chunk outgrows its size field. With the threshold of the constructor
both always hold.
-/

namespace Dtc.Mem

open Library Memory List

/-- The heap is well formed, and `live` are the handles of its live chunks. -/
def WellFormed (s : PtMalloc) (live : List Nat) : Prop :=
  ∃ bs bins, Heap s bs bins ∧ Settled bs ∧ live.Perm ((usedAt s.hBottom bs).map fun e => e.1 + 8)

structure World where
  heap : PtMalloc
  live : List Nat

inductive Op
  | malloc (req : Nat)
  | calloc (req : Nat)
  | reAlloc (hHandle req : Nat)
  | free (hHandle : Nat)
  /-- the caller writes into its region -/
  | write (hHandle offset : Nat) (bytes : List UInt8)
  | setMinChunkSize (size : Nat)

namespace World

/-- The handle of a new region is live. -/
def gain (live : List Nat) (hHandle : Nat) : List Nat :=
  if hHandle = invalidHandle then live else hHandle :: live

/-- A call, with its return value. -/
def step (w : World) : Op → Int × World
  | .malloc req =>
    let (hHandle, heap) := w.heap.malloc req
    (hHandle, ⟨heap, gain w.live hHandle⟩)
  | .calloc req =>
    let (hHandle, heap) := w.heap.calloc req
    (hHandle, ⟨heap, gain w.live hHandle⟩)
  | .reAlloc old req =>
    let (hHandle, heap) := w.heap.reAlloc old req
    -- a request that fails leaves the old region to its owner
    let live := if hHandle = invalidHandle ∧ req ≠ 0 then w.live else w.live.erase old
    (hHandle, ⟨heap, gain live hHandle⟩)
  | .free hHandle =>
    let (ret, heap) := w.heap.free hHandle
    (ret, ⟨heap, w.live.erase hHandle⟩)
  | .write hHandle offset bytes =>
    (0, { w with heap := { w.heap with mem := store w.heap.mem (hHandle + offset) bytes } })
  | .setMinChunkSize size => (0, { w with heap := w.heap.setMinChunkSize size })

/-- Handles are null or live, and writes stay inside their region. -/
def Legal (w : World) : Op → Prop
  | .reAlloc hHandle _ => hHandle = invalidHandle ∨ hHandle ∈ w.live
  | .free hHandle => hHandle = invalidHandle ∨ hHandle ∈ w.live
  | .write hHandle offset bytes =>
    hHandle ∈ w.live ∧ offset + bytes.length ≤ w.heap.chunkSize hHandle
  | _ => True

/-- Chunks are split at `MINSIZE` or above, and no chunk outgrows its size field. -/
def Fits (w : World) : Op → Prop
  | .malloc _ => minSize ≤ w.heap.getMinChunkSize
  | .calloc _ => minSize ≤ w.heap.getMinChunkSize
  | .reAlloc hHandle req => minSize ≤ w.heap.getMinChunkSize ∧ ¬w.heap.outgrows hHandle req
  | _ => True

instance (w : World) (op : Op) : Decidable (w.Legal op) := by
  cases op <;> unfold Legal <;> infer_instance

instance (w : World) (op : Op) : Decidable (w.Fits op) := by
  cases op <;> unfold Fits <;> infer_instance

/-- A new allocator on an arena of `size` bytes. -/
def init (content : Nat → UInt8) (size : Nat) : World :=
  ⟨(PtMalloc.new.doInit content size).2, []⟩

end World

section Handles
variable {s s' : PtMalloc} {U : List (Nat × Nat)} {live : List Nat} {x k h : Nat}

/-- The address of a chunk from its handle. -/
theorem wellFormed_iff_owns :
    WellFormed s live ↔ ∃ U, Owns s U ∧ live.Perm (U.map fun e => e.1 + 8) := by
  constructor
  · rintro ⟨bs, bins, heap, settled, handles⟩
    exact ⟨_, ⟨bs, bins, heap, settled, .refl _⟩, handles⟩
  · rintro ⟨U, ⟨bs, bins, heap, settled, used⟩, handles⟩
    exact ⟨bs, bins, heap, settled, handles.trans (used.symm.map _)⟩

/-- A live handle belongs to one chunk; the other handles belong to the other chunks. -/
theorem WellFormed.chunk (wf : WellFormed s live) (mem : h ∈ live) :
    ∃ x k U, h = x + 8 ∧ Owns s ((x, k) :: U) ∧ (live.erase h).Perm (U.map fun e => e.1 + 8) := by
  obtain ⟨V, owns, handles⟩ := wellFormed_iff_owns.mp wf
  obtain ⟨⟨x, k⟩, inV, rfl⟩ := mem_map.mp (handles.subset mem)
  refine ⟨x, k, V.erase (x, k), rfl, owns.mem inV, ?_⟩
  have split : live.Perm ((x + 8) :: (V.erase (x, k)).map fun e => e.1 + 8) :=
    handles.trans ((perm_cons_erase inV).map _)
  exact ((perm_cons_erase mem).symm.trans split).cons_inv

theorem Owns.wellFormed (owns : Owns s ((x, k) :: U)) (handles : live.Perm (U.map fun e => e.1 + 8)) :
    WellFormed s (World.gain live (x + 8)) := by
  have found : x + 8 ≠ invalidHandle := by simp [invalidHandle]
  refine wellFormed_iff_owns.mpr ⟨_, owns, ?_⟩
  exact handles.cons _

theorem WellFormed.not_mem (wf : WellFormed s live) : invalidHandle ∉ live := by
  intro mem
  obtain ⟨x, k, U, eq, -⟩ := wf.chunk mem
  exact absurd eq (by simp [invalidHandle])

theorem WellFormed.of_agree (wf : WellFormed s live) (agree : Agree s s') (mem : s'.mem = s.mem) :
    WellFormed s' live := by
  obtain ⟨U, owns, handles⟩ := wellFormed_iff_owns.mp wf
  exact wellFormed_iff_owns.mpr ⟨U, owns.of_agree agree mem, handles⟩

end Handles

section Steps
variable {w : World} {op : Op}

/-- A fresh arena. -/
theorem wellFormed_init {content : Nat → UInt8} {size : Nat}
    (accepted : (PtMalloc.new.doInit content size).1 = 0) (range : size < 2 ^ 64) :
    WellFormed (World.init content size).heap (World.init content size).live := by
  unfold World.init PtMalloc.doInit at *
  by_cases small : size < 1024 + 16 * (128 + 64 + 1) + 4096 + minSize
  · rw [if_pos small] at accepted
    exact absurd accepted (by simp)
  · simp only [if_neg small]
    refine ⟨[], fun _ => [], ?_, fun _ mem => absurd mem not_mem_nil, .refl _⟩
    refine ⟨show 8 ∣ 8208 by decide, show 0 < 8208 by decide, range, not_lt.mp small, rfl,
      fun _ mem => absurd mem not_mem_nil, tagged_nil, tSize_setTSize (by decide), fun i => ?_,
      fun i a => by simp, fun i nonempty => absurd rfl nonempty⟩
    exact LinkedRing.empty rfl rfl

variable {req h : Nat}

section
variable (wf : WellFormed w.heap w.live)
include wf

theorem step_malloc (min : minSize ≤ w.heap.getMinChunkSize) :
    WellFormed (w.heap.malloc req).2 (World.gain w.live (w.heap.malloc req).1) := by
  obtain ⟨U, owns, handles⟩ := wellFormed_iff_owns.mp wf
  obtain ⟨null, owns', -⟩ | ⟨x, k, handle, -, owns', -⟩ := owns.malloc min req
  · rw [World.gain, if_pos null]
    exact wellFormed_iff_owns.mpr ⟨U, owns', handles⟩
  · rw [handle]
    exact owns'.wellFormed handles

theorem step_calloc (min : minSize ≤ w.heap.getMinChunkSize) :
    WellFormed (w.heap.calloc req).2 (World.gain w.live (w.heap.calloc req).1) := by
  obtain ⟨U, owns, handles⟩ := wellFormed_iff_owns.mp wf
  obtain ⟨null, owns', -⟩ | ⟨x, k, handle, -, owns', -⟩ := owns.calloc min req
  · rw [World.gain, if_pos null]
    exact wellFormed_iff_owns.mpr ⟨U, owns', handles⟩
  · rw [handle]
    exact owns'.wellFormed handles

theorem step_free (legal : h = invalidHandle ∨ h ∈ w.live) :
    WellFormed (w.heap.free h).2 (w.live.erase h) := by
  obtain rfl | mem := legal
  · rw [erase_of_not_mem wf.not_mem]
    exact wf.of_agree (agree_countFree 0) (mem_countFree 0)
  · obtain ⟨x, k, U, rfl, owns, handles⟩ := wf.chunk mem
    exact wellFormed_iff_owns.mpr ⟨U, owns.free.2.1, handles⟩

theorem step_reAlloc (legal : h = invalidHandle ∨ h ∈ w.live)
    (min : minSize ≤ w.heap.getMinChunkSize) (fits : ¬w.heap.outgrows h req) :
    let t := w.heap.reAlloc h req
    WellFormed t.2 (World.gain (if t.1 = invalidHandle ∧ req ≠ 0 then w.live else w.live.erase h)
      t.1) := by
  intro t
  obtain rfl | mem := legal
  · obtain ⟨handle, agree, same⟩ := @reAlloc_null w.heap req
    rw [erase_of_not_mem wf.not_mem, ite_self]
    have wf' := (@step_malloc w req wf min).of_agree agree same
    exact wf'
  · obtain ⟨x, k, U, rfl, owns, handles⟩ := wf.chunk mem
    by_cases zero : req = 0
    · subst zero
      obtain ⟨null, owns', -⟩ := owns.reAlloc_zero
      exact wellFormed_iff_owns.mpr ⟨U, owns', handles⟩
    · obtain ⟨null, owns', -⟩ | ⟨y, k', handle, -, owns', -⟩ := owns.reAlloc min zero fits
      · rw [if_pos ⟨null, zero⟩, World.gain, if_pos null]
        exact wellFormed_iff_owns.mpr ⟨_, owns', (perm_cons_erase mem).trans (handles.cons _)⟩
      · have found : ¬(t.1 = invalidHandle ∧ req ≠ 0) := by
          rw [show t.1 = y + 8 from handle]
          simp [invalidHandle]
        rw [if_neg found, show t.1 = y + 8 from handle]
        exact owns'.wellFormed handles

theorem step_write {offset : Nat} {bytes : List UInt8}
    (mem : h ∈ w.live) (inside : offset + bytes.length ≤ w.heap.chunkSize h) :
    WellFormed { w.heap with mem := store w.heap.mem (h + offset) bytes } w.live := by
  obtain ⟨x, k, U, rfl, owns, handles⟩ := wf.chunk mem
  rw [owns.usable] at inside
  have agree : Agree w.heap { w.heap with mem := store w.heap.mem (x + 8 + offset) bytes } :=
    ⟨rfl, rfl, rfl, rfl, rfl⟩
  have written := (owns.write agree rfl fun i hi => store_outside (by omega)).1
  exact wellFormed_iff_owns.mpr ⟨_, written, (perm_cons_erase mem).trans (handles.cons _)⟩

/-- One step keeps the heap well formed. -/
theorem WellFormed.step (legal : w.Legal op) (fits : w.Fits op) :
    WellFormed (w.step op).2.heap (w.step op).2.live := by
  cases op with
  | malloc req => exact step_malloc wf fits
  | calloc req => exact step_calloc wf fits
  | reAlloc h req => exact step_reAlloc wf legal fits.1 fits.2
  | free h => exact step_free wf legal
  | write h offset bytes => exact step_write wf legal.1 legal.2
  | setMinChunkSize size => exact wf.of_agree ⟨rfl, rfl, rfl, rfl, rfl⟩ rfl

/-- A run keeps the heap well formed. -/
theorem WellFormed.run {ops : List Op}
    (admitted : Machine.Admitted (fun w op => World.Legal w op ∧ World.Fits w op) World.step w ops) :
    WellFormed (Machine.final World.step w ops).heap (Machine.final World.step w ops).live :=
  Machine.final_invariant (fun w => WellFormed w.heap w.live)
    (fun _ _ wf admitted => wf.step admitted.1 admitted.2) wf admitted

end

end Steps

/-- Every run of legal calls in which no chunk outgrows its size field keeps the heap well
formed. -/
theorem heap_run_wellFormed (content : Nat → UInt8) (size : Nat) (ops : List Op)
    (accepted : (PtMalloc.new.doInit content size).1 = 0) (range : size < 2 ^ 64)
    (admitted : Machine.Admitted (fun w op => World.Legal w op ∧ World.Fits w op) World.step
      (World.init content size) ops) :
    WellFormed (Machine.final World.step (World.init content size) ops).heap
      (Machine.final World.step (World.init content size) ops).live :=
  (wellFormed_init accepted range).run admitted

/-- Growing, moving and shrinking a region between others. -/
def mixedOps : List Op :=
  [.malloc 100, .calloc 200, .write 8216 0 [1, 2, 3], .reAlloc 8216 300, .malloc 10, .free 8320,
    .reAlloc 8528 0]

theorem heap_run_wellFormed_mixed :
    WellFormed (Machine.final World.step (World.init (fun _ => 0) 65536) mixedOps).heap
      (Machine.final World.step (World.init (fun _ => 0) 65536) mixedOps).live :=
  heap_run_wellFormed (fun _ => 0) 65536 mixedOps (by decide +kernel) (by decide +kernel)
    (by decide +kernel)

/-- Two chunks of together four gigabytes, the second one free, and a threshold of 4096
bytes. -/
def crowdedOps : List Op :=
  [.setMinChunkSize 4096, .malloc 1020, .malloc 4294966268, .malloc 1, .free 9240]

/-- The first chunk absorbs the second; 4000 bytes are left, too few to be split off. -/
def outgrownOps : List Op := crowdedOps ++ [.reAlloc 8216 4294963292]

def outgrownWorld : World := Machine.final World.step (World.init (fun _ => 0) (2 ^ 33)) outgrownOps

theorem outgrown_run_not_wellFormed :
    (PtMalloc.new.doInit (fun _ => 0) (2 ^ 33)).1 = 0 ∧
      Machine.Admitted World.Legal World.step (World.init (fun _ => 0) (2 ^ 33)) outgrownOps ∧
      ¬WellFormed outgrownWorld.heap outgrownWorld.live := by
  refine ⟨by decide +kernel, by decide +kernel, fun wf => ?_⟩
  have live : 8216 ∈ outgrownWorld.live := by decide +kernel
  have cut : chunkSize outgrownWorld.heap.mem 8208 = 0 := by decide +kernel
  obtain ⟨x, k, U, handle, owns, -⟩ := wf.chunk live
  obtain rfl : x = 8208 := by omega
  have size := owns.checked.1
  have k_min := owns.bounds.1
  omega

end Dtc.Mem
