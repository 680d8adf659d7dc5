import Dtc.Mem.Run

/-!
# What a successful call delivers

A region is a handle with `chunk_size()` bytes. `Delivers` is the contract of the calls
that hand out regions: the region has the requested bytes, lies inside the arena and apart
from every other live region, the bytes of the other regions stay, and a reallocated
region starts with the old bytes. In a well-formed heap a call delivers exactly if it does
not let a chunk outgrow its size field.
-/

namespace Dtc.Mem

open Library Memory Tiling PtMalloc

/-- The calls that hand out regions. -/
inductive Call
  | malloc (req : Nat)
  | calloc (req : Nat)
  | reAlloc (hHandle req : Nat)

namespace Call

def run (s : PtMalloc) : Call → Nat × PtMalloc
  | malloc req => s.malloc req
  | calloc req => s.calloc req
  | reAlloc hHandle req => s.reAlloc hHandle req

def request : Call → Nat
  | malloc req => req
  | calloc req => req
  | reAlloc _ req => req

/-- The handle that is given back. -/
def handle : Call → Nat
  | reAlloc hHandle _ => hHandle
  | _ => invalidHandle

def Outgrows (s : PtMalloc) : Call → Prop
  | reAlloc hHandle req => s.outgrows hHandle req
  | _ => False

end Call

/-- A region that is handed out by a call in `s`, with the state behind the call. -/
structure Delivered (s s' : PtMalloc) (live : List Nat) (call : Call) (h : Nat) : Prop where
  /-- the requested bytes are usable -/
  enough : call.request ≤ s'.chunkSize h
  inside : s.hBottom ≤ h ∧ h + s'.chunkSize h ≤ s.tSize
  apart : ∀ g ∈ live, g ≠ call.handle → h + s'.chunkSize h ≤ g ∨ g + s.chunkSize g ≤ h
  /-- the bytes of the other regions stay -/
  keeps : ∀ g ∈ live, g ≠ call.handle → ∀ i < s.chunkSize g, s'.mem (g + i) = s.mem (g + i)
  /-- a reallocated region starts with the old bytes -/
  data : call.handle ∈ live → ∀ i < min (s.chunkSize call.handle) (s'.chunkSize h),
    s'.mem (h + i) = s.mem (call.handle + i)

/-- A call that succeeds delivers its region. -/
def Delivers (s : PtMalloc) (live : List Nat) (call : Call) : Prop :=
  (call.run s).1 ≠ invalidHandle → Delivered s (call.run s).2 live call (call.run s).1

section Delivers
variable {s s' : PtMalloc} {live : List Nat} {U : List (Nat × Nat)} {call : Call} {h x k req : Nat}

/-- The chunk of a live handle. -/
theorem Owns.region {g : Nat} (owns : Owns s U) (mem : g ∈ U.map fun e => e.1 + 8) :
    ∃ y m, g = y + 8 ∧ (y, m) ∈ U ∧ s.chunkSize g = m - 4 := by
  obtain ⟨⟨y, m⟩, mem', rfl⟩ := List.mem_map.mp mem
  exact ⟨y, m, rfl, mem', (owns.mem mem').usable⟩

/-- A new chunk next to the chunks `U` of the other live handles. -/
theorem delivered_of_owns {y k' : Nat} (owns : Owns s' ((y, k') :: U)) (stays : Stays s s' U)
    (enough : call.request + 4 ≤ k')
    (others : ∀ g ∈ live, g ≠ call.handle → ∃ z m, g = z + 8 ∧ (z, m) ∈ U ∧ s.chunkSize g = m - 4)
    (data : call.handle ∈ live → ∀ i, i < s.chunkSize call.handle → i + 4 < k' →
      s'.mem (y + 8 + i) = s.mem (call.handle + i)) :
    Delivered s s' live call (y + 8) := by
  obtain ⟨k_min, bottom, top, room, -⟩ := owns.bounds
  rw [stays.bottom] at bottom
  rw [stays.arena] at room
  have usable := owns.usable
  refine ⟨by omega, ⟨by omega, by omega⟩, ?_, ?_, ?_⟩
  · intro g mem ne
    obtain ⟨z, m, rfl, inU, size⟩ := others g mem ne
    have := owns.apart inU
    omega
  · intro g mem ne i hi
    obtain ⟨z, m, rfl, inU, size⟩ := others g mem ne
    exact stays.keeps (z, m) inU (z + 8 + i) (by simp) (by simp only; omega)
  · intro mem i hi
    exact data mem i (by omega) (by omega)

/-- A call without a handle delivers. -/
theorem delivers_fresh (wf : WellFormed s live) (null : call.handle = invalidHandle)
    (spec : ∀ U, Owns s U → (call.run s).1 = invalidHandle ∨ ∃ x k, (call.run s).1 = x + 8 ∧
      call.request + 4 ≤ k ∧ Owns (call.run s).2 ((x, k) :: U) ∧ Stays s (call.run s).2 U) :
    Delivers s live call := by
  intro found
  obtain ⟨U, owns, handles⟩ := wellFormed_iff_owns.mp wf
  obtain failed | ⟨x, k, handle, enough, owns', stays⟩ := spec U owns
  · exact absurd failed found
  rw [handle]
  refine delivered_of_owns owns' stays enough (fun g mem _ => ?_) (fun mem => ?_)
  · exact owns.region (handles.subset mem)
  · rw [null] at mem
    exact absurd mem wf.not_mem

/-- `ReAlloc` of a live chunk that does not outgrow its size field delivers. -/
theorem delivers_reAlloc (wf : WellFormed s live) (min : minSize ≤ s.getMinChunkSize)
    (mem : h ∈ live) (fits : ¬s.outgrows h req) : Delivers s live (.reAlloc h req) := by
  intro found
  obtain ⟨x, k, U, rfl, owns, handles⟩ := wf.chunk mem
  by_cases zero : req = 0
  · subst zero
    exact absurd owns.reAlloc_zero.1 found
  obtain ⟨null, -⟩ | ⟨y, k', handle, enough, owns', stays, data⟩ := owns.reAlloc min zero fits
  · exact absurd null found
  change (Call.run s (.reAlloc (x + 8) req)).1 = y + 8 at handle
  rw [handle]
  refine delivered_of_owns owns' stays enough (fun g inLive ne => ?_) (fun _ i low high => ?_)
  · obtain ⟨z, m, eq, inV, size⟩ := owns.region (g := g) (by
      exact List.mem_cons_of_mem _ (handles.subset ((List.mem_erase_of_ne ne).mpr inLive)))
    refine ⟨z, m, eq, (List.mem_cons.mp inV).resolve_left fun same => ?_, size⟩
    obtain ⟨rfl, rfl⟩ := Prod.mk.inj same
    exact ne eq
  · have usable := owns.usable
    change i < s.chunkSize (x + 8) at low
    exact data i (by omega) high

/-- The size that is left of a size word. -/
theorem chunkSize_retag {n : Nat} {p : Bool} {pre : Nat} :
    chunkSize (s.retag x n p pre).mem x = realSize (realSize n % 2 ^ 32) := by
  have word : chunkSize (s.setTSize x (realSize n)).mem x = realSize (realSize n % 2 ^ 32) := by
    have stored : tSize (s.setTSize x (realSize n)).mem x = realSize n % 2 ^ 32 := by
      change load (store s.mem (x + 4) (leBytes 4 (realSize n))) (x + 4) 4 = _
      rw [load, slice_store_of_length (length_leBytes 4 _), leNat_leBytes, show 256 ^ 4 = 2 ^ 32 by rfl]
    rw [chunkSize, stored]
  refine (chunkSize_congr fun i low high => mem_setTPreSize (by omega)).trans ?_
  cases p with
  | false => exact word
  | true => exact chunkSize_setInuseBit.trans word

/-- A size that is not split is cut off. -/
theorem settle_outgrown {total n pre : Nat} {p : Bool} (large : 2 ^ 32 ≤ total)
    (bound : total < 2 ^ 33) (rest : total - n < s.getMinChunkSize) :
    (s.settle x total n p pre).1 = x + 8 ∧
      chunkSize (s.settle x total n p pre).2.mem x ≤ total - 2 ^ 32 := by
  unfold settle
  simp only [if_neg (not_le.mpr rest), true_and]
  rw [chunkSize_retag]
  unfold realSize
  omega

theorem chunkSize_le (s : PtMalloc) (h : Nat) :
    s.chunkSize h ≤ chunksize2memsize (chunkSize s.mem (h - 8)) := by
  unfold PtMalloc.chunkSize
  split
  · exact Nat.zero_le _
  · split
    · exact Nat.zero_le _
    · exact le_rfl

/-- `inter_re_alloc` of a chunk that outgrows its size field. -/
theorem interReAlloc_outgrown (owns : Owns s ((x, k) :: U)) (out : s.outgrows (x + 8) req) :
    (s.interReAlloc (x + 8) req).1 = x + 8 ∧
      chunksize2memsize (chunkSize (s.interReAlloc (x + 8) req).2.2.mem x) < req := by
  obtain ⟨l, b, r, bins, rfl, located⟩ := owns.locate
  obtain ⟨-, range, less, notTop, clear, large, le, small⟩ := out
  simp only [Nat.add_sub_cancel, owns.checked.1] at less notTop clear large le small
  obtain ⟨q, rest, rfl, q_size, binned⟩ := located.binned_above notTop clear
  rw [q_size] at clear large le small
  have b_sized := located.heap.sized_of
  have b_min := b_sized.ge
  have q_fits := (located.heap.sized q (by simp)).fits
  -- the padded request is at most eleven bytes longer
  have padded : request2size req < req + 12 := by
    have longer : ¬req + 4 + 7 < minSize := fun short => by
      rw [request2size, if_pos short] at less
      unfold minSize at less
      omega
    rw [request2size, if_neg longer]
    omega
  have heap₁ := located.heap.shift
  have next : x + b.size = s.hBottom + span Block.size (l ++ [b]) := start_concat located.address
  obtain ⟨-, only⟩ := heap₁.unlink binned next
  have minChunk := only.minChunk
  rw [owns.interReAlloc_eq (by omega) range, if_neg (not_le.mpr less), enlarge]
  simp only [q_size]
  rw [if_neg (fun grown => notTop grown.1), if_pos ⟨notTop, by rw [clear]; rfl, le⟩]
  generalize (s.unlinkBin (binIndex q.size) (x + b.size)).2 = s₁ at minChunk ⊢
  obtain ⟨handle, cut⟩ := settle_outgrown (s := s₁) (x := x) (n := request2size req) large
    (by have := b_sized.fits; omega) (by omega)
  refine ⟨handle, ?_⟩
  have b_aligned := b_sized.aligned
  have n_aligned := (request2size_sized range).1.aligned
  refine lt_of_le_of_lt (Nat.sub_le_sub_right cut 4) ?_
  omega

/-- A chunk that outgrows its size field has fewer usable bytes than were requested. -/
theorem reAlloc_outgrown (owns : Owns s ((x, k) :: U)) (out : s.outgrows (x + 8) req) :
    (s.reAlloc (x + 8) req).1 = x + 8 ∧ (s.reAlloc (x + 8) req).2.chunkSize (x + 8) < req := by
  obtain ⟨handle, size⟩ := interReAlloc_outgrown (owns.of_agree agree_reset rfl) out
  have found : x + 8 ≠ invalidHandle := by simp [invalidHandle]
  unfold reAlloc
  simp only [handle, if_pos found, true_and]
  refine lt_of_le_of_lt (chunkSize_le _ _) ?_
  exact size

/-- In a well-formed heap with a threshold of at least `MINSIZE`, a call delivers exactly if
no chunk outgrows its size field. -/
theorem delivers_iff (wf : WellFormed s live) (min : minSize ≤ s.getMinChunkSize)
    (valid : call.handle = invalidHandle ∨ call.handle ∈ live) :
    Delivers s live call ↔ ¬call.Outgrows s := by
  cases call with
  | malloc req =>
    refine iff_of_true (delivers_fresh wf rfl fun U owns => ?_) not_false
    exact (owns.malloc min req).imp And.left id
  | calloc req =>
    refine iff_of_true (delivers_fresh wf rfl fun U owns => ?_) not_false
    exact (owns.calloc min req).imp And.left id
  | reAlloc h req =>
    obtain null | mem := valid
    · change h = invalidHandle at null
      subst null
      refine iff_of_true (delivers_fresh wf rfl fun U owns => ?_) (fun out => out.1 rfl)
      obtain ⟨handle, agree, same⟩ := @reAlloc_null s req
      change (s.reAlloc invalidHandle req).1 = invalidHandle ∨ _
      rw [handle]
      refine (owns.malloc min req).imp And.left ?_
      rintro ⟨x, k, found, enough, owns', stays⟩
      exact ⟨x, k, handle.trans found, enough, owns'.of_agree agree same, stays.of_agree agree same⟩
    · refine ⟨fun delivers out => ?_, delivers_reAlloc wf min mem⟩
      obtain ⟨x, k, U, eq, owns, -⟩ := wf.chunk mem
      change h = x + 8 at eq
      subst eq
      obtain ⟨handle, short⟩ := reAlloc_outgrown owns out
      have found : (s.reAlloc (x + 8) req).1 ≠ invalidHandle := by
        rw [handle]
        simp [invalidHandle]
      have enough := (delivers found).enough
      change req ≤ (s.reAlloc (x + 8) req).2.chunkSize (s.reAlloc (x + 8) req).1 at enough
      rw [handle] at enough
      omega

end Delivers

def crowdedWorld : World := Machine.final World.step (World.init (fun _ => 0) (2 ^ 33)) crowdedOps

theorem wellFormed_crowded : WellFormed crowdedWorld.heap crowdedWorld.live :=
  (wellFormed_init (by decide +kernel) (by decide +kernel)).run (by decide +kernel)

theorem delivers_iff_crowded :
    Delivers crowdedWorld.heap crowdedWorld.live (.reAlloc 8216 100000) ↔
      ¬Call.Outgrows crowdedWorld.heap (.reAlloc 8216 100000) :=
  delivers_iff wellFormed_crowded (by decide +kernel) (.inr (by decide +kernel))

/-- The first of two chunks of together four gigabytes absorbs the second; of the
4294963292 bytes it is asked for, none can be used. -/
theorem outgrown_not_delivers :
    WellFormed crowdedWorld.heap crowdedWorld.live ∧ 8216 ∈ crowdedWorld.live ∧
      ¬Delivers crowdedWorld.heap crowdedWorld.live (.reAlloc 8216 4294963292) := by
  refine ⟨wellFormed_crowded, by decide +kernel, fun delivers => ?_⟩
  have found : (crowdedWorld.heap.reAlloc 8216 4294963292).1 = 8216 := by decide +kernel
  have usable : (crowdedWorld.heap.reAlloc 8216 4294963292).2.chunkSize 8216 = 0 := by
    decide +kernel
  have enough := (delivers (by decide +kernel)).enough
  change 4294963292 ≤ (crowdedWorld.heap.reAlloc 8216 4294963292).2.chunkSize
    (crowdedWorld.heap.reAlloc 8216 4294963292).1 at enough
  rw [found, usable] at enough
  exact absurd enough (by decide)

end Dtc.Mem
