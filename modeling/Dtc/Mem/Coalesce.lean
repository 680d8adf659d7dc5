import Dtc.Mem.Run

/-!
# Free chunks that are next to each other

`inter_free` joins a chunk with the free chunks around it as long as the sum fits into
`MAX_ALLOC_SIZE`, and gives it back to the top when it ends there. It looks at one chunk below
only: when that one is too large, or when another free chunk lies below it, a free chunk stays
directly below the top, and the top is tagged as if that chunk were in use. In every run without such
a step, free chunks are next to each other only if they are too large to be joined, and none lies
directly below `m_hTop`.
-/

namespace Dtc.Mem

open Library Memory Tiling World

/-- A free chunk of the heap between two calls. -/
def FreeChunk (s : PtMalloc) (x n : Nat) : Prop :=
  ∃ bs bins, Heap s bs bins ∧ Settled bs ∧ (x, n) ∈ freeAt s.hBottom bs

/-- Free chunks are joined where they can be. -/
structure Joined (s : PtMalloc) : Prop where
  adjacent : ∀ x m n, FreeChunk s x m → FreeChunk s (x + m) n → maxAllocSize < m + n
  top : ∀ x m, FreeChunk s x m → x + m ≠ s.hTop

namespace World

/-- The step frees no chunk at the top with a free chunk below that cannot be joined. -/
def Joins (w : World) : Op → Prop
  | .free hHandle => hHandle = invalidHandle ∨ ¬w.heap.strands hHandle
  | .reAlloc hHandle req =>
    let size := chunkSize w.heap.mem (hHandle - 8)
    hHandle = invalidHandle ∨ ¬w.heap.strands hHandle ∨
      -- it stays where it is
      req ≠ 0 ∧ (requestOutOfRange req = true ∨ request2size req ≤ size ∨
        w.heap.hTop + (request2size req - size) + minSize < w.heap.tSize)
  | _ => True

instance (w : World) : ∀ op, Decidable (w.Joins op)
  | .free _ | .reAlloc .. => instDecidableOr
  | .malloc _ | .calloc _ | .write .. | .setMinChunkSize _ => .isTrue trivial

end World

section Joined
variable {s : PtMalloc} {bs l r : List Block} {bins : Nat → List Nat} {b c : Block} {x : Nat}

/-- The block behind a block. -/
theorem Heap.head_eq (heap : Heap s (l ++ b :: r) bins) (hx : x = s.hBottom + span Block.size l)
    (placed : (x + b.size, c) ∈ place Block.size s.hBottom (l ++ b :: r)) :
    ∃ rest, r = c :: rest := by
  cases r with
  | nil =>
    have bounds := bounds_of_mem_place placed
    have := heap.sized_of_place placed
    simp only [span_append, span_cons, span_nil] at bounds
    omega
  | cons q rest =>
    have next : (x + b.size, q) ∈ place Block.size s.hBottom (l ++ b :: q :: rest) := by
      rw [place_append, place_cons, place_cons, ← hx]
      simp
    exact ⟨rest, by rw [heap.block_unique placed next]⟩

theorem Coalesced.joined (coalesced : Coalesced s) : Joined s := by
  refine ⟨fun x m n first second => ?_, fun x m free top => ?_⟩
  · obtain ⟨bs, bins, heap, settled, free⟩ := first
    obtain ⟨bs', bins', heap', settled', free'⟩ := second
    obtain rfl := heap.unique heap' settled settled'
    obtain ⟨b, placed, binned, rfl⟩ := mem_freeAt.mp free
    obtain ⟨c, placed', binned', rfl⟩ := mem_freeAt.mp free'
    obtain ⟨l, r, rfl, hx⟩ := split_of_mem_place placed
    obtain ⟨rest, rfl⟩ := heap.head_eq hx placed'
    have chain := (List.isChain_append.mp (coalesced.tidy heap settled).adjacent).2.1
    have apart := ((List.isChain_cons_cons.mp chain).1 binned).2 binned'
    rw [canCombile, decide_eq_false_iff_not, not_le] at apart
    exact apart
  · obtain ⟨bs, bins, heap, settled, free⟩ := free
    obtain ⟨b, placed, binned, rfl⟩ := mem_freeAt.mp free
    obtain ⟨l, r, rfl, hx⟩ := split_of_mem_place placed
    have tidy := coalesced.tidy heap settled
    have tiled := heap.top
    cases r with
    | nil => exact tidy.ends b (by simp) binned
    | cons q rest =>
      have q_min := (heap.sized q (by simp)).ge
      simp only [span_append, span_cons] at tiled
      omega

end Joined

section Steps
variable {s : PtMalloc} {w : World} {op : Op} {U : List (Nat × Nat)} {x k req : Nat}

theorem coalesced_init {content : Nat → UInt8} {size : Nat}
    (accepted : (PtMalloc.new.doInit content size).1 = 0) (range : size < 2 ^ 64) :
    Coalesced (init content size).heap := by
  obtain ⟨bs, bins, heap, settled, -⟩ := wellFormed_init accepted range
  have empty : (init content size).heap.hTop = (init content size).heap.hBottom := by
    unfold init PtMalloc.doInit
    split <;> rfl
  refine ⟨bs, bins, heap, settled, ?_⟩
  cases bs with
  | nil => exact ⟨List.isChain_nil, fun p last => absurd last (by simp)⟩
  | cons b r =>
    have b_min := (heap.sized b List.mem_cons_self).ge
    have top := heap.top
    rw [empty, span_cons] at top
    omega

section
variable (coalesced : Coalesced s)

include coalesced

theorem Coalesced.malloc (min : minSize ≤ s.getMinChunkSize) (req : Nat) :
    Coalesced (s.malloc req).2 := by
  have reset : Coalesced { s with tLastFreeChunkSize := 0 } := coalesced.of_agree agree_reset rfl
  obtain ⟨-, agree, mem⟩ := malloc_inter s req
  exact (reset.interMalloc min req).of_agree agree mem

theorem Coalesced.calloc (owns : Owns s U) (min : minSize ≤ s.getMinChunkSize) (req : Nat) :
    Coalesced (s.calloc req).2 := by
  have served := coalesced.malloc min req
  unfold PtMalloc.calloc
  obtain ⟨null, -⟩ | ⟨x, k, handle, le, owns', -⟩ := owns.malloc min req
  · simp only [null, ne_eq, not_true_eq_false, if_false]
    exact served
  · have found : x + 8 ≠ invalidHandle := by simp [invalidHandle]
    simp only [handle, if_pos found]
    have agree : Agree (s.malloc req).2 { (s.malloc req).2 with
      mem := store (s.malloc req).2.mem (x + 8) (List.replicate req 0) } :=
      ⟨rfl, rfl, rfl, rfl, rfl⟩
    refine (owns'.write agree rfl (fun i hi => store_outside ?_)).2.2 served
    rw [List.length_replicate]
    omega

section
variable (owns : Owns s ((x, k) :: U)) (joins : ¬s.strands (x + 8))

include owns joins

/-- The old chunk of a call that frees it. -/
theorem Coalesced.interFree : Coalesced (s.interFree (x + 8)).2.2 := by
  obtain ⟨l, b, r, bins, rfl, located⟩ := owns.locate
  refine located.interFree_coalesced coalesced fun nil => ?_
  subst nil
  exact located.clears coalesced joins

theorem Coalesced.free : Coalesced (s.free (x + 8)).2 := by
  have freed := coalesced.interFree owns joins
  unfold PtMalloc.free
  simp only [owns.interFree.1, if_true]
  exact freed.of_agree (agree_countFree _) (mem_countFree _)

theorem Coalesced.reAlloc_zero : Coalesced (s.reAlloc (x + 8) 0).2 := by
  have reset : Coalesced { s with tLastFreeChunkSize := 0 } := coalesced.of_agree agree_reset rfl
  have freed := reset.interFree (owns.of_agree agree_reset rfl) joins
  obtain ⟨-, agree, mem⟩ := reAlloc_inter s (x + 8) 0
  exact freed.of_agree agree mem

end

theorem Coalesced.reAlloc (owns : Owns s ((x, k) :: U)) (min : minSize ≤ s.getMinChunkSize)
    (some : req ≠ 0) (fits : ¬s.outgrows (x + 8) req)
    (joins : s.strands (x + 8) → requestOutOfRange req = true ∨ request2size req ≤ k ∨
      s.hTop + (request2size req - k) + minSize < s.tSize) :
    Coalesced (s.reAlloc (x + 8) req).2 := by
  have reset : Coalesced { s with tLastFreeChunkSize := 0 } := coalesced.of_agree agree_reset rfl
  have owned : Owns { s with tLastFreeChunkSize := 0 } ((x, k) :: U) :=
    owns.of_agree agree_reset rfl
  obtain ⟨-, agree, mem⟩ := reAlloc_inter s (x + 8) req
  obtain ⟨-, -, -, served⟩ | ⟨range, y, k', -, moved⟩ := owned.interReAlloc min some fits
  · exact (served reset).of_agree agree mem
  · refine (moved.coalesced reset fun strands => ?_).of_agree agree mem
    refine (joins strands).resolve_left ?_
    simp [range]

end

/-- One step keeps free chunks joined. -/
theorem Coalesced.step (coalesced : Coalesced w.heap) (wf : WellFormed w.heap w.live)
    (legal : w.Legal op) (fits : w.Fits op) (joins : w.Joins op) : Coalesced (w.step op).2.heap := by
  cases op with
  | malloc req => exact coalesced.malloc fits req
  | calloc req =>
    obtain ⟨U, owns, -⟩ := wellFormed_iff_owns.mp wf
    exact coalesced.calloc owns fits req
  | free h =>
    obtain rfl | mem := legal
    · exact coalesced.of_agree (agree_countFree 0) (mem_countFree 0)
    · obtain ⟨x, k, U, rfl, owns, -⟩ := wf.chunk mem
      exact coalesced.free owns (joins.resolve_left (by simp [invalidHandle]))
  | reAlloc h req =>
    obtain rfl | mem := legal
    · obtain ⟨-, agree, same⟩ := @reAlloc_null w.heap req
      exact (coalesced.malloc fits.1 req).of_agree agree same
    · obtain ⟨x, k, U, rfl, owns, -⟩ := wf.chunk mem
      have joins := joins.resolve_left (by simp [invalidHandle])
      rw [Nat.add_sub_cancel, owns.checked.1] at joins
      by_cases zero : req = 0
      · subst zero
        exact coalesced.reAlloc_zero owns (joins.resolve_right (by simp))
      · refine coalesced.reAlloc owns fits.1 zero fits.2 fun strands => ?_
        exact (joins.resolve_left (not_not.mpr strands)).2
  | write h offset bytes =>
    obtain ⟨x, k, U, rfl, owns, -⟩ := wf.chunk legal.1
    have inside := legal.2
    rw [owns.usable] at inside
    have k_min := owns.bounds.1
    have agree : Agree w.heap { w.heap with mem := store w.heap.mem (x + 8 + offset) bytes } :=
      ⟨rfl, rfl, rfl, rfl, rfl⟩
    exact (owns.write agree rfl fun i hi => store_outside (by omega)).2.2 coalesced
  | setMinChunkSize size => exact coalesced.of_agree ⟨rfl, rfl, rfl, rfl, rfl⟩ rfl

end Steps

/-- Every run of legal calls in which no chunk outgrows its size field and none strands a free chunk
below the top keeps the heap well formed, with its free chunks joined. -/
theorem heap_run_joined (content : Nat → UInt8) (size : Nat) (ops : List Op)
    (accepted : (PtMalloc.new.doInit content size).1 = 0) (range : size < 2 ^ 64)
    (admitted : Machine.Admitted
      (fun w op => (World.Legal w op ∧ World.Fits w op) ∧ World.Joins w op) World.step
      (World.init content size) ops) :
    WellFormed (Machine.final World.step (World.init content size) ops).heap
        (Machine.final World.step (World.init content size) ops).live ∧
      Joined (Machine.final World.step (World.init content size) ops).heap := by
  have kept := Machine.final_invariant
    (fun w : World => WellFormed w.heap w.live ∧ Coalesced w.heap)
    (fun w op kept admitted => ⟨kept.1.step admitted.1.1 admitted.1.2,
      kept.2.step kept.1 admitted.1.1 admitted.1.2 admitted.2⟩)
    ⟨wellFormed_init accepted range, coalesced_init accepted range⟩ admitted
  exact ⟨kept.1, kept.2.joined⟩

theorem heap_run_joined_mixed :
    let w := Machine.final step (init (fun _ => 0) 65536) mixedOps
    WellFormed w.heap w.live ∧ Joined w.heap :=
  heap_run_joined (fun _ => 0) 65536 mixedOps (by decide +kernel) (by decide +kernel)
    (by decide +kernel)

/-- The top begins where the last live chunk ends. With nothing live it is the whole arena. -/
def Reclaimed (w : World) : Prop :=
  w.live = [] ∧ w.heap.hTop = w.heap.hBottom ∨
    ∃ h ∈ w.live, h - 8 + chunkSize w.heap.mem (h - 8) = w.heap.hTop

theorem Coalesced.reclaimed {w : World} (coalesced : Coalesced w.heap)
    (wf : WellFormed w.heap w.live) : Reclaimed w := by
  obtain ⟨bs, bins, heap, settled, handles⟩ := wf
  have tidy := coalesced.tidy heap settled
  have top := heap.top
  obtain rfl | ⟨l, b, rfl⟩ := List.eq_nil_or_concat' bs
  · exact .inl ⟨handles.eq_nil, by simpa using top⟩
  · have used := tidy.ends b (by simp)
    have live := (settled b (by simp)).resolve_right used
    have word := ((heap.tag_of rfl).word (by simp [live])).1
    refine .inr ⟨w.heap.hBottom + span Block.size l + 8, handles.symm.subset ?_, ?_⟩
    · simp [usedAt_append, usedAt_cons, used]
    · rw [Nat.add_sub_cancel, word, top, span_append]
      simp [Nat.add_assoc]

/-- In such a run all that lies above the live chunks can be handed out again. -/
theorem heap_run_reclaimed (content : Nat → UInt8) (size : Nat) (ops : List Op)
    (accepted : (PtMalloc.new.doInit content size).1 = 0) (range : size < 2 ^ 64)
    (admitted : Machine.Admitted (fun w op => (Legal w op ∧ Fits w op) ∧ Joins w op) step
      (init content size) ops) : Reclaimed (Machine.final step (init content size) ops) := by
  have kept := Machine.final_invariant
    (fun w : World => WellFormed w.heap w.live ∧ Coalesced w.heap)
    (fun _ _ kept ok => ⟨kept.1.step ok.1.1 ok.1.2, kept.2.step kept.1 ok.1.1 ok.1.2 ok.2⟩)
    ⟨wellFormed_init accepted range, coalesced_init accepted range⟩ admitted
  exact kept.2.reclaimed kept.1

theorem heap_run_reclaimed_mixed :
    Reclaimed (Machine.final step (init (fun _ => 0) 65536) mixedOps) :=
  heap_run_reclaimed _ _ mixedOps (by decide +kernel) (by decide) (by decide +kernel)

/-- A free chunk of four gigabytes below a chunk at the top that is freed. -/
def strandedOps : List Op :=
  [.malloc 4294967000, .malloc 1000, .free 8216, .free 4294975224]

def strandedWorld : World :=
  Machine.final World.step (World.init (fun _ => 0) (2 ^ 33)) strandedOps

/-- The free chunk stays directly below the top. -/
theorem stranded_run_not_joined :
    (PtMalloc.new.doInit (fun _ => 0) (2 ^ 33)).1 = 0 ∧
      Machine.Admitted (fun w op => World.Legal w op ∧ World.Fits w op) World.step
        (World.init (fun _ => 0) (2 ^ 33)) strandedOps ∧
      ¬Joined strandedWorld.heap := by
  have admitted : Machine.Admitted (fun w op => Legal w op ∧ Fits w op) step
      (init (fun _ => 0) (2 ^ 33)) strandedOps := by decide +kernel
  have accepted : (PtMalloc.new.doInit (fun _ => 0) (2 ^ 33)).1 = 0 := by decide +kernel
  refine ⟨accepted, admitted, fun joined => ?_⟩
  obtain ⟨bs, bins, heap, settled, -⟩ : WellFormed strandedWorld.heap strandedWorld.live :=
    (wellFormed_init accepted (by decide)).run admitted
  -- the chunk is the head of its bin
  have ring := (heap.rings 126).fwd_head
  have head : strandedWorld.heap.fwd 126 invalidHandle = 8208 := by decide +kernel
  rw [head] at ring
  have mem : 8208 ∈ bins 126 := by
    cases members : bins 126 with
    | nil => exact absurd ring (by simp [members, invalidHandle])
    | cons a rest =>
      rw [members] at ring
      exact ring ▸ List.mem_cons_self
  obtain ⟨n, free, -⟩ := (heap.members 126 8208).mp mem
  obtain ⟨b, placed, binned, rfl⟩ := mem_freeAt.mp free
  obtain ⟨l, r, rfl, hx⟩ := split_of_mem_place placed
  have size := ((heap.tag_of hx).word (by simp [binned])).1
  have large : 8208 + chunkSize strandedWorld.heap.mem 8208 = strandedWorld.heap.hTop := by
    decide +kernel
  rw [size] at large
  exact joined.top 8208 b.size ⟨_, bins, heap, settled, free⟩ large

end Dtc.Mem
