import Dtc.Mem.Realloc

/-!
# What the public calls give their callers

`Malloc`, `Calloc` and `ReAlloc` hand out regions: a handle and `chunk_size()` usable
bytes. `Delivers` says that a successful call gives at least the requested bytes, inside
the arena and apart from every other live region, that the bytes of the other regions
stay, and that a reallocated region starts with the old bytes. Every call delivers unless
`ReAlloc` lets a chunk outgrow its size field.
-/

namespace Dtc.Mem

open Library Memory Tiling PtMalloc

section Regions
variable {s : PtMalloc} {U : List (Nat × Nat)} {x y k m : Nat}

/-- A live chunk lies in the arena and starts at a multiple of eight. -/
theorem Owns.bounds (owns : Owns s ((x, k) :: U)) :
    24 ≤ k ∧ s.hBottom ≤ x ∧ x + k ≤ s.hTop ∧ s.hTop + 24 ≤ s.tSize ∧ x % 8 = 0 := by
  obtain ⟨l, b, r, bins, rfl, located⟩ := owns.locate
  have heap := located.heap
  have top := heap.top
  have b_min := heap.sized_of.ge
  have room := heap.room
  simp only [span_append, span_cons] at top
  have := located.address
  exact ⟨b_min, by omega, by omega, room, heap.start_aligned (heap.placed located.address)⟩

/-- Live chunks do not overlap. -/
theorem Owns.apart (owns : Owns s ((x, k) :: U)) (mem : (y, m) ∈ U) : x + k ≤ y ∨ y + m ≤ x := by
  obtain ⟨l, b, r, bins, rfl, located⟩ := owns.locate
  have hx := located.address
  obtain below | above := List.mem_append.mp (located.others.symm.subset mem)
  · have := bounds_of_mem_select below
    omega
  · have := bounds_of_mem_select above
    omega

theorem Owns.mem (owns : Owns s U) (mem : (x, k) ∈ U) : Owns s ((x, k) :: U.erase (x, k)) :=
  owns.of_perm (List.perm_cons_erase mem)

/-- The checks pass for a live chunk. -/
theorem Owns.checked (owns : Owns s ((x, k) :: U)) :
    chunkSize s.mem x = k ∧ s.checkInuseChunk x = (0, s) := by
  obtain ⟨l, b, r, bins, rfl, located⟩ := owns.locate
  obtain ⟨heap, below, above, live, hx, -⟩ := located
  refine ⟨((heap.tag_of hx).word (by simp [live])).1, ?_⟩
  refine (checkInuseChunk_live heap hx live (fun clear => ?_) above).2
  obtain ⟨l₀, p, eq, binned, -⟩ := heap.binned_below hx below clear
  exact ⟨l₀, p, eq, binned⟩

/-- `chunk_size()` of a live chunk. -/
theorem Owns.usable (owns : Owns s ((x, k) :: U)) : s.chunkSize (x + 8) = k - 4 := by
  obtain ⟨size, checked⟩ := owns.checked
  obtain ⟨k_min, bottom, top, -, -⟩ := owns.bounds
  unfold PtMalloc.chunkSize
  rw [if_neg (by omega), Nat.add_sub_cancel, checked, if_neg (by simp), size]
  rfl

end Regions

/-- The head of the arena and the caller's bytes in the chunks `U` are the same. -/
structure Stays (s s' : PtMalloc) (U : List (Nat × Nat)) : Prop where
  bottom : s'.hBottom = s.hBottom
  arena : s'.tSize = s.tSize
  keeps : Keeps s.mem s'.mem U

section PublicCalls
variable {s s₁ s' : PtMalloc} {U : List (Nat × Nat)} {x k req : Nat}

/-- The counters and the largest free chunk aside. -/
theorem Frame.stays (frame : Frame s s₁ [] U) (agree : Agree s₁ s') (mem : s'.mem = s₁.mem) :
    Stays s s' U where
  bottom := agree.bottom.trans frame.bottom
  arena := agree.arena.trans frame.arena
  keeps := mem ▸ frame.keeps

theorem Stays.trans (first : Stays s s₁ U) (second : Stays s₁ s' U) : Stays s s' U where
  bottom := second.bottom.trans first.bottom
  arena := second.arena.trans first.arena
  keeps := first.keeps.trans second.keeps

theorem Stays.of_agree (stays : Stays s s₁ U) (agree : Agree s₁ s') (mem : s'.mem = s₁.mem) :
    Stays s s' U where
  bottom := agree.bottom.trans stays.bottom
  arena := agree.arena.trans stays.arena
  keeps := mem ▸ stays.keeps

theorem agree_reset : Agree s { s with tLastFreeChunkSize := 0 } := ⟨rfl, rfl, rfl, rfl, rfl⟩

theorem Frame.of_reset (frame : Frame { s with tLastFreeChunkSize := 0 } s' [] U) :
    Frame s s' [] U := by
  have reset : Frame s { s with tLastFreeChunkSize := 0 } [] U := Frame.of_mem_eq rfl rfl rfl rfl
  exact reset.trans frame

/-- A live chunk passes the checks of `inter_re_alloc`. -/
theorem Owns.interReAlloc_eq (owns : Owns s ((x, k) :: U)) (some : req ≠ 0)
    (range : requestOutOfRange req = false) :
    s.interReAlloc (x + 8) req =
      if request2size req ≤ k then
        ((s.settle x k (request2size req) (prevInuse s.mem x) (tPreSize s.mem x)).1, k,
          (s.settle x k (request2size req) (prevInuse s.mem x) (tPreSize s.mem x)).2)
      else
        ((s.enlarge x k (request2size req) req).1, k, (s.enlarge x k (request2size req) req).2) := by
  obtain ⟨size, checked⟩ := owns.checked
  obtain ⟨k_min, bottom, top, -, aligned⟩ := owns.bounds
  unfold interReAlloc
  rw [if_neg (by simp [invalidHandle]), if_neg some, if_neg (by simp [range]), if_neg (by omega)]
  simp only [Nat.add_sub_cancel, size]
  rw [if_neg (by omega), if_neg (by unfold minSize; omega), checked]
  simp only [ne_eq, not_true_eq_false, if_false]

/-- `inter_re_alloc` of the null handle. -/
theorem interReAlloc_null :
    s.interReAlloc invalidHandle req = ((s.interMalloc req).1, 0, (s.interMalloc req).2) := by
  rw [interReAlloc, if_pos rfl]

/-- `inter_re_alloc` to nothing. -/
theorem interReAlloc_zero :
    s.interReAlloc (x + 8) 0 = (invalidHandle, (s.interFree (x + 8)).2) := by
  rw [interReAlloc, if_neg (by simp [invalidHandle]), if_pos rfl]

/-- `inter_re_alloc` to a size that is too large. -/
theorem interReAlloc_range (some : req ≠ 0) (range : requestOutOfRange req = true) :
    s.interReAlloc (x + 8) req = (invalidHandle, 0, s) := by
  rw [interReAlloc, if_neg (by simp [invalidHandle]), if_neg some, if_pos range]

/-- `inter_re_alloc` of a live chunk. -/
theorem Owns.interReAlloc (owns : Owns s ((x, k) :: U)) (min : minSize ≤ s.getMinChunkSize)
    (some : req ≠ 0) (fits : ¬s.outgrows (x + 8) req) :
    let t := s.interReAlloc (x + 8) req
    (t.1 = invalidHandle ∧ Owns t.2.2 ((x, k) :: U) ∧ Frame s t.2.2 [] ((x, k) :: U) ∧
        (Coalesced s → Coalesced t.2.2)) ∨
      requestOutOfRange req = false ∧ ∃ y k', t.1 = y + 8 ∧
        Moved s t.2.2 U x k y k' (request2size req) := by
  by_cases range : requestOutOfRange req
  · rw [interReAlloc_range some range]
    exact .inl ⟨rfl, owns, Frame.of_mem_eq rfl rfl rfl rfl, id⟩
  have inRange : requestOutOfRange req = false := Bool.eq_false_iff.mpr range
  rw [owns.interReAlloc_eq some inRange]
  by_cases le : request2size req ≤ k
  · rw [if_pos le]
    obtain ⟨l, b, r, bins, rfl, located⟩ := owns.locate
    have word := (located.heap.tag_of located.address).word (by simp [located.live])
    rw [word.2]
    obtain ⟨handle, k', moved⟩ := located.shrink min (request2size_sized inRange).1 le
    exact .inr ⟨inRange, x, k', handle, moved⟩
  · rw [if_neg le]
    exact (owns.enlarge min inRange (not_le.mp le) fits).imp id fun moved => ⟨inRange, moved⟩

/-- The counters of the head and the statistics. -/
theorem agree_counters (size cnt : Nat) (total data : Int) :
    Agree s { s with
      tUserAllocSize := size
      tUserAllocChunkCnt := cnt
      statChunkTotal := total
      statDataSize := data } :=
  ⟨rfl, rfl, rfl, rfl, rfl⟩

theorem mem_counters (size cnt : Nat) (total data : Int) :
    mem { s with
      tUserAllocSize := size
      tUserAllocChunkCnt := cnt
      statChunkTotal := total
      statDataSize := data } = s.mem :=
  rfl

theorem agree_countFree (size : Nat) : Agree s (s.countFree size) := agree_counters _ _ _ _

theorem mem_countFree (size : Nat) : (s.countFree size).mem = s.mem := mem_counters _ _ _ _

/-- `Malloc` is `inter_malloc` and the counters. -/
theorem malloc_inter (s : PtMalloc) (req : Nat) :
    let t := interMalloc { s with tLastFreeChunkSize := 0 } req
    (s.malloc req).1 = t.1 ∧ Agree t.2 (s.malloc req).2 ∧ (s.malloc req).2.mem = t.2.mem := by
  unfold malloc
  refine ⟨rfl, ?_⟩
  dsimp only
  split
  · exact ⟨⟨rfl, rfl, rfl, rfl, rfl⟩, rfl⟩
  · exact ⟨Agree.refl _, rfl⟩

/-- `ReAlloc` is `inter_re_alloc` and the counters. -/
theorem reAlloc_inter (s : PtMalloc) (h req : Nat) :
    let t := interReAlloc { s with tLastFreeChunkSize := 0 } h req
    (s.reAlloc h req).1 = t.1 ∧ Agree t.2.2 (s.reAlloc h req).2 ∧
      (s.reAlloc h req).2.mem = t.2.2.mem := by
  unfold reAlloc
  refine ⟨rfl, ?_⟩
  dsimp only
  split
  · exact ⟨⟨rfl, rfl, rfl, rfl, rfl⟩, rfl⟩
  · split
    · exact ⟨agree_countFree _, mem_countFree _⟩
    · exact ⟨Agree.refl _, rfl⟩

/-- `Malloc` adds a chunk with room for the request, or fails. -/
theorem Owns.malloc (owns : Owns s U) (min : minSize ≤ s.getMinChunkSize) (req : Nat) :
    ((s.malloc req).1 = invalidHandle ∧ Owns (s.malloc req).2 U ∧ Stays s (s.malloc req).2 U) ∨
      ∃ x k, (s.malloc req).1 = x + 8 ∧ req + 4 ≤ k ∧ Owns (s.malloc req).2 ((x, k) :: U) ∧
        Stays s (s.malloc req).2 U := by
  have reset : Owns { s with tLastFreeChunkSize := 0 } U := owns.of_agree agree_reset rfl
  obtain ⟨same, agree, mem⟩ := malloc_inter s req
  obtain ⟨null, owns', frame⟩ | ⟨range, x, k, handle, le, owns', frame⟩ := reset.interMalloc min req
  · exact .inl ⟨same.trans null, owns'.of_agree agree mem, frame.of_reset.stays agree mem⟩
  · exact .inr ⟨x, k, same.trans handle, le_trans (request2size_sized range).2 le,
      owns'.of_agree agree mem, frame.of_reset.stays agree mem⟩

/-- The first byte of a free chunk is the low byte of a link, and links are aligned. -/
theorem Heap.link_byte {bs : List Block} {bins : Nat → List Nat} {i : Nat} (heap : Heap s bs bins)
    (mem : x ∈ bins i) : (s.mem (x + 8)).toNat % 8 = 0 := by
  obtain ⟨c, placed, -⟩ := heap.placed_of_mem mem
  have aligned : hPreChunk s.mem x % 8 = 0 := by
    rw [← bwd_of_ne (i := i) (heap.ne_null placed)]
    obtain null | member := List.mem_cons.mp ((heap.rings _).neighbours mem).1.1
    · rw [null]
      rfl
    · obtain ⟨d, placed', -⟩ := heap.placed_of_mem member
      exact heap.start_aligned placed'
  have low : hPreChunk s.mem x = (s.mem (x + 8)).toNat + 256 * load s.mem (x + 9) 7 := rfl
  omega

/-- What a new chunk holds: from the top it has just the size asked for, and from a bin it begins with
a link. -/
theorem Owns.malloc_first (owns : Owns s U) (min : minSize ≤ s.getMinChunkSize)
    (found : (s.malloc req).1 ≠ invalidHandle) :
    (s.malloc req).2.chunkSize (s.malloc req).1 = request2size req - 4 ∨
      ((s.malloc req).2.mem (s.malloc req).1).toNat % 8 = 0 := by
  have reset : Owns { s with tLastFreeChunkSize := 0 } U := owns.of_agree agree_reset rfl
  obtain ⟨bs, bins, heap, settled, used⟩ := reset
  unfold PtMalloc.malloc at found ⊢
  obtain ⟨full, -⟩ | ⟨-, l, c, r, bins', serves, serving⟩ := interMalloc_spec heap settled min req
  · exact absurd full found
  simp only [if_pos found]
  generalize PtMalloc.interMalloc { s with tLastFreeChunkSize := 0 } req = t at serves found ⊢
  obtain ⟨h, s₁⟩ := t
  simp only at serves found ⊢
  obtain ⟨below, -, above⟩ := settled_append.mp serves.settled |>.imp_right settled_cons.mp
  have bottom := serves.frame.bottom
  have handle := serves.handle
  have located : Located s₁ _ _ l c r bins' :=
    ⟨serves.heap, below, above, serves.live, rfl, .refl _⟩
  rw [← bottom] at handle
  cases serving with
  | top =>
    left
    have agree : Agree s₁ (s₁.countMalloc h) := ⟨rfl, rfl, rfl, rfl, rfl⟩
    have owns' := located.owns.of_agree agree rfl
    have size := owns'.usable
    rw [← handle] at size
    exact size
  | bin binned le leaves =>
    right
    have head : (s₁.countMalloc h).mem h = s.mem h := serves.head h le_rfl (by omega)
    rw [head, handle, bottom]
    exact heap.link_byte (heap.mem_bin binned rfl)

/-- `Calloc` adds a chunk of zeros. -/
theorem Owns.calloc (owns : Owns s U) (min : minSize ≤ s.getMinChunkSize) (req : Nat) :
    ((s.calloc req).1 = invalidHandle ∧ Owns (s.calloc req).2 U ∧ Stays s (s.calloc req).2 U) ∨
      ∃ x k, (s.calloc req).1 = x + 8 ∧ req + 4 ≤ k ∧ Owns (s.calloc req).2 ((x, k) :: U) ∧
        Stays s (s.calloc req).2 U := by
  unfold PtMalloc.calloc
  obtain ⟨null, owns', stays⟩ | ⟨x, k, handle, le, owns', stays⟩ := owns.malloc min req
  · simp only [null, ne_eq, not_true_eq_false, if_false]
    exact .inl ⟨trivial, owns', stays⟩
  · have found : x + 8 ≠ invalidHandle := by simp [invalidHandle]
    simp only [handle, if_pos found]
    have agree : Agree (s.malloc req).2 { (s.malloc req).2 with
      mem := store (s.malloc req).2.mem (x + 8) (List.replicate req 0) } :=
      ⟨rfl, rfl, rfl, rfl, rfl⟩
    obtain ⟨written, frame, -⟩ := owns'.write agree rfl (fun i hi => store_outside (by
      rw [List.length_replicate]
      omega))
    exact .inr ⟨x, k, rfl, le, written, stays.trans (frame.stays (Agree.refl _) rfl)⟩

/-- `Free` removes a chunk. -/
theorem Owns.free (owns : Owns s ((x, k) :: U)) :
    (s.free (x + 8)).1 = 0 ∧ Owns (s.free (x + 8)).2 U ∧ Stays s (s.free (x + 8)).2 U := by
  obtain ⟨ret, -, owns', frame⟩ := owns.interFree
  unfold PtMalloc.free
  simp only [ret, if_true]
  refine ⟨trivial, owns'.of_agree (agree_countFree _) (mem_countFree _), ?_⟩
  exact frame.stays (agree_countFree _) (mem_countFree _)

/-- `ReAlloc` of a live chunk to another size. -/
theorem Owns.reAlloc (owns : Owns s ((x, k) :: U)) (min : minSize ≤ s.getMinChunkSize)
    (some : req ≠ 0) (fits : ¬s.outgrows (x + 8) req) :
    let t := s.reAlloc (x + 8) req
    (t.1 = invalidHandle ∧ Owns t.2 ((x, k) :: U) ∧ Stays s t.2 ((x, k) :: U)) ∨
      ∃ y k', t.1 = y + 8 ∧ req + 4 ≤ k' ∧ Owns t.2 ((y, k') :: U) ∧ Stays s t.2 U ∧
        ∀ i, i + 4 < k → i + 4 < k' → t.2.mem (y + 8 + i) = s.mem (x + 8 + i) := by
  have reset : Owns { s with tLastFreeChunkSize := 0 } ((x, k) :: U) :=
    owns.of_agree agree_reset rfl
  obtain ⟨same, agree, mem⟩ := reAlloc_inter s (x + 8) req
  obtain ⟨null, owns', frame, -⟩ | ⟨range, y, k', handle, moved⟩ := reset.interReAlloc min some fits
  · exact .inl ⟨same.trans null, owns'.of_agree agree mem, frame.of_reset.stays agree mem⟩
  · refine .inr ⟨y, k', same.trans handle, le_trans (request2size_sized range).2 moved.le,
      moved.owns.of_agree agree mem, moved.frame.of_reset.stays agree mem, ?_⟩
    rw [mem]
    exact moved.data

/-- `ReAlloc` to nothing frees the chunk. -/
theorem Owns.reAlloc_zero (owns : Owns s ((x, k) :: U)) :
    (s.reAlloc (x + 8) 0).1 = invalidHandle ∧ Owns (s.reAlloc (x + 8) 0).2 U ∧
      Stays s (s.reAlloc (x + 8) 0).2 U := by
  have reset : Owns { s with tLastFreeChunkSize := 0 } ((x, k) :: U) :=
    owns.of_agree agree_reset rfl
  obtain ⟨-, -, owns', frame⟩ := reset.interFree
  obtain ⟨same, agree, mem⟩ := reAlloc_inter s (x + 8) 0
  exact ⟨same, owns'.of_agree agree mem, frame.of_reset.stays agree mem⟩

/-- `ReAlloc` of the null handle is `Malloc`. -/
theorem reAlloc_null : (s.reAlloc invalidHandle req).1 = (s.malloc req).1 ∧
    Agree (s.malloc req).2 (s.reAlloc invalidHandle req).2 ∧
    (s.reAlloc invalidHandle req).2.mem = (s.malloc req).2.mem := by
  obtain ⟨served, agree, mem⟩ := malloc_inter s req
  obtain ⟨handle, agree', mem'⟩ := reAlloc_inter s invalidHandle req
  exact ⟨handle.trans served.symm, agree.symm.trans agree', mem'.trans mem.symm⟩

end PublicCalls

end Dtc.Mem
