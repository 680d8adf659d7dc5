import Dtc.Mem.Tidy

/-!
# The chunks a caller owns

Seen from outside, a heap is a collection of live chunks, each an address and a size.
`Owns s U` says that the heap is well formed between two calls and that `U` are its live
chunks, in any order. The calls are described by what they do to `U`: `inter_malloc`
adds a chunk, `inter_free` removes one, and a write inside a live chunk changes nothing
but its own bytes.
-/

namespace Dtc.Mem

open Library Tiling

/-- The heap is well formed, and `U` are the addresses and sizes of its live chunks. -/
def Owns (s : PtMalloc) (U : List (Nat × Nat)) : Prop :=
  ∃ bs bins, Heap s bs bins ∧ Settled bs ∧ (usedAt s.hBottom bs).Perm U

/-- A live chunk among the blocks of the heap; the others are `U`. -/
structure Located (s : PtMalloc) (U : List (Nat × Nat)) (x : Nat) (l : List Block) (b : Block)
    (r : List Block) (bins : Nat → List Nat) : Prop where
  heap : Heap s (l ++ b :: r) bins
  below : Settled l
  above : Settled r
  live : b.kind = .live
  address : x = s.hBottom + span Block.size l
  others : (usedAt s.hBottom l ++ usedAt (x + b.size) r).Perm U

section Located
variable {s s' : PtMalloc} {U : List (Nat × Nat)} {x k : Nat} {l r : List Block} {b : Block}
  {bins : Nat → List Nat}

section
variable (located : Located s U x l b r bins)
include located

theorem Located.used : (usedAt s.hBottom (l ++ b :: r)).Perm ((x, b.size) :: U) := by
  have live : b.kind ≠ .binned := by simp [located.live]
  rw [usedAt_append, usedAt_cons, if_neg live, ← located.address]
  exact List.perm_middle.trans (located.others.cons _)

theorem Located.settled : Settled (l ++ b :: r) := by
  rw [settled_append, settled_cons]
  exact ⟨located.below, .inl located.live, located.above⟩

theorem Located.owns : Owns s ((x, b.size) :: U) :=
  ⟨l ++ b :: r, bins, located.heap, located.settled, located.used⟩

end

/-- A live chunk is one of the blocks. -/
theorem Owns.locate (owns : Owns s ((x, k) :: U)) :
    ∃ l b r bins, b.size = k ∧ Located s U x l b r bins := by
  obtain ⟨bs, bins, heap, settled, used⟩ := owns
  have mem : (x, k) ∈ usedAt s.hBottom bs := used.symm.subset List.mem_cons_self
  obtain ⟨b, placed, unbinned, rfl⟩ := mem_usedAt.mp mem
  obtain ⟨l, r, rfl, hx⟩ := split_of_mem_place placed
  rw [settled_append, settled_cons] at settled
  obtain ⟨below, kind, above⟩ := settled
  refine ⟨l, b, r, bins, rfl, heap, below, above, kind.resolve_right unbinned, hx, ?_⟩
  rw [usedAt_append, usedAt_cons, if_neg unbinned, ← hx] at used
  exact (List.perm_middle.symm.trans used).cons_inv

theorem Owns.of_perm {V : List (Nat × Nat)} (owns : Owns s U) (perm : U.Perm V) : Owns s V := by
  obtain ⟨bs, bins, heap, settled, used⟩ := owns
  exact ⟨bs, bins, heap, settled, used.trans perm⟩

/-- Counters do not matter. -/
theorem Owns.of_agree (owns : Owns s U) (agree : Agree s s') (mem : s'.mem = s.mem) :
    Owns s' U := by
  obtain ⟨bs, bins, heap, settled, used⟩ := owns
  refine ⟨bs, bins, heap.of_agree agree mem, settled, ?_⟩
  rw [agree.bottom]
  exact used

/-- A clear `PREV_INUSE` bit stands above a block of a bin. -/
theorem Heap.binned_below (heap : Heap s (l ++ b :: r) bins)
    (hx : x = s.hBottom + span Block.size l) (settled : Settled l) (clear : b.prevInUse = false) :
    ∃ l₀ p, l = l₀ ++ [p] ∧ p.kind = .binned ∧ tPreSize s.mem x = p.size := by
  obtain ⟨p, last, unused, size⟩ := (heap.tag_of hx).below clear
  obtain rfl | ⟨l₀, q, rfl⟩ := List.eq_nil_or_concat l
  · exact absurd last (by simp)
  · rw [List.concat_eq_append, lastOr_concat, Option.some.injEq] at last
    subst last
    have binned : q.kind = .binned := (settled q (by simp)).resolve_left unused
    exact ⟨l₀, q, List.concat_eq_append, binned, size binned⟩

/-- What `inter_free` needs to know about the block below. -/
theorem Located.binned_below (located : Located s U x l b r bins) (clear : b.prevInUse = false) :
    ∃ l₀ p, l = l₀ ++ [p] ∧ p.kind = .binned := by
  obtain ⟨l₀, p, eq, binned, -⟩ := located.heap.binned_below located.address located.below clear
  exact ⟨l₀, p, eq, binned⟩

/-- The frame of a step, seen from the chunks that stay. -/
theorem Frame.owned {V : List (Nat × Nat)} (frame : Frame s s' [] V) (perm : V.Perm U) :
    Frame s s' [] U :=
  frame.weaken perm.symm.subset

end Located

section Calls
variable {s s' : PtMalloc} {U : List (Nat × Nat)} {x k req : Nat}

/-- `inter_malloc` adds a chunk with room for the request, or fails. -/
theorem Owns.interMalloc (owns : Owns s U) (min : minSize ≤ s.getMinChunkSize) (req : Nat) :
    ((s.interMalloc req).1 = invalidHandle ∧ Owns (s.interMalloc req).2 U ∧
        Frame s (s.interMalloc req).2 [] U) ∨
      requestOutOfRange req = false ∧ ∃ x k, (s.interMalloc req).1 = x + 8 ∧
        request2size req ≤ k ∧ Owns (s.interMalloc req).2 ((x, k) :: U) ∧
        Frame s (s.interMalloc req).2 [] U := by
  obtain ⟨bs, bins, heap, settled, used⟩ := owns
  obtain ⟨full, heap', frame, -⟩ | ⟨range, l, c, r, bins', serves, -⟩ :=
    interMalloc_spec heap settled min req
  · refine .inl ⟨full, ⟨bs, bins, heap', settled, ?_⟩, frame.owned used⟩
    rw [frame.bottom]
    exact used
  · obtain ⟨below, -, above⟩ := settled_append.mp serves.settled |>.imp_right settled_cons.mp
    have bottom := serves.frame.bottom
    refine .inr ⟨range, s.hBottom + span Block.size l, c.size, serves.handle, serves.le, ?_,
      serves.frame.owned used⟩
    refine Located.owns ⟨serves.heap, below, above, serves.live, by rw [bottom], ?_⟩
    rw [bottom, ← serves.used]
    exact used

/-- `inter_free` removes a chunk. -/
theorem Owns.interFree (owns : Owns s ((x, k) :: U)) :
    (s.interFree (x + 8)).1 = 0 ∧ (s.interFree (x + 8)).2.1 = k ∧
      Owns (s.interFree (x + 8)).2.2 U ∧ Frame s (s.interFree (x + 8)).2.2 [] U := by
  obtain ⟨l, b, r, bins, rfl, located⟩ := owns.locate
  obtain ⟨l', y, c, r', bins', ret, size, hy, sum, sub, used, released, -⟩ :=
    interFree_spec located.heap located.address located.live located.binned_below located.above
  have all : usedAt s.hBottom (l' ++ r') = usedAt s.hBottom l ++ usedAt (x + b.size) r := by
    rw [usedAt_append, ← hy, released.used, used, sum]
  refine ⟨ret, size, ⟨l' ++ r', bins', released.heap, ?_, ?_⟩, ?_⟩
  · rw [settled_append]
    exact ⟨fun b mem => located.below b (sub mem), released.settled⟩
  · rw [released.frame.bottom, all]
    exact located.others
  · refine Frame.owned (released.frame.around rfl) ?_
    rw [used, sum]
    exact located.others

/-- `inter_malloc` keeps the blocks tidy. -/
theorem Coalesced.interMalloc (coalesced : Coalesced s) (min : minSize ≤ s.getMinChunkSize)
    (req : Nat) : Coalesced (s.interMalloc req).2 := by
  obtain ⟨bs, bins, heap, settled, tidy⟩ := coalesced
  obtain ⟨-, heap', -⟩ | ⟨-, l, c, r, bins', serves, serving⟩ :=
    interMalloc_spec heap settled min req
  · exact ⟨bs, bins, heap', settled, tidy⟩
  · exact ⟨_, bins', serves.heap, serves.settled, tidy.serving serving⟩

/-- `inter_free` keeps the blocks tidy, if a chunk at the top can be joined with what is free below
it. -/
theorem Located.interFree_coalesced {l r : List Block} {b : Block} {bins : Nat → List Nat}
    (located : Located s U x l b r bins) (coalesced : Coalesced s)
    (clears : r = [] → Clears maxAllocSize (l ++ [b])) : Coalesced (s.interFree (x + 8)).2.2 := by
  have tidy := coalesced.tidy located.heap located.settled
  obtain ⟨l', y, c, r', bins', -, -, -, -, sub, -, released, bins₁, n, r₁, bins₂, below, above, puts⟩ :=
    interFree_spec located.heap located.address located.live located.binned_below located.above
  refine ⟨l' ++ r', bins', released.heap, ?_, tidy.free clears below above puts⟩
  rw [settled_append]
  exact ⟨fun b mem => located.below b (sub mem), released.settled⟩

/-- The bytes of a live chunk are its caller's. -/
theorem Located.write {l r : List Block} {b : Block} {bins : Nat → List Nat}
    (located : Located s U x l b r bins) (agree : Agree s s')
    (minChunk : s'.getMinChunkSize = s.getMinChunkSize)
    (outside : ∀ i, i < x + 8 ∨ x + b.size + 4 ≤ i → s'.mem i = s.mem i) :
    Located s' U x l b r bins ∧ Frame s s' [] U := by
  obtain ⟨heap, below, above, live, hx, others⟩ := located
  have heap₁ := heap.shift
  have next := start_concat (b := b) hx
  have tag : Tag s'.mem (lastOr none l) x b :=
    (heap.tag_of hx).congr fun i low high => outside i (.inl (by omega))
  have heap' : Heap s' (l ++ ([b] ++ r)) bins := by
    have size : span Block.size [b] = b.size := by simp
    refine heap.replace [b] [b] agree hx size size (by simp [live]) (by simp [live])
      (by simpa using heap.sized_of) (fun i hi => outside i (by omega)) ?_ ?_
    · exact tagged_cons.mpr ⟨tag, tagged_nil⟩
    · refine heap₁.behind_same next (fun i low _ => outside i (.inr low)) ?_
      -- the block below is live, so the bit is set
      rintro q rest rfl clear
      obtain ⟨p, last, unused, -⟩ := (heap₁.tag_of next).below clear
      rw [lastOr_concat, Option.some.injEq] at last
      exact absurd (last ▸ live) unused
  refine ⟨⟨heap', below, above, live, by rw [agree.bottom, hx], ?_⟩, ?_⟩
  · rw [agree.bottom]
    exact others
  · have frame : Frame s s' l (usedAt (x + b.size) r) := Frame.of_change [b] heap hx (by simp)
      agree.bottom agree.arena minChunk fun i hi => outside i (by omega)
    exact (frame.around rfl).owned others

theorem Owns.write (owns : Owns s ((x, k) :: U)) (agree : Agree s s')
    (minChunk : s'.getMinChunkSize = s.getMinChunkSize)
    (outside : ∀ i, i < x + 8 ∨ x + k + 4 ≤ i → s'.mem i = s.mem i) :
    Owns s' ((x, k) :: U) ∧ Frame s s' [] U ∧ (Coalesced s → Coalesced s') := by
  obtain ⟨l, b, r, bins, rfl, located⟩ := owns.locate
  obtain ⟨located', frame⟩ := located.write agree minChunk outside
  refine ⟨located'.owns, frame, fun coalesced => ?_⟩
  exact ⟨_, bins, located'.heap, located'.settled, coalesced.tidy located.heap located.settled⟩

end Calls

end Dtc.Mem
