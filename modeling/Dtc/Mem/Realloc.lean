import Dtc.Mem.Owned

/-!
# ReAlloc

A chunk that is too small grows into the top, absorbs the free chunk above it, slides
into the free chunk below it, or is copied to a new chunk; one that is large enough is
shrunk in place. Each branch ends in `Moved`: the caller owns one chunk in the place of
the old one, with the old bytes in it, and every other live chunk is as before.

The sizes of a chunk and of the chunk above it are added in 64 bits. When the sum does
not fit into `m_tSize` and what is left of it is too small to be split off, the chunk
gets a size that has been cut off (`outgrows`).
-/

namespace Dtc.Mem

open Library Memory Tiling List PtMalloc Block

namespace PtMalloc

/-- The chunk ends at the top, and there would be a free chunk below the top without it: the free
chunk below is too large to be joined, or there is another one below that. -/
def strands (s : PtMalloc) (hHandle : Nat) : Prop :=
  let chunk := hHandle - 8
  let preSize := tPreSize s.mem chunk
  chunk + Mem.chunkSize s.mem chunk = s.hTop ∧ prevInuse s.mem chunk = false ∧
    (canCombile (Mem.chunkSize s.mem chunk) preSize = false ∨
      prevInuse s.mem (chunk - preSize) = false)

instance (s : PtMalloc) (hHandle : Nat) : Decidable (s.strands hHandle) := by
  unfold strands
  infer_instance

/-- The chunk absorbs the next one, the sum does not fit into 32 bits, and the rest is
too small to be split off. -/
def outgrows (s : PtMalloc) (hHandle req : Nat) : Prop :=
  let oldSize := Mem.chunkSize s.mem (hHandle - 8)
  let next := hHandle - 8 + oldSize
  let total := oldSize + Mem.chunkSize s.mem next
  hHandle ≠ invalidHandle ∧ requestOutOfRange req = false ∧ oldSize < request2size req ∧
    next ≠ s.hTop ∧ prevInuse s.mem (next + Mem.chunkSize s.mem next) = false ∧
    2 ^ 32 ≤ total ∧ request2size req ≤ total ∧ total < request2size req + s.getMinChunkSize

instance (s : PtMalloc) (hHandle req : Nat) : Decidable (s.outgrows hHandle req) := by
  unfold outgrows
  infer_instance

end PtMalloc

/-- The live chunk of `old` bytes at `x` has become one of `k` bytes at `y`. -/
structure Moved (s s' : PtMalloc) (U : List (Nat × Nat)) (x old y k n : Nat) : Prop where
  owns : Owns s' ((y, k) :: U)
  le : n ≤ k
  frame : Frame s s' [] U
  data : ∀ i, i + 4 < old → i + 4 < k → s'.mem (y + 8 + i) = s.mem (x + 8 + i)
  /-- the old chunk is freed only if it cannot stay where it is -/
  coalesced : Coalesced s →
    (s.strands (x + 8) → n ≤ old ∨ s.hTop + (n - old) + minSize < s.tSize) → Coalesced s'

section Realloc
variable {s s₁ s' : PtMalloc} {U : List (Nat × Nat)} {x y k n total req : Nat} {l r r' : List Block}
  {b q : Block} {bins bins' : Nat → List Nat} {p : Bool}

/-- A resized range, seen from the caller. -/
theorem Resized.owns (resized : Resized s₁ s' l y total n p r k r' bins') (settled : Settled l)
    (hy : y = s₁.hBottom + span size l)
    (others : (usedAt s₁.hBottom l ++ usedAt (y + total) r).Perm U) :
    Owns s' ((y, k) :: U) ∧ Frame s₁ s' [] U ∧
      ∀ mid, Tidy (l ++ b :: (mid ++ r)) → p = b.prevInUse → Coalesced s' := by
  have bottom := resized.frame.bottom
  have located : Located s' U y l ⟨k, p, .live⟩ r' bins' := by
    refine ⟨resized.heap, settled, resized.settled, rfl, by rw [bottom, hy], ?_⟩
    rw [bottom, resized.used]
    exact others
  refine ⟨located.owns, (resized.frame.around rfl).owned others, fun mid tidy bit => ?_⟩
  exact ⟨_, bins', resized.heap, located.settled, tidy.resize mid (by simp) bit resized.leaves⟩

/-- In place. -/
theorem Located.shrink (located : Located s U x l b r bins) (min : minSize ≤ s.getMinChunkSize)
    (sized : Sized n) (le : n ≤ b.size) :
    (s.settle x b.size n b.prevInUse (tPreSize s.mem x)).1 = x + 8 ∧
      ∃ k, Moved s (s.settle x b.size n b.prevInUse (tPreSize s.mem x)).2 U x b.size x k n := by
  have settled := located.settled
  obtain ⟨heap, below, above, live, hx, others⟩ := located
  have fits := heap.sized_of.fits
  obtain ⟨handle, k, r', bins', resized⟩ := settle_spec [b] heap hx (by simp [live]) above sized
    (by simp) le min (by omega) (fun _ => fits) (heap.tag_of hx).below
  obtain ⟨owns, frame, coalesced⟩ := resized.owns below hx others
  refine ⟨handle, k, owns, resized.le, frame, ?_, fun before _ => ?_⟩
  · intro i _ high
    exact resized.data _ (by omega) (by omega)
  · exact coalesced [] (before.tidy heap settled) rfl

theorem Located.top_eq (located : Located s U x l b [] bins) : x + b.size = s.hTop := by
  have top := located.heap.top
  have hx := located.address
  simp only [span_append, span_cons, span_nil] at top
  omega

/-- A chunk that ends at the top is the last one. -/
theorem Located.eq_nil (located : Located s U x l b r bins) (top : x + b.size = s.hTop) :
    r = [] := by
  cases r with
  | nil => rfl
  | cons q rest =>
    have q_min := (located.heap.sized q (by simp)).ge
    have tiled := located.heap.top
    have hx := located.address
    simp only [span_append, span_cons] at tiled
    omega

/-- A free chunk above a live chunk. -/
theorem Located.binned_above (located : Located s U x l b r bins) (notTop : x + b.size ≠ s.hTop)
    (clear : prevInuse s.mem (x + b.size + chunkSize s.mem (x + b.size)) = false) :
    ∃ q rest, r = q :: rest ∧ chunkSize s.mem (x + b.size) = q.size ∧ q.kind = .binned := by
  obtain ⟨heap, -, above, -, hx, -⟩ := located
  have heap₁ := heap.shift
  have next : x + b.size = s.hBottom + span size (l ++ [b]) := start_concat hx
  cases r with
  | nil =>
    refine absurd ?_ notTop
    rw [next, heap.top]
  | cons q rest =>
    have size := ((heap₁.tag_of next).word (above.typed mem_cons_self)).1
    rw [size] at clear
    rw [settled_cons] at above
    exact ⟨q, rest, rfl, size, above.1.resolve_left (not_live_of_clear heap₁ next above.2 clear)⟩

variable {c : Block}

/-- The tags of the block below a live chunk. -/
theorem Located.word_below (located : Located s U x (l ++ [c]) b r bins)
    (hy : y + c.size = x) : chunkSize s.mem y = c.size ∧ prevInuse s.mem y = c.prevInUse := by
  have heap : Heap s (l ++ c :: b :: r) bins := by
    have heap := located.heap
    rw [append_assoc] at heap
    exact heap
  have hx := located.address
  simp only [span_append, span_cons, span_nil] at hx
  exact (heap.tag_of (by omega)).word (located.below.typed (by simp))

/-- Forward into the top. -/
theorem Located.growTop (located : Located s U x l b r bins) (sized : Sized n) (less : b.size < n)
    (top : x + b.size = s.hTop) (fits : s.hTop + (n - b.size) + minSize < s.tSize) :
    let s' := { ((s.setTSize x (realSize n ||| tSize s.mem x % 8)).setTPreSize
        (s.hTop + (n - b.size)) (realSize n)).setTSize (s.hTop + (n - b.size)) 1 with
      hTop := s.hTop + (n - b.size) }
    Moved s s' U x b.size x n n := by
  intro s'
  obtain rfl := located.eq_nil top
  have settled := located.settled
  obtain ⟨heap, below, above, live, hx, others⟩ := located
  have b_aligned := heap.sized_of.aligned
  have n_aligned := sized.aligned
  have newTop : s.hTop + (n - b.size) = x + n := by omega
  have word := (heap.tag_of hx).word (by simp [live])
  have inside : ∀ i, i < x + n → s'.mem i = (s.setSize x n).mem i := by
    intro i hi
    exact (mem_setTSize (by omega)).trans (mem_setTPreSize (by omega))
  have outside : ∀ i, i < x + n → i < x + 4 ∨ x + 8 ≤ i → s'.mem i = s.mem i := by
    intro i hi apart
    exact (inside i hi).trans (mem_setSize apart)
  have tag : Tag s'.mem (lastOr none l) x { b with size := n } := by
    refine ⟨fun _ => ?_, fun clear => ?_⟩
    · rw [chunkSize_congr fun i low high => inside i (by omega),
        prevInuse_congr fun i low high => inside i (by omega),
        chunkSize_setSize sized.aligned sized.fits, prevInuse_setSize sized.aligned sized.fits]
      exact ⟨rfl, word.2⟩
    · rw [tPreSize_congr fun i low high => outside i (by omega) (by omega)]
      exact (heap.tag_of hx).below clear
  have heap' : Heap s' (l ++ [{ b with size := n }]) bins := by
    refine heap.retop [b] [{ b with size := n }] rfl rfl rfl rfl hx (by simp [live])
      (by simp [live]) (by simpa using sized) (fun i hi => outside i (by omega) (.inl hi))
      (tagged_cons.mpr ⟨tag, tagged_nil⟩) ?_ (le_of_lt fits) (tSize_setTSize (by decide))
    exact newTop
  have frame : Frame s s' l [] :=
    Frame.of_top [b] heap hx rfl rfl rfl (fun i hi => outside i (by omega) (.inl hi))
  rw [usedAt_nil, append_nil] at others
  have located' : Located s' U x l { b with size := n } [] bins := by
    refine ⟨heap', below, above, live, hx, ?_⟩
    rw [usedAt_nil, append_nil]
    exact others
  refine ⟨located'.owns, le_rfl, (frame.around rfl).owned ?_, ?_, fun before _ => ?_⟩
  · rw [append_nil]
    exact others
  · intro i low _
    exact outside _ (by omega) (.inr (by omega))
  · refine ⟨_, bins, heap', located'.settled, ?_⟩
    exact (before.tidy heap settled).resize [] (m := 0) (by simp [live]) rfl .none

/-- The free chunk above is absorbed. -/
theorem Located.absorb (located : Located s U x l b (q :: r) bins) (binned : q.kind = .binned)
    (min : minSize ≤ s.getMinChunkSize) (sized : Sized n) (less : b.size < n)
    (le : n ≤ b.size + q.size)
    (fits : b.size + q.size < n + s.getMinChunkSize → b.size + q.size < 2 ^ 32) :
    let t := (s.unlinkBin (binIndex q.size) (x + b.size)).2.settle x (b.size + q.size) n b.prevInUse
      (tPreSize s.mem x)
    t.1 = x + 8 ∧ ∃ k, Moved s t.2 U x b.size x k n := by
  have settled := located.settled
  obtain ⟨heap, below, above, live, hx, others⟩ := located
  have q_fits := (heap.sized q (by simp)).fits
  rw [settled_cons] at above
  have heap₁ := heap.shift
  have next : x + b.size = s.hBottom + span size (l ++ [b]) := start_concat hx
  obtain ⟨unlinked, only⟩ := heap₁.unlink binned next
  have frame₁ := only.frame heap₁.sized next
  rw [usedAt_cons, if_pos binned, nil_append] at frame₁
  rw [usedAt_cons, if_pos binned, nil_append, Nat.add_assoc] at others
  have placed : (x, b) ∈ place size s.hBottom (l ++ [b]) := mem_place_middle hx
  generalize (s.unlinkBin (binIndex q.size) (x + b.size)).2 = s₁ at unlinked frame₁ ⊢
  have hx₁ : x = s₁.hBottom + span size l := by rw [frame₁.bottom, hx]
  have pre : tPreSize s₁.mem x = tPreSize s.mem x :=
    tPreSize_congr fun i low high => frame₁.tags x b placed i low (by omega)
  rw [append_assoc] at unlinked
  have heap₂ : Heap s₁ (l ++ ([b, { q with kind := .held }] ++ r)) _ := unlinked
  intro t
  obtain ⟨handle, k, r', bins', resized⟩ := settle_spec (p := b.prevInUse)
    [b, { q with kind := .held }] heap₂ hx₁ (by simp [live]) above.2 sized (by simp) le
    (frame₁.minChunk ▸ min) (by omega) (fun small => fits (by rw [← frame₁.minChunk]; omega))
    (by rw [pre]; exact (heap.tag_of hx).below)
  rw [pre] at handle resized
  have others₁ : (usedAt s₁.hBottom l ++ usedAt (x + (b.size + q.size)) r).Perm U := by
    rw [frame₁.bottom]
    exact others
  obtain ⟨owns, frame, coalesced⟩ := resized.owns below hx₁ others₁
  have first : Frame s s₁ [] U := by
    refine (frame₁.below.around rfl).owned ?_
    rw [Nat.add_assoc]
    exact others
  refine ⟨handle, k, owns, resized.le, first.trans frame, ?_, fun before _ => ?_⟩
  · intro i low high
    refine (resized.data _ (by omega) (by omega)).trans
      (frame₁.keeps (x, b.size) ?_ _ (by simp) (by simp only; omega))
    rw [usedAt_append, usedAt_cons, ← hx]
    simp [live]
  · exact coalesced [q] (before.tidy heap settled) rfl

/-- A byte of a copied range. -/
theorem move_inside {m : Nat → UInt8} {dst src len i : Nat} (inside : i < len) :
    move m dst src len (dst + i) = m (src + i) := by
  unfold move store
  rw [if_pos (by rw [length_slice]; omega), Nat.add_sub_cancel_left, getD_slice inside]

theorem move_outside {m : Nat → UInt8} {dst src len i : Nat} (outside : i < dst ∨ dst + len ≤ i) :
    move m dst src len i = m i :=
  store_outside (by rw [length_slice]; exact outside)

/-- The bytes of a live chunk move down into the chunk held below it, and the two become
one range. -/
theorem Heap.moveDown (heap : Heap s (l ++ c :: b :: r) bins) (hy : y = s.hBottom + span size l)
    (held : c.kind = .held) (live : b.kind = .live) (fits : b.size + c.size < 2 ^ 32) :
    let s' := { s with
      mem := move s.mem (y + 8) (y + c.size + 8) (chunksize2memsize b.size) }
    Heap s' (l ++ ([⟨b.size + c.size, c.prevInUse, .loose⟩] ++ r)) bins ∧
      Frame s s' l (usedAt (y + (b.size + c.size)) r) := by
  intro s'
  have c_sized := heap.sized_of
  have b_sized := heap.sized b (by simp)
  have heap₁ : Heap s (l ++ ([c, b] ++ r)) bins := heap
  have heap₂ : Heap s ((l ++ [c, b]) ++ r) bins := by
    rw [append_assoc]
    exact heap
  have total : span size [c, b] = b.size + c.size := by
    simp only [span_cons, span_nil]
    omega
  have next : y + (b.size + c.size) = s.hBottom + span size (l ++ [c, b]) := by
    rw [span_append, total]
    omega
  have outside : ∀ i, i < y + 8 ∨ y + (b.size + c.size) + 4 ≤ i → s'.mem i = s.mem i := by
    intro i hi
    refine move_outside ?_
    unfold chunksize2memsize
    omega
  have above : ∀ i, y + (b.size + c.size) + 4 ≤ i → i < y + (b.size + c.size) + 8 →
      s'.mem i = s.mem i := fun i low _ => outside i (.inr low)
  refine ⟨?_, ?_⟩
  · refine heap₁.replace [c, b] [⟨b.size + c.size, c.prevInUse, .loose⟩] ⟨rfl, rfl, rfl, rfl, rfl⟩ hy
      total (by simp) (by simp [held, live]) (by simp) ?_ (fun i hi => outside i (by omega)) ?_ ?_
    · rw [forall_mem_singleton]
      exact ⟨le_trans b_sized.min (Nat.le_add_right _ _),
        Nat.dvd_add b_sized.aligned c_sized.aligned, fits⟩
    · refine tagged_cons.mpr ⟨⟨fun typed => absurd rfl typed, fun clear => ?_⟩, tagged_nil⟩
      rw [tPreSize_congr fun i low high => outside i (.inl (by omega))]
      exact (heap.tag_of hy).below clear
    · exact heap₂.behind_same next above fun _ _ _ _ =>
        ⟨_, rfl, by simp, fun binned => absurd binned (by simp)⟩
  · exact Frame.of_change [c, b] heap₁ hy total rfl rfl rfl fun i hi => outside i (by omega)

/-- The bytes move down into the free chunk below. -/
theorem Located.slide (located : Located s U x (l ++ [c]) b r bins)
    (binned : c.kind = .binned) (hy : y + c.size = x) (min : minSize ≤ s.getMinChunkSize)
    (sized : Sized n) (le : n ≤ b.size + c.size) (fits : b.size + c.size < 2 ^ 32) :
    let s₁ := (s.unlinkBin (binIndex c.size) y).2
    let t := settle
      { s₁ with mem := move s₁.mem (y + 8) (x + 8) (chunksize2memsize b.size) } y
      (b.size + c.size) n c.prevInUse (tPreSize s.mem y)
    t.1 = y + 8 ∧ ∃ k, Moved s t.2 U x b.size y k n := by
  subst hy
  have settled := located.settled
  obtain ⟨heap, below, above, live, hx, others⟩ := located
  rw [settled_append] at below
  rw [append_assoc] at heap settled
  have heap₁ : Heap s (l ++ c :: b :: r) bins := heap
  have start : y = s.hBottom + span size l := by
    simp only [span_append, span_cons, span_nil] at hx
    omega
  rw [usedAt_append, usedAt_cons, if_pos binned, nil_append, usedAt_nil, append_nil,
    Nat.add_assoc, Nat.add_comm c.size] at others
  obtain ⟨unlinked, only⟩ := heap₁.unlink binned start
  have frame₁ := only.frame heap₁.sized start
  have tags₁ := only.tag heap₁.sized (heap₁.placed start)
  rw [usedAt_cons, if_pos binned, nil_append, usedAt_cons, if_neg (by simp [live])] at frame₁
  have c_tag := (heap₁.tag_of start).below
  intro s₁ t
  have hs₁ : (s.unlinkBin (binIndex c.size) y).2 = s₁ := rfl
  have ht : t = settle { s₁ with
    mem := move s₁.mem (y + 8) (y + c.size + 8) (chunksize2memsize b.size) } y
      (b.size + c.size) n c.prevInUse (tPreSize s.mem y) := rfl
  clear_value t s₁
  rw [hs₁] at unlinked frame₁ tags₁
  have start₁ : y = s₁.hBottom + span size l := by rw [frame₁.bottom, start]
  obtain ⟨heap₂, frame₂⟩ := unlinked.moveDown start₁ rfl live fits
  generalize hm : move s₁.mem (y + 8) (y + c.size + 8) (chunksize2memsize b.size) = m
    at heap₂ frame₂ ht
  have moved : ∀ i, i < b.size - 4 → m (y + 8 + i) = s₁.mem (y + c.size + 8 + i) := by
    intro i hi
    rw [← hm]
    exact move_inside hi
  have pre : tPreSize m y = tPreSize s.mem y := by
    refine tPreSize_congr fun i low high => ?_
    rw [← hm]
    exact (move_outside (.inl (by omega))).trans (tags₁ i low (by omega))
  generalize hs₂ : ({ s₁ with mem := m } : PtMalloc) = s₂ at heap₂ frame₂ ht
  have mem₂ : s₂.mem = m := congrArg mem hs₂.symm
  rw [← mem₂] at moved pre
  have bottom : s₂.hBottom = s.hBottom := frame₂.bottom.trans frame₁.bottom
  have minChunk : s₂.getMinChunkSize = s.getMinChunkSize := frame₂.minChunk.trans frame₁.minChunk
  have start₂ : y = s₂.hBottom + span size l := by rw [bottom, start]
  obtain ⟨handle, k, r', bins', resized⟩ := settle_spec (p := c.prevInUse) _ heap₂ start₂ (by simp)
    above sized (by simp) le (minChunk ▸ min) (by omega) (fun _ => fits) (by rw [pre]; exact c_tag)
  rw [pre, ← ht] at handle resized
  have others₂ : (usedAt s₂.hBottom l ++ usedAt (y + (b.size + c.size)) r).Perm U := by
    rw [bottom]
    exact others
  obtain ⟨owns, frame, coalesced⟩ := resized.owns below.1 start₂ others₂
  have total : y + c.size + b.size = y + (b.size + c.size) := by omega
  have first : Frame s s₁ [] U := by
    refine Frame.owned ((frame₁.weaken (subset_append_right _ _)).around rfl) ?_
    rw [total]
    exact others
  have second : Frame s₁ s₂ [] U := by
    refine (frame₂.around rfl).owned ?_
    rw [frame₁.bottom]
    exact others
  refine ⟨handle, k, owns, resized.le, (first.trans second).trans frame, ?_, fun before _ => ?_⟩
  · intro i low high
    have kept := frame₁.keeps (y + c.size, b.size) (by simp) (y + c.size + 8 + i) (by simp)
      (by simp only; omega)
    rw [resized.data _ (by omega) (by omega), moved i (by omega), kept]
  · exact coalesced [b] (before.tidy heap settled) rfl

/-- The tags around a live chunk with a free block below it. -/
theorem Located.lower (located : Located s U x (l ++ [c]) b r bins)
    (coalesced : Coalesced s) (binned : c.kind = .binned) :
    prevInuse s.mem x = false ∧ tPreSize s.mem x = c.size ∧
      prevInuse s.mem (x - c.size) = c.prevInUse := by
  have tidy := coalesced.tidy located.heap located.settled
  have clear : b.prevInUse = false :=
    ((isChain_append.mp tidy.adjacent).2.2 c (by simp) b rfl binned).1
  have tag := located.heap.tag_of located.address
  obtain ⟨c', last, -, size⟩ := tag.below clear
  rw [lastOr_concat, Option.some.injEq] at last
  subst last
  have start : x - c.size + c.size = x := by
    have := located.address
    simp only [span_append, span_cons, span_nil] at this
    omega
  exact ⟨(tag.word (by simp [located.live])).2.trans clear, size binned,
    (located.word_below start).2⟩

/-- A chunk at the top that can be joined with what is free below it. -/
theorem Located.clears (located : Located s U x l b [] bins) (coalesced : Coalesced s)
    (joins : ¬s.strands (x + 8)) : Clears maxAllocSize (l ++ [b]) := by
  intro l₀ p c eq binned
  obtain ⟨rfl, last⟩ := append_inj' (eq.trans (append_assoc l₀ [p] [c]).symm) rfl
  obtain rfl : b = c := head_eq_of_cons_eq last
  obtain ⟨clear, pre, bit⟩ := located.lower coalesced binned
  have size := ((located.heap.tag_of located.address).word (by simp [located.live])).1
  have tidy := coalesced.tidy located.heap located.settled
  unfold strands at joins
  simp only [Nat.add_sub_cancel, size, pre, bit, clear, located.top_eq, true_and, not_or,
    Bool.not_eq_false] at joins
  refine ⟨of_decide_eq_true joins.1, fun q last free => ?_⟩
  have lower := (isChain_append.mp (isChain_append.mp tidy.adjacent).1).2.2 q last p rfl
  exact absurd (lower free).1 (by simp [joins.2])

/-- Behind a live chunk that is not the last block there is another one. -/
theorem Located.live_above (located : Located s U x l b r bins) (coalesced : Coalesced s)
    (some : r ≠ []) : ∃ z m, (z, m) ∈ U ∧ x + b.size ≤ z := by
  obtain rfl | ⟨r₀, e, rfl⟩ := eq_nil_or_concat r
  · exact absurd rfl some
  have tidy := coalesced.tidy located.heap located.settled
  rw [concat_eq_append] at *
  have used : e.kind ≠ .binned := tidy.behind.ends e (by simp)
  refine ⟨x + b.size + span size r₀, e.size, located.others.subset ?_, Nat.le_add_right _ _⟩
  rw [usedAt_append, usedAt_cons, if_neg used]
  simp

/-- The chunk freed after a chunk was handed out and written. -/
theorem Located.copied (located : Located s U x l b r bins) (coalesced : Coalesced s)
    (min : minSize ≤ s.getMinChunkSize) (handle : (s.interMalloc req).1 = y + 8)
    (less : b.size < request2size req)
    (clears : r = [] → Clears (request2size req - 1) (l ++ [b])) :
    let s₁ := (s.interMalloc req).2
    Coalesced (interFree
      { s₁ with mem := move s₁.mem (y + 8) (x + 8) (chunksize2memsize b.size) } (x + 8)).2.2 := by
  have tidy := coalesced.tidy located.heap located.settled
  intro s₁
  obtain ⟨failed, -⟩ | ⟨-, l₁, c, r₁, bins₁, serves, serving⟩ :=
    interMalloc_spec located.heap located.settled min req
  · exact absurd (handle.symm.trans failed) (by simp [invalidHandle])
  obtain ⟨below, -, above⟩ := settled_append.mp serves.settled |>.imp_right settled_cons.mp
  have bottom := serves.frame.bottom
  have start := Nat.add_right_cancel (handle.symm.trans serves.handle)
  have located₁ : Located s₁ ((x, b.size) :: U) y l₁ c r₁ bins₁ := by
    refine ⟨serves.heap, below, above, serves.live, by rw [bottom, start], ?_⟩
    rw [bottom, start, ← serves.used]
    exact located.used
  clear_value s₁
  have agree : Agree s₁ { s₁ with mem := move s₁.mem (y + 8) (x + 8) (chunksize2memsize b.size) } :=
    ⟨rfl, rfl, rfl, rfl, rfl⟩
  obtain ⟨located₂, -⟩ := located₁.write agree rfl
    (fun i hi => move_outside (by
      have := serves.le
      unfold chunksize2memsize
      omega))
  generalize ({ s₁ with mem := move s₁.mem (y + 8) (x + 8) (chunksize2memsize b.size) } : PtMalloc) =
    s₂ at located₂ ⊢
  have coalesced₂ : Coalesced s₂ := ⟨_, bins₁, located₂.heap, located₂.settled, tidy.serving serving⟩
  obtain ⟨l₂, b₂, r₂, bins₂, size, located₃⟩ := (located₂.owns.of_perm (List.Perm.swap _ _ _)).locate
  refine located₃.interFree_coalesced coalesced₂ fun nil => ?_
  subst nil
  rw [located₃.heap.unique located₂.heap located₃.settled located₂.settled]
  -- the chunk was the last one before
  obtain rfl : r = [] := by
    by_contra some
    obtain ⟨z, m, mem, apart⟩ := located.live_above coalesced some
    have mem₃ := located₃.others.symm.subset (mem_cons_of_mem _ mem)
    rw [usedAt_nil, append_nil] at mem₃
    have := bounds_of_mem_select mem₃
    have := located₃.address
    have b_min := located.heap.sized_of.ge
    omega
  refine Clears.serving tidy (fun e mem => ?_) serving (clears rfl)
  have sized := located.heap.sized e mem
  have fits := sized.fits
  have aligned := sized.aligned
  unfold maxAllocSize
  omega


section
variable (owns : Owns s ((x, k) :: U)) (min : minSize ≤ s.getMinChunkSize)
include owns min

/-- A new chunk, a copy, and the old chunk freed. -/
theorem Owns.copy (less : k < request2size req)
    (notTop : ¬(x + k = s.hTop ∧ s.hTop + (request2size req - k) + minSize < s.tSize))
    (notBelow : ¬((!prevInuse s.mem x) = true ∧ request2size req ≤ add32 k (tPreSize s.mem x))) :
    let t := s.interMalloc req
    (t.1 = invalidHandle ∧ Owns t.2 ((x, k) :: U) ∧ Frame s t.2 [] ((x, k) :: U) ∧
        (Coalesced s → Coalesced t.2)) ∨
      ∃ y k', t.1 = y + 8 ∧ Moved s (PtMalloc.interFree
        { t.2 with mem := move t.2.mem t.1 (x + 8) (chunksize2memsize k) } (x + 8)).2.2 U x k y k'
        (request2size req) := by
  intro t
  obtain failed | ⟨-, y, k', handle, le, owns₁, frame₁⟩ := owns.interMalloc min req
  · exact .inl ⟨failed.1, failed.2.1, failed.2.2, fun before => before.interMalloc min req⟩
  · refine .inr ⟨y, k', handle, ?_⟩
    have ht : s.interMalloc req = t := rfl
    clear_value t
    rw [ht] at handle owns₁ frame₁
    rw [handle]
    have agree : Agree t.2 { t.2 with
      mem := move t.2.mem (y + 8) (x + 8) (chunksize2memsize k) } := ⟨rfl, rfl, rfl, rfl, rfl⟩
    obtain ⟨owns₂, frame₂, -⟩ := owns₁.write agree rfl
      (fun i hi => move_outside (by unfold chunksize2memsize; omega))
    have moved : ∀ i, i < k - 4 → move t.2.mem (y + 8) (x + 8) (chunksize2memsize k) (y + 8 + i) =
        t.2.mem (x + 8 + i) := fun i hi => move_inside hi
    generalize hs₂ : ({ t.2 with
      mem := move t.2.mem (y + 8) (x + 8) (chunksize2memsize k) } : PtMalloc) = s₂ at owns₂ frame₂ ⊢
    have mem₂ : s₂.mem = move t.2.mem (y + 8) (x + 8) (chunksize2memsize k) :=
      congrArg PtMalloc.mem hs₂.symm
    rw [← mem₂] at moved
    have freed := owns₂.of_perm (List.Perm.swap _ _ _)
    obtain ⟨-, -, owns₃, frame₃⟩ := freed.interFree
    refine ⟨owns₃, le, ?_, ?_, fun before strands => ?_⟩
    · have sub : ∀ e : Nat × Nat, U ⊆ e :: U := fun e => subset_cons_self e U
      exact ((frame₁.weaken (sub _)).trans (frame₂.weaken (sub _))).trans (frame₃.weaken (sub _))
    · intro i low high
      have copied := frame₃.keeps (y, k') (by simp) (y + 8 + i) (by simp) (by simp only; omega)
      have kept := frame₁.keeps (x, k) (by simp) (x + 8 + i) (by simp) (by simp only; omega)
      rw [copied, moved i (by omega), kept]
    · obtain ⟨l, b, r, bins, rfl, located⟩ := owns.locate
      have coalesced := located.copied before min (ht ▸ handle) less fun nil => ?_
      · rw [ht] at coalesced
        rw [← hs₂]
        exact coalesced
      subst nil
      intro l₀ p c eq binned
      have top := located.top_eq
      have joins : ¬s.strands (x + 8) := fun stranded => by
        obtain le | room := strands stranded
        · omega
        · exact notTop ⟨top, room⟩
      obtain ⟨fits, ends⟩ := located.clears before joins l₀ p c eq binned
      refine ⟨?_, ends⟩
      obtain ⟨rfl, last⟩ := append_inj' (eq.trans (append_assoc l₀ [p] [c]).symm) rfl
      obtain rfl : b = c := head_eq_of_cons_eq last
      obtain ⟨clear, pre, -⟩ := located.lower before binned
      rw [clear, pre, add32_eq (by unfold maxAllocSize at fits; omega)] at notBelow
      simp only [Bool.not_false, true_and, not_le] at notBelow
      omega

/-- A chunk that is too small is enlarged, or the request fails. -/
theorem Owns.enlarge (range : requestOutOfRange req = false) (less : k < request2size req)
    (fits : ¬s.outgrows (x + 8) req) :
    let t := s.enlarge x k (request2size req) req
    (t.1 = invalidHandle ∧ Owns t.2 ((x, k) :: U) ∧ Frame s t.2 [] ((x, k) :: U) ∧
        (Coalesced s → Coalesced t.2)) ∨
      ∃ y k', t.1 = y + 8 ∧ Moved s t.2 U x k y k' (request2size req) := by
  obtain ⟨l, b, r, bins, rfl, located⟩ := owns.locate
  have sized := (request2size_sized range).1
  have word := (located.heap.tag_of located.address).word (by simp [located.live])
  unfold enlarge
  by_cases top : x + b.size = s.hTop ∧ s.hTop + (request2size req - b.size) + minSize < s.tSize
  · simp only [if_pos top]
    exact .inr ⟨x, _, rfl, located.growTop sized less top.1 top.2⟩
  simp only [if_neg top]
  by_cases next : x + b.size ≠ s.hTop ∧
      (!prevInuse s.mem (x + b.size + chunkSize s.mem (x + b.size))) = true ∧
      request2size req ≤ b.size + chunkSize s.mem (x + b.size)
  · simp only [if_pos next]
    obtain ⟨notTop, clear, le⟩ := next
    rw [Bool.not_eq_true'] at clear
    obtain ⟨q, rest, rfl, size, binned⟩ := located.binned_above notTop clear
    rw [size] at le clear ⊢
    rw [word.2]
    obtain ⟨handle, k', moved⟩ := located.absorb binned min sized less le (fun small => by
      by_contra large
      refine fits ⟨by simp [invalidHandle], range, ?_⟩
      simp only [Nat.add_sub_cancel, word.1, size]
      exact ⟨less, notTop, clear, not_lt.mp large, le, small⟩)
    exact .inr ⟨x, k', handle, moved⟩
  simp only [if_neg next]
  by_cases slide : (!prevInuse s.mem x) = true ∧ request2size req ≤ add32 b.size (tPreSize s.mem x)
  · simp only [if_pos slide]
    obtain ⟨clear, le⟩ := slide
    rw [Bool.not_eq_true', word.2] at clear
    obtain ⟨l₀, c, rfl, binned, pre⟩ :=
      located.heap.binned_below located.address located.below clear
    -- the 32-bit sum is large enough only if it has not overflowed
    have small : b.size + c.size < 2 ^ 32 := by
      have := (located.heap.sized c (by simp)).fits
      rw [pre, add32] at le
      omega
    rw [pre, add32_eq small] at le
    have start : x - c.size + c.size = x := by
      have := located.address
      simp only [span_append, span_cons, span_nil] at this
      omega
    have c_word := located.word_below start
    rw [pre, c_word.2]
    obtain ⟨handle, k', moved⟩ := located.slide binned start min sized le small
    exact .inr ⟨x - c.size, k', handle, moved⟩
  · simp only [if_neg slide]
    obtain ⟨null, failed⟩ | ⟨y, k', handle, moved⟩ := owns.copy min less top slide
    · simp only [if_pos null]
      exact .inl ⟨trivial, failed.1.of_agree ⟨rfl, rfl, rfl, rfl, rfl⟩ rfl,
        failed.2.1.trans (Frame.of_mem_eq rfl rfl rfl rfl),
        fun before => (failed.2.2 before).of_agree ⟨rfl, rfl, rfl, rfl, rfl⟩ rfl⟩
    · have some : (s.interMalloc req).1 ≠ invalidHandle := by
        rw [handle]
        simp [invalidHandle]
      simp only [if_neg some]
      exact .inr ⟨y, k', handle, moved⟩

end

end Realloc

end Dtc.Mem
