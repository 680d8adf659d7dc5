import Dtc.Mem.Bins
import Dtc.Mem.Words

/-!
# Free

`inter_free` joins the chunk with the free chunks below and above it and puts the
result back to the top or into a bin. The chunk is `held` meanwhile. `Frame` says what
stays: the tags of the blocks below it and the bytes of all other used blocks.
-/

namespace Dtc.Mem

open Library Tiling List PtMalloc Block

/-- The tags of the blocks `l` at the bottom, and the caller's bytes in `l` and in the
blocks `R`, are the same. -/
structure Frame (s s' : PtMalloc) (l : List Block) (R : List (Nat × Nat)) : Prop where
  bottom : s'.hBottom = s.hBottom
  arena : s'.tSize = s.tSize
  minChunk : s'.getMinChunkSize = s.getMinChunkSize
  keeps : Keeps s.mem s'.mem (usedAt s.hBottom l ++ R)
  tags : ∀ y c, (y, c) ∈ place Block.size s.hBottom l → ∀ j, y ≤ j → j < y + 8 →
    s'.mem j = s.mem j

variable {s s' s'' : PtMalloc} {bs l r rest : List Block} {bins : Nat → List Nat} {x i : Nat}
  {b c p q : Block}

section Frame
variable {R : List (Nat × Nat)}

theorem Frame.trans (first : Frame s s' l R) (second : Frame s' s'' l R) : Frame s s'' l R where
  bottom := second.bottom.trans first.bottom
  arena := second.arena.trans first.arena
  minChunk := second.minChunk.trans first.minChunk
  keeps := by
    have later := second.keeps
    rw [first.bottom] at later
    exact first.keeps.trans later
  tags y c placed j low high := by
    have later := second.tags y c
    rw [first.bottom] at later
    exact (later placed j low high).trans (first.tags y c placed j low high)

theorem Frame.weaken (frame : Frame s s' l R) {R' : List (Nat × Nat)} (sub : R' ⊆ R) :
    Frame s s' l R' where
  __ := frame
  keeps := frame.keeps.subset <| append_subset.mpr
    ⟨subset_append_left _ R, fun _ mem => mem_append_right _ (sub mem)⟩

theorem Frame.of_mem_eq (bottom : s'.hBottom = s.hBottom) (arena : s'.tSize = s.tSize)
    (minChunk : s'.getMinChunkSize = s.getMinChunkSize) (mem : s'.mem = s.mem) :
    Frame s s' l R where
  bottom := bottom
  arena := arena
  minChunk := minChunk
  keeps := mem ▸ Keeps.refl
  tags _ _ _ j _ _ := congrFun mem j

/-- A change of the blocks `mid` and of the tag behind them. -/
theorem Frame.of_change (mid : List Block) (heap : Heap s (l ++ (mid ++ r)) bins)
    (hx : x = s.hBottom + span size l) {n : Nat} (sum : span size mid = n)
    (bottom : s'.hBottom = s.hBottom) (arena : s'.tSize = s.tSize)
    (minChunk : s'.getMinChunkSize = s.getMinChunkSize)
    (outside : ∀ i, i < x + 4 ∨ x + n + 8 ≤ i → s'.mem i = s.mem i) :
    Frame s s' l (usedAt (x + n) r) where
  bottom := bottom
  arena := arena
  minChunk := minChunk
  keeps := by
    subst sum
    rintro ⟨y, n⟩ used i low high
    obtain below | above := mem_append.mp used
    · have := bounds_of_mem_select below
      exact outside i (.inl (by omega))
    · have := bounds_of_mem_select above
      exact outside i (.inr (by omega))
  tags y c placed j low high := by
    have sized := heap.sized c (mem_append_left _ (mem_of_mem_place placed))
    have min := sized.ge
    have := bounds_of_mem_place placed
    exact outside j (.inl (by omega))

/-- A change behind the blocks `l`. -/
theorem Frame.of_top (mid : List Block) (heap : Heap s (l ++ mid) bins)
    (hx : x = s.hBottom + span size l) (bottom : s'.hBottom = s.hBottom)
    (arena : s'.tSize = s.tSize) (minChunk : s'.getMinChunkSize = s.getMinChunkSize)
    (outside : ∀ i, i < x + 4 → s'.mem i = s.mem i) : Frame s s' l [] where
  bottom := bottom
  arena := arena
  minChunk := minChunk
  keeps := by
    rintro ⟨y, n⟩ used i low high
    rw [append_nil] at used
    have := bounds_of_mem_select used
    exact outside i (by omega)
  tags y b placed j low high := by
    have placed' : (y, b) ∈ place size s.hBottom (l ++ mid) := by
      rw [place_append]
      exact mem_append_left _ placed
    have := heap.sized_of_place placed'
    have := bounds_of_mem_place placed
    exact outside j (by omega)

theorem LinksOnly.frame (only : LinksOnly s s' (l ++ rest)) (sized : ∀ b ∈ l ++ rest, Sized b.size)
    (hx : x = s.hBottom + span size l) : Frame s s' l (usedAt x rest) where
  __ := only
  keeps := by
    have := only.keeps sized
    rw [usedAt_append, ← hx] at this
    exact this
  tags y c placed := by
    refine only.tag sized (b := c) ?_
    rw [place_append]
    exact mem_append_left _ placed

end Frame

section ClearIfEmpty

theorem mem_clearIfEmpty : (s.clearIfEmpty i).mem = s.mem := by
  unfold clearIfEmpty
  split <;> rfl

theorem LinksOnly.clearIfEmpty (only : LinksOnly s s' bs) (i : Nat) :
    LinksOnly s (s'.clearIfEmpty i) bs := by
  unfold PtMalloc.clearIfEmpty
  split
  · exact { only with }
  · exact only

end ClearIfEmpty

/-- The start of the block behind a block. -/
theorem start_concat {a : Nat} (hx : x = a + span size l) :
    x + b.size = a + span size (l ++ [b]) := by
  simp only [span_append, span_cons, span_nil]
  omega

namespace Heap

/-- A block is found at its address. -/
theorem placed (_heap : Heap s (l ++ b :: r) bins) (hx : x = s.hBottom + span size l) :
    (x, b) ∈ place size s.hBottom (l ++ b :: r) :=
  mem_place_middle hx

theorem tag_of (heap : Heap s (l ++ b :: r) bins) (hx : x = s.hBottom + span size l) :
    Tag s.mem (lastOr none l) x b := by
  have tags := heap.tags
  rw [tagged_append, tagged_cons, ← hx] at tags
  exact tags.2.1

theorem sized_of (heap : Heap s (l ++ b :: r) bins) : Sized b.size :=
  heap.sized b (mem_append_right l mem_cons_self)

theorem top_concat (heap : Heap s (l ++ [b]) bins) (hx : x = s.hBottom + span size l) :
    x + b.size = s.hTop :=
  (start_concat hx).trans heap.top.symm

theorem shift (heap : Heap s (l ++ b :: r) bins) : Heap s ((l ++ [b]) ++ r) bins := by
  rw [append_assoc]
  exact heap

/-- Nothing has changed behind some blocks: not the tag there, and a clear bit in it is that of a
free block again. -/
theorem behind_same (heap : Heap s (l ++ r) bins) (hx : x = s.hBottom + span size l)
    {m : Nat → UInt8} (same : ∀ i, x + 4 ≤ i → i < x + 8 → m i = s.mem i) {before : Option Block}
    (below : ∀ q rest, r = q :: rest → q.prevInUse = false → ∃ p, before = some p ∧
      p.kind ≠ .live ∧ (p.kind = .binned → tPreSize m x = p.size)) :
    Behind m before x r r := by
  cases r with
  | nil =>
    refine .top ?_
    have top := heap.top
    rw [append_nil, ← hx] at top
    rw [tSize_congr same, ← top]
    exact heap.topTag
  | cons q rest =>
    refine .block rfl rfl ⟨fun typed => ?_, below q rest rfl⟩
    rw [chunkSize_congr same, prevInuse_congr same]
    exact (heap.tag_of hx).word typed

/-- A held block is joined with the used block above it. -/
theorem join (heap : Heap s (l ++ p :: q :: r) bins) (hx : x = s.hBottom + span size l)
    (held : p.kind = .held) (unbinned : q.kind ≠ .binned) (fits : p.size + q.size < 2 ^ 32) :
    let s' := (s.setSize x (p.size + q.size)).setPresize (x + (p.size + q.size)) (p.size + q.size)
    Heap s' (l ++ { p with size := p.size + q.size } :: r) bins ∧
      Frame s s' l (usedAt (x + (p.size + q.size)) r) := by
  intro s'
  have p_sized := heap.sized_of
  have tags := heap.tags
  rw [tagged_append, tagged_cons, ← hx] at tags
  obtain ⟨-, p_tag, -⟩ := tags
  have q_sized := heap.sized q (mem_append_right l (mem_cons_of_mem p mem_cons_self))
  have p_min := p_sized.ge
  have aligned : 8 ∣ p.size + q.size := Nat.dvd_add p_sized.aligned q_sized.aligned
  have outside : ∀ i, i < x + 4 ∨ x + (p.size + q.size) + 8 ≤ i → s'.mem i = s.mem i := by
    intro i hi
    rw [mem_setPresize (by omega), mem_setSize (by omega)]
  have above : ∀ i, x + (p.size + q.size) + 4 ≤ i → i < x + (p.size + q.size) + 8 →
      s'.mem i = s.mem i := by
    intro i low high
    rw [mem_setPresize (by omega), mem_setSize (by omega)]
  have word : ∀ i, x + 4 ≤ i → i < x + 8 → s'.mem i = (s.setSize x (p.size + q.size)).mem i := by
    intro i low high
    rw [mem_setPresize (by omega)]
  have span_eq : span size [p, q] = p.size + q.size := by simp
  refine ⟨?_, ?_⟩
  · refine heap.replace [p, q] [{ p with size := p.size + q.size }] ⟨rfl, rfl, rfl, rfl, rfl⟩ hx span_eq
      (by simp) ?_ ?_ ?_ outside ?_ ?_
    · simp [held, unbinned]
    · simp [held]
    · rw [forall_mem_singleton]
      exact ⟨Nat.le_add_right_of_le p_sized.min, aligned, fits⟩
    · rw [tagged_cons]
      refine ⟨⟨fun _ => ?_, fun clear => ?_⟩, tagged_nil⟩
      · rw [chunkSize_congr word, prevInuse_congr word, chunkSize_setSize aligned fits,
          prevInuse_setSize aligned fits]
        exact ⟨rfl, (p_tag.word (by simp [held])).2⟩
      · rw [tPreSize_congr fun i low high => outside i (.inl (by omega))]
        exact p_tag.below clear
    · refine heap.shift.shift.behind_same ?_ above fun _ _ _ _ => ⟨_, rfl, by simp [held], by simp [held]⟩
      rw [← Nat.add_assoc]
      exact start_concat (start_concat hx)
  · exact Frame.of_change [p, q] heap hx span_eq rfl rfl rfl outside

/-- A block in use passes from the caller to the running call, or back. -/
theorem handOver (heap : Heap s (l ++ b :: r) bins) (was : b.kind ≠ .binned ∧ b.kind ≠ .loose)
    {kind : Kind} (now : kind ≠ .binned)
    (inuse : kind = .live → ∀ q rest, r = q :: rest → q.prevInUse = true) :
    Heap s (l ++ { b with kind := kind } :: r) bins := by
  have tag := heap.tag_of rfl
  refine heap.replace [b] [{ b with kind := kind }] (Agree.refl s) rfl
    (show span size [b] = b.size by simp) (by simp) ?_ ?_ ?_ (fun _ _ => rfl) ?_ ?_
  · simpa using was.1
  · simpa using now
  · rw [forall_mem_singleton]
    exact heap.sized_of
  · rw [tagged_cons]
    exact ⟨⟨fun _ => tag.word was.2, tag.below⟩, tagged_nil⟩
  · refine heap.shift.behind_same (start_concat rfl) (fun _ _ _ => rfl) fun q rest eq clear => ?_
    refine ⟨_, rfl, fun live => ?_, fun binned => absurd binned now⟩
    rw [inuse live q rest eq] at clear
    exact absurd clear (by decide)

/-- A live block that is about to be freed. -/
theorem hold (heap : Heap s (l ++ b :: r) bins) (live : b.kind = .live) :
    Heap s (l ++ { b with kind := .held } :: r) bins :=
  heap.handOver (by simp [live]) (by simp) (by simp)

end Heap

/-- The `PREV_INUSE` bit behind a block: that of the next block, or of the top, where it is set. -/
def bitAbove : List Block → Bool
  | [] => true
  | q :: _ => q.prevInUse

/-- The free block below a block is joined to it, if its bit is clear and the sum is a chunk size.
`a` is the start of the heap. -/
inductive JoinsBelow (a : Nat) : List Block → Block → (Nat → List Nat) →
    List Block → Block → (Nat → List Nat) → Prop
  | join {l : List Block} {b p : Block} {bins : Nat → List Nat} (clear : b.prevInUse = false)
      (fits : canCombile b.size p.size = true) (binned : p.kind = .binned) :
      JoinsBelow a (l ++ [p]) b bins l ⟨p.size + b.size, p.prevInUse, .held⟩
        fun j => (bins j).erase (a + span Block.size l)
  | stay {l : List Block} {b : Block} {bins : Nat → List Nat}
      (apart : ∀ l₀ p, l = l₀ ++ [p] → b.prevInUse = false → canCombile b.size p.size = false) :
      JoinsBelow a l b bins l { b with kind := .held } bins

/-- The same for the block above. -/
inductive JoinsAbove (x n : Nat) : List Block → (Nat → List Nat) →
    Nat → List Block → (Nat → List Nat) → Prop
  | join {q : Block} {rest : List Block} {bins : Nat → List Nat} (clear : bitAbove rest = false)
      (fits : canCombile n q.size = true) (binned : q.kind = .binned) :
      JoinsAbove x n (q :: rest) bins (n + q.size) rest fun j => (bins j).erase (x + n)
  | stay {r : List Block} {bins : Nat → List Nat}
      (apart : ∀ q rest, r = q :: rest → bitAbove rest = false → canCombile n q.size = false) :
      JoinsAbove x n r bins n r bins

/-- The joined block becomes part of the top, or the first of its bin. -/
inductive Puts (x : Nat) (c : Block) : List Block → (Nat → List Nat) →
    List Block → (Nat → List Nat) → Prop
  | top {bins : Nat → List Nat} : Puts x c [] bins [] bins
  | bin {q : Block} {rest : List Block} {bins : Nat → List Nat} :
      Puts x c (q :: rest) bins ({ c with kind := .binned } :: { q with prevInUse := false } :: rest)
        (Function.update bins (binIndex c.size) (x :: bins (binIndex c.size)))

/-- Blocks as they are between two calls. -/
def Settled (bs : List Block) : Prop := ∀ b ∈ bs, b.kind = .live ∨ b.kind = .binned

section Free

theorem Settled.typed (settled : Settled r) (mem : b ∈ r) : b.kind ≠ .loose := by
  have := settled b mem
  grind

theorem settled_append : Settled (l ++ r) ↔ Settled l ∧ Settled r :=
  forall_mem_append

theorem settled_cons : Settled (b :: r) ↔ (b.kind = .live ∨ b.kind = .binned) ∧ Settled r :=
  forall_mem_cons

/-- The chunk joined with a free chunk below it. -/
theorem combinePrev_spec (heap : Heap s (l ++ b :: r) bins)
    (hx : x = s.hBottom + span size l) (live : b.kind = .live)
    (below : b.prevInUse = false → ∃ l₀ p, l = l₀ ++ [p] ∧ p.kind = .binned) :
    let t := s.combinePrev x b.size
    ∃ l' c bins', t.1 = s.hBottom + span size l' ∧ t.2.1 = c.size ∧ c.kind = .held ∧
      Heap t.2.2 (l' ++ c :: r) bins' ∧ usedAt s.hBottom l' = usedAt s.hBottom l ∧
      t.1 + c.size = x + b.size ∧ Frame s t.2.2 l' (usedAt (x + b.size) r) ∧ l' ⊆ l ∧
      JoinsBelow s.hBottom l b bins l' c bins' := by
  have tag := heap.tag_of hx
  have word := tag.word (by simp [live])
  unfold combinePrev
  by_cases combine : !prevInuse s.mem x ∧ canCombile b.size (tPreSize s.mem x)
  · rw [word.2, Bool.not_eq_true'] at combine
    obtain ⟨l₀, p, rfl, binned⟩ := below combine.1
    obtain ⟨p', eq, -, pre⟩ := tag.below combine.1
    rw [lastOr_concat] at eq
    obtain rfl := Option.some.inj eq
    rw [pre binned] at combine
    simp only [pre binned, word.2, combine.1, Bool.not_false, true_and, combine.2, if_true,
      Nat.add_comm b.size p.size]
    have fits := of_decide_eq_true combine.2
    rw [span_append, span_cons, span_nil, Nat.add_zero, ← Nat.add_assoc] at hx
    rw [append_assoc, singleton_append] at heap
    have hx₀ : x - p.size = s.hBottom + span size l₀ := by omega
    obtain ⟨heap₁, only₁⟩ := heap.unlink binned hx₀
    have only := only₁.clearIfEmpty (binIndex p.size)
    have heap₂ := heap₁.clearIfEmpty (binIndex p.size)
    have frame₁ := only.frame heap.sized hx₀
    unfold maxAllocSize at fits
    obtain ⟨heap₃, frame₂⟩ := heap₂.join (x := x - p.size) (by rw [only.bottom, hx₀]) rfl
      (by simp [live]) (by simp only; omega)
    refine ⟨l₀, ⟨p.size + b.size, p.prevInUse, .held⟩, _, hx₀, rfl, rfl, heap₃, ?_,
      by simp only; omega, ?_, subset_append_left l₀ [p], ?_⟩
    · rw [usedAt_append, usedAt_cons, if_pos binned, usedAt_nil, append_nil, append_nil]
    · have top : x + b.size = x - p.size + (p.size + b.size) := by omega
      rw [top]
      refine Frame.trans (frame₁.weaken ?_) frame₂
      rw [usedAt_cons, if_pos binned, nil_append, usedAt_cons, if_neg (by simp [live]),
        Nat.add_assoc]
      exact subset_append_right _ _
    · rw [hx₀]
      exact .join combine.1 combine.2 binned
  · rw [if_neg combine]
    refine ⟨l, { b with kind := .held }, bins, hx, rfl, rfl, heap.hold live, rfl, rfl, ?_,
      fun _ mem => mem, .stay fun l₀ p eq clear => ?_⟩
    · exact Frame.of_mem_eq rfl rfl rfl rfl
    · obtain ⟨l₁, p₁, eq₁, binned⟩ := below clear
      obtain ⟨p₂, last, -, pre⟩ := tag.below clear
      obtain ⟨-, rfl⟩ := append_inj' (eq.symm.trans eq₁) rfl |>.imp_right singleton_inj.mp
      rw [eq, lastOr_concat] at last
      obtain rfl := Option.some.inj last
      rw [word.2, clear, pre binned] at combine
      simpa using combine

section
variable (heap : Heap s (l ++ q :: rest) bins) (hx : x = s.hBottom + span size l)
  (settled : Settled rest)
include heap hx settled

/-- The bit in the arena behind a block. -/
theorem bit_above : prevInuse s.mem (x + q.size) = bitAbove rest := by
  cases rest with
  | nil =>
    rw [heap.top_concat hx, prevInuse, heap.topTag]
    rfl
  | cons q₂ rest =>
    have tag := heap.shift.tag_of (start_concat hx)
    exact (tag.word (settled.typed mem_cons_self)).2

/-- The `PREV_INUSE` bit behind a list of blocks: a clear bit has a block below that is
not in use. -/
theorem not_live_of_clear (clear : prevInuse s.mem (x + q.size) = false) : q.kind ≠ .live := by
  rw [bit_above heap hx settled] at clear
  cases rest with
  | nil => exact absurd clear (by decide)
  | cons q₂ rest =>
    obtain ⟨q', eq, notLive, -⟩ := (heap.shift.tag_of (start_concat hx)).below clear
    rw [lastOr_concat] at eq
    obtain rfl := Option.some.inj eq
    exact notLive

end

/-- The chunk joined with a free chunk above it. -/
theorem combineNext_spec (heap : Heap s (l ++ c :: r) bins) (hx : x = s.hBottom + span size l)
    (held : c.kind = .held) (settled : Settled r) :
    ∃ n s' r' bins', s.combineNext x c.size = .ok (n, s') ∧
      Heap s' (l ++ { c with size := n } :: r') bins' ∧
      usedAt (x + n) r' = usedAt (x + c.size) r ∧ Settled r' ∧
      Frame s s' l (usedAt (x + c.size) r) ∧ JoinsAbove x c.size r bins n r' bins' := by
  unfold combineNext
  cases r with
  | nil =>
    have top := heap.top_concat hx
    rw [if_neg (by omega)]
    exact ⟨c.size, s, [], bins, rfl, heap, rfl, settled, Frame.of_mem_eq rfl rfl rfl rfl,
      .stay fun q rest eq => absurd eq.symm (cons_ne_nil q rest)⟩
  | cons q rest =>
    have heap' := heap.shift
    have hx' := start_concat (b := c) hx
    have q_min := heap'.sized_of.min
    have word := (heap'.tag_of hx').word (settled.typed mem_cons_self)
    have top := heap.top
    simp only [span_append, span_cons] at top
    rw [if_pos (by unfold minSize at q_min; omega)]
    simp only [word.1]
    rw [if_neg (by omega)]
    have above : prevInuse s.mem (x + c.size + q.size) = bitAbove rest :=
      bit_above heap' hx' fun b hb => settled b (mem_cons_of_mem q hb)
    by_cases combine : !prevInuse s.mem (x + c.size + q.size) ∧ canCombile c.size q.size
    · have binned : q.kind = .binned := by
        have notLive := not_live_of_clear heap' hx' (fun b hb => settled b
          (mem_cons_of_mem q hb)) (Bool.not_eq_true' _ ▸ combine.1)
        exact (settled q mem_cons_self).resolve_left notLive
      have fits := of_decide_eq_true combine.2
      unfold maxAllocSize at fits
      rw [if_pos combine]
      obtain ⟨heap₁, only₁⟩ := heap'.unlink binned hx'
      have only := only₁.clearIfEmpty (binIndex q.size)
      have heap₂ := heap₁.clearIfEmpty (binIndex q.size)
      rw [append_assoc, singleton_append] at heap₂ only
      have frame₁ := only.frame heap.sized hx
      generalize ((s.unlinkBin (binIndex q.size) (x + c.size)).2.clearIfEmpty (binIndex q.size)) =
        s₂ at only heap₂ frame₁ ⊢
      obtain ⟨heap₃, frame₂⟩ := heap₂.join (x := x) (by rw [only.bottom, hx]) held
        (by simp) (by simp only; omega)
      refine ⟨c.size + q.size, _, rest, _, rfl, heap₃, ?_, fun b hb => settled b
        (mem_cons_of_mem q hb), ?_, .join (above ▸ Bool.not_eq_true' _ ▸ combine.1) combine.2 binned⟩
      · rw [usedAt_cons, if_pos binned, nil_append, Nat.add_assoc]
      · rw [usedAt_cons, if_pos binned, nil_append, Nat.add_assoc]
        refine Frame.trans (frame₁.weaken ?_) frame₂
        rw [usedAt_cons, if_neg (by simp [held]), usedAt_cons, if_pos binned, nil_append,
          Nat.add_assoc]
        exact subset_append_right _ _
    · rw [if_neg combine]
      refine ⟨c.size, s, q :: rest, bins, rfl, heap, rfl, settled,
        Frame.of_mem_eq rfl rfl rfl rfl, .stay ?_⟩
      rintro q' rest' ⟨⟩ clear
      rw [above, clear] at combine
      simpa using combine

/-- What `inter_free` leaves of the block `c` at `x` and the blocks `r` behind it. -/
structure Released (s s' : PtMalloc) (l : List Block) (x : Nat) (c : Block) (r r' : List Block)
    (bins : Nat → List Nat) : Prop where
  heap : Heap s' (l ++ r') bins
  settled : Settled r'
  first : ∀ q rest, r' = q :: rest → q.prevInUse = c.prevInUse
  used : usedAt x r' = usedAt (x + c.size) r
  frame : Frame s s' l (usedAt (x + c.size) r)

theorem mem_tagFree {n i : Nat} (outside : i < x + 4 ∨ x + n + 8 ≤ i) (min : 8 ≤ n) :
    (s.tagFree x n).mem i = s.mem i := by
  refine (mem_setInuseBit ?_).trans ((mem_setPresize ?_).trans (mem_setSize ?_)) <;> omega

/-- The last chunk becomes part of the top. -/
theorem mergeTop_spec (heap : Heap s (l ++ [c]) bins) (hx : x = s.hBottom + span size l)
    (held : c.kind = .held) :
    Heap ((s.tagFree x c.size).mergeTop x c.size) l bins ∧
      Frame s ((s.tagFree x c.size).mergeTop x c.size) l [] := by
  have min := heap.sized_of.ge
  have top := heap.top_concat hx
  have room := heap.room
  have outside : ∀ i, i < x + 4 → ((s.tagFree x c.size).mergeTop x c.size).mem i = s.mem i := by
    intro i hi
    exact (mem_setTSize (.inl hi)).trans (mem_tagFree (.inl hi) (by omega))
  have newTop : ((s.tagFree x c.size).mergeTop x c.size).hTop = x := by
    change s.hTop - c.size = x
    omega
  refine ⟨?_, ?_⟩
  · have heap' : Heap ((s.tagFree x c.size).mergeTop x c.size) (l ++ []) bins :=
      heap.retop [c] [] rfl rfl rfl rfl hx (by simp [held]) (by simp) (by simp) outside
        tagged_nil (by rw [newTop, span_nil, Nat.add_zero]) (by rw [newTop]; unfold minSize; omega)
        (by rw [newTop]; exact tSize_setTSize (by decide))
    rw [append_nil] at heap'
    exact heap'
  · exact Frame.of_top [c] heap hx rfl rfl rfl outside

/-- The tags of a block that goes into a bin. -/
theorem tagFree_spec (heap : Heap s (l ++ c :: q :: rest) bins)
    (hx : x = s.hBottom + span size l) (held : c.kind = .held) (typed : q.kind ≠ .loose) :
    let s' := (s.tagFree x c.size).clearInuseBit (x + c.size)
    Heap s' (l ++ c :: { q with prevInUse := false } :: rest) bins ∧
      tPreSize s'.mem (x + c.size) = c.size ∧ Frame s s' l (usedAt (x + c.size) (q :: rest)) := by
  intro s'
  have sized := heap.sized_of
  have min := sized.ge
  have tag := heap.tag_of hx
  have q_tag := heap.shift.tag_of (start_concat hx)
  have span_eq : span size [c] = c.size := by simp
  have outside : ∀ i, i < x + 4 ∨ x + c.size + 8 ≤ i → s'.mem i = s.mem i := by
    intro i hi
    exact (mem_clearInuseBit (by omega)).trans (mem_tagFree hi (by omega))
  have word : ∀ i, x + 4 ≤ i → i < x + 8 → s'.mem i = (s.setSize x c.size).mem i := by
    intro i low high
    refine (mem_clearInuseBit ?_).trans ((mem_setInuseBit ?_).trans (mem_setPresize ?_)) <;> omega
  have footer : ∀ i, x + c.size ≤ i → i < x + c.size + 4 →
      s'.mem i = ((s.setSize x c.size).setPresize (x + c.size) c.size).mem i := by
    intro i low high
    refine (mem_clearInuseBit ?_).trans (mem_setInuseBit ?_) <;> omega
  have above : chunkSize s'.mem (x + c.size) = chunkSize s.mem (x + c.size) := by
    refine chunkSize_clearInuseBit.trans (chunkSize_setInuseBit.trans (chunkSize_congr ?_))
    intro i low high
    refine (mem_setPresize ?_).trans (mem_setSize ?_) <;> omega
  refine ⟨?_, ?_, ?_⟩
  · refine heap.replace [c] [c] ⟨rfl, rfl, rfl, rfl, rfl⟩ hx span_eq span_eq ?_ ?_ ?_ outside ?_ ?_
    · simp [held]
    · simp [held]
    · rw [forall_mem_singleton]
      exact sized
    · rw [tagged_cons]
      refine ⟨⟨fun _ => ?_, fun clear => ?_⟩, tagged_nil⟩
      · rw [chunkSize_congr word, prevInuse_congr word, chunkSize_setSize sized.aligned sized.fits,
          prevInuse_setSize sized.aligned sized.fits]
        exact ⟨rfl, (tag.word (by simp [held])).2⟩
      · rw [tPreSize_congr fun i low high => outside i (.inl (by omega))]
        exact tag.below clear
    · refine .block rfl rfl ⟨fun _ => ?_, fun _ => ⟨c, rfl, by simp [held], by simp [held]⟩⟩
      exact ⟨above.trans (q_tag.word typed).1, prevInuse_clearInuseBit⟩
  · rw [tPreSize_congr footer, tPreSize_setPresize sized.aligned sized.fits]
  · exact Frame.of_change [c] heap hx span_eq rfl rfl rfl outside

section
variable (heap : Heap s (l ++ c :: r) bins) (hx : x = s.hBottom + span size l)
  (held : c.kind = .held) (settled : Settled r)
include heap hx held settled

/-- The joined chunk goes back. -/
theorem putChunk_spec :
    ∃ r' bins', Released s (s.putChunk x c.size) l x c r r' bins' ∧ Puts x c r bins r' bins' := by
  unfold putChunk
  cases r with
  | nil =>
    obtain ⟨heap', frame⟩ := mergeTop_spec heap hx held
    have atTop : x + c.size = (s.tagFree x c.size).hTop := heap.top_concat hx
    refine ⟨[], bins, ?_, .top⟩
    simp only [if_pos atTop]
    refine ⟨?_, fun _ mem => absurd mem not_mem_nil, fun _ _ eq => absurd eq (by simp), rfl, frame⟩
    rw [append_nil]
    exact heap'
  | cons q rest =>
    have q_min := heap.shift.sized_of.ge
    have top := heap.top
    simp only [span_append, span_cons] at top
    have notTop : ¬x + c.size = (s.tagFree x c.size).hTop := by
      change ¬x + c.size = s.hTop
      omega
    obtain ⟨heap₁, footer, frame₁⟩ := tagFree_spec heap hx held (settled.typed mem_cons_self)
    simp only [if_neg notTop]
    unfold putBin
    generalize (s.tagFree x c.size).clearInuseBit (x + c.size) = s₁ at heap₁ footer frame₁ ⊢
    have hx₁ : x = s₁.hBottom + span size l := by rw [frame₁.bottom, hx]
    obtain ⟨heap₂, only⟩ := heap₁.link held hx₁ footer
    have used : usedAt x ({ c with kind := .binned } :: { q with prevInUse := false } :: rest) =
        usedAt (x + c.size) (q :: rest) := by
      rw [usedAt_cons, if_pos rfl, nil_append, usedAt_cons, usedAt_cons]
    refine ⟨{ c with kind := .binned } :: { q with prevInUse := false } :: rest, _,
      ⟨heap₂, ?_, ?_, used, frame₁.trans ?_⟩, .bin⟩
    · intro b mem
      rw [mem_cons, mem_cons] at mem
      obtain rfl | rfl | mem := mem
      · exact .inr rfl
      · exact settled q mem_cons_self
      · exact settled b (mem_cons_of_mem q mem)
    · rintro q' rest' ⟨⟩
      rfl
    · rw [← used]
      exact only.frame heap₂.sized hx₁

/-- The part of `inter_free` from the chunk above on. -/
theorem release_spec :
    ∃ n s₁ r₁ bins₁ r' bins', s.combineNext x c.size = .ok (n, s₁) ∧
      Released s (s₁.putChunk x n) l x c r r' bins' ∧ JoinsAbove x c.size r bins n r₁ bins₁ ∧
      Puts x { c with size := n } r₁ bins₁ r' bins' := by
  obtain ⟨n, s₁, r₁, bins₁, combined, heap₁, used₁, settled₁, frame₁, joins⟩ :=
    combineNext_spec heap hx held settled
  have hx₁ : x = s₁.hBottom + span size l := by rw [frame₁.bottom, hx]
  obtain ⟨r', bins', released, puts⟩ := putChunk_spec heap₁ hx₁ held settled₁
  refine ⟨n, s₁, r₁, bins₁, r', bins', combined,
    ⟨released.heap, released.settled, released.first, ?_, ?_⟩, joins, puts⟩
  · rw [released.used, ← used₁]
  · refine frame₁.trans ?_
    rw [← used₁]
    exact released.frame

end

theorem Heap.start_aligned {bs : List Block} {a : Nat} (heap : Heap s bs bins)
    (placed : (a, b) ∈ place size s.hBottom bs) : a % 8 = 0 := by
  obtain ⟨l, r, rfl, rfl⟩ := split_of_mem_place placed
  have sized := heap.sized
  rw [forall_mem_append] at sized
  have dvd : 8 ∣ span size l := dvd_span fun c hc => (sized.1 c hc).aligned
  have := heap.aligned
  omega

section
variable (heap : Heap s (l ++ b :: r) bins) (hx : x = s.hBottom + span Block.size l)
  (live : b.kind = .live)

include heap hx live

section
variable (below : b.prevInUse = false → ∃ l₀ p, l = l₀ ++ [p] ∧ p.kind = .binned)
  (settled : Settled r)

include below settled

/-- A live chunk passes the checks. -/
theorem checkInuseChunk_live :
    prevInuse s.mem (x + b.size) = true ∧ s.checkInuseChunk x = (0, s) := by
  have tag := heap.tag_of hx
  have word := tag.word (by simp [live])
  have inuse : prevInuse s.mem (x + b.size) = true := by
    by_contra clear
    exact not_live_of_clear heap hx settled (Bool.eq_false_iff.mpr clear) live
  refine ⟨inuse, ?_⟩
  unfold checkInuseChunk
  rw [word.1, inuse, if_neg (by decide), if_neg, if_neg]
  · rintro ⟨notTop, small⟩
    cases r with
    | nil => exact notTop (heap.top_concat hx)
    | cons q rest =>
      have tag := heap.shift.tag_of (start_concat hx)
      rw [(tag.word (settled.typed mem_cons_self)).1] at small
      have := heap.shift.sized_of.min
      omega
  · rintro ⟨clear, bad⟩
    rw [word.2, Bool.not_eq_true'] at clear
    obtain ⟨l₀, p, rfl, binned⟩ := below clear
    obtain ⟨p', eq, -, pre⟩ := tag.below clear
    rw [lastOr_concat] at eq
    obtain rfl := Option.some.inj eq
    rw [span_append, span_cons, span_nil, Nat.add_zero, ← Nat.add_assoc] at hx
    rw [append_assoc, singleton_append] at heap
    have hx₀ : x - p.size = s.hBottom + span size l₀ := by omega
    rw [pre binned, ((heap.tag_of hx₀).word (by simp [binned])).1] at bad
    omega

/-- A live chunk is released. -/
theorem interFree_eq :
    s.interFree (x + 8) = ((s.releaseChunk x b.size).1, b.size, (s.releaseChunk x b.size).2) := by
  have word := (heap.tag_of hx).word (by simp [live])
  obtain ⟨inuse, checked⟩ := checkInuseChunk_live heap hx live below settled
  have placed := heap.placed hx
  have bounds := bounds_of_mem_place placed
  have aligned := heap.start_aligned placed
  have room := heap.room
  have top := heap.top
  unfold minSize at room
  unfold interFree
  rw [if_neg (by unfold invalidHandle; omega), if_neg (by omega)]
  simp only [Nat.add_sub_cancel, word.1]
  rw [if_neg (by omega), if_neg (by simp [inuse]), if_neg (by simp [aligned])]
  simp only [checked]
  rw [if_neg (by simp)]

/-- `inter_free` of a live chunk. -/
theorem interFree_spec :
    ∃ l' y c r' bins', (s.interFree (x + 8)).1 = 0 ∧ (s.interFree (x + 8)).2.1 = b.size ∧
      y = s.hBottom + span size l' ∧ y + c.size = x + b.size ∧ l' ⊆ l ∧
      usedAt s.hBottom l' = usedAt s.hBottom l ∧
      Released s (s.interFree (x + 8)).2.2 l' y c r r' bins' ∧
      ∃ bins₁ n r₁ bins₂, JoinsBelow s.hBottom l b bins l' c bins₁ ∧
        JoinsAbove y c.size r bins₁ n r₁ bins₂ ∧ Puts y { c with size := n } r₁ bins₂ r' bins' := by
  rw [interFree_eq heap hx live below settled]
  obtain ⟨l', c, bins₁, start, size, held, heap₁, used, finish, frame, sub, below⟩ :=
    combinePrev_spec heap hx live below
  unfold releaseChunk
  generalize s.combinePrev x b.size = t at start size heap₁ finish frame ⊢
  obtain ⟨y, n, s₁⟩ := t
  simp only at start size heap₁ finish frame
  obtain ⟨total, s₂, r₁, bins₂, r', bins', combined, released, above, puts⟩ :=
    release_spec heap₁ (x := y) (by rw [frame.bottom, start]) held settled
  simp only [size, combined]
  refine ⟨l', y, c, r', bins', trivial, trivial, start, finish, sub, used, { released with
    frame := Frame.trans ?_ released.frame }, bins₁, total, r₁, bins₂, below, above, puts⟩
  rw [finish]
  exact frame

end

/-- `inter_free` of a live chunk with a used chunk below: the blocks below stay. -/
theorem interFree_inuse (inuse : b.prevInUse = true) (settled : Settled r) :
    ∃ r' bins', (s.interFree (x + 8)).1 = 0 ∧
      Released s (s.interFree (x + 8)).2.2 l x b r r' bins' ∧
      ∃ n r₁ bins₁, JoinsAbove x b.size r bins n r₁ bins₁ ∧
        Puts x ⟨n, true, .held⟩ r₁ bins₁ r' bins' := by
  rw [interFree_eq heap hx live (by simp [inuse]) settled]
  have word := (heap.tag_of hx).word (by simp [live])
  obtain ⟨total, s₂, r₁, bins₁, r', bins', combined, released, above, puts⟩ :=
    release_spec (heap.hold live) hx rfl settled
  have stays : s.combinePrev x b.size = (x, b.size, s) := by
    unfold PtMalloc.combinePrev
    rw [if_neg (by simp [word.2, inuse])]
  unfold PtMalloc.releaseChunk
  simp only [stays, combined]
  exact ⟨r', bins', trivial, { released with }, total, r₁, bins₁, above, inuse ▸ puts⟩

end

end Free

end Dtc.Mem
