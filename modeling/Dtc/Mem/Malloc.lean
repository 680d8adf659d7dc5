import Dtc.Mem.Free

/-!
# Malloc

`inter_malloc` takes a block out of a bin, cuts off and frees what is not needed, or
carves a block from the top. Whichever way, the blocks in use before stay in use with
their bytes, and one live block of at least the padded size is added (`Allocated`).
-/

namespace Dtc.Mem

open Library Tiling List PtMalloc Block

/-- The `PREV_INUSE` bit of the first block is set. -/
def mark : List Block → List Block
  | [] => []
  | q :: rest => { q with prevInUse := true } :: rest

section Mark
variable {r : List Block} {a : Nat}

theorem usedAt_mark : usedAt a (mark r) = usedAt a r := by
  cases r with
  | nil => rfl
  | cons q rest => rw [mark, usedAt_cons, usedAt_cons]

theorem settled_mark (settled : Settled r) : Settled (mark r) := by
  cases r with
  | nil => exact settled
  | cons q rest =>
    unfold Settled mark at *
    rw [forall_mem_cons] at settled ⊢
    exact settled

theorem mark_inuse (q : Block) (rest : List Block) (eq : mark r = q :: rest) :
    q.prevInUse = true := by
  cases r with
  | nil => exact absurd eq (by simp [mark])
  | cons q' rest' =>
    obtain ⟨rfl, -⟩ := cons.inj eq
    rfl

end Mark

variable {s : PtMalloc} {bs l r : List Block} {bins : Nat → List Nat} {x n i : Nat} {b : Block}

namespace Heap
variable {m : Nat → UInt8}

section
variable (heap : Heap s (l ++ r) bins) (hx : x = s.hBottom + span size l) (settled : Settled r)
include heap hx settled

/-- The word behind a list of blocks with its bit set. -/
theorem behind_mark (word : tSize m x = tSize s.mem x ||| 1) (before : Option Block) :
    Behind m before x r (mark r) := by
  cases r with
  | nil =>
    refine .top ?_
    have top := heap.top
    rw [append_nil, ← hx] at top
    rw [word, ← top, heap.topTag]
    rfl
  | cons q rest =>
    have old := (heap.tag_of hx).word (settled.typed mem_cons_self)
    refine .block rfl rfl ⟨fun _ => ⟨?_, ?_⟩, fun clear => absurd clear (by simp)⟩
    · rw [chunkSize, word, realSize_or_one]
      exact old.1
    · rw [prevInuse, word, or_one, beq_iff_eq]
      omega

/-- The bit behind a list of blocks is set. -/
theorem markNext : Heap (s.setInuseBit x) (l ++ mark r) bins := by
  exact heap.replace [] [] ⟨rfl, rfl, rfl, rfl, rfl⟩ hx span_nil span_nil (by simp) (by simp)
    (by simp) (fun i hi => mem_setInuseBit (by omega)) tagged_nil (heap.behind_mark hx settled tSize_setInuseBit _)

end

/-- A held block is handed out. -/
theorem handOut (heap : Heap s (l ++ b :: r) bins) (held : b.kind = .held)
    (inuse : ∀ q rest, r = q :: rest → q.prevInUse = true) :
    Heap s (l ++ { b with kind := .live } :: r) bins := by
  exact heap.handOver (by simp [held]) (by simp) fun _ => inuse

/-- The tags of a new block at the top, and of the top above it. -/
def topTags (s : PtMalloc) (n : Nat) : PtMalloc :=
  ((s.setTSize s.hTop (n + 1)).setTPreSize (s.hTop + n) (realSize n)).setTSize (s.hTop + n) 1

/-- A block at the top of the heap. -/
theorem topAlloc_spec (heap : Heap s bs bins) (sized : Sized n)
    (fits : s.hTop + n + minSize < s.tSize) :
    (s.topAlloc n).1 = s.hTop + 8 ∧ Heap (s.topAlloc n).2 (bs ++ [⟨n, true, .live⟩]) bins ∧
      Frame s (s.topAlloc n).2 bs [] ∧
      ∀ i, s.hTop + 8 ≤ i → i < s.hTop + n → (s.topAlloc n).2.mem i = s.mem i := by
  have min := sized.ge
  have word : tSize s.mem s.hTop % 8 ||| realSize n = n + 1 := by
    rw [heap.topTag, realSize_of_dvd sized.aligned, Nat.or_comm, or_bits sized.aligned (by decide)]
  have eq : s.topAlloc n = (s.hTop + 8, { topTags s n with hTop := s.hTop + n }) := by
    rw [topTags, ← word]
    exact if_neg (by omega)
  rw [eq]
  have same : ∀ i, i < s.hTop + 4 ∨ s.hTop + 8 ≤ i ∧ i < s.hTop + n →
      (topTags s n).mem i = s.mem i := by
    intro i hi
    rw [topTags, mem_setTSize (by omega), mem_setTPreSize (by omega), mem_setTSize (by omega)]
  have newWord : tSize (topTags s n).mem s.hTop = n + 1 := by
    have same : ∀ i, s.hTop + 4 ≤ i → i < s.hTop + 8 →
        (topTags s n).mem i = (s.setTSize s.hTop (n + 1)).mem i := by
      intro i low high
      rw [topTags, mem_setTSize (by omega), mem_setTPreSize (by omega)]
    rw [tSize_congr same, tSize_setTSize]
    have := sized.fits
    have := sized.aligned
    omega
  have heap' : Heap s (bs ++ []) bins := by
    rw [append_nil]
    exact heap
  have outside : ∀ i, i < s.hTop + 4 → (topTags s n).mem i = s.mem i := fun i hi => same i (.inl hi)
  refine ⟨rfl, ?_, Frame.of_top [] heap' heap.top rfl rfl rfl outside,
    fun i low high => same i (.inr ⟨low, high⟩)⟩
  refine heap'.retop [] [⟨n, true, .live⟩] rfl rfl rfl rfl heap.top (by simp) (by simp)
    (by simpa using sized) outside ?_ (by simp) (by simp only; omega) (tSize_setTSize (by decide))
  rw [tagged_cons]
  refine ⟨⟨fun _ => ?_, fun clear => absurd clear (by simp)⟩, tagged_nil⟩
  have aligned := sized.aligned
  refine ⟨(congrArg realSize newWord).trans ?_, (congrArg (· % 2 == 1) newWord).trans ?_⟩
  · simp only [realSize]
    omega
  · simp only [beq_iff_eq]
    omega

/-- A held block is cut in two; both parts are live, the bit behind them is set. -/
theorem cut (heap : Heap s (l ++ b :: r) bins) (hx : x = s.hBottom + span size l)
    (held : b.kind = .held) (settled : Settled r) (sized : Sized n) {rem : Nat} (rest : Sized rem)
    (sum : b.size = n + rem) :
    let s' := (((((s.setTSize x (n ||| tSize s.mem x % 8)).setTSize (x + n) rem).setTPreSize (x + n)
      n).setInuseBit (x + n)).setTPreSize (x + n + rem) rem).setInuseBit (x + n + rem)
    Heap s' (l ++ ⟨n, b.prevInUse, .live⟩ :: ⟨rem, true, .live⟩ :: mark r) bins ∧
      Frame s s' l (usedAt (x + b.size) r) ∧ ∀ i, x + 8 ≤ i → i < x + n → s'.mem i = s.mem i := by
  intro s'
  have n_min := sized.ge
  have rem_min := rest.ge
  have tag := heap.tag_of hx
  have old := tag.word (by simp [held])
  have span_eq : span size [b] = n + rem := by simp [sum]
  have same : ∀ i, (i < x + 4 ∨ x + (n + rem) + 8 ≤ i) ∨ x + 8 ≤ i ∧ i < x + n →
      s'.mem i = s.mem i := by
    intro i hi
    refine (mem_setInuseBit ?_).trans ((mem_setTPreSize ?_).trans ((mem_setInuseBit ?_).trans
      ((mem_setTPreSize ?_).trans ((mem_setTSize ?_).trans (mem_setTSize ?_))))) <;> omega
  have outside := fun i hi => same i (.inl hi)
  have word : tSize s'.mem x = n ||| tSize s.mem x % 8 := by
    refine (tSize_congr fun i low high => ?_).trans (tSize_setTSize (s := s) ?_)
    · refine (mem_setInuseBit ?_).trans ((mem_setTPreSize ?_).trans ((mem_setInuseBit ?_).trans
        ((mem_setTPreSize ?_).trans (mem_setTSize ?_)))) <;> omega
    · rw [or_bits sized.aligned (Nat.mod_lt _ (by decide))]
      have := sized.aligned
      have := sized.fits
      omega
  have restWord : tSize s'.mem (x + n) = rem ||| 1 := by
    let a := (s.setTSize x (n ||| tSize s.mem x % 8)).setTSize (x + n) rem
    have last : ∀ i, x + n + 4 ≤ i → i < x + n + 8 →
        s'.mem i = ((a.setTPreSize (x + n) n).setInuseBit (x + n)).mem i := by
      intro i low high
      refine (mem_setInuseBit ?_).trans (mem_setTPreSize ?_) <;> omega
    have first : ∀ i, x + n + 4 ≤ i → i < x + n + 8 →
        (a.setTPreSize (x + n) n).mem i = a.mem i := fun i low high => mem_setTPreSize (by omega)
    rw [tSize_congr last, tSize_setInuseBit, tSize_congr first, tSize_setTSize rest.fits]
  have nextWord : tSize s'.mem (x + (n + rem)) = tSize s.mem (x + (n + rem)) ||| 1 := by
    rw [← Nat.add_assoc]
    refine tSize_setInuseBit.trans (congrArg (· ||| 1) (tSize_congr fun i low high => ?_))
    refine (mem_setTPreSize ?_).trans ((mem_setInuseBit ?_).trans
      ((mem_setTPreSize ?_).trans ((mem_setTSize ?_).trans (mem_setTSize ?_)))) <;> omega
  refine ⟨?_, ?_, ?_⟩
  · refine heap.replace [b] [⟨n, b.prevInUse, .live⟩, ⟨rem, true, .live⟩] ⟨rfl, rfl, rfl, rfl, rfl⟩
      hx span_eq (by simp) ?_ ?_ ?_ outside ?_ ?_
    · simp [held]
    · simp
    · simpa using ⟨sized, rest⟩
    · rw [tagged_cons, tagged_cons]
      refine ⟨⟨fun _ => ?_, fun clear => ?_⟩, ⟨fun _ => ?_, fun clear => absurd clear (by simp)⟩,
        tagged_nil⟩
      · have bits := Nat.mod_lt (tSize s.mem x) (show 0 < 8 by decide)
        rw [chunkSize, prevInuse, word, realSize_or_bits sized.aligned bits,
          or_bits_mod sized.aligned bits, Nat.mod_mod_of_dvd _ (by decide)]
        exact ⟨rfl, old.2⟩
      · rw [tPreSize_congr fun i low high => outside i (.inl (by omega))]
        exact tag.below clear
      · rw [chunkSize, prevInuse, restWord, realSize_or_one, realSize_of_dvd rest.aligned, or_one]
        refine ⟨rfl, ?_⟩
        rw [beq_iff_eq]
        omega
    · exact heap.shift.behind_mark (sum ▸ start_concat hx) settled nextWord _
  · exact Frame.of_change [b] heap hx (by simp) rfl rfl rfl (sum ▸ outside)
  · exact fun i low high => same i (.inr ⟨low, high⟩)

end Heap

theorem Frame.below {s s' : PtMalloc} {l l₂ : List Block} {R : List (Nat × Nat)}
    (frame : Frame s s' (l ++ l₂) R) : Frame s s' l R where
  __ := frame
  keeps := by
    refine frame.keeps.subset ?_
    rw [usedAt_append, append_assoc]
    exact append_subset.mpr ⟨subset_append_left _ _, fun e mem =>
      mem_append_right _ (mem_append_right _ mem)⟩
  tags y c placed := frame.tags y c (by rw [place_append]; exact mem_append_left _ placed)

/-- Besides the used blocks `U` there is the live block `c` of at least `n` bytes, with
handle `h`. -/
structure Serves (s s' : PtMalloc) (U : List (Nat × Nat)) (h n : Nat) (l : List Block) (c : Block)
    (r : List Block) (bins : Nat → List Nat) : Prop where
  heap : Heap s' (l ++ c :: r) bins
  settled : Settled (l ++ c :: r)
  live : c.kind = .live
  le : n ≤ c.size
  handle : h = s.hBottom + span Block.size l + 8
  used : U = usedAt s.hBottom l ++ usedAt (s.hBottom + span Block.size l + c.size) r
  frame : Frame s s' [] U
  /-- the first bytes of the chunk are as they were -/
  head : ∀ i, h ≤ i → i < h + 16 → s'.mem i = s.mem i

/-- What becomes of the blocks `r` behind a block that was handed out: the bit of the first one is
set, or the `m` bytes that were left are freed in front of it. -/
inductive Leaves (m : Nat) (r : List Block) : List Block → Prop
  | none : Leaves m r (mark r)
  | rest {y n : Nat} {r₁ r' : List Block} {bins bins₁ bins' : Nat → List Nat}
      (above : JoinsAbove y m (mark r) bins n r₁ bins₁)
      (puts : Puts y ⟨n, true, .held⟩ r₁ bins₁ r' bins') : Leaves m r r'

/-- The block of at least `n` bytes that is handed out, from a bin or from the top, between the
blocks below and above it. -/
inductive Serving (n : Nat) : List Block → List Block → Block → List Block → Prop
  | bin {l r r' : List Block} {b : Block} {k m : Nat} (binned : b.kind = .binned)
      (le : m + n ≤ b.size) (leaves : Leaves m r r') :
      Serving n (l ++ b :: r) l ⟨k, b.prevInUse, .live⟩ r'
  | top {bs : List Block} : Serving n bs bs ⟨n, true, .live⟩ []

/-- To the blocks `bs` a live block is added. -/
def Allocated (s s' : PtMalloc) (bs : List Block) (h n : Nat) : Prop :=
  ∃ l c r bins, Serves s s' (usedAt s.hBottom bs) h n l c r bins ∧ Serving n bs l c r

section Malloc

/-- A frame around a block in the middle of the list. -/
theorem Frame.around {s s' : PtMalloc} {U R : List (Nat × Nat)} (frame : Frame s s' l R)
    (eq : U = usedAt s.hBottom l ++ R) : Frame s s' [] U where
  __ := frame
  keeps := by
    rw [eq]
    exact frame.keeps
  tags _ _ mem := absurd mem not_mem_nil

/-- A block of a bin is handed out, and the rest of it freed. -/
theorem carveChunk_spec (heap : Heap s (l ++ b :: r) bins) (settled : Settled (l ++ b :: r))
    (binned : b.kind = .binned) (hx : x = s.hBottom + span size l) (sized : Sized n)
    (le : n ≤ b.size) (min : minSize ≤ s.getMinChunkSize) :
    Allocated s (s.carveChunk (binIndex b.size) x n) (l ++ b :: r) (x + 8) n := by
  rw [settled_append, settled_cons] at settled
  obtain ⟨l_settled, -, r_settled⟩ := settled
  have b_sized := heap.sized_of
  have n_min : 24 ≤ n := sized.min
  have used : usedAt s.hBottom (l ++ b :: r) = usedAt s.hBottom l ++ usedAt (x + b.size) r := by
    rw [usedAt_append, usedAt_cons, if_pos binned, nil_append, ← hx]
  have word := (heap.tag_of hx).word (by simp [binned])
  unfold carveChunk
  rw [word.1]
  obtain ⟨heap₁, only₁⟩ := heap.unlink binned hx
  have only := only₁.clearIfEmpty (binIndex b.size)
  have heap₂ := heap₁.clearIfEmpty (binIndex b.size)
  have frame₁ := only.frame heap.sized hx
  rw [usedAt_cons, if_pos binned, nil_append] at frame₁
  have own : ∀ i, x ≤ i → i < x + 24 → ((s.unlinkBin (binIndex b.size) x).2.clearIfEmpty
      (binIndex b.size)).mem i = s.mem i := fun i low high => by
    rw [mem_clearIfEmpty]
    exact heap.unlink_own (heap.mem_bin binned hx) low high
  generalize (s.unlinkBin (binIndex b.size) x).2.clearIfEmpty (binIndex b.size) = s₁
    at only heap₂ frame₁ own ⊢
  have hx₁ : x = s₁.hBottom + span size l := by rw [only.bottom, hx]
  have word₁ := (heap₂.tag_of hx₁).word (by simp)
  have heap₃ := heap₂.shift
  have next := start_concat (b := { b with kind := .held }) hx₁
  by_cases small : b.size - n < s₁.getMinChunkSize
  · simp only [if_pos small, word₁.1]
    have heap₄ := heap₃.markNext next r_settled
    rw [append_assoc, singleton_append] at heap₄
    have heap₅ := heap₄.handOut rfl mark_inuse
    refine ⟨l, { b with kind := .live }, mark r, _, ⟨heap₅, ?_, rfl, le, by rw [← hx], ?_, ?_, ?_⟩,
      .bin binned (show 0 + n ≤ b.size by omega) .none⟩
    · rw [settled_append, settled_cons]
      exact ⟨l_settled, .inl rfl, settled_mark r_settled⟩
    · rw [used, usedAt_mark, ← hx]
    · refine (frame₁.trans ?_).around used
      exact Frame.of_change [{ b with kind := .held }] heap₂ hx₁ (by simp) rfl rfl rfl fun i hi =>
        mem_setInuseBit (by omega)
    · intro i low high
      exact (mem_setInuseBit (by omega)).trans (own i (by omega) (by omega))
  · simp only [if_neg small]
    rw [only.minChunk, not_lt] at small
    have rest : Sized (b.size - n) := by
      refine ⟨le_trans min small, Nat.dvd_sub b_sized.aligned sized.aligned, ?_⟩
      have := b_sized.fits
      omega
    obtain ⟨heap₄, frame₂, inside₂⟩ := heap₂.cut hx₁ rfl r_settled sized rest (by simp only; omega)
    generalize (((((s₁.setTSize x (n ||| tSize s₁.mem x % 8)).setTSize (x + n)
      (b.size - n)).setTPreSize (x + n) n).setInuseBit (x + n)).setTPreSize (x + n + (b.size - n))
      (b.size - n)).setInuseBit (x + n + (b.size - n)) = s₂ at heap₄ frame₂ inside₂ ⊢
    have heap₅ := heap₄.shift
    have next₂ : x + n = s₂.hBottom + span size (l ++ [⟨n, b.prevInUse, .live⟩]) := by
      rw [frame₂.bottom]
      exact start_concat (b := ⟨n, b.prevInUse, .live⟩) hx₁
    obtain ⟨r', bins', -, released, _, _, _, joins, puts⟩ :=
      interFree_inuse heap₅ next₂ rfl rfl (settled_mark r_settled)
    have released_heap := released.heap
    rw [append_assoc, singleton_append] at released_heap
    refine ⟨l, ⟨n, b.prevInUse, .live⟩, r', bins',
      ⟨released_heap, ?_, rfl, le_rfl, by rw [← hx], ?_, ?_, ?_⟩,
      .bin binned (show b.size - n + n ≤ b.size by omega) (.rest joins puts)⟩
    · rw [settled_append, settled_cons]
      exact ⟨l_settled, .inl rfl, released.settled⟩
    · rw [used, ← hx, released.used, usedAt_mark]
      congr 2
      simp only
      omega
    · refine ((frame₁.trans frame₂).trans ?_).around used
      have frame₃ := released.frame.below
      rw [usedAt_mark] at frame₃
      simp only [Nat.add_assoc, Nat.add_sub_of_le le] at frame₃
      exact frame₃
    · intro i low high
      have kept := released.frame.keeps (x, n) ?_ i (by simp only; omega) (by simp only; omega)
      · exact kept.trans ((inside₂ i (by omega) (by omega)).trans (own i (by omega) (by omega)))
      rw [usedAt_append, usedAt_cons, frame₂.bottom, ← hx₁]
      simp

theorem binIndex_mono {a b : Nat} (le : a ≤ b) : binIndex a ≤ binIndex b := by
  unfold binIndex inSmallbinRange smallbinIndex largebinIndex
  simp only [Nat.shiftRight_eq_div_pow, decide_eq_true_eq]
  split_ifs <;> omega

/-- A bin of small chunks holds chunks of one size. -/
theorem eq_of_smallbinIndex {a b : Nat} (small : inSmallbinRange a = true) (ha : 8 ∣ a) (hb : 8 ∣ b)
    (same : binIndex b = smallbinIndex a) : b = a := by
  unfold binIndex inSmallbinRange smallbinIndex largebinIndex at *
  simp only [Nat.shiftRight_eq_div_pow, decide_eq_true_eq] at small same
  split_ifs at same <;> omega

theorem request2size_sized {req : Nat} (range : requestOutOfRange req = false) :
    Sized (request2size req) ∧ req + 4 ≤ request2size req := by
  unfold requestOutOfRange minSize at range
  rw [decide_eq_false_iff_not] at range
  unfold request2size minSize
  split
  case isTrue => exact ⟨⟨by decide, by decide, by decide⟩, by omega⟩
  case isFalse => exact ⟨⟨by unfold minSize; omega, Nat.dvd_mul_left 8 _, by omega⟩, by omega⟩

/-- The block of a bin member. -/
theorem Heap.split_of_mem (heap : Heap s bs bins) (mem : x ∈ bins i) :
    ∃ l b r, bs = l ++ b :: r ∧ x = s.hBottom + span size l ∧ b.kind = .binned ∧
      binIndex b.size = i := by
  obtain ⟨b, placed, binned, index⟩ := heap.placed_of_mem mem
  obtain ⟨l, r, rfl, hx⟩ := split_of_mem_place placed
  exact ⟨l, b, r, rfl, hx, binned, index⟩

/-- A chunk found in a bin is a member of it and large enough. -/
theorem searchBin_spec (heap : Heap s bs bins) {count v : Nat} (node : v ∈ invalidHandle :: bins i)
    (found : s.searchBin n count v = some x) : x ∈ bins i ∧ n ≤ chunkSize s.mem x := by
  induction count generalizing v with
  | zero => exact absurd found (by simp [searchBin])
  | succ count ih =>
    unfold searchBin at found
    by_cases null : v = invalidHandle
    · rw [if_pos null] at found
      exact absurd found (by simp)
    · have mem : v ∈ bins i := (mem_cons.mp node).resolve_left null
      rw [if_neg null] at found
      by_cases large : n ≤ chunkSize s.mem v
      · rw [if_pos large] at found
        obtain rfl := Option.some.inj found
        exact ⟨mem, large⟩
      · rw [if_neg large] at found
        refine ih ?_ found
        rw [← fwd_of_ne (i := i) null]
        exact ((heap.rings _).neighbours mem).2.1

theorem le_skipWords {fuel word k : Nat} : k ≤ s.skipWords fuel word k := by
  induction fuel generalizing word k with
  | zero => exact le_rfl
  | succ fuel ih =>
    unfold skipWords
    split
    · exact le_trans (Nat.le_add_right k 32) ih
    · exact le_rfl

theorem skipBins_spec {fuel k : Nat} (enough : nBins ≤ k + fuel) :
    k ≤ s.skipBins fuel k ∧
      (s.skipBins fuel k < nBins → s.emptyBin (s.skipBins fuel k) = false) := by
  induction fuel generalizing k with
  | zero => exact ⟨le_rfl, fun lt => absurd lt (by simpa [skipBins] using enough)⟩
  | succ fuel ih =>
    unfold skipBins
    split
    case isTrue =>
      have := ih (k := k + 1) (by omega)
      exact ⟨by omega, this.2⟩
    case isFalse stop =>
      refine ⟨le_rfl, fun lt => ?_⟩
      rw [not_and, Bool.not_eq_true] at stop
      exact stop lt

/-- A later bin that is not empty. -/
theorem searchNextBin_spec (k : Nat) :
    k < s.searchNextBin k ∧
      (s.searchNextBin k < nBins → s.emptyBin (s.searchNextBin k) = false) := by
  unfold searchNextBin
  have start : k + 1 ≤ if s.binBitMap ((k + 1) / 32) = 0 then
      s.skipWords 16 ((k + 1) / 32 + 1) (((k + 1) / 32 + 1) * 32) else k + 1 := by
    split
    · refine le_trans ?_ le_skipWords
      omega
    · exact le_rfl
  simp only
  have := skipBins_spec (s := s) (Nat.le_add_left nBins (if s.binBitMap ((k + 1) / 32) = 0 then
      s.skipWords 16 ((k + 1) / 32 + 1) (((k + 1) / 32 + 1) * 32) else k + 1))
  exact ⟨by omega, this.2⟩

/-- The last chunk of a later bin is large enough. -/
theorem searchBack_spec (heap : Heap s bs bins) {k : Nat} (later : binIndex n < k)
    (nonempty : s.emptyBin k = false) :
    ∃ x, s.searchBack n s.tSize (s.ptBin k).hPreChunk = some x ∧ x ∈ bins k ∧
      n ≤ chunkSize s.mem x := by
  have ne : bins k ≠ [] := fun nil => by
    have := heap.bin_eq_nil_iff.mpr nil
    simp [emptyBin, this] at nonempty
  have last : (s.ptBin k).hPreChunk = (bins k).getLastD invalidHandle := (heap.rings k).bwd_head
  have mem : (s.ptBin k).hPreChunk ∈ bins k := by
    rw [last]
    cases eq : bins k with
    | nil => exact absurd eq ne
    | cons y ys =>
      rw [getLastD_cons]
      exact getLastD_mem_cons
  obtain ⟨l, b, r, rfl, hx, binned, rfl⟩ := heap.split_of_mem mem
  have word := (heap.tag_of hx).word (by simp [binned])
  have large : n ≤ chunkSize s.mem (s.ptBin (binIndex b.size)).hPreChunk := by
    rw [word.1]
    by_contra small
    have := binIndex_mono (Nat.le_of_lt (not_le.mp small))
    omega
  refine ⟨_, ?_, mem, large⟩
  have room := heap.room
  obtain ⟨fuel, eq⟩ : ∃ fuel, s.tSize = fuel + 1 := ⟨s.tSize - 1, by unfold minSize at room; omega⟩
  rw [eq, searchBack, if_neg (heap.ne_null (heap.placed hx)), if_pos large]

/-- Out of memory: the blocks are as before. -/
structure Unchanged (s s' : PtMalloc) (bs : List Block) (bins : Nat → List Nat) : Prop where
  heap : Heap s' bs bins
  frame : Frame s s' [] (usedAt s.hBottom bs)
  mem : s'.mem = s.mem

/-- From a later bin or from the top. -/
theorem mallocNextBin_spec (heap : Heap s bs bins) (settled : Settled bs) (sized : Sized n)
    (min : minSize ≤ s.getMinChunkSize) :
    ((s.mallocNextBin n).1 = invalidHandle ∧ Unchanged s (s.mallocNextBin n).2 bs bins) ∨
      Allocated s (s.mallocNextBin n).2 bs (s.mallocNextBin n).1 n := by
  obtain ⟨later, nonempty⟩ := searchNextBin_spec (s := s) (binIndex n)
  unfold mallocNextBin
  by_cases none : nBins ≤ s.searchNextBin (binIndex n)
  · simp only [if_pos none]
    by_cases full : s.tSize ≤ s.hTop + n + minSize
    · left
      unfold topAlloc
      rw [if_pos full]
      exact ⟨rfl, heap.of_agree ⟨rfl, rfl, rfl, rfl, rfl⟩ rfl, Frame.of_mem_eq rfl rfl rfl rfl, rfl⟩
    · right
      obtain ⟨handle, heap', frame, inside⟩ := heap.topAlloc_spec sized (by omega)
      have n_min := sized.ge
      rw [handle, heap.top]
      refine ⟨bs, ⟨n, true, .live⟩, [], bins, ⟨heap', ?_, rfl, le_rfl, rfl, by simp, ?_, ?_⟩, .top⟩
      · rw [settled_append, settled_cons]
        exact ⟨settled, .inl rfl, fun _ mem => absurd mem not_mem_nil⟩
      · exact frame.around (by simp)
      · intro i low high
        exact inside i (by rw [heap.top]; omega) (by rw [heap.top]; omega)
  · obtain ⟨x, found, mem, large⟩ := searchBack_spec heap later (nonempty (not_le.mp none))
    simp only [if_neg none, found]
    obtain ⟨l, b, r, rfl, hx, binned, index⟩ := heap.split_of_mem mem
    rw [((heap.tag_of hx).word (by simp [binned])).1] at large
    rw [← index]
    exact .inr (carveChunk_spec heap settled binned hx sized large min)

/-- From the bin of a small size. -/
theorem smallBinMalloc_spec (heap : Heap s bs bins) (settled : Settled bs) (sized : Sized n)
    (small : inSmallbinRange n = true) :
    ((s.smallBinMalloc n).1 = invalidHandle ∧ Unchanged s (s.smallBinMalloc n).2 bs bins) ∨
      (s.smallBinMalloc n).1 ≠ invalidHandle ∧
        Allocated s (s.smallBinMalloc n).2 bs ((s.smallBinMalloc n).1 + 8) n := by
  unfold smallBinMalloc binMalloc
  by_cases null : (s.ptBin (smallbinIndex n)).hNextChunk = invalidHandle
  · left
    simp only [if_pos null]
    refine ⟨trivial, heap.clearIfEmpty _, ?_, mem_clearIfEmpty⟩
    unfold clearIfEmpty
    split <;> exact Frame.of_mem_eq rfl rfl rfl rfl
  · right
    simp only [if_neg null]
    refine ⟨null, ?_⟩
    have head : (s.ptBin (smallbinIndex n)).hNextChunk =
        (bins (smallbinIndex n)).headD invalidHandle := (heap.rings _).fwd_head
    have mem : (s.ptBin (smallbinIndex n)).hNextChunk ∈ bins (smallbinIndex n) := by
      cases eq : bins (smallbinIndex n) with
      | nil =>
        rw [eq] at head
        exact absurd head null
      | cons y ys =>
        rw [head, eq]
        exact mem_cons_self
    obtain ⟨l, b, r, rfl, hx, binned, index⟩ := heap.split_of_mem mem
    have b_size := eq_of_smallbinIndex small sized.aligned heap.sized_of.aligned index
    have n_min : 24 ≤ n := sized.min
    have word := (heap.tag_of hx).word (by simp [binned])
    rw [settled_append, settled_cons] at settled
    obtain ⟨l_settled, -, r_settled⟩ := settled
    rw [word.1]
    generalize (s.ptBin (smallbinIndex n)).hNextChunk = x at hx ⊢
    rw [← index]
    -- the bit above is set first, then the chunk leaves its bin
    have next : x + b.size = s.hBottom + span size (l ++ [b]) := start_concat hx
    have heap₁ := heap.shift.markNext next r_settled
    rw [append_assoc, singleton_append] at heap₁
    have hx₁ : x = (s.setInuseBit (x + b.size)).hBottom + span size l := hx
    obtain ⟨heap₂, only₂⟩ := heap₁.unlink binned hx₁
    have only := only₂.clearIfEmpty (binIndex b.size)
    have heap₃ := (heap₂.clearIfEmpty (binIndex b.size)).handOut rfl mark_inuse
    have used : usedAt s.hBottom (l ++ b :: r) = usedAt s.hBottom l ++ usedAt (x + b.size) r := by
      rw [usedAt_append, usedAt_cons, if_pos binned, nil_append, ← hx]
    refine ⟨l, { b with kind := .live }, mark r, _,
      ⟨heap₃, ?_, rfl, b_size.ge, by rw [← hx], ?_, ?_, ?_⟩,
      .bin binned (show 0 + n ≤ b.size by omega) .none⟩
    · rw [settled_append, settled_cons]
      exact ⟨l_settled, .inl rfl, settled_mark r_settled⟩
    · rw [used, usedAt_mark, ← hx]
    · have frame₁ : Frame s (s.setInuseBit (x + b.size)) l (usedAt (x + b.size) r) :=
        Frame.of_change [b] heap hx (by simp) rfl rfl rfl fun i hi => mem_setInuseBit (by omega)
      have frame₂ := only.frame heap₁.sized hx₁
      rw [usedAt_cons, if_pos binned, nil_append, usedAt_mark] at frame₂
      exact (frame₁.trans frame₂).around used
    · intro i low high
      rw [mem_clearIfEmpty, heap₁.unlink_own (heap₁.mem_bin binned hx₁) (by omega) (by omega)]
      exact mem_setInuseBit (by omega)

theorem Unchanged.trans_allocated {s₁ s₂ : PtMalloc} {h : Nat} (first : Unchanged s s₁ bs bins)
    (second : Allocated s₁ s₂ bs h n) : Allocated s s₂ bs h n := by
  obtain ⟨-, frame, same⟩ := first
  obtain ⟨l, c, r, bins', ⟨heap', settled', live, le, handle, used, frame', head⟩, serving⟩ := second
  rw [frame.bottom] at handle used frame'
  exact ⟨l, c, r, bins', ⟨heap', settled', live, le, handle, used, frame.trans frame',
    fun i low high => (head i low high).trans (congrFun same i)⟩, serving⟩

theorem Unchanged.trans {s₁ s₂ : PtMalloc} (first : Unchanged s s₁ bs bins)
    (second : Unchanged s₁ s₂ bs bins) : Unchanged s s₂ bs bins := by
  obtain ⟨heap₂, frame₂, mem₂⟩ := second
  rw [first.frame.bottom] at frame₂
  exact ⟨heap₂, first.frame.trans frame₂, mem₂.trans first.mem⟩

/-- `inter_malloc` adds a block or leaves the blocks as they are. -/
theorem interMalloc_spec (heap : Heap s bs bins) (settled : Settled bs)
    (min : minSize ≤ s.getMinChunkSize) (req : Nat) :
    ((s.interMalloc req).1 = invalidHandle ∧ Unchanged s (s.interMalloc req).2 bs bins) ∨
      requestOutOfRange req = false ∧
        Allocated s (s.interMalloc req).2 bs (s.interMalloc req).1 (request2size req) := by
  unfold interMalloc
  by_cases range : requestOutOfRange req
  · simp only [if_pos range]
    exact .inl ⟨trivial, heap, Frame.of_mem_eq rfl rfl rfl rfl, rfl⟩
  · have inRange : requestOutOfRange req = false := Bool.eq_false_iff.mpr range
    have sized := (request2size_sized inRange).1
    simp only [if_neg range]
    by_cases small : inSmallbinRange (request2size req)
    · simp only [if_pos small]
      obtain ⟨null, unchanged⟩ | ⟨found, allocated⟩ := smallBinMalloc_spec heap settled sized small
      · have min' := unchanged.frame.minChunk ▸ min
        simp only [if_neg (not_not.mpr null)]
        obtain ⟨full, later⟩ | later := mallocNextBin_spec unchanged.heap settled sized min'
        · exact .inl ⟨full, unchanged.trans later⟩
        · exact .inr ⟨inRange, unchanged.trans_allocated later⟩
      · simp only [if_pos found]
        exact .inr ⟨inRange, allocated⟩
    · simp only [if_neg small]
      cases found : s.searchBin (request2size req) 99
        (s.ptBin (binIndex (request2size req))).hNextChunk with
      | none =>
        exact (mallocNextBin_spec heap settled sized min).imp id fun allocated =>
          ⟨inRange, allocated⟩
      | some x =>
        have node : (s.ptBin (binIndex (request2size req))).hNextChunk ∈
            invalidHandle :: bins (binIndex (request2size req)) := by
          have head : (s.ptBin (binIndex (request2size req))).hNextChunk =
            (bins (binIndex (request2size req))).headD invalidHandle := (heap.rings _).fwd_head
          rw [head]
          cases bins (binIndex (request2size req)) <;> simp
        obtain ⟨mem, large⟩ := searchBin_spec heap node found
        obtain ⟨l, b, r, rfl, hx, binned, index⟩ := heap.split_of_mem mem
        rw [((heap.tag_of hx).word (by simp [binned])).1] at large
        rw [← index]
        exact .inr ⟨inRange, carveChunk_spec heap settled binned hx sized large min⟩

end Malloc

end Dtc.Mem
