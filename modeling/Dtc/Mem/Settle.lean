import Dtc.Mem.Malloc

/-!
# Giving a block its new size

The end of `inter_re_alloc`: a range of used blocks becomes one live block of the asked
size, what is left of the range is freed, and the tags of the block are written last.
-/

namespace Dtc.Mem

open Library Memory Tiling PtMalloc Block

section Retag
variable {s : PtMalloc} {x n i : Nat} {p : Bool}

/-- Writing back what is there. -/
theorem store_load (m : Nat → UInt8) (a k : Nat) : store m a (leBytes k (load m a k)) = m := by
  have same : leBytes k (load m a k) = slice m a k := by
    have length : (slice m a k).length = k := length_slice
    have := leBytes_leNat (slice m a k)
    rw [length] at this
    exact this
  rw [same]
  exact move_self

theorem retag_eq : s.retag x n p (tPreSize s.mem x) =
    if p then (s.setTSize x (realSize n)).setInuseBit x else s.setTSize x (realSize n) := by
  have same : ∀ t : PtMalloc, tPreSize t.mem x = tPreSize s.mem x →
      t.setTPreSize x (tPreSize s.mem x) = t := by
    intro t eq
    rw [← eq]
    unfold setTPreSize tPreSize
    rw [store_load]
  cases p with
  | false =>
    refine same _ (tPreSize_congr fun i low high => ?_)
    exact mem_setTSize (by omega)
  | true =>
    refine same _ (tPreSize_congr fun i low high => ?_)
    exact (mem_setInuseBit (by omega)).trans (mem_setTSize (by omega))

theorem mem_retag (outside : i < x + 4 ∨ x + 8 ≤ i) :
    (s.retag x n p (tPreSize s.mem x)).mem i = s.mem i := by
  rw [retag_eq]
  split
  · rw [mem_setInuseBit outside, mem_setTSize outside]
  · rw [mem_setTSize outside]

theorem agree_retag : Agree s (s.retag x n p (tPreSize s.mem x)) := by
  rw [retag_eq]
  split <;> exact ⟨rfl, rfl, rfl, rfl, rfl⟩

theorem getMinChunkSize_retag :
    (s.retag x n p (tPreSize s.mem x)).getMinChunkSize = s.getMinChunkSize := by
  rw [retag_eq]
  split <;> rfl

theorem word_retag (aligned : 8 ∣ n) (fits : n < 2 ^ 32) :
    chunkSize (s.retag x n p (tPreSize s.mem x)).mem x = n ∧
      prevInuse (s.retag x n p (tPreSize s.mem x)).mem x = p := by
  have word : tSize (s.setTSize x (realSize n)).mem x = n := by
    rw [realSize_of_dvd aligned, tSize_setTSize fits]
  rw [retag_eq]
  cases p with
  | false =>
    simp only [Bool.false_eq_true, if_false]
    rw [chunkSize, prevInuse, word, realSize_of_dvd aligned, beq_eq_false_iff_ne]
    refine ⟨rfl, ?_⟩
    omega
  | true =>
    simp only [if_true]
    rw [chunkSize_setInuseBit, chunkSize, word, realSize_of_dvd aligned]
    exact ⟨rfl, prevInuse_setInuseBit⟩

end Retag

/-- A range of used blocks at `x` has become one live block of `k` bytes. -/
structure Resized (s s' : PtMalloc) (l : List Block) (x total n : Nat) (p : Bool)
    (r : List Block) (k : Nat) (r' : List Block) (bins : Nat → List Nat) : Prop where
  heap : Heap s' (l ++ ⟨k, p, .live⟩ :: r') bins
  settled : Settled r'
  le : n ≤ k
  used : usedAt (x + k) r' = usedAt (x + total) r
  frame : Frame s s' l (usedAt (x + total) r)
  /-- what is left of the range is freed -/
  leaves : Leaves (total - n) r r'
  /-- the bytes of the block are those of the range -/
  data : ∀ i, x + 8 ≤ i → i < x + k + 4 → s'.mem i = s.mem i

section Settle
variable {s : PtMalloc} {l r : List Block} {bins : Nat → List Nat} {x n rem total : Nat} {p : Bool}

/-- A block without `PREV_INUSE` has a free one below. -/
def BelowFree (l : List Block) (preSize : Nat) (p : Bool) : Prop :=
  p = false → ∃ q, lastOr none l = some q ∧ q.kind ≠ .live ∧ (q.kind = .binned → preSize = q.size)

/-- The tags that `splitRemainder` writes before it frees the rest. -/
def PtMalloc.cutTags (s : PtMalloc) (x n rem : Nat) : PtMalloc :=
  (((s.setTSize (x + n) (realSize rem ||| 1)).setTPreSize (x + n + realSize rem)
    (realSize rem)).setInuseBit (x + n + realSize rem)).setInuseBit (x + n + rem)

section
variable (mid : List Block) (heap : Heap s (l ++ (mid ++ r)) bins)
  (hx : x = s.hBottom + span Block.size l) (unbinned : ∀ b ∈ mid, b.kind ≠ .binned)

include mid heap hx unbinned

/-- The range is cut in two: a block with tags to be written, and one to be freed. -/
theorem cutLoose (settled : Settled r) (sized : Sized n) (rest : Sized rem)
    (sum : span size mid = n + rem)
    (below : BelowFree l (tPreSize s.mem x) p) :
    let s' := s.cutTags x n rem
    Heap s' (l ++ ⟨n, p, .loose⟩ :: ⟨rem, true, .live⟩ :: mark r) bins ∧
      Frame s s' l (usedAt (x + (n + rem)) r) ∧ ∀ i, i < x + n + 4 → s'.mem i = s.mem i := by
  intro s'
  have n_min := sized.ge
  have rem_min := rest.ge
  have exact_rem : realSize rem = rem := realSize_of_dvd rest.aligned
  have outside : ∀ i, i < x + n + 4 ∨ x + (n + rem) + 8 ≤ i → s'.mem i = s.mem i := by
    intro i hi
    refine (mem_setInuseBit ?_).trans ((mem_setInuseBit ?_).trans ((mem_setTPreSize ?_).trans
      (mem_setTSize ?_))) <;> omega
  have word : tSize s'.mem (x + n) = rem ||| 1 := by
    have same : ∀ i, x + n + 4 ≤ i → i < x + n + 8 →
        s'.mem i = (s.setTSize (x + n) (realSize rem ||| 1)).mem i := by
      intro i low high
      refine (mem_setInuseBit ?_).trans ((mem_setInuseBit ?_).trans (mem_setTPreSize ?_)) <;> omega
    rw [tSize_congr same, exact_rem, tSize_setTSize]
    have := rest.fits
    rw [or_one]
    omega
  have nextWord : tSize s'.mem (x + (n + rem)) = tSize s.mem (x + (n + rem)) ||| 1 := by
    have same : ∀ i, x + (n + rem) + 4 ≤ i → i < x + (n + rem) + 8 →
        ((s.setTSize (x + n) (realSize rem ||| 1)).setTPreSize (x + n + realSize rem)
          (realSize rem)).mem i = s.mem i := by
      intro i low high
      refine (mem_setTPreSize ?_).trans (mem_setTSize ?_) <;> omega
    have bits : ∀ w : Nat, w ||| 1 ||| 1 = w ||| 1 := fun w => by
      rw [or_one, or_one]
      omega
    rw [← Nat.add_assoc] at same ⊢
    change tSize (setInuseBit _ (x + n + rem)).mem (x + n + rem) = _
    rw [tSize_setInuseBit, exact_rem, tSize_setInuseBit, bits, ← exact_rem, tSize_congr ?_]
    rw [exact_rem] at same ⊢
    exact same
  refine ⟨?_, ?_, fun i hi => outside i (.inl hi)⟩
  · refine heap.replace mid [⟨n, p, .loose⟩, ⟨rem, true, .live⟩] ⟨rfl, rfl, rfl, rfl, rfl⟩ hx sum
      (by simp) unbinned (by simp) (by simpa using ⟨sized, rest⟩) (fun i hi => outside i (by omega)) ?_ ?_
    · rw [tagged_cons, tagged_cons]
      refine ⟨⟨fun loose => absurd rfl loose, fun clear => ?_⟩,
        ⟨fun _ => ?_, fun clear => absurd clear (by simp)⟩, tagged_nil⟩
      · rw [tPreSize_congr fun i low high => outside i (.inl (by omega))]
        exact below clear
      · rw [chunkSize, prevInuse, word, realSize_or_one, exact_rem, or_one]
        refine ⟨rfl, ?_⟩
        rw [beq_iff_eq]
        omega
    · have heap' : Heap s ((l ++ mid) ++ r) bins := by rwa [List.append_assoc]
      refine heap'.behind_mark ?_ settled nextWord _
      rw [span_append]
      omega
  · exact Frame.of_change mid heap hx sum rfl rfl rfl fun i hi => outside i (by omega)

/-- The tags of the block are written. -/
theorem retag_spec (sized : Sized n) (sum : span size mid = n)
    (inuse : ∀ q rest, r = q :: rest → q.prevInUse = true)
    (below : BelowFree l (tPreSize s.mem x) p) :
    Heap (s.retag x n p (tPreSize s.mem x)) (l ++ ⟨n, p, .live⟩ :: r) bins ∧
      Frame s (s.retag x n p (tPreSize s.mem x)) l (usedAt (x + n) r) := by
  have n_min := sized.ge
  have outside : ∀ i, i < x + 4 ∨ x + n + 8 ≤ i →
      (s.retag x n p (tPreSize s.mem x)).mem i = s.mem i := by
    intro i hi
    exact mem_retag (by omega)
  have above : ∀ i, x + n + 4 ≤ i → i < x + n + 8 →
      (s.retag x n p (tPreSize s.mem x)).mem i = s.mem i := by
    intro i low high
    exact mem_retag (by omega)
  have heap' : Heap s ((l ++ mid) ++ r) bins := by rwa [List.append_assoc]
  have next : x + n = s.hBottom + span size (l ++ mid) := by
    rw [span_append]
    omega
  refine ⟨?_, ?_⟩
  · refine heap.replace mid [⟨n, p, .live⟩] agree_retag hx sum (by simp) unbinned (by simp)
      (by simpa using sized) outside ?_ ?_
    · rw [tagged_cons]
      refine ⟨⟨fun _ => word_retag sized.aligned sized.fits, fun clear => ?_⟩, tagged_nil⟩
      rw [tPreSize_congr fun i low high => outside i (.inl (by omega))]
      exact below clear
    · refine heap'.behind_same next above fun q rest eq clear => ?_
      rw [inuse q rest eq] at clear
      exact absurd clear (by decide)
  · exact Frame.of_change mid heap hx sum agree_retag.bottom agree_retag.arena getMinChunkSize_retag
      outside

/-- The range at `x` becomes one block of the asked size. A range of 32 bits or more is
split. -/
theorem settle_spec (settled : Settled r) (sized : Sized n) (sum : span size mid = total)
    (le : n ≤ total) (min : minSize ≤ s.getMinChunkSize) (restFits : total - n < 2 ^ 32)
    (fits : total - n < s.getMinChunkSize → total < 2 ^ 32)
    (below : BelowFree l (tPreSize s.mem x) p) :
    (s.settle x total n p (tPreSize s.mem x)).1 = x + 8 ∧
      ∃ k r' bins', Resized s (s.settle x total n p (tPreSize s.mem x)).2 l x total n p r k r'
        bins' := by
  have n_min := sized.ge
  have mid_sized : ∀ b ∈ mid, Sized b.size := fun b hb =>
    heap.sized b (List.mem_append_right l (List.mem_append_left r hb))
  have total_aligned : 8 ∣ total := sum ▸ dvd_span fun b hb => (mid_sized b hb).aligned
  unfold settle
  by_cases split : s.getMinChunkSize ≤ total - n
  · simp only [if_pos split, true_and]
    have rest : Sized (total - n) :=
      ⟨le_trans min split, Nat.dvd_sub total_aligned sized.aligned, restFits⟩
    have rest_min := rest.ge
    have total_eq : n + (total - n) = total := Nat.add_sub_of_le le
    obtain ⟨heap₁, frame₁, kept⟩ := cutLoose mid heap hx unbinned settled sized rest
      (by rw [sum, total_eq]) below
    have round : splitRemainder (total - n + 1) s (x + n) (total - n) =
        ((s.cutTags x n (total - n)).interFree (x + n + 8)).2.2 := by
      have small : ¬maxAllocSize < total - n := by
        have := rest.aligned
        unfold maxAllocSize
        omega
      rw [splitRemainder]
      simp only [if_neg small, Nat.sub_self, lt_irrefl, if_false]
      rfl
    rw [round]
    generalize s.cutTags x n (total - n) = s₁ at heap₁ frame₁ kept ⊢
    have heap₂ := heap₁.shift
    have next : x + n = s₁.hBottom + span size (l ++ [⟨n, p, .loose⟩]) := by
      rw [frame₁.bottom]
      exact start_concat (b := ⟨n, p, .loose⟩) hx
    obtain ⟨r', bins', -, released, _, _, _, joins, puts⟩ :=
      interFree_inuse heap₂ next rfl rfl (settled_mark settled)
    have heap₃ := released.heap
    have used₃ := released.used
    have frame₃ := released.frame
    have first₃ := released.first
    have settled₃ := released.settled
    generalize (s₁.interFree (x + n + 8)).2.2 = s₂ at heap₃ frame₃ ⊢
    -- the chunk keeps its place and its `m_tPreSize` while the rest is freed
    have placed : (x, (⟨n, p, .loose⟩ : Block)) ∈
        place size s₁.hBottom (l ++ [⟨n, p, .loose⟩]) :=
      mem_place_middle (by rw [frame₁.bottom, hx])
    have pre : tPreSize s₂.mem x = tPreSize s.mem x := by
      refine tPreSize_congr fun i low high => ?_
      exact (frame₃.tags x _ placed i low (by omega)).trans (kept i (by omega))
    have hx₂ : x = s₂.hBottom + span size l := by rw [frame₃.bottom, frame₁.bottom, hx]
    rw [List.append_assoc] at heap₃
    obtain ⟨heap₄, frame₄⟩ := retag_spec [⟨n, p, .loose⟩] heap₃ hx₂ (by simp) sized
      (by simp) first₃ (by rw [pre]; exact below)
    rw [pre] at heap₄ frame₄
    have used : usedAt (x + n) r' = usedAt (x + total) r := by
      rw [used₃, usedAt_mark, Nat.add_assoc, total_eq]
    refine ⟨n, r', bins', heap₄, settled₃, le_rfl, used, ?_, .rest joins puts, ?_⟩
    · have frame₃' := frame₃.below
      rw [usedAt_mark, Nat.add_assoc, total_eq] at frame₃'
      rw [total_eq] at frame₁
      rw [used] at frame₄
      exact (frame₁.trans frame₃').trans frame₄
    · intro i low high
      rw [← pre, mem_retag (by omega)]
      refine (frame₃.keeps (x, n) ?_ i low high).trans (kept i (by omega))
      rw [frame₁.bottom, usedAt_append, usedAt_cons, ← hx]
      simp
  · simp only [if_neg split, true_and]
    have total_sized : Sized total := by
      refine ⟨?_, total_aligned, fits (not_le.mp split)⟩
      exact le_trans sized.min le
    rw [realSize_of_dvd total_aligned]
    have heap' : Heap s ((l ++ mid) ++ r) bins := by rwa [List.append_assoc]
    have next : x + total = s.hBottom + span size (l ++ mid) := by
      rw [span_append]
      omega
    have heap₁ := heap'.markNext next settled
    rw [List.append_assoc] at heap₁
    have pre : tPreSize (s.setInuseBit (x + total)).mem x = tPreSize s.mem x :=
      tPreSize_congr fun i low high => mem_setInuseBit (by omega)
    obtain ⟨heap₂, frame₂⟩ := retag_spec mid heap₁ hx unbinned total_sized sum
      mark_inuse (by rw [pre]; exact below)
    rw [pre] at heap₂ frame₂
    have used : usedAt (x + total) (mark r) = usedAt (x + total) r := usedAt_mark
    refine ⟨total, mark r, bins, heap₂, settled_mark settled, le, used, ?_, .none, ?_⟩
    · have frame₁ : Frame s (s.setInuseBit (x + total)) l _ :=
        Frame.of_change mid heap hx sum rfl rfl rfl fun i hi => mem_setInuseBit (by omega)
      rw [used] at frame₂
      exact frame₁.trans frame₂
    · intro i low high
      rw [← pre, mem_retag (by omega), mem_setInuseBit (by omega)]

end

end Settle

end Dtc.Mem
