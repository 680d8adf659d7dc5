import Dtc.Mem.Blocks

/-!
# Changing a heap

The steps from which the calls are put together: rewriting adjacent blocks that are in
no bin (`Heap.replace`), the same at the top of the heap (`Heap.retop`), and taking a
block out of its bin or putting it in.
-/

namespace Dtc.Mem

open Library Tiling List PtMalloc Block

/-- Two states that differ in the bytes of the arena and in counters only. -/
structure Agree (s s' : PtMalloc) : Prop where
  bottom : s'.hBottom = s.hBottom
  top : s'.hTop = s.hTop
  arena : s'.tSize = s.tSize
  bins : s'.ptBin = s.ptBin
  bitMap : s'.binBitMap = s.binBitMap

theorem Agree.refl (s : PtMalloc) : Agree s s := ⟨rfl, rfl, rfl, rfl, rfl⟩

theorem Agree.symm {s s' : PtMalloc} (agree : Agree s s') : Agree s' s :=
  ⟨agree.bottom.symm, agree.top.symm, agree.arena.symm, agree.bins.symm, agree.bitMap.symm⟩

theorem Agree.trans {s s' s'' : PtMalloc} (first : Agree s s') (second : Agree s' s'') :
    Agree s s'' where
  bottom := second.bottom.trans first.bottom
  top := second.top.trans first.top
  arena := second.arena.trans first.arena
  bins := second.bins.trans first.bins
  bitMap := second.bitMap.trans first.bitMap

/-- What follows the changed blocks: the top, or a block of which at most the
`PREV_INUSE` bit changes. -/
inductive Behind (m : Nat → UInt8) (before : Option Block) (y : Nat) :
    List Block → List Block → Prop
  | top (tag : tSize m y = 1) : Behind m before y [] []
  | block {q q' : Block} {rest : List Block} (size : q'.size = q.size) (kind : q'.kind = q.kind)
      (tag : Tag m before y q') : Behind m before y (q :: rest) (q' :: rest)

section Behind
variable {m : Nat → UInt8} {before : Option Block} {y a : Nat} {r r' : List Block}

section
variable (behind : Behind m before y r r')
include behind

theorem Behind.span_eq : span size r' = span size r := by
  cases behind with
  | top => rfl
  | block size => rw [span_cons, span_cons, size]

theorem Behind.select_eq (kinds : Kind → Bool) : select kinds a r' = select kinds a r := by
  cases behind with
  | top => rfl
  | block size kind => rw [select_cons, select_cons, size, kind]

theorem Behind.sized (sized : ∀ b ∈ r, Sized b.size) : ∀ b ∈ r', Sized b.size := by
  cases behind with
  | top => exact sized
  | block size =>
    rw [forall_mem_cons] at sized ⊢
    rw [size]
    exact sized

end

end Behind

namespace Heap
variable {s s' : PtMalloc} {bs l r r' : List Block} {bins : Nat → List Nat}
  {x y n : Nat} {b c : Block}

section
variable (heap : Heap s bs bins)
include heap

/-- Counters do not matter. -/
theorem of_agree (agree : Agree s s') (mem : s'.mem = s.mem) :
    Heap s' bs bins where
  aligned := agree.bottom ▸ heap.aligned
  positive := agree.bottom ▸ heap.positive
  range := agree.arena ▸ heap.range
  room := by
    rw [agree.top, agree.arena]
    exact heap.room
  top := by
    rw [agree.top, agree.bottom]
    exact heap.top
  sized := heap.sized
  tags := by
    rw [mem, agree.bottom]
    exact heap.tags
  topTag := by
    rw [mem, agree.top]
    exact heap.topTag
  rings i := by
    refine (heap.rings i).congr fun y _ => ?_
    unfold fwd bwd
    rw [mem, agree.bins]
    exact ⟨rfl, rfl⟩
  members := by
    rw [agree.bottom]
    exact heap.members
  bitMap := by
    rw [agree.bitMap]
    exact heap.bitMap

theorem sized_of_place (placed : (x, b) ∈ place size s.hBottom bs) :
    24 ≤ b.size := (heap.sized b (mem_of_mem_place placed)).min

/-- The starts of two blocks are a whole chunk header apart. -/
theorem starts_apart (first : (x, b) ∈ place size s.hBottom bs)
    (second : (y, c) ∈ place size s.hBottom bs) (ne : x ≠ y) : x + 24 ≤ y ∨ y + 24 ≤ x := by
  have := heap.sized_of_place first
  have := heap.sized_of_place second
  obtain below | above | same := place_apart first second
  · omega
  · omega
  · exact absurd same.1 ne

/-- There is one block at an address. -/
theorem block_unique (first : (x, b) ∈ place size s.hBottom bs)
    (second : (x, c) ∈ place size s.hBottom bs) : b = c := by
  have := heap.sized_of_place first
  have := heap.sized_of_place second
  obtain below | above | same := place_apart first second
  · omega
  · omega
  · exact same.2

/-- A free block has room for its links. -/
theorem free_bounds (free : (y, n) ∈ freeAt s.hBottom bs) :
    24 ≤ n ∧ s.hBottom ≤ y ∧ y + n ≤ s.hTop := by
  have bounds := bounds_of_mem_select free
  obtain ⟨b, placed, -, rfl⟩ := mem_freeAt.mp free
  rw [heap.top]
  exact ⟨heap.sized_of_place placed, bounds⟩

/-- The rings depend on the links of the free blocks only. -/
theorem rings_of_links (same : s'.ptBin = s.ptBin)
    (links : ∀ y n, (y, n) ∈ freeAt s.hBottom bs → ∀ i, y + 8 ≤ i → i < y + 24 →
      s'.mem i = s.mem i) (i : Nat) :
    LinkedRing (s'.fwd i) (s'.bwd i) invalidHandle (bins i) := by
  refine (heap.rings i).congr fun y mem => ?_
  unfold fwd bwd
  rw [same]
  rw [mem_cons] at mem
  cases mem with
  | inl null => simp only [if_pos null, and_self]
  | inr mem =>
    obtain ⟨n, free, -⟩ := (heap.members i y).mp mem
    rw [hNextChunk_congr fun j low high => links y n free j (by omega) high,
      hPreChunk_congr fun j low high => links y n free j low (by omega)]
    exact ⟨rfl, rfl⟩

end

/-- Adjacent blocks in no bin are rewritten. The bytes they own and the tag behind
them may change. -/
theorem replace (mid mid' : List Block) (heap : Heap s (l ++ (mid ++ r)) bins) (agree : Agree s s')
    (hx : x = s.hBottom + span size l) {n : Nat} (sum : span size mid = n)
    (sum' : span size mid' = n) (unbinned : ∀ b ∈ mid, b.kind ≠ .binned)
    (unbinned' : ∀ b ∈ mid', b.kind ≠ .binned) (sized : ∀ b ∈ mid', Sized b.size)
    (outside : ∀ i, i < x + 4 ∨ x + n + 8 ≤ i → s'.mem i = s.mem i)
    (tagged : Tagged s'.mem (lastOr none l) x mid')
    (behind : Behind s'.mem (lastOr (lastOr none l) mid') (x + n) r r') :
    Heap s' (l ++ (mid' ++ r')) bins := by
  subst sum
  have old := heap.sized
  simp only [forall_mem_append] at old
  have top := heap.top
  simp only [span_append] at top
  have free_eq : freeAt s.hBottom (l ++ (mid' ++ r')) = freeAt s.hBottom (l ++ (mid ++ r)) := by
    rw [freeAt_append, freeAt_append, freeAt_append, freeAt_append, freeAt_eq_nil unbinned,
      freeAt_eq_nil unbinned', sum']
    congr 2
    exact behind.select_eq _
  have tags := heap.tags
  rw [tagged_append, tagged_append, ← hx] at tags
  refine ⟨agree.bottom ▸ heap.aligned, agree.bottom ▸ heap.positive, agree.arena ▸ heap.range, ?_,
    ?_, ?_, ?_, ?_, ?_, ?_, ?_⟩
  · rw [agree.top, agree.arena]
    exact heap.room
  · rw [agree.top, agree.bottom, heap.top]
    simp only [span_append, sum', behind.span_eq]
  · simp only [forall_mem_append]
    exact ⟨old.1, sized, behind.sized old.2.2⟩
  · rw [agree.bottom, tagged_append, tagged_append, ← hx, sum']
    refine ⟨tags.1.congr (fun b hb => (old.1 b hb).min) fun i low high => ?_, tagged, ?_⟩
    · exact outside i (.inl (by omega))
    · cases behind with
      | top => exact tagged_nil
      | @block q q' rest size kind tag =>
        have behindTags := (tagged_cons.mp tags.2.2).2
        have q_sized := (old.2.2 q mem_cons_self).ge
        rw [tagged_cons, size]
        refine ⟨tag, (behindTags.after kind size).congr (fun b hb => ?_) fun i low high => ?_⟩
        · exact (old.2.2 b (mem_cons_of_mem q hb)).min
        · exact outside i (.inr (by omega))
  · rw [agree.top]
    cases behind with
    | top tag =>
      rw [top, span_nil, Nat.add_zero, ← Nat.add_assoc, ← hx]
      exact tag
    | @block q q' rest =>
      have q_sized := (old.2.2 q mem_cons_self).ge
      rw [span_cons] at top
      rw [tSize_congr fun i low high => outside i (.inr (by omega))]
      exact heap.topTag
  · refine heap.rings_of_links agree.bins fun y n free i low high => ?_
    have bounds := heap.free_bounds free
    rw [freeAt_append, freeAt_append, freeAt_eq_nil unbinned, nil_append, mem_append]
      at free
    cases free with
    | inl below =>
      have := bounds_of_mem_select below
      exact outside i (.inl (by omega))
    | inr above =>
      have := bounds_of_mem_select above
      exact outside i (.inr (by omega))
  · intro i a
    rw [agree.bottom, free_eq]
    exact heap.members i a
  · rw [agree.bitMap]
    exact heap.bitMap

/-- The last blocks are rewritten and the top moves. -/
theorem retop (mid mid' : List Block) (heap : Heap s (l ++ mid) bins)
    (bottom : s'.hBottom = s.hBottom) (arena : s'.tSize = s.tSize) (binsSame : s'.ptBin = s.ptBin)
    (bitMap : s'.binBitMap = s.binBitMap) (hx : x = s.hBottom + span size l)
    (unbinned : ∀ b ∈ mid, b.kind ≠ .binned) (unbinned' : ∀ b ∈ mid', b.kind ≠ .binned)
    (sized : ∀ b ∈ mid', Sized b.size) (outside : ∀ i, i < x + 4 → s'.mem i = s.mem i)
    (tagged : Tagged s'.mem (lastOr none l) x mid') (top : s'.hTop = x + span size mid')
    (room : s'.hTop + minSize ≤ s.tSize) (topTag : tSize s'.mem s'.hTop = 1) :
    Heap s' (l ++ mid') bins := by
  have old := heap.sized
  simp only [forall_mem_append] at old
  have tags := heap.tags
  rw [tagged_append, ← hx] at tags
  refine ⟨bottom ▸ heap.aligned, bottom ▸ heap.positive, arena ▸ heap.range, arena ▸ room,
    ?_, ?_, ?_, topTag, ?_, ?_, ?_⟩
  · rw [top, bottom, span_append, hx, Nat.add_assoc]
  · rw [forall_mem_append]
    exact ⟨old.1, sized⟩
  · rw [bottom, tagged_append, ← hx]
    refine ⟨tags.1.congr (fun b hb => (old.1 b hb).min) fun i low high => ?_, tagged⟩
    exact outside i (by omega)
  · refine heap.rings_of_links binsSame fun y n free i low high => ?_
    have bounds := heap.free_bounds free
    rw [freeAt_append, freeAt_eq_nil unbinned, append_nil] at free
    have := bounds_of_mem_select free
    exact outside i (by omega)
  · intro i a
    rw [bottom, freeAt_append, freeAt_eq_nil unbinned', ← freeAt_eq_nil unbinned, ← freeAt_append]
    exact heap.members i a
  · rw [bitMap]
    exact heap.bitMap

end Heap

end Dtc.Mem
