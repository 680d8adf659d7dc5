import Dtc.Mem.Heap

/-!
# Taking blocks out of the bins and putting them in

The members of a bin form a ring whose head is the bin, so `unlink_bin` and `link_bin`
are the two changes of a ring. Both write links of free blocks only (`LinksOnly`): tags
and the bytes of used blocks stay.
-/

namespace Dtc.Mem

open Library Memory Tiling List PtMalloc Block Function

/-- The bytes of `U`, a list of blocks, that belong to the caller are the same. -/
def Keeps (m m' : Nat → UInt8) (U : List (Nat × Nat)) : Prop :=
  ∀ e ∈ U, ∀ i, e.1 + 8 ≤ i → i < e.1 + e.2 + 4 → m' i = m i

section Keeps
variable {m m' m'' : Nat → UInt8} {U V : List (Nat × Nat)}

theorem Keeps.refl : Keeps m m U := fun _ _ _ _ _ => rfl

theorem Keeps.trans (first : Keeps m m' U) (second : Keeps m' m'' U) : Keeps m m'' U :=
  fun e mem i low high => (second e mem i low high).trans (first e mem i low high)

theorem Keeps.subset (keeps : Keeps m m' U) (sub : V ⊆ U) : Keeps m m' V :=
  fun e mem => keeps e (sub mem)

end Keeps

/-- A state in which only links of the free blocks of `bs` and their bins differ. -/
structure LinksOnly (s s' : PtMalloc) (bs : List Block) : Prop where
  bottom : s'.hBottom = s.hBottom
  top : s'.hTop = s.hTop
  arena : s'.tSize = s.tSize
  minChunk : s'.getMinChunkSize = s.getMinChunkSize
  mem : ∀ j, (∀ y n, (y, n) ∈ freeAt s.hBottom bs → j < y + 8 ∨ y + 24 ≤ j) → s'.mem j = s.mem j

/-- Tags are not links. -/
theorem tag_not_link {bs : List Block} {a x y j : Nat} {b c : Block}
    (sized : ∀ b ∈ bs, Sized b.size) (start : (x, b) ∈ place size a bs)
    (other : (y, c) ∈ place size a bs) (low : x ≤ j) (high : j < x + 8) :
    j < y + 8 ∨ y + 24 ≤ j := by
  have b_size := (sized b (mem_of_mem_place start)).ge
  have c_size := (sized c (mem_of_mem_place other)).ge
  have := place_apart start other
  omega

/-- The tag of the top is not a link. -/
theorem Heap.topTag_not_link {s : PtMalloc} {bs : List Block} {bins : Nat → List Nat} {y j : Nat}
    {c : Block} (heap : Heap s bs bins) (other : (y, c) ∈ place size s.hBottom bs)
    (low : s.hTop ≤ j) : j < y + 8 ∨ y + 24 ≤ j := by
  have c_size := heap.sized_of_place other
  have bounds := bounds_of_mem_place other
  have := heap.top
  omega

namespace LinksOnly
variable {s s' : PtMalloc} {bs : List Block} {bins : Nat → List Nat} {x : Nat} {b : Block}

theorem tag (only : LinksOnly s s' bs) (sized : ∀ b ∈ bs, Sized b.size)
    (start : (x, b) ∈ place size s.hBottom bs) : ∀ j, x ≤ j → j < x + 8 → s'.mem j = s.mem j := by
  intro j low high
  refine only.mem j fun y n free => ?_
  obtain ⟨c, placed, -, rfl⟩ := mem_freeAt.mp free
  exact tag_not_link sized start placed low high

theorem topTag (only : LinksOnly s s' bs) (heap : Heap s bs bins) :
    ∀ j, s.hTop ≤ j → j < s.hTop + 8 → s'.mem j = s.mem j := by
  intro j low high
  refine only.mem j fun y n free => ?_
  obtain ⟨c, placed, -, rfl⟩ := mem_freeAt.mp free
  exact heap.topTag_not_link placed low

/-- The caller's bytes are not links. -/
theorem keeps (only : LinksOnly s s' bs) (sized : ∀ b ∈ bs, Sized b.size) :
    Keeps s.mem s'.mem (usedAt s.hBottom bs) := by
  rintro ⟨x, n⟩ used i low high
  refine only.mem i fun y k free => ?_
  obtain ⟨b, b_placed, unbinned, rfl⟩ := mem_usedAt.mp used
  obtain ⟨c, c_placed, binned, rfl⟩ := mem_freeAt.mp free
  have c_size := (sized c (mem_of_mem_place c_placed)).ge
  obtain below | above | ⟨-, rfl⟩ := place_apart b_placed c_placed
  · omega
  · omega
  · exact absurd binned unbinned

end LinksOnly

section Links
variable {s : PtMalloc} {i j p v y : Nat}

theorem fwd_of_ne (ne : y ≠ invalidHandle) : s.fwd i y = hNextChunk s.mem y := if_neg ne

theorem bwd_of_ne (ne : y ≠ invalidHandle) : s.bwd i y = hPreChunk s.mem y := if_neg ne

section
variable (apart : y ≠ p → y = 0 ∨ p = 0 ∨ y + 24 ≤ p ∨ p + 24 ≤ y)
include apart

theorem fwd_setNextOf (fits : v < 2 ^ 64) :
    (s.setNextOf i p v).fwd j y = if y = p ∧ (p = 0 → j = i) then v else s.fwd j y := by
  unfold setNextOf fwd invalidHandle
  by_cases p_null : p = 0
  · rw [if_pos p_null]
    by_cases y_null : y = 0
    · by_cases same : j = i
      · simp [setBinNext, p_null, y_null, same]
      · simp [setBinNext, p_null, y_null, same]
    · simp [setBinNext, p_null, y_null]
  · rw [if_neg p_null]
    by_cases y_null : y = 0
    · simp [setHNextChunk, y_null, Ne.symm p_null]
    · by_cases same : y = p
      · rw [if_neg y_null, if_pos ⟨same, fun null => absurd null p_null⟩, same]
        exact load_store fits
      · rw [if_neg y_null, if_neg y_null, if_neg fun h => same h.1]
        refine load_store_apart ?_
        rw [length_leBytes]
        omega

theorem bwd_setNextOf : (s.setNextOf i p v).bwd j y = s.bwd j y := by
  unfold setNextOf bwd invalidHandle
  by_cases p_null : p = 0
  · rw [if_pos p_null]
    by_cases same : j = i
    · simp [setBinNext, same]
    · simp [setBinNext, same]
  · rw [if_neg p_null]
    by_cases y_null : y = 0
    · simp [setHNextChunk, y_null]
    · rw [if_neg y_null, if_neg y_null]
      refine load_store_apart ?_
      rw [length_leBytes]
      by_cases same : y = p
      · omega
      · have := apart same
        omega

theorem bwd_setPreOf (fits : v < 2 ^ 64) :
    (s.setPreOf i p v).bwd j y = if y = p ∧ (p = 0 → j = i) then v else s.bwd j y := by
  unfold setPreOf bwd invalidHandle
  by_cases p_null : p = 0
  · rw [if_pos p_null]
    by_cases y_null : y = 0
    · by_cases same : j = i
      · simp [setBinPre, p_null, y_null, same]
      · simp [setBinPre, p_null, y_null, same]
    · simp [setBinPre, p_null, y_null]
  · rw [if_neg p_null]
    by_cases y_null : y = 0
    · simp [setHPreChunk, y_null, Ne.symm p_null]
    · by_cases same : y = p
      · rw [if_neg y_null, if_pos ⟨same, fun null => absurd null p_null⟩, same]
        exact load_store fits
      · rw [if_neg y_null, if_neg y_null, if_neg fun h => same h.1]
        refine load_store_apart ?_
        rw [length_leBytes]
        omega

theorem fwd_setPreOf : (s.setPreOf i p v).fwd j y = s.fwd j y := by
  unfold setPreOf fwd invalidHandle
  by_cases p_null : p = 0
  · rw [if_pos p_null]
    by_cases same : j = i
    · simp [setBinPre, same]
    · simp [setBinPre, same]
  · rw [if_neg p_null]
    by_cases y_null : y = 0
    · simp [setHPreChunk, y_null]
    · rw [if_neg y_null, if_neg y_null]
      refine load_store_apart ?_
      rw [length_leBytes]
      by_cases same : y = p
      · omega
      · have := apart same
        omega

end

/-- The link that is written lies behind the tags of its chunk. -/
theorem mem_setNextOf (outside : p ≠ 0 → y < p + 8 ∨ p + 24 ≤ y) :
    (s.setNextOf i p v).mem y = s.mem y := by
  unfold setNextOf invalidHandle
  by_cases p_null : p = 0
  · rw [if_pos p_null]
    rfl
  · rw [if_neg p_null]
    refine store_outside ?_
    rw [length_leBytes]
    omega

theorem mem_setPreOf (outside : p ≠ 0 → y < p + 8 ∨ p + 24 ≤ y) :
    (s.setPreOf i p v).mem y = s.mem y := by
  unfold setPreOf invalidHandle
  by_cases p_null : p = 0
  · rw [if_pos p_null]
    rfl
  · rw [if_neg p_null]
    refine store_outside ?_
    rw [length_leBytes]
    omega

end Links

/-- The links after `unlink_bin`. -/
def PtMalloc.spliced (s : PtMalloc) (i x : Nat) : PtMalloc :=
  (s.setNextOf i (s.bwd i x) (s.fwd i x)).setPreOf i (s.fwd i x) (s.bwd i x)

/-- The links after `link_bin`. -/
def PtMalloc.pushed (s : PtMalloc) (i x : Nat) : PtMalloc :=
  (((s.setNextOf i x (s.fwd i invalidHandle)).setPreOf i x invalidHandle).setPreOf i
    (s.fwd i invalidHandle) x).setNextOf i invalidHandle x

/-- Links and the error message aside, two states are the same. -/
structure SameShell (s s' : PtMalloc) : Prop where
  bottom : s'.hBottom = s.hBottom
  top : s'.hTop = s.hTop
  arena : s'.tSize = s.tSize
  bitMap : s'.binBitMap = s.binBitMap
  minChunk : s'.getMinChunkSize = s.getMinChunkSize

section Shell
variable {s s' s'' : PtMalloc} {i p v : Nat}

theorem SameShell.trans (first : SameShell s s') (second : SameShell s' s'') : SameShell s s'' where
  bottom := second.bottom.trans first.bottom
  top := second.top.trans first.top
  arena := second.arena.trans first.arena
  bitMap := second.bitMap.trans first.bitMap
  minChunk := second.minChunk.trans first.minChunk

theorem sameShell_setNextOf : SameShell s (s.setNextOf i p v) := by
  unfold setNextOf
  split <;> exact ⟨rfl, rfl, rfl, rfl, rfl⟩

theorem sameShell_setPreOf : SameShell s (s.setPreOf i p v) := by
  unfold setPreOf
  split <;> exact ⟨rfl, rfl, rfl, rfl, rfl⟩

theorem sameShell_spliced : SameShell s (s.spliced i p) :=
  sameShell_setNextOf.trans sameShell_setPreOf

theorem sameShell_pushed : SameShell s (s.pushed i p) :=
  ((sameShell_setNextOf.trans sameShell_setPreOf).trans sameShell_setPreOf).trans
    sameShell_setNextOf

end Shell

namespace Heap
variable {s s' : PtMalloc} {bs l r : List Block} {bins : Nat → List Nat} {i j x y p : Nat}
  {b : Block}

section
variable (heap : Heap s bs bins)
include heap

/-- Members of the bins are blocks. -/
theorem placed_of_mem (mem : y ∈ bins i) :
    ∃ c, (y, c) ∈ place size s.hBottom bs ∧ c.kind = .binned ∧ binIndex c.size = i := by
  obtain ⟨n, free, index⟩ := (heap.members i y).mp mem
  obtain ⟨c, placed, binned, rfl⟩ := mem_freeAt.mp free
  exact ⟨c, placed, binned, index⟩

theorem ne_null (placed : (y, b) ∈ place size s.hBottom bs) : y ≠ invalidHandle := by
  have := (bounds_of_mem_place placed).1
  have := heap.positive
  unfold invalidHandle
  omega

/-- A node of a ring is the bin or a block. -/
theorem null_or_placed (hy : y ∈ invalidHandle :: bins j) :
    y = 0 ∨ ∃ c, (y, c) ∈ place size s.hBottom bs :=
  (mem_cons.mp hy).imp_right fun mem => (heap.placed_of_mem mem).imp fun _ => And.left

theorem apart (hy : y = 0 ∨ ∃ c, (y, c) ∈ place size s.hBottom bs)
    (hp : p = 0 ∨ ∃ c, (p, c) ∈ place size s.hBottom bs) (ne : y ≠ p) :
    y = 0 ∨ p = 0 ∨ y + 24 ≤ p ∨ p + 24 ≤ y := by
  obtain null | ⟨_, y_placed⟩ := hy
  · exact .inl null
  obtain null | ⟨_, p_placed⟩ := hp
  · exact .inr (.inl null)
  exact .inr (.inr (heap.starts_apart y_placed p_placed ne))

/-- The nodes of two rings are apart. -/
theorem nodes_apart (hy : y ∈ invalidHandle :: bins j) (hp : p ∈ invalidHandle :: bins i) :
    y ≠ p → y = 0 ∨ p = 0 ∨ y + 24 ≤ p ∨ p + 24 ≤ y :=
  heap.apart (heap.null_or_placed hy) (heap.null_or_placed hp)

/-- A chunk is in one bin only. -/
theorem bin_unique (first : y ∈ bins i) (second : y ∈ bins j) : j = i := by
  obtain ⟨c, c_placed, -, rfl⟩ := heap.placed_of_mem first
  obtain ⟨d, d_placed, -, rfl⟩ := heap.placed_of_mem second
  rw [heap.block_unique c_placed d_placed]

/-- A node of bin `i` is no node of another bin, but for the bin itself. -/
theorem other_ring (other : j ≠ i) (hy : y ∈ invalidHandle :: bins j)
    (hp : p ∈ invalidHandle :: bins i) : ¬(y = p ∧ (p = 0 → j = i)) := by
  rintro ⟨rfl, null⟩
  rw [mem_cons] at hy hp
  obtain hp | hp := hp
  · exact other (null hp)
  obtain hy | hy := hy
  · exact other (null hy)
  · exact other (heap.bin_unique hp hy)

end

theorem mem_bin (heap : Heap s (l ++ b :: r) bins) (binned : b.kind = .binned)
    (hx : x = s.hBottom + span size l) : x ∈ bins (binIndex b.size) := by
  exact (heap.members _ x).mpr ⟨b.size, mem_freeAt.mpr ⟨b, mem_place_middle hx, binned, rfl⟩, rfl⟩

/-- A bin is empty when its head is null. -/
theorem bin_eq_nil_iff (heap : Heap s bs bins) :
    (s.ptBin i).hNextChunk = invalidHandle ↔ bins i = [] := by
  have head : (s.ptBin i).hNextChunk = (bins i).headD invalidHandle := (heap.rings i).fwd_head
  rw [head]
  cases eq : bins i with
  | nil => simp
  | cons y ys =>
    obtain ⟨c, placed, -⟩ := heap.placed_of_mem (eq ▸ mem_cons_self : y ∈ bins i)
    simpa using heap.ne_null placed

theorem bin_pre_eq_null_iff (heap : Heap s bs bins) :
    (s.ptBin i).hPreChunk = invalidHandle ↔ bins i = [] := by
  have last : (s.ptBin i).hPreChunk = (bins i).getLastD invalidHandle := (heap.rings i).bwd_head
  rw [last]
  cases eq : bins i with
  | nil => simp
  | cons y ys =>
    have mem : (y :: ys).getLastD invalidHandle ∈ bins i := by
      rw [eq, getLastD_cons]
      exact getLastD_mem_cons
    obtain ⟨c, placed, -⟩ := heap.placed_of_mem mem
    simpa using heap.ne_null placed

/-- The changes of `unlink_bin`, as changes of the two links. -/
theorem unlinkBin_eq (heap : Heap s bs bins) (mem : x ∈ bins i) :
    s.unlinkBin i x = (0, s.spliced i x) := by
  obtain ⟨c, placed, -⟩ := heap.placed_of_mem mem
  have x_ne := heap.ne_null placed
  have nonempty : bins i ≠ [] := ne_nil_of_mem mem
  obtain ⟨⟨node, pre_ne⟩, -⟩ := (heap.rings i).neighbours mem
  have apart := heap.nodes_apart (mem_cons_of_mem _ mem) node
  have pre : hPreChunk s.mem x = s.bwd i x := (bwd_of_ne x_ne).symm
  have next : hNextChunk s.mem x = s.fwd i x := (fwd_of_ne x_ne).symm
  have pre₁ : hPreChunk (s.setNextOf i (s.bwd i x) (s.fwd i x)).mem x = s.bwd i x :=
    (bwd_of_ne x_ne).symm.trans (bwd_setNextOf apart)
  have next₁ : hNextChunk (s.setNextOf i (s.bwd i x) (s.fwd i x)).mem x = s.fwd i x := by
    have := fwd_setNextOf (s := s) (i := i) (j := i) apart (next.symm.trans_lt (load_lt _ _ 8))
    rw [if_neg fun h => pre_ne h.1.symm] at this
    exact (fwd_of_ne x_ne).symm.trans this
  unfold unlinkBin
  rw [if_neg x_ne, if_neg]
  · simp only [pre, next, pre₁, next₁]
    rfl
  · rw [heap.bin_eq_nil_iff, heap.bin_pre_eq_null_iff, or_self]
    exact nonempty

/-- A block goes into a bin or out of one: its kind changes, tags stay. -/
theorem rekind {kind : Kind} {bins' : Nat → List Nat} (heap : Heap s (l ++ b :: r) bins)
    (hx : x = s.hBottom + span size l) (bottom : s'.hBottom = s.hBottom)
    (top : s'.hTop = s.hTop) (arena : s'.tSize = s.tSize)
    (tag : ∀ y c, (y, c) ∈ place size s.hBottom (l ++ b :: r) →
      ∀ j, y ≤ j → j < y + 8 → s'.mem j = s.mem j)
    (topTag : ∀ j, s.hTop ≤ j → j < s.hTop + 8 → s'.mem j = s.mem j)
    (typed : b.kind ≠ .loose)
    (behind : ∀ q rest, r = q :: rest → q.prevInUse = false →
      kind ≠ .live ∧ (kind = .binned → tPreSize s.mem (x + b.size) = b.size))
    (rings : ∀ i, LinkedRing (s'.fwd i) (s'.bwd i) invalidHandle (bins' i))
    (members : ∀ i a, a ∈ bins' i ↔
      ∃ n, (a, n) ∈ freeAt s.hBottom (l ++ { b with kind := kind } :: r) ∧ binIndex n = i)
    (bitMap : ∀ i, bins' i ≠ [] → (s'.binBitMap (i / 32)).getLsbD (i % 32) = true) :
    Heap s' (l ++ { b with kind := kind } :: r) bins' := by
  have same : Tagged s'.mem none s.hBottom (l ++ b :: r) := by
    rintro ⟨q, y, c⟩ mem
    exact (heap.tags _ mem).congr (tag y c (mem_place_of_mem_walk mem))
  refine ⟨bottom ▸ heap.aligned, bottom ▸ heap.positive, arena ▸ heap.range, ?_, ?_, ?_, ?_, ?_,
    rings, bottom ▸ members, bitMap⟩
  · rw [top, arena]
    exact heap.room
  · rw [top, bottom, heap.top]
    simp only [span_append, span_cons]
  · have sized := heap.sized
    rw [forall_mem_append, forall_mem_cons] at sized ⊢
    exact sized
  · rw [bottom]
    rw [tagged_append, tagged_cons, ← hx] at same ⊢
    obtain ⟨left, here, right⟩ := same
    refine ⟨left, ⟨fun _ => here.word typed, here.below⟩, ?_⟩
    cases r with
    | nil => exact tagged_nil
    | cons q rest =>
      rw [tagged_cons] at right ⊢
      refine ⟨⟨right.1.word, fun clear => ⟨_, rfl, (behind q rest rfl clear).1, fun free => ?_⟩⟩,
        right.2⟩
      refine Eq.trans ?_ ((behind q rest rfl clear).2 free)
      have near : ∀ j, x + b.size ≤ j → j < x + b.size + 4 → s'.mem j = s.mem j := by
        intro j low high
        refine tag (x + b.size) q ?_ j low (by omega)
        rw [place_append, place_cons, place_cons, ← hx]
        exact mem_append_right _ (mem_cons_of_mem _ mem_cons_self)
      exact tPreSize_congr near
  · rw [top, tSize_congr fun j low high => topTag j (by omega) high]
    exact heap.topTag

/-- `unlink_bin` does not write into the chunk it takes out. -/
theorem unlink_own (heap : Heap s bs bins) (mem : x ∈ bins i) (low : x ≤ j)
    (high : j < x + 24) : (s.unlinkBin i x).2.mem j = s.mem j := by
  obtain ⟨c, placed, -⟩ := heap.placed_of_mem mem
  have x_ne := heap.ne_null placed
  obtain ⟨⟨pre_node, pre_ne⟩, next_node, next_ne⟩ := (heap.rings i).neighbours mem
  have outside : ∀ p, p ∈ invalidHandle :: bins i → p ≠ x → p ≠ 0 → j < p + 8 ∨ p + 24 ≤ j := by
    intro p node ne nonnull
    have := heap.nodes_apart node (mem_cons_of_mem _ mem) ne
    have := x_ne
    unfold invalidHandle at this
    omega
  rw [heap.unlinkBin_eq mem]
  exact (mem_setPreOf (outside _ next_node next_ne)).trans (mem_setNextOf (outside _ pre_node pre_ne))

variable {ys zs : List Nat}

/-- The rings after `unlink_bin`. -/
theorem unlink_rings (heap : Heap s bs bins) (split : bins i = ys ++ x :: zs)
    (j : Nat) : LinkedRing ((s.spliced i x).fwd j) ((s.spliced i x).bwd j) invalidHandle
      (update bins i (ys ++ zs) j) := by
  have ring := heap.rings i
  rw [split] at ring
  have x_mem : x ∈ bins i := split ▸ mem_append_right ys mem_cons_self
  obtain ⟨⟨pre_node, -⟩, next_node, -⟩ := (heap.rings i).neighbours x_mem
  obtain ⟨c, placed, -⟩ := heap.placed_of_mem x_mem
  have x_ne := heap.ne_null placed
  have next_lt : s.fwd i x < 2 ^ 64 := by
    rw [fwd_of_ne x_ne]
    exact load_lt s.mem (x + 16) 8
  have pre_lt : s.bwd i x < 2 ^ 64 := by
    rw [bwd_of_ne x_ne]
    exact load_lt s.mem (x + 8) 8
  -- the links of a node of any ring
  have fwd_eq : ∀ y ∈ invalidHandle :: bins j, (s.spliced i x).fwd j y =
      if y = s.bwd i x ∧ (s.bwd i x = 0 → j = i) then s.fwd i x else s.fwd j y := by
    intro y hy
    rw [spliced, fwd_setPreOf (heap.nodes_apart hy next_node),
      fwd_setNextOf (heap.nodes_apart hy pre_node) next_lt]
  have bwd_eq : ∀ y ∈ invalidHandle :: bins j, (s.spliced i x).bwd j y =
      if y = s.fwd i x ∧ (s.fwd i x = 0 → j = i) then s.bwd i x else s.bwd j y := by
    intro y hy
    rw [spliced, bwd_setPreOf (heap.nodes_apart hy next_node) pre_lt,
      bwd_setNextOf (heap.nodes_apart hy pre_node)]
  by_cases same : j = i
  · subst same
    rw [update_self]
    refine ring.unlink.congr fun y hy => ?_
    have hy : y ∈ invalidHandle :: bins j := by
      have sub : (invalidHandle :: (ys ++ zs)).Sublist (invalidHandle :: (ys ++ x :: zs)) := by simp
      rw [split]
      exact sub.subset hy
    rw [fwd_eq y hy, bwd_eq y hy, update_apply, update_apply]
    simp only [implies_true, and_true, and_self]
  · rw [update_of_ne same]
    -- a neighbour of `x` is the bin or a chunk of bin `i`, so no chunk of bin `j`
    refine (heap.rings j).congr fun y hy => ?_
    rw [fwd_eq y hy, bwd_eq y hy, if_neg (heap.other_ring same hy pre_node),
      if_neg (heap.other_ring same hy next_node)]
    exact ⟨rfl, rfl⟩

/-- The members of the bins after a block has been taken out. -/
theorem unlink_members {kind : Kind} (heap : Heap s (l ++ b :: r) bins) (binned : b.kind = .binned)
    (unbinned : kind ≠ .binned) (hx : x = s.hBottom + span size l)
    (split : bins (binIndex b.size) = ys ++ x :: zs) (j a : Nat) :
    a ∈ update bins (binIndex b.size) (ys ++ zs) j ↔
      ∃ n, (a, n) ∈ freeAt s.hBottom (l ++ { b with kind := kind } :: r) ∧ binIndex n = j := by
  have b_size := (heap.sized b (mem_append_right l mem_cons_self)).ge
  have old : ∀ a n, (a, n) ∈ freeAt s.hBottom (l ++ b :: r) ↔
      (a, n) ∈ freeAt s.hBottom (l ++ { b with kind := kind } :: r) ∨ a = x ∧ n = b.size := by
    intro a n
    rw [freeAt_append, freeAt_append, freeAt_cons, freeAt_cons, if_pos binned, if_neg unbinned,
      ← hx]
    simp only [mem_append, mem_cons, not_mem_nil, or_false, Prod.mk.injEq, false_or]
    tauto
  have absent : ∀ n, (x, n) ∉ freeAt s.hBottom (l ++ { b with kind := kind } :: r) := by
    intro n free
    rw [freeAt_append, freeAt_cons, if_neg unbinned, nil_append, mem_append] at free
    obtain below | above := free
    · obtain ⟨c, placed, -, rfl⟩ := mem_freeAt.mp below
      have := bounds_of_mem_place placed
      have := (heap.sized c (mem_append_left _ (mem_of_mem_place placed))).ge
      omega
    · have := bounds_of_mem_select above
      simp only at this
      omega
  have distinct := (heap.rings (binIndex b.size)).nodup
  rw [split] at distinct
  by_cases same : j = binIndex b.size
  · subst same
    have := heap.members (binIndex b.size) a
    rw [split] at this
    rw [update_self]
    by_cases eq : a = x
    · subst eq
      refine iff_of_false (fun mem => ?_) fun ⟨n, free, _⟩ => absent n free
      rw [nodup_cons, nodup_middle, nodup_cons] at distinct
      exact distinct.2.1 mem
    · rw [mem_append, mem_cons] at this
      rw [mem_append]
      simp only [old, eq, false_and, or_false, false_or] at this
      exact this
  · rw [update_of_ne same, heap.members]
    refine exists_congr fun n => ?_
    rw [old]
    refine and_congr_left fun index => or_iff_left ?_
    rintro ⟨-, rfl⟩
    exact same index.symm

/-- `unlink_bin` writes links of chunks of the bin only. -/
theorem unlink_linksOnly (heap : Heap s bs bins) (mem : x ∈ bins i) :
    LinksOnly s (s.spliced i x) bs := by
  have shell : SameShell s (s.spliced i x) := sameShell_spliced
  obtain ⟨⟨pre_node, -⟩, next_node, -⟩ := (heap.rings i).neighbours mem
  refine { shell with mem := fun j outside => ?_ }
  have free : ∀ p, p ∈ invalidHandle :: bins i → p ≠ 0 → j < p + 8 ∨ p + 24 ≤ j := by
    intro p node ne
    obtain null | member := mem_cons.mp node
    · exact absurd null ne
    · obtain ⟨n, free, -⟩ := (heap.members i p).mp member
      exact outside p n free
  rw [spliced, mem_setPreOf (free _ next_node), mem_setNextOf (free _ pre_node)]

/-- A chunk is in no bin but its own, and there once. -/
theorem erase_eq (heap : Heap s (l ++ b :: r) bins)
    (hx : x = s.hBottom + span size l) (split : bins (binIndex b.size) = ys ++ x :: zs) :
    (fun j => (bins j).erase x) = update bins (binIndex b.size) (ys ++ zs) := by
  funext j
  by_cases own : j = binIndex b.size
  · subst own
    have nodup := (nodup_cons.mp (heap.rings (binIndex b.size)).nodup).2
    rw [split, nodup_middle, nodup_cons, mem_append, not_or] at nodup
    rw [update_self, split, erase_append_right _ nodup.1.1, erase_cons_head]
  · rw [update_of_ne own, erase_of_not_mem]
    intro mem
    obtain ⟨c, placed, -, index⟩ := heap.placed_of_mem mem
    exact own (heap.block_unique placed (mem_place_middle hx) ▸ index.symm)

/-- `unlink_bin` takes a block out of its bin. -/
theorem unlink (heap : Heap s (l ++ b :: r) bins) (binned : b.kind = .binned)
    (hx : x = s.hBottom + span size l) :
    Heap (s.unlinkBin (binIndex b.size) x).2 (l ++ { b with kind := .held } :: r)
        (fun j => (bins j).erase x) ∧
      LinksOnly s (s.unlinkBin (binIndex b.size) x).2 (l ++ b :: r) := by
  have mem := heap.mem_bin binned hx
  rw [heap.unlinkBin_eq mem]
  obtain ⟨ys, zs, split⟩ := append_of_mem mem
  have only := heap.unlink_linksOnly mem
  refine ⟨?_, only⟩
  rw [heap.erase_eq hx split]
  refine heap.rekind hx only.bottom only.top only.arena (fun y c placed => only.tag heap.sized placed)
    (only.topTag heap) (by simp [binned]) (fun q rest _ _ => ⟨by simp, by simp⟩)
    (heap.unlink_rings split) (heap.unlink_members binned (by simp) hx split) fun i nonempty => ?_
  rw [sameShell_spliced.bitMap]
  refine heap.bitMap i fun empty => nonempty ?_
  by_cases same : i = binIndex b.size
  · rw [same, split] at empty
    exact absurd empty (by simp)
  · rw [update_of_ne same, empty]

section
variable (heap : Heap s bs bins)
include heap

/-- The bit of an empty bin may be cleared. -/
theorem clearIfEmpty (i : Nat) : Heap (s.clearIfEmpty i) bs bins := by
  unfold PtMalloc.clearIfEmpty
  split
  case isFalse => exact heap
  case isTrue empty =>
    have nil := heap.bin_eq_nil_iff.mp (beq_iff_eq.mp empty)
    refine { heap with bitMap := fun j nonempty => ?_ }
    have ne : j ≠ i := fun eq => nonempty (eq ▸ nil)
    have old := heap.bitMap j nonempty
    unfold clearBinBitMap
    simp only [update_apply]
    split
    case isFalse => exact old
    case isTrue word =>
      rw [← word, BitVec.getLsbD_and, old, Bool.true_and, BitVec.getLsbD_not,
        BitVec.getLsbD_shiftLeft, BitVec.getLsbD_one]
      simp only [Bool.and_eq_true, decide_eq_true_eq, Bool.not_eq_true', Bool.and_eq_false_imp,
        decide_eq_false_iff_not]
      omega

/-- The changes of `link_bin`, as changes of links. -/
theorem linkBin_eq (ne : x ≠ invalidHandle) : s.linkBin i x = (0, s.pushed i x) := by
  have head : s.fwd i invalidHandle = (s.ptBin i).hNextChunk := if_pos rfl
  have next : s.setNextOf i x (s.ptBin i).hNextChunk = s.setHNextChunk x (s.ptBin i).hNextChunk :=
    if_neg ne
  have pre : (s.setHNextChunk x (s.ptBin i).hNextChunk).setPreOf i x invalidHandle =
      (s.setHNextChunk x (s.ptBin i).hNextChunk).setHPreChunk x invalidHandle := if_neg ne
  have bin : ∀ t : PtMalloc, t.setNextOf i invalidHandle x = t.setBinNext i x := fun t => if_pos rfl
  rw [pushed, head, next, pre, bin]
  unfold linkBin
  rw [if_neg ne]
  by_cases empty : (s.ptBin i).hNextChunk = invalidHandle
  · have last := heap.bin_pre_eq_null_iff.mpr (heap.bin_eq_nil_iff.mp empty)
    exact (if_neg (not_not.mpr empty)).trans (if_neg (not_not.mpr last))
  · have last : (s.ptBin i).hPreChunk ≠ invalidHandle := fun null =>
      empty (heap.bin_eq_nil_iff.mpr (heap.bin_pre_eq_null_iff.mp null))
    have same : ∀ t : PtMalloc, (t.setPreOf i (s.ptBin i).hNextChunk x).ptBin = t.ptBin := by
      intro t
      unfold setPreOf
      rw [if_neg empty]
      rfl
    refine (if_pos empty).trans (if_neg fun null => last ?_)
    exact (congrArg (fun bin => (bin i).hPreChunk) (same _)).symm.trans null

section
variable (placed : (x, b) ∈ place size s.hBottom bs) (unbinned : b.kind ≠ .binned)
include placed unbinned

/-- A used block is in no bin. -/
theorem not_mem_bin : x ∉ bins i := by
  intro mem
  obtain ⟨c, c_placed, binned, -⟩ := heap.placed_of_mem mem
  exact unbinned (heap.block_unique placed c_placed ▸ binned)

/-- The rings after `link_bin`. -/
theorem link_rings (fits : x < 2 ^ 64) (j : Nat) :
    LinkedRing ((s.pushed i x).fwd j) ((s.pushed i x).bwd j) invalidHandle
      (update bins i (x :: bins i) j) := by
  have x_ne := heap.ne_null placed
  have head_node : s.fwd i invalidHandle ∈ invalidHandle :: bins i := by
    rw [(heap.rings i).fwd_head]
    cases bins i with
    | nil => simp
    | cons y ys => simp
  have head_lt : s.fwd i invalidHandle < 2 ^ 64 := by
    obtain null | mem := mem_cons.mp head_node
    · rw [null]
      decide
    · obtain ⟨n, free, -⟩ := (heap.members i _).mp mem
      have := heap.free_bounds free
      have := heap.room
      have := heap.range
      omega
  have node : ∀ y ∈ invalidHandle :: x :: bins j,
      y = 0 ∨ ∃ c, (y, c) ∈ place size s.hBottom bs := by
    intro y hy
    rw [mem_cons, mem_cons] at hy
    obtain null | rfl | mem := hy
    · exact .inl null
    · exact .inr ⟨b, placed⟩
    · exact heap.null_or_placed (mem_cons_of_mem _ mem)
  have x_apart := fun y hy => heap.apart (node y hy) (.inr ⟨b, placed⟩)
  have head_apart := fun y hy => heap.apart (node y hy) (heap.null_or_placed head_node)
  have null_apart : ∀ y : Nat, y ≠ invalidHandle →
      y = 0 ∨ invalidHandle = 0 ∨ y + 24 ≤ invalidHandle ∨ invalidHandle + 24 ≤ y :=
    fun y _ => .inr (.inl rfl)
  have fwd_eq : ∀ y ∈ invalidHandle :: x :: bins j, (s.pushed i x).fwd j y =
      if y = invalidHandle ∧ j = i then x
      else if y = x then s.fwd i invalidHandle else s.fwd j y := by
    intro y hy
    rw [pushed, fwd_setNextOf (null_apart y) fits, fwd_setPreOf (head_apart y hy),
      fwd_setPreOf (x_apart y hy), fwd_setNextOf (x_apart y hy) head_lt]
    exact if_congr (and_congr_right fun _ => ⟨fun same => same rfl, fun same _ => same⟩) rfl
      (if_congr (and_iff_left fun null => absurd null x_ne) rfl rfl)
  have bwd_eq : ∀ y ∈ invalidHandle :: x :: bins j, (s.pushed i x).bwd j y =
      if y = s.fwd i invalidHandle ∧ (s.fwd i invalidHandle = 0 → j = i) then x
      else if y = x then invalidHandle else s.bwd j y := by
    intro y hy
    rw [pushed, bwd_setNextOf (null_apart y), bwd_setPreOf (head_apart y hy) fits,
      bwd_setPreOf (x_apart y hy) (show invalidHandle < 2 ^ 64 by decide),
      bwd_setNextOf (x_apart y hy)]
    exact if_congr Iff.rfl rfl (if_congr (and_iff_left fun null => absurd null x_ne) rfl rfl)
  have absent : ∀ k, x ∉ invalidHandle :: bins k := by
    intro k mem
    obtain null | mem := mem_cons.mp mem
    · exact x_ne null
    · exact heap.not_mem_bin placed unbinned mem
  by_cases same : j = i
  · subst same
    rw [update_self]
    refine ((heap.rings j).linkFront (absent j)).congr fun y hy => ?_
    rw [fwd_eq y hy, bwd_eq y hy]
    simp only [update_apply, and_true, implies_true, and_self]
  · rw [update_of_ne same]
    refine (heap.rings j).congr fun y hy => ?_
    have hy' : y ∈ invalidHandle :: x :: bins j := by
      rw [mem_cons] at hy
      rw [mem_cons, mem_cons]
      exact hy.imp_right .inr
    have ne : y ≠ x := fun eq => absent j (eq ▸ hy)
    rw [fwd_eq y hy', bwd_eq y hy', if_neg fun h => same h.2, if_neg ne,
      if_neg (heap.other_ring same hy head_node), if_neg ne]
    exact ⟨rfl, rfl⟩

end

/-- `link_bin` writes the links of the chunk and of chunks of the bin. -/
theorem link_mem (i x : Nat) :
    ∀ j, (j < x + 8 ∨ x + 24 ≤ j) →
      (∀ y n, (y, n) ∈ freeAt s.hBottom bs → j < y + 8 ∨ y + 24 ≤ j) →
      (s.pushed i x).mem j = s.mem j := by
  intro j outside free
  refine (mem_setNextOf fun ne => absurd rfl ne).trans ((mem_setPreOf fun ne => ?_).trans
    ((mem_setPreOf fun _ => outside).trans (mem_setNextOf fun _ => outside)))
  have head : s.fwd i invalidHandle = (bins i).headD invalidHandle := (heap.rings i).fwd_head
  cases eq : bins i with
  | nil =>
    rw [eq] at head
    exact absurd head ne
  | cons y ys =>
    rw [eq] at head
    obtain ⟨n, mem, -⟩ := (heap.members i y).mp (eq ▸ mem_cons_self)
    rw [head]
    exact free y n mem

end

/-- The members of the bins after a block has been put in. -/
theorem link_members (heap : Heap s (l ++ b :: r) bins) (unbinned : b.kind ≠ .binned)
    (hx : x = s.hBottom + span size l) (j a : Nat) :
    a ∈ update bins (binIndex b.size) (x :: bins (binIndex b.size)) j ↔
      ∃ n, (a, n) ∈ freeAt s.hBottom (l ++ { b with kind := .binned } :: r) ∧ binIndex n = j := by
  have new : ∀ a n, (a, n) ∈ freeAt s.hBottom (l ++ { b with kind := .binned } :: r) ↔
      (a, n) ∈ freeAt s.hBottom (l ++ b :: r) ∨ a = x ∧ n = b.size := by
    intro a n
    rw [freeAt_append, freeAt_append, freeAt_cons, freeAt_cons, if_pos rfl, if_neg unbinned, ← hx]
    simp only [mem_append, mem_cons, not_mem_nil, or_false, Prod.mk.injEq, false_or]
    tauto
  simp only [new, or_and_right, exists_or, ← heap.members]
  by_cases same : j = binIndex b.size
  · subst same
    rw [update_self, mem_cons, or_comm]
    refine or_congr_right ⟨fun eq => ⟨b.size, ⟨eq, rfl⟩, rfl⟩, fun ⟨n, eq, _⟩ => eq.1⟩
  · rw [update_of_ne same]
    refine (or_iff_left ?_).symm
    rintro ⟨n, ⟨-, rfl⟩, index⟩
    exact same index.symm

/-- `link_bin` puts a block into its bin. The chunk above has the size of the block if
its bit is clear. -/
theorem link (heap : Heap s (l ++ b :: r) bins) (held : b.kind = .held)
    (hx : x = s.hBottom + span size l) (footer : tPreSize s.mem (x + b.size) = b.size) :
    Heap ((s.linkBin (binIndex b.size) x).2.setBinBitMap (binIndex b.size))
        (l ++ { b with kind := .binned } :: r)
        (update bins (binIndex b.size) (x :: bins (binIndex b.size))) ∧
      LinksOnly s ((s.linkBin (binIndex b.size) x).2.setBinBitMap (binIndex b.size))
        (l ++ { b with kind := .binned } :: r) := by
  have placed : (x, b) ∈ place size s.hBottom (l ++ b :: r) := mem_place_middle hx
  have unbinned : b.kind ≠ .binned := by simp [held]
  have fits : x < 2 ^ 64 := by
    have := (bounds_of_mem_place placed).2
    have := heap.top
    have := heap.room
    have := heap.range
    omega
  rw [heap.linkBin_eq (heap.ne_null placed)]
  have shell : SameShell s (s.pushed (binIndex b.size) x) := sameShell_pushed
  have mem := heap.link_mem (binIndex b.size) x
  have rings := heap.link_rings (i := binIndex b.size) placed unbinned fits
  constructor
  · refine heap.rekind hx shell.bottom shell.top shell.arena ?_ ?_ (by simp [held])
      (fun q rest _ _ => ⟨by simp, fun _ => footer⟩) rings (heap.link_members unbinned hx) ?_
    · intro y c start j low high
      refine mem j (tag_not_link heap.sized start placed low high) fun z n free => ?_
      obtain ⟨d, d_placed, -, rfl⟩ := mem_freeAt.mp free
      exact tag_not_link heap.sized start d_placed low high
    · intro j low high
      refine mem j (heap.topTag_not_link placed low) fun z n free => ?_
      obtain ⟨d, d_placed, -, rfl⟩ := mem_freeAt.mp free
      exact heap.topTag_not_link d_placed low
    · intro j nonempty
      have j_lt := Nat.mod_lt j (show 0 < 32 by decide)
      unfold setBinBitMap
      rw [shell.bitMap]
      simp only [update_apply]
      by_cases same : j = binIndex b.size
      · rw [if_pos (by rw [same]), ← same]
        simp [j_lt]
      · rw [update_of_ne same] at nonempty
        split
        case isFalse => exact heap.bitMap j nonempty
        case isTrue word => rw [← word, BitVec.getLsbD_or, heap.bitMap j nonempty, Bool.true_or]
  · refine { shell with mem := fun j outside => ?_ }
    refine mem j (outside x b.size ?_) fun y n free => outside y n ?_
    · rw [freeAt_append, freeAt_cons, if_pos rfl, ← hx]
      simp
    · rw [freeAt_append, freeAt_cons, if_neg unbinned, nil_append, mem_append] at free
      rw [freeAt_append, freeAt_cons, mem_append, mem_append]
      exact free.imp_right .inr

end Heap

end Dtc.Mem
