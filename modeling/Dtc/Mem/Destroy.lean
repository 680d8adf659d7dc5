import Dtc.Mem.Run

/-!
# What a chunk would give back

`ask_for_destroy_size` predicts how large a request could be served if a chunk were freed: the
chunk is joined with its free neighbours and, at the end of the heap, with the top. `Malloc` serves a
request from the bins or from the top, which it never uses up: `top_alloc` asks for more than
`MINSIZE` bytes to be left over. The prediction counts on all of them but `MINSIZE`, so that at the top
the largest requests it allows fail unless some other free chunk serves them.
-/

namespace Dtc.Mem

open Library Memory Tiling List PtMalloc

namespace PtMalloc

/-- Where the free space begins after a chunk is freed: `physic_handle` in `ask_for_destroy_size`. -/
def joinedStart (s : PtMalloc) (hHandle : Nat) : Nat :=
  let chunk := hHandle - 8
  let pre := tPreSize s.mem chunk
  if !prevInuse s.mem chunk ∧ canCombile (Mem.chunkSize s.mem chunk) pre then chunk - pre else chunk

/-- `ask_for_destroy_size`; 0 if the handle is turned down. -/
def askForDestroySize (s : PtMalloc) (hHandle : Nat) : Nat × PtMalloc :=
  let error := (0, s.fail "found invalid handle, can't destroy")
  if invalidHandle = hHandle ∨ s.tSize ≤ hHandle then error
  else
    let chunk := hHandle - 8
    let size := Mem.chunkSize s.mem chunk
    if s.tSize < chunk + size then error
    else if !prevInuse s.mem (chunk + size) then error
    else if chunk % 8 ≠ 0 then error
    else if (s.checkInuseChunk chunk).1 ≠ 0 then error
    else
      let pre := tPreSize s.mem chunk
      let start := s.joinedStart hHandle
      let size := if !prevInuse s.mem chunk ∧ canCombile size pre then size + pre else size
      let next := start + size
      let add := Mem.chunkSize s.mem next
      if next ≠ s.hTop ∧ add < minSize then error
      else
        let size :=
          if next ≠ s.hTop ∧ !prevInuse s.mem (next + add) ∧ canCombile size add then size + add
          else size
        -- the space up to the end of the arena is cut off to 32 bits
        let size :=
          if start + size = s.hTop then
            max size ((s.tSize + 2 ^ 64 - s.hTop - minSize + size) % 2 ^ 32)
          else size
        (chunksize2memsize size, s)

/-- A chunk that `inter_malloc` takes for the size from the bins. -/
def Holds (s : PtMalloc) (chunks : Nat → List Nat) (size : Nat) : Prop :=
  (if inSmallbinRange size then chunks (binIndex size) ≠ []
    else ∃ x ∈ (chunks (binIndex size)).take 99, size ≤ Mem.chunkSize s.mem x) ∨
    ∃ i, i < nBins ∧ binIndex size < i ∧ chunks i ≠ []

/-- The chunks of a bin without the one that is joined with the chunk. -/
def otherChunks (s : PtMalloc) (hHandle i : Nat) : List Nat :=
  (follow (s.fwd i) invalidHandle s.tSize (s.ptBin i).hNextChunk).erase (s.joinedStart hHandle)

end PtMalloc

section Served
variable {s : PtMalloc} {bs : List Block} {bins : Nat → List Nat} {n i j k : Nat}

/-- A non-empty bin is not skipped with its word of the bit map. -/
theorem skipWords_le {fuel word : Nat} (le : word ≤ j / 32) (marked : s.binBitMap (j / 32) ≠ 0) :
    s.skipWords fuel word (word * 32) ≤ j := by
  induction fuel generalizing word with
  | zero =>
    rw [skipWords]
    omega
  | succ fuel ih =>
    rw [skipWords]
    by_cases zero : word < 16 ∧ s.binBitMap word = 0
    · rw [if_pos zero, show word * 32 + 32 = (word + 1) * 32 by omega]
      have other : word ≠ j / 32 := fun eq => marked (eq ▸ zero.2)
      exact ih (by omega)
    · rw [if_neg zero]
      omega

theorem skipBins_le {fuel : Nat} (le : k ≤ j) (nonempty : s.emptyBin j = false) :
    s.skipBins fuel k ≤ j := by
  induction fuel generalizing k with
  | zero => exact le
  | succ fuel ih =>
    rw [skipBins]
    by_cases skip : k < nBins ∧ s.emptyBin k
    · rw [if_pos skip]
      have other : k ≠ j := fun eq => by
        rw [eq, nonempty] at skip
        exact absurd skip.2 (by simp)
      exact ih (by omega)
    · rw [if_neg skip]
      exact le

/-- The next bin is found. -/
theorem searchNextBin_le (heap : Heap s bs bins) (lt : k < j) (some : bins j ≠ []) :
    s.searchNextBin k ≤ j := by
  have nonempty : s.emptyBin j = false := by
    unfold emptyBin
    rw [beq_eq_false_iff_ne]
    exact fun null => some (heap.bin_eq_nil_iff.mp null)
  have marked : s.binBitMap (j / 32) ≠ 0 := fun zero => by
    have := heap.bitMap j some
    rw [zero] at this
    exact absurd this (by simp)
  refine skipBins_le ?_ nonempty
  by_cases zero : s.binBitMap ((k + 1) / 32) = 0
  · rw [if_pos zero]
    have other : (k + 1) / 32 ≠ j / 32 := fun eq => marked (eq ▸ zero)
    exact skipWords_le (by omega) marked
  · rw [if_neg zero]
    exact lt

/-- When a request is served from a later bin or from the top. -/
theorem mallocNextBin_iff (heap : Heap s bs bins) : (s.mallocNextBin n).1 ≠ invalidHandle ↔
    (∃ i, i < nBins ∧ binIndex n < i ∧ bins i ≠ []) ∨ s.hTop + n + minSize < s.tSize := by
  obtain ⟨later, nonempty⟩ := searchNextBin_spec (s := s) (binIndex n)
  unfold mallocNextBin
  by_cases none : nBins ≤ s.searchNextBin (binIndex n)
  · have empty : ¬∃ i, i < nBins ∧ binIndex n < i ∧ bins i ≠ [] := by
      rintro ⟨i, lt, behind, some⟩
      have := searchNextBin_le heap behind some
      omega
    simp only [if_pos none, empty, false_or]
    unfold topAlloc
    by_cases full : s.tSize ≤ s.hTop + n + minSize
    · rw [if_pos full]
      simp [full]
    · rw [if_neg full]
      simp [invalidHandle, not_le.mp full]
  · have lt := not_le.mp none
    obtain ⟨x, found, mem, -⟩ := searchBack_spec heap later (nonempty lt)
    simp only [if_neg none, found]
    refine iff_of_true (by simp [invalidHandle]) (.inl ⟨_, lt, later, ?_⟩)
    exact ne_nil_of_mem mem

/-- The members of a bin are chunks of the arena, so there are not more of them than bytes. -/
theorem Heap.length_le (heap : Heap s bs bins) (i : Nat) : (bins i).length ≤ s.tSize := by
  have nodup := (nodup_cons.mp (heap.rings i).nodup).2
  have inside : bins i ⊆ List.range s.tSize := by
    intro x mem
    obtain ⟨n, free, -⟩ := (heap.members i x).mp mem
    have := heap.free_bounds free
    have := heap.room
    exact List.mem_range.mpr (by omega)
  have le := (nodup.subperm inside).length_le
  rw [length_range] at le
  exact le

/-- The first chunks of a bin. -/
theorem searchBin_eq {count fuel v : Nat} (le : count ≤ fuel) : s.searchBin n count v =
    ((follow (s.fwd i) invalidHandle fuel v).take count).find? fun x => n ≤ chunkSize s.mem x := by
  induction count generalizing fuel v with
  | zero => rfl
  | succ count ih =>
    obtain ⟨fuel, rfl⟩ : ∃ k, fuel = k + 1 := ⟨fuel - 1, by omega⟩
    rw [searchBin, follow]
    by_cases null : v = invalidHandle
    · simp [if_pos null]
    · rw [if_neg null, if_neg null, take_succ_cons, find?_cons, fwd_of_ne null]
      by_cases large : n ≤ chunkSize s.mem v
      · simp [large]
      · simp [large, ih (Nat.le_of_succ_le_succ le)]

theorem searchBin_isSome (heap : Heap s bs bins) (i : Nat) :
    (s.searchBin n 99 (s.ptBin i).hNextChunk).isSome ↔
      ∃ x ∈ (bins i).take 99, n ≤ chunkSize s.mem x := by
  have members := (heap.rings i).follow_eq (le_trans (heap.length_le i) (Nat.le_add_left _ 99))
  have head : (s.ptBin i).hNextChunk = s.fwd i invalidHandle := rfl
  rw [searchBin_eq (Nat.le_add_right 99 s.tSize), head, members, find?_isSome]
  simp

theorem smallBinMalloc_fst : (s.smallBinMalloc n).1 = (s.ptBin (smallbinIndex n)).hNextChunk := by
  unfold smallBinMalloc binMalloc
  by_cases null : (s.ptBin (smallbinIndex n)).hNextChunk = invalidHandle
  · simp only [if_pos null]
    exact null.symm
  · simp only [if_neg null]

theorem smallBinMalloc_snd (null : (s.ptBin (smallbinIndex n)).hNextChunk = invalidHandle) :
    (s.smallBinMalloc n).2 = s.clearIfEmpty (smallbinIndex n) := by
  unfold smallBinMalloc binMalloc
  simp only [if_pos null]

/-- When a request is served. -/
theorem interMalloc_iff (heap : Heap s bs bins) (req : Nat) :
    (s.interMalloc req).1 ≠ invalidHandle ↔ requestOutOfRange req = false ∧
      (s.Holds bins (request2size req) ∨ s.hTop + request2size req + minSize < s.tSize) := by
  unfold PtMalloc.interMalloc PtMalloc.Holds
  by_cases range : requestOutOfRange req
  · simp [range]
  rw [if_neg range, Bool.eq_false_iff.mpr range, eq_self, true_and]
  generalize request2size req = n
  by_cases small : inSmallbinRange n
  · have index : smallbinIndex n = binIndex n := (if_pos small).symm
    rw [if_pos small, if_pos small]
    dsimp only
    rw [smallBinMalloc_fst]
    by_cases nil : bins (binIndex n) = []
    · have null := heap.bin_eq_nil_iff.mpr (index ▸ nil : bins (smallbinIndex n) = [])
      rw [if_neg (not_not.mpr null), smallBinMalloc_snd null,
        mallocNextBin_iff (heap.clearIfEmpty _)]
      have top : (s.clearIfEmpty (smallbinIndex n)).hTop = s.hTop := by
        unfold clearIfEmpty
        split <;> rfl
      have arena : (s.clearIfEmpty (smallbinIndex n)).tSize = s.tSize := by
        unfold clearIfEmpty
        split <;> rfl
      simp [nil, top, arena]
    · have some : (s.ptBin (smallbinIndex n)).hNextChunk ≠ invalidHandle := fun null =>
        nil (index ▸ heap.bin_eq_nil_iff.mp null)
      rw [if_pos some]
      exact iff_of_true (by simp [invalidHandle]) (.inl (.inl nil))
  · rw [if_neg small, if_neg small, ← searchBin_isSome heap]
    cases s.searchBin n 99 (s.ptBin (binIndex n)).hNextChunk with
    | none => simp [mallocNextBin_iff heap]
    | some x => exact iff_of_true (by simp [invalidHandle]) (.inl (.inl rfl))

end Served

section Destroy
variable {s : PtMalloc} {U : List (Nat × Nat)} {x y m n : Nat} {l l' r r' r₁ : List Block} {b c : Block}
  {bins bins' bins₁ bins₂ : Nat → List Nat}

/-- A live chunk is in no bin. -/
theorem Located.not_mem (located : Located s U x l b r bins) (i : Nat) : x ∉ bins i :=
  located.heap.not_mem_bin (located.heap.placed located.address) (by simp [located.live])

/-- What is joined below a live chunk, as the code tests it. -/
theorem Located.joined_below (located : Located s U x l b r bins)
    (below : JoinsBelow s.hBottom l b bins l' c bins') :
    s.joinedStart (x + 8) = s.hBottom + span Block.size l' ∧
      (if !prevInuse s.mem x ∧ canCombile b.size (tPreSize s.mem x) then
        b.size + tPreSize s.mem x else b.size) = c.size ∧
      s.hBottom + span Block.size l' + c.size = x + b.size ∧
      (∀ i, bins' i = (bins i).erase (s.joinedStart (x + 8))) ∧ l' <+: l := by
  have word := (located.heap.tag_of located.address).word (by simp [located.live])
  have hx := located.address
  unfold joinedStart
  dsimp only
  rw [Nat.add_sub_cancel, word.1, word.2]
  cases below with
  | @join _ _ p _ clear fits binned =>
    obtain ⟨q, last, -, size⟩ := (located.heap.tag_of hx).below clear
    rw [lastOr_concat, Option.some.injEq] at last
    subst last
    rw [size binned]
    have joins : !b.prevInUse ∧ canCombile b.size p.size := by simp [clear, fits]
    simp only [span_append, span_cons, span_nil] at hx
    have start : x - p.size = s.hBottom + span Block.size l' := by omega
    rw [if_pos joins, if_pos joins, start]
    exact ⟨rfl, Nat.add_comm _ _, by simp only; omega, fun i => rfl, prefix_append l' [p]⟩
  | stay apart =>
    have alone : ¬(!b.prevInUse ∧ canCombile b.size (tPreSize s.mem x)) := by
      rintro ⟨clear, joins⟩
      rw [Bool.not_eq_true'] at clear
      obtain ⟨l₀, p, eq, binned, size⟩ := located.heap.binned_below hx located.below clear
      rw [size, apart l₀ p eq clear] at joins
      exact absurd joins (by simp)
    rw [if_neg alone, if_neg alone]
    refine ⟨hx, rfl, by rw [hx], fun i => ?_, prefix_refl l⟩
    rw [erase_of_not_mem (located.not_mem i)]

/-- The tags of the block above a live chunk. -/
theorem Located.tags_above {q : Block} {rest : List Block}
    (located : Located s U x l b (q :: rest) bins) :
    24 ≤ q.size ∧ chunkSize s.mem (x + b.size) = q.size ∧
      prevInuse s.mem (x + b.size + q.size) = bitAbove rest ∧ x + b.size + q.size ≤ s.hTop ∧
      (rest ≠ [] → x + b.size + q.size < s.hTop) := by
  have heap := located.heap.shift
  have next : x + b.size = s.hBottom + span Block.size (l ++ [b]) := start_concat located.address
  obtain ⟨-, above⟩ := settled_cons.mp located.above
  have top := heap.top
  rw [span_append, span_cons] at top
  refine ⟨heap.sized_of.ge, ?_, bit_above heap next above, by omega, fun some => ?_⟩
  · exact ((heap.tag_of next).word (located.above.typed mem_cons_self)).1
  · obtain ⟨q', rest', rfl⟩ := exists_cons_of_ne_nil some
    have q'_min := (heap.sized q' (by simp)).ge
    rw [span_cons] at top
    omega

/-- The prediction for a chunk that is not the last one. -/
theorem Located.ask_eq (located : Located s U x l b r bins) (some : r ≠ [])
    (below : JoinsBelow s.hBottom l b bins l' c bins₁)
    (above : JoinsAbove y c.size r bins₁ n r₁ bins₂) :
    (s.askForDestroySize (x + 8)).1 = n - 4 ∧ r₁ ≠ [] := by
  obtain ⟨start, size, finish, -, -⟩ := located.joined_below below
  have word := (located.heap.tag_of located.address).word (by simp [located.live])
  obtain ⟨inuse, checked⟩ := checkInuseChunk_live located.heap located.address located.live
    located.binned_below located.above
  obtain ⟨k_min, bottom, top, room, aligned⟩ := located.owns.bounds
  unfold askForDestroySize
  rw [if_neg (by simp only [invalidHandle]; omega)]
  simp only [Nat.add_sub_cancel, word.1, start, size, finish]
  rw [if_neg (by omega), inuse, if_neg (by simp), if_neg (by omega), checked, if_neg (by simp)]
  obtain ⟨q, rest, rfl⟩ := exists_cons_of_ne_nil some
  obtain ⟨q_min, next, bit, notTop, inside⟩ := located.tags_above
  have below_top : x + b.size ≠ s.hTop := by omega
  rw [next, bit, if_neg fun small => absurd small.2 (not_lt.mpr q_min)]
  cases above with
  | join clear fits binned =>
    have some : r₁ ≠ [] := by
      rintro rfl
      exact absurd clear (by simp [bitAbove])
    have := inside some
    have joins : x + b.size ≠ s.hTop ∧ !bitAbove r₁ ∧ canCombile c.size q.size :=
      ⟨below_top, by simp [clear], fits⟩
    simp only [if_pos joins]
    rw [if_neg (by omega)]
    exact ⟨rfl, some⟩
  | stay apart =>
    have alone : ¬(x + b.size ≠ s.hTop ∧ !bitAbove rest ∧ canCombile c.size q.size) := by
      rintro ⟨-, clear, fits⟩
      rw [Bool.not_eq_true'] at clear
      rw [apart q rest rfl clear] at fits
      exact absurd fits (by simp)
    simp only [if_neg alone]
    rw [if_neg (by omega)]
    exact ⟨rfl, cons_ne_nil q rest⟩

theorem binIndex_lt (fits : n < 2 ^ 32) : binIndex n < nBins := by
  have := binIndex_mono (show n ≤ 2 ^ 32 - 1 by omega)
  have : binIndex (2 ^ 32 - 1) < nBins := by decide
  omega

theorem request2size_le (aligned : 8 ∣ m) (min : minSize ≤ m) (le : n ≤ m - 4) :
    request2size n ≤ m := by
  unfold request2size
  unfold minSize at *
  split <;> omega

theorem holds_congr {s' : PtMalloc} {chunks chunks' : Nat → List Nat}
    (same : ∀ i, chunks i = chunks' i)
    (sizes : ∀ i x, x ∈ chunks i → chunkSize s.mem x = chunkSize s'.mem x) :
    s.Holds chunks n ↔ s'.Holds chunks' n := by
  obtain rfl : chunks = chunks' := funext same
  refine or_congr ?_ Iff.rfl
  split
  · exact Iff.rfl
  · refine exists_congr fun x => and_congr_right fun mem => ?_
    rw [sizes _ x (mem_of_mem_take mem)]

theorem Heap.size_of_place {bs : List Block} (heap : Heap s bs bins)
    (placed : (x, b) ∈ place Block.size s.hBottom bs) (binned : b.kind = .binned) :
    chunkSize s.mem x = b.size := by
  obtain ⟨l, r, rfl, hx⟩ := split_of_mem_place placed
  exact ((heap.tag_of hx).word (by simp [binned])).1

/-- The chunk that was just freed serves every request it is large enough for. -/
theorem holds_of_head (fits : m < 2 ^ 32) (size : chunkSize s.mem x = m) (le : n ≤ m)
    (head : ∃ rest, bins (binIndex m) = x :: rest) : s.Holds bins n := by
  obtain ⟨rest, eq⟩ := head
  obtain lt | same := Nat.lt_or_eq_of_le (binIndex_mono le)
  · exact .inr ⟨binIndex m, binIndex_lt fits, lt, by simp [eq]⟩
  · left
    rw [same, eq]
    split
    · simp
    · exact ⟨x, by simp, size ▸ le⟩

section
variable (located : Located s U x l b r bins)
include located

/-- When the request is served after the chunk is freed; the counters do not matter. -/
theorem Located.destroy_iff {t : PtMalloc}
    (agree : Agree (s.interFree (x + 8)).2.2 t) (same : t.mem = (s.interFree (x + 8)).2.2.mem)
    (le : r ≠ [] → n ≤ (s.askForDestroySize (x + 8)).1) :
    (t.interMalloc n).1 ≠ invalidHandle ↔
      requestOutOfRange n = false ∧ (x + b.size ≠ s.hTop ∨
        s.joinedStart (x + 8) + request2size n + minSize < s.tSize ∨
        s.Holds (s.otherChunks (x + 8)) (request2size n)) := by
  obtain ⟨l', y, c, r', bins', -, -, hy, sum, -, -, released, bins₁, m, r₁, bins₂, below, above, puts⟩ :=
    interFree_spec located.heap located.address located.live located.binned_below located.above
  obtain ⟨start, -, finish, erased, lower⟩ := located.joined_below below
  have heap := released.heap.of_agree agree same
  have arena := agree.arena.trans released.frame.arena
  have bottom := agree.bottom.trans released.frame.bottom
  rw [interMalloc_iff heap]
  refine and_congr_right fun range => ?_
  by_cases last : r = []
  · subst last
    have top := located.top_eq
    cases above with
    | stay apart =>
      cases puts with
      | top =>
        rw [append_nil] at heap
        have top' : t.hTop = s.joinedStart (x + 8) := by
          rw [heap.top, bottom, start]
        have other : ∀ i, bins' i = s.otherChunks (x + 8) i := fun i => by
          have members := (located.heap.rings i).follow_eq (located.heap.length_le i)
          rw [erased i, ← members]
          rfl
        have sizes : ∀ i z, z ∈ bins' i →
            chunkSize t.mem z = chunkSize s.mem z := by
          intro i z mem
          obtain ⟨e, placed, binned, -⟩ := heap.placed_of_mem mem
          obtain ⟨upper, rfl⟩ := lower
          have placed' : (z, e) ∈ place Block.size s.hBottom (l' ++ upper ++ [b]) := by
            rw [place_append, place_append, ← bottom]
            exact mem_append_left _ (mem_append_left _ placed)
          rw [heap.size_of_place placed binned, located.heap.size_of_place placed' binned]
        rw [top', arena, or_comm, holds_congr other sizes]
        simp [top]
  · obtain ⟨q, rest, rfl⟩ := exists_cons_of_ne_nil last
    obtain ⟨q_min, -, -, inside, -⟩ := located.tags_above
    obtain ⟨ask, some⟩ := located.ask_eq last below above
    refine iff_of_true (.inl ?_) (.inl (by omega))
    cases puts with
    | top => exact absurd rfl some
    | bin =>
      have sized := heap.sized_of
      have word := (heap.tag_of (bottom ▸ hy)).word (by simp)
      have le := le last
      rw [ask] at le
      refine holds_of_head sized.fits word.1 (request2size_le sized.aligned sized.min le) ?_
      exact ⟨_, Function.update_self _ _ _⟩

/-- The same for the public calls. -/
theorem Located.free_malloc_iff (le : r ≠ [] → n ≤ (s.askForDestroySize (x + 8)).1) :
    ((s.free (x + 8)).2.malloc n).1 ≠ invalidHandle ↔ requestOutOfRange n = false ∧
      (x + b.size ≠ s.hTop ∨ s.joinedStart (x + 8) + request2size n + minSize < s.tSize ∨
        s.Holds (s.otherChunks (x + 8)) (request2size n)) := by
  have handle : ∀ t : PtMalloc,
      (t.malloc n).1 = (interMalloc { t with tLastFreeChunkSize := 0 } n).1 := fun _ => rfl
  have freed : (s.free (x + 8)).2 =
      (s.interFree (x + 8)).2.2.countFree (s.interFree (x + 8)).2.1 := by
    unfold free
    simp only [located.owns.interFree.1, if_true]
  rw [handle, freed]
  generalize (s.interFree (x + 8)).2.1 = size
  exact located.destroy_iff ((agree_countFree size).trans agree_reset) (mem_countFree size) le

/-- A chunk gives back at least itself. -/
theorem Located.le_ask (some : r ≠ []) : b.size - 4 ≤ (s.askForDestroySize (x + 8)).1 := by
  obtain ⟨l', y, c, r', bins', -, -, -, -, -, -, -, bins₁, m, r₁, bins₂, below, above, -⟩ :=
    interFree_spec located.heap located.address located.live located.binned_below located.above
  rw [(located.ask_eq some below above).1]
  have lower : b.size ≤ c.size := by
    cases below with
    | join => exact Nat.le_add_left _ _
    | stay => exact le_rfl
  have upper : c.size ≤ m := by
    cases above with
    | join => exact Nat.le_add_right _ _
    | stay => exact le_rfl
  omega

end

end Destroy

/-- A request within the prediction succeeds after the chunk is freed, unless it is out of range, or
the chunk ends at the top, at most `MINSIZE` bytes would be left there, and no other free chunk serves
the request. -/
theorem destroy_serves_iff {s : PtMalloc} {live : List Nat} {h n : Nat} (wf : WellFormed s live)
    (mem : h ∈ live) (le : n ≤ (s.askForDestroySize h).1) :
    ((s.free h).2.malloc n).1 ≠ invalidHandle ↔ requestOutOfRange n = false ∧
      (h - 8 + chunkSize s.mem (h - 8) ≠ s.hTop ∨
        s.joinedStart h + request2size n + minSize < s.tSize ∨
        s.Holds (s.otherChunks h) (request2size n)) := by
  obtain ⟨x, k, U, rfl, owns, -⟩ := wf.chunk mem
  obtain ⟨l, b, r, bins, rfl, located⟩ := owns.locate
  rw [Nat.add_sub_cancel, owns.checked.1]
  exact located.free_malloc_iff fun _ => le

/-- A chunk between others. -/
def framedWorld : World :=
  Machine.final World.step (World.init (fun _ => 0) 65536) [.malloc 100, .malloc 200]

theorem destroy_serves_framed :
    ((framedWorld.heap.free 8216).2.malloc 100).1 ≠ invalidHandle := by
  have wf : WellFormed framedWorld.heap framedWorld.live :=
    (wellFormed_init (by decide +kernel) (by decide +kernel)).run (by decide +kernel)
  refine (destroy_serves_iff wf (by decide +kernel) (by decide +kernel)).mpr ⟨by decide +kernel, ?_⟩
  exact .inl (by decide +kernel)

/-- One chunk, at the top. -/
def lastWorld : World :=
  Machine.final World.step (World.init (fun _ => 0) 65536) [.malloc 100]

theorem destroy_not_serves :
    WellFormed lastWorld.heap lastWorld.live ∧ 8216 ∈ lastWorld.live ∧
      57300 ≤ (lastWorld.heap.askForDestroySize 8216).1 ∧
      ((lastWorld.heap.free 8216).2.malloc 57300).1 = invalidHandle :=
  ⟨(wellFormed_init (by decide +kernel) (by decide +kernel)).run (by decide +kernel),
    by decide +kernel, by decide +kernel, by decide +kernel⟩

end Dtc.Mem
