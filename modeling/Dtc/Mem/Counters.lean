import Dtc.Mem.Run

/-!
# What the calls answer and count

`m_tUserAllocChunkCnt` counts the live chunks and `m_tUserAllocSize` adds up their sizes, beginning
with the head of the arena. Only the public calls change the two counters; everything below them
works on the arena and the bins. A handle that is turned down leaves all of it as it was.
-/

namespace Dtc.Mem

open Library Memory Tiling List PtMalloc World

namespace PtMalloc

/-- `m_tUserAllocSize` and `m_tUserAllocChunkCnt`. -/
def counters (s : PtMalloc) : Nat × Nat := (s.tUserAllocSize, s.tUserAllocChunkCnt)

/-- The counters, and what else `get_min_chunk_size` depends on. -/
def books (s : PtMalloc) : (Nat × Nat) × Int × Nat := (s.counters, s.statChunkTotal, s.minChunkSize)

/-! ### The counters below the public calls -/

section Counters
variable {s : PtMalloc} {i chunk size value : Nat}

@[simp] theorem books_fail {message : String} : (s.fail message).books = s.books := rfl

@[simp] theorem books_setTPreSize : (s.setTPreSize chunk value).books = s.books := rfl

@[simp] theorem books_setTSize : (s.setTSize chunk value).books = s.books := rfl

@[simp] theorem books_setInuseBit : (s.setInuseBit chunk).books = s.books := rfl

@[simp] theorem books_setSize : (s.setSize chunk size).books = s.books := rfl

@[simp] theorem books_setPresize : (s.setPresize chunk size).books = s.books := rfl

@[simp] theorem books_setNextOf : (s.setNextOf i chunk value).books = s.books := by
  unfold setNextOf
  split <;> rfl

@[simp] theorem books_setPreOf : (s.setPreOf i chunk value).books = s.books := by
  unfold setPreOf
  split <;> rfl

@[simp] theorem books_setBinNext : (s.setBinNext i value).books = s.books := rfl

@[simp] theorem books_setBinBitMap : (s.setBinBitMap i).books = s.books := rfl

@[simp] theorem books_clearIfEmpty : (s.clearIfEmpty i).books = s.books := by
  unfold clearIfEmpty
  split <;> rfl

@[simp] theorem books_unlinkBin : (s.unlinkBin i chunk).2.books = s.books := by
  unfold unlinkBin
  split_ifs <;> simp

@[simp] theorem books_linkBin : (s.linkBin i chunk).2.books = s.books := by
  have start : ((s.setHNextChunk chunk (s.ptBin i).hNextChunk).setHPreChunk chunk
      invalidHandle).books = s.books := rfl
  unfold linkBin
  dsimp only
  split_ifs <;> simp [start]

@[simp] theorem books_checkInuseChunk : (s.checkInuseChunk chunk).2.books = s.books := by
  unfold checkInuseChunk
  split_ifs <;> rfl

@[simp] theorem books_combinePrev : (s.combinePrev chunk size).2.2.books = s.books := by
  unfold combinePrev
  dsimp only
  split_ifs <;> simp

theorem books_combineNext {n : Nat} {s' : PtMalloc} (ok : s.combineNext chunk size = .ok (n, s')) :
    s'.books = s.books := by
  unfold combineNext at ok
  dsimp only at ok
  split_ifs at ok <;> obtain ⟨-, rfl⟩ := Prod.mk.inj (Except.ok.inj ok) <;> simp

@[simp] theorem books_putChunk : (s.putChunk chunk size).books = s.books := by
  unfold putChunk
  dsimp only
  split_ifs
  · rfl
  · unfold putBin
    simp only [books_setBinBitMap, books_linkBin]
    rfl

@[simp] theorem books_releaseChunk : (s.releaseChunk chunk size).2.books = s.books := by
  unfold releaseChunk
  dsimp only
  split
  · simp
  · rename_i ok
    simp [books_combineNext ok]

@[simp] theorem books_interFree : (s.interFree chunk).2.2.books = s.books := by
  unfold interFree
  dsimp only
  split_ifs <;> simp

@[simp] theorem books_topAlloc : (s.topAlloc size).2.books = s.books := by
  unfold topAlloc
  split_ifs <;> rfl

@[simp] theorem books_carveChunk : (s.carveChunk i chunk size).books = s.books := by
  unfold carveChunk
  dsimp only
  split_ifs <;> simp

@[simp] theorem books_mallocNextBin : (s.mallocNextBin size).2.books = s.books := by
  unfold mallocNextBin
  dsimp only
  split_ifs
  · simp
  · split <;> simp

@[simp] theorem books_smallBinMalloc : (s.smallBinMalloc size).2.books = s.books := by
  unfold smallBinMalloc binMalloc
  dsimp only
  split_ifs <;> simp

@[simp] theorem books_interMalloc : (s.interMalloc size).2.books = s.books := by
  unfold interMalloc
  dsimp only
  split_ifs
  · rfl
  · simp
  · simp
  · split <;> simp

@[simp] theorem books_splitRemainder (fuel : Nat) :
    (splitRemainder fuel s chunk size).books = s.books := by
  induction fuel generalizing s chunk size with
  | zero => rfl
  | succ fuel ih =>
    rw [splitRemainder]
    generalize (if maxAllocSize < size then
        if minSize ≤ size - maxAllocSize then realSize maxAllocSize
        else realSize (size - minSize)
      else size) = this
    split
    · rw [ih, books_interFree]
      rfl
    · rw [books_interFree]
      rfl

@[simp] theorem books_settle {newSize preSize : Nat} {preInUse : Bool} :
    (s.settle chunk newSize size preInUse preSize).2.books = s.books := by
  have retagged : ∀ (s : PtMalloc) n, (s.retag chunk n preInUse preSize).books = s.books := by
    intro s n
    cases preInUse <;> rfl
  unfold settle
  dsimp only
  split_ifs <;> simp [retagged]

@[simp] theorem books_enlarge {oldSize req : Nat} :
    (s.enlarge chunk oldSize size req).2.books = s.books := by
  have moved : ∀ (s : PtMalloc) (m : Nat → UInt8), books { s with mem := m } = s.books :=
    fun _ _ => rfl
  unfold enlarge
  dsimp only
  split_ifs
  · rfl
  · simp
  · simp [moved]
  · simp
  · simp [moved]

@[simp] theorem books_interReAlloc {req : Nat} :
    (s.interReAlloc chunk req).2.2.books = s.books := by
  unfold interReAlloc
  dsimp only
  split_ifs <;> simp

/-! ### The counters of the public calls -/

theorem counters_malloc {req : Nat} : (s.malloc req).2.counters =
    if (s.malloc req).1 = invalidHandle then s.counters
    else ((s.tUserAllocSize + Mem.chunkSize (s.malloc req).2.mem ((s.malloc req).1 - 8)) % 2 ^ 64,
      (s.tUserAllocChunkCnt + 1) % 2 ^ 64) := by
  have same : (interMalloc { s with tLastFreeChunkSize := 0 } req).2.counters = s.counters :=
    congrArg Prod.fst books_interMalloc
  unfold malloc
  generalize interMalloc { s with tLastFreeChunkSize := 0 } req = t at same ⊢
  obtain ⟨size, cnt⟩ := Prod.mk.inj same
  dsimp only
  by_cases null : t.1 = invalidHandle
  · rw [if_neg (not_not.mpr null), if_pos null]
    exact same
  · rw [if_pos null, if_neg null, ← size, ← cnt]
    rfl

theorem getMinChunkSize_countFree {s' : PtMalloc} (same : s'.books = s.books) (n : Nat) :
    (s'.countFree n).getMinChunkSize = (s.countFree n).getMinChunkSize := by
  cases s
  cases s'
  simp only [books, counters, Prod.mk.injEq] at same
  obtain ⟨⟨rfl, rfl⟩, rfl, rfl⟩ := same
  simp only [countFree, getMinChunkSize]
  split_ifs <;> rfl

/-- The smallest rest of a chunk once a chunk is freed. -/
theorem getMinChunkSize_free {h : Nat} (ok : (s.free h).1 = 0) :
    (s.free h).2.getMinChunkSize = (s.countFree (s.interFree h).2.1).getMinChunkSize := by
  have freed : (s.free h).2 = (s.interFree h).2.2.countFree (s.interFree h).2.1 := if_pos ok
  rw [freed, getMinChunkSize_countFree books_interFree]

theorem counters_free {h : Nat} : (s.free h).2.counters =
    if (s.free h).1 = 0 then ((s.tUserAllocSize + 2 ^ 64 - (s.interFree h).2.1) % 2 ^ 64,
      (s.tUserAllocChunkCnt + 2 ^ 64 - 1) % 2 ^ 64)
    else s.counters := by
  have same : (s.interFree h).2.2.counters = s.counters := congrArg Prod.fst books_interFree
  unfold free
  obtain ⟨size, cnt⟩ := Prod.mk.inj same
  dsimp only
  split_ifs
  · rw [← size, ← cnt]
    rfl
  · exact same

/-- The old size is subtracted also if the chunk has been released. -/
theorem counters_reAlloc {h req : Nat} : (s.reAlloc h req).2.counters =
    if (s.reAlloc h req).1 ≠ invalidHandle then
      ((s.tUserAllocSize + Mem.chunkSize (s.reAlloc h req).2.mem ((s.reAlloc h req).1 - 8) + 2 ^ 64 -
          (interReAlloc { s with tLastFreeChunkSize := 0 } h req).2.1) % 2 ^ 64,
        if h = invalidHandle then (s.tUserAllocChunkCnt + 1) % 2 ^ 64 else s.tUserAllocChunkCnt)
    else if req = 0 then
      ((s.tUserAllocSize + 2 ^ 64 - (interReAlloc { s with tLastFreeChunkSize := 0 } h req).2.1) % 2 ^ 64,
        (s.tUserAllocChunkCnt + 2 ^ 64 - 1) % 2 ^ 64)
    else s.counters := by
  have same : (interReAlloc { s with tLastFreeChunkSize := 0 } h req).2.2.counters = s.counters :=
    (congrArg Prod.fst books_interReAlloc)
  unfold reAlloc
  generalize interReAlloc { s with tLastFreeChunkSize := 0 } h req = t at same ⊢
  obtain ⟨size, cnt⟩ := Prod.mk.inj same
  dsimp only
  by_cases found : t.1 ≠ invalidHandle
  · rw [if_pos found, if_pos found, ← size, ← cnt]
    rfl
  · rw [if_neg found, if_neg found]
    split_ifs
    · rw [← size, ← cnt]
      rfl
    · exact same

end Counters

/-! ### Calls that turn a handle down -/

/-- The arena, the bins and the counters are as they were. The bit of an empty bin may be gone. -/
structure Kept (s s' : PtMalloc) : Prop where
  same : ∃ size bits message,
    s' = { s with tLastFreeChunkSize := size, binBitMap := bits, errMessage := message }
  bits : ∀ i, s.emptyBin i = false →
    (s'.binBitMap (i / 32)).getLsbD (i % 32) = (s.binBitMap (i / 32)).getLsbD (i % 32)

section Refused
variable {s s' s'' : PtMalloc} {h req : Nat}

theorem Kept.refl (s : PtMalloc) : Kept s s := ⟨⟨_, _, _, rfl⟩, fun _ _ => rfl⟩

theorem Kept.trans (first : Kept s s') (second : Kept s' s'') : Kept s s'' where
  same := by
    obtain ⟨_, _, _, rfl⟩ := first.same
    obtain ⟨_, _, _, rfl⟩ := second.same
    exact ⟨_, _, _, rfl⟩
  bits i some := by
    have still : s'.emptyBin i = false := by
      obtain ⟨_, _, _, rfl⟩ := first.same
      exact some
    exact (second.bits i still).trans (first.bits i some)

theorem kept_fail (s : PtMalloc) (message : String) : Kept s (s.fail message) :=
  ⟨⟨_, _, _, rfl⟩, fun _ _ => rfl⟩

/-- The bit of another bin is not touched. -/
theorem kept_clearIfEmpty (s : PtMalloc) (i : Nat) : Kept s (s.clearIfEmpty i) := by
  unfold clearIfEmpty
  split_ifs with empty
  · refine ⟨⟨_, _, _, rfl⟩, fun j some => ?_⟩
    have other : j ≠ i := by
      rintro rfl
      rw [empty] at some
      exact absurd some (by decide)
    unfold clearBinBitMap
    dsimp only
    rw [Function.update_apply]
    split_ifs with word
    · rw [← word, BitVec.getLsbD_and, BitVec.getLsbD_not, BitVec.getLsbD_shiftLeft,
        BitVec.getLsbD_one]
      have below := Nat.mod_lt j (show 0 < 32 by decide)
      by_cases lt : j % 32 < i % 32
      · simp [lt, below]
      · simp [below, show ¬j % 32 - i % 32 = 0 by omega]
    · rfl
  · exact Kept.refl s

/-- A request that is not served changes nothing. -/
theorem kept_interMalloc (failed : (s.interMalloc req).1 = invalidHandle) :
    Kept s (s.interMalloc req).2 := by
  have next : ∀ (s : PtMalloc) size, (s.mallocNextBin size).1 = invalidHandle →
      Kept s (s.mallocNextBin size).2 := by
    intro s size failed
    unfold mallocNextBin topAlloc at failed ⊢
    dsimp only at failed ⊢
    split_ifs at failed ⊢
    · exact kept_fail s _
    · exact absurd failed (by simp [invalidHandle])
    · cases found : s.searchBack size s.tSize (s.ptBin (s.searchNextBin (binIndex size))).hPreChunk with
      | none => exact Kept.refl s
      | some chunk =>
        rw [found] at failed
        exact absurd failed (by simp [invalidHandle])
  unfold interMalloc at failed ⊢
  dsimp only at failed ⊢
  split_ifs at failed ⊢ with range small found
  · exact Kept.refl s
  · exact absurd failed (by simp [invalidHandle])
  · refine Kept.trans ?_ (next _ _ failed)
    unfold smallBinMalloc binMalloc at found ⊢
    dsimp only at found ⊢
    split_ifs at found ⊢ with empty
    · exact kept_clearIfEmpty s _
    · exact absurd found (not_not.mpr empty)
  · cases found : s.searchBin (request2size req) 99
        (s.ptBin (binIndex (request2size req))).hNextChunk with
    | none =>
      rw [found] at failed
      exact next s _ failed
    | some chunk =>
      rw [found] at failed
      exact absurd failed (by simp [invalidHandle])

theorem releaseChunk_code (s : PtMalloc) (chunk size : Nat) :
    (s.releaseChunk chunk size).1 = 0 ∨ (s.releaseChunk chunk size).1 = -4 := by
  unfold releaseChunk
  dsimp only
  generalize s.combinePrev chunk size = t
  cases combined : t.2.2.combineNext t.1 t.2.1 with
  | ok => exact .inl rfl
  | error code =>
    right
    unfold combineNext at combined
    dsimp only at combined
    split_ifs at combined
    exact (Except.error.inj combined).symm

/-- `Free` turns the handle down with a code of its own: it is behind the arena, or the size in
front of it leads there, or the chunk is not in use. -/
def NotFreed (s : PtMalloc) (h : Nat) : Prop :=
  h ≠ invalidHandle ∧ (s.tSize ≤ h ∨ s.tSize ≤ h - 8 + Mem.chunkSize s.mem (h - 8) ∨
    (!prevInuse s.mem (h - 8 + Mem.chunkSize s.mem (h - 8))) = true)

instance (s : PtMalloc) (h : Nat) : Decidable (s.NotFreed h) := instDecidableAnd

/-- What `inter_free` answers to a handle that is turned down, and past the checks of the handle. -/
theorem interFree_code (s : PtMalloc) (h : Nat) :
    (s.NotFreed h ∧ (s.interFree h).1 ∈ [(-1 : Int), -2, -3] ∧
        ∃ message, (s.interFree h).2.2 = s.fail message) ∨
      ¬ s.NotFreed h ∧ ((s.interFree h).1 = 0 ∨ (s.interFree h).1 = -4) := by
  unfold interFree
  by_cases null : h = invalidHandle
  · rw [if_pos null]
    exact .inr ⟨fun down => down.1 null, .inl rfl⟩
  rw [if_neg null]
  by_cases outside : s.tSize ≤ h
  · rw [if_pos outside]
    exact .inl ⟨⟨null, .inl outside⟩, by simp, _, rfl⟩
  rw [if_neg outside]
  dsimp only
  by_cases large : s.tSize ≤ h - 8 + Mem.chunkSize s.mem (h - 8)
  · rw [if_pos large]
    exact .inl ⟨⟨null, .inr (.inl large)⟩, by simp, _, rfl⟩
  rw [if_neg large]
  by_cases unused : (!prevInuse s.mem (h - 8 + Mem.chunkSize s.mem (h - 8))) = true
  · rw [if_pos unused]
    exact .inl ⟨⟨null, .inr (.inr unused)⟩, by simp, _, rfl⟩
  rw [if_neg unused]
  refine .inr ⟨fun down => down.2.elim outside (Or.elim · large unused), ?_⟩
  split
  · exact .inl rfl
  · split
    · exact .inl rfl
    · have code := releaseChunk_code (s.checkInuseChunk (h - 8)).2 (h - 8) (Mem.chunkSize s.mem (h - 8))
      dsimp only
      exact code

theorem notFreed_iff : s.NotFreed h ↔ (s.free h).1 ∈ [(-1 : Int), -2, -3] := by
  change _ ↔ (s.interFree h).1 ∈ [(-1 : Int), -2, -3]
  obtain ⟨down, code, -⟩ | ⟨taken, zero | four⟩ := interFree_code s h
  · exact iff_of_true down code
  · exact iff_of_false taken (by rw [zero]; decide)
  · exact iff_of_false taken (by rw [four]; decide)

/-- A handle that `Free` turns down with a code changes nothing but the message. -/
theorem free_rejected (code : (s.free h).1 ∈ [(-1 : Int), -2, -3]) :
    ∃ message, (s.free h).2 = s.fail message := by
  have answer : (s.interFree h).1 ∈ [(-1 : Int), -2, -3] := code
  have result : (s.free h).2 = if (s.interFree h).1 = 0 then (s.interFree h).2.2.countFree
      (s.interFree h).2.1 else (s.interFree h).2.2 := rfl
  obtain ⟨-, -, message, eq⟩ | ⟨taken, -⟩ := interFree_code s h
  · refine ⟨message, ?_⟩
    rw [result, if_neg, eq]
    intro zero
    rw [zero] at answer
    exact absurd answer (by decide)
  · exact absurd (notFreed_iff.mpr code) taken

theorem settle_ne_invalid (s : PtMalloc) (chunk newSize size : Nat) (preInUse : Bool) (preSize : Nat) :
    (s.settle chunk newSize size preInUse preSize).1 ≠ invalidHandle := by
  unfold settle
  dsimp only
  split_ifs <;> simp [invalidHandle]

/-- A chunk that cannot grow stays where it is. -/
theorem kept_enlarge {chunk oldSize size : Nat}
    (failed : (s.enlarge chunk oldSize size req).1 = invalidHandle) :
    Kept s (s.enlarge chunk oldSize size req).2 := by
  unfold enlarge at failed ⊢
  dsimp only at failed ⊢
  split_ifs at failed ⊢ with forward next previous full
  · exact absurd failed (by simp [invalidHandle])
  · exact absurd failed (settle_ne_invalid _ _ _ _ _ _)
  · exact absurd failed (settle_ne_invalid _ _ _ _ _ _)
  · exact (kept_interMalloc full).trans (kept_fail _ _)
  · exact absurd failed full

theorem kept_interReAlloc (some : req ≠ 0) (failed : (s.interReAlloc h req).1 = invalidHandle) :
    Kept s (s.interReAlloc h req).2.2 := by
  have checked : ∀ chunk, Kept s (s.checkInuseChunk chunk).2 := by
    intro chunk
    unfold checkInuseChunk
    split_ifs
    · exact kept_fail s _
    · exact kept_fail s _
    · exact kept_fail s _
    · exact Kept.refl s
  unfold interReAlloc at failed ⊢
  by_cases null : h = invalidHandle
  · rw [if_pos null] at failed ⊢
    exact kept_interMalloc failed
  dsimp only at failed ⊢
  split_ifs at failed ⊢
  · exact Kept.refl s
  · exact kept_fail s _
  · exact kept_fail s _
  · exact kept_fail s _
  · exact (checked _).trans (kept_fail _ _)
  · exact absurd failed (settle_ne_invalid _ _ _ _ _ _)
  · exact (checked _).trans (kept_enlarge failed)

/-- `ReAlloc` to a size that is not 0 does not take the handle or finds no memory: the size is out
of range, the handle is not that of a chunk in use, or the chunk has to grow, and there is no room
for that in the top, in the chunks next to it, or elsewhere. -/
def NotMoved (s : PtMalloc) (h req : Nat) : Prop :=
  let chunk := h - 8
  let oldSize := Mem.chunkSize s.mem chunk
  let size := request2size req
  let next := chunk + oldSize
  let nextSize := Mem.chunkSize s.mem next
  requestOutOfRange req ∨ (s.hTop ≤ h ∨ h ≤ s.hBottom) ∨ (s.hTop < next ∨ chunk % 8 ≠ 0) ∨
    oldSize < minSize ∨ (s.checkInuseChunk chunk).1 ≠ 0 ∨
    ¬ size ≤ oldSize ∧ ¬ (next = s.hTop ∧ s.hTop + (size - oldSize) + minSize < s.tSize) ∧
      ¬ (next ≠ s.hTop ∧ !prevInuse s.mem (next + nextSize) ∧ size ≤ oldSize + nextSize) ∧
      ¬ (!prevInuse s.mem chunk ∧ size ≤ add32 oldSize (tPreSize s.mem chunk)) ∧
      (s.malloc req).1 = invalidHandle

instance (s : PtMalloc) (h req : Nat) : Decidable (s.NotMoved h req) := instDecidableOr

/-- One check after the other. -/
theorem or_iff_ite {α : Type} {p q : Prop} [Decidable p] {P : α → Prop} {a b : α} (yes : P a)
    (no : ¬ p → (q ↔ P b)) : p ∨ q ↔ P (if p then a else b) := by
  by_cases here : p
  · simp [here, yes]
  · simp [here, no here]

theorem and_iff_ite {α : Type} {p q : Prop} [Decidable p] {P : α → Prop} {a b : α} (yes : ¬ P a)
    (no : q ↔ P b) : ¬ p ∧ q ↔ P (if p then a else b) := by
  by_cases here : p
  · simp [here, yes]
  · simp [here, no]

theorem notMoved_iff (null : h ≠ invalidHandle) (some : req ≠ 0) :
    s.NotMoved h req ↔ (s.reAlloc h req).1 = invalidHandle := by
  have inuse : ∀ chunk, ({ s with tLastFreeChunkSize := 0 }.checkInuseChunk chunk).1 =
      (s.checkInuseChunk chunk).1 := by
    intro chunk
    unfold checkInuseChunk
    split_ifs <;> rfl
  have same : ∀ chunk, (s.checkInuseChunk chunk).1 = 0 →
      ({ s with tLastFreeChunkSize := 0 }.checkInuseChunk chunk).2 =
        { s with tLastFreeChunkSize := 0 } := by
    intro chunk ok
    rw [← inuse] at ok
    unfold checkInuseChunk at ok ⊢
    split_ifs at ok ⊢
    · simp at ok
    · simp at ok
    · simp at ok
    · rfl
  change _ ↔ (interReAlloc { s with tLastFreeChunkSize := 0 } h req).1 = invalidHandle
  unfold interReAlloc
  rw [if_neg null, if_neg some]
  let P := fun x : Nat × Nat × PtMalloc => x.1 = invalidHandle
  refine or_iff_ite (P := P) rfl fun _ => or_iff_ite (P := P) rfl fun _ => ?_
  refine or_iff_ite (P := P) rfl fun _ => or_iff_ite (P := P) rfl fun _ => ?_
  dsimp only
  rw [inuse]
  refine or_iff_ite (P := P) rfl fun checked => ?_
  rw [same _ (not_not.mp checked)]
  refine and_iff_ite (P := P) (settle_ne_invalid _ _ _ _ _ _) ?_
  let Q := fun x : Nat × PtMalloc => x.1 = invalidHandle
  change _ ↔ Q (enlarge _ _ _ _ _)
  unfold enlarge
  refine and_iff_ite (P := Q) (by simp [Q, invalidHandle]) ?_
  refine and_iff_ite (P := Q) (settle_ne_invalid _ _ _ _ _ _) ?_
  refine and_iff_ite (P := Q) (settle_ne_invalid _ _ _ _ _ _) ?_
  change (interMalloc _ req).1 = invalidHandle ↔ Q (if _ then _ else _)
  split_ifs with full
  · exact iff_of_true full rfl
  · exact Iff.rfl

/-- A reallocation that fails changes nothing. -/
theorem kept_reAlloc (some : req ≠ 0) (failed : (s.reAlloc h req).1 = invalidHandle) :
    Kept s (s.reAlloc h req).2 := by
  have reset : Kept s { s with tLastFreeChunkSize := 0 } := ⟨⟨_, _, _, rfl⟩, fun _ _ => rfl⟩
  have answer : (interReAlloc { s with tLastFreeChunkSize := 0 } h req).1 = invalidHandle := failed
  have result : (s.reAlloc h req).2 = (interReAlloc { s with tLastFreeChunkSize := 0 } h req).2.2 := by
    unfold reAlloc
    dsimp only
    rw [if_neg (not_not.mpr answer), if_neg some]
  rw [result]
  exact reset.trans (kept_interReAlloc some answer)

end Refused

end PtMalloc

/-! ### The chunks that are counted -/

/-- The counters of a heap whose live chunks are `U`. -/
structure Counted (s : PtMalloc) (U : List (Nat × Nat)) : Prop where
  owns : Owns s U
  cnt : s.tUserAllocChunkCnt = U.length
  size : s.tUserAllocSize = s.hBottom + (U.map Prod.snd).sum

section Counted
variable {s s' : PtMalloc} {U : List (Nat × Nat)} {x k req : Nat}

/-- The used blocks of a list fit into it. -/
theorem usedAt_sum_le (a : Nat) (bs : List Block) :
    ((usedAt a bs).map Prod.snd).sum ≤ span Block.size bs := by
  induction bs generalizing a with
  | nil => exact Nat.zero_le _
  | cons b bs ih =>
    have rest := ih (a + b.size)
    rw [usedAt_cons, span_cons, map_append, sum_append]
    split_ifs
    · simp only [map_nil, sum_nil]
      omega
    · simp only [map_cons, map_nil, sum_cons, sum_nil]
      omega

/-- The live chunks lie between the head of the arena and its end. -/
theorem Owns.sum_lt (owns : Owns s U) : s.hBottom + (U.map Prod.snd).sum < 2 ^ 64 := by
  obtain ⟨bs, bins, heap, settled, used⟩ := owns
  have le := usedAt_sum_le s.hBottom bs
  rw [(used.map Prod.snd).sum_eq] at le
  have top := heap.top
  have room := heap.room
  have range := heap.range
  omega

/-- There are fewer live chunks than bytes. -/
theorem Owns.length_lt (owns : Owns s U) : U.length < 2 ^ 64 := by
  have total := owns.sum_lt
  have least := length_le_sum_of_one_le (U.map Prod.snd) fun n mem => by
    obtain ⟨⟨x, k⟩, live, rfl⟩ := mem_map.mp mem
    exact le_trans (by decide) (owns.mem live).bounds.1
  rw [length_map] at least
  omega

/-- One more live chunk is counted. -/
theorem Counted.cons (counted : Counted s U) (owns : Owns s' ((x, k) :: U))
    (bottom : s'.hBottom = s.hBottom)
    (counters : s'.counters = ((s.tUserAllocSize + k) % 2 ^ 64, (s.tUserAllocChunkCnt + 1) % 2 ^ 64)) :
    Counted s' ((x, k) :: U) := by
  have total := owns.sum_lt
  have few := owns.length_lt
  have size₀ := counted.size
  obtain ⟨size, cnt⟩ := Prod.mk.inj counters
  rw [map_cons, sum_cons, bottom] at total
  refine ⟨owns, ?_, ?_⟩
  · rw [cnt, counted.cnt]
    exact Nat.mod_eq_of_lt few
  · rw [size, size₀, map_cons, sum_cons, bottom, Nat.mod_eq_of_lt (by omega)]
    omega

/-- One live chunk fewer is counted. -/
theorem Counted.tail (counted : Counted s ((x, k) :: U)) (owns : Owns s' U)
    (bottom : s'.hBottom = s.hBottom)
    (counters : s'.counters =
      ((s.tUserAllocSize + 2 ^ 64 - k) % 2 ^ 64, (s.tUserAllocChunkCnt + 2 ^ 64 - 1) % 2 ^ 64)) :
    Counted s' U := by
  have total := counted.owns.sum_lt
  have few := counted.owns.length_lt
  have cnt₀ := counted.cnt
  have size₀ := counted.size
  obtain ⟨size, cnt⟩ := Prod.mk.inj counters
  rw [map_cons, sum_cons] at total size₀
  rw [length_cons] at few cnt₀
  refine ⟨owns, ?_, ?_⟩
  · rw [cnt, cnt₀]
    omega
  · rw [size, size₀, bottom]
    omega

/-- `Malloc` counts the chunk that it hands out. -/
theorem Counted.malloc (counted : Counted s U) (min : minSize ≤ s.getMinChunkSize) (req : Nat) :
    ((s.malloc req).1 = invalidHandle ∧ Counted (s.malloc req).2 U) ∨
      ∃ x k, (s.malloc req).1 = x + 8 ∧ Counted (s.malloc req).2 ((x, k) :: U) := by
  have counters := @counters_malloc s req
  obtain ⟨null, owns, stays⟩ | ⟨x, k, handle, -, owns, stays⟩ := counted.owns.malloc min req
  · rw [if_pos null] at counters
    obtain ⟨size, cnt⟩ := Prod.mk.inj counters
    exact .inl ⟨null, owns, cnt.trans counted.cnt, by rw [size, counted.size, stays.bottom]⟩
  · rw [if_neg (by simp [handle, invalidHandle]), handle, Nat.add_sub_cancel, owns.checked.1] at counters
    exact .inr ⟨x, k, handle, counted.cons owns stays.bottom counters⟩

/-- `Free` of a live chunk. -/
theorem Counted.free (counted : Counted s ((x, k) :: U)) :
    (s.free (x + 8)).1 = 0 ∧ Counted (s.free (x + 8)).2 U := by
  have counters := @counters_free s (x + 8)
  obtain ⟨ret, owns, stays⟩ := counted.owns.free
  rw [if_pos ret, counted.owns.interFree.2.1] at counters
  exact ⟨ret, counted.tail owns stays.bottom counters⟩

/-- The caller of a live chunk writes into it. -/
theorem Counted.write (counted : Counted s ((x, k) :: U)) (agree : Agree s s')
    (minChunk : s'.getMinChunkSize = s.getMinChunkSize) (counters : s'.counters = s.counters)
    (outside : ∀ i, i < x + 8 ∨ x + k + 4 ≤ i → s'.mem i = s.mem i) : Counted s' ((x, k) :: U) := by
  obtain ⟨size, cnt⟩ := Prod.mk.inj counters
  refine ⟨(counted.owns.write agree minChunk outside).1, cnt.trans counted.cnt, ?_⟩
  rw [size, counted.size, agree.bottom]

theorem Counted.calloc (counted : Counted s U) (min : minSize ≤ s.getMinChunkSize) (req : Nat) :
    ((s.calloc req).1 = invalidHandle ∧ Counted (s.calloc req).2 U) ∨
      ∃ x k, (s.calloc req).1 = x + 8 ∧ Counted (s.calloc req).2 ((x, k) :: U) := by
  have room := counted.owns.malloc min req
  unfold PtMalloc.calloc
  dsimp only
  obtain ⟨null, counted'⟩ | ⟨x, k, handle, counted'⟩ := counted.malloc min req
  · rw [if_neg (not_not.mpr null)]
    exact .inl ⟨null, counted'⟩
  · have found : (s.malloc req).1 ≠ invalidHandle := by simp [handle, invalidHandle]
    have fits : req + 4 ≤ k := by
      obtain ⟨null, -⟩ | ⟨y, m, handle', le, owns, -⟩ := room
      · exact absurd null found
      · obtain rfl : y = x := by omega
        have same := owns.checked.1.symm.trans counted'.owns.checked.1
        omega
    rw [if_pos found, handle]
    refine .inr ⟨x, k, rfl, counted'.write ⟨rfl, rfl, rfl, rfl, rfl⟩ rfl rfl fun i hi => ?_⟩
    refine store_outside ?_
    rw [length_replicate]
    omega

/-- `ReAlloc` of a live chunk to another size: the difference is counted. -/
theorem Counted.reAlloc (counted : Counted s ((x, k) :: U)) (min : minSize ≤ s.getMinChunkSize)
    (some : req ≠ 0) (fits : ¬s.outgrows (x + 8) req) :
    ((s.reAlloc (x + 8) req).1 = invalidHandle ∧ Counted (s.reAlloc (x + 8) req).2 ((x, k) :: U)) ∨
      ∃ y m, (s.reAlloc (x + 8) req).1 = y + 8 ∧ Counted (s.reAlloc (x + 8) req).2 ((y, m) :: U) := by
  have counters := @counters_reAlloc s (x + 8) req
  obtain ⟨null, owns, stays⟩ | ⟨y, m, handle, -, owns, stays, -⟩ := counted.owns.reAlloc min some fits
  · rw [if_neg (not_not.mpr null), if_neg some] at counters
    obtain ⟨size, cnt⟩ := Prod.mk.inj counters
    exact .inl ⟨null, owns, cnt.trans counted.cnt, by rw [size, counted.size, stays.bottom]⟩
  · have found : (s.reAlloc (x + 8) req).1 ≠ invalidHandle := by simp [handle, invalidHandle]
    have reset : Owns { s with tLastFreeChunkSize := 0 } ((x, k) :: U) :=
      counted.owns.of_agree agree_reset rfl
    have old : (interReAlloc { s with tLastFreeChunkSize := 0 } (x + 8) req).2.1 = k := by
      by_cases range : requestOutOfRange req
      · exact absurd (congrArg Prod.fst (interReAlloc_range some range)) found
      · rw [reset.interReAlloc_eq some (Bool.eq_false_iff.mpr range)]
        split_ifs <;> rfl
    rw [if_pos found, old, handle, Nat.add_sub_cancel, owns.checked.1,
      if_neg (by simp [invalidHandle])] at counters
    obtain ⟨size, cnt⟩ := Prod.mk.inj counters
    have total := owns.sum_lt
    have total₀ := counted.owns.sum_lt
    have size₀ := counted.size
    rw [map_cons, sum_cons] at total total₀ size₀
    rw [stays.bottom] at total
    refine .inr ⟨y, m, handle, owns, cnt.trans counted.cnt, ?_⟩
    rw [size, size₀, map_cons, sum_cons, stays.bottom]
    omega

/-- `ReAlloc` of a live chunk to nothing. -/
theorem Counted.reAlloc_zero (counted : Counted s ((x, k) :: U)) :
    (s.reAlloc (x + 8) 0).1 = invalidHandle ∧ Counted (s.reAlloc (x + 8) 0).2 U := by
  have counters := @counters_reAlloc s (x + 8) 0
  obtain ⟨null, owns, stays⟩ := counted.owns.reAlloc_zero
  have reset : Owns { s with tLastFreeChunkSize := 0 } ((x, k) :: U) :=
    counted.owns.of_agree agree_reset rfl
  rw [if_neg (not_not.mpr null), if_pos rfl, interReAlloc_zero, reset.interFree.2.1] at counters
  exact ⟨null, counted.tail owns stays.bottom counters⟩

/-- `ReAlloc` of the null handle that hands out a chunk. -/
theorem Counted.reAlloc_null (counted : Counted s U) (min : minSize ≤ s.getMinChunkSize)
    (found : (s.reAlloc invalidHandle req).1 ≠ invalidHandle) :
    ∃ x k, (s.reAlloc invalidHandle req).1 = x + 8 ∧
      Counted (s.reAlloc invalidHandle req).2 ((x, k) :: U) := by
  have counters := @counters_reAlloc s invalidHandle req
  obtain ⟨handle, agree, mem⟩ := @Mem.reAlloc_null s req
  obtain ⟨null, -⟩ | ⟨x, k, eq, counted'⟩ := counted.malloc min req
  · exact absurd (handle.trans null) found
  · have owns := counted'.owns.of_agree agree mem
    rw [if_pos found, interReAlloc_null, handle, eq, Nat.add_sub_cancel, owns.checked.1, if_pos rfl,
      Nat.sub_zero, Nat.add_mod_right] at counters
    have bottom : (s.reAlloc invalidHandle req).2.hBottom = s.hBottom := by
      refine agree.bottom.trans ?_
      obtain ⟨-, -, stays⟩ | ⟨_, _, -, -, -, stays⟩ := counted.owns.malloc min req
      · exact stays.bottom
      · exact stays.bottom
    exact ⟨x, k, handle.trans eq, counted.cons owns bottom counters⟩

/-- A call that changes nothing. -/
theorem Counted.of_kept (counted : Counted s U) (kept : s.Kept s') : Counted s' U := by
  obtain ⟨⟨bs, bins, heap, settled, used⟩, cnt, size⟩ := counted
  obtain ⟨⟨_, bits, _, rfl⟩, same⟩ := kept
  refine ⟨⟨bs, bins, ?_, settled, used⟩, cnt, size⟩
  refine { heap with bitMap := fun i nonempty => ?_ }
  rw [same i, heap.bitMap i nonempty]
  rw [emptyBin, beq_eq_false_iff_ne]
  exact fun empty => nonempty (heap.bin_eq_nil_iff.mp empty)

end Counted

/-! ### Runs -/

namespace World

/-- The handle is live, or the call turns it down with a code of its own, or asks for a chunk. The
answer 0 of `Free`, and of `ReAlloc` to nothing, does not tell a handle that was turned down. -/
def Told (w : World) : Op → Prop
  | .free hHandle => hHandle ∈ w.live ∨ w.heap.NotFreed hHandle
  | .reAlloc hHandle req => hHandle ∈ w.live ∨
      if hHandle = invalidHandle then req ≠ 0 ∨ (w.heap.malloc 0).1 ≠ invalidHandle
      else req ≠ 0 ∧ w.heap.NotMoved hHandle req
  | op => w.Legal op

instance (w : World) : ∀ op, Decidable (w.Told op)
  | .free _ | .reAlloc .. => instDecidableOr
  | .write .. => instDecidableAnd
  | .malloc _ | .calloc _ | .setMinChunkSize _ => .isTrue trivial

/-- The live handles and the counters. -/
def Counts (w : World) : Prop :=
  ∃ U, Counted w.heap U ∧ w.live.Perm (U.map fun e => e.1 + 8)

end World

section Runs
variable {w : World} {op : Op}

theorem World.Counts.chunk (counts : w.Counts) {h : Nat} (mem : h ∈ w.live) :
    ∃ x k U, h = x + 8 ∧ Counted w.heap ((x, k) :: U) ∧
      (w.live.erase h).Perm (U.map fun e => e.1 + 8) := by
  obtain ⟨V, counted, handles⟩ := counts
  obtain ⟨⟨x, k⟩, inV, rfl⟩ := mem_map.mp (handles.subset mem)
  have split : V.Perm ((x, k) :: V.erase (x, k)) := perm_cons_erase inV
  refine ⟨x, k, V.erase (x, k), rfl, ⟨counted.owns.mem inV, ?_, ?_⟩, ?_⟩
  · rw [counted.cnt, split.length_eq]
  · rw [counted.size, (split.map Prod.snd).sum_eq]
  · exact ((perm_cons_erase mem).symm.trans (handles.trans (split.map _))).cons_inv

theorem World.Counts.wellFormed (counts : w.Counts) : WellFormed w.heap w.live := by
  obtain ⟨U, counted, handles⟩ := counts
  exact wellFormed_iff_owns.mpr ⟨U, counted.owns, handles⟩

/-- A chunk is handed out for the handles `live`. -/
theorem Counted.gain {s : PtMalloc} {U : List (Nat × Nat)} {x k : Nat} {live : List Nat}
    (counted : Counted s ((x, k) :: U)) (handles : live.Perm (U.map fun e => e.1 + 8)) :
    Counts ⟨s, gain live (x + 8)⟩ := by
  refine ⟨_, counted, ?_⟩
  exact handles.cons _

/-- A call that hands out a chunk or fails. -/
theorem Counted.served {s : PtMalloc} {U : List (Nat × Nat)} {h : Nat} {live : List Nat}
    (answer : (h = invalidHandle ∧ Counted s U) ∨ ∃ x k, h = x + 8 ∧ Counted s ((x, k) :: U))
    (handles : live.Perm (U.map fun e => e.1 + 8)) : World.Counts ⟨s, World.gain live h⟩ := by
  obtain ⟨none, counted⟩ | ⟨x, k, rfl, counted⟩ := answer
  · rw [World.gain, if_pos none]
    exact ⟨U, counted, handles⟩
  · exact counted.gain handles

theorem World.Counts.reAlloc {h req : Nat} (counts : w.Counts) (told : w.Told (.reAlloc h req))
    (fits : w.Fits (.reAlloc h req)) : (w.step (.reAlloc h req)).2.Counts := by
  have null := counts.wellFormed.not_mem
  unfold step
  dsimp only
  have answer : h ∈ w.live ∨
      h = invalidHandle ∧ (w.heap.reAlloc h req).1 ≠ invalidHandle ∨
      (w.heap.reAlloc h req).1 = invalidHandle ∧ req ≠ 0 := by
    refine told.imp_right fun told => ?_
    split_ifs at told with none
    · have same : (w.heap.reAlloc h req).1 = (w.heap.malloc req).1 := by
        rw [none]
        exact reAlloc_null.1
      by_cases found : (w.heap.reAlloc h req).1 = invalidHandle
      · refine .inr ⟨found, fun zero => ?_⟩
        exact told.elim (· zero) (· (by rw [← zero, ← same, found]))
      · exact .inl ⟨none, found⟩
    · exact .inr ⟨(notMoved_iff none told.1).mp told.2, told.1⟩
  obtain mem | ⟨rfl, found⟩ | ⟨failed, some⟩ := answer
  · obtain ⟨x, k, U, rfl, counted, handles⟩ := counts.chunk mem
    by_cases zero : req = 0
    · subst zero
      obtain ⟨none, counted'⟩ := counted.reAlloc_zero
      exact ⟨U, counted', handles⟩
    · obtain ⟨none, counted'⟩ | ⟨y, m, handle, counted'⟩ := counted.reAlloc fits.1 zero fits.2
      · rw [if_pos ⟨none, zero⟩, gain, if_pos none]
        exact ⟨_, counted', (perm_cons_erase mem).trans (handles.cons _)⟩
      · rw [if_neg (by simp [handle, invalidHandle]), handle]
        exact counted'.gain handles
  · obtain ⟨U, counted, handles⟩ := counts
    obtain ⟨x, k, handle, counted'⟩ := counted.reAlloc_null fits.1 found
    rw [if_neg (fun both => found both.1), erase_of_not_mem null, handle]
    exact counted'.gain handles
  · obtain ⟨U, counted, handles⟩ := counts
    rw [if_pos ⟨failed, some⟩, gain, if_pos failed]
    exact ⟨U, counted.of_kept (kept_reAlloc some failed), handles⟩

theorem World.Counts.free {h : Nat} (counts : w.Counts) (told : w.Told (.free h)) :
    (w.step (.free h)).2.Counts := by
  by_cases mem : h ∈ w.live
  · obtain ⟨x, k, U, rfl, counted, handles⟩ := counts.chunk mem
    exact ⟨U, counted.free.2, handles⟩
  · obtain ⟨message, same⟩ := free_rejected (notFreed_iff.mp (told.resolve_left mem))
    obtain ⟨U, counted, handles⟩ := counts
    refine ⟨U, ?_, ?_⟩
    · have kept := counted.of_kept (kept_fail _ message)
      rw [← same] at kept
      exact kept
    · change (w.live.erase h).Perm _
      rw [erase_of_not_mem mem]
      exact handles

/-- One step. -/
theorem World.Counts.step (counts : w.Counts) (told : w.Told op) (fits : w.Fits op) :
    (w.step op).2.Counts := by
  cases op with
  | malloc req =>
    obtain ⟨U, counted, handles⟩ := counts
    exact Counted.served (counted.malloc fits req) handles
  | calloc req =>
    obtain ⟨U, counted, handles⟩ := counts
    exact Counted.served (counted.calloc fits req) handles
  | reAlloc h req => exact counts.reAlloc told fits
  | free h => exact counts.free told
  | write h offset bytes =>
    obtain ⟨mem, inside⟩ := told
    obtain ⟨x, k, U, rfl, counted, handles⟩ := counts.chunk mem
    rw [counted.owns.usable] at inside
    refine ⟨_, counted.write ⟨rfl, rfl, rfl, rfl, rfl⟩ rfl rfl fun i hi => ?_,
      (perm_cons_erase mem).trans (handles.cons _)⟩
    exact store_outside (by omega)
  | setMinChunkSize size =>
    obtain ⟨U, counted, handles⟩ := counts
    exact ⟨U, ⟨counted.owns.of_agree ⟨rfl, rfl, rfl, rfl, rfl⟩ rfl, counted.cnt, counted.size⟩, handles⟩

/-- The counters, by the live handles. -/
theorem World.Counts.counters (counts : w.Counts) : w.heap.tUserAllocChunkCnt = w.live.length ∧
    w.heap.tUserAllocSize =
      w.heap.hBottom + (w.live.map fun h => chunkSize w.heap.mem (h - 8)).sum := by
  obtain ⟨U, counted, handles⟩ := counts
  constructor
  · rw [counted.cnt, handles.length_eq, length_map]
  · have sizes : (U.map fun e => e.1 + 8).map (fun h => chunkSize w.heap.mem (h - 8)) =
        U.map Prod.snd := by
      rw [map_map]
      refine map_congr_left fun e mem => ?_
      exact (counted.owns.mem mem).checked.1
    rw [counted.size, (handles.map _).sum_eq, sizes]

/-- A new allocator has counted its head only. -/
theorem counts_init {content : Nat → UInt8} {size : Nat}
    (accepted : (new.doInit content size).1 = 0) (range : size < 2 ^ 64) :
    (init content size).Counts := by
  obtain ⟨U, owns, handles⟩ := wellFormed_iff_owns.mp (wellFormed_init accepted range)
  obtain rfl : U = [] := map_eq_nil_iff.mp (perm_nil.mp handles.symm)
  refine ⟨[], ⟨owns, ?_, ?_⟩, handles⟩ <;> unfold init doInit at *
  all_goals
    by_cases small : size < 1024 + 16 * (128 + 64 + 1) + 4096 + minSize
    · rw [if_pos small] at accepted
      exact absurd accepted (by simp)
    · rw [if_neg small]
      rfl

end Runs

/-- The answers and the counters in every state of a run. A live handle is released; `Free` and
`ReAlloc` answer 0 then. `ReAlloc` answers 0 as well if a request fails, and then nothing has
changed. The counters are those of the live chunks, `m_tUserAllocSize` with the head of the arena. -/
theorem run_counts (content : Nat → UInt8) (size : Nat) (ops : List Op)
    (accepted : (PtMalloc.new.doInit content size).1 = 0) (range : size < 2 ^ 64)
    (admitted : Machine.Admitted (fun w op => World.Told w op ∧ World.Fits w op) World.step
      (World.init content size) ops) :
    let w := Machine.final step (init content size) ops
    WellFormed w.heap w.live ∧ w.heap.tUserAllocChunkCnt = w.live.length ∧
      w.heap.tUserAllocSize =
        w.heap.hBottom + (w.live.map fun h => chunkSize w.heap.mem (h - 8)).sum ∧
      ∀ h,
        (w.Told (.free h) → ((w.heap.free h).1 = 0 ↔ h ∈ w.live)) ∧
        (h ∈ w.live → WellFormed (w.heap.free h).2 (w.live.erase h)) ∧
        ((w.heap.free h).1 ∈ [(-1 : Int), -2, -3] → ∃ message, (w.heap.free h).2 = w.heap.fail message) ∧
        (h ∈ w.live → (w.heap.reAlloc h 0).1 = invalidHandle ∧
          WellFormed (w.heap.reAlloc h 0).2 (w.live.erase h)) ∧
        ∀ req ≠ 0, (w.heap.reAlloc h req).1 = invalidHandle → w.heap.Kept (w.heap.reAlloc h req).2 := by
  intro w
  have counts : w.Counts := by
    refine Machine.final_invariant Counts (fun _ _ counts both => counts.step both.1 both.2) ?_
      admitted
    exact counts_init accepted range
  refine ⟨counts.wellFormed, counts.counters.1, counts.counters.2, fun h => ⟨fun told => ?_, fun mem => ?_,
    ?_, fun mem => ?_, fun req some => ?_⟩⟩
  · refine ⟨fun zero => told.resolve_right fun down => ?_, fun mem => ?_⟩
    · have code := notFreed_iff.mp down
      rw [zero] at code
      exact absurd code (by decide)
    · obtain ⟨x, k, U, rfl, counted, -⟩ := counts.chunk mem
      exact counted.free.1
  · obtain ⟨x, k, U, rfl, counted, handles⟩ := counts.chunk mem
    exact wellFormed_iff_owns.mpr ⟨U, counted.free.2.owns, handles⟩
  · exact free_rejected
  · obtain ⟨x, k, U, rfl, counted, handles⟩ := counts.chunk mem
    obtain ⟨ret, counted'⟩ := counted.reAlloc_zero
    exact ⟨ret, wellFormed_iff_owns.mpr ⟨U, counted'.owns, handles⟩⟩
  · exact kept_reAlloc some

/-- A handle outside the arena is turned down, and a request that is too large fails. -/
def refusedOps : List Op := [.malloc 100, .free 70000, .reAlloc 8216 70000, .free 8216]

theorem run_counts_refused :
    WellFormed (Machine.final World.step (World.init (fun _ => 0) 65536) refusedOps).heap
      (Machine.final World.step (World.init (fun _ => 0) 65536) refusedOps).live :=
  (run_counts (fun _ => 0) 65536 refusedOps (by decide +kernel) (by decide +kernel)
    (by decide +kernel)).1

/-- The sizes start with the head of the arena, and the answer 0 of `ReAlloc` is also that of a
request that fails. -/
theorem zero_not_released :
    ((World.init (fun _ => 0) 65536).live = [] ∧
      (World.init (fun _ => 0) 65536).heap.tUserAllocSize = 8208) ∧
    (Machine.final World.step (World.init (fun _ => 0) 65536) [.malloc 100]).live = [8216] ∧
    ((Machine.final World.step (World.init (fun _ => 0) 65536) [.malloc 100]).heap.reAlloc 8216
      70000).1 = 0 ∧
    ((Machine.final World.step (World.init (fun _ => 0) 65536) [.malloc 100]).heap.reAlloc 8216
      70000).2.tUserAllocChunkCnt = 1 :=
  ⟨⟨rfl, by decide +kernel⟩, by decide +kernel, by decide +kernel, by decide +kernel⟩

end Dtc.Mem
