import Dtc.Library.LinkedRing
import Dtc.Library.Tiling
import Dtc.Mem.PtMalloc

/-!
# Heaps as lists of blocks

A heap is described by the list of its chunks in address order and by the member
lists of the bins. While a call runs, a chunk that has been taken out of its bin and
not been handed out yet is `held`; a chunk whose size word has not been written yet is
`loose`. Outside a call every chunk is `live` or `binned`.

Two facts carry the proofs. A block owns the bytes from its size word up to `m_tPreSize`
of the next chunk, and these ranges tile the heap. So a change inside the ranges of
adjacent blocks that are in no bin keeps everything else (`Heap.replace`, `Heap.retop`),
and what the caller wrote into other blocks with it.
-/

namespace Dtc.Mem

open Library Memory Tiling List

inductive Kind
  /-- handed out to the caller -/
  | live
  /-- in the bin of its size -/
  | binned
  /-- in use by the running call -/
  | held
  /-- in use by the running call, with a size word yet to be written -/
  | loose
  deriving DecidableEq

structure Block where
  size : Nat
  /-- the `PREV_INUSE` bit -/
  prevInUse : Bool
  kind : Kind

/-- The addresses and sizes of the blocks of some kinds. -/
def select (kinds : Kind → Bool) (a : Nat) (bs : List Block) : List (Nat × Nat) :=
  (place Block.size a bs).filterMap fun e => if kinds e.2.kind then some (e.1, e.2.size) else none

/-- The blocks in the bins. -/
def freeAt : Nat → List Block → List (Nat × Nat) := select (· == .binned)

/-- The blocks in no bin. -/
def usedAt : Nat → List Block → List (Nat × Nat) := select (· != .binned)

/-- A chunk size: aligned, with room for the fields of a chunk, in 32 bits. -/
structure Sized (n : Nat) : Prop where
  min : minSize ≤ n
  aligned : 8 ∣ n
  fits : n < 2 ^ 32

theorem Sized.ge {n : Nat} (sized : Sized n) : 24 ≤ n := sized.min

/-- The tags of the block at `a` behind the block `before`. -/
structure Tag (m : Nat → UInt8) (before : Option Block) (a : Nat) (b : Block) : Prop where
  word : b.kind ≠ .loose → chunkSize m a = b.size ∧ prevInuse m a = b.prevInUse
  /-- a clear bit is the bit above a free block, with the size of that block -/
  below : b.prevInUse = false → ∃ p, before = some p ∧ p.kind ≠ .live ∧
    (p.kind = .binned → tPreSize m a = p.size)

/-- The tags of adjacent blocks. -/
def Tagged (m : Nat → UInt8) (before : Option Block) (a : Nat) (bs : List Block) : Prop :=
  ∀ e ∈ walk Block.size before a bs, Tag m e.1 e.2.1 e.2.2

namespace PtMalloc

/-- The chunk behind a chunk of bin `i`; the null chunk stands for the bin. -/
def fwd (s : PtMalloc) (i x : Nat) : Nat :=
  if x = invalidHandle then (s.ptBin i).hNextChunk else hNextChunk s.mem x

/-- The chunk before a chunk of bin `i`. -/
def bwd (s : PtMalloc) (i x : Nat) : Nat :=
  if x = invalidHandle then (s.ptBin i).hPreChunk else hPreChunk s.mem x

end PtMalloc

/-- The heap consists of the blocks `bs`, and bin `i` of the chunks `bins i`. -/
structure Heap (s : PtMalloc) (bs : List Block) (bins : Nat → List Nat) : Prop where
  aligned : 8 ∣ s.hBottom
  positive : 0 < s.hBottom
  range : s.tSize < 2 ^ 64
  room : s.hTop + minSize ≤ s.tSize
  /-- the blocks tile the range from `m_hBottom` to `m_hTop` -/
  top : s.hTop = s.hBottom + span Block.size bs
  sized : ∀ b ∈ bs, Sized b.size
  tags : Tagged s.mem none s.hBottom bs
  topTag : tSize s.mem s.hTop = 1
  rings : ∀ i, LinkedRing (s.fwd i) (s.bwd i) invalidHandle (bins i)
  /-- a block is in the bin of its size, and nothing else is in a bin -/
  members : ∀ i a, a ∈ bins i ↔ ∃ n, (a, n) ∈ freeAt s.hBottom bs ∧ binIndex n = i
  bitMap : ∀ i, bins i ≠ [] → (s.binBitMap (i / 32)).getLsbD (i % 32) = true

/-! ### Selected blocks -/

section Select
variable {kinds : Kind → Bool} {a x n : Nat} {b : Block} {bs l r : List Block}

open Block

theorem mem_select : (x, n) ∈ select kinds a bs ↔
    ∃ b, (x, b) ∈ place size a bs ∧ kinds b.kind = true ∧ b.size = n := by
  simp only [select, mem_filterMap, Prod.exists, Option.ite_none_right_eq_some,
    Option.some.injEq, Prod.mk.injEq]
  constructor
  · rintro ⟨y, b, mem, kind, rfl, size⟩
    exact ⟨b, mem, kind, size⟩
  · rintro ⟨b, mem, kind, size⟩
    exact ⟨x, b, mem, kind, rfl, size⟩

theorem mem_freeAt : (x, n) ∈ freeAt a bs ↔
    ∃ b, (x, b) ∈ place size a bs ∧ b.kind = .binned ∧ b.size = n := by
  simp [freeAt, mem_select]

theorem mem_usedAt : (x, n) ∈ usedAt a bs ↔
    ∃ b, (x, b) ∈ place size a bs ∧ b.kind ≠ .binned ∧ b.size = n := by
  simp [usedAt, mem_select]

theorem select_append :
    select kinds a (l ++ r) = select kinds a l ++ select kinds (a + span size l) r := by
  rw [select, place_append, filterMap_append]
  rfl

theorem select_cons : select kinds a (b :: bs) =
    (if kinds b.kind then [(a, b.size)] else []) ++ select kinds (a + b.size) bs := by
  cases h : kinds b.kind <;> simp [select, h]

@[simp] theorem freeAt_nil : freeAt a [] = [] := rfl

@[simp] theorem usedAt_nil : usedAt a [] = [] := rfl

theorem freeAt_append : freeAt a (l ++ r) = freeAt a l ++ freeAt (a + span size l) r :=
  select_append

theorem usedAt_append : usedAt a (l ++ r) = usedAt a l ++ usedAt (a + span size l) r :=
  select_append

theorem freeAt_cons : freeAt a (b :: bs) =
    (if b.kind = .binned then [(a, b.size)] else []) ++ freeAt (a + b.size) bs := by
  rw [freeAt, select_cons]
  simp

theorem usedAt_cons : usedAt a (b :: bs) =
    (if b.kind = .binned then [] else [(a, b.size)]) ++ usedAt (a + b.size) bs := by
  rw [usedAt, select_cons]
  cases b.kind <;> rfl

/-- Blocks in no bin are not free. -/
theorem freeAt_eq_nil (unbinned : ∀ b ∈ bs, b.kind ≠ .binned) : freeAt a bs = [] := by
  induction bs generalizing a with
  | nil => rfl
  | cons b bs ih =>
    rw [freeAt_cons, if_neg (unbinned b mem_cons_self),
      ih fun c hc => unbinned c (mem_cons_of_mem b hc), append_nil]

/-- Used and free blocks lie in the range of the list. -/
theorem bounds_of_mem_select (mem : (x, n) ∈ select kinds a bs) :
    a ≤ x ∧ x + n ≤ a + span size bs := by
  obtain ⟨b, placed, -, rfl⟩ := mem_select.mp mem
  exact bounds_of_mem_place placed

end Select

/-! ### Reading the fields -/

section Fields
variable {m m' : Nat → UInt8} {c : Nat}

theorem tPreSize_congr (same : ∀ i, c ≤ i → i < c + 4 → m' i = m i) :
    tPreSize m' c = tPreSize m c :=
  congrArg leNat (slice_congr same)

theorem tSize_congr (same : ∀ i, c + 4 ≤ i → i < c + 8 → m' i = m i) : tSize m' c = tSize m c :=
  congrArg leNat (slice_congr same)

theorem hPreChunk_congr (same : ∀ i, c + 8 ≤ i → i < c + 16 → m' i = m i) :
    hPreChunk m' c = hPreChunk m c :=
  congrArg leNat (slice_congr same)

theorem hNextChunk_congr (same : ∀ i, c + 16 ≤ i → i < c + 24 → m' i = m i) :
    hNextChunk m' c = hNextChunk m c :=
  congrArg leNat (slice_congr same)

theorem chunkSize_congr (same : ∀ i, c + 4 ≤ i → i < c + 8 → m' i = m i) :
    chunkSize m' c = chunkSize m c :=
  congrArg realSize (tSize_congr same)

theorem prevInuse_congr (same : ∀ i, c + 4 ≤ i → i < c + 8 → m' i = m i) :
    prevInuse m' c = prevInuse m c := by
  rw [prevInuse, prevInuse, tSize_congr same]

end Fields

/-! ### Tags -/

section Tags
variable {m m' : Nat → UInt8} {before : Option Block} {a : Nat} {b p p' : Block}
  {bs l r : List Block}

theorem Tag.congr (tag : Tag m before a b) (same : ∀ i, a ≤ i → i < a + 8 → m' i = m i) :
    Tag m' before a b where
  word typed := by
    rw [chunkSize_congr fun i low => same i (by omega),
      prevInuse_congr fun i low => same i (by omega)]
    exact tag.word typed
  below clear := by
    rw [tPreSize_congr fun i low high => same i low (by omega)]
    exact tag.below clear

/-- Of the block before only the kind and the size matter. -/
theorem Tag.after (tag : Tag m (some p) a b) (kind : p'.kind = p.kind) (size : p'.size = p.size) :
    Tag m (some p') a b where
  word := tag.word
  below clear := by
    obtain ⟨q, eq, notLive, free⟩ := tag.below clear
    obtain rfl := Option.some.inj eq
    exact ⟨p', rfl, kind ▸ notLive, fun binned => size ▸ free (kind ▸ binned)⟩

@[simp] theorem tagged_nil : Tagged m before a [] := fun _ mem => absurd mem not_mem_nil

theorem tagged_cons :
    Tagged m before a (b :: bs) ↔ Tag m before a b ∧ Tagged m (some b) (a + b.size) bs := by
  rw [Tagged, walk_cons, forall_mem_cons]
  rfl

theorem tagged_append : Tagged m before a (l ++ r) ↔
    Tagged m before a l ∧ Tagged m (lastOr before l) (a + span Block.size l) r := by
  rw [Tagged, walk_append, forall_mem_append]
  rfl

theorem Tagged.congr (tagged : Tagged m before a bs) (sized : ∀ b ∈ bs, minSize ≤ b.size)
    (same : ∀ i, a ≤ i → i < a + span Block.size bs → m' i = m i) : Tagged m' before a bs := by
  rintro ⟨q, x, b⟩ mem
  have placed : (x, b) ∈ place Block.size a bs := mem_place_of_mem_walk mem
  have bounds := bounds_of_mem_place placed
  have := sized b (mem_of_mem_place placed)
  unfold minSize at this
  refine (tagged _ mem).congr fun i low high => ?_
  simp only at low high
  exact same i (by omega) (by omega)

/-- Behind a block of the same kind and size. -/
theorem Tagged.after (tagged : Tagged m (some p) a bs) (kind : p'.kind = p.kind)
    (size : p'.size = p.size) : Tagged m (some p') a bs := by
  cases bs with
  | nil => exact tagged_nil
  | cons b bs =>
    rw [tagged_cons] at tagged ⊢
    exact ⟨tagged.1.after kind size, tagged.2⟩

end Tags

end Dtc.Mem
