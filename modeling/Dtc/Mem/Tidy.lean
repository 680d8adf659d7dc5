import Dtc.Mem.Settle

/-!
# Free blocks next to each other

`inter_free` joins a free block with its neighbours as long as the sum is a chunk size, and gives a
block at the end back to the top. A heap is tidy if that has left nothing to do: the bit above a
free block is clear, two free blocks in a row are together larger than a chunk, and the last block
is not free. The lemmas say which changes of the blocks keep a heap tidy.
-/

namespace Dtc.Mem

open Library Tiling List

/-! ### The arena determines the blocks -/

section Unique
variable {m : Nat → UInt8} {before before' : Option Block} {a : Nat} {bs bs' : List Block}

/-- Sizes and bits are read off the arena; a predicate tells the free blocks. -/
theorem blocks_unique (free : Nat → Nat → Prop) (tagged : Tagged m before a bs)
    (tagged' : Tagged m before' a bs') (sized : ∀ b ∈ bs, minSize ≤ b.size)
    (sized' : ∀ b ∈ bs', minSize ≤ b.size) (settled : Settled bs) (settled' : Settled bs')
    (kinds : ∀ x b, (x, b) ∈ place Block.size a bs → (b.kind = .binned ↔ free x b.size))
    (kinds' : ∀ x b, (x, b) ∈ place Block.size a bs' → (b.kind = .binned ↔ free x b.size))
    (spans : span Block.size bs = span Block.size bs') : bs = bs' := by
  induction bs generalizing bs' before before' a with
  | nil =>
    cases bs' with
    | nil => rfl
    | cons b' bs' =>
      have least := sized' b' mem_cons_self
      unfold minSize at least
      rw [span_nil, span_cons] at spans
      omega
  | cons b bs ih =>
    have least := sized b mem_cons_self
    unfold minSize at least
    cases bs' with
    | nil =>
      rw [span_nil, span_cons] at spans
      omega
    | cons b' bs' =>
      rw [tagged_cons] at tagged tagged'
      rw [settled_cons] at settled settled'
      have word := tagged.1.word fun loose => by rw [loose] at settled; simp at settled
      have word' := tagged'.1.word fun loose => by rw [loose] at settled'; simp at settled'
      have size : b.size = b'.size := word.1.symm.trans word'.1
      have bit : b.prevInUse = b'.prevInUse := word.2.symm.trans word'.2
      have first : (a, b) ∈ place Block.size a (b :: bs) := by simp [place_cons]
      have first' : (a, b') ∈ place Block.size a (b' :: bs') := by simp [place_cons]
      have binned : b.kind = .binned ↔ b'.kind = .binned := by
        rw [kinds a b first, kinds' a b' first', size]
      have same : b = b' := by
        obtain ⟨n, p, k⟩ := b
        obtain ⟨n', p', k'⟩ := b'
        dsimp only at size bit binned settled settled'
        rw [size, bit]
        obtain live | free := settled.1
        · obtain live' | free' := settled'.1
          · rw [live, live']
          · exact absurd (binned.mpr free') (by simp [live])
        · rw [free, binned.mp free]
      subst same
      rw [span_cons, span_cons] at spans
      congr 1
      refine ih tagged.2 tagged'.2 (fun c hc => sized c (mem_cons_of_mem b hc))
        (fun c hc => sized' c (mem_cons_of_mem b hc)) settled.2 settled'.2 ?_ ?_ (by omega)
      · intro x c placed
        exact kinds x c (by rw [place_cons]; exact mem_cons_of_mem _ placed)
      · intro x c placed
        exact kinds' x c (by rw [place_cons]; exact mem_cons_of_mem _ placed)

/-- A heap has one list of blocks between two calls. -/
theorem Heap.unique {s : PtMalloc} {bins bins' : Nat → List Nat} (heap : Heap s bs bins)
    (heap' : Heap s bs' bins') (settled : Settled bs) (settled' : Settled bs') : bs = bs' := by
  have same : ∀ i, bins i = bins' i := fun i => (heap.rings i).unique (heap'.rings i)
  have kinds : ∀ {bs : List Block} {bins : Nat → List Nat}, Heap s bs bins → ∀ x b,
      (x, b) ∈ place Block.size s.hBottom bs → (b.kind = .binned ↔ x ∈ bins (binIndex b.size)) := by
    intro bs bins heap x b placed
    rw [heap.members]
    constructor
    · intro binned
      exact ⟨b.size, mem_freeAt.mpr ⟨b, placed, binned, rfl⟩, rfl⟩
    · rintro ⟨n, free, -⟩
      obtain ⟨c, placed', binned, -⟩ := mem_freeAt.mp free
      rw [heap.block_unique placed placed']
      exact binned
  refine blocks_unique (fun x n => x ∈ bins (binIndex n)) heap.tags heap'.tags
    (fun b mem => (heap.sized b mem).min) (fun b mem => (heap'.sized b mem).min) settled settled'
    (kinds heap) (fun x b placed => ?_) ?_
  · rw [same]
    exact kinds heap' x b placed
  · have top := heap.top
    have top' := heap'.top
    omega

end Unique

/-! ### Tidy lists -/

/-- The bit above a free block is clear, and two free blocks are too large to be joined. -/
def Adjacent (p b : Block) : Prop :=
  p.kind = .binned → b.prevInUse = false ∧ (b.kind = .binned → canCombile p.size b.size = false)

/-- The last block is not free. -/
def Ends (bs : List Block) : Prop := ∀ p, bs.getLast? = some p → p.kind ≠ .binned

/-- No free blocks are left to join, and none to give back to the top. -/
structure Tidy (bs : List Block) : Prop where
  adjacent : bs.IsChain Adjacent
  ends : Ends bs

section Tidy
variable {bs bs' l l' r r' r₁ : List Block} {b c d e p q : Block} {bins bins₁ bins' : Nat → List Nat}
  {k y m n : Nat}

theorem canCombile_comm (a b : Nat) : canCombile a b = canCombile b a := by
  unfold canCombile
  rw [Nat.add_comm]

variable {a : Nat} {front : List Block}

/-- A larger block cannot be joined either. -/
theorem canCombile_mono {b k' : Nat} (apart : canCombile a k = false) (le : a ≤ b)
    (le' : k ≤ k') : canCombile b k' = false := by
  unfold canCombile at *
  rw [decide_eq_false_iff_not] at *
  omega

theorem ends_append (some : r ≠ []) : Ends (l ++ r) ↔ Ends r := by
  unfold Ends
  rw [getLast?_append_of_ne_nil _ some]

theorem ends_cons (some : r ≠ []) : Ends (c :: r) ↔ Ends r :=
  ends_append (l := [c]) some

/-- Of the last block only the kind matters. -/
theorem ends_cons_congr (kind : c.kind = b.kind) : Ends (c :: r) ↔ Ends (b :: r) := by
  cases r with
  | nil => simp [Ends, kind]
  | cons q rest => rw [ends_cons (cons_ne_nil q rest), ends_cons (cons_ne_nil q rest)]

theorem ends_append_cons (used : c.kind ≠ .binned) : Ends (l ++ c :: r) ↔ Ends r := by
  rw [ends_append (cons_ne_nil c r)]
  cases r with
  | nil => simp [Ends, used]
  | cons q rest => exact ends_cons (cons_ne_nil q rest)

/-- The blocks behind a block that is not free. -/
theorem tidy_append_cons (used : c.kind ≠ .binned) : Tidy (l ++ c :: r) ↔
    l.IsChain Adjacent ∧ (∀ p, l.getLast? = some p → Adjacent p c) ∧ Tidy r := by
  have ends : Ends (l ++ c :: r) ↔ Ends r := ends_append_cons used
  have free : ∀ q, Adjacent c q := fun q binned => absurd binned used
  constructor
  · rintro ⟨chain, last⟩
    obtain ⟨first, rest, between⟩ := isChain_append.mp chain
    exact ⟨first, fun p last => between p last c rfl, (isChain_cons.mp rest).2, ends.mp last⟩
  · rintro ⟨first, between, rest, last⟩
    refine ⟨isChain_append.mpr ⟨first, isChain_cons.mpr ⟨fun q _ => free q, rest⟩, ?_⟩,
      ends.mpr last⟩
    rintro p last q ⟨⟩
    exact between p last

/-- The bit of the first block says nothing about the blocks behind. -/
theorem Tidy.congr_head (tidy : Tidy (c :: r)) (kind : d.kind = c.kind)
    (size : d.size = c.size) : Tidy (d :: r) := by
  obtain ⟨chain, ends⟩ := tidy
  rw [isChain_cons] at chain
  refine ⟨isChain_cons.mpr ⟨fun q head => ?_, chain.2⟩, (ends_cons_congr kind).mpr ends⟩
  intro binned
  rw [size]
  exact chain.1 q head (kind ▸ binned)

theorem Tidy.mark (tidy : Tidy r) : Tidy (Mem.mark r) := by
  cases r with
  | nil => exact tidy
  | cons q rest => exact tidy.congr_head rfl rfl

/-- In a tidy list the bit above a free block is clear. -/
theorem Tidy.bit_clear (tidy : Tidy (q :: r)) (binned : q.kind = .binned) : bitAbove r = false := by
  obtain ⟨chain, ends⟩ := tidy
  cases r with
  | nil => exact absurd binned (ends q rfl)
  | cons q' rest => exact ((isChain_cons_cons.mp chain).1 binned).1

/-- The blocks behind a block. -/
theorem Tidy.behind (tidy : Tidy (l ++ c :: r)) : Tidy r := by
  obtain ⟨chain, ends⟩ := tidy
  refine ⟨(isChain_cons.mp (isChain_append.mp chain).2.1).2, ?_⟩
  cases r with
  | nil => exact fun p last => absurd last (by simp)
  | cons q rest =>
    have some := cons_ne_nil q rest
    rw [ends_append (cons_ne_nil c _), ends_cons some] at ends
    exact ends

/-- Whatever the bit of the first block becomes. -/
theorem Tidy.bit (tidy : Tidy (q :: r)) (p : Bool) : Tidy ({ q with prevInUse := p } :: r) :=
  tidy.congr_head rfl rfl

/-- A free block in front of tidy blocks. -/
theorem Tidy.cons_binned (tidy : Tidy (q :: r))
    (apart : q.kind = .binned → canCombile d.size q.size = false) :
    Tidy (d :: { q with prevInUse := false } :: r) := by
  refine ⟨isChain_cons_cons.mpr ⟨fun _ => ⟨rfl, apart⟩, (tidy.bit false).adjacent⟩, ?_⟩
  exact (tidy.bit false).ends

/-- A block is freed in front of tidy blocks. It goes back to the top if nothing is behind it;
otherwise it is the first of the blocks. -/
theorem Tidy.freed (tidy : Tidy r) (joins : JoinsAbove y m r bins n r₁ bins₁)
    (size : d.size = n) (puts : Puts y d r₁ bins₁ r' bins') :
    r = [] ∧ r' = [] ∨
      r ≠ [] ∧ m ≤ n ∧ ∃ rest, r' = { d with kind := .binned } :: rest ∧ Tidy r' := by
  cases joins with
  | @join q _ _ clear fits binned =>
    refine .inr ⟨cons_ne_nil q r₁, Nat.le_add_right m q.size, ?_⟩
    cases puts with
    | top => exact absurd binned (tidy.ends q rfl)
    | @bin q₂ rest₂ =>
      have apart := (isChain_cons_cons.mp tidy.adjacent).1 binned
      refine ⟨_, rfl, (tidy.behind (l := [])).cons_binned fun second => ?_⟩
      rw [size]
      exact canCombile_mono (apart.2 second) (Nat.le_add_left q.size m) le_rfl
  | stay apart =>
    cases puts with
    | top => exact .inl ⟨rfl, rfl⟩
    | @bin q rest =>
      refine .inr ⟨cons_ne_nil q rest, le_rfl, _, rfl, tidy.cons_binned fun second => ?_⟩
      rw [size]
      exact apart q rest rfl (tidy.bit_clear second)

theorem Tidy.leaves (tidy : Tidy r) (leaves : Leaves m r r') : Tidy r' := by
  cases leaves with
  | none => exact tidy.mark
  | rest above puts =>
    obtain ⟨-, rfl⟩ | ⟨-, -, rest, -, tidy'⟩ := tidy.mark.freed above rfl puts
    · exact ⟨isChain_nil, fun p last => absurd last (by simp)⟩
    · exact tidy'

/-- A used block takes the place of the blocks `b :: mid`. -/
theorem Tidy.resize (mid : List Block) (tidy : Tidy (l ++ b :: (mid ++ r)))
    (used : c.kind ≠ .binned) (bit : c.prevInUse = b.prevInUse) (leaves : Leaves m r r') :
    Tidy (l ++ c :: r') := by
  obtain ⟨first, -, between⟩ := isChain_append.mp tidy.adjacent
  have behind : Tidy r := by
    obtain rfl | ⟨front, q, rfl⟩ := eq_nil_or_concat mid
    · exact tidy.behind
    · rw [concat_eq_append, append_assoc] at tidy
      exact tidy.behind.behind
  refine (tidy_append_cons used).mpr ⟨first, fun p last => ?_, behind.leaves leaves⟩
  intro binned
  rw [bit]
  exact ⟨(between p last b rfl binned).1, fun free => absurd free used⟩

/-- A block is handed out. -/
theorem Tidy.serving (tidy : Tidy bs) (serving : Serving n bs l c r) : Tidy (l ++ c :: r) := by
  cases serving with
  | bin binned le leaves => exact tidy.resize [] (by simp) rfl leaves
  | top =>
    refine (tidy_append_cons (by simp)).mpr ⟨tidy.adjacent, fun p last binned => ?_,
      isChain_nil, fun p last => absurd last (by simp)⟩
    exact absurd binned (tidy.ends p last)

/-- The last block can be freed: it can be joined with a free block below it, and then there is none
below the two. -/
def Clears (n : Nat) (bs : List Block) : Prop :=
  ∀ l p c, bs = l ++ [p, c] → p.kind = .binned → c.size + p.size ≤ n ∧ Ends l

/-- What was joined below is not next to a free block it could be joined with. -/
theorem Tidy.below (tidy : Tidy (l ++ b :: r)) (below : JoinsBelow a l b bins l' c bins') :
    l'.IsChain Adjacent ∧ ∀ p, l'.getLast? = some p → p.kind = .binned →
      c.prevInUse = false ∧ canCombile p.size c.size = false := by
  obtain ⟨first, -, between⟩ := isChain_append.mp tidy.adjacent
  cases below with
  | join clear fits binned =>
    obtain ⟨lower, -, next⟩ := isChain_append.mp first
    refine ⟨lower, fun p last free => ?_⟩
    obtain ⟨bit, apart⟩ := next p last _ rfl free
    exact ⟨bit, canCombile_mono (apart binned) le_rfl (Nat.le_add_right _ _)⟩
  | stay apart =>
    refine ⟨first, fun p last free => ?_⟩
    have bit := (between p last b rfl free).1
    obtain ⟨l₀, rfl⟩ := getLast?_eq_some_iff.mp last
    exact ⟨bit, by rw [canCombile_comm]; exact apart l₀ p rfl bit⟩

/-- A block is freed. -/
theorem Tidy.free {x : Nat} {bins₂ : Nat → List Nat} (tidy : Tidy (l ++ b :: r))
    (clears : r = [] → Clears maxAllocSize (l ++ [b]))
    (below : JoinsBelow a l b bins l' c bins₁) (above : JoinsAbove x c.size r bins₁ n r₁ bins₂)
    (puts : Puts x { c with size := n } r₁ bins₂ r' bins') : Tidy (l' ++ r') := by
  obtain ⟨first, between⟩ := tidy.below below
  obtain ⟨rfl, rfl⟩ | ⟨-, le, rest, rfl, tidy'⟩ := tidy.behind.freed above rfl puts
  · rw [append_nil]
    refine ⟨first, fun p last free => ?_⟩
    have clears := clears rfl
    obtain ⟨l₀, rfl⟩ := getLast?_eq_some_iff.mp last
    cases below with
    | join clear fits binned =>
      exact (clears (l₀ ++ [p]) _ b (by simp) binned).2 p last free
    | stay apart =>
      have fits := (clears l₀ p b (by simp) free).1
      have apart := (between p last free).2
      rw [canCombile, decide_eq_false_iff_not] at apart
      simp only at apart
      omega
  · refine ⟨isChain_append.mpr ⟨first, tidy'.adjacent, ?_⟩, ?_⟩
    · rintro p last _ ⟨⟩ free
      obtain ⟨bit, apart⟩ := between p last free
      exact ⟨bit, fun _ => canCombile_mono apart le_rfl le⟩
    · rw [ends_append (cons_ne_nil _ rest)]
      exact tidy'.ends

/-- The last two blocks behind a free block `b`. -/
theorem Clears.behind (clears : Clears n (l ++ b :: q :: r))
    (binned : b.kind = .binned) (free : p.kind = .binned) {bit : Bool}
    (eq : { q with prevInUse := bit } :: r = front ++ [p, e]) :
    e.size + p.size ≤ n ∧ front ≠ [] ∧ Ends front := by
  cases front with
  | nil =>
    obtain ⟨rfl, rfl⟩ := cons.inj eq
    have ends := (clears (l ++ [b]) q e (by simp) free).2
    exact absurd binned (ends b (by simp))
  | cons first front =>
    obtain ⟨rfl, rfl⟩ := cons.inj eq
    obtain ⟨le, ends⟩ := clears (l ++ b :: q :: front) p e (by simp) free
    refine ⟨le, cons_ne_nil _ front, ?_⟩
    rw [ends_append (cons_ne_nil b _), ends_cons (cons_ne_nil q front)] at ends
    exact (ends_cons_congr (c := { q with prevInUse := bit }) (b := q) rfl).mpr ends

/-- The same with a block freed in front of them. -/
theorem Clears.freed (clears : Clears n (l ++ b :: q :: r)) (le : n ≤ k) (binned : b.kind = .binned)
    (free : p.kind = .binned) {bit : Bool} (fits : r = [] → q.size + d.size ≤ k)
    (eq : d :: { q with prevInUse := bit } :: r = front ++ [p, e]) :
    e.size + p.size ≤ k ∧ Ends front := by
  cases front with
  | nil =>
    obtain ⟨rfl, eq'⟩ := cons.inj eq
    obtain ⟨rfl, rfl⟩ := cons.inj eq'
    exact ⟨fits rfl, fun p last => absurd last (by simp)⟩
  | cons first front =>
    obtain ⟨rfl, eq'⟩ := cons.inj eq
    obtain ⟨le', some, ends⟩ := clears.behind binned free eq'
    exact ⟨le_trans le' le, (ends_cons some).mpr ends⟩

/-- The last two blocks, when the upper part of a list begins with a used block. -/
theorem split_last (some : r ≠ []) (used : c.kind ≠ .binned) (free : p.kind = .binned)
    (eq : l ++ c :: r = front ++ [p, e]) : ∃ r₀, r = r₀ ++ [p, e] ∧ front = l ++ c :: r₀ := by
  obtain rfl | ⟨r₀, e', rfl⟩ := eq_nil_or_concat r
  · exact absurd rfl some
  rw [concat_eq_append] at eq ⊢
  obtain rfl | ⟨r₁, p', rfl⟩ := eq_nil_or_concat r₀
  · obtain ⟨-, same⟩ := append_inj' (show l ++ [c, e'] = front ++ [p, e] from eq) rfl
    obtain ⟨rfl, -⟩ := cons.inj same
    exact absurd free used
  · rw [concat_eq_append, append_assoc] at eq ⊢
    obtain ⟨rfl, same⟩ := append_inj' (show (l ++ c :: r₁) ++ [p', e'] = front ++ [p, e] by
      rw [← eq, append_assoc]; rfl) rfl
    exact ⟨r₁, by rw [← same]; rfl, rfl⟩

/-- The blocks at the top after a block was handed out below them. -/
theorem Clears.leaves (tidy : Tidy (l ++ b :: r)) (binned : b.kind = .binned)
    (used : c.kind ≠ .binned) (small : b.size ≤ maxAllocSize) (le : m + n ≤ b.size)
    (leaves : Leaves m r r') (clears : Clears (n - 1) (l ++ b :: r)) :
    Clears maxAllocSize (l ++ c :: r') := by
  intro front p e eq free
  obtain rfl | ⟨q, rest, rfl⟩ : r = [] ∨ ∃ q rest, r = q :: rest := by cases r <;> simp
  · exact absurd binned (tidy.ends b (by simp))
  have bound : n - 1 ≤ maxAllocSize := by omega
  cases leaves with
  | none =>
    obtain ⟨r₀, eq', rfl⟩ := split_last (cons_ne_nil _ rest) used free eq
    obtain ⟨le, -, ends⟩ := clears.behind binned free eq'
    exact ⟨le_trans le bound, (ends_append_cons used).mpr ends⟩
  | rest above puts =>
    have some : r' ≠ [] := by
      obtain ⟨nil, -⟩ | ⟨-, -, rest, rfl, -⟩ := tidy.behind.mark.freed above rfl puts
      · exact absurd nil (cons_ne_nil _ rest)
      · exact cons_ne_nil _ rest
    obtain ⟨r₀, eq', rfl⟩ := split_last some used free eq
    rw [ends_append_cons used]
    cases above with
    | join clear fits second =>
      cases puts with
      | top => exact absurd rfl some
      | @bin q₂ rest₂ =>
        -- a second free block is not below the last one
        refine Clears.freed (l := l ++ [b]) (b := q) (by simpa using clears) bound second free
          (fun nil => ?_) eq'
        subst nil
        have ends := (clears (l ++ [b]) q q₂ (by simp) second).2
        exact absurd binned (ends b (by simp))
    | stay apart =>
      cases puts with
      | bin =>
        refine clears.freed bound binned free (fun nil => ?_) eq'
        subst nil
        have := (clears l b q (by simp) binned).1
        simp only
        omega

/-- If the last block can be freed, with a free block below it smaller than the request, it can be
freed after the request. -/
theorem Clears.serving (tidy : Tidy bs) (sizes : ∀ b ∈ bs, b.size ≤ maxAllocSize)
    (serving : Serving n bs l c r) (clears : Clears (n - 1) bs) :
    Clears maxAllocSize (l ++ c :: r) := by
  cases serving with
  | bin binned le leaves =>
    exact clears.leaves tidy binned (by simp) (sizes _ (by simp)) le leaves
  | top =>
    intro l p c eq binned
    obtain ⟨rfl, -⟩ := append_inj' (eq.trans (append_assoc l [p] [c]).symm) rfl
    exact absurd binned (tidy.ends p (by simp))

end Tidy

/-- The heap is well formed between two calls, and its blocks are tidy. -/
def Coalesced (s : PtMalloc) : Prop := ∃ bs bins, Heap s bs bins ∧ Settled bs ∧ Tidy bs

section Coalesced
variable {s s' : PtMalloc} {bs : List Block} {bins : Nat → List Nat}

theorem Coalesced.tidy (coalesced : Coalesced s) (heap : Heap s bs bins) (settled : Settled bs) :
    Tidy bs := by
  obtain ⟨bs', bins', heap', settled', tidy⟩ := coalesced
  rw [heap.unique heap' settled settled']
  exact tidy

theorem Coalesced.of_agree (coalesced : Coalesced s) (agree : Agree s s')
    (mem : s'.mem = s.mem) : Coalesced s' := by
  obtain ⟨bs, bins, heap, settled, tidy⟩ := coalesced
  exact ⟨bs, bins, heap.of_agree agree mem, settled, tidy⟩

end Coalesced

end Dtc.Mem
