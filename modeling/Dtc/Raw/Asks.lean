import Dtc.Raw.Requests

/-!
# What a replacement asks the allocator for

`replace_cur_row` asks for the size of the data with the new row in place of the old one. Where
the new row is not longer, `encode_row` has already added it to `data_size_`, so that it is
counted twice: the call that is to shorten the chunk asks for more than the data had.
-/

namespace Dtc.Raw

open Library Memory

/-- The call looks at the answers of the allocator to requests in `S` only. -/
def AsksOnly {β : Type} (call : Allocator → β) (S : Nat → Prop) : Prop :=
  ∀ a b : Allocator, (∀ n, S n → a.answer n = b.answer n) → call a = call b

namespace RawData

/-- The object when a request for `m` bytes is granted, with other bytes behind the chunk. -/
def granted (s : RawData) (m : Nat) : RawData :=
  { s with mem := fun i => if i < min s.size m then s.mem i else s.mem i + 1, size := m }

/-- An allocator that has nothing. -/
def emptyAllocator : Allocator := ⟨fun _ => none, nofun, nofun⟩

/-- An allocator that serves requests for `m` bytes. -/
def onlyAllocator (s : RawData) (m : Nat) (range : m < 2 ^ 32) : Allocator where
  answer n := if n = m then some ⟨m, fun i => s.mem i + 1⟩ else none
  covers n grant answer := by
    split_ifs at answer with same
    obtain rfl := Option.some.inj answer
    exact same.le
  range n grant answer := by
    split_ifs at answer
    obtain rfl := Option.some.inj answer
    exact range

/-- A call whose outcome tells a grant from a refusal asks for what it passes to `ReAlloc`. -/
theorem asksOnly_iff {β : Type} {call : Allocator → β} (s : RawData) {m : Nat} {S : Nat → Prop}
    (range : m < 2 ^ 32) (same : ∀ a b, s.reAlloc m a = s.reAlloc m b → call a = call b)
    (differ : ∀ a b, s.reAlloc m a = none → s.reAlloc m b = some (s.granted m) → call a ≠ call b) :
    AsksOnly call S ↔ S m := by
  constructor
  · intro asks
    by_contra other
    have agree : ∀ n, S n → emptyAllocator.answer n = (onlyAllocator s m range).answer n := by
      intro n inS
      have ne : n ≠ m := fun eq => other (eq ▸ inS)
      simp [emptyAllocator, onlyAllocator, ne]
    refine differ _ _ rfl ?_ (asks _ _ agree)
    simp [reAlloc, onlyAllocator, granted]
  · intro inS a b agree
    exact same a b (by rw [reAlloc, reAlloc, agree m inS])

theorem setCounters_mem {s : RawData} {i : Nat} (above : 9 ≤ i) :
    s.setDataSize.setRowCount.mem i = s.mem i := by
  unfold setDataSize setRowCount
  split_ifs <;> simp only
  · exact store_outside (.inr (by rw [length_leBytes]; omega))
  · exact store_outside (.inr (by rw [length_leBytes]; omega))
  · rw [store_outside (.inr (by rw [length_leBytes]; omega)),
      store_outside (.inr (by rw [length_leBytes]; omega))]

variable {fmt : FloatFormat} {t : TableDefinition} {s : RawData}
  {pre post : List (UInt8 × RowValue)} {flag : UInt8} {row : RowValue}

theorem ite_ret_ne {p : Prop} [Decidable p] {a b : RawData} :
    (if p then ((-1 : Int), a) else (0, b)).1 ≠ ecNoMem := by
  split
  · exact (by decide : (-1 : Int) ≠ ecNoMem)
  · exact (by decide : (0 : Int) ≠ ecNoMem)

/-- The code of a call for a longer row tells whether its request was refused. -/
theorem replaceLonger_ret {newSize cur : Nat} {alloc : Allocator} :
    (replaceLonger fmt t s row flag newSize cur alloc).1 = ecNoMem ↔
      s.reAlloc (sub32 (add32 s.dataSize newSize) cur) alloc = none := by
  unfold replaceLonger
  generalize s.reAlloc (sub32 (add32 s.dataSize newSize) cur) alloc = answer
  cases answer with
  | none => simp only
  | some s' =>
    refine iff_of_false ?_ nofun
    simp only
    exact ite_ret_ne

/-- A row that is not longer: once it is written, the request counts it twice. -/
theorem replaceShorter_eq (s : RawData) (newSize cur : Nat)
    (ok : (encodeRowHere fmt t { s with offset := s.rowOffset } row flag).1 = 0) :
    ∃ s₁ : RawData, s₁.dataSize = add32 s.dataSize (rowBytes fmt t s.keyIndex flag row).length ∧
      ∀ alloc, replaceShorter fmt t s row flag newSize cur alloc =
        (0, ((s₁.reAlloc (sub32 (add32 s₁.dataSize newSize) cur) alloc).getD s₁).uncountRow cur) := by
  have wrote := encodeRowHere_wrote ok
  unfold replaceShorter
  simp only [ok, ne_eq, not_true_eq_false, if_false]
  generalize (encodeRowHere fmt t { s with offset := s.rowOffset } row flag).2 = s₀ at wrote ⊢
  refine ⟨if 0 < sub32 s.dataSize s.offset ∧ s₀.offset ≠ s.offset then
    { s₀ with mem := move s₀.mem s₀.offset s.offset (sub32 s.dataSize s.offset) } else s₀, ?_,
    fun alloc => rfl⟩
  split_ifs <;> exact wrote.dataSize

end RawData

open RawData

variable {fmt : FloatFormat} {t : TableDefinition} {s : RawData}
  {pre post : List (UInt8 × RowValue)} {flag : UInt8} {row : RowValue}

/-- The requests in order: for a longer row the size of the data with it, for another row nothing
above the size that the data has. -/
def RequestInOrder (dataSize cur newSize n : Nat) : Prop :=
  if cur < newSize then n = dataSize + newSize - cur else n ≤ dataSize

/-- A row that is counted twice, in 32 bits. -/
theorem twice_counted {d n c : Nat} (shorter : n ≤ c) (inside : c ≤ d) (range : d < 2 ^ 32) :
    sub32 (add32 (add32 d n) n) c ≤ d ↔ 2 * n ≤ c ∨ 2 ^ 32 ≤ d + 2 * n - c := by
  have total : sub32 (add32 (add32 d n) n) c = (d + 2 * n - c) % 2 ^ 32 := by
    unfold sub32 add32
    rw [Nat.mod_add_mod, show d + n + n = d + 2 * n - c + c by omega]
    omega
  rw [total]
  obtain small | large := Nat.lt_or_ge (d + 2 * n - c) (2 ^ 32)
  · rw [Nat.mod_eq_of_lt small]
    omega
  · refine iff_of_true ?_ (.inr large)
    omega

section Row
variable (at_ : Layout.At fmt t s pre flag row post) {row' : RowValue} {isDirty temp : Bool}
  {cur newSize : Nat} (hcur : cur = (rowBytes fmt t s.keyIndex flag row).length)
  (hnew : newSize = calcRowSize t row' s.keyIndex)
include at_ hcur hnew

theorem longer_asks_iff (longer : cur < newSize) (S : Nat → Prop) :
    AsksOnly (fun alloc => s.replaceCurRow fmt t row' isDirty alloc temp) S ↔
      S (sub32 (add32 s.dataSize newSize) cur) := by
  have eq := fun alloc => at_.replaceCurRow_eq row' isDirty alloc temp
  simp only [← hcur, ← hnew, longer, not_true, false_and, if_false, if_true] at eq
  have code : ∀ alloc, (s.replaceCurRow fmt t row' isDirty alloc temp).1 = ecNoMem ↔
      { s with offset := s.rowOffset + cur }.reAlloc
        (sub32 (add32 s.dataSize newSize) cur) alloc = none := by
    intro alloc
    rw [eq, fst_ite_ret]
    exact replaceLonger_ret
  refine asksOnly_iff { s with offset := s.rowOffset + cur } (Nat.mod_lt _ (by omega))
    (fun a b same => ?_) fun a b refused served same => ?_
  · rw [eq, eq]
    unfold RawData.replaceLonger
    simp only [same]
  · have ret := (code a).mpr refused
    rw [same, code, served] at ret
    exact nomatch ret

theorem shorter_asks_iff (shorter : ¬cur < newSize) (memory : temp = true)
    (small : (rowBytes fmt t s.keyIndex flag row').length < 2 ^ 32) (S : Nat → Prop) :
    AsksOnly (fun alloc => s.replaceCurRow fmt t row' isDirty alloc temp) S ↔
      S (sub32 (add32 (add32 s.dataSize newSize) newSize) cur) := by
  subst memory
  obtain ⟨-, -, -, size⟩ := at_.regions
  have inside := at_.layout.inside
  have length : (rowBytes fmt t s.keyIndex (if isDirty then operUpdate else flag) row').length =
      newSize := by
    rw [hnew, calcRowSize_eq fmt t row' s.keyIndex flag, Nat.mod_eq_of_lt small]
    rfl
  have eq := fun alloc => at_.replaceCurRow_eq row' isDirty alloc true
  simp only [← hcur, ← hnew, shorter, Bool.true_eq_false, and_false, if_false] at eq
  have ok : (encodeRowHere fmt t { s with offset := s.rowOffset } row'
      (if isDirty then operUpdate else flag)).1 = 0 := by
    refine encodeRowHere_fits ?_
    dsimp only
    omega
  obtain ⟨s₁, dataSize, call⟩ := replaceShorter_eq { s with offset := s.rowOffset + cur } newSize cur ok
  rw [length] at dataSize
  simp only [call, ne_eq, not_true_eq_false, if_false] at eq
  rw [← dataSize]
  have range : sub32 (add32 s₁.dataSize newSize) cur < 2 ^ 32 := Nat.mod_lt _ (by omega)
  generalize sub32 (add32 s₁.dataSize newSize) cur = m at eq range ⊢
  refine asksOnly_iff s₁ range (fun a b same => ?_) fun a b refused served same => ?_
  · rw [eq, eq, same]
  · -- the chunks differ in a byte behind their ends
    rw [eq, eq, refused, served, Option.getD_none, Option.getD_some] at same
    have mem : (s₁.uncountRow cur).setDataSize.setRowCount.mem (m + 9) =
        ((s₁.granted m).uncountRow cur).setDataSize.setRowCount.mem (m + 9) := by
      rw [(Prod.mk.inj same).2]
    rw [setCounters_mem (Nat.le_add_left 9 m), setCounters_mem (Nat.le_add_left 9 m),
      uncountRow_mem, uncountRow_mem, granted] at mem
    dsimp only at mem
    exact absurd mem (by simp)

/-- A row that cannot be kept aside or written: nothing is asked for. -/
theorem quiet_asks (shorter : ¬cur < newSize)
    (quiet : temp = false ∨ 2 ^ 32 ≤ (rowBytes fmt t s.keyIndex flag row').length) (S : Nat → Prop) :
    AsksOnly (fun alloc => s.replaceCurRow fmt t row' isDirty alloc temp) S := by
  intro a b _
  have eq := fun alloc => at_.replaceCurRow_eq row' isDirty alloc temp
  simp only [← hcur, ← hnew, shorter, not_false_eq_true, true_and, if_false] at eq
  cases temp with
  | false =>
    simp only [if_true] at eq
    exact (eq a).trans (eq b).symm
  | true =>
    have large := quiet.resolve_left (by decide)
    have failed : (encodeRowHere fmt t { s with offset := s.rowOffset } row'
        (if isDirty then operUpdate else flag)).1 ≠ 0 := by
      intro ok
      have room := (encodeRowHere_wrote ok).room
      have range := at_.layout.range
      rw [rowBytes, List.length_cons] at room large
      omega
    dsimp only
    rw [eq, eq]
    unfold RawData.replaceShorter
    simp only [if_pos failed]

end Row

/-- The requests of `replace_cur_row` are in order if and only if a longer row leaves the data below
four gigabytes, and another row has at most half the size of the old one. Apart from that, nothing is
asked for if the temporary buffer cannot be allocated or the row cannot be written, and the size
asked for may overflow to a small one. -/
theorem replaceCurRow_asks_iff (at_ : Layout.At fmt t s pre flag row post) (row' : RowValue)
    (isDirty temp : Bool) :
    let cur := (rowBytes fmt t s.keyIndex flag row).length
    let newSize := calcRowSize t row' s.keyIndex
    AsksOnly (fun alloc => s.replaceCurRow fmt t row' isDirty alloc temp)
        (RequestInOrder s.dataSize cur newSize) ↔
      if cur < newSize then s.dataSize + newSize - cur < 2 ^ 32
      else temp = false ∨ 2 ^ 32 ≤ (rowBytes fmt t s.keyIndex flag row').length ∨
        2 * newSize ≤ cur ∨ 2 ^ 32 ≤ s.dataSize + 2 * newSize - cur := by
  intro cur newSize
  obtain ⟨-, -, -, size⟩ := at_.regions
  have inside := at_.layout.inside
  have range := at_.layout.range
  have curLe : cur ≤ s.dataSize := by omega
  have newLt : newSize < 2 ^ 32 := by
    have eq : newSize = _ := calcRowSize_eq fmt t row' s.keyIndex flag
    omega
  by_cases longer : cur < newSize
  · rw [longer_asks_iff at_ rfl rfl longer, RequestInOrder, if_pos longer, if_pos longer]
    unfold sub32 add32
    omega
  · rw [if_neg longer]
    by_cases quiet : temp = false ∨ 2 ^ 32 ≤ (rowBytes fmt t s.keyIndex flag row').length
    · refine iff_of_true ?_ (quiet.imp_right .inl)
      exact quiet_asks at_ rfl rfl longer quiet _
    · obtain ⟨memory, small⟩ := not_or.mp quiet
      rw [shorter_asks_iff at_ rfl rfl longer (by simpa using memory) (not_le.mp small),
        RequestInOrder, if_neg longer]
      simp only [memory, small, Bool.true_eq_false, false_or]
      exact twice_counted (not_lt.mp longer) curLe (by omega)

theorem blobNode_at : Layout.At halfFormat blobTable blobNode [] operSelect (blobRow none) [] :=
  ⟨blobNode_layout, by decide +kernel⟩

theorem replaceCurRow_asks_longer :
    AsksOnly (fun alloc => blobNode.replaceCurRow halfFormat blobTable (blobRow (some 7)) true alloc true)
      (RequestInOrder blobNode.dataSize 5 6) :=
  (replaceCurRow_asks_iff blobNode_at (blobRow (some 7)) true true).mpr (by decide +kernel)

/-- A row replaced by itself: 25 bytes of data, and 30 bytes are asked for. -/
theorem replaceCurRow_asks_too_much :
    calcRowSize blobTable (blobRow none) blobNode.keyIndex = 5 ∧
      (rowBytes halfFormat blobTable blobNode.keyIndex operSelect (blobRow none)).length = 5 ∧
      blobNode.dataSize = 25 ∧
      ¬AsksOnly (fun alloc => blobNode.replaceCurRow halfFormat blobTable (blobRow none) true alloc true)
        (RequestInOrder blobNode.dataSize 5 5) := by
  refine ⟨by decide +kernel, by decide +kernel, by decide +kernel, fun asks => ?_⟩
  have request := (shorter_asks_iff blobNode_at (by decide +kernel) (by decide +kernel)
    (lt_irrefl 5) rfl (by decide +kernel) _).mp asks
  exact absurd request (by unfold RequestInOrder; decide +kernel)

end Dtc.Raw
