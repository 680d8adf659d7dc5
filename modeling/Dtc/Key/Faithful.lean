import Dtc.Key.PackedKey

/-!
# Packed keys stand for key values

A packed key determines the values it was built from, up to the case of a string, as long as
the length of a string fits the length byte. Integers are checked against their fields, so
their low bytes say everything; `set_key_fields` compares its limit with the size of the
*previous* key, and so lets strings pass that are longer than the length byte can say.
-/

namespace Dtc.Key

open Library.Memory Raw List Function

namespace TableDefinition

/-- Masking the low `k` bits away leaves nothing exactly of the numbers below `2 ^ k`. -/
theorem band_allOnes_shiftLeft_eq_zero {x : BitVec 64} {k : Nat} :
    x &&& (BitVec.allOnes 64 <<< k) = 0#64 ↔ x.toNat < 2 ^ k := by
  constructor
  · intro zero
    apply Nat.lt_pow_two_of_testBit
    intro i high
    rw [BitVec.testBit_toNat]
    by_cases bound : i < 64
    · have bit := congrArg (fun y => y.getLsbD i) zero
      simpa only [BitVec.getLsbD_and, BitVec.getLsbD_shiftLeft, BitVec.getLsbD_allOnes, bound,
        show ¬ i < k by omega, show i - k < 64 by omega, decide_true, decide_false, Bool.not_false,
        Bool.and_true, BitVec.getLsbD_zero] using bit
    · exact BitVec.getLsbD_of_ge x i (by omega)
  · intro small
    apply BitVec.eq_of_getLsbD_eq
    intro i bound
    by_cases high : k ≤ i
    · have bit : x.getLsbD i = false := by
        exact Nat.testBit_lt_two_pow (lt_of_lt_of_le small (Nat.pow_le_pow_right (by decide) high))
      simp [bit]
    · simp [bound]; omega

theorem intmask_getElem {size : Nat} (low : 1 ≤ size) (high : size ≤ 8) :
    intmask[size - 1]? = some (BitVec.allOnes 64 <<< (8 * size)) := by
  interval_cases size <;> decide

/-- The entry of `intoff` for a type and a size. -/
def rangeOffset (type : DField) (size : Nat) : Nat :=
  if type = .signed ∧ size < 8 then 2 ^ (8 * size - 1) else 0

section
variable {type : DField} {size : Nat} (low : 1 ≤ size) (high : size ≤ 8)
  (int : type = .signed ∨ type = .unsigned)
include low high int

theorem intoff_getElem :
    intoff[type.code * 8 + size - 9]? = some (BitVec.ofNat 64 (rangeOffset type size)) := by
  rcases int with rfl | rfl <;> interval_cases size <;> decide

/-- An integer in the range of its field is read back from its low bytes: the high bytes are
all zero, or for a negative number all ones. -/
theorem loadValue_leBytes {val : BitVec 64}
    (inRange : (val.toNat + rangeOffset type size) % 2 ^ 64 < 2 ^ (8 * size)) :
    loadValue type (leBytes size val.toNat) = val := by
  apply BitVec.eq_of_toNat_eq
  rw [loadValue, length_leBytes, BitVec.toNat_ofNat, leNat_append, leNat_leBytes,
    length_leBytes, getD_leBytes (by omega)]
  rcases int with rfl | rfl
  · rw [if_neg (by decide)]
    simp only [rangeOffset, true_and] at inRange
    have top : (128 : UInt8) ≤ UInt8.ofNat (val.toNat / 256 ^ (size - 1)) ↔
        128 ≤ val.toNat / 256 ^ (size - 1) % 256 := by
      rfl
    have ones := leNat_replicate_max (8 - size)
    have zeros := leNat_replicate_zero (8 - size)
    by_cases sign : (128 : UInt8) ≤ UInt8.ofNat (val.toNat / 256 ^ (size - 1))
    · have negative := top.mp sign
      rw [if_pos sign]
      interval_cases size <;> simp only [Nat.reduceLT, if_true, if_false] at inRange <;> omega
    · have nonnegative := mt top.mpr sign
      rw [if_neg sign, zeros]
      interval_cases size <;> simp only [Nat.reduceLT, if_true, if_false] at inRange <;> omega
  · rw [if_pos rfl, leNat_replicate_zero]
    rw [rangeOffset, if_neg (by simp)] at inRange
    have small : val.toNat < 256 ^ size := by
      rw [show 256 = 2 ^ 8 by rfl, ← pow_mul]
      omega
    rw [Nat.mod_eq_of_lt small]
    omega

end

/-- A field whose values are numbers. -/
def Numeric (f : KeyField) : Prop := f.fieldType ≠ .string ∧ f.fieldType ≠ .binary

/-- What `store_value` does with an integer in range. -/
theorem storeValue_ok {f : KeyField} {val : BitVec 64} {bytes : List UInt8}
    (ok : storeValue val f.fieldType f.fieldSize = .ok bytes) (numeric : Numeric f) :
    bytes = leBytes f.fieldSize val.toNat ∧ loadValue f.fieldType bytes = val := by
  obtain ⟨⟨type, size, discard⟩, valid⟩ := f
  have int : type = .signed ∨ type = .unsigned := by
    cases type with
    | signed => exact .inl rfl
    | unsigned => exact .inr rfl
    | none => exact valid.elim
    | string => exact absurd rfl numeric.1
    | binary => exact absurd rfl numeric.2
    | float =>
      -- the number of the float type points behind the end of `intoff`
      have size : size = 4 ∨ size = 8 := valid
      exact absurd ok (by rcases size with size | size <;> simp [storeValue, intoff, DField.code, size])
  have bounds : 1 ≤ size ∧ size ≤ 8 := by
    rcases int with rfl | rfl <;> exact valid
  simp only [storeValue, intoff_getElem bounds.1 bounds.2 int,
    intmask_getElem bounds.1 bounds.2] at ok
  split_ifs at ok with overflow
  cases ok
  refine ⟨rfl, loadValue_leBytes bounds.1 bounds.2 int ?_⟩
  rw [ne_eq, not_not] at overflow
  have inRange := band_allOnes_shiftLeft_eq_zero.mp overflow
  rwa [BitVec.toNat_add, BitVec.toNat_ofNat, Nat.add_mod_mod] at inRange

/-- The offsets of the fields are those of fields packed one behind the other from `a` on. -/
def Laid (field : Nat → KeyField) (offset : Nat → Nat) : List Nat → Nat → Prop
  | [], _ => True
  | i :: is, a => offset i = a ∧ Laid field offset is (a + (field i).fieldSize)

/-- The low bytes of an integer value. -/
def fieldBytes (t : TableDefinition) (values : Nat → KeyValue) (i : Nat) : List UInt8 :=
  match values i with
  | .num u64 => leBytes (t.keyField i).fieldSize u64.toNat
  | .str _ => []

variable {t : TableDefinition} {values : Nat → KeyValue} {packKey packed : Nat → UInt8}
  {is : List Nat}

/-- The integers of a key are written one behind the other, and are read back. -/
theorem storeFields_ok {fail : Int} {a : Nat} (numeric : ∀ i ∈ is, Numeric (t.keyField i))
    (laid : Laid t.keyField t.offset is a) (ok : storeFields t values fail is packKey = .ok packed) :
    packed = store packKey a (is.flatMap (fieldBytes t values)) ∧
      (is.flatMap (fieldBytes t values)).length = (is.map fun i => (t.keyField i).fieldSize).sum ∧
      ∀ m, Holds m a (is.flatMap (fieldBytes t values)) → loadFields t m is a = is.map values := by
  induction is generalizing a packKey with
  | nil =>
    cases ok
    exact ⟨store_nil.symm, rfl, fun _ _ => rfl⟩
  | cons i is ih =>
    rw [storeFields] at ok
    cases value : values i with
    | str bytes => simp [value, u64] at ok
    | num val =>
      simp only [value, u64] at ok
      cases stored : storeValue val (t.keyField i).fieldType (t.keyField i).fieldSize with
      | error e => cases e <;> simp [stored] at ok
      | ok bytes =>
        simp only [stored, laid.1] at ok
        obtain ⟨rfl, loaded⟩ := storeValue_ok stored (numeric i (by simp))
        obtain ⟨same, length, read⟩ := ih (fun j mem => numeric j (by simp [mem])) laid.2 ok
        have first : fieldBytes t values i = leBytes (t.keyField i).fieldSize val.toNat := by
          rw [fieldBytes, value]
        simp only [flatMap_cons, map_cons, sum_cons, first]
        refine ⟨?_, by simp [length], fun m holds => ?_⟩
        · rw [same, ← store_append, length_leBytes]
        · obtain ⟨here, behind⟩ := holds_append.mp holds
          rw [length_leBytes] at behind
          rw [loadFields, here.slice_eq (length_leBytes _ _), loaded, read m behind, value]

/-- Reading does not look at the offsets. -/
theorem loadFields_offset (t : TableDefinition) (offset : Nat → Nat) (packKey : Nat → UInt8)
    (is : List Nat) (p : Nat) :
    loadFields { t with offset } packKey is p = loadFields t packKey is p := by
  induction is generalizing p with
  | nil => rfl
  | cons i is ih => rw [loadFields, loadFields, ih]

/-- Reading looks at the bytes of the fields only. -/
theorem loadFields_congr {m m' : Nat → UInt8} {p : Nat}
    (same : slice m p (is.map fun i => (t.keyField i).fieldSize).sum =
      slice m' p (is.map fun i => (t.keyField i).fieldSize).sum) :
    loadFields t m is p = loadFields t m' is p := by
  induction is generalizing p with
  | nil => rfl
  | cons i is ih =>
    rw [map_cons, sum_cons, slice_add, slice_add] at same
    obtain ⟨here, behind⟩ := append_inj same (by simp)
    rw [loadFields, loadFields, here, ih behind]

theorem fieldSize_pos (f : KeyField) : 1 ≤ f.fieldSize := by
  obtain ⟨⟨type, size, discard⟩, valid⟩ := f
  cases type with
  | none => exact valid.elim
  | float =>
    have size : size = 4 ∨ size = 8 := valid
    dsimp only
    omega
  | signed | unsigned | string | binary => exact valid.1

theorem Numeric.fieldSize_le {f : KeyField} (numeric : Numeric f) : f.fieldSize ≤ 8 := by
  obtain ⟨⟨type, size, discard⟩, valid⟩ := f
  cases type with
  | none => exact valid.elim
  | float =>
    have size : size = 4 ∨ size = 8 := valid
    dsimp only
    omega
  | signed | unsigned => exact valid.2
  | string => exact absurd rfl numeric.1
  | binary => exact absurd rfl numeric.2

/-- One turn of the loop of `set_key_fields`. -/
theorem keyLayout_cons (field : Nat → KeyField) (i : Nat) (is : List Nat) (offset : Nat → Nat)
    (maxSize nvar : Nat) :
    (Numeric (field i) ∧ keyLayout field (i :: is) (offset, maxSize, nvar) =
      keyLayout field is (update offset i (maxSize % 256), maxSize + (field i).fieldSize, nvar)) ∨
    (¬ Numeric (field i) ∧ keyLayout field (i :: is) (offset, maxSize, nvar) =
      keyLayout field is (update offset i (maxSize % 256), 1 + (field i).fieldSize, nvar + 1)) := by
  have valid := (field i).valid
  cases type : (field i).fieldType <;> simp [Valid, type] at valid <;>
    simp [keyLayout, Numeric, type]

theorem nvar_le_keyLayout (field : Nat → KeyField) (is : List Nat) (offset : Nat → Nat)
    (maxSize nvar : Nat) : nvar ≤ (keyLayout field is (offset, maxSize, nvar)).2.2 := by
  induction is generalizing offset maxSize nvar with
  | nil => exact le_rfl
  | cons i is ih =>
    rcases keyLayout_cons field i is offset maxSize nvar with ⟨-, step⟩ | ⟨-, step⟩ <;> rw [step]
    · exact ih _ _ _
    · exact (Nat.le_succ nvar).trans (ih _ _ _)

variable {field : Nat → KeyField}

theorem keyLayout_offset_of_notMem {offset : Nat → Nat} {maxSize nvar j : Nat} (notMem : j ∉ is) :
    (keyLayout field is (offset, maxSize, nvar)).1 j = offset j := by
  induction is generalizing offset maxSize nvar with
  | nil => rfl
  | cons i is ih =>
    rw [mem_cons, not_or] at notMem
    rcases keyLayout_cons field i is offset maxSize nvar with ⟨-, step⟩ | ⟨-, step⟩ <;>
      rw [step, ih notMem.2, update_of_ne notMem.1]

/-- If no field is of variable length, the fields are packed one behind the other. -/
theorem keyLayout_numeric {offset : Nat → Nat} {maxSize nvar : Nat}
    (fixed : (keyLayout field is (offset, maxSize, nvar)).2.2 = nvar) :
    (∀ i ∈ is, Numeric (field i)) ∧
      (keyLayout field is (offset, maxSize, nvar)).2.1 =
        maxSize + (is.map fun i => (field i).fieldSize).sum ∧
      (is.Nodup → maxSize + (is.map fun i => (field i).fieldSize).sum ≤ 256 →
        Laid field (keyLayout field is (offset, maxSize, nvar)).1 is maxSize) := by
  induction is generalizing offset maxSize nvar with
  | nil => exact ⟨by simp, rfl, fun _ _ => trivial⟩
  | cons i is ih =>
    rcases keyLayout_cons field i is offset maxSize nvar with ⟨here, step⟩ | ⟨-, step⟩
    · rw [step] at fixed ⊢
      obtain ⟨numeric, size, laid⟩ := ih fixed
      simp only [map_cons, sum_cons, nodup_cons]
      refine ⟨?_, by omega, fun nodup bound => ⟨?_, laid nodup.2 (by omega)⟩⟩
      · rintro j (_ | ⟨_, mem⟩)
        · exact here
        · exact numeric j mem
      · have := fieldSize_pos (field i)
        rw [keyLayout_offset_of_notMem nodup.1, update_self, Nat.mod_eq_of_lt (by omega)]
    · have more := nvar_le_keyLayout field is (update offset i (maxSize % 256))
        (1 + (field i).fieldSize) (nvar + 1)
      rw [← step] at more
      omega

/-- The layout of a key of integers. -/
structure Packs (t : TableDefinition) : Prop where
  numeric : ∀ i ∈ List.range t.keyFields, Numeric (t.keyField i)
  laid : Laid t.keyField t.offset (List.range t.keyFields) 0
  size : t.keyFormat = ((List.range t.keyFields).map fun i => (t.keyField i).fieldSize).sum

theorem sum_fieldSize_le (numeric : ∀ i ∈ is, Numeric (field i)) :
    (is.map fun i => (field i).fieldSize).sum ≤ is.length * 8 := by
  induction is with
  | nil => exact le_rfl
  | cons i is ih =>
    have here := (numeric i (by simp)).fieldSize_le
    have behind := ih fun j mem => numeric j (by simp [mem])
    simp only [map_cons, sum_cons, length_cons]
    omega

theorem setKeyFields_packs {t₀ : TableDefinition} {n : Int} (accepted : t₀.setKeyFields n = (0, t))
    (unset : t₀.keyFormat = 0) (integer : t.keyFormat ≠ 0) : t.Packs := by
  simp only [setKeyFields] at accepted
  generalize (if n < 0 then 1 else n) = n' at accepted
  by_cases zero : n' ≤ 0
  · rw [if_pos zero] at accepted
    cases accepted
    exact absurd unset integer
  rw [if_neg zero] at accepted
  by_cases many : 32 < n'
  · rw [if_pos many] at accepted
    cases accepted
  have few : min n'.toNat (t₀.numFields + 1) ≤ 32 := by omega
  generalize min n'.toNat (t₀.numFields + 1) = keyFields at accepted few
  by_cases fixed : (keyLayout t₀.keyField (range keyFields) (t₀.offset, 0, 0)).2.2 = 0
  · obtain ⟨numeric, size, laid⟩ := keyLayout_numeric fixed
    have bound := sum_fieldSize_le numeric
    rw [length_range] at bound
    split_ifs at accepted
    · cases accepted
    · cases accepted
      refine ⟨numeric, laid nodup_range (by omega), ?_⟩
      simp only [size] at integer bound ⊢
      omega
  · rw [if_neg fixed] at accepted
    split_ifs at accepted <;> cases accepted <;> exact absurd rfl integer

/-- The bytes of a packed integer key, and what is read back from them. -/
theorem buildPackedKey_integer (packs : t.Packs) (integer : t.keyFormat ≠ 0) {bufSize : BitVec 32}
    (ok : t.buildPackedKey values bufSize packKey = .ok packed) :
    t.packedKey packed = (range t.keyFields).flatMap (fieldBytes t values) ∧
      t.unpackKey packed = t.keyValues values := by
  have stored : ∃ fail offset, Laid t.keyField offset (range t.keyFields) 0 ∧
      storeFields { t with offset } values fail (range t.keyFields) packKey = .ok packed := by
    rw [buildPackedKey, if_neg integer] at ok
    by_cases single : t.keyFields = 1
    · rw [if_pos single] at ok
      split_ifs at ok
      rw [single]
      exact ⟨-4, fun _ => 0, ⟨rfl, trivial⟩, ok⟩
    · rw [if_neg single] at ok
      split_ifs at ok
      exact ⟨-6, t.offset, packs.laid, ok⟩
  obtain ⟨fail, offset, laid, stored⟩ := stored
  obtain ⟨same, length, read⟩ := storeFields_ok (t := { t with offset }) packs.numeric laid stored
  have length : ((range t.keyFields).flatMap (fieldBytes t values)).length = t.keyFormat :=
    length.trans packs.size.symm
  have holds : Holds packed 0 ((range t.keyFields).flatMap (fieldBytes t values)) :=
    same ▸ holds_store
  constructor
  · rw [packedKey, packedKeySize, if_neg integer, holds.slice_eq length]
  · rw [unpackKey, if_neg integer, keyValues, if_neg integer]
    exact (loadFields_offset _ _ _ _ _).symm.trans (read packed holds)

/-- A string behind its length byte: as much of it is read as the length byte says. -/
theorem read_string {m : Nat → UInt8} {bytes : List UInt8}
    (holds : Holds m 0 (UInt8.ofNat bytes.length :: bytes)) :
    slice m 0 (1 + (m 0).toNat) = UInt8.ofNat bytes.length :: bytes.take (bytes.length % 256) ∧
      slice m 1 (m 0).toNat = bytes.take (bytes.length % 256) := by
  obtain ⟨first, behind⟩ := holds_cons.mp holds
  have length : (m 0).toNat = bytes.length % 256 := by rw [first, UInt8.toNat_ofNat']
  have read := behind.slice_take (Nat.mod_le bytes.length 256)
  rw [length, Nat.add_comm, slice, first]
  exact ⟨congrArg _ read, read⟩

/-- The bytes of a packed string key, and what is read back from them. -/
theorem buildPackedKey_string (string : t.keyFormat = 0) {bufSize : BitVec 32}
    (ok : t.buildPackedKey values bufSize packKey = .ok packed) :
    ∃ bytes, t.keyValues values = [.str bytes] ∧ bytes.length = (values 0).length ∧
      t.packedKey packed = UInt8.ofNat bytes.length :: bytes.take (bytes.length % 256) ∧
      t.unpackKey packed = [.str (bytes.take (bytes.length % 256))] := by
  have stored : ∃ bytes, t.keyValues values = [.str bytes] ∧ bytes.length = (values 0).length ∧
      packed = store packKey 0 (UInt8.ofNat bytes.length :: bytes) := by
    rw [buildPackedKey, if_pos string] at ok
    cases value : values 0 with
    | num u64 => simp [value] at ok
    | str raw =>
      simp only [value] at ok
      simp only [keyValues, string, value, if_true]
      split_ifs at ok with _ _ lower
      · cases ok
        exact ⟨_, by rw [if_pos lower], length_map _, rfl⟩
      · cases ok
        exact ⟨_, by rw [if_neg lower], rfl, rfl⟩
  obtain ⟨bytes, normal, length, rfl⟩ := stored
  obtain ⟨whole, behind⟩ := read_string (m := store packKey 0 (_ :: bytes)) holds_store
  refine ⟨bytes, normal, length, ?_, ?_⟩
  · rw [packedKey, packedKeySize, if_pos string, whole]
  · rw [unpackKey, if_pos string, behind]

/-- What a packed key is for: it is equal for equal keys only, and the key can be read from it. -/
def Faithful (t : TableDefinition) (v w : Nat → KeyValue) (packedV packedW : Nat → UInt8) : Prop :=
  (t.packedKey packedV = t.packedKey packedW ↔ t.keyValues v = t.keyValues w) ∧
    t.unpackKey packedV = t.keyValues v ∧ t.unpackKey packedW = t.keyValues w

section
variable {v w : Nat → KeyValue} {sizeV sizeW : BitVec 32} {bufV bufW packedV packedW : Nat → UInt8}
  (packV : t.buildPackedKey v sizeV bufV = .ok packedV)
  (packW : t.buildPackedKey w sizeW bufW = .ok packedW)
include packV packW

theorem faithful_integer (packs : t.Packs) (integer : t.keyFormat ≠ 0) :
    t.Faithful v w packedV packedW := by
  obtain ⟨bytesV, unpackV⟩ := buildPackedKey_integer packs integer packV
  obtain ⟨bytesW, unpackW⟩ := buildPackedKey_integer packs integer packW
  refine ⟨⟨fun same => ?_, fun same => ?_⟩, unpackV, unpackW⟩
  · -- the two keys have the same bytes, and reading depends on them only
    rw [← unpackV, ← unpackW, unpackKey, unpackKey, if_neg integer, if_neg integer]
    rw [packedKey, packedKey, packedKeySize, packedKeySize, if_neg integer, if_neg integer,
      packs.size] at same
    exact loadFields_congr same
  · rw [keyValues, keyValues, if_neg integer, if_neg integer] at same
    rw [bytesV, bytesW, flatMap_def, flatMap_def]
    refine congrArg flatten (map_congr_left fun i mem => ?_)
    rw [fieldBytes, fieldBytes, map_inj_left.mp same i mem]

theorem faithful_string_iff (string : t.keyFormat = 0) :
    t.Faithful v w packedV packedW ↔ (v 0).length ≤ 255 ∧ (w 0).length ≤ 255 := by
  obtain ⟨bytesV, normalV, lengthV, wholeV, unpackV⟩ := buildPackedKey_string string packV
  obtain ⟨bytesW, normalW, lengthW, wholeW, unpackW⟩ := buildPackedKey_string string packW
  rw [Faithful, wholeV, wholeW, unpackV, unpackW, normalV, normalW, ← lengthV, ← lengthW]
  have short : ∀ bytes : List UInt8, bytes.take (bytes.length % 256) = bytes ↔
      bytes.length ≤ 255 := by
    intro bytes
    constructor
    · intro same
      have length := congrArg length same
      rw [length_take] at length
      omega
    · intro bound
      exact take_of_length_le (by omega)
  simp only [cons.injEq, and_true, KeyValue.str.injEq, short]
  constructor
  · rintro ⟨-, readV, readW⟩
    exact ⟨readV, readW⟩
  · rintro ⟨readV, readW⟩
    rw [(short bytesV).mpr readV, (short bytesW).mpr readW]
    refine ⟨⟨fun same => same.2, fun same => ⟨?_, same⟩⟩, readV, readW⟩
    rw [same]

end

/-- For every table that `set_key_fields` accepts and every two keys that `build_packed_key`
accepts, the packed keys are equal exactly for equal keys and give the keys back, exactly if
string keys are at most 255 bytes long. -/
theorem packedKey_faithful_iff {field : Nat → KeyField} {numFields : Nat} {n : Int}
    {t : TableDefinition} (accepted : (new field numFields).setKeyFields n = (0, t))
    {v w : Nat → KeyValue} {sizeV sizeW : BitVec 32} {bufV bufW packedV packedW : Nat → UInt8}
    (packV : t.buildPackedKey v sizeV bufV = .ok packedV)
    (packW : t.buildPackedKey w sizeW bufW = .ok packedW) :
    ((t.packedKey packedV = t.packedKey packedW ↔ t.keyValues v = t.keyValues w) ∧
      t.unpackKey packedV = t.keyValues v ∧ t.unpackKey packedW = t.keyValues w) ↔
    (t.keyFormat = 0 → (v 0).length ≤ 255 ∧ (w 0).length ≤ 255) := by
  by_cases string : t.keyFormat = 0
  · refine (faithful_string_iff packV packW string).trans ?_
    simp [string]
  · have packs := setKeyFields_packs accepted rfl string
    refine iff_of_true (faithful_integer packV packW packs string) ?_
    intro zero
    exact absurd zero string

/-- A signed key field of four bytes followed by unsigned ones of two bytes. -/
def intFields (i : Nat) : KeyField :=
  if i = 0 then ⟨⟨.signed, 4, false⟩, ⟨by decide, by decide⟩⟩ else ⟨⟨.unsigned, 2, false⟩, ⟨by decide, by decide⟩⟩

/-- A string key field of 300 bytes. -/
def longField : KeyField := ⟨⟨.string, 300, false⟩, ⟨by decide, by decide⟩⟩

/-- The key `(-5, 65535)`. -/
def intKey (i : Nat) : KeyValue := if i = 0 then .num (-5) else .num 65535

theorem packedKey_faithful_two_ints :
    ∃ t packed, (new intFields 3).setKeyFields 2 = (0, t) ∧
      t.buildPackedKey intKey 256 (fun _ => 0) = .ok packed ∧
      t.packedKey packed = [251, 255, 255, 255, 255, 255] ∧
      t.unpackKey packed = [.num (-5), .num 65535] := by
  have pack : ∃ packed, ((new intFields 3).setKeyFields 2).2.buildPackedKey intKey 256
      (fun _ => 0) = .ok packed ∧
      ((new intFields 3).setKeyFields 2).2.packedKey packed = [251, 255, 255, 255, 255, 255] :=
    ⟨_, rfl, by decide +kernel⟩
  obtain ⟨packed, pack, bytes⟩ := pack
  have accepted : (new intFields 3).setKeyFields 2 = (0, ((new intFields 3).setKeyFields 2).2) :=
    rfl
  refine ⟨_, packed, accepted, pack, bytes, ?_⟩
  refine ((packedKey_faithful_iff accepted pack pack).mpr ?_).2.1
  intro string
  exact absurd string (by decide)

/-- A key of 256 bytes has the packed key of the empty string: its length byte is zero. -/
theorem long_key_packed_as_empty :
    ∃ t packedV packedW, (new (fun _ => longField) 1).setKeyFields 1 = (0, t) ∧
      t.buildPackedKey (fun _ => .str (List.replicate 256 97)) 1024 (fun _ => 0) = .ok packedV ∧
      t.buildPackedKey (fun _ => .str []) 1024 (fun _ => 0) = .ok packedW ∧
      t.packedKey packedV = t.packedKey packedW ∧
      t.keyValues (fun _ => .str (List.replicate 256 97)) ≠ t.keyValues (fun _ => .str []) ∧
      t.unpackKey packedV = [.str []] := by
  refine ⟨_, store (fun _ => 0) 0 (0 :: replicate 256 97), store (fun _ => 0) 0 [0], rfl,
    ?_, rfl, ?_, ?_, ?_⟩
  · have lower : (replicate 256 97).map internalToLower = replicate 256 97 := by
      rw [map_replicate]
      rfl
    rw [buildPackedKey, if_pos rfl]
    simp only [length_replicate]
    rw [if_neg (by decide), if_neg (by decide)]
    simp only [lower, ite_self, length_replicate]
    rfl
  all_goals decide +kernel

end TableDefinition
end Dtc.Key
