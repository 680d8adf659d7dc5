import Mathlib

/-!
# The choice of an instance

`get_instance_from_array` goes once around an array of replicas, from where the last call has
stopped, and stays with a replica for as many calls as its weight says. It returns the replica
that it has looked at last also when it has found none, so the array of low priority is asked only
if that of high priority is empty.
-/

namespace Dtc.Agent

open List

/-- `cache_instance` -/
structure CacheInstance where
  weight : Nat
  nerr : Nat
  nsConnQ : Nat
  failureNum : Nat
  lastFailureMs : Nat

namespace CacheInstance

def isHealthy (ci : CacheInstance) : Bool := ci.nerr < ci.nsConnQ

/-- The time has passed for which an instance with errors is left alone; after six failures it is
left alone for good. -/
def isBack (now : Nat) (ci : CacheInstance) : Bool :=
  ci.nsConnQ ≤ ci.nerr && ci.failureNum < 6 &&
    1000 * 2 ^ ci.failureNum < (now + 2 ^ 64 - ci.lastFailureMs) % 2 ^ 64

def isAvailable (now : Nat) (ci : CacheInstance) : Bool := ci.isHealthy || ci.isBack now

end CacheInstance

/-- An array of instances. -/
structure Replicas where
  n : Nat
  ins : Nat → CacheInstance

/-- `array_idx` and `cnt`, which are `uint16_t`. -/
structure Cursor where
  idx : Nat
  cnt : Nat

/-- The loop of `get_instance_from_array` over the values of `i`. -/
def scan (now : Nat) (r : Replicas) (arrayIdx : Nat) :
    List Nat → Nat → Nat → Nat × Cursor × Replicas
  | [], cnt, idx => (idx, ⟨idx % 2 ^ 16, cnt⟩, r)
  | i :: is, cnt, _ =>
    let idx := (i + arrayIdx + r.n) % r.n
    let ci := r.ins idx
    if cnt < ci.weight ∧ ci.isHealthy then (idx, ⟨idx % 2 ^ 16, (cnt + 1) % 2 ^ 16⟩, r)
    else if ci.isBack now then
      (idx, ⟨(idx + 1) % 2 ^ 16, 0⟩, { r with ins := Function.update r.ins idx { ci with nerr := 0 } })
    else scan now r arrayIdx is 0 idx

/-- `get_instance_from_array` -/
def getInstanceFromArray (now : Nat) (r : Replicas) (c : Cursor) :
    Option Nat × Cursor × Replicas :=
  if r.n = 0 then (none, c, r)
  else
    let (idx, c, r) := scan now r c.idx (List.range (r.n + 1)) c.cnt 0
    (some idx, c, r)

structure Server where
  high : Replicas
  low : Replicas
  highCursor : Cursor
  lowCursor : Cursor

/-- `get_instance_from_server`; `true` is high priority. -/
def getInstanceFromServer (now : Nat) (s : Server) : Option (Bool × Nat) × Server :=
  match getInstanceFromArray now s.high s.highCursor with
  | (some idx, highCursor, high) => (some (true, idx), { s with highCursor, high })
  | (none, _, _) =>
    let (idx, lowCursor, low) := getInstanceFromArray now s.low s.lowCursor
    (idx.map (false, ·), { s with lowCursor, low })

/-- The time and the instances at one call: what happens to the instances between two calls is
left open. -/
structure View where
  now : Nat
  high : Replicas
  low : Replicas

/-- What one call returns, and the cursors behind it. -/
def View.call (v : View) (c : Cursor × Cursor) : Option (Bool × Nat) × Cursor × Cursor :=
  let (picked, s) := getInstanceFromServer v.now ⟨v.high, v.low, c.1, c.2⟩
  (picked, s.highCursor, s.lowCursor)

/-- What some calls return, and the cursors behind them. -/
def calls : List View → Cursor × Cursor → List (Option (Bool × Nat)) × Cursor × Cursor
  | [], c => ([], c)
  | v :: views, c =>
    let (picked, c) := v.call c
    let (rest, c) := calls views c
    (picked :: rest, c)

/-! ### Availability -/

/-- An instance of the array that is available. -/
def Replicas.Serves (now : Nat) (r : Replicas) (i : Nat) : Prop :=
  i < r.n ∧ (r.ins i).isAvailable now = true

/-- A call has returned an instance that is available. -/
def Server.Serves (now : Nat) (s : Server) : Option (Bool × Nat) → Prop
  | some (true, i) => s.high.Serves now i
  | some (false, i) => s.low.Serves now i
  | none => False

variable {now arrayIdx cnt idx : Nat} {r : Replicas} {is : List Nat}

theorem CacheInstance.isAvailable_iff {ci : CacheInstance} :
    ci.isAvailable now = true ↔ ci.isHealthy = true ∨ ci.isBack now = true :=
  Bool.or_eq_true_iff

section Available
variable (positive : ∀ i < r.n, 0 < (r.ins i).weight) (some : 0 < r.n)

include positive some

open CacheInstance

/-- With a counter of 0 the loop takes the first instance that is available. -/
theorem scan_zero (found : ∃ i ∈ is, r.Serves now ((i + arrayIdx + r.n) % r.n)) :
    r.Serves now (scan now r arrayIdx is 0 idx).1 := by
  induction is generalizing idx with
  | nil => simp at found
  | cons i is ih =>
    have below := Nat.mod_lt (i + arrayIdx + r.n) some
    have weight := positive _ below
    rw [scan]
    split_ifs with healthy back
    · exact ⟨below, isAvailable_iff.mpr (.inl healthy.2)⟩
    · exact ⟨below, isAvailable_iff.mpr (.inr back)⟩
    · refine ih ?_
      obtain ⟨j, mem, available⟩ := found
      rcases mem_cons.mp mem with rfl | mem
      · rcases isAvailable_iff.mp available.2 with good | good
        · exact absurd ⟨weight, good⟩ healthy
        · exact absurd good back
      · exact ⟨j, mem, available⟩

/-- The loop comes to every instance with a counter of 0. -/
theorem scan_available (found : ∃ k, r.Serves now k) :
    r.Serves now (scan now r arrayIdx (range (r.n + 1)) cnt idx).1 := by
  have below := Nat.mod_lt (0 + arrayIdx + r.n) some
  rw [range_succ_eq_map, scan]
  split_ifs with healthy back
  · exact ⟨below, isAvailable_iff.mpr (.inl healthy.2)⟩
  · exact ⟨below, isAvailable_iff.mpr (.inr back)⟩
  · obtain ⟨k, serves⟩ := found
    -- this many steps behind the second instance is the instance `k`
    let j := (k + (r.n - (arrayIdx + 1) % r.n)) % r.n
    have place : (j + 1 + arrayIdx + r.n) % r.n = k := by
      have less := Nat.mod_lt (arrayIdx + 1) some
      rw [Nat.add_mod_right, Nat.add_assoc, Nat.mod_add_mod, Nat.add_comm 1, ← Nat.add_mod_mod,
        show k + (r.n - (arrayIdx + 1) % r.n) + (arrayIdx + 1) % r.n = k + r.n by omega,
        Nat.add_mod_right, Nat.mod_eq_of_lt serves.1]
    have mem : j + 1 ∈ (range r.n).map Nat.succ :=
      mem_map_of_mem (mem_range.mpr (Nat.mod_lt _ some))
    exact scan_zero positive some ⟨j + 1, mem, place.symm ▸ serves⟩

end Available

/-! ### Shares -/

section Shares
variable (n : Nat) (weight : Nat → Nat)

/-- The calls that one turn from the instance `k` on answers, by instance. -/
def turn (k : Nat) : List Nat :=
  (List.range' k n).flatMap fun j => List.replicate (weight (j % n)) (j % n)

theorem turn_mod (k : Nat) : turn n weight (k % n) = turn n weight k := by
  simp only [turn, range'_eq_map_range, flatMap_map, Nat.mod_add_mod]

variable {n weight}

theorem turn_eq (some : 0 < n) (k : Nat) : ∃ rest,
    turn n weight k = replicate (weight (k % n)) (k % n) ++ rest ∧
      turn n weight (k + 1) = rest ++ replicate (weight (k % n)) (k % n) := by
  obtain ⟨m, rfl⟩ := Nat.exists_eq_succ_of_ne_zero some.ne'
  refine ⟨_, by rw [turn, range'_succ, flatMap_cons], ?_⟩
  rw [turn, range'_concat, flatMap_append, flatMap_singleton, one_mul,
    Nat.add_assoc, Nat.add_comm 1, Nat.add_mod_right]

/-- The instances that the next calls of a whole turn return. -/
def upcoming (n : Nat) (weight : Nat → Nat) (c : Cursor) : List Nat :=
  (turn n weight c.idx).rotate c.cnt

theorem perm_upcoming (some : 0 < n) (c : Cursor) :
    (upcoming n weight c).Perm ((range n).flatMap fun k => replicate (weight k) k) := by
  have first : turn n weight 0 = (range n).flatMap fun k => replicate (weight k) k := by
    rw [turn, ← range_eq_range']
    exact flatMap_congr fun k mem => by rw [Nat.mod_eq_of_lt (mem_range.mp mem)]
  rw [← first]
  refine (rotate_perm _ _).trans ?_
  induction c.idx with
  | zero => exact .refl _
  | succ k ih =>
    obtain ⟨rest, here, next⟩ := @turn_eq n weight some k
    rw [next]
    exact (perm_append_comm.trans (.of_eq here.symm)).trans ih

theorem rotate_replicate {w m a : Nat} (below : m < w) (rest : List Nat) :
    (replicate w a ++ rest).rotate m =
      a :: (replicate (w - (m + 1)) a ++ rest ++ replicate m a) := by
  have split : replicate w a =
      replicate m a ++ a :: replicate (w - (m + 1)) a := by
    rw [← replicate_succ, replicate_append_replicate]
    congr 1
    omega
  have turned := rotate_append_length_eq (replicate m a) (a :: replicate (w - (m + 1)) a ++ rest)
  rw [length_replicate] at turned
  rw [split, append_assoc, turned]
  rfl

/-- A counter below the weight: the same instance again. -/
theorem upcoming_cons {c : Cursor} (some : 0 < n) (below : c.cnt < weight (c.idx % n)) : ∃ rest,
    upcoming n weight c = c.idx % n :: rest ∧
      upcoming n weight ⟨c.idx % n, c.cnt + 1⟩ = rest ++ [c.idx % n] := by
  obtain ⟨rest, here, -⟩ := @turn_eq n weight some c.idx
  have head := rotate_replicate (a := c.idx % n) below rest
  rw [← here] at head
  refine ⟨_, head, ?_⟩
  rw [upcoming, turn_mod, ← rotate_rotate, head, rotate_cons_succ, rotate_zero]

/-- A counter at the weight: as with the next instance. -/
theorem upcoming_next {k : Nat} (some : 0 < n) :
    upcoming n weight ⟨k, weight (k % n)⟩ = upcoming n weight ⟨k + 1, 0⟩ := by
  obtain ⟨rest, here, next⟩ := @turn_eq n weight some k
  have turned := rotate_append_length_eq (replicate (weight (k % n)) (k % n)) rest
  rw [length_replicate] at turned
  rw [upcoming, upcoming, here, next, turned, rotate_zero]

/-- The instances of high priority with their weights, which do not change. -/
structure View.Weighted (n : Nat) (weight : Nat → Nat) (v : View) : Prop where
  count : v.high.n = n
  weights : ∀ i < n, (v.high.ins i).weight = weight i

/-- All instances of high priority are healthy. -/
structure View.Healthy (n : Nat) (weight : Nat → Nat) (v : View) : Prop
    extends View.Weighted n weight v where
  healthy : ∀ i < n, (v.high.ins i).isHealthy = true

def Cursor.Fits (n : Nat) (weight : Nat → Nat) (c : Cursor) : Prop := c.cnt ≤ weight (c.idx % n)

variable {v : View} {c : Cursor × Cursor}

theorem getInstanceFromServer_high (now : Nat) {s : Server} (some : s.high.n ≠ 0) :
    getInstanceFromServer now s =
      let found := scan now s.high s.highCursor.idx (range (s.high.n + 1)) s.highCursor.cnt 0
      (.some (true, found.1), { s with highCursor := found.2.1, high := found.2.2 }) := by
  rw [getInstanceFromServer, getInstanceFromArray, if_neg some]

section Calls
variable (some : 0 < n) (few : n ≤ 2 ^ 16)

include some few

theorem scan_fits (weights : ∀ i < n, (r.ins i).weight = weight i) (count : r.n = n)
    (reset : cnt = 0 ∨ is ≠ []) : (scan now r arrayIdx is cnt idx).2.1.Fits n weight := by
  induction is generalizing cnt idx with
  | nil => simp [scan, Cursor.Fits, reset.resolve_right]
  | cons i is ih =>
    have below := Nat.mod_lt (i + arrayIdx + n) some
    subst count
    rw [scan]
    split_ifs with healthy back
    · rw [weights _ below] at healthy
      rw [Cursor.Fits, Nat.mod_eq_of_lt (a := _ % _) (by omega), Nat.mod_mod]
      exact (Nat.mod_le _ _).trans healthy.1
    · exact Nat.zero_le _
    · exact ih (.inl rfl)

theorem View.Weighted.fits (weighted : v.Weighted n weight) (c : Cursor × Cursor) :
    (v.call c).2.1.Fits n weight := by
  rw [View.call, getInstanceFromServer_high _ (weighted.count ▸ some.ne')]
  exact scan_fits some few weighted.weights weighted.count (.inr (by simp))

/-- One call with healthy instances. -/
theorem View.Healthy.call (healthy : v.Healthy n weight)
    (small : ∀ i < n, 0 < weight i ∧ weight i < 2 ^ 16) (fits : c.1.Fits n weight) :
    ∃ k c' rest, v.call c = (.some (true, k), c', c.2) ∧
      upcoming n weight c.1 = k :: rest ∧ upcoming n weight c' = rest ++ [k] := by
  have take : ∀ (i cnt idx : Nat) (is : List Nat), cnt < weight ((i + c.1.idx) % n) →
      scan v.now v.high c.1.idx (i :: is) cnt idx =
        ((i + c.1.idx) % n, ⟨(i + c.1.idx) % n, cnt + 1⟩, v.high) := by
    intro i cnt idx is less
    have below := Nat.mod_lt (i + c.1.idx) some
    have bound := (small _ below).2
    rw [scan, healthy.count, Nat.add_mod_right, healthy.weights _ below,
      if_pos ⟨less, healthy.healthy _ below⟩, Nat.mod_eq_of_lt (by omega : _ < 2 ^ 16),
      Nat.mod_eq_of_lt (by omega : cnt + 1 < 2 ^ 16)]
  rw [View.call, getInstanceFromServer_high _ (healthy.count ▸ some.ne'), healthy.count,
    range_succ_eq_map]
  by_cases less : c.1.cnt < weight (c.1.idx % n)
  · obtain ⟨rest, here, next⟩ := upcoming_cons some less
    refine ⟨_, _, rest, ?_, here, next⟩
    rw [take 0 _ _ _ (by rwa [Nat.zero_add]), Nat.zero_add]
  · have full : c.1.cnt = weight (c.1.idx % n) := by
      rw [Cursor.Fits] at fits
      omega
    have first := (small _ (Nat.mod_lt (1 + c.1.idx) some)).1
    obtain ⟨rest, here, next⟩ := @upcoming_cons n weight ⟨c.1.idx + 1, 0⟩ some
      (by rwa [Nat.add_comm])
    refine ⟨_, _, rest, ?_, ?_, next⟩
    · obtain ⟨m, rfl⟩ := Nat.exists_eq_succ_of_ne_zero some.ne'
      have below := Nat.mod_lt c.1.idx some
      have notBack : (v.high.ins (c.1.idx % (m + 1))).isBack v.now = false := by
        have good := healthy.healthy _ below
        rw [CacheInstance.isHealthy, decide_eq_true_eq] at good
        simp [CacheInstance.isBack, Nat.not_le.mpr good]
      rw [scan, healthy.count, Nat.add_mod_right, Nat.zero_add, healthy.weights _ below,
        if_neg (fun taken => less taken.1), notBack, if_neg Bool.false_ne_true,
        range_succ_eq_map, map_cons, take 1 _ _ _ first, Nat.add_comm 1]
    · rw [← here, ← upcoming_next some, ← full]

/-- The calls of a turn with healthy instances. -/
theorem calls_healthy (small : ∀ i < n, 0 < weight i ∧ weight i < 2 ^ 16) {round : List View}
    (healthy : ∀ v ∈ round, v.Healthy n weight) (fits : c.1.Fits n weight)
    (short : round.length ≤ (upcoming n weight c.1).length) :
    (calls round c).1 =
      ((upcoming n weight c.1).take round.length).map fun k => .some (true, k) := by
  induction round generalizing c with
  | nil => rfl
  | cons v round ih =>
    obtain ⟨first, healthy⟩ := forall_mem_cons.mp healthy
    obtain ⟨k, c', rest, called, here, next⟩ := first.call some few small fits
    have fits' := first.fits some few c
    rw [called] at fits'
    rw [here, length_cons, length_cons] at short
    rw [calls, called, here, length_cons, take_succ_cons, map_cons]
    dsimp only
    rw [ih healthy fits' (by rw [next, length_append]; omega), next,
      take_append_of_le_length (by omega)]

theorem calls_fits {before : List View} (weighted : ∀ v ∈ before, v.Weighted n weight)
    (fits : c.1.Fits n weight) : (calls before c).2.1.Fits n weight := by
  induction before generalizing c with
  | nil => exact fits
  | cons v before ih =>
    obtain ⟨first, weighted⟩ := forall_mem_cons.mp weighted
    exact ih weighted (first.fits some few c)

end Calls

end Shares

/-- A call returns an instance that is available if there is one, and one of high priority if
there is such a one, if and only if there is none of high priority at all, an available one of high
priority, or no available one of low priority. And a turn of calls returns each of the healthy
instances of high priority as often as its weight says, if the weights are below `2 ^ 16`. -/
theorem instance_choice (now : Nat) (s : Server)
    (high : ∀ i < s.high.n, 0 < (s.high.ins i).weight)
    (low : ∀ i < s.low.n, 0 < (s.low.ins i).weight) :
    (((∃ i, s.high.Serves now i) ∨ (∃ i, s.low.Serves now i) →
          s.Serves now (getInstanceFromServer now s).1) ∧
        ((∃ i, s.high.Serves now i) → ∃ i, (getInstanceFromServer now s).1 = some (true, i)) ↔
      s.high.n = 0 ∨ (∃ i, s.high.Serves now i) ∨ ¬ ∃ i, s.low.Serves now i) ∧
    ∀ (n : Nat) (weight : Nat → Nat) (before round : List View), n ≤ 2 ^ 16 →
      (∀ i < n, 0 < weight i ∧ weight i < 2 ^ 16) → (∀ v ∈ before, v.Weighted n weight) →
      (∀ v ∈ round, v.Healthy n weight) → round.length = ((List.range n).map weight).sum →
      (calls round (calls before (⟨0, 0⟩, ⟨0, 0⟩)).2).1.Perm
        (((List.range n).flatMap fun k => List.replicate (weight k) k).map
          fun k => some (true, k)) := by
  constructor
  · by_cases none : s.high.n = 0
    · have noHigh : ¬ ∃ i, s.high.Serves now i := fun ⟨i, below, _⟩ => by omega
      rw [getInstanceFromServer, getInstanceFromArray, if_pos none]
      simp only [noHigh, none, false_or, true_or, iff_true, false_imp_iff, and_true]
      rintro ⟨i, serves⟩
      have some : 0 < s.low.n := Nat.zero_lt_of_lt serves.1
      rw [getInstanceFromArray, if_neg some.ne']
      exact scan_available low some ⟨i, serves⟩
    · rw [getInstanceFromServer_high now none]
      by_cases found : ∃ i, s.high.Serves now i
      · simp only [found, true_or, or_true, iff_true, true_imp_iff]
        exact ⟨scan_available high (Nat.pos_of_ne_zero none) found, _, rfl⟩
      · simp only [found, none, false_or, false_imp_iff, and_true]
        exact ⟨fun taken lowFound => found ⟨_, taken lowFound⟩, fun missing lowFound =>
          absurd lowFound missing⟩
  · intro n weight before round few small weighted healthy whole
    rcases Nat.eq_zero_or_pos n with rfl | some
    · rw [length_eq_zero_iff.mp whole]
      exact .refl _
    · have fits := calls_fits some few weighted (c := (⟨0, 0⟩, ⟨0, 0⟩)) (Nat.zero_le _)
      have perm := @perm_upcoming n weight some (calls before (⟨0, 0⟩, ⟨0, 0⟩)).2.1
      have length : round.length =
          (upcoming n weight (calls before (⟨0, 0⟩, ⟨0, 0⟩)).2.1).length := by
        rw [perm.length_eq, length_flatMap, whole]
        simp
      rw [calls_healthy some few small healthy fits length.le, length, take_length]
      exact perm.map _

/-- Instances of weight 1, one healthy for each number, the others given up. -/
def replicasOf (health : List Bool) : Replicas :=
  ⟨health.length, fun i => ⟨1, if health.getD i false then 0 else 1, 1, 6, 0⟩⟩

theorem instance_choice_two :
    (calls (List.replicate 2 ⟨0, replicasOf [true, true], replicasOf []⟩) (⟨0, 0⟩, ⟨0, 0⟩)).1.Perm
        [some (true, 0), some (true, 1)] ∧
      (getInstanceFromServer 0 ⟨replicasOf [false, true], replicasOf [], ⟨0, 0⟩, ⟨0, 0⟩⟩).1 =
        some (true, 1) := by
  refine ⟨(instance_choice 0 ⟨replicasOf [false, true], replicasOf [], ⟨0, 0⟩, ⟨0, 0⟩⟩ (by decide)
    (by decide)).2 2 (fun _ => 1) [] _ (by decide) (by decide) (by simp) ?_ rfl, by decide⟩
  intro v mem
  rw [eq_of_mem_replicate mem]
  exact ⟨⟨rfl, fun _ _ => rfl⟩, by decide⟩

/-- An instance of high priority is returned although it is given up, and one of low priority is
healthy. -/
theorem given_up_instance_returned :
    (getInstanceFromServer 0 ⟨replicasOf [false], replicasOf [true], ⟨0, 0⟩, ⟨0, 0⟩⟩).1 =
        some (true, 0) ∧
      ((replicasOf [false]).ins 0).isAvailable 0 = false ∧
      ((replicasOf [true]).ins 0).isAvailable 0 = true := by
  decide

end Dtc.Agent
