import Dtc.Library.Machine

/-!
# Serialising jobs by key

A gate keeps, for every key, the jobs that have arrived and not finished, in
arrival order. The first job of a key is let through; when it finishes, the next
one is let through, either at once or by way of a queue of deferred jobs.

The log records what an observer on both sides of the gate sees: the jobs that
were admitted, those that went through, those that finished, and those that are
through and have not finished. No branch of the gate reads it. The invariant
relates the three histories of one key to the gate's state, and from it follow
mutual exclusion, arrival order, and that no job is lost or duplicated.
-/

namespace Library.SerialGate

open List Function

variable {K J : Type*} [DecidableEq K] [DecidableEq J]

/-- The jobs of a list that carry a given key, in order. -/
def ofKey (key : J → K) (k : K) (jobs : List J) : List J :=
  jobs.filter fun j => key j = k

section OfKey
variable (key : J → K) (k : K)

omit [DecidableEq J] in
@[simp] theorem ofKey_nil : ofKey key k [] = [] := rfl

omit [DecidableEq J] in
@[simp] theorem ofKey_append (xs ys : List J) :
    ofKey key k (xs ++ ys) = ofKey key k xs ++ ofKey key k ys := filter_append ..

omit [DecidableEq J] in
theorem ofKey_singleton (j : J) : ofKey key k [j] = if key j = k then [j] else [] := by
  by_cases h : key j = k <;> simp [ofKey, h]

omit [DecidableEq J] in
@[simp] theorem mem_ofKey {j : J} {jobs : List J} :
    j ∈ ofKey key k jobs ↔ j ∈ jobs ∧ key j = k := by
  simp [ofKey]

@[simp] theorem ofKey_erase (j : J) (jobs : List J) :
    ofKey key k (jobs.erase j) = (ofKey key k jobs).erase j := erase_filter.symm

end OfKey

/-- Jobs that have arrived and not finished, by key, and the deferred queue. -/
structure Gate (K J : Type*) where
  pending : K → List J
  deferred : List J

/-- What happens at the gate. -/
inductive Event (J : Type*) where
  | arrive (j : J)
  | finish (j : J)
  | deliver

/-- One event; the reply is the list of jobs let through. -/
def step (key : J → K) (immediate : Bool) (g : Gate K J) : Event J → List J × Gate K J
  | .arrive j =>
    let waiting := g.pending (key j)
    let g' := { g with pending := Function.update g.pending (key j) (waiting ++ [j]) }
    if waiting.isEmpty then ([j], g') else ([], g')
  | .finish j =>
    match g.pending (key j) with
    | [] => ([], g)
    | head :: rest =>
      if head = j then
        let g' := { g with pending := Function.update g.pending (key j) rest }
        match rest with
        | [] => ([], g')
        | next :: _ =>
          if immediate then ([next], g')
          else ([], { g' with deferred := g.deferred ++ [next] })
      else ([], g)
  | .deliver =>
    match g.deferred with
    | [] => ([], g)
    | j :: rest => ([j], { g with deferred := rest })

/-- What an observer has seen. -/
structure Log (J : Type*) where
  admitted : List J
  released : List J
  completed : List J
  below : List J

/-- The log after an event that let the given jobs through. -/
def Log.observe (log : Log J) (e : Event J) (through : List J) : Log J :=
  match e with
  | .arrive j =>
    { log with
      admitted := log.admitted ++ [j]
      released := log.released ++ through
      below := log.below ++ through }
  | .finish j =>
    { log with
      completed := log.completed ++ [j]
      released := log.released ++ through
      below := log.below.erase j ++ through }
  | .deliver =>
    { log with released := log.released ++ through, below := log.below ++ through }

/-- The invariant, key by key. -/
structure Inv (key : J → K) (g : Gate K J) (log : Log J) : Prop where
  own : ∀ k, ∀ j ∈ g.pending k, key j = k
  admitted : ∀ k, ofKey key k log.admitted = ofKey key k log.completed ++ g.pending k
  released : ∀ k, ofKey key k log.released = ofKey key k log.completed ++ ofKey key k log.below
  head : ∀ k, ofKey key k log.below ++ ofKey key k g.deferred = (g.pending k).head?.toList

/-- A completion is legal for a job that is through and has not finished. -/
def Legal (log : Log J) : Event J → Prop
  | .arrive _ => True
  | .finish j => j ∈ log.below
  | .deliver => True

variable {key : J → K} {g : Gate K J} {log : Log J}

omit [DecidableEq J] in
/-- A job that is through is the first one of its key, and no other job of the
key is through or deferred. -/
theorem Inv.front (inv : Inv key g log) {j : J} (through : j ∈ log.below) :
    ofKey key (key j) log.below = [j] ∧ ofKey key (key j) g.deferred = [] ∧
      ∃ rest, g.pending (key j) = j :: rest := by
  have member : j ∈ ofKey key (key j) log.below := by simp [through]
  have single := inv.head (key j)
  cases hp : g.pending (key j) with
  | nil =>
    rw [hp] at single
    rw [(append_eq_nil_iff.mp single).1] at member
    simp at member
  | cons first rest =>
    rw [hp, head?_cons, Option.toList_some] at single
    obtain ⟨below, -⟩ | ⟨below, deferred⟩ := append_eq_singleton_iff.mp single
    · rw [below] at member
      simp at member
    · rw [below, mem_singleton] at member
      subst member
      exact ⟨below, deferred, rest, rfl⟩

theorem Inv.arrive (inv : Inv key g log) (immediate : Bool) (j : J) :
    Inv key (step key immediate g (.arrive j)).2
      (log.observe (.arrive j) (step key immediate g (.arrive j)).1) := by
  obtain ⟨own, admitted, released, head⟩ := inv
  have through : (step key immediate g (.arrive j)).1 =
      if (g.pending (key j)).isEmpty then [j] else [] := by
    simp only [step]
    split <;> rfl
  have next : (step key immediate g (.arrive j)).2 =
      { g with pending := update g.pending (key j) (g.pending (key j) ++ [j]) } := by
    simp only [step]
    split <;> rfl
  rw [through, next]
  refine ⟨fun k x hx => ?_, fun k => ?_, fun k => ?_, fun k => ?_⟩
  · dsimp only at hx
    by_cases hk : k = key j
    · subst hk
      rw [update_self] at hx
      obtain hx | hx := mem_append.mp hx
      · exact own _ x hx
      · rw [mem_singleton.mp hx]
    · rw [update_of_ne hk] at hx
      exact own k x hx
  · by_cases hk : k = key j
    · subst hk
      simp [Log.observe, ofKey_singleton, admitted]
    · simp [Log.observe, ofKey_singleton, admitted, update_of_ne hk, Ne.symm hk]
  · simp [Log.observe, released]
  · by_cases hk : k = key j
    · subst hk
      cases hp : g.pending (key j) with
      | nil =>
        have empty := head (key j)
        rw [hp] at empty
        obtain ⟨hbelow, hdeferred⟩ := append_eq_nil_iff.mp empty
        simp [Log.observe, ofKey_singleton, hbelow, hdeferred]
      | cons first rest =>
        simpa [Log.observe, hp] using head (key j)
    · split <;>
        simp [Log.observe, ofKey_singleton, head, update_of_ne hk, Ne.symm hk]

theorem Inv.deliver (inv : Inv key g log) (immediate : Bool) :
    Inv key (step key immediate g .deliver).2
      (log.observe .deliver (step key immediate g .deliver).1) := by
  obtain ⟨own, admitted, released, head⟩ := inv
  cases hd : g.deferred with
  | nil =>
    simp only [step, hd, Log.observe, append_nil]
    exact ⟨own, admitted, released, head⟩
  | cons j rest =>
    simp only [step, hd, Log.observe]
    refine ⟨own, admitted, fun k => ?_, fun k => ?_⟩
    · simp [released]
    · have split := head k
      rw [hd, ← singleton_append, ofKey_append] at split
      simpa using split

/-- The finished job leaves its key; the successor, if any, goes through or is
deferred. -/
theorem step_finish (key : J → K) (immediate : Bool) {j : J} {rest : List J}
    (hp : g.pending (key j) = j :: rest) :
    ∃ through late, through ++ late = rest.head?.toList ∧
      step key immediate g (.finish j) =
        (through, ⟨update g.pending (key j) rest, g.deferred ++ late⟩) := by
  simp only [step, hp, if_true]
  cases rest with
  | nil => exact ⟨[], [], rfl, by simp⟩
  | cons next rest =>
    cases immediate with
    | true => exact ⟨[next], [], rfl, by simp⟩
    | false => exact ⟨[], [next], rfl, by simp⟩

section
variable (inv : Inv key g log)

include inv

theorem Inv.finish (immediate : Bool) {j : J} (through : j ∈ log.below) :
    Inv key (step key immediate g (.finish j)).2
      (log.observe (.finish j) (step key immediate g (.finish j)).1) := by
  obtain ⟨below, deferred, rest, hp⟩ := inv.front through
  obtain ⟨own, admitted, released, head⟩ := inv
  obtain ⟨now, late, successor, hstep⟩ := step_finish key immediate hp
  have ofRest : ∀ x ∈ now ++ late, key x = key j := by
    intro x hx
    rw [successor, Option.mem_toList] at hx
    exact own _ x (by rw [hp]; exact mem_cons_of_mem _ (mem_of_mem_head? hx))
  have here : ofKey key (key j) now ++ ofKey key (key j) late = now ++ late := by
    rw [← ofKey_append]
    exact filter_eq_self.mpr fun x hx => by simpa using ofRest x hx
  have elsewhere : ∀ k, k ≠ key j → ofKey key k now = [] ∧ ofKey key k late = [] := by
    intro k hk
    rw [← append_eq_nil_iff, ← ofKey_append]
    exact filter_eq_nil_iff.mpr fun x hx => by simpa [ofRest x hx] using Ne.symm hk
  rw [hstep]
  refine ⟨fun k x hx => ?_, fun k => ?_, fun k => ?_, fun k => ?_⟩
  · dsimp only at hx
    by_cases hk : k = key j
    · subst hk
      rw [update_self] at hx
      exact own _ x (by rw [hp]; exact mem_cons_of_mem _ hx)
    · rw [update_of_ne hk] at hx
      exact own k x hx
  · by_cases hk : k = key j
    · subst hk
      simp [Log.observe, ofKey_singleton, admitted, hp]
    · simp [Log.observe, ofKey_singleton, admitted, update_of_ne hk, Ne.symm hk]
  · by_cases hk : k = key j
    · subst hk
      simp [Log.observe, ofKey_singleton, released, below]
    · have absent : j ∉ ofKey key k log.below := by simp [Ne.symm hk]
      simp [Log.observe, ofKey_singleton, released, Ne.symm hk, elsewhere k hk,
        erase_of_not_mem absent]
  · by_cases hk : k = key j
    · subst hk
      simp [Log.observe, below, deferred, here, successor]
    · have absent : j ∉ ofKey key k log.below := by simp [Ne.symm hk]
      simp [Log.observe, elsewhere k hk, erase_of_not_mem absent, head, update_of_ne hk]

/-- Every legal event keeps the invariant. -/
theorem Inv.step (immediate : Bool) {e : Event J} (legal : Legal log e) :
    Inv key (step key immediate g e).2 (log.observe e (step key immediate g e).1) := by
  cases e with
  | arrive j => exact inv.arrive immediate j
  | finish j => exact inv.finish immediate legal
  | deliver => exact inv.deliver immediate

omit [DecidableEq J] in
/-- At most one job of a key is through. -/
theorem Inv.exclusive (k : K) : (ofKey key k log.below).length ≤ 1 := by
  have bound := congrArg length (inv.head k)
  rw [length_append] at bound
  have short : (g.pending k).head?.toList.length ≤ 1 := by
    cases g.pending k <;> simp
  omega

omit [DecidableEq J] in
/-- The jobs of a key went through in arrival order, each once; what is still
missing is what waits at the gate. -/
theorem Inv.order (k : K) :
    ∃ waiting, ofKey key k log.admitted = ofKey key k log.released ++ waiting ∧
      waiting.Sublist (g.pending k) := by
  rw [inv.admitted, inv.released]
  have single := inv.head k
  cases hp : g.pending k with
  | nil =>
    rw [hp] at single
    exact ⟨[], by simp [(append_eq_nil_iff.mp single).1], List.Sublist.refl _⟩
  | cons first rest =>
    rw [hp, head?_cons, Option.toList_some] at single
    obtain ⟨below, -⟩ | ⟨below, -⟩ := append_eq_singleton_iff.mp single
    · exact ⟨first :: rest, by simp [below], List.Sublist.refl _⟩
    · exact ⟨rest, by simp [below], sublist_cons_self _ _⟩

omit [DecidableEq J] in
/-- When nothing is through and nothing is deferred, every admitted job has gone
through and finished. -/
theorem Inv.quiescent (below : log.below = []) (deferred : g.deferred = []) (k : K) :
    ofKey key k log.released = ofKey key k log.admitted ∧
      ofKey key k log.completed = ofKey key k log.admitted := by
  have empty : g.pending k = [] := by
    have single := inv.head k
    rw [below, deferred] at single
    cases hp : g.pending k with
    | nil => rfl
    | cons => rw [hp] at single; simp at single
  rw [inv.released, inv.admitted, below, empty]
  simp

/-- Every admitted job has finished or is pending. -/
theorem Inv.count_admitted (j : J) :
    log.admitted.count j = log.completed.count j + (g.pending (key j)).count j := by
  have filtered : ∀ jobs, (ofKey key (key j) jobs).count j = jobs.count j := fun jobs =>
    count_filter (by simp)
  rw [← filtered, inv.admitted, count_append, filtered]

/-- Finished jobs are among the admitted ones, with multiplicity. -/
theorem Inv.completed_length_le : log.completed.length ≤ log.admitted.length := by
  have counts : log.completed.Subperm log.admitted :=
    subperm_ext_iff.mpr fun j _ => inv.count_admitted j ▸ Nat.le_add_right _ _
  exact counts.length_le

/-- A job has been admitted and not finished exactly when it is pending. -/
theorem Inv.mem_diff_iff (j : J) : j ∈ log.admitted.diff log.completed ↔ j ∈ g.pending (key j) := by
  have split := inv.count_admitted j
  rw [← count_pos_iff, ← count_pos_iff, count_diff]
  omega

/-- How much is left to do: two steps for each job that has not finished, and one
for each deferred job. -/
def work (g : Gate K J) (log : Log J) : Nat :=
  2 * (log.admitted.length - log.completed.length) + g.deferred.length

/-- Completions and effective deliveries use up the work. -/
theorem Inv.work_lt (immediate : Bool) {e : Event J} (legal : Legal log e)
    (arrival : ∀ j, e ≠ .arrive j) (effective : e = .deliver → g.deferred ≠ []) :
    work (SerialGate.step key immediate g e).2
        (log.observe e (SerialGate.step key immediate g e).1) < work g log := by
  have after := (inv.step immediate legal).completed_length_le
  cases e with
  | arrive j => exact absurd rfl (arrival j)
  | finish j =>
    obtain ⟨-, -, rest, hp⟩ := inv.front legal
    obtain ⟨now, late, successor, hstep⟩ := step_finish key immediate hp
    have short : late.length ≤ 1 := by
      have bound := congrArg length successor
      rw [length_append] at bound
      have : rest.head?.toList.length ≤ 1 := by cases rest <;> simp
      omega
    rw [hstep] at after ⊢
    simp only [work, Log.observe, length_append, length_singleton] at after ⊢
    omega
  | deliver =>
    cases hd : g.deferred with
    | nil => exact absurd hd (effective rfl)
    | cons j rest =>
      simp only [work, SerialGate.step, hd, Log.observe, length_cons]
      omega

end

end Library.SerialGate
