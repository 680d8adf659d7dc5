import Mathlib

/-!
# Deterministic machines and their finite runs

A machine is a step function from a state and an input to a reply and a next
state. Everything the environment chooses (requests, outcomes of external
calls, failures of an allocator) is part of the input, so quantifying over
input lists quantifies over every interleaving the environment can produce.

`Admitted` records that each input of a list is legal in the state in which it
is consumed. The invariant rule and the simulation rule package the induction
over runs; a client proves one step and obtains the statement about every run.
-/

namespace Library.Machine

variable {σ τ ι ω : Type*}

/-- The state after a list of inputs. -/
def final (step : σ → ι → ω × σ) : σ → List ι → σ
  | s, [] => s
  | s, input :: inputs => final step (step s input).2 inputs

/-- The replies given along a list of inputs. -/
def replies (step : σ → ι → ω × σ) : σ → List ι → List ω
  | _, [] => []
  | s, input :: inputs => (step s input).1 :: replies step (step s input).2 inputs

section
variable (step : σ → ι → ω × σ) (s : σ)
include step s

@[simp] theorem final_nil : final step s [] = s := rfl

@[simp] theorem final_cons (input : ι) (inputs : List ι) :
    final step s (input :: inputs) = final step (step s input).2 inputs := rfl

@[simp] theorem replies_cons (input : ι) (inputs : List ι) :
    replies step s (input :: inputs) =
      (step s input).1 :: replies step (step s input).2 inputs := rfl

end

/-- Each input is legal at the state in which the machine consumes it. -/
def Admitted (legal : σ → ι → Prop) (step : σ → ι → ω × σ) : σ → List ι → Prop
  | _, [] => True
  | s, input :: inputs => legal s input ∧ Admitted legal step (step s input).2 inputs

@[simp] theorem admitted_nil (legal : σ → ι → Prop) (step : σ → ι → ω × σ) (s : σ) :
    Admitted legal step s [] := trivial

instance decidableAdmitted (legal : σ → ι → Prop) [∀ s i, Decidable (legal s i)]
    (step : σ → ι → ω × σ) : ∀ (s : σ) (inputs : List ι),
      Decidable (Admitted legal step s inputs)
  | _, [] => isTrue trivial
  | s, input :: inputs =>
    have := decidableAdmitted legal step (step s input).2 inputs
    inferInstanceAs (Decidable (legal s input ∧ Admitted legal step (step s input).2 inputs))

variable {step : σ → ι → ω × σ} {legal : σ → ι → Prop}

variable {s : σ} {inputs : List ι}

/-- An invariant kept by every legal step holds after every legal run. -/
theorem final_invariant (inv : σ → Prop)
    (keeps : ∀ s input, inv s → legal s input → inv (step s input).2) (start : inv s)
    (legalRun : Admitted legal step s inputs) : inv (final step s inputs) := by
  induction inputs generalizing s with
  | nil => exact start
  | cons input inputs ih => exact ih (keeps s input start legalRun.1) legalRun.2

/-- The invariant rule without a legality condition. -/
theorem final_invariant' (inv : σ → Prop) (keeps : ∀ s input, inv s → inv (step s input).2)
    (start : inv s) (inputs : List ι) : inv (final step s inputs) := by
  induction inputs generalizing s with
  | nil => exact start
  | cons input inputs ih => exact ih (keeps s input start)

/-- When a step keeps a property of the states exactly if it is legal, the property holds in
every state of a run exactly if all inputs are legal. -/
theorem forall_take_iff_admitted (inv good : σ → Prop) (sound : ∀ s, inv s → good s)
    (keeps : ∀ s input, inv s → legal s input → inv (step s input).2)
    (breaks : ∀ s input, inv s → good (step s input).2 → legal s input) (start : inv s)
    (inputs : List ι) :
    (∀ k, good (final step s (inputs.take k))) ↔ Admitted legal step s inputs := by
  induction inputs generalizing s with
  | nil => simpa using sound s start
  | cons input inputs ih =>
    constructor
    · intro always
      have ok := breaks s input start (always 1)
      exact ⟨ok, (ih (keeps s input start ok)).mp fun k => always (k + 1)⟩
    · rintro ⟨ok, rest⟩ k
      cases k with
      | zero => exact sound s start
      | succ k => exact (ih (keeps s input start ok)).mpr rest k

/-- Replies that every legal step gives are given along every legal run. -/
theorem replies_invariant (inv : σ → Prop) (good : ω → Prop)
    (keeps : ∀ s input, inv s → legal s input → inv (step s input).2 ∧ good (step s input).1)
    (start : inv s) (legalRun : Admitted legal step s inputs) :
    ∀ reply ∈ replies step s inputs, good reply := by
  induction inputs generalizing s with
  | nil => exact fun _ h => absurd h List.not_mem_nil
  | cons input inputs ih =>
    obtain ⟨kept, first⟩ := keeps s input start legalRun.1
    exact List.forall_mem_cons.mpr ⟨first, ih kept legalRun.2⟩

/-- A run whose steps use up a measure is no longer than the measure. -/
theorem length_le_measure (inv : σ → Prop) (measure : σ → Nat)
    (decreases : ∀ s input, inv s → legal s input →
      inv (step s input).2 ∧ measure (step s input).2 < measure s) (start : inv s)
    (legalRun : Admitted legal step s inputs) :
    inputs.length ≤ measure s := by
  induction inputs generalizing s with
  | nil => exact Nat.zero_le _
  | cons input inputs ih =>
    obtain ⟨kept, less⟩ := decreases s input start legalRun.1
    have rest := ih kept legalRun.2
    rw [List.length_cons]
    omega

/-- A finite trace of a transition relation, with its replies. -/
inductive Trace (next : τ → ι → ω → τ → Prop) : τ → List ι → List ω → τ → Prop
  | nil (t : τ) : Trace next t [] [] t
  | cons {t t' t'' : τ} {input : ι} {inputs : List ι} {reply : ω} {rest : List ω}
      (first : next t input reply t') (later : Trace next t' inputs rest t'') :
      Trace next t (input :: inputs) (reply :: rest) t''

/-- Simulation with an exact side condition. Legal steps are simulated, and a
step that the abstract relation allows is legal and stays related; then a run is
a trace of the abstract relation exactly when all its inputs are legal. -/
theorem trace_iff_admitted {next : τ → ι → ω → τ → Prop} (rel : σ → τ → Prop)
    (simulated : ∀ s t input, rel s t → legal s input → ∃ t', next t input (step s input).1 t')
    (reflected : ∀ s t t' input, rel s t → next t input (step s input).1 t' →
      legal s input ∧ rel (step s input).2 t') {t : τ} (start : rel s t) (inputs : List ι) :
    (∃ t', Trace next t inputs (replies step s inputs) t' ∧ rel (final step s inputs) t') ↔
      Admitted legal step s inputs := by
  induction inputs generalizing s t with
  | nil => exact ⟨fun _ => trivial, fun _ => ⟨t, .nil t, start⟩⟩
  | cons input inputs ih =>
    constructor
    · rintro ⟨t', trace, finish⟩
      cases trace with
      | cons first later =>
        obtain ⟨ok, related⟩ := reflected s t _ input start first
        exact ⟨ok, (ih related).mp ⟨t', later, finish⟩⟩
    · rintro ⟨ok, rest⟩
      obtain ⟨middle, first⟩ := simulated s t input start ok
      obtain ⟨t', later, finish⟩ := (ih (reflected s t middle input start first).2).mpr rest
      exact ⟨t', .cons first later, finish⟩

end Library.Machine
