/-
# PTEditor.Theory.Runs -- runs of a step function, and invariants under a guard

A system that takes one action after another, in whatever order its clients
happen to act: a run is a list of actions, `states` are the states it goes
through, `Guarded` says that every action met a condition in the state in which
it was taken.  `run_induction` is the invariant rule: what the first state has
and every guarded step keeps, the last state has, and so has every state on the
way, since a prefix of a run is a run.
-/
import Mathlib.Data.List.Basic

namespace PTEditor.Theory.Runs

set_option autoImplicit false

variable {State Action : Type} (step : Action → State → State)

def run : List Action → State → State
  | [], s => s
  | action :: rest, s => run rest (step action s)

/-- The states of a run, first and last included. -/
def states : List Action → State → List State
  | [], s => [s]
  | action :: rest, s => s :: states rest (step action s)

/-- Every action of the run meets the guard in the state in which it is taken. -/
def Guarded (guard : State → Action → Prop) : List Action → State → Prop
  | [], _ => True
  | action :: rest, s => guard s action ∧ Guarded guard rest (step action s)

variable {step}

theorem first_mem_states (actions : List Action) (s : State) : s ∈ states step actions s := by
  cases actions <;> simp [states]

theorem run_append (first second : List Action) (s : State) :
    run step (first ++ second) s = run step second (run step first s) := by
  induction first generalizing s with
  | nil => rfl
  | cons action rest ih => exact ih (step action s)

theorem Guarded.and {guard guard' : State → Action → Prop} {actions : List Action} {s : State}
    (first : Guarded step guard actions s) (second : Guarded step guard' actions s) :
    Guarded step (fun s action => guard s action ∧ guard' s action) actions s := by
  induction actions generalizing s with
  | nil => trivial
  | cons action rest ih => exact ⟨⟨first.1, second.1⟩, ih first.2 second.2⟩

/-- A fact about all states of a run as a guard. -/
theorem guarded_of_states {fact : State → Prop} {actions : List Action} {s : State}
    (all : ∀ t ∈ states step actions s, fact t) :
    Guarded step (fun s _ => fact s) actions s := by
  induction actions generalizing s with
  | nil => trivial
  | cons action rest ih =>
      refine ⟨all s (first_mem_states _ s), ih fun t member => all t ?_⟩
      exact List.mem_cons_of_mem _ member

/-- **The invariant rule.** -/
theorem run_induction (guard : State → Action → Prop) (invariant : State → Prop)
    (preserved : ∀ s action, invariant s → guard s action → invariant (step action s))
    {actions : List Action} {s : State} (guarded : Guarded step guard actions s)
    (initially : invariant s) : invariant (run step actions s) := by
  induction actions generalizing s with
  | nil => exact initially
  | cons action rest ih => exact ih guarded.2 (preserved s action initially guarded.1)

/-- The same for every state on the way. -/
theorem states_induction (guard : State → Action → Prop) (invariant : State → Prop)
    (preserved : ∀ s action, invariant s → guard s action → invariant (step action s))
    {actions : List Action} {s : State} (guarded : Guarded step guard actions s)
    (initially : invariant s) : ∀ t ∈ states step actions s, invariant t := by
  induction actions generalizing s with
  | nil =>
      intro t member
      rw [List.mem_singleton.mp member]
      exact initially
  | cons action rest ih =>
      intro t member
      rcases List.mem_cons.mp member with rfl | later
      · exact initially
      · exact ih guarded.2 (preserved s action initially guarded.1) t later

/-- A fact about all states of a run, step by step. -/
theorem states_iff_guarded {fact : State → Prop} {actions : List Action} {s : State} :
    (∀ t ∈ states step actions s, fact t) ↔
      fact s ∧ Guarded step (fun s action => fact (step action s)) actions s := by
  induction actions generalizing s with
  | nil => simp [states, Guarded]
  | cons action rest ih =>
      simp only [states, List.mem_cons, forall_eq_or_imp, ih]
      exact Iff.rfl

/-- Two guards are met by the same runs if they say the same wherever the
invariant holds, and one of them keeps it. -/
theorem guarded_iff {guard property : State → Action → Prop} (invariant : State → Prop)
    (exact : ∀ s action, invariant s → (property s action ↔ guard s action))
    (preserved : ∀ s action, invariant s → guard s action → invariant (step action s))
    {actions : List Action} {s : State} (initially : invariant s) :
    Guarded step property actions s ↔ Guarded step guard actions s := by
  induction actions generalizing s with
  | nil => exact Iff.rfl
  | cons action rest ih =>
      constructor
      · rintro ⟨here, later⟩
        have met := (exact s action initially).mp here
        exact ⟨met, (ih (preserved s action initially met)).mp later⟩
      · rintro ⟨met, later⟩
        have here := (exact s action initially).mpr met
        exact ⟨here, (ih (preserved s action initially met)).mpr later⟩

end PTEditor.Theory.Runs
