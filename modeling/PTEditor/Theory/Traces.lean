/-
# PTEditor.Theory.Traces -- facts about the events of a trace

A trace lists events in the order in which they happened.  Two things are read
off it:

* a balance: events count up or down (`total`), as the acquisitions and releases
  of a lock do;
* a fact about each event and what happened before it (`Throughout`), as "the
  lock is held at every access".

Both go through a trace piece by piece (`total_append`, `throughout_append`), so
what a request appends can be examined on its own.
-/
import Mathlib.Algebra.BigOperators.Group.List.Basic
import Mathlib.Algebra.Ring.Int.Defs

namespace PTEditor.Theory.Traces

set_option autoImplicit false

variable {Event : Type}

/-! ## Balances -/

def total (delta : Event → Int) (trace : List Event) : Int := (trace.map delta).sum

section Total

variable (delta : Event → Int)

@[simp] theorem total_nil : total delta [] = 0 := rfl

@[simp] theorem total_cons (event : Event) (rest : List Event) :
    total delta (event :: rest) = delta event + total delta rest := by
  simp [total]

@[simp] theorem total_append (first second : List Event) :
    total delta (first ++ second) = total delta first + total delta second := by
  simp [total]

theorem total_eq_zero {trace : List Event} (silent : ∀ event ∈ trace, delta event = 0) :
    total delta trace = 0 := by
  induction trace with
  | nil => rfl
  | cons event rest ih =>
      have here := silent event List.mem_cons_self
      have later := ih fun e member => silent e (List.mem_cons_of_mem _ member)
      rw [total_cons, here, later]
      omega

end Total

/-! ## Facts about every event -/

/-- Each event has the fact, relative to the trace before it; `before` is what had
happened already. -/
def Throughout (fact : List Event → Event → Prop) : List Event → List Event → Prop
  | _, [] => True
  | before, event :: rest => fact before event ∧ Throughout fact (before ++ [event]) rest

section Throughout

variable {fact : List Event → Event → Prop}

@[simp] theorem throughout_nil (before : List Event) : Throughout fact before [] := trivial

@[simp] theorem throughout_cons (before : List Event) (event : Event) (rest : List Event) :
    Throughout fact before (event :: rest) ↔
      fact before event ∧ Throughout fact (before ++ [event]) rest := Iff.rfl

theorem throughout_append (before first second : List Event) :
    Throughout fact before (first ++ second) ↔
      Throughout fact before first ∧ Throughout fact (before ++ first) second := by
  induction first generalizing before with
  | nil => simp
  | cons event rest ih =>
      simp only [List.cons_append, throughout_cons, ih, List.append_assoc, List.nil_append]
      exact and_assoc.symm

/-- A fact that only needs something of the events before, which the events
themselves do not change. -/
theorem throughout_of_forall {before trace : List Event}
    (holds : ∀ earlier ⊆ trace, ∀ event ∈ trace, fact (before ++ earlier) event) :
    Throughout fact before trace := by
  induction trace generalizing before with
  | nil => trivial
  | cons event rest ih =>
      refine ⟨?_, ih ?_⟩
      · have here := holds [] (List.nil_subset _) event List.mem_cons_self
        rwa [List.append_nil] at here
      · intro earlier sub e member
        have later := holds (event :: earlier)
          (List.cons_subset_cons event sub) e (List.mem_cons_of_mem _ member)
        rwa [List.append_cons] at later

/-- The fact at any one place of the trace. -/
theorem Throughout.at {before pre post : List Event} {event : Event}
    (all : Throughout fact before (pre ++ event :: post)) : fact (before ++ pre) event :=
  ((throughout_append before pre _).mp all).2.1

end Throughout

end PTEditor.Theory.Traces
