/-
# PTEditor.Theory.Statements -- straight-line code that may leave early

A block of statements works on a state and may be left before its end, by a `goto` or by
a fault; what it has done to the state until then stays done.  `exec` runs a block and says
how it ended.  The rules below are one per construct, so that a block is run by rewriting,
statement by statement.
-/
import Mathlib.Logic.Basic

namespace PTEditor.Theory.Statements

set_option autoImplicit false

/-- Statements over a state `σ` that may be left with an `ε`. -/
abbrev Block (ε σ α : Type) := ExceptT ε (StateM σ) α

variable {ε σ α β : Type}

/-- Run a block: how it ended, and the state it left. -/
def exec (block : Block ε σ α) (state : σ) : Except ε α × σ := (ExceptT.run block).run state

@[simp] theorem exec_pure (value : α) (state : σ) :
    exec (pure value : Block ε σ α) state = (.ok value, state) := rfl

@[simp] theorem exec_throw (exit : ε) (state : σ) :
    exec (throw exit : Block ε σ α) state = (.error exit, state) := rfl

@[simp] theorem exec_get (state : σ) :
    exec (get : Block ε σ σ) state = (.ok state, state) := rfl

@[simp] theorem exec_modify (change : σ → σ) (state : σ) :
    exec (modify change : Block ε σ Unit) state = (.ok (), change state) := rfl

/-- A block that reached its end goes on with the next; one that was left skips it. -/
@[simp] theorem exec_bind (block : Block ε σ α) (next : α → Block ε σ β) (state : σ) :
    exec (block >>= next) state =
      match exec block state with
      | (.ok value, after) => exec (next value) after
      | (.error exit, after) => (.error exit, after) := by
  show (ExceptT.bindCont next (exec block state).1).run (exec block state).2 = _
  generalize exec block state = ended
  obtain ⟨result, after⟩ := ended
  cases result with
  | ok value => rfl
  | error exit => rfl

@[simp] theorem exec_ite (condition : Prop) [Decidable condition] (first second : Block ε σ α)
    (state : σ) :
    exec (if condition then first else second) state =
      if condition then exec first state else exec second state :=
  apply_ite (exec · state) condition first second

/-- The second operand of `||` is evaluated only if the first is false. -/
@[simp] theorem exec_orM (first second : Block ε σ Bool) (state : σ) :
    exec (first <||> second) state =
      match exec first state with
      | (.ok true, after) => (.ok true, after)
      | (.ok false, after) => exec second after
      | (.error exit, after) => (.error exit, after) := by
  simp only [orM, exec_bind]
  generalize exec first state = ended
  obtain ⟨result, after⟩ := ended
  cases result with
  | ok value => cases value <;> rfl
  | error exit => rfl

/-! ## Steps that may fail -/

variable {state after : σ} {exit : ε} {failed : Bool}

/-- Two tests that leave the state alone. -/
theorem exec_tests {first second : Block ε σ Bool} {a b : Bool}
    (asked : exec first state = (.ok a, state)) (askedToo : exec second state = (.ok b, state)) :
    exec (first <||> second) state = (.ok (a || b), state) := by
  rw [exec_orM, asked]
  cases a with
  | true => rfl
  | false => exact askedToo

/-- What follows a step that failed is skipped. -/
theorem exec_step {block : Block ε σ Unit} {next : Unit → Block ε σ α}
    (ended : exec block state = if failed then (.error exit, state) else (.ok (), after)) :
    exec (block >>= next) state =
      if failed then (.error exit, state) else exec (next ()) after := by
  rw [exec_bind, ended]
  cases failed with
  | true => rfl
  | false => rfl

end PTEditor.Theory.Statements
