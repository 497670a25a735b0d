/-
# PTEditor.Library.MemoryTypeRuns -- what many `ptedit_set_mt` make of the register

The mask of `ptedit_set_mt` is an `int`, shifted by up to 56: on x86-64 the shift counts modulo
32, so slot `mt` is cleared where `mt % 4` is.  One call says little about what a program
makes of the register, since what a call leaves behind the next one finds.

`setMt_runs` says what every slot holds after any calls by any processes: a slot of the lower
half is a variable, which a call for the slot four above resets to zero; a slot of the upper
half is never cleared and collects the bits of all types that were ever set.
-/
import PTEditor.Library.MemoryTypes
import PTEditor.Theory.LastWrite

namespace PTEditor.Library.MemoryTypeRuns

open PTEditor.Theory.ByteMemory PTEditor.Theory.Runs PTEditor.Theory.LastWrite PTEditor.Interface
open PTEditor.Module PTEditor.Library PTEditor.Library.MemoryTypes PTEditor.Library.X86Walk

set_option autoImplicit false

structure SetMt where
  current : Process
  mt : Slot
  value : BitVec 8

def step (P : Platform) (call : SetMt) (s : System) : System :=
  pteditSetMt P call.mt call.value { s with current := call.current }

/-- What a call writes to a slot of the lower half. -/
def lowerWrite (slot : Slot) (call : SetMt) : Option (BitVec 8) :=
  if call.mt = slot then some call.value
  else if call.mt.val = slot.val + 4 then some 0
  else none

/-- What a call adds to a slot of the upper half. -/
def upperAdd (slot : Slot) (old : BitVec 8) (call : SetMt) : BitVec 8 :=
  if call.mt = slot then old ||| call.value else old

section Runs

variable {P : Platform} {s : System}

/-- **One call**, on a slot of the lower half. -/
theorem step_lower (arch : P.arch = .x86_64) {slot : Slot} (lower : slot.val < 4) (call : SetMt)
    (fits : Fits P.arch call.value) :
    pteditGetMt P slot (step P call s) = (lowerWrite slot call).getD (pteditGetMt P slot s) := by
  have after := getMt_setMt call.mt slot fits { s with current := call.current }
  have same : pteditGetMt P slot { s with current := call.current } = pteditGetMt P slot s := rfl
  have bound := call.mt.isLt
  refine after.trans ?_
  rw [same]
  by_cases own : call.mt = slot
  · have hit : hits P.arch call.mt slot = true := by
      simp [hits, own, Nat.mod_eq_of_lt lower]
    simp [lowerWrite, own, own ▸ hit]
  · have differs : call.mt.val ≠ slot.val := fun equal => own (Fin.ext equal)
    by_cases above : call.mt.val = slot.val + 4
    · have hit : hits P.arch call.mt slot = true := by
        have residue : call.mt.val % 4 = slot.val := by omega
        simp [hits, residue]
      simp [lowerWrite, own, Ne.symm own, above, hit]
    · have missed : hits P.arch call.mt slot = false := by
        have residue : slot.val ≠ call.mt.val % 4 := by omega
        simp [hits, residue, arch]
      simp [lowerWrite, own, Ne.symm own, above, missed]

/-- **One call**, on a slot of the upper half. -/
theorem step_upper (arch : P.arch = .x86_64) {slot : Slot} (upper : 4 ≤ slot.val) (call : SetMt)
    (fits : Fits P.arch call.value) :
    pteditGetMt P slot (step P call s) = upperAdd slot (pteditGetMt P slot s) call := by
  have after := getMt_setMt call.mt slot fits { s with current := call.current }
  have same : pteditGetMt P slot { s with current := call.current } = pteditGetMt P slot s := rfl
  have missed : hits P.arch call.mt slot = false := by
    have residue : slot.val ≠ call.mt.val % 4 := by omega
    simp [hits, residue, arch]
  refine after.trans ?_
  rw [same, missed]
  by_cases own : call.mt = slot
  · simp [upperAdd, own]
  · simp [upperAdd, own, Ne.symm own]

/-- **After any calls**, a slot of the lower half holds what was last set there, or zero if the
slot four above was set since; a slot of the upper half holds what it held at first and every
type that was ever set there, bit by bit. -/
theorem setMt_runs (arch : P.arch = .x86_64) (calls : List SetMt)
    (fits : ∀ call ∈ calls, Fits .x86_64 call.value) (s : System) (slot : Slot) :
    pteditGetMt P slot (run (step P) calls s) =
      if slot.val < 4 then lastWrite (lowerWrite slot) calls (pteditGetMt P slot s)
      else calls.foldl (upperAdd slot) (pteditGetMt P slot s) := by
  induction calls generalizing s with
  | nil =>
      simp only [run, lastWrite, List.foldl_nil]
      split <;> rfl
  | cons call rest ih =>
      have here : Fits P.arch call.value := arch ▸ fits call List.mem_cons_self
      have later := ih (fun c member => fits c (List.mem_cons_of_mem _ member)) (step P call s)
      rw [run, later, lastWrite, List.foldl_cons]
      by_cases lower : slot.val < 4
      · rw [if_pos lower, if_pos lower, step_lower arch lower call here]
      · rw [if_neg lower, if_neg lower, step_upper arch (Nat.le_of_not_lt lower) call here]

/-- Slot 1 is set to 6 and lost to slot 5, which held 4 and is set to 1 and then to 2. -/
theorem setMt_runs_five :
    let calls : List SetMt := [⟨onePageProcess, 1, 6⟩, ⟨onePageProcess, 5, 1⟩,
      ⟨Process.of 2 1 (by decide), 5, 2⟩]
    pteditGetMt fourLevelPlatform 1 (run (step fourLevelPlatform) calls onePageSystem) = 0 ∧
      pteditGetMt fourLevelPlatform 5 (run (step fourLevelPlatform) calls onePageSystem) = 7 := by
  intro calls
  have fits : ∀ call ∈ calls, Fits .x86_64 call.value := by
    intro call member
    simp only [calls, List.mem_cons, List.not_mem_nil, or_false] at member
    rcases member with rfl | rfl | rfl <;> decide
  refine ⟨(setMt_runs rfl calls fits onePageSystem 1).trans ?_,
    (setMt_runs rfl calls fits onePageSystem 5).trans ?_⟩
  · decide +kernel
  · decide +kernel

end Runs

end PTEditor.Library.MemoryTypeRuns
