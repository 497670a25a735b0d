/-
# PTEditor.Module.Walk -- `resolve_vm`, the kernel's page-table walk

`resolve_vm` fills a `vm_t`: a pointer per level, `NULL` where the walk did not
get that far, and the mask of the levels it reached.  Each level sets its
pointer, asks the kernel's none/bad/large predicates, and on a bad answer takes
the pointer back and leaves through `error_out`; the levels below stay `NULL`.
The walk between the lock and the unlock is the pure function `walkPgd`, one
definition per level, each ending in the next.

`Descends` says what a walk can do, whatever the predicates answer; invariants of the
walk come from what reaching one level preserves (`Descends.invariant`).
`resolveVm_inStep` is what every consumer relies on: a level is marked exactly
when its pointer is set.  `vmToUser` copies the words of the marked levels out.
-/
import PTEditor.Module.Machine

namespace PTEditor.Module

open PTEditor.Theory.ByteMemory PTEditor.Interface

set_option autoImplicit false

/-- `vm_t`.  A pointer is the physical address of its slot, `none` is `NULL`. -/
structure Vm where
  pid : Word
  pgd : Option Word
  p4d : Option Word
  pud : Option Word
  pmd : Option Word
  pte : Option Word
  valid : Word
  deriving DecidableEq, Repr

namespace Vm

/-- The state `resolve_vm` starts from: no pointer, no level. -/
def cleared (pid : Word) : Vm :=
  { pid, pgd := none, p4d := none, pud := none, pmd := none, pte := none, valid := 0 }

def slot (vm : Vm) : Level → Option Word
  | .pgd => vm.pgd
  | .p4d => vm.p4d
  | .pud => vm.pud
  | .pmd => vm.pmd
  | .pte => vm.pte

/-- The slot is the level's own; the P4D's is its own if no other level has it. -/
def Owns (vm : Vm) (level : Level) (slot : Word) : Prop :=
  vm.slot level = some slot ∧ (level = .p4d → ∀ other, vm.slot other = some slot → other = .p4d)

/-- A level that passed its checks: the pointer stays set and the level's bit
goes into the mask. -/
def reach (vm : Vm) (level : Level) (slot : Word) : Vm :=
  let vm := { vm with valid := vm.valid ||| level.mask }
  match level with
  | .pgd => { vm with pgd := some slot }
  | .p4d => { vm with p4d := some slot }
  | .pud => { vm with pud := some slot }
  | .pmd => { vm with pmd := some slot }
  | .pte => { vm with pte := some slot }

@[simp] theorem cleared_valid (pid : Word) : (cleared pid).valid = 0#64 := rfl

@[simp] theorem cleared_slot (pid : Word) (level : Level) : (cleared pid).slot level = none := by
  cases level <;> rfl

@[simp] theorem reach_valid (vm : Vm) (level : Level) (slot : Word) :
    (vm.reach level slot).valid = vm.valid ||| level.mask := by
  cases level <;> rfl

@[simp] theorem reach_slot (vm : Vm) (level other : Level) (slot : Word) :
    (vm.reach level slot).slot other = if other = level then some slot else vm.slot other := by
  cases level <;> cases other <;> rfl

end Vm

section Walk

variable (P : Platform) (mem : Mem) (addr : Word)

def walkPte (pmd : Word) (entry : Vm) : Vm × Int :=
  match P.helpers.pteOffsetMap mem pmd addr with
  | none => (entry, 1)
  | some pte =>
      if P.pmdLarge (read64 mem pmd) then (entry, 1)
      else (entry.reach .pte pte, 0)

/-- The PMD below `pud`.  The test for a large PUD is made here, one level late. -/
def walkPmd (pud : Word) (entry : Vm) : Vm × Int :=
  let pmd := P.helpers.pmdOffset mem pud addr
  if P.helpers.pmdNone (read64 mem pmd) || P.pudLarge (read64 mem pud) then (entry, 1)
  else walkPte P mem addr pmd (entry.reach .pmd pmd)

/-- The PUD below `parent`, which is the P4D slot, or the PGD slot on kernels
before 4.11. -/
def walkPud (parent : Word) (entry : Vm) : Vm × Int :=
  let pud := P.helpers.pudOffset mem parent addr
  if P.helpers.pudNone (read64 mem pud) then (entry, 1)
  else walkPmd P mem addr pud (entry.reach .pud pud)

/-- The P4D below `pgd`; kernels before 4.11 have none. -/
def walkP4d (pgd : Word) (entry : Vm) : Vm × Int :=
  if P.hasP4d then
    let p4d := P.helpers.p4dOffset mem pgd addr
    if P.helpers.p4dNone (read64 mem p4d) || P.helpers.p4dBad (read64 mem p4d) then (entry, 1)
    else walkPud P mem addr p4d (entry.reach .p4d p4d)
  else walkPud P mem addr pgd entry

/-- The whole walk from the root table at physical address `root`. -/
def walkPgd (root : Word) (entry : Vm) : Vm × Int :=
  let pgd := P.helpers.pgdOffset root addr
  if P.helpers.pgdNone (read64 mem pgd) || P.helpers.pgdBad (read64 mem pgd) then (entry, 1)
  else walkP4d P mem addr pgd (entry.reach .pgd pgd)

end Walk

def resolveVm (P : Platform) (current : Process) (addr pid : Word) (lock : Bool) (k : Kernel) :
    Vm × Int × Kernel :=
  let entry := Vm.cleared pid
  match k.getMm current pid with
  | none => (entry, 1, k)
  | some mm =>
      let k := k.emitIf lock (.readLock mm)
      let walked := walkPgd P k.mem addr (P.virtToPhys (k.pgd mm)) entry
      let k := k.emit (.load mm)
      let k := k.emitIf lock (.readUnlock mm)
      (walked.1, walked.2, k)

/-- `vm_to_user`: copy the word behind every pointer that is set, then the mask. -/
def vmToUser (mem : Mem) (user : Entry) (vm : Vm) : Entry :=
  { user with
    pgd := (vm.pgd.map (read64 mem)).getD user.pgd
    p4d := (vm.p4d.map (read64 mem)).getD user.p4d
    pud := (vm.pud.map (read64 mem)).getD user.pud
    pmd := (vm.pmd.map (read64 mem)).getD user.pmd
    pte := (vm.pte.map (read64 mem)).getD user.pte
    valid := vm.valid }

@[simp] theorem vmToUser_valid (mem : Mem) (user : Entry) (vm : Vm) :
    (vmToUser mem user vm).valid = vm.valid := rfl

@[simp] theorem vmToUser_word (mem : Mem) (user : Entry) (vm : Vm) (level : Level) :
    (vmToUser mem user vm).word level =
      ((vm.slot level).map (read64 mem)).getD (user.word level) := by
  cases level <;> rfl

/-! ## Mask and pointers -/

/-- The mask of a `vm_t` says which of its pointers are set. -/
def Vm.InStep (vm : Vm) : Prop := ∀ level, marks vm.valid level = (vm.slot level).isSome

theorem Vm.cleared_inStep (pid : Word) : (Vm.cleared pid).InStep := by
  intro level
  simp

theorem Vm.reach_inStep {vm : Vm} (inStep : vm.InStep) (level : Level) (slot : Word) :
    (vm.reach level slot).InStep := by
  intro other
  rw [Vm.reach_valid, Vm.reach_slot, marks_or, marks_mask, inStep other]
  by_cases same : other = level <;> simp [same]

/-! ## Descents -/

/-- The levels in the order of the walk; kernels before 4.11 have no P4D. -/
def levelChain (P : Platform) : List Level :=
  .pgd :: if P.hasP4d then [.p4d, .pud, .pmd, .pte] else [.pud, .pmd, .pte]

/-- What a walk down some levels can do from `entry`: give up at the first of them, or reach
it and go on with the others. -/
inductive Descends : List Level → Vm → Vm × Int → Prop where
  | ends (entry : Vm) : Descends [] entry (entry, 0)
  | stops (entry : Vm) (level : Level) (lower : List Level) :
      Descends (level :: lower) entry (entry, 1)
  | reaches {entry : Vm} {level : Level} {lower : List Level} {walked : Vm × Int} (slot : Word)
      (rest : Descends lower (entry.reach level slot) walked) :
      Descends (level :: lower) entry walked

/-- What reaching a level preserves holds after the walk. -/
theorem Descends.invariant {lower : List Level} {entry : Vm} {walked : Vm × Int}
    (descent : Descends lower entry walked) {Holds : Vm → Prop}
    (kept : ∀ vm level slot, level ∈ lower → Holds vm → Holds (vm.reach level slot))
    (start : Holds entry) : Holds walked.1 := by
  induction descent with
  | ends entry => exact start
  | stops entry level lower => exact start
  | reaches slot _ ih =>
      apply ih
      · intro vm level slot member
        exact kept vm level slot (List.mem_cons_of_mem _ member)
      · exact kept _ _ slot List.mem_cons_self start

section Descents

variable (P : Platform) (mem : Mem) (addr : Word)

theorem walkPte_descends (pmd : Word) (entry : Vm) :
    Descends [.pte] entry (walkPte P mem addr pmd entry) := by
  simp only [walkPte]
  split
  · exact .stops entry .pte []
  split
  · exact .stops entry .pte []
  · exact .reaches _ (.ends _)

theorem walkPmd_descends (pud : Word) (entry : Vm) :
    Descends [.pmd, .pte] entry (walkPmd P mem addr pud entry) := by
  simp only [walkPmd]
  split
  · exact .stops entry .pmd _
  · exact .reaches _ (walkPte_descends P mem addr _ _)

theorem walkPud_descends (parent : Word) (entry : Vm) :
    Descends [.pud, .pmd, .pte] entry (walkPud P mem addr parent entry) := by
  simp only [walkPud]
  split
  · exact .stops entry .pud _
  · exact .reaches _ (walkPmd_descends P mem addr _ _)

theorem walkPgd_descends (root : Word) (entry : Vm) :
    Descends (levelChain P) entry (walkPgd P mem addr root entry) := by
  simp only [walkPgd]
  split
  · exact .stops entry .pgd _
  refine .reaches (P.helpers.pgdOffset root addr) ?_
  simp only [walkP4d]
  split
  · split
    · exact .stops _ .p4d _
    · exact .reaches _ (walkPud_descends P mem addr _ _)
  · exact walkPud_descends P mem addr _ _

end Descents

/-- A kernel before 4.11 walks past the P4D. -/
theorem walkPgd_p4d_none {P : Platform} (old : P.hasP4d = false) (mem : Mem) (addr root pid : Word) :
    (walkPgd P mem addr root (Vm.cleared pid)).1.slot .p4d = none := by
  have kept : ∀ (vm : Vm) level slot, level ∈ levelChain P → vm.slot .p4d = none →
      (vm.reach level slot).slot .p4d = none := by
    intro vm level slot member missed
    have other : Level.p4d ≠ level := by
      rintro rfl
      simp [levelChain, old] at member
    rw [Vm.reach_slot, if_neg other]
    exact missed
  exact (walkPgd_descends P mem addr root _).invariant kept (Vm.cleared_slot pid .p4d)

theorem Descends.inStep {lower : List Level} {entry : Vm} {walked : Vm × Int}
    (descent : Descends lower entry walked) (inStep : entry.InStep) : walked.1.InStep :=
  descent.invariant (fun _ level slot _ held => Vm.reach_inStep held level slot) inStep

theorem resolveVm_quiet (P : Platform) (current : Process) (addr pid : Word) (lock : Bool)
    (k : Kernel) : k.Quiet (resolveVm P current addr pid lock k).2.2 := by
  simp only [resolveVm]
  split
  · exact Kernel.Quiet.refl k
  · exact ((k.quiet_emitIf lock _).trans (Kernel.quiet_emit _ _)).trans (Kernel.quiet_emitIf _ _ _)

/-- What `resolve_vm` returns does not depend on whether it locks. -/
theorem resolveVm_vm (P : Platform) (current : Process) (addr pid : Word) (lock : Bool)
    (k : Kernel) {mm : Mm} (found : k.getMm current pid = some mm) :
    (resolveVm P current addr pid lock k).1 =
      (walkPgd P k.mem addr (P.virtToPhys (k.pgd mm)) (Vm.cleared pid)).1 := by
  have quiet := k.quiet_emitIf lock (.readLock mm)
  simp only [resolveVm, found]
  rw [quiet.mem_eq, quiet.steady.pgd_eq]

section Resolve

variable (P : Platform) (current : Process) (addr pid : Word) (lock : Bool) (k : Kernel)

/-- A pid that names no address space ends the descent before the first level. -/
theorem resolveVm_descends : Descends (levelChain P) (Vm.cleared pid)
    ((resolveVm P current addr pid lock k).1, (resolveVm P current addr pid lock k).2.1) := by
  simp only [resolveVm]
  split
  · exact .stops _ .pgd _
  · exact walkPgd_descends P _ addr _ _

/-- Whatever the kernel's predicates answer, mask and pointers are in step. -/
theorem resolveVm_inStep : (resolveVm P current addr pid lock k).1.InStep :=
  (resolveVm_descends P current addr pid lock k).inStep (Vm.cleared_inStep pid)

end Resolve

end PTEditor.Module
