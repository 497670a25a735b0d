/-
# PTEditor.Module.Pointers -- no request follows a `NULL` pointer

`walkPgd` says what a resolve finds; it has no pointer that is set and then taken back.
Here `resolve_vm`, `update_vm` and `vm_to_user` are written out statement by statement: a
level's pointer is assigned, the tests load through it, and a failed test sets it to `NULL`
again before the `goto`.  A load or a store through `NULL` is an oops, `none` below.
Nobody looks at what `resolve_vm` returns, so that none occurs is due to the mask alone.

The helpers of the kernel that compute the place of an entry add an index to the address of
a table; `pte_offset_map` is the one that may return `NULL`.  Both callers of `resolve_vm`
give it the address of a local, with anything in it but for the pid, so the test of `entry`
at its start is left out.

* `exec_walkBlock`: the statements of the walk end as `walkPgd` says;
* `walkPgd_stops`: the marked levels are the first of the chain;
* `resolveVmSteps_eq`, `updateVmSteps_eq`, `vmResolveSteps_eq`: the statements are the
  requests of `Module.Device`;
* `resolve_vm_null_safe`: no statement follows `NULL`.
-/
import PTEditor.Module.Device
import PTEditor.Theory.Statements

namespace PTEditor.Module.Pointers

open PTEditor.Theory.ByteMemory PTEditor.Theory.Statements PTEditor.Interface PTEditor.Module

set_option autoImplicit false

/-- How the walk of `resolve_vm` is left before its end: with `goto error_out`, or because it
dereferenced `NULL`. -/
inductive Exit where
  | errorOut
  | oops
  deriving DecidableEq, Repr

/-! ## Statements of the walk -/

section Statements

variable (mem : Mem) (level : Level)

/-- An assignment to the pointer of a level. -/
def point (vm : Vm) (level : Level) (pointer : Option Word) : Vm :=
  match level with
  | .pgd => { vm with pgd := pointer }
  | .p4d => { vm with p4d := pointer }
  | .pud => { vm with pud := pointer }
  | .pmd => { vm with pmd := pointer }
  | .pte => { vm with pte := pointer }

/-- `entry->level = pointer` -/
def assign (pointer : Option Word) : Block Exit Vm Unit :=
  modify fun entry => point entry level pointer

/-- `entry->level` where it is going to be followed. -/
def follow : Block Exit Vm Word := do
  match (← get).slot level with
  | some slot => pure slot
  | none => throw .oops

/-- `*(entry->level)` -/
def load : Block Exit Vm Word := do
  let slot ← follow level
  pure (read64 mem slot)

/-- `test(*(entry->level))` -/
def ask (test : Word → Bool) : Block Exit Vm Bool := do
  let word ← load mem level
  pure (test word)

def isNull : Block Exit Vm Bool := do
  let entry ← get
  pure (entry.slot level).isNone

/-- `entry->valid |= PTEDIT_VALID_MASK_level` -/
def setValid : Block Exit Vm Unit :=
  modify fun entry => { entry with valid := entry.valid ||| level.mask }

/-- What `resolve_vm` does at every level: set the pointer, make the tests, and take the
pointer back and give up, or mark the level. -/
def visit (pointer : Option Word) (fails : Block Exit Vm Bool) : Block Exit Vm Unit := do
  assign level pointer
  if ← fails then
    assign level none
    throw .errorOut
  setValid level

end Statements

section Walk

variable (P : Platform) (mem : Mem) (addr : Word)

def pgdBlock (root : Word) : Block Exit Vm Unit :=
  visit .pgd (some (P.helpers.pgdOffset root addr))
    (ask mem .pgd P.helpers.pgdNone <||> ask mem .pgd P.helpers.pgdBad)

def p4dBlock : Block Exit Vm Unit := do
  let pgd ← follow .pgd
  visit .p4d (some (P.helpers.p4dOffset mem pgd addr))
    (ask mem .p4d P.helpers.p4dNone <||> ask mem .p4d P.helpers.p4dBad)

/-- The parent is the P4D, or the PGD on kernels before 4.11. -/
def pudBlock (parent : Level) : Block Exit Vm Unit := do
  let above ← follow parent
  visit .pud (some (P.helpers.pudOffset mem above addr)) (ask mem .pud P.helpers.pudNone)

def pmdBlock : Block Exit Vm Unit := do
  let pud ← follow .pud
  visit .pmd (some (P.helpers.pmdOffset mem pud addr))
    (ask mem .pmd P.helpers.pmdNone <||> ask mem .pud P.pudLarge)

def pteBlock : Block Exit Vm Unit := do
  let pmd ← follow .pmd
  visit .pte (P.helpers.pteOffsetMap mem pmd addr) (isNull .pte <||> ask mem .pmd P.pmdLarge)

/-- The statements of `resolve_vm` between the lock and the unlock. -/
def walkBlock (root : Word) : Block Exit Vm Unit := do
  pgdBlock P mem addr root
  if P.hasP4d then
    p4dBlock P mem addr
    pudBlock P mem addr .p4d
  else
    pudBlock P mem addr .pgd
  pmdBlock P mem addr
  pteBlock P mem addr

end Walk

section Run

variable (mem : Mem) {level : Level} {vm : Vm} {slot : Word}

@[simp] theorem point_slot (vm : Vm) (level other : Level) (pointer : Option Word) :
    (point vm level pointer).slot other = if other = level then pointer else vm.slot other := by
  cases level <;> cases other <;> rfl

/-- A pointer that was `NULL` and is taken back leaves no trace. -/
theorem point_back (clear : vm.slot level = none) (pointer : Option Word) :
    point (point vm level pointer) level none = vm := by
  cases level <;> simp only [Vm.slot] at clear <;> simp only [point, ← clear]

theorem exec_follow (reached : vm.slot level = some slot) :
    exec (follow level) vm = (.ok slot, vm) := by
  simp only [follow, exec_bind, exec_get, reached, exec_pure]

theorem exec_ask (reached : vm.slot level = some slot) (test : Word → Bool) :
    exec (ask mem level test) vm = (.ok (test (read64 mem slot)), vm) := by
  simp only [ask, load, exec_bind, exec_follow reached, exec_pure]

theorem exec_isNull (level : Level) (vm : Vm) :
    exec (isNull level) vm = (.ok (vm.slot level).isNone, vm) := by
  simp only [isNull, exec_bind, exec_get, exec_pure]

/-- One level, from a state that does not have it yet. -/
theorem exec_visit (clear : vm.slot level = none) {pointer : Option Word}
    {fails : Block Exit Vm Bool} {failed : Bool}
    (tested : exec fails (point vm level pointer) = (.ok failed, point vm level pointer)) :
    exec (visit level pointer fails) vm =
      if failed then (.error .errorOut, vm)
      else (.ok (), { point vm level pointer with valid := vm.valid ||| level.mask }) := by
  simp only [visit, assign, setValid, exec_bind, exec_modify, tested]
  cases failed with
  | true => simp only [if_true, exec_bind, exec_modify, exec_throw, point_back clear]
  | false =>
      simp only [Bool.false_eq_true, if_false, exec_modify]
      cases level <;> rfl

/-- A level whose pointer is not `NULL` fails, or is reached. -/
theorem exec_visit_some (clear : vm.slot level = none) {fails : Block Exit Vm Bool} {failed : Bool}
    (tested : exec fails (point vm level (some slot)) = (.ok failed, point vm level (some slot))) :
    exec (visit level (some slot) fails) vm =
      if failed then (.error .errorOut, vm) else (.ok (), vm.reach level slot) := by
  rw [exec_visit clear tested]
  cases level <;> rfl

end Run

section Levels

variable (P : Platform) (mem : Mem) (addr : Word) {vm : Vm}

theorem exec_pgdBlock (root : Word) (clear : vm.slot .pgd = none) {slot : Word}
    (located : P.helpers.pgdOffset root addr = slot) :
    exec (pgdBlock P mem addr root) vm =
      if P.helpers.pgdNone (read64 mem slot) || P.helpers.pgdBad (read64 mem slot) then
        (.error .errorOut, vm)
      else (.ok (), vm.reach .pgd slot) := by
  have here : (point vm .pgd (some slot)).slot .pgd = some slot := by simp
  rw [pgdBlock, located]
  exact exec_visit_some clear (exec_tests (exec_ask mem here _) (exec_ask mem here _))

theorem exec_p4dBlock {pgd : Word} (above : vm.slot .pgd = some pgd) (clear : vm.slot .p4d = none)
    {slot : Word} (located : P.helpers.p4dOffset mem pgd addr = slot) :
    exec (p4dBlock P mem addr) vm =
      if P.helpers.p4dNone (read64 mem slot) || P.helpers.p4dBad (read64 mem slot) then
        (.error .errorOut, vm)
      else (.ok (), vm.reach .p4d slot) := by
  have here : (point vm .p4d (some slot)).slot .p4d = some slot := by simp
  simp only [p4dBlock, exec_bind, exec_follow above, located]
  exact exec_visit_some clear (exec_tests (exec_ask mem here _) (exec_ask mem here _))

theorem exec_pudBlock {parent : Level} {up : Word} (above : vm.slot parent = some up)
    (clear : vm.slot .pud = none) {slot : Word} (located : P.helpers.pudOffset mem up addr = slot) :
    exec (pudBlock P mem addr parent) vm =
      if P.helpers.pudNone (read64 mem slot) then (.error .errorOut, vm)
      else (.ok (), vm.reach .pud slot) := by
  have here : (point vm .pud (some slot)).slot .pud = some slot := by simp
  simp only [pudBlock, exec_bind, exec_follow above, located]
  exact exec_visit_some clear (exec_ask mem here _)

theorem exec_pmdBlock {pud : Word} (above : vm.slot .pud = some pud) (clear : vm.slot .pmd = none)
    {slot : Word} (located : P.helpers.pmdOffset mem pud addr = slot) :
    exec (pmdBlock P mem addr) vm =
      if P.helpers.pmdNone (read64 mem slot) || P.pudLarge (read64 mem pud) then
        (.error .errorOut, vm)
      else (.ok (), vm.reach .pmd slot) := by
  have here : (point vm .pmd (some slot)).slot .pmd = some slot := by simp
  have pudAbove : (point vm .pmd (some slot)).slot .pud = some pud := by simp [above]
  simp only [pmdBlock, exec_bind, exec_follow above, located]
  exact exec_visit_some clear (exec_tests (exec_ask mem here _) (exec_ask mem pudAbove _))

/-- How the statements end that `walkPgd` describes by their result. -/
def ending (walked : Vm × Int) : Except Exit Unit × Vm :=
  (if walked.2 = 0 then .ok () else .error .errorOut, walked.1)

theorem exec_pteBlock {pmd : Word} (above : vm.slot .pmd = some pmd) (clear : vm.slot .pte = none) :
    exec (pteBlock P mem addr) vm = ending (walkPte P mem addr pmd vm) := by
  simp only [pteBlock, exec_bind, exec_follow above, walkPte]
  cases mapped : P.helpers.pteOffsetMap mem pmd addr with
  | none =>
      -- The second test is not made.
      have tested : exec (isNull .pte <||> ask mem .pmd P.pmdLarge) (point vm .pte none) =
          (.ok true, point vm .pte none) := by
        simp [exec_isNull]
      rw [exec_visit clear tested]
      rfl
  | some pte =>
      have pmdAbove : (point vm .pte (some pte)).slot .pmd = some pmd := by simp [above]
      have tested := exec_tests (exec_isNull .pte _) (exec_ask mem pmdAbove P.pmdLarge)
      rw [exec_visit_some clear tested]
      simp only [point_slot, if_true, Option.isNone_some, Bool.false_or]
      cases P.pmdLarge (read64 mem pmd) with
      | true => rfl
      | false => rfl

end Levels

/-! ## The walk as a whole -/

section Walk

variable (P : Platform) (mem : Mem) (addr : Word) {vm : Vm}

theorem exec_below_pud {pud : Word} (above : vm.slot .pud = some pud) (clear : vm.slot .pmd = none)
    (clearPte : vm.slot .pte = none) :
    exec (do pmdBlock P mem addr; pteBlock P mem addr) vm =
      ending (walkPmd P mem addr pud vm) := by
  rw [exec_step (exec_pmdBlock P mem addr above clear rfl), walkPmd]
  split
  · rfl
  · exact exec_pteBlock P mem addr (by simp) (by simp [clearPte])

theorem exec_pud_and_below {parent : Level} {up : Word} (above : vm.slot parent = some up)
    (clear : vm.slot .pud = none) (clearPmd : vm.slot .pmd = none) (clearPte : vm.slot .pte = none) :
    exec (do pudBlock P mem addr parent; pmdBlock P mem addr; pteBlock P mem addr) vm =
      ending (walkPud P mem addr up vm) := by
  rw [exec_step (exec_pudBlock P mem addr above clear rfl), walkPud]
  split
  · rfl
  · exact exec_below_pud P mem addr (by simp) (by simp [clearPmd]) (by simp [clearPte])

/-- **The statements of `resolve_vm` never follow a `NULL` pointer**, and what they leave is
what the walk returns. -/
theorem exec_walkBlock (root pid : Word) :
    exec (walkBlock P mem addr root) (Vm.cleared pid) =
      ending (walkPgd P mem addr root (Vm.cleared pid)) := by
  rw [walkBlock, exec_step (exec_pgdBlock P mem addr root (by simp) rfl), walkPgd]
  split
  · rfl
  generalize P.helpers.pgdOffset root addr = pgd
  have above : ((Vm.cleared pid).reach .pgd pgd).slot .pgd = some pgd := by simp
  simp only [walkP4d, exec_ite]
  split
  · rw [exec_step (exec_p4dBlock P mem addr above (by simp) rfl)]
    split
    · rfl
    · exact exec_pud_and_below P mem addr (by simp) (by simp) (by simp) (by simp)
  · exact exec_pud_and_below P mem addr above (by simp) (by simp) (by simp)

end Walk

/-! ## The levels of a walk -/

def Marked (vm : Vm) (levels : List Level) : Prop :=
  ∀ level, marks vm.valid level = true ↔ level ∈ levels

/-- A walk that has marked `upper` and goes on to `lower` marks the first few of these, and
returns 0 if these are all. -/
def Stops (upper lower : List Level) (walked : Vm × Int) : Prop :=
  ∃ more, more <+: lower ∧ Marked walked.1 (upper ++ more) ∧
    walked.2 = if more = lower then 0 else 1

section Stops

variable {vm : Vm} {upper lower : List Level} {level : Level} {walked : Vm × Int}

theorem marked_cleared (pid : Word) : Marked (Vm.cleared pid) [] := by
  intro level
  simp

theorem marked_reach (marked : Marked vm upper) (level : Level) (slot : Word) :
    Marked (vm.reach level slot) (upper ++ [level]) := by
  intro other
  rw [Vm.reach_valid, marks_or, marks_mask, Bool.or_eq_true, marked other, decide_eq_true_eq,
    List.mem_append, List.mem_singleton]

theorem stops_here (marked : Marked vm upper) (level : Level) (lower : List Level) :
    Stops upper (level :: lower) (vm, 1) := by
  refine ⟨[], List.nil_prefix, ?_, ?_⟩
  · rw [List.append_nil]
    exact marked
  · rfl

theorem stops_below (rest : Stops (upper ++ [level]) lower walked) :
    Stops upper (level :: lower) walked := by
  obtain ⟨more, first, marked, returned⟩ := rest
  refine ⟨level :: more, ?_, ?_, ?_⟩
  · rw [List.cons_prefix_cons]
    exact ⟨rfl, first⟩
  · rwa [List.append_assoc] at marked
  · simpa using returned

/-- A descent marks the levels it reaches, and no others. -/
theorem Descends.marks_first (descent : Descends lower vm walked) (marked : Marked vm upper) :
    Stops upper lower walked := by
  induction descent generalizing upper with
  | ends vm =>
      refine ⟨[], List.prefix_refl [], ?_, rfl⟩
      rw [List.append_nil]
      exact marked
  | stops vm level lower => exact stops_here marked level lower
  | reaches slot _ ih => exact stops_below (ih (marked_reach marked _ slot))

theorem walkPgd_stops (P : Platform) (mem : Mem) (addr root pid : Word) :
    Stops [] (levelChain P) (walkPgd P mem addr root (Vm.cleared pid)) :=
  Descends.marks_first (walkPgd_descends P mem addr root _) (marked_cleared pid)

end Stops

/-! ## The requests, statement by statement -/

section Requests

variable (P : Platform) (current : Process)

/-- `resolve_vm(addr, entry, lock)`; `none` is an oops.  The caller's `vm_t` lies on the stack,
and only its pid has been set. -/
def resolveVmSteps (addr : Word) (entry : Vm) (lock : Bool) (k : Kernel) :
    Option (Vm × Int × Kernel) :=
  let entry := { entry with
    pud := none, pmd := none, pgd := none, pte := none, p4d := none, valid := 0 }
  match k.getMm current entry.pid with
  | none => some (entry, 1, k)
  | some mm =>
      let k := k.emitIf lock (.readLock mm)
      let walked := exec (walkBlock P k.mem addr (P.virtToPhys (k.pgd mm))) entry
      let k := k.emit (.load mm)
      let k := k.emitIf lock (.readUnlock mm)
      match walked with
      | (.ok (), entry) => some (entry, 0, k)
      | (.error .errorOut, entry) => some (entry, 1, k)
      | (.error .oops, _) => none

/-- `set_pgd(old_entry.pgd, …)` and its likes, each in its `if`. -/
def setThrough (mm : Mm) (oldEntry : Vm) (newEntry : Entry) (level : Level) (k : Kernel) :
    Option Kernel :=
  if marks oldEntry.valid level && marks newEntry.valid level then
    (oldEntry.slot level).map fun slot => k.store mm slot (newEntry.word level)
  else some k

/-- `update_vm(new_entry, lock)` with its local `old_entry`; what `resolve_vm` returns is not
looked at. -/
def updateVmSteps (newEntry : Entry) (oldEntry : Vm) (lock : Bool) (k : Kernel) :
    Option (Int × Kernel) :=
  let addr := newEntry.vaddr
  match k.getMm current newEntry.pid with
  | none => some (1, k)
  | some mm => do
      let oldEntry := { oldEntry with pid := newEntry.pid }
      let k := k.emitIf lock (.writeLock mm)
      let (oldEntry, _, k) ← resolveVmSteps P current addr oldEntry false k
      let k ← setThrough mm oldEntry newEntry .pgd k
      let k ← if P.hasP4d then setThrough mm oldEntry newEntry .p4d k else some k
      let k ← setThrough mm oldEntry newEntry .pud k
      let k ← setThrough mm oldEntry newEntry .pmd k
      let k ← setThrough mm oldEntry newEntry .pte k
      let k := k.invalidateTlb P current addr
      let k := k.emitIf lock (.writeUnlock mm)
      some (0, k)

/-- `if(vm->level) user->level = *(vm->level)` -/
def copyWord (mem : Mem) (vm : Vm) (level : Level) (user : Entry) : Option Entry :=
  if (vm.slot level).isSome then
    (vm.slot level).map fun slot => user.setWord level (read64 mem slot)
  else some user

def vmToUserSteps (mem : Mem) (user : Entry) (vm : Vm) : Option Entry := do
  let user ← if P.hasP4d then copyWord mem vm .p4d user else some user
  let user ← copyWord mem vm .pgd user
  let user ← copyWord mem vm .pmd user
  let user ← copyWord mem vm .pud user
  let user ← copyWord mem vm .pte user
  some { user with valid := vm.valid }

/-- `VM_RESOLVE`; its `vm_t` is a local, too. -/
def vmResolveSteps (vmUser : Entry) (vm : Vm) (k : Kernel) : Option (Int × Entry × Kernel) := do
  let vm := { vm with pid := vmUser.pid }
  let (vm, _, k) ← resolveVmSteps P current vmUser.vaddr vm (!k.mmIsLocked) k
  let vmUser ← vmToUserSteps P k.mem vmUser vm
  some (0, vmUser, k)

/-- What the statements do is what `resolveVm` says. -/
theorem resolveVmSteps_eq (addr : Word) (entry : Vm) (lock : Bool) (k : Kernel) :
    resolveVmSteps P current addr entry lock k =
      some (resolveVm P current addr entry.pid lock k) := by
  simp only [resolveVmSteps, resolveVm]
  cases k.getMm current entry.pid with
  | none => rfl
  | some mm =>
      have ended := exec_walkBlock P (k.emitIf lock (.readLock mm)).mem addr
        (P.virtToPhys ((k.emitIf lock (.readLock mm)).pgd mm)) entry.pid
      obtain ⟨more, -, -, returned⟩ := walkPgd_stops P (k.emitIf lock (.readLock mm)).mem addr
        (P.virtToPhys ((k.emitIf lock (.readLock mm)).pgd mm)) entry.pid
      simp only [Vm.cleared] at ended returned ⊢
      by_cases through : more = levelChain P
      · rw [if_pos through] at returned
        simp only [ended, ending, returned, if_true]
      · rw [if_neg through] at returned
        simp only [ended, ending, returned, one_ne_zero, if_false]

theorem setThrough_eq {oldEntry : Vm} (inStep : oldEntry.InStep) (mm : Mm) (newEntry : Entry)
    (level : Level) (k : Kernel) :
    setThrough mm oldEntry newEntry level k = some (setEntry mm oldEntry newEntry level k) := by
  simp only [setThrough, setEntry, inStep level]
  cases oldEntry.slot level with
  | none => rfl
  | some slot =>
      cases marks newEntry.valid level with
      | false => rfl
      | true => rfl

/-- Every store of an update goes through a pointer that is set. -/
theorem updateVmSteps_eq (newEntry : Entry) (oldEntry : Vm) (lock : Bool) (k : Kernel) :
    updateVmSteps P current newEntry oldEntry lock k =
      some (updateVm P current newEntry lock k) := by
  simp only [updateVmSteps, updateVm]
  cases k.getMm current newEntry.pid with
  | none => rfl
  | some mm =>
      have inStep := resolveVm_inStep P current newEntry.vaddr newEntry.pid false
        (k.emitIf lock (.writeLock mm))
      simp only [resolveVmSteps_eq, setThrough_eq inStep, Option.bind_eq_bind, Option.bind_some,
        setEntries]
      cases P.hasP4d with
      | true => rfl
      | false => rfl

theorem copyWord_eq (mem : Mem) (vm : Vm) (level : Level) (user : Entry) :
    copyWord mem vm level user =
      some (user.setWord level (((vm.slot level).map (read64 mem)).getD (user.word level))) := by
  rw [copyWord]
  cases vm.slot level with
  | none => cases level <;> rfl
  | some slot => rfl

theorem vmToUserSteps_eq {vm : Vm} (folded : P.hasP4d = false → vm.slot .p4d = none) (mem : Mem)
    (user : Entry) : vmToUserSteps P mem user vm = some (vmToUser mem user vm) := by
  simp only [vmToUserSteps, copyWord_eq, Option.bind_eq_bind, Option.bind_some]
  cases version : P.hasP4d with
  | true => rfl
  | false =>
      have p4d : vm.p4d = none := folded version
      simp only [Bool.false_eq_true, if_false, vmToUser, p4d]
      rfl

end Requests

/-! ## What a client can rely on -/

/-- What `resolve_vm` returns: the mask says which pointers are set, the levels of the mask
are the first of the chain, and it returns 0 if it got to the PTE. -/
structure InStepOnReturn (P : Platform) (vm : Vm) (returned : Int) : Prop where
  pointers : ∀ level, marks vm.valid level = true ↔ vm.slot level ≠ none
  chain : ∃ reached, reached <+: levelChain P ∧ Marked vm reached
  returns : returned = 0 ↔ marks vm.valid .pte = true

/-- What `vm_to_user` leaves: the words of the valid levels, and everything else as it was. -/
structure CopiesOut (mem : Mem) (user : Entry) (vm : Vm) (copied : Entry) : Prop where
  words : ∀ level, marks vm.valid level = true →
    ∃ slot, vm.slot level = some slot ∧ copied.word level = read64 mem slot
  others : ∀ level, marks vm.valid level = false → copied.word level = user.word level
  valid : copied.valid = vm.valid
  target : copied.vaddr = user.vaddr ∧ copied.pid = user.pid

section Safe

variable (P : Platform) (current : Process)

/-- A walk got to the PTE if it got through. -/
theorem pte_mem_iff {reached : List Level} (first : reached <+: levelChain P) :
    .pte ∈ reached ↔ reached = levelChain P := by
  have split : ∃ upper, levelChain P = upper ++ [.pte] ∧ .pte ∉ upper := by
    rw [levelChain]
    cases P.hasP4d with
    | true => exact ⟨[.pgd, .p4d, .pud, .pmd], rfl, by decide⟩
    | false => exact ⟨[.pgd, .pud, .pmd], rfl, by decide⟩
  obtain ⟨upper, chain, absent⟩ := split
  rw [chain, List.prefix_concat_iff] at first
  rw [chain]
  rcases first with whole | part
  · rw [whole]
    simp
  · refine iff_of_false (fun member => absent (part.subset member)) ?_
    rintro rfl
    exact absent (part.subset (by simp))

theorem resolveVm_inStepOnReturn (addr pid : Word) (lock : Bool) (k : Kernel) :
    InStepOnReturn P (resolveVm P current addr pid lock k).1
      (resolveVm P current addr pid lock k).2.1 := by
  have inStep := resolveVm_inStep P current addr pid lock k
  obtain ⟨reached, first, marked, returned⟩ := Descends.marks_first
    (resolveVm_descends P current addr pid lock k) (marked_cleared pid)
  simp only [List.nil_append] at marked returned
  refine ⟨?_, ⟨reached, first, marked⟩, ?_⟩
  · intro level
    rw [inStep level, Option.isSome_iff_ne_none]
  · rw [marked .pte, pte_mem_iff P first, returned]
    split
    · rename_i through
      exact iff_of_true rfl through
    · rename_i stopped
      exact iff_of_false (by decide) stopped

section Returned

variable {P} {vm : Vm} {returned : Int} (inStep : InStepOnReturn P vm returned)

include inStep

/-- Without the level, its pointer stays `NULL`. -/
theorem InStepOnReturn.p4d_none (folded : P.hasP4d = false) : vm.slot .p4d = none := by
  obtain ⟨reached, first, marked⟩ := inStep.chain
  by_contra present
  have member : Level.p4d ∈ levelChain P :=
    first.subset ((marked .p4d).1 ((inStep.pointers .p4d).2 present))
  simp [levelChain, folded] at member

theorem InStepOnReturn.copiesOut (mem : Mem) (user : Entry) :
    CopiesOut mem user vm (vmToUser mem user vm) := by
  refine ⟨?_, ?_, rfl, rfl, rfl⟩
  · intro level valid
    obtain ⟨slot, reached⟩ := Option.ne_none_iff_exists'.1 ((inStep.pointers level).1 valid)
    refine ⟨slot, reached, ?_⟩
    rw [vmToUser_word, reached]
    rfl
  · intro level invalid
    have missing : vm.slot level = none := by
      by_contra present
      rw [(inStep.pointers level).2 present] at invalid
      exact absurd invalid (by decide)
    rw [vmToUser_word, missing]
    rfl

end Returned

theorem vmResolveSteps_eq (vmUser : Entry) (vm : Vm) (k : Kernel) :
    vmResolveSteps P current vmUser vm k = some (ioctlVmResolve P current vmUser k) := by
  have inStep :=
    resolveVm_inStepOnReturn P current vmUser.vaddr vmUser.pid (!k.mmIsLocked) k
  simp only [vmResolveSteps, resolveVmSteps_eq, Option.bind_eq_bind, Option.bind_some,
    vmToUserSteps_eq P inStep.p4d_none]
  rfl

/-- **`resolve_vm` keeps mask and pointers in step, so no request follows a `NULL` pointer.**
Whatever the page tables hold and the helpers answer, and whatever the caller's `vm_t` held
before, the walk returns; the mask is that of the pointers, and the result that of the PTE bit.
Every store of `update_vm` and every load of `vm_to_user` then goes through a pointer that is
set, and `vm_to_user` changes the words of the valid levels and no others. -/
theorem resolve_vm_null_safe (addr : Word) (entry : Vm) (lock : Bool) (k : Kernel) :
    (∃ vm returned after, resolveVmSteps P current addr entry lock k = some (vm, returned, after) ∧
      InStepOnReturn P vm returned ∧
      ∀ mem user, ∃ copied, vmToUserSteps P mem user vm = some copied ∧
        CopiesOut mem user vm copied) ∧
    (∀ newEntry oldEntry, (updateVmSteps P current newEntry oldEntry lock k).isSome = true) ∧
    (∀ vmUser vm, (vmResolveSteps P current vmUser vm k).isSome = true) := by
  have inStep := resolveVm_inStepOnReturn P current addr entry.pid lock k
  refine ⟨⟨_, _, _, resolveVmSteps_eq P current addr entry lock k, inStep, ?_⟩, ?_, ?_⟩
  · intro mem user
    exact ⟨_, vmToUserSteps_eq P inStep.p4d_none mem user, inStep.copiesOut mem user⟩
  · intro newEntry oldEntry
    rw [updateVmSteps_eq]
    rfl
  · intro vmUser vm
    rw [vmResolveSteps_eq]
    rfl

end Safe

end PTEditor.Module.Pointers
