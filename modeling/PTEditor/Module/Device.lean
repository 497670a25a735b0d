/-
# PTEditor.Module.Device -- `update_vm` and `device_ioctl`

The requests of the character device.  `update_vm` resolves the address again
and stores, root level first, every level that is both marked in the fresh
resolve and selected by the caller; with a folded P4D the P4D store goes to the
PGD's own slot, after it.  The two results every client proof uses:

* `updateVm_mem`: the memory afterwards is `storeAll` of `updateStores`, the list
  of the stores made, in order;
* `resolve_quiet`, `getRoot_quiet`: the reading requests change nothing but the
  trace.
-/
import PTEditor.Module.Walk

namespace PTEditor.Module

open PTEditor.Theory.ByteMemory PTEditor.Interface

set_option autoImplicit false

/-! ## `update_vm` -/

/-- Store one level if the fresh resolve has it and the caller selects it: the
`if` around each of `set_pgd`, `set_p4d`, `set_pud`, `set_pmd` and `set_pte`.
A marked level has its pointer (`resolveVm_inStep`), so the last case is idle. -/
def setEntry (mm : Mm) (oldEntry : Vm) (newEntry : Entry) (level : Level) (k : Kernel) : Kernel :=
  if marks oldEntry.valid level && marks newEntry.valid level then
    match oldEntry.slot level with
    | some slot => k.store mm slot (newEntry.word level)
    | none => k
  else k

def setEntries (P : Platform) (mm : Mm) (oldEntry : Vm) (newEntry : Entry) (k : Kernel) : Kernel :=
  let k := setEntry mm oldEntry newEntry .pgd k
  let k := if P.hasP4d then setEntry mm oldEntry newEntry .p4d k else k
  let k := setEntry mm oldEntry newEntry .pud k
  let k := setEntry mm oldEntry newEntry .pmd k
  setEntry mm oldEntry newEntry .pte k

def updateVm (P : Platform) (current : Process) (newEntry : Entry) (lock : Bool) (k : Kernel) :
    Int × Kernel :=
  let addr := newEntry.vaddr
  match k.getMm current newEntry.pid with
  | none => (1, k)
  | some mm =>
      let k := k.emitIf lock (.writeLock mm)
      let resolved := resolveVm P current addr newEntry.pid false k
      let k := setEntries P mm resolved.1 newEntry resolved.2.2
      let k := k.invalidateTlb P current addr
      let k := k.emitIf lock (.writeUnlock mm)
      (0, k)

/-! ## The requests -/

/-- The commands of `device_ioctl` with what they copy in from the caller. -/
inductive Request where
  | vmResolve (vm : Entry)
  | vmUpdate (vm : Entry)
  | vmLock
  | vmUnlock
  | readPage (pfn : Word)
  | writePage (pfn : Word) (content : Word → Byte)
  | getRoot (pid root : Word)
  | setRoot (pid root : Word)
  | getPagesize
  | invalidateTlb (addr : Word)
  | getPat
  | setPat (pat : Word)
  | switchTlbInvalidation (method : Word)
  | unknown

def Request.Out : Request → Type
  | .vmResolve _ => Entry
  | .readPage _ => Word → Byte
  | .getRoot _ _ => Word
  | .getPat => Word
  | _ => Unit

def ioctlVmResolve (P : Platform) (current : Process) (vmUser : Entry) (k : Kernel) :
    Int × Entry × Kernel :=
  let resolved := resolveVm P current vmUser.vaddr vmUser.pid (!k.mmIsLocked) k
  (0, vmToUser resolved.2.2.mem vmUser resolved.1, resolved.2.2)

def ioctlVmUpdate (P : Platform) (current : Process) (vmUser : Entry) (k : Kernel) : Int × Kernel :=
  (0, (updateVm P current vmUser (!k.mmIsLocked) k).2)

def ioctlVmLock (current : Process) (k : Kernel) : Int × Kernel :=
  let mm := current.owner
  if k.mmIsLocked then (-1, k)
  else (0, { (k.emit (.writeLock mm)).emit (.readLock mm) with mmIsLocked := true })

def ioctlVmUnlock (current : Process) (k : Kernel) : Int × Kernel :=
  let mm := current.owner
  if !k.mmIsLocked then (-1, k)
  else (0, { (k.emit (.writeUnlock mm)).emit (.readUnlock mm) with mmIsLocked := false })

/-- The aarch64 workaround in `GET_ROOT`: no address space, or one without a PGD. -/
def rootFromTtbr0 (P : Platform) (k : Kernel) (mm : Option Mm) : Bool :=
  match P.arch with
  | .aarch64 => mm.all fun mm => k.pgd mm == 0
  | .x86_64 => false

/-- The test of the workaround reads `mm->pgd`, before any lock is taken. -/
def testPgd (P : Platform) (k : Kernel) (mm : Option Mm) : Kernel :=
  match P.arch, mm with
  | .aarch64, some mm => k.emit (.load mm)
  | _, _ => k

/-- `GET_ROOT`.  The workaround answers from `ttbr0_el1`, the register of whoever
is running. -/
def ioctlGetRoot (P : Platform) (current : Process) (pid root : Word) (k : Kernel) :
    Int × Word × Kernel :=
  let mm := k.getMm current pid
  let k := testPgd P k mm
  if rootFromTtbr0 P k mm then (0, k.ttbr0El1 &&& ~~~1#64, k)
  else
    match mm with
    | none => (1, root, k)
    | some mm =>
        let k := k.emitIf (!k.mmIsLocked) (.readLock mm)
        let root := P.virtToPhys (k.pgd mm)
        let k := k.emit (.load mm)
        let k := k.emitIf (!k.mmIsLocked) (.readUnlock mm)
        (0, root, k)

def ioctlSetRoot (P : Platform) (current : Process) (pid root : Word) (k : Kernel) : Int × Kernel :=
  match k.getMm current pid with
  | none => (1, k)
  | some mm =>
      let k := k.emitIf (!k.mmIsLocked) (.writeLock mm)
      let k := { k.emit (.storeRoot mm root) with
        pgd := fun m => if m = mm then P.physToVirt root else k.pgd m }
      let k := k.emitIf (!k.mmIsLocked) (.writeUnlock mm)
      (0, k)

/-- `rdmsr` into two `int`s and back into a `size_t`, or `mrs`. -/
def ioctlGetPat (P : Platform) (k : Kernel) : Word :=
  match P.arch with
  | .x86_64 =>
      let low := k.pat.setWidth 32
      let high := (k.pat >>> 32).setWidth 32
      low.signExtend 64 ||| (high.signExtend 64 <<< 32)
  | .aarch64 => k.pat

/-- `_set_pat` on every CPU: the value goes to the register through two `int`s,
or through `msr`. -/
def setPat (P : Platform) (pat : Word) (k : Kernel) : Kernel :=
  match P.arch with
  | .x86_64 =>
      let low := (pat &&& 0xffffffff#64).setWidth 32
      let high := ((pat >>> 32) &&& 0xffffffff#64).setWidth 32
      { k with pat := high ++ low }
  | .aarch64 => { k with pat }

/-- `SWITCH_TLB_INVALIDATION`; the argument is compared as an `int`. -/
def ioctlSwitchTlbInvalidation (method : Word) (k : Kernel) : Int × Kernel :=
  if method.setWidth 32 = 0#32 then (0, { k with invalidateTlbMethod := .kernel })
  else if method.setWidth 32 = 1#32 then (0, { k with invalidateTlbMethod := .custom })
  else (-1, k)

/-- The bytes of the physical page `pfn`, by offset. -/
def ioctlReadPage (pfn : Word) (k : Kernel) : Word → Byte :=
  fun offset => k.mem (pfn * k.realPageSize + offset)

def ioctlWritePage (pfn : Word) (content : Word → Byte) (k : Kernel) : Kernel :=
  let page := pfn * k.realPageSize
  { k with
    mem := fun x => if x - page < k.realPageSize then content (x - page) else k.mem x }

def deviceIoctl (P : Platform) (current : Process) (request : Request) (k : Kernel) :
    Int × request.Out × Kernel :=
  match request with
  | .vmResolve vm => ioctlVmResolve P current vm k
  | .vmUpdate vm =>
      let result := ioctlVmUpdate P current vm k
      (result.1, (), result.2)
  | .vmLock =>
      let result := ioctlVmLock current k
      (result.1, (), result.2)
  | .vmUnlock =>
      let result := ioctlVmUnlock current k
      (result.1, (), result.2)
  | .readPage pfn => (0, ioctlReadPage pfn k, k)
  | .writePage pfn content => (0, (), ioctlWritePage pfn content k)
  | .getRoot pid root => ioctlGetRoot P current pid root k
  | .setRoot pid root =>
      let result := ioctlSetRoot P current pid root k
      (result.1, (), result.2)
  | .getPagesize => (k.realPageSize.toNat, (), k)
  | .invalidateTlb addr => (0, (), k.invalidateTlb P current addr)
  | .getPat => (0, ioctlGetPat P k, k)
  | .setPat pat => (0, (), setPat P pat k)
  | .switchTlbInvalidation method =>
      let result := ioctlSwitchTlbInvalidation method k
      (result.1, (), result.2)
  | .unknown => (-1, (), k)

/-- `device_open`; `-EBUSY` is `-16`. -/
def deviceOpen (k : Kernel) : Int × Kernel :=
  if k.deviceBusy then (-16, k) else (0, { k with deviceBusy := true })

def deviceRelease (k : Kernel) : Int × Kernel := (0, { k with deviceBusy := false })

/-! ## The stores of an update -/

/-- The store `set_entry` makes at one level, if it makes one. -/
def levelStore (oldEntry : Vm) (newEntry : Entry) (level : Level) : List (Word × Word) :=
  if marks oldEntry.valid level && marks newEntry.valid level then
    match oldEntry.slot level with
    | some slot => [(slot, newEntry.word level)]
    | none => []
  else []

/-- All stores of an update, in the order in which `update_vm` makes them. -/
def updateStores (P : Platform) (oldEntry : Vm) (newEntry : Entry) : List (Word × Word) :=
  levelStore oldEntry newEntry .pgd ++
    ((if P.hasP4d then levelStore oldEntry newEntry .p4d else []) ++
      (levelStore oldEntry newEntry .pud ++
        (levelStore oldEntry newEntry .pmd ++ levelStore oldEntry newEntry .pte)))

theorem levelStore_some {oldEntry : Vm} (inStep : oldEntry.InStep) (newEntry : Entry)
    {level : Level} {slot : Word} (reached : oldEntry.slot level = some slot) :
    levelStore oldEntry newEntry level =
      if marks newEntry.valid level then [(slot, newEntry.word level)] else [] := by
  simp only [levelStore, inStep level, reached, Option.isSome_some, Bool.true_and]

theorem levelStore_none {oldEntry : Vm} (inStep : oldEntry.InStep) (newEntry : Entry)
    {level : Level} (missed : oldEntry.slot level = none) :
    levelStore oldEntry newEntry level = [] := by
  simp only [levelStore, inStep level, missed, Option.isSome_none, Bool.false_and,
    Bool.false_eq_true, if_false]

theorem levelStore_unselected (oldEntry : Vm) {newEntry : Entry} {level : Level}
    (unselected : marks newEntry.valid level = false) :
    levelStore oldEntry newEntry level = [] := by
  simp only [levelStore, unselected, Bool.and_false, Bool.false_eq_true, if_false]

theorem mem_levelStore {oldEntry : Vm} (inStep : oldEntry.InStep) (newEntry : Entry)
    (level : Level) (s : Word × Word) :
    s ∈ levelStore oldEntry newEntry level ↔
      oldEntry.slot level = some s.1 ∧ marks newEntry.valid level = true ∧
        s.2 = newEntry.word level := by
  cases reached : oldEntry.slot level with
  | none => simp [levelStore_none inStep newEntry reached]
  | some slot =>
      rw [levelStore_some inStep newEntry reached]
      cases marks newEntry.valid level with
      | false => simp
      | true => simp [Prod.ext_iff, eq_comm]

/-- Where the walk reaches a P4D only on a kernel that has one, its store is made like the
others. -/
theorem updateStores_eq {P : Platform} {oldEntry : Vm} (inStep : oldEntry.InStep)
    (version : P.hasP4d = false → oldEntry.slot .p4d = none) (newEntry : Entry) :
    updateStores P oldEntry newEntry =
      levelStore oldEntry newEntry .pgd ++ (levelStore oldEntry newEntry .p4d ++
        (levelStore oldEntry newEntry .pud ++
          (levelStore oldEntry newEntry .pmd ++ levelStore oldEntry newEntry .pte))) := by
  cases hasP4d : P.hasP4d with
  | false =>
      simp only [updateStores, hasP4d, Bool.false_eq_true, if_false,
        levelStore_none inStep newEntry (version hasP4d)]
  | true => simp only [updateStores, hasP4d, if_true]

/-- What an update stores, level by level. -/
theorem mem_updateStores {P : Platform} {oldEntry : Vm} (inStep : oldEntry.InStep)
    (version : P.hasP4d = false → oldEntry.slot .p4d = none) (newEntry : Entry)
    (s : Word × Word) :
    s ∈ updateStores P oldEntry newEntry ↔
      ∃ level, oldEntry.slot level = some s.1 ∧ marks newEntry.valid level = true ∧
        s.2 = newEntry.word level := by
  simp only [updateStores_eq inStep version, List.mem_append, mem_levelStore inStep]
  constructor
  · rintro (pgd | p4d | pud | pmd | pte)
    · exact ⟨.pgd, pgd⟩
    · exact ⟨.p4d, p4d⟩
    · exact ⟨.pud, pud⟩
    · exact ⟨.pmd, pmd⟩
    · exact ⟨.pte, pte⟩
  · rintro ⟨level, stored⟩
    cases level with
    | pgd => exact .inl stored
    | p4d => exact .inr (.inl stored)
    | pud => exact .inr (.inr (.inl stored))
    | pmd => exact .inr (.inr (.inr (.inl stored)))
    | pte => exact .inr (.inr (.inr (.inr stored)))

theorem setEntry_mem (mm : Mm) (oldEntry : Vm) (newEntry : Entry) (level : Level) (k : Kernel) :
    (setEntry mm oldEntry newEntry level k).mem =
      storeAll k.mem (levelStore oldEntry newEntry level) := by
  simp only [setEntry, levelStore]
  split
  · cases oldEntry.slot level <;> rfl
  · rfl

theorem setEntry_edited (mm : Mm) (oldEntry : Vm) (newEntry : Entry) (level : Level) (k : Kernel) :
    k.Edited (setEntry mm oldEntry newEntry level k) := by
  simp only [setEntry]
  split
  · cases oldEntry.slot level with
    | none => exact (Kernel.Quiet.refl k).edited
    | some slot => exact k.edited_store mm slot _
  · exact (Kernel.Quiet.refl k).edited

theorem setEntries_mem (P : Platform) (mm : Mm) (oldEntry : Vm) (newEntry : Entry) (k : Kernel) :
    (setEntries P mm oldEntry newEntry k).mem =
      storeAll k.mem (updateStores P oldEntry newEntry) := by
  simp only [setEntries, updateStores, storeAll_append, setEntry_mem]
  cases P.hasP4d with
  | false => simp only [Bool.false_eq_true, if_false, setEntry_mem, storeAll_nil]
  | true => simp only [if_true, setEntry_mem]

theorem setEntries_edited (P : Platform) (mm : Mm) (oldEntry : Vm) (newEntry : Entry)
    (k : Kernel) : k.Edited (setEntries P mm oldEntry newEntry k) := by
  have p4d : ∀ k : Kernel,
      k.Edited (if P.hasP4d then setEntry mm oldEntry newEntry .p4d k else k) := by
    intro k
    cases P.hasP4d with
    | false => exact (Kernel.Quiet.refl k).edited
    | true => exact setEntry_edited mm oldEntry newEntry .p4d k
  exact (((setEntry_edited mm oldEntry newEntry .pgd k).trans (p4d _)).trans
    (setEntry_edited mm oldEntry newEntry .pud _)).trans
      ((setEntry_edited mm oldEntry newEntry .pmd _).trans
        (setEntry_edited mm oldEntry newEntry .pte _))

/-- The entry `update_vm` resolves for itself. -/
def oldEntryOf (P : Platform) (k : Kernel) (mm : Mm) (newEntry : Entry) : Vm :=
  (walkPgd P k.mem newEntry.vaddr (P.virtToPhys (k.pgd mm)) (Vm.cleared newEntry.pid)).1

/-- **What an update does**: its stores, then one TLB invalidation of the
address, and nothing else but lock operations. -/
theorem updateVm_spec (P : Platform) (current : Process) (newEntry : Entry) (lock : Bool)
    (k : Kernel) {mm : Mm} (found : k.getMm current newEntry.pid = some mm) :
    ∃ stored, k.Edited stored ∧
      stored.mem = storeAll k.mem (updateStores P (oldEntryOf P k mm newEntry) newEntry) ∧
      (stored.invalidateTlb P current newEntry.vaddr).Quiet
        (updateVm P current newEntry lock k).2 := by
  have locked := k.quiet_emitIf lock (.writeLock mm)
  have resolved := locked.trans (resolveVm_quiet P current newEntry.vaddr newEntry.pid false _)
  have old := resolveVm_vm P current newEntry.vaddr newEntry.pid false
    (k.emitIf lock (.writeLock mm)) (by rw [locked.steady.getMm_eq]; exact found)
  rw [locked.mem_eq, locked.steady.pgd_eq] at old
  simp only [updateVm, found]
  refine ⟨_, resolved.edited.trans (setEntries_edited P mm _ newEntry _), ?_,
    Kernel.quiet_emitIf _ _ _⟩
  rw [setEntries_mem, resolved.mem_eq, old]
  rfl

theorem updateVm_mem (P : Platform) (current : Process) (newEntry : Entry) (lock : Bool)
    (k : Kernel) {mm : Mm} (found : k.getMm current newEntry.pid = some mm) :
    (updateVm P current newEntry lock k).2.mem =
      storeAll k.mem (updateStores P (oldEntryOf P k mm newEntry) newEntry) := by
  obtain ⟨stored, -, mem, quiet⟩ := updateVm_spec P current newEntry lock k found
  rw [quiet.mem_eq, Kernel.invalidateTlb_mem, mem]

theorem updateVm_invalidated (P : Platform) (current : Process) (newEntry : Entry) (lock : Bool)
    (k : Kernel) {mm : Mm} (found : k.getMm current newEntry.pid = some mm) :
    k.Invalidated (updateVm P current newEntry lock k).2 newEntry.vaddr := by
  obtain ⟨stored, edited, -, quiet⟩ := updateVm_spec P current newEntry lock k found
  exact edited.invalidated quiet

theorem updateVm_steady (P : Platform) (current : Process) (newEntry : Entry) (lock : Bool)
    (k : Kernel) : k.Steady (updateVm P current newEntry lock k).2 := by
  cases found : k.getMm current newEntry.pid with
  | none =>
      simp only [updateVm, found]
      exact (Kernel.Quiet.refl k).steady
  | some mm =>
      obtain ⟨stored, edited, -, quiet⟩ := updateVm_spec P current newEntry lock k found
      exact (edited.steady.trans (stored.invalidateTlb_steady P current _)).trans quiet.steady

/-- A pid that names no address space is refused before anything is touched. -/
theorem updateVm_none (P : Platform) (current : Process) (newEntry : Entry) (lock : Bool)
    (k : Kernel) (missing : k.getMm current newEntry.pid = none) :
    (updateVm P current newEntry lock k).2 = k := by
  simp only [updateVm, missing]

/-! ## The reading requests -/

theorem resolve_quiet (P : Platform) (current : Process) (vm : Entry) (k : Kernel) :
    k.Quiet (ioctlVmResolve P current vm k).2.2 :=
  resolveVm_quiet P current vm.vaddr vm.pid _ k

theorem testPgd_quiet (P : Platform) (k : Kernel) (mm : Option Mm) : k.Quiet (testPgd P k mm) := by
  unfold testPgd
  split
  · exact k.quiet_emit _
  · exact Kernel.Quiet.refl k

theorem getRoot_quiet (P : Platform) (current : Process) (pid root : Word) (k : Kernel) :
    k.Quiet (ioctlGetRoot P current pid root k).2.2 := by
  have tested := testPgd_quiet P k (k.getMm current pid)
  simp only [ioctlGetRoot]
  split
  · exact tested
  · split
    · exact tested
    · exact ((tested.trans (Kernel.quiet_emitIf _ _ _)).trans (Kernel.quiet_emit _ _)).trans
        (Kernel.quiet_emitIf _ _ _)

/-- What `GET_ROOT` answers, whatever it locks on the way. -/
theorem ioctlGetRoot_root (P : Platform) (current : Process) (pid root : Word) (k : Kernel) :
    (ioctlGetRoot P current pid root k).2.1 =
      if rootFromTtbr0 P k (k.getMm current pid) then k.ttbr0El1 &&& ~~~1#64
      else ((k.getMm current pid).map fun mm => P.virtToPhys (k.pgd mm)).getD root := by
  have tested := (testPgd_quiet P k (k.getMm current pid)).steady
  have condition : rootFromTtbr0 P (testPgd P k (k.getMm current pid)) (k.getMm current pid) =
      rootFromTtbr0 P k (k.getMm current pid) := by
    simp only [rootFromTtbr0, tested.pgd_eq]
  simp only [ioctlGetRoot, condition, tested.ttbr0El1_eq]
  split
  · rfl
  · cases k.getMm current pid with
    | none => rfl
    | some mm =>
        have locked := ((testPgd P k (some mm)).quiet_emitIf
          (!(testPgd P k (some mm)).mmIsLocked) (.readLock mm)).steady
        simp only [Option.map_some, Option.getD_some, locked.pgd_eq]
        rw [(testPgd_quiet P k (some mm)).steady.pgd_eq]

theorem ioctlVmResolve_entry (P : Platform) (current : Process) (vm : Entry) (k : Kernel) {mm : Mm}
    (found : k.getMm current vm.pid = some mm) :
    (ioctlVmResolve P current vm k).2.1 =
      vmToUser k.mem vm
        (walkPgd P k.mem vm.vaddr (P.virtToPhys (k.pgd mm)) (Vm.cleared vm.pid)).1 := by
  simp only [ioctlVmResolve]
  rw [resolveVm_vm P current vm.vaddr vm.pid _ k found, (resolveVm_quiet _ _ _ _ _ k).mem_eq]

/-! ## Requests for any pid -/

/-- The pointers `resolve_vm` finds; none if the pid names no address space. -/
def resolvedVm (P : Platform) (current : Process) (addr pid : Word) (k : Kernel) : Vm :=
  (resolveVm P current addr pid false k).1

section ResolvedVm

variable (P : Platform) (current : Process)

theorem resolvedVm_some (addr pid : Word) {k : Kernel} {mm : Mm}
    (found : k.getMm current pid = some mm) :
    resolvedVm P current addr pid k =
      (walkPgd P k.mem addr (P.virtToPhys (k.pgd mm)) (Vm.cleared pid)).1 :=
  resolveVm_vm P current addr pid false k found

theorem resolvedVm_none (addr pid : Word) {k : Kernel} (missing : k.getMm current pid = none) :
    resolvedVm P current addr pid k = Vm.cleared pid := by
  simp only [resolvedVm, resolveVm, missing]

theorem resolvedVm_inStep (addr pid : Word) (k : Kernel) :
    (resolvedVm P current addr pid k).InStep :=
  resolveVm_inStep P current addr pid false k

theorem resolvedVm_p4d_none {P : Platform} (old : P.hasP4d = false) (current : Process)
    (addr pid : Word) (k : Kernel) : (resolvedVm P current addr pid k).slot .p4d = none := by
  cases found : k.getMm current pid with
  | none => rw [resolvedVm_none P current addr pid found, Vm.cleared_slot]
  | some mm => rw [resolvedVm_some P current addr pid found, walkPgd_p4d_none old]

/-- The pointers depend on memory and on what no entry update changes. -/
theorem resolvedVm_congr (addr pid : Word) {k k' : Kernel} (steady : k.Steady k')
    (sameMem : k'.mem = k.mem) :
    resolvedVm P current addr pid k' = resolvedVm P current addr pid k := by
  cases found : k.getMm current pid with
  | none =>
      rw [resolvedVm_none P current addr pid found,
        resolvedVm_none P current addr pid (by rw [steady.getMm_eq, found])]
  | some mm =>
      have found' : k'.getMm current pid = some mm := by rw [steady.getMm_eq, found]
      rw [resolvedVm_some P current addr pid found, resolvedVm_some P current addr pid found',
        sameMem, steady.pgd_eq]

/-- The pointers depend on the caller through the address space it names only. -/
theorem resolvedVm_current (addr pid : Word) {k : Kernel} {other : Process}
    (sameMm : k.getMm other pid = k.getMm current pid) :
    resolvedVm P other addr pid k = resolvedVm P current addr pid k := by
  cases found : k.getMm current pid with
  | none =>
      rw [resolvedVm_none P current addr pid found,
        resolvedVm_none P other addr pid (sameMm.trans found)]
  | some mm =>
      rw [resolvedVm_some P current addr pid found,
        resolvedVm_some P other addr pid (sameMm.trans found)]

theorem ioctlVmResolve_vm (vm : Entry) (k : Kernel) :
    (ioctlVmResolve P current vm k).2.1 =
      vmToUser k.mem vm (resolvedVm P current vm.vaddr vm.pid k) := by
  cases found : k.getMm current vm.pid with
  | none => simp only [ioctlVmResolve, resolveVm, resolvedVm, found]
  | some mm =>
      rw [ioctlVmResolve_entry P current vm k found,
        resolvedVm_some P current vm.vaddr vm.pid found]

theorem updateVm_stores (newEntry : Entry) (lock : Bool) (k : Kernel) :
    (updateVm P current newEntry lock k).2.mem =
      storeAll k.mem
        (updateStores P (resolvedVm P current newEntry.vaddr newEntry.pid k) newEntry) := by
  cases found : k.getMm current newEntry.pid with
  | none =>
      have inStep := Vm.cleared_inStep newEntry.pid
      have nothing : ∀ level, levelStore (Vm.cleared newEntry.pid) newEntry level = [] :=
        fun level => levelStore_none inStep newEntry (Vm.cleared_slot _ level)
      rw [updateVm_none P current newEntry lock k found,
        resolvedVm_none P current newEntry.vaddr newEntry.pid found]
      simp only [updateStores, nothing, ite_self, List.append_nil, storeAll_nil]
  | some mm =>
      rw [updateVm_mem P current newEntry lock k found,
        resolvedVm_some P current newEntry.vaddr newEntry.pid found]
      rfl

end ResolvedVm

end PTEditor.Module
