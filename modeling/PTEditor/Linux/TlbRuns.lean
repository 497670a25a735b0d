/-
# PTEditor.Linux.TlbRuns -- which translations a running program leaves stale

The processor fills its cache of translations from the tables whenever it likes, and loses
entries whenever it likes; only the device drops them on request.  A program edits PTEs
through the library, with either implementation, switches the implementation and the
invalidation method, and invalidates addresses.

* `calls_decide_mappings`: what each address is mapped to after such a program, by the
  tables.
* `translations_fresh_iff`: a page is never cached with a mapping other than the one in the
  tables, in no state of any schedule, exactly if every call of the program that changes
  the mapping of the page names a canonical address of it, and either the custom method is
  selected or the call is about the calling process and does not reach the last page.

The custom method is taken to do what it is for, that is, to drop the page on every
processor; `PTEditor.Module.Invalidation` says when it does.
-/
import PTEditor.Theory.CachedReads
import PTEditor.Linux.Mmu
import PTEditor.Linux.MixedRuns
import PTEditor.Linux.TlbFlush

namespace PTEditor.Linux.TlbRuns

open PTEditor.Theory.ByteMemory PTEditor.Theory.RadixTree PTEditor.Theory.Runs
open PTEditor.Theory.CachedReads PTEditor.Interface PTEditor.Module
open PTEditor.Library PTEditor.Library.X86Walk PTEditor.Library.PageMap PTEditor.Linux.Agreement
open PTEditor.Linux.KernelEdits PTEditor.Linux.MixedRuns PTEditor.Linux.TlbFlush PTEditor.Linux.Mmu

set_option autoImplicit false

/-! ## Mappings after a program -/

section Mappings

variable {P : Platform} {s : System} {root : Word}

/-- **The calls decide the mappings.**  After a program of PTE calls and switches, the processor's
walk of a canonical address finds the mapping that the PTE has after the operations on its page,
in order, under the rights of the unchanged levels above; an address without a PTE is mapped as
before, to its part of a large page or to nothing. -/
theorem calls_decide_mappings (four : FourLevel P) (ready : Ready P s)
    (shaped : TreeShapedMemory s.kernel.mem root) (actions : List Action)
    (targets : ∀ call ∈ callsOf actions, Target P s root call.pid)
    (orderly : ∀ call ∈ callsOf actions, OrderlyWalk P s.kernel.mem root call.address) :
    ∃ s', runActions P actions s = some s' ∧
      ∀ b pid, Target P s root pid → OrderlyWalk P s.kernel.mem root b → Canonical b →
        ∃ before s₁, pteditResolve P b pid s = some (before, s₁) ∧
          pageWalk s'.kernel.mem root b =
            if marks before.valid .pte then
              mappingOf (upperRights s.kernel.mem root b) (opsOn b (callsOf actions) before.pte)
            else pageWalk s.kernel.mem root b := by
  obtain ⟨s', ran, -, -, edited⟩ := runActions_edits four ready shaped actions targets orderly
  obtain ⟨-, -, inner, leaves⟩ := editRun_leaves (P := P) shaped (callsOf actions) edited
  refine ⟨s', ran, ?_⟩
  intro b pid target orderlyB canonical
  obtain ⟨before, s₁, first, -, marked, word⟩ := resolve_leaf four ready target orderlyB
  refine ⟨before, s₁, first, ?_⟩
  rw [pageWalk_changed orderlyB inner (leaves b),
    if_pos canonical, marked, word]
  cases leafAt s.kernel.mem root b with
  | none => simp only [Option.isSome_none, Bool.false_eq_true, if_false]
  | some pte => simp only [Option.isSome_some, if_true, Option.getD_some]

/-- A page made read-only through the device and moved to frame 7 with `pread`. -/
theorem calls_decide_mappings_onePage :
    ∃ s', runActions fourLevelPlatform
        [.call ⟨.clearBit 1, 0, 0⟩, .usePread, .call ⟨.setPfn 7, 0, 0⟩] onePageKernelSystem = some s' ∧
      pageWalk s'.kernel.mem 0x1000 0x10 = some ⟨7, ⟨false, true, true⟩⟩ := by
  have own : fourLevelPlatform.virtToPhys (onePageKernel.pgd 0) = 0x1000 :=
    fourLevelPlatform.virtToPhys_physToVirt 0x1000
  have target : Target fourLevelPlatform onePageKernelSystem 0x1000 0 :=
    ⟨0, by decide, own, by decide, by decide⟩
  obtain ⟨s', ran, mapped⟩ := calls_decide_mappings fourLevelPlatform_fourLevel
    (s := onePageKernelSystem) ⟨.inl ⟨rfl, rfl⟩, rfl⟩
    (show TreeShapedMemory onePageKernelSystem.kernel.mem 0x1000 from onePageMem_treeShaped)
    [.call ⟨.clearBit 1, 0, 0⟩, .usePread, .call ⟨.setPfn 7, 0, 0⟩]
    (by
      intro call member
      simp only [callsOf, List.filterMap_cons, List.filterMap_nil, List.mem_cons,
        List.not_mem_nil, or_false] at member
      rcases member with rfl | rfl <;> exact target)
    (by
      intro call member
      simp only [callsOf, List.filterMap_cons, List.filterMap_nil, List.mem_cons,
        List.not_mem_nil, or_false] at member
      rcases member with rfl | rfl <;> exact onePage_orderly)
  have orderly : OrderlyWalk fourLevelPlatform onePageMem 0x1000 0x10 := by
    constructor <;> decide +kernel
  obtain ⟨before, s₁, resolved, walked⟩ := mapped 0x10 0 target orderly (by decide)
  refine ⟨s', ran, ?_⟩
  have initial : (pteditResolve fourLevelPlatform 0x10 0 onePageKernelSystem).map
      (fun answer => (marks answer.1.valid .pte, answer.1.pte)) = some (true, 0x5007) := by
    decide +kernel
  rw [resolved, Option.map_some, Option.some.injEq, Prod.mk.injEq] at initial
  rw [walked, initial.1, initial.2]
  decide +kernel

end Mappings

/-! ## What the device drops -/

/-- Whether an invalidation of `addr`, asked for by `owner`, drops a page of `mm`. -/
def dropsPage (method : TlbMethod) (owner mm : Mm) (addr page : Word) : Bool :=
  match method with
  | .custom => page == addr >>> 12
  | .kernel =>
      mm == owner && decide (addr.toNat < (page.toNat + 1) * 2 ^ 12) &&
        decide (page.toNat * 2 ^ 12 < (addr + 4096).toNat)

section Drops

variable {P : Platform} {s : System} {root : Word}

/-- The kernel's method flushes the range for the caller. -/
theorem invalidateTlbKernel_tlb {k : Kernel} {current : Process} (arch : P.arch = .x86_64)
    (sizes : PageSizes P k) (runs : k.Runs current) (addr : Word) (mm : Mm) (page : Word) :
    (k.invalidateTlbKernel P current addr).tlb mm page =
      (k.tlb mm page && !dropsPage .kernel current.owner mm addr page) := by
  obtain ⟨size, shift⟩ := sizes.x86_64 arch
  simp only [Kernel.invalidateTlbKernel, arch, k.getMm_self current runs, Kernel.flushTlbMmRange,
    size, shift, dropsPage]

/-- An invalidation drops what `dropsPage` says, and nothing else. -/
theorem invalidateTlb_tlb {k : Kernel} {current : Process} (arch : P.arch = .x86_64)
    (sizes : PageSizes P k) (runs : k.Runs current) (addr : Word) (mm : Mm) (page : Word) :
    (k.invalidateTlb P current addr).tlb mm page =
      (k.tlb mm page && !dropsPage k.invalidateTlbMethod current.owner mm addr page) := by
  have flushed := invalidateTlbKernel_tlb (k := k.emit (.invalidateTlb addr)) arch ⟨sizes.x86_64⟩
    runs addr mm page
  have sameMethod : (k.emit (.invalidateTlb addr)).invalidateTlbMethod = k.invalidateTlbMethod := rfl
  simp only [Kernel.invalidateTlb, sameMethod]
  cases k.invalidateTlbMethod with
  | kernel => exact flushed
  | custom =>
      simp only [Kernel.invalidateTlbCustom, Kernel.emit, (sizes.x86_64 arch).2, bne, dropsPage]

/-- A `VM_UPDATE` invalidates once, after its stores. -/
theorem ioctlVmUpdate_tlb {k : Kernel} {current : Process} (arch : P.arch = .x86_64)
    (sizes : PageSizes P k) (runs : k.Runs current) (n : Entry) {named : Mm}
    (found : k.getMm current n.pid = some named) (mm : Mm) (page : Word) :
    (ioctlVmUpdate P current n k).2.tlb mm page =
      (k.tlb mm page && !dropsPage k.invalidateTlbMethod current.owner mm n.vaddr page) := by
  obtain ⟨stored, edited, -, quiet⟩ := updateVm_spec P current n (!k.mmIsLocked) k found
  have once := invalidateTlb_tlb arch (sizes.steady edited.steady) (edited.steady.runs runs) n.vaddr
    mm page
  have same : (ioctlVmUpdate P current n k).2.tlb = (stored.invalidateTlb P current n.vaddr).tlb :=
    quiet.tlb_eq
  rw [same, once]
  obtain ⟨_, _, rfl⟩ := edited
  rfl

theorem pteditInvalidateTlb_tlb (arch : P.arch = .x86_64) (sizes : PageSizes P s.kernel)
    (runs : s.kernel.Runs s.current) {s' : System} (steady : s.Steady s') (addr : Word) (mm : Mm)
    (page : Word) :
    (pteditInvalidateTlb P addr s').kernel.tlb mm page =
      (s'.kernel.tlb mm page &&
        !dropsPage s.kernel.invalidateTlbMethod s.current.owner mm addr page) := by
  obtain ⟨k, steadyK, rfl⟩ := steady
  have sameMethod : k.invalidateTlbMethod = s.kernel.invalidateTlbMethod := by
    obtain ⟨_, _, _, rfl⟩ := steadyK
    rfl
  rw [← sameMethod]
  exact invalidateTlb_tlb arch (sizes.steady steadyK) (steadyK.runs runs) addr mm page

/-- Before its last invalidation an update with `pread` has dropped what that will drop, or
nothing. -/
theorem pteditUpdateUserExt_tlb (arch : P.arch = .x86_64) (sizes : PageSizes P s.kernel)
    (runs : s.kernel.Runs s.current) {pset : Mem → Word → Word → Option Mem} {pid : BitVec 32}
    {addr : Word} {vm : Entry} {s' : System}
    (updated : pteditUpdateUserExt P pset addr pid vm s = some s') (mm : Mm) (page : Word) :
    s'.kernel.tlb mm page = s.kernel.tlb mm page ∨
      s'.kernel.tlb mm page = (s.kernel.tlb mm page &&
        !dropsPage s.kernel.invalidateTlbMethod s.current.owner mm addr page) := by
  simp only [pteditUpdateUserExt, Option.bind_eq_some_iff] at updated
  obtain ⟨⟨current, s₁⟩, resolved, updated⟩ := updated
  obtain ⟨k, quiet, eq⟩ := (resolve_quiet_system P resolved).trans (walkRoot_quiet P pid s₁)
  simp only [eq] at updated
  split at updated
  · cases updated
    exact .inl (by rw [quiet.tlb_eq])
  · obtain ⟨mem, -, rfl⟩ := Option.map_eq_some_iff.mp updated
    have steady : s.Steady { s with kernel := { k with mem } } :=
      ⟨_, quiet.steady.trans ⟨mem, k.tlb, k.trace, rfl⟩, rfl⟩
    refine .inr ?_
    rw [pteditInvalidateTlb_tlb arch sizes runs steady, quiet.tlb_eq]

/-- An update invalidates its address: once through the device, once or twice with `pread`. -/
theorem pteditUpdate_tlb (arch : P.arch = .x86_64) (ready : Ready P s) (sizes : PageSizes P s.kernel)
    (runs : s.kernel.Runs s.current) {pid : BitVec 32} (target : Target P s root pid) {addr : Word}
    {vm : Entry} {s' : System} (updated : pteditUpdate P addr pid vm s = some s') (mm : Mm)
    (page : Word) :
    s'.kernel.tlb mm page =
      (s.kernel.tlb mm page &&
        !dropsPage s.kernel.invalidateTlbMethod s.current.owner mm addr page) := by
  obtain ⟨named, names⟩ := target
  rcases ready.active with kernel | ⟨pread, -⟩
  · simp only [pteditUpdate, kernel.update, Option.some.injEq] at updated
    rw [← updated]
    exact ioctlVmUpdate_tlb arch sizes runs { vm with vaddr := addr, pid := pid.signExtend 64 }
      names.named mm page
  · simp only [pteditUpdate, pread.update, pteditUpdateUser] at updated
    obtain ⟨s₂, first, rfl⟩ := Option.map_eq_some_iff.mp updated
    rw [pteditInvalidateTlb_tlb arch sizes runs (pteditUpdateUserExt_steady P first)]
    rcases pteditUpdateUserExt_tlb arch sizes runs first mm page with same | same
    · rw [same]
    · rw [same, Bool.and_assoc, Bool.and_self]

/-- The calls that resolve first invalidate only if they find a PTE to change. -/
theorem pteEdit_tlb (four : FourLevel P) (ready : Ready P s) (sizes : PageSizes P s.kernel)
    (runs : s.kernel.Runs s.current) {pid : BitVec 32} (target : Target P s root pid) {addr : Word}
    (orderly : OrderlyWalk P s.kernel.mem root addr) {change : Word → Word} {s' : System}
    (edited : pteEdit P change addr pid s = some s') (mm : Mm) (page : Word) :
    s'.kernel.tlb mm page =
      (s.kernel.tlb mm page && !((leafAt s.kernel.mem root addr).isSome &&
        dropsPage s.kernel.invalidateTlbMethod s.current.owner mm addr page)) := by
  obtain ⟨vm, s₁, resolved, quiet, marked, -⟩ := resolve_leaf four ready target orderly
  simp only [pteEdit, resolved, Option.bind_some, marked] at edited
  obtain ⟨k, quietK, rfl⟩ := quiet
  cases leaf : (leafAt s.kernel.mem root addr).isSome with
  | false =>
      simp only [leaf, Bool.false_eq_true, if_false, Option.some.injEq] at edited
      rw [← edited]
      simp only [quietK.tlb_eq, Bool.false_and, Bool.not_false, Bool.and_true]
  | true =>
      simp only [leaf, if_true] at edited
      have steady : s.Steady { s with kernel := k } := ⟨k, quietK.steady, rfl⟩
      have dropped := pteditUpdate_tlb four.arch (ready.steady steady) (sizes.steady quietK.steady)
        (quietK.steady.runs runs) ((continues_of_steady steady).target target) edited mm page
      obtain ⟨_, rfl⟩ := quietK
      rw [dropped, Bool.true_and]

/-- A call that finds no PTE may go without an invalidation. -/
def invalidates (mem : Mem) (root : Word) (call : PteCall) : Bool :=
  match call.op with
  | .update _ => true
  | _ => (leafAt mem root call.address).isSome

/-- **What a call drops.** -/
theorem call_tlb (four : FourLevel P) (ready : Ready P s) (sizes : PageSizes P s.kernel)
    (runs : s.kernel.Runs s.current) {call : PteCall} (target : Target P s root call.pid)
    (orderly : OrderlyWalk P s.kernel.mem root call.address) {s' : System}
    (ran : call.run P s = some s') (mm : Mm) (page : Word) :
    s'.kernel.tlb mm page =
      (s.kernel.tlb mm page && !(invalidates s.kernel.mem root call &&
        dropsPage s.kernel.invalidateTlbMethod s.current.owner mm call.address page)) := by
  obtain ⟨op, addr, pid⟩ := call
  cases op with
  | setBit bit =>
      have edited : pteEdit P ((PteOp.setBit bit).onWord .x86_64) addr pid s = some s' := ran
      exact pteEdit_tlb four ready sizes runs target orderly edited mm page
  | clearBit bit =>
      have edited : pteEdit P ((PteOp.clearBit bit).onWord .x86_64) addr pid s = some s' := ran
      exact pteEdit_tlb four ready sizes runs target orderly edited mm page
  | setPfn pfn =>
      have edited : pteEdit P (fun pte => pteditSetPfn P.arch pte pfn) addr pid s = some s' := ran
      exact pteEdit_tlb four ready sizes runs target orderly edited mm page
  | update vm =>
      simp only [invalidates, Bool.true_and]
      exact pteditUpdate_tlb four.arch ready sizes runs target ran mm page

/-- **Who is reached.**  An invalidation drops a page of the same leaf exactly if it was asked for
by a canonical address, and reaches the address space of the page. -/
theorem dropsPage_iff (method : TlbMethod) (owner mm : Mm) {addr page : Word}
    (inside : page.toNat < 2 ^ 52) (canonical : Canonical (page <<< 12))
    (same : samePage addr (page <<< 12) = true) :
    dropsPage method owner mm addr page = true ↔
      Canonical addr ∧ (method = .custom ∨ (mm = owner ∧ addr.toNat + 4096 < 2 ^ 64)) := by
  have bound := addr.isLt
  have value : (page <<< 12).toNat = page.toNat * 4096 := by
    rw [BitVec.toNat_shiftLeft, Nat.shiftLeft_eq]
    omega
  have bits : addr.toNat / 4096 % 2 ^ 36 = page.toNat % 2 ^ 36 := by
    have values := congrArg BitVec.toNat (beq_iff_eq.mp same)
    simp only [BitVec.extractLsb'_toNat, Nat.shiftRight_eq_div_pow, value] at values
    omega
  rw [canonical_iff, value] at canonical
  rw [canonical_iff]
  cases method with
  | custom =>
      simp only [dropsPage, beq_iff_eq, true_or, and_true, ← BitVec.toNat_inj,
        BitVec.toNat_ushiftRight, Nat.shiftRight_eq_div_pow]
      omega
  | kernel =>
      simp only [dropsPage, Bool.and_eq_true, beq_iff_eq, decide_eq_true_eq, reduceCtorEq, false_or,
        BitVec.toNat_add, and_assoc, show (4096 : Word).toNat = 4096 from rfl]
      constructor
      · rintro ⟨own, above, below⟩
        refine ⟨?_, own, ?_⟩ <;> omega
      · rintro ⟨half, own, fits⟩
        refine ⟨own, ?_, ?_⟩ <;> omega

end Drops

/-! ## The machine -/

inductive Command where
  | act (action : Action)
  | invalidateTlb (addr : Word)
  | switchTlbInvalidation (implementation : BitVec 32)

def pteditSwitchTlbInvalidation (P : Platform) (implementation : BitVec 32) (s : System) :
    Int × System :=
  let answer := deviceIoctl P s.current (.switchTlbInvalidation (implementation.signExtend 64))
    s.kernel
  (answer.1, { s with kernel := answer.2.2 })

def Command.run (P : Platform) (command : Command) (s : System) : Option System :=
  match command with
  | .act action => action.run P s
  | .invalidateTlb addr => some (pteditInvalidateTlb P addr s)
  | .switchTlbInvalidation implementation =>
      some (pteditSwitchTlbInvalidation P implementation s).2

/-- The program's machine and the mappings the processor holds for the pages of one address
space; which pages it holds a mapping for is in the kernel's state. -/
structure Machine where
  system : System
  held : Word → Mapping

section Machine

variable (P : Platform) (mm : Mm)

def inTables (s : System) (page : Word) : Option Mapping :=
  pageWalk s.kernel.mem (P.virtToPhys (s.kernel.pgd mm)) (page <<< 12)

def setHeld (page : Word) (live : Bool) (s : System) : System :=
  { s with
    kernel := { s.kernel with
      tlb := fun m p => if m = mm ∧ p = page then live else s.kernel.tlb m p } }

/-- A command, a fill of the page from the tables, or its eviction. -/
def machineStep (event : Event Command Word) (m : Machine) : Machine :=
  match event with
  | .act command => { m with system := (command.run P m.system).getD m.system }
  | .fill page =>
      match inTables P mm m.system page with
      | none => m
      | some mapping =>
          { system := setHeld mm page true m.system
            held := fun p => if p = page then mapping else m.held p }
  | .evict page => { m with system := setHeld mm page false m.system }

/-- If the processor holds a mapping for the page, it is the one in the tables. -/
def Fresh (page : Word) (m : Machine) : Prop :=
  m.system.kernel.tlb mm page = true → inTables P mm m.system page = some (m.held page)

end Machine

/-! ## The program without the processor -/

/-- What of the machine the commands depend on. -/
structure View where
  mem : Mem
  method : TlbMethod

def switched (implementation : BitVec 32) (method : TlbMethod) : TlbMethod :=
  if implementation = 0 then .kernel else if implementation = 1 then .custom else method

def Command.apply (root : Word) (command : Command) (v : View) : View :=
  match command with
  | .act (.call call) => { v with mem := storeCall root call v.mem }
  | .act _ => v
  | .invalidateTlb _ => v
  | .switchTlbInvalidation implementation => { v with method := switched implementation v.method }

def Command.drops (root : Word) (owner mm : Mm) (command : Command) (v : View) (page : Word) : Bool :=
  match command with
  | .act (.call call) =>
      invalidates v.mem root call && dropsPage v.method owner mm call.address page
  | .act _ => false
  | .invalidateTlb addr => dropsPage v.method owner mm addr page
  | .switchTlbInvalidation _ => false

/-- The commands as actions on a store with a cache in front. -/
def translations (root : Word) (owner mm : Mm) : Scheme View Command Word Mapping where
  apply := Command.apply root
  value v page := pageWalk v.mem root (page <<< 12)
  drops := Command.drops root owner mm

@[simp] theorem translations_value (root : Word) (owner mm : Mm) (v : View) (page : Word) :
    (translations root owner mm).value v page = pageWalk v.mem root (page <<< 12) := by
  simp only [translations]

def callOf : Command → Option PteCall
  | .act (.call call) => some call
  | _ => none

theorem callOf_eq {command : Command} {call : PteCall} (called : callOf command = some call) :
    command = .act (.call call) := by
  cases command with
  | act action =>
      cases action with
      | call other =>
          cases called
          rfl
      | useKernel => cases called
      | usePread => cases called
  | invalidateTlb addr => cases called
  | switchTlbInvalidation implementation => cases called

/-- No translation is left stale by the command: a call that changes the mapping of the page names
it by a canonical address, and its invalidation reaches the address space. -/
def LeavesFresh (root : Word) (owner mm : Mm) (page : Word) (v : View) (command : Command) : Prop :=
  ∀ call, callOf command = some call → samePage call.address (page <<< 12) = true →
    ∀ pte, leafAt v.mem root (page <<< 12) = some pte →
      mappingOf (upperRights v.mem root (page <<< 12)) pte = none ∨
      mappingOf (upperRights v.mem root (page <<< 12)) (call.op.onWord .x86_64 pte) =
        mappingOf (upperRights v.mem root (page <<< 12)) pte ∨
      (Canonical call.address ∧
        (v.method = .custom ∨ (mm = owner ∧ call.address.toNat + 4096 < 2 ^ 64)))

/-! ## The machine follows the program -/

section Simulation

variable {P : Platform} {s : System} {root : Word} {mm : Mm}

theorem leafAt_samePage {mem : Mem} {a b : Word} (same : samePage a b = true) :
    leafAt mem root a = leafAt mem root b := by
  obtain ⟨path, index⟩ := (samePage_iff a b).mp same
  simp only [leafAt, path, index]

/-- What the commands keep of the process and its kernel. -/
structure Stays (s s' : System) : Prop where
  current : s'.current = s.current
  tasks : s'.kernel.tasks = s.kernel.tasks
  pgd : s'.kernel.pgd = s.kernel.pgd
  size : s'.kernel.realPageSize = s.kernel.realPageSize
  shift : s'.kernel.realPageShift = s.kernel.realPageShift
  files : files s' = files s

theorem Stays.trans {s₁ s₂ : System} (first : Stays s s₁) (second : Stays s₁ s₂) : Stays s s₂ :=
  ⟨second.current.trans first.current, second.tasks.trans first.tasks, second.pgd.trans first.pgd,
    second.size.trans first.size, second.shift.trans first.shift, second.files.trans first.files⟩

theorem Continues.stays {s' : System} (continues : Continues s s') : Stays s s' := by
  obtain ⟨current, ⟨_, _, _, eq⟩, files⟩ := continues
  exact ⟨current, by rw [eq], by rw [eq], by rw [eq], by rw [eq], files⟩

/-- What holds of the machine throughout: the page tables of `mm` are a tree below `root`. -/
structure Sound (P : Platform) (mm : Mm) (root : Word) (s : System) : Prop where
  ready : Ready P s
  shaped : TreeShapedMemory s.kernel.mem root
  sizes : PageSizes P s.kernel
  runs : s.kernel.Runs s.current
  rooted : P.virtToPhys (s.kernel.pgd mm) = root

/-- The calls of the command name `mm`, by an orderly address. -/
def Aimed (P : Platform) (mm : Mm) (root : Word) (s : System) (command : Command) : Prop :=
  ∀ call, callOf command = some call →
    Names P s.kernel s.current (call.pid.signExtend 64) root mm ∧
      OrderlyWalk P s.kernel.mem root call.address

theorem Aimed.stays {s' : System} {command : Command} (aimed : Aimed P mm root s command)
    (stays : Stays s s')
    (orderly : ∀ addr, OrderlyWalk P s.kernel.mem root addr → OrderlyWalk P s'.kernel.mem root addr) :
    Aimed P mm root s' command := by
  intro call found
  obtain ⟨⟨named, rooted, good⟩, walk⟩ := aimed call found
  refine ⟨⟨?_, ?_, good⟩, orderly _ walk⟩
  · rw [← named]
    simp only [Kernel.getMm, stays.tasks, stays.current]
  · rw [stays.pgd, rooted]

theorem Sound.stays {s' : System} (sound : Sound P mm root s) (stays : Stays s s')
    (ready : Ready P s') (shaped : TreeShapedMemory s'.kernel.mem root) : Sound P mm root s' := by
  refine ⟨ready, shaped, ⟨?_⟩, ?_, ?_⟩
  · rw [stays.size, stays.shift]
    exact sound.sizes.x86_64
  · unfold Kernel.Runs
    rw [stays.tasks, stays.current]
    exact sound.runs
  · rw [stays.pgd, sound.rooted]

/-- What a command does, as far as the machine can tell. -/
structure Does (P : Platform) (mm : Mm) (root : Word) (command : Command) (s s' : System) : Prop where
  stays : Stays s s'
  ready : Ready P s'
  apply : (⟨s'.kernel.mem, s'.kernel.invalidateTlbMethod⟩ : View) =
    command.apply root ⟨s.kernel.mem, s.kernel.invalidateTlbMethod⟩
  drops : ∀ page, s'.kernel.tlb mm page = (s.kernel.tlb mm page &&
    !command.drops root s.current.owner mm ⟨s.kernel.mem, s.kernel.invalidateTlbMethod⟩ page)

theorem call_does (four : FourLevel P) (sound : Sound P mm root s) {call : PteCall}
    (aimed : Aimed P mm root s (.act (.call call))) :
    ∃ s', call.run P s = some s' ∧ Does P mm root (.act (.call call)) s s' := by
  obtain ⟨names, orderly⟩ := aimed call rfl
  obtain ⟨s', ran, steady, stored⟩ := call_leaf four sound.ready call ⟨mm, names⟩ orderly
  have mem : s'.kernel.mem = storeCall root call s.kernel.mem :=
    mem_eq_of_tables_eq (by rw [stored, tables_storeCall])
  refine ⟨s', ran, Continues.stays (continues_of_steady steady), sound.ready.steady steady, ?_, ?_⟩
  · obtain ⟨k, ⟨_, _, _, rfl⟩, rfl⟩ := steady
    simp only [Command.apply, View.mk.injEq, and_true]
    exact mem
  · intro page
    exact call_tlb four sound.ready sound.sizes sound.runs ⟨mm, names⟩ orderly ran mm page

def withMethod (method : TlbMethod) (s : System) : System :=
  { s with kernel := { s.kernel with invalidateTlbMethod := method } }

theorem pteditSwitchTlbInvalidation_eq (P : Platform) (implementation : BitVec 32) (s : System) :
    (pteditSwitchTlbInvalidation P implementation s).2 =
      withMethod (switched implementation s.kernel.invalidateTlbMethod) s := by
  have narrow : (implementation.signExtend 64).setWidth 32 = implementation :=
    Kernel.setWidth_signExtend_pid implementation
  simp only [pteditSwitchTlbInvalidation, deviceIoctl, ioctlSwitchTlbInvalidation, narrow, switched]
  by_cases kernel : implementation = 0
  · subst kernel
    rfl
  · by_cases custom : implementation = 1
    · subst custom
      rfl
    · have kernel' : ¬ implementation = 0#32 := kernel
      have custom' : ¬ implementation = 1#32 := custom
      simp only [kernel, custom, kernel', custom', if_false]
      rfl

/-- **One command.** -/
theorem command_does (four : FourLevel P) (sound : Sound P mm root s) {command : Command}
    (aimed : Aimed P mm root s command) :
    ∃ s', command.run P s = some s' ∧ Does P mm root command s s' := by
  cases command with
  | act action =>
      cases action with
      | call call => exact call_does four sound aimed
      | useKernel =>
          obtain ⟨ready, continues, -⟩ := useKernel_ready sound.ready
          refine ⟨_, rfl, Continues.stays continues, ready, rfl, ?_⟩
          intro page
          exact (Bool.and_true _).symm
      | usePread =>
          obtain ⟨ready, continues, -⟩ := usePread_ready four.arch sound.ready
          obtain ⟨events, same⟩ : s.kernel.Quiet (pteditUseImplementation P 1 false s).kernel :=
            getRoot_quiet P s.current ((0 : BitVec 32).signExtend 64) 0 s.kernel
          refine ⟨_, rfl, Continues.stays continues, ready, ?_, ?_⟩
          · rw [same]
            rfl
          · intro page
            rw [same]
            exact (Bool.and_true _).symm
  | invalidateTlb addr =>
      have steady := pteditInvalidateTlb_steady P addr s
      refine ⟨_, rfl, Continues.stays (continues_of_steady steady), sound.ready.steady steady, ?_, ?_⟩
      · obtain ⟨tlb, same⟩ := s.kernel.invalidateTlb_frame P s.current addr
        have kernel : (pteditInvalidateTlb P addr s).kernel = _ := same
        rw [kernel]
        rfl
      · intro page
        exact pteditInvalidateTlb_tlb four.arch sound.sizes sound.runs
          (System.Quiet.refl s).steady addr mm page
  | switchTlbInvalidation implementation =>
      have ready : Ready P (withMethod (switched implementation s.kernel.invalidateTlbMethod) s) :=
        sound.ready.congr rfl rfl
      rw [← pteditSwitchTlbInvalidation_eq P implementation s] at ready
      refine ⟨_, rfl, ?_, ready, ?_, ?_⟩
      · rw [pteditSwitchTlbInvalidation_eq]
        exact ⟨rfl, rfl, rfl, rfl, rfl, rfl⟩
      · rw [pteditSwitchTlbInvalidation_eq]
        rfl
      · intro page
        rw [pteditSwitchTlbInvalidation_eq]
        exact (Bool.and_true _).symm

/-- The machine as a store of tables with a cache in front. -/
def view (mm : Mm) (m : Machine) : Cached View Word Mapping where
  store := ⟨m.system.kernel.mem, m.system.kernel.invalidateTlbMethod⟩
  entries page := if m.system.kernel.tlb mm page then some (m.held page) else none

theorem inTables_eq (sound : Sound P mm root s) (page : Word) :
    inTables P mm s page = pageWalk s.kernel.mem root (page <<< 12) := by
  rw [inTables, sound.rooted]

theorem fresh_iff {m : Machine} (sound : Sound P mm root m.system) (owner : Mm) (page : Word) :
    Fresh P mm page m ↔ CoherentAt (translations root owner mm) page (view mm m) := by
  simp only [Fresh, CoherentAt, view, translations, inTables_eq sound]
  cases m.system.kernel.tlb mm page <;> simp

/-- What the processor does by itself changes nothing that a program can ask for. -/
theorem Sound.setHeld (sound : Sound P mm root s) (page : Word) (live : Bool) :
    Sound P mm root (setHeld mm page live s) :=
  sound.stays ⟨rfl, rfl, rfl, rfl, rfl, rfl⟩ (sound.ready.congr rfl rfl) sound.shaped

theorem Aimed.setHeld {command : Command} (aimed : Aimed P mm root s command) (page : Word)
    (live : Bool) : Aimed P mm root (setHeld mm page live s) command :=
  aimed.stays ⟨rfl, rfl, rfl, rfl, rfl, rfl⟩ fun _ orderly => orderly

def AimedEvent (P : Platform) (mm : Mm) (root : Word) (s : System) (event : Event Command Word) :
    Prop :=
  ∀ command, event = .act command → Aimed P mm root s command

/-- Walks stay orderly. -/
theorem Does.orderly {command : Command} {s' : System} (does : Does P mm root command s s')
    (shaped : TreeShapedMemory s.kernel.mem root) :
    TreeShapedMemory s'.kernel.mem root ∧
      ∀ addr, OrderlyWalk P s.kernel.mem root addr → OrderlyWalk P s'.kernel.mem root addr := by
  have mem : s'.kernel.mem = (command.apply root ⟨s.kernel.mem, s.kernel.invalidateTlbMethod⟩).mem :=
    congrArg View.mem does.apply
  cases command with
  | act action =>
      cases action with
      | call call =>
          have stored : tables s'.kernel.mem =
              editStep follow (rootFrame root) (tables s.kernel.mem) call.edit := by
            rw [mem]
            exact tables_storeCall root call s.kernel.mem
          exact ⟨treeShaped_leafEdit shaped stored,
            fun addr orderly => orderlyWalk_leafEdit orderly shaped stored⟩
      | useKernel =>
          rw [mem]
          exact ⟨shaped, fun _ orderly => orderly⟩
      | usePread =>
          rw [mem]
          exact ⟨shaped, fun _ orderly => orderly⟩
  | invalidateTlb addr =>
      rw [mem]
      exact ⟨shaped, fun _ orderly => orderly⟩
  | switchTlbInvalidation implementation =>
      rw [mem]
      exact ⟨shaped, fun _ orderly => orderly⟩

theorem kept_unless_dropped (live dropped : Bool) (mapping : Mapping) :
    (if (live && !dropped) = true then some mapping else none) =
      if dropped = true then none else if live = true then some mapping else none := by
  cases live <;> cases dropped <;> rfl

/-- **One event.**  The machine makes the step of the store with its cache, and stays sound. -/
theorem machineStep_view (four : FourLevel P) {m : Machine} (sound : Sound P mm root m.system)
    {event : Event Command Word} (aimed : AimedEvent P mm root m.system event) :
    Sound P mm root (machineStep P mm event m).system ∧
      Stays m.system (machineStep P mm event m).system ∧
      (∀ command, Aimed P mm root m.system command →
        Aimed P mm root (machineStep P mm event m).system command) ∧
      view mm (machineStep P mm event m) =
        step (translations root m.system.current.owner mm) event (view mm m) := by
  cases event with
  | act command =>
      obtain ⟨s', ran, does⟩ := command_does four sound (aimed command rfl)
      obtain ⟨shaped, orderly⟩ := does.orderly sound.shaped
      have stepped : machineStep P mm (.act command) m = { m with system := s' } := by
        simp only [machineStep, ran, Option.getD_some]
      rw [stepped]
      refine ⟨sound.stays does.stays does.ready shaped, does.stays,
        fun _ other => other.stays does.stays orderly, ?_⟩
      simp only [view, step, translations, does.apply, Cached.mk.injEq, true_and]
      funext page
      rw [does.drops page]
      exact kept_unless_dropped _ _ _
  | fill page =>
      simp only [machineStep, step, inTables_eq sound, translations_value, view]
      cases pageWalk m.system.kernel.mem root (page <<< 12) with
      | none => exact ⟨sound, ⟨rfl, rfl, rfl, rfl, rfl, rfl⟩, fun _ other => other, rfl⟩
      | some mapping =>
          refine ⟨sound.setHeld page true, ⟨rfl, rfl, rfl, rfl, rfl, rfl⟩,
            fun _ other => other.setHeld page true, ?_⟩
          simp only [setHeld, Cached.mk.injEq, true_and]
          funext p
          by_cases same : p = page <;> simp [same]
  | evict page =>
      refine ⟨sound.setHeld page false, ⟨rfl, rfl, rfl, rfl, rfl, rfl⟩,
        fun _ other => other.setHeld page false, ?_⟩
      simp only [machineStep, step, view, setHeld, Cached.mk.injEq, true_and]
      funext p
      by_cases same : p = page <;> simp [same]

/-- **A run** is a run of the store with its cache. -/
theorem states_fresh_iff (four : FourLevel P) (page : Word) {events : List (Event Command Word)}
    {m : Machine} (sound : Sound P mm root m.system)
    (aimed : ∀ command ∈ actionsOf events, Aimed P mm root m.system command) :
    (∀ t ∈ states (machineStep P mm) events m, Fresh P mm page t) ↔
      ∀ c ∈ states (step (translations root m.system.current.owner mm)) events (view mm m),
        CoherentAt (translations root m.system.current.owner mm) page c := by
  induction events generalizing m with
  | nil => simp only [states, List.mem_singleton, forall_eq, fresh_iff sound m.system.current.owner]
  | cons event rest ih =>
      have aimedEvent : AimedEvent P mm root m.system event := by
        rintro command rfl
        exact aimed command List.mem_cons_self
      obtain ⟨sound', stays, keeps, follows⟩ := machineStep_view four sound aimedEvent
      have rest' := ih sound' fun command member => keeps command <| aimed command <| by
        cases event with
        | act first => exact List.mem_cons_of_mem _ member
        | fill filled => exact member
        | evict evicted => exact member
      rw [stays.current, follows] at rest'
      simp only [states, List.mem_cons, forall_eq_or_imp, rest',
        fresh_iff sound m.system.current.owner]

end Simulation

/-! ## Stale translations -/

section Fresh

variable {P : Platform} {root : Word} {mm owner : Mm} {page : Word}

/-- What carries the comparison of the two conditions over the program. -/
structure OrderlyView (P : Platform) (root page : Word) (v : View) : Prop where
  shaped : TreeShapedMemory v.mem root
  orderly : OrderlyWalk P v.mem root (page <<< 12)

/-- What a command does to the mapping of the page. -/
theorem value_apply (canonical : Canonical (page <<< 12)) {v : View} (view : OrderlyView P root page v)
    (command : Command) :
    pageWalk (command.apply root v).mem root (page <<< 12) =
      match callOf command, leafAt v.mem root (page <<< 12) with
      | some call, some pte =>
          mappingOf (upperRights v.mem root (page <<< 12))
            (if samePage call.address (page <<< 12) then call.op.onWord .x86_64 pte else pte)
      | _, _ => pageWalk v.mem root (page <<< 12) := by
  cases command with
  | act action =>
      cases action with
      | call call =>
          have stored := tables_storeCall root call v.mem
          have leaf := leafAt_leafEdit view.shaped stored (page <<< 12)
          have walked := pageWalk_changed view.orderly (fun path i bound => by
            rw [stored]
            exact entryAt_editStep_inner view.shaped _ rfl path bound i) leaf
          rw [if_pos canonical] at walked
          simp only [Command.apply, callOf, walked]
          cases leafAt v.mem root (page <<< 12) <;> rfl
      | useKernel => rfl
      | usePread => rfl
  | invalidateTlb addr => rfl
  | switchTlbInvalidation implementation => rfl

theorem OrderlyView.apply {v : View} (view : OrderlyView P root page v) (command : Command) :
    OrderlyView P root page (command.apply root v) := by
  cases command with
  | act action =>
      cases action with
      | call call =>
          have stored := tables_storeCall root call v.mem
          exact ⟨treeShaped_leafEdit view.shaped stored,
            orderlyWalk_leafEdit view.orderly view.shaped stored⟩
      | useKernel => exact view
      | usePread => exact view
  | invalidateTlb addr => exact view
  | switchTlbInvalidation implementation => exact ⟨view.shaped, view.orderly⟩

/-- A call on a page with a PTE invalidates. -/
theorem invalidates_of_leaf {mem : Mem} {call : PteCall} {b : Word}
    (same : samePage call.address b = true) (leaf : (leafAt mem root b).isSome) :
    invalidates mem root call = true := by
  have here : (leafAt mem root call.address).isSome = true := by
    rw [leafAt_samePage same]
    exact leaf
  simp only [invalidates]
  cases call.op with
  | update vm => rfl
  | setBit bit => exact here
  | clearBit bit => exact here
  | setPfn pfn => exact here

/-- Timely is what `LeavesFresh` says, in terms of the call. -/
theorem timely_iff (inside : page.toNat < 2 ^ 52) (canonical : Canonical (page <<< 12)) {v : View}
    (view : OrderlyView P root page v) (command : Command) :
    Timely (translations root owner mm) page v command ↔
      LeavesFresh root owner mm page v command := by
  have after := value_apply canonical view command
  have before := pageWalk_orderly view.orderly canonical
  simp only [Timely, translations, LeavesFresh, after]
  cases called : callOf command with
  | none =>
      simp only [reduceCtorEq, false_implies, implies_true, iff_true]
      exact fun value found => .inl found
  | some call =>
      obtain rfl := callOf_eq called
      simp only [Option.some.injEq, forall_eq']
      cases leaf : leafAt v.mem root (page <<< 12) with
      | none =>
          simp only [reduceCtorEq, false_implies, implies_true, iff_true]
          exact fun value found => .inl found
      | some pte =>
          rw [leaf] at before
          simp only [before, Option.some.injEq, forall_eq']
          by_cases same : samePage call.address (page <<< 12) = true
          · simp only [same, if_true, true_implies, Command.drops,
              invalidates_of_leaf same (by rw [leaf]; rfl), Bool.true_and,
              dropsPage_iff v.method owner mm inside canonical same]
            cases mappingOf (upperRights v.mem root (page <<< 12)) pte with
            | none => simp
            | some mapping => simp
          · simp only [same, Bool.false_eq_true, if_false, false_implies, iff_true]
            exact fun value found => .inl found

/-- **Which translations go stale.**  Take a page that the processor can walk for, along an orderly
walk, and that it does not hold a wrong mapping for at first.  Over every schedule of fills and
evictions around a program of PTE calls, switches and invalidations, the mapping held for the page
is the one in the tables in every state, exactly if every call of the program leaves the page
fresh, in the state that the commands before it lead to. -/
theorem translations_fresh_iff {m : Machine} (four : FourLevel P) (sound : Sound P mm root m.system)
    (inside : page.toNat < 2 ^ 52) (canonical : Canonical (page <<< 12))
    (orderly : OrderlyWalk P m.system.kernel.mem root (page <<< 12)) (fresh : Fresh P mm page m)
    (commands : List Command)
    (aimed : ∀ command ∈ commands, Aimed P mm root m.system command) :
    (∀ events, actionsOf events = commands →
        ∀ t ∈ states (machineStep P mm) events m, Fresh P mm page t) ↔
      Guarded (Command.apply root) (LeavesFresh root m.system.current.owner mm page) commands
        ⟨m.system.kernel.mem, m.system.kernel.invalidateTlbMethod⟩ := by
  have coherent := (fresh_iff sound m.system.current.owner page).mp fresh
  have guards : Guarded (Command.apply root)
      (Timely (translations root m.system.current.owner mm) page) commands (view mm m).store ↔ _ :=
    guarded_iff (OrderlyView P root page)
      (fun v command ordered => timely_iff inside canonical ordered command)
      (fun v command ordered _ => ordered.apply command) ⟨sound.shaped, orderly⟩
  refine Iff.trans ?_ ((coherentAt_iff coherent).trans guards)
  refine forall_congr' fun events => forall_congr' fun same => ?_
  exact states_fresh_iff four page sound (by rw [same]; exact aimed)

def onePageMachine : Machine := ⟨onePageKernelSystem, fun _ => ⟨0, ⟨false, false, false⟩⟩⟩

/-- A process makes its page read-only through an address of the page, which leaves no stale
translation in any schedule; and through an address that differs from it in bit 51, which does. -/
theorem translations_fresh_onePage :
    (∀ events, actionsOf events = [.act (.call ⟨.clearBit 1, 0x10, 0⟩)] →
      ∀ t ∈ states (machineStep fourLevelPlatform 0) events onePageMachine,
        Fresh fourLevelPlatform 0 0 t) ∧
    ¬ ∀ events, actionsOf events = [.act (.call ⟨.clearBit 1, 0x8000000000010, 0⟩)] →
      ∀ t ∈ states (machineStep fourLevelPlatform 0) events onePageMachine,
        Fresh fourLevelPlatform 0 0 t := by
  have own : fourLevelPlatform.virtToPhys (onePageKernel.pgd 0) = 0x1000 :=
    fourLevelPlatform.virtToPhys_physToVirt 0x1000
  have sound : Sound fourLevelPlatform 0 0x1000 onePageMachine.system :=
    ⟨⟨.inl ⟨rfl, rfl⟩, rfl⟩, onePageMem_treeShaped, ⟨fun _ => ⟨rfl, rfl⟩⟩, rfl, own⟩
  have leaf : leafAt onePageMem 0x1000 0 = some 0x5007 := by decide +kernel
  have named : onePageKernel.getMm onePageProcess ((0 : BitVec 32).signExtend 64) = some 0 := by
    decide
  have aimed : ∀ addr, addr = 0x10 ∨ addr = 0x8000000000010 →
      ∀ command ∈ [Command.act (.call ⟨.clearBit 1, addr, 0⟩)],
        Aimed fourLevelPlatform 0 0x1000 onePageMachine.system command := by
    intro addr which command member call called
    rw [List.mem_singleton.mp member] at called
    cases called
    refine ⟨⟨named, own, by decide, by decide⟩, ?_⟩
    rcases which with rfl | rfl <;> constructor <;> decide +kernel
  have fresh : Fresh fourLevelPlatform 0 0 onePageMachine := by
    intro held
    cases held
  have canonical : Canonical ((0 : Word) <<< 12) := by decide
  have iff := fun commands => translations_fresh_iff fourLevelPlatform_fourLevel sound (by decide)
    canonical onePage_orderly fresh commands
  constructor
  · refine (iff _ (aimed 0x10 (.inl rfl))).mpr ⟨?_, trivial⟩
    intro call called _ pte _
    cases called
    exact .inr (.inr ⟨by decide, .inr ⟨rfl, by decide⟩⟩)
  · intro always
    have guarded := (iff _ (aimed _ (.inr rfl))).mp always
    rcases guarded.1 _ rfl (by decide) _ leaf with absent | same | ⟨other, -⟩
    · revert absent
      decide +kernel
    · revert same
      decide +kernel
    · revert other
      decide

end Fresh

end PTEditor.Linux.TlbRuns
