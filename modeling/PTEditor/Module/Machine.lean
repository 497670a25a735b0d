/-
# PTEditor.Module.Machine -- the machine and the kernel state the module runs in

The kernel module is a server: `device_ioctl` runs in the context of the calling
process and works on page tables of any process.  This module fixes what it
works on.

* `Platform` is the build: architecture, kernel version, direct map, and the
  kernel's page-table helpers, which are not part of the repository and so are a
  parameter (`Helpers`).  Slots are named by physical address; a helper that
  dereferences its parent takes the memory as an argument.
* `Kernel` is the state: physical memory, the task table, the paging root and
  the cached translations of each address space, the module's own variables, and
  a ghost `trace` of the lock operations, page-table accesses and TLB
  invalidations in the order in which they happened.
-/
import PTEditor.Interface.Entry

namespace PTEditor.Module

open PTEditor.Theory.ByteMemory PTEditor.Interface

set_option autoImplicit false

/-- The identity of an `mm_struct`. -/
abbrev Mm := Nat

/-- `struct task_struct`, as far as the module reads it. -/
structure Task where
  pid : BitVec 32
  mm : Option Mm
  activeMm : Option Mm
  deriving DecidableEq, Repr

/-- The task a request runs in.  It is a user process, so it has an address space
of its own, which is also the active one. -/
structure Process extends Task where
  owner : Mm
  mm_eq : mm = some owner
  activeMm_eq : activeMm = some owner
  pid_ne : pid ≠ 0

def Process.of (pid : BitVec 32) (owner : Mm) (pid_ne : pid ≠ 0) : Process :=
  { pid, mm := some owner, activeMm := some owner, owner, mm_eq := rfl, activeMm_eq := rfl, pid_ne }

structure Helpers where
  pgdOffset : Word → Word → Word
  p4dOffset : Mem → Word → Word → Word
  pudOffset : Mem → Word → Word → Word
  pmdOffset : Mem → Word → Word → Word
  pteOffsetMap : Mem → Word → Word → Option Word
  pgdNone : Word → Bool
  pgdBad : Word → Bool
  p4dNone : Word → Bool
  p4dBad : Word → Bool
  pudNone : Word → Bool
  pmdNone : Word → Bool
  pudLarge : Word → Bool
  pmdLarge : Word → Bool

/-- What the module is compiled for and against. -/
structure Platform where
  arch : Arch
  linuxVersionCode : Nat
  pageOffset : Word
  helpers : Helpers

def kernelVersion (a b c : Nat) : Nat := a * 65536 + b * 256 + c

namespace Platform

variable (P : Platform)

/-- The kernel has a P4D level in its types, folded or not. -/
def hasP4d : Bool := decide (kernelVersion 4 11 0 ≤ P.linuxVersionCode)

def virtToPhys (v : Word) : Word := v - P.pageOffset

def physToVirt (p : Word) : Word := p + P.pageOffset

@[simp] theorem virtToPhys_physToVirt (p : Word) : P.virtToPhys (P.physToVirt p) = p := by
  simp only [virtToPhys, physToVirt]
  bv_omega

/-- The kernel's `pud_large` on x86-64.  On aarch64 the module brings its own,
whose folded branch does not compile together with the one of `pmd_large` (a
missing semicolon), so the answer is always no. -/
def pudLarge (pud : Word) : Bool :=
  match P.arch with
  | .x86_64 => P.helpers.pudLarge pud
  | .aarch64 => false

def pmdLarge (pmd : Word) : Bool :=
  match P.arch with
  | .x86_64 => P.helpers.pmdLarge pmd
  | .aarch64 => false

end Platform

inductive TlbMethod where
  | kernel
  | custom
  deriving DecidableEq, Repr

inductive Event where
  | readLock (mm : Mm)
  | readUnlock (mm : Mm)
  | writeLock (mm : Mm)
  | writeUnlock (mm : Mm)
  | load (mm : Mm)
  | store (mm : Mm) (slot value : Word)
  | storeRoot (mm : Mm) (root : Word)
  | invalidateTlb (addr : Word)
  deriving DecidableEq, Repr

/-- A `vm_area_struct`: the addresses from `vmStart` up to, not including, `vmEnd`. -/
structure Vma where
  vmStart : Word
  vmEnd : Word
  deriving DecidableEq, Repr

structure Kernel where
  mem : Mem
  /-- `find_vpid` and `pid_task`. -/
  tasks : BitVec 32 → Option Task
  /-- `mm->pgd`, a virtual address of the direct map. -/
  pgd : Mm → Word
  /-- The areas of each address space, in address order. -/
  vmas : Mm → List Vma
  /-- The cached translations: address space and page number. -/
  tlb : Mm → Word → Bool
  invalidateTlbMethod : TlbMethod
  mmIsLocked : Bool
  deviceBusy : Bool
  realPageSize : Word
  realPageShift : Nat
  /-- MSR `0x277` on x86-64, `mair_el1` on aarch64. -/
  pat : Word
  ttbr0El1 : Word
  trace : List Event

namespace Kernel

variable (k : Kernel)

def emit (event : Event) : Kernel := { k with trace := k.trace ++ [event] }

/-- Lock operations are made only when the caller asked for them. -/
def emitIf (condition : Bool) (event : Event) : Kernel :=
  if condition then k.emit event else k

def store (mm : Mm) (slot value : Word) : Kernel :=
  { k.emit (.store mm slot value) with mem := write64 k.mem slot value }

/-- `k'` is `k` but for what the trace has recorded since. -/
def Quiet (k k' : Kernel) : Prop := ∃ events, k' = { k with trace := k.trace ++ events }

theorem Quiet.refl : Quiet k k := ⟨[], by simp⟩

theorem Quiet.trans {k k₁ k₂ : Kernel} (first : Quiet k k₁) (second : Quiet k₁ k₂) :
    Quiet k k₂ := by
  obtain ⟨e₁, rfl⟩ := first
  obtain ⟨e₂, rfl⟩ := second
  exact ⟨e₁ ++ e₂, by simp⟩

theorem quiet_emit (event : Event) : Quiet k (k.emit event) := ⟨[event], rfl⟩

theorem quiet_emitIf (condition : Bool) (event : Event) : Quiet k (k.emitIf condition event) := by
  cases condition with
  | false => exact Quiet.refl k
  | true => exact quiet_emit k event

theorem Quiet.mem_eq {k k' : Kernel} (quiet : Quiet k k') : k'.mem = k.mem := by
  obtain ⟨_, rfl⟩ := quiet
  rfl

theorem Quiet.tlb_eq {k k' : Kernel} (quiet : Quiet k k') : k'.tlb = k.tlb := by
  obtain ⟨_, rfl⟩ := quiet
  rfl

/-- `k'` is `k` but for physical memory and what the trace has recorded since. -/
def Edited (k k' : Kernel) : Prop :=
  ∃ mem events, k' = { k with mem, trace := k.trace ++ events }

theorem Quiet.edited {k k' : Kernel} (quiet : Quiet k k') : Edited k k' := by
  obtain ⟨events, rfl⟩ := quiet
  exact ⟨k.mem, events, rfl⟩

theorem Edited.trans {k k₁ k₂ : Kernel} (first : Edited k k₁) (second : Edited k₁ k₂) :
    Edited k k₂ := by
  obtain ⟨_, e₁, rfl⟩ := first
  obtain ⟨mem, e₂, rfl⟩ := second
  exact ⟨mem, e₁ ++ e₂, by simp⟩

theorem Edited.trace_eq {k k' : Kernel} (edited : Edited k k') :
    ∃ events, k'.trace = k.trace ++ events := by
  obtain ⟨_, events, rfl⟩ := edited
  exact ⟨events, rfl⟩

theorem edited_store (mm : Mm) (slot value : Word) : Edited k (k.store mm slot value) :=
  ⟨_, _, rfl⟩

/-- `k'` is `k` but for physical memory, the cached translations and the trace:
all that entry updates and TLB invalidations touch. -/
def Steady (k k' : Kernel) : Prop := ∃ mem tlb trace, k' = { k with mem, tlb, trace }

theorem Edited.steady {k k' : Kernel} (edited : Edited k k') : Steady k k' := by
  obtain ⟨mem, _, rfl⟩ := edited
  exact ⟨mem, k.tlb, _, rfl⟩

theorem Quiet.steady {k k' : Kernel} (quiet : Quiet k k') : Steady k k' := quiet.edited.steady

theorem Steady.trans {k k₁ k₂ : Kernel} (first : Steady k k₁) (second : Steady k₁ k₂) :
    Steady k k₂ := by
  obtain ⟨_, _, _, rfl⟩ := first
  obtain ⟨mem, tlb, trace, rfl⟩ := second
  exact ⟨mem, tlb, trace, rfl⟩

theorem Steady.tasks_eq {k k' : Kernel} (steady : Steady k k') : k'.tasks = k.tasks := by
  obtain ⟨_, _, _, rfl⟩ := steady
  rfl

theorem Steady.pgd_eq {k k' : Kernel} (steady : Steady k k') : k'.pgd = k.pgd := by
  obtain ⟨_, _, _, rfl⟩ := steady
  rfl

theorem Steady.ttbr0El1_eq {k k' : Kernel} (steady : Steady k k') :
    k'.ttbr0El1 = k.ttbr0El1 := by
  obtain ⟨_, _, _, rfl⟩ := steady
  rfl

theorem Steady.mmIsLocked_eq {k k' : Kernel} (steady : Steady k k') :
    k'.mmIsLocked = k.mmIsLocked := by
  obtain ⟨_, _, _, rfl⟩ := steady
  rfl

/-! ## Address spaces -/

/-- `get_mm`: the address space of a process, `0` naming the caller. -/
def getMm (current : Process) (pid : Word) : Option Mm :=
  let task := if pid ≠ 0 then k.tasks (pid.setWidth 32) else some current.toTask
  match task with
  | none => none
  | some task =>
      match task.mm with
      | some mm => some mm
      | none => task.activeMm

/-- The task table knows the calling process under its own pid. -/
def Runs (current : Process) : Prop := k.tasks current.pid = some current.toTask

@[simp] theorem getMm_zero (current : Process) : k.getMm current 0 = some current.owner := by
  simp [getMm, current.mm_eq]

/-- A `pid_t` is widened on its way into the kernel and narrowed again there. -/
theorem setWidth_signExtend_pid (pid : BitVec 32) : (pid.signExtend 64).setWidth 32 = pid := by
  apply BitVec.eq_of_getLsbD_eq
  intro i bound
  simp only [BitVec.getLsbD_setWidth, BitVec.getLsbD_signExtend, bound, decide_true,
    Bool.true_and, if_true]
  simp [show i < 64 by omega]

theorem signExtend_pid_ne_zero {pid : BitVec 32} (ne : pid ≠ 0) : pid.signExtend 64 ≠ 0 := by
  intro zero
  have back := setWidth_signExtend_pid pid
  rw [zero] at back
  exact ne back.symm

/-- A process that names itself names the same address space as `0` does. -/
theorem getMm_self (current : Process) (runs : k.Runs current) :
    k.getMm current (current.pid.signExtend 64) = some current.owner := by
  have ne := signExtend_pid_ne_zero current.pid_ne
  simp only [getMm, ne, ne_eq, not_false_eq_true, if_true, setWidth_signExtend_pid]
  rw [runs]
  simp [current.mm_eq]

theorem Steady.getMm_eq {k k' : Kernel} (steady : Steady k k') (current : Process) (pid : Word) :
    k'.getMm current pid = k.getMm current pid := by
  simp only [getMm, steady.tasks_eq]

theorem Steady.runs {k k' : Kernel} (steady : Steady k k') {current : Process}
    (runs : k.Runs current) : k'.Runs current := by
  unfold Runs
  rw [steady.tasks_eq]
  exact runs

/-! ## TLB invalidation -/

/-- `flush_tlb_mm_range`: drop the entries of one address space whose page meets
the addresses from `start` up to, not including, `stop`. -/
def flushTlbMmRange (mm : Mm) (start stop : Word) (shift : Nat) : Kernel :=
  { k with
    tlb := fun m page =>
      k.tlb m page && !(m == mm && decide (start.toNat < (page.toNat + 1) * 2 ^ shift) &&
        decide (page.toNat * 2 ^ shift < stop.toNat)) }

def flushTlbPage (mm : Mm) (addr : Word) : Kernel :=
  { k with tlb := fun m page => k.tlb m page && !(m == mm && page == addr >>> k.realPageShift) }

/-- What `invalidate_tlb_custom` is for: drop the page in all address spaces.  This is an
abstraction: `_invalidate_tlb` drops that much only under the condition of
`PTEditor.Module.Invalidation` (with `invpcid` it spares global translations, without PGE in
CR4 it drops nothing), and without `invpcid` and on aarch64 it drops more than the page. -/
def invalidateTlbCustom (addr : Word) : Kernel :=
  { k with tlb := fun m page => k.tlb m page && page != addr >>> k.realPageShift }

/-- `invalidate_tlb_kernel`: flush the address in the address space of the
*calling* process. -/
def invalidateTlbKernel (P : Platform) (current : Process) (addr : Word) : Kernel :=
  match P.arch with
  | .x86_64 =>
      match k.getMm current (current.pid.signExtend 64) with
      | some mm => k.flushTlbMmRange mm addr (addr + k.realPageSize) k.realPageShift
      | none => k
  | .aarch64 =>
      match (k.vmas current.owner).find? fun vma => decide (addr < vma.vmEnd) with
      | none => k
      | some vma => if addr < vma.vmStart then k else k.flushTlbPage current.owner addr

def invalidateTlb (P : Platform) (current : Process) (addr : Word) : Kernel :=
  let k := k.emit (.invalidateTlb addr)
  match k.invalidateTlbMethod with
  | .kernel => k.invalidateTlbKernel P current addr
  | .custom => k.invalidateTlbCustom addr

/-- Invalidation touches the cached translations and the trace, nothing else. -/
theorem invalidateTlb_frame (P : Platform) (current : Process) (addr : Word) :
    ∃ tlb, k.invalidateTlb P current addr =
      { k with tlb, trace := k.trace ++ [.invalidateTlb addr] } := by
  simp only [invalidateTlb, emit]
  cases method : k.invalidateTlbMethod with
  | custom => exact ⟨_, rfl⟩
  | kernel =>
      simp only [invalidateTlbKernel]
      cases P.arch with
      | x86_64 =>
          simp only
          split
          · exact ⟨_, rfl⟩
          · exact ⟨k.tlb, rfl⟩
      | aarch64 =>
          simp only
          split
          · exact ⟨k.tlb, rfl⟩
          · split
            · exact ⟨k.tlb, rfl⟩
            · exact ⟨_, rfl⟩

theorem invalidateTlb_mem (P : Platform) (current : Process) (addr : Word) :
    (k.invalidateTlb P current addr).mem = k.mem := by
  obtain ⟨_, same⟩ := k.invalidateTlb_frame P current addr
  rw [same]

/-- Between `k` and `k'` the TLB was told to drop the page of `addr`. -/
def Invalidated (k k' : Kernel) (addr : Word) : Prop :=
  ∃ before after, k'.trace = k.trace ++ before ++ .invalidateTlb addr :: after

theorem Edited.invalidated {k stored k' : Kernel} {P : Platform} {current : Process} {addr : Word}
    (edited : Edited k stored) (quiet : (stored.invalidateTlb P current addr).Quiet k') :
    Invalidated k k' addr := by
  obtain ⟨before, recorded⟩ := edited.trace_eq
  obtain ⟨after, appended⟩ := quiet.edited.trace_eq
  obtain ⟨_, same⟩ := stored.invalidateTlb_frame P current addr
  refine ⟨before, after, ?_⟩
  rw [appended, same, ← recorded, List.append_assoc]
  rfl

theorem invalidateTlb_steady (P : Platform) (current : Process) (addr : Word) :
    k.Steady (k.invalidateTlb P current addr) := by
  obtain ⟨tlb, same⟩ := k.invalidateTlb_frame P current addr
  exact ⟨k.mem, tlb, _, same⟩

end Kernel

end PTEditor.Module
