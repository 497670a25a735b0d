/-
# PTEditor.Linux.MissingProcess -- calls with a pid that names no process

`get_mm` answers `NULL` for such a pid.  The failure travels to the caller by
different routes: `VM_RESOLVE` copies out a record without valid levels,
`VM_UPDATE` returns before it stores, and `GET_ROOT` leaves the root `0` the
library put in, from which neither walker starts.

On aarch64 `GET_ROOT` has a workaround on that route: without an address space
it answers from `ttbr0_el1`.  `rejected_iff` says that this is the only way past
the rejection, `missing_pid_edits_caller` what gets past it.
-/
import PTEditor.Library.X86Walk

namespace PTEditor.Linux.MissingProcess

open PTEditor.Theory.ByteMemory PTEditor.Interface PTEditor.Module
open PTEditor.Library PTEditor.Library.X86Walk

set_option autoImplicit false

/-- The pid names no address space. -/
def Missing (s : System) (pid : BitVec 32) : Prop :=
  s.kernel.getMm s.current (pid.signExtend 64) = none

inductive Edit where
  | update (vm : Entry)
  | setBit (bit : Fin 64) (levels : Word)
  | clearBit (bit : Fin 64) (levels : Word)
  | pteSetBit (bit : Fin 64)
  | pteClearBit (bit : Fin 64)
  | pteSetPfn (pfn : Word)

section Calls

variable (P : Platform)

def Edit.run (address : Word) (pid : BitVec 32) (s : System) : Edit → Option System
  | .update vm => pteditUpdate P address pid vm s
  | .setBit bit levels => pteditSetBit P address pid bit levels s
  | .clearBit bit levels => pteditClearBit P address pid bit levels s
  | .pteSetBit bit => pteditPteSetBit P address pid bit s
  | .pteClearBit bit => pteditPteClearBit P address pid bit s
  | .pteSetPfn pfn => pteditPteSetPfn P address pid pfn s

/-- The call returns and leaves physical memory as it was. -/
def Harmless (s : System) (call : Option System) : Prop :=
  ∃ s', call = some s' ∧ s'.kernel.mem = s.kernel.mem

/-- Every call with this pid fails the way the library fails. -/
structure Rejected (s : System) (pid : BitVec 32) : Prop where
  root : (pteditGetPagingRoot P pid s).1 = 0
  resolve : ∀ address, ∃ vm s', pteditResolve P address pid s = some (vm, s') ∧ vm.valid = 0
  edit : ∀ address (edit : Edit), Harmless s (edit.run P address pid s)

end Calls

/-! ## A process without a root -/

section Rootless

variable {P : Platform} {s : System} {pid : BitVec 32}

theorem Missing.pid_ne (missing : Missing s pid) : pid ≠ 0 := by
  rintro rfl
  have own := s.kernel.getMm_zero s.current
  have none : s.kernel.getMm s.current 0 = none := missing
  rw [own] at none
  cases none

/-- `GET_ROOT` fails, or the workaround answers. -/
theorem pteditGetPagingRoot_missing (missing : Missing s pid) :
    (pteditGetPagingRoot P pid s).1 =
      if P.arch = .x86_64 then 0 else s.kernel.ttbr0El1 &&& ~~~1#64 := by
  unfold Missing at missing
  simp only [pteditGetPagingRoot, deviceIoctl]
  rw [ioctlGetRoot_root, missing]
  cases arch : P.arch with
  | x86_64 => simp [rootFromTtbr0, arch]
  | aarch64 => simp [rootFromTtbr0, arch]

theorem pteditGetPagingRoot_missing_iff (missing : Missing s pid) :
    (pteditGetPagingRoot P pid s).1 = 0 ↔
      P.arch = .x86_64 ∨ s.kernel.ttbr0El1 &&& ~~~1#64 = 0 := by
  rw [pteditGetPagingRoot_missing missing]
  by_cases arch : P.arch = .x86_64 <;> simp [arch]

/-- A pid that leads nowhere: no address space, no root to walk from.  The
function pointers are set. -/
structure Rootless (P : Platform) (s : System) (pid : BitVec 32) : Prop where
  missing : Missing s pid
  root : (pteditGetPagingRoot P pid s).1 = 0
  resolve : s.lib.resolve.isSome
  update : s.lib.update.isSome

theorem Rootless.walkRoot_eq (rootless : Rootless P s pid) : (walkRoot P pid s).1 = 0 := by
  simp only [walkRoot, rootless.missing.pid_ne, if_false]
  exact rootless.root

/-- Nothing about it depends on the trace. -/
theorem Rootless.quiet {s' : System} (rootless : Rootless P s pid) (quiet : s.Quiet s') :
    Rootless P s' pid := by
  obtain ⟨k, quietK, rfl⟩ := quiet
  refine ⟨?_, ?_, rootless.resolve, rootless.update⟩
  · exact (quietK.steady.getMm_eq s.current _).trans rootless.missing
  · exact (ioctlGetRoot_steady P quietK.steady s.current _ 0).trans rootless.root

/-- Every implementation resolves to a record without levels. -/
theorem Rootless.resolve_eq (rootless : Rootless P s pid) (address : Word) :
    ∃ s', pteditResolve P address pid s = some (Entry.zeroed address (pid.signExtend 64), s') := by
  have user : ∀ deref, ∃ s', pteditResolveUserExt P deref address pid s =
      some (Entry.zeroed address (pid.signExtend 64), s') := by
    intro deref
    refine ⟨(walkRoot P pid s).2, ?_⟩
    simp [pteditResolveUserExt, resolveUserExt, rootless.walkRoot_eq]
  obtain ⟨implementation, chosen⟩ := Option.isSome_iff_exists.mp rootless.resolve
  simp only [pteditResolve, chosen]
  cases implementation with
  | user => exact user _
  | userMap => exact user _
  | kernel =>
      refine ⟨(pteditResolveKernel P address pid s).2, ?_⟩
      have answer := pteditResolveKernel_entry P address pid s
      rw [resolvedVm_none P s.current _ _ rootless.missing] at answer
      exact congrArg some (Prod.ext answer rfl)

/-- Without a root, the update through a physical write stops before its stores. -/
theorem Rootless.updateUserExt (rootless : Rootless P s pid)
    (pset : Mem → Word → Word → Option Mem) (address : Word) (vm : Entry) :
    Harmless s (pteditUpdateUserExt P pset address pid vm s) := by
  obtain ⟨s₁, resolved⟩ := rootless.resolve_eq address
  have quiet := resolve_quiet_system P resolved
  have root := (rootless.quiet quiet).walkRoot_eq
  refine ⟨(walkRoot P pid s₁).2, ?_, (quiet.trans (walkRoot_quiet P pid s₁)).mem_eq⟩
  simp [pteditUpdateUserExt, resolved, root]

theorem Harmless.invalidateTlb {call : Option System} (harmless : Harmless s call)
    (address : Word) : Harmless s (call.map (pteditInvalidateTlb P address)) := by
  obtain ⟨s', rfl, sameMem⟩ := harmless
  exact ⟨_, rfl, (pteditInvalidateTlb_mem P address s').trans sameMem⟩

/-- Every implementation's update leaves memory alone. -/
theorem Rootless.update_harmless (rootless : Rootless P s pid) (address : Word) (vm : Entry) :
    Harmless s (pteditUpdate P address pid vm s) := by
  obtain ⟨implementation, chosen⟩ := Option.isSome_iff_exists.mp rootless.update
  simp only [pteditUpdate, chosen]
  cases implementation with
  | user => exact (rootless.updateUserExt physWritePwrite address vm).invalidateTlb address
  | userMap => exact (rootless.updateUserExt _ address vm).invalidateTlb address
  | kernel =>
      have refused := updateVm_none P s.current { vm with vaddr := address, pid := pid.signExtend 64 }
        (!s.kernel.mmIsLocked) s.kernel rootless.missing
      exact ⟨_, rfl, congrArg Kernel.mem refused⟩

/-- A call that resolves and then stops, or sends some record back. -/
theorem Rootless.bind_harmless (rootless : Rootless P s pid) (address : Word)
    {send : Entry × System → Option System}
    (stops : ∀ vm s₁, send (vm, s₁) = some s₁ ∨
      ∃ sent, send (vm, s₁) = pteditUpdate P address pid sent s₁) :
    Harmless s ((pteditResolve P address pid s).bind send) := by
  obtain ⟨s₁, resolved⟩ := rootless.resolve_eq address
  have quiet := resolve_quiet_system P resolved
  rw [resolved, Option.bind_some]
  rcases stops (Entry.zeroed address (pid.signExtend 64)) s₁ with stopped | ⟨sent, updates⟩
  · exact ⟨s₁, stopped, quiet.mem_eq⟩
  · obtain ⟨s', updated, sameMem⟩ := (rootless.quiet quiet).update_harmless address sent
    exact ⟨s', updates.trans updated, sameMem.trans quiet.mem_eq⟩

theorem Rootless.pteEdit_harmless (rootless : Rootless P s pid) (change : Word → Word)
    (address : Word) : Harmless s (pteEdit P change address pid s) := by
  apply rootless.bind_harmless address
  intro vm s₁
  by_cases marked : marks vm.valid .pte
  · exact .inr ⟨_, if_pos marked⟩
  · exact .inl (if_neg marked)

theorem Rootless.levelsEdit_harmless (rootless : Rootless P s pid) (change : Word → Word)
    (address levels : Word) : Harmless s (levelsEdit P change address pid levels s) :=
  rootless.bind_harmless address fun _ _ => .inr ⟨_, rfl⟩

theorem Rootless.rejected (rootless : Rootless P s pid) : Rejected P s pid where
  root := rootless.root
  resolve address := by
    obtain ⟨s', resolved⟩ := rootless.resolve_eq address
    exact ⟨_, s', resolved, Entry.zeroed_valid _ _⟩
  edit address edit := by
    cases edit with
    | update vm => exact rootless.update_harmless address vm
    | setBit bit levels =>
        simp only [Edit.run, pteditSetBit]
        exact rootless.levelsEdit_harmless _ address levels
    | clearBit bit levels =>
        simp only [Edit.run, pteditClearBit]
        exact rootless.levelsEdit_harmless _ address levels
    | pteSetBit bit =>
        simp only [Edit.run, pteditPteSetBit]
        exact rootless.pteEdit_harmless _ address
    | pteClearBit bit =>
        simp only [Edit.run, pteditPteClearBit]
        exact rootless.pteEdit_harmless _ address
    | pteSetPfn pfn =>
        simp only [Edit.run, pteditPteSetPfn]
        exact rootless.pteEdit_harmless _ address

end Rootless

/-! ## The calls with a missing pid -/

/-- **A pid that names no process is rejected by every call, with every
implementation, exactly when the aarch64 workaround cannot answer.** -/
theorem rejected_iff (P : Platform) (s : System) (pid : BitVec 32) (missing : Missing s pid)
    {resolve update : Implementation} (resolves : s.lib.resolve = some resolve)
    (updates : s.lib.update = some update) :
    Rejected P s pid ↔ P.arch = .x86_64 ∨ s.kernel.ttbr0El1 &&& ~~~1#64 = 0 := by
  have noRoot := pteditGetPagingRoot_missing_iff (P := P) missing
  constructor
  · intro rejected
    exact noRoot.mp rejected.root
  · intro noFallback
    have rootless : Rootless P s pid :=
      ⟨missing, noRoot.mpr noFallback, by rw [resolves]; rfl, by rw [updates]; rfl⟩
    exact rootless.rejected

theorem rejected_onePage : Rejected fourLevelPlatform onePageSystem 7 :=
  (rejected_iff fourLevelPlatform onePageSystem 7 rfl rfl rfl).mpr (.inl rfl)

def asahiPlatform : Platform := { fourLevelPlatform with arch := .aarch64 }

/-- The caller's three levels of tables map address `0` to frame 5, and its
register points to them.  There is no process 7. -/
def asahiSystem : System :=
  { onePageSystem with
    lib := { onePageSystem.lib with pagingDefinition := .aarch64Pages4k }
    kernel :=
      { onePageKernel with
        mem := storeAll (fun _ => 0) [(slot 1 0, 0x2003), (slot 2 0, 0x3003), (slot 3 0, 0x5003)]
        ttbr0El1 := 0x1000 } }

/-- With a pid that names no process, the aarch64 library resolves through the
caller's tables, finds all three levels, and clears a bit in the caller's PTE. -/
theorem missing_pid_edits_caller :
    Missing asahiSystem 7 ∧
    (pteditGetPagingRoot asahiPlatform 7 asahiSystem).1 = 0x1000 ∧
    (pteditResolve asahiPlatform 0 7 asahiSystem).map (fun r => r.1.valid) = some 0x19 ∧
    (pteditPteClearBit asahiPlatform 0 7 0 asahiSystem).map
      (fun s => read64 s.kernel.mem (slot 3 0)) = some 0x5002 ∧
    read64 asahiSystem.kernel.mem (slot 3 0) = 0x5003 ∧
    ¬ Rejected asahiPlatform asahiSystem 7 := by
  refine ⟨rfl, by decide +kernel, by decide +kernel, by decide +kernel, by decide +kernel, ?_⟩
  intro rejected
  exact absurd rejected.root (by decide +kernel)

end PTEditor.Linux.MissingProcess
