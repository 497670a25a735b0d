/-
# PTEditor.Library.System -- the Linux library over the device

The library's static variables, the kernel and the calling process together: the
state in which `ptedit_resolve` and `ptedit_update` are called.  The two are
function pointers, set by `ptedit_use_implementation`; `ptedit_update_user_ext`
calls back through `ptedit_resolve`, so an update depends on both.

A call returns `none` where the C program dies: a mapped access outside the
mapping, or a call through a null function pointer.  Physical reads and writes
through `/proc/umem` succeed.

No resolve changes anything but the kernel's trace (`resolve_quiet_system`);
`pteditUpdateUserExt_mem` and `pteditUpdateUserExt_steady` say what an update
through a physical write does after a given resolve.
-/
import PTEditor.Library.Walk
import PTEditor.Module.Device

namespace PTEditor.Library

open PTEditor.Theory.ByteMemory PTEditor.Interface PTEditor.Module

set_option autoImplicit false

inductive Implementation where
  | kernel
  | user
  | userMap
  deriving DecidableEq, Repr

/-- `ptedit_vmem`: not set yet, a mapping of physical memory, or what a failed
`mmap` returned. -/
inductive Vmem where
  | null
  | mapped
  | failed
  deriving DecidableEq, Repr

structure LibraryState where
  fd : Int
  umem : Int
  pagesize : Word
  pagingRoot : Word
  vmem : Vmem
  pagingDefinition : PagingDefinition
  resolve : Option Implementation
  update : Option Implementation
  deriving DecidableEq, Repr

structure System where
  lib : LibraryState
  kernel : Kernel
  current : Process

/-! ## Physical memory access -/

def mappingLength : Nat := 32 * 2 ^ 30

def insideMapping (vmem : Vmem) (address : Word) : Bool :=
  vmem == .mapped && decide (address.toNat + 8 ≤ mappingLength)

def physReadMap (vmem : Vmem) (mem : Mem) (address : Word) : Option Word :=
  if insideMapping vmem address then some (read64 mem address) else none

def physWriteMap (vmem : Vmem) (mem : Mem) (address value : Word) : Option Mem :=
  if insideMapping vmem address then some (write64 mem address value) else none

def physReadPread (mem : Mem) (address : Word) : Option Word := some (read64 mem address)

def physWritePwrite (mem : Mem) (address value : Word) : Option Mem :=
  some (write64 mem address value)

/-! ## The calls -/

section Calls

variable (P : Platform)

/-- `ptedit_get_paging_root`: the struct goes in with root `0`, and the `ioctl`'s
own result is ignored. -/
def pteditGetPagingRoot (pid : BitVec 32) (s : System) : Word × System :=
  let answer := deviceIoctl P s.current (.getRoot (pid.signExtend 64) 0) s.kernel
  (answer.2.1, { s with kernel := answer.2.2 })

def pteditSetPagingRoot (pid : BitVec 32) (root : Word) (s : System) : System :=
  { s with kernel := (deviceIoctl P s.current (.setRoot (pid.signExtend 64) root) s.kernel).2.2 }

/-- `ptedit_full_serializing_barrier`, whose fences order what the model has in order anyway. -/
def pteditFullSerializingBarrier (s : System) : System :=
  let (root, s) := pteditGetPagingRoot P 0 s
  pteditSetPagingRoot P 0 root s

/-- `ptedit_get_pagesize`: an `int`, which its callers widen. -/
def pteditGetPagesize (s : System) : Word :=
  (BitVec.ofInt 32 (deviceIoctl P s.current .getPagesize s.kernel).1).signExtend 64

def pteditInvalidateTlb (address : Word) (s : System) : System :=
  { s with kernel := (deviceIoctl P s.current (.invalidateTlb address) s.kernel).2.2 }

/-- The root a user-space walk starts from: the cached one for pid 0. -/
def walkRoot (pid : BitVec 32) (s : System) : Word × System :=
  if pid = 0 then (s.lib.pagingRoot, s) else pteditGetPagingRoot P pid s

def pteditResolveKernel (address : Word) (pid : BitVec 32) (s : System) : Entry × System :=
  let answer := deviceIoctl P s.current (.vmResolve (Entry.zeroed address (pid.signExtend 64)))
    s.kernel
  (answer.2.1, { s with kernel := answer.2.2 })

/-- `ptedit_resolve_user_ext` with the physical read `deref`. -/
def pteditResolveUserExt (deref : Mem → Word → Option Word) (address : Word) (pid : BitVec 32)
    (s : System) : Option (Entry × System) :=
  let root := walkRoot P pid s
  (resolveUserExt P.arch s.lib.pagingDefinition (deref root.2.kernel.mem) address root.1 pid).map
    fun resolved => (resolved, root.2)

def pteditResolveUser (address : Word) (pid : BitVec 32) (s : System) : Option (Entry × System) :=
  pteditResolveUserExt P physReadPread address pid s

def pteditResolveUserMap (address : Word) (pid : BitVec 32) (s : System) :
    Option (Entry × System) :=
  pteditResolveUserExt P (physReadMap s.lib.vmem) address pid s

def pteditResolve (address : Word) (pid : BitVec 32) (s : System) : Option (Entry × System) :=
  match s.lib.resolve with
  | none => none
  | some .kernel => some (pteditResolveKernel P address pid s)
  | some .user => pteditResolveUser P address pid s
  | some .userMap => pteditResolveUserMap P address pid s

/-- The record goes to the kernel with the address and the process put in. -/
def pteditUpdateKernel (address : Word) (pid : BitVec 32) (vm : Entry) (s : System) : System :=
  let vm := { vm with vaddr := address, pid := pid.signExtend 64 }
  { s with kernel := (deviceIoctl P s.current (.vmUpdate vm) s.kernel).2.2 }

/-- Replay stores through a physical write that may fault. -/
def psetAll (pset : Mem → Word → Word → Option Mem) : Mem → List (Word × Word) → Option Mem
  | mem, [] => some mem
  | mem, (slot, value) :: rest => (pset mem slot value).bind fun mem => psetAll pset mem rest

/-- `ptedit_update_user_ext` with the physical write `pset`. -/
def pteditUpdateUserExt (pset : Mem → Word → Word → Option Mem) (address : Word) (pid : BitVec 32)
    (vm : Entry) (s : System) : Option System :=
  (pteditResolve P address pid s).bind fun (current, s) =>
    let root := walkRoot P pid s
    let s := root.2
    let root := root.1 &&& ~~~1#64
    if root = 0 then some s
    else
      (psetAll pset s.kernel.mem
        (userStores P.arch s.lib.pagingDefinition address root current vm)).map fun mem =>
          pteditInvalidateTlb P address { s with kernel := { s.kernel with mem } }

def pteditUpdateUser (address : Word) (pid : BitVec 32) (vm : Entry) (s : System) :
    Option System :=
  (pteditUpdateUserExt P physWritePwrite address pid vm s).map (pteditInvalidateTlb P address)

def pteditUpdateUserMap (address : Word) (pid : BitVec 32) (vm : Entry) (s : System) :
    Option System :=
  (pteditUpdateUserExt P (physWriteMap s.lib.vmem) address pid vm s).map
    (pteditInvalidateTlb P address)

def pteditUpdate (address : Word) (pid : BitVec 32) (vm : Entry) (s : System) : Option System :=
  match s.lib.update with
  | none => none
  | some .kernel => some (pteditUpdateKernel P address pid vm s)
  | some .user => pteditUpdateUser P address pid vm s
  | some .userMap => pteditUpdateUserMap P address pid vm s

/-- `ptedit_use_implementation`; `mapped` says whether `mmap` succeeds if it is
called.  The pointer it returns is kept either way, so there is only one attempt. -/
def pteditUseImplementation (implementation : Int) (mapped : Bool) (s : System) : System :=
  if implementation = 0 then
    { s with lib := { s.lib with resolve := some .kernel, update := some .kernel } }
  else if implementation = 1 then
    let s := { s with lib := { s.lib with resolve := some .user, update := some .user } }
    let root := pteditGetPagingRoot P 0 s
    { root.2 with lib := { s.lib with pagingRoot := root.1 } }
  else if implementation = 2 then
    let s := { s with lib := { s.lib with resolve := some .userMap, update := some .userMap } }
    let root := pteditGetPagingRoot P 0 s
    let lib := { s.lib with pagingRoot := root.1 }
    let mapping := if mapped then Vmem.mapped else Vmem.failed
    { root.2 with lib := if lib.vmem = .null then { lib with vmem := mapping } else lib }
  else s

def initDefinition (realPageSize : Word) : PagingDefinition :=
  match P.arch with
  | .x86_64 => .x86_64
  | .aarch64 => if realPageSize = 16384 then .aarch64Pages16k else .aarch64Pages4k

/-- `ptedit_init`; the arguments are what `open` and `getpagesize` return.  On a
machine with 16 KiB pages it ends with the user-space implementation. -/
def pteditInit (fd umem : Int) (getpagesize : Word) (s : System) : Int × System :=
  let s := { s with lib := { s.lib with fd } }
  if fd < 0 then (-1, s)
  else
    let s := { s with lib := { s.lib with umem } }
    let s := pteditUseImplementation P 0 false s
    let pagingDefinition := initDefinition P s.kernel.realPageSize
    let s := { s with lib := { s.lib with pagesize := getpagesize, pagingDefinition } }
    let s := if pagingDefinition = .aarch64Pages16k then pteditUseImplementation P 1 false s else s
    (0, s)

/-! ## Bit operations -/

/-- Resolve, change the PTE, and send back the PTE alone; nothing happens without
a valid PTE. -/
def pteEdit (change : Word → Word) (address : Word) (pid : BitVec 32) (s : System) :
    Option System :=
  (pteditResolve P address pid s).bind fun (vm, s) =>
    if marks vm.valid .pte then
      pteditUpdate P address pid { vm with pte := change vm.pte, valid := Level.pte.mask } s
    else some s

def pteditPteSetBit (address : Word) (pid : BitVec 32) (bit : Fin 64) (s : System) :
    Option System :=
  pteEdit P (fun pte => pte ||| (1#64 <<< bit.val)) address pid s

def pteditPteClearBit (address : Word) (pid : BitVec 32) (bit : Fin 64) (s : System) :
    Option System :=
  pteEdit P (fun pte => pte &&& ~~~(1#64 <<< bit.val)) address pid s

def pteditPteSetPfn (address : Word) (pid : BitVec 32) (pfn : Word) (s : System) :
    Option System :=
  pteEdit P (fun pte => pteditSetPfn P.arch pte pfn) address pid s

/-- One level of `ptedit_set_bit` and `ptedit_clear_bit`: edited if it is valid,
selected and, PTE apart, part of the definition. -/
def editLevel (change : Word → Word) (levels : Word) (level : Level) (has : Bool) (vm : Entry) :
    Entry :=
  if marks vm.valid level && marks levels level && has then
    (vm.setWord level (change (vm.word level))).mark level
  else vm

/-- All levels in the order of the source, leaf first. -/
def editLevels (d : PagingDefinition) (change : Word → Word) (levels : Word) (vm : Entry) : Entry :=
  let vm := editLevel change levels .pte true vm
  let vm := editLevel change levels .pmd d.hasPmd vm
  let vm := editLevel change levels .pud d.hasPud vm
  let vm := editLevel change levels .p4d d.hasP4d vm
  editLevel change levels .pgd d.hasPgd vm

/-- Resolve, change the selected levels, and send back *every* valid level. -/
def levelsEdit (change : Word → Word) (address : Word) (pid : BitVec 32) (levels : Word)
    (s : System) : Option System :=
  (pteditResolve P address pid s).bind fun (vm, s) =>
    pteditUpdate P address pid (editLevels s.lib.pagingDefinition change levels vm) s

def pteditSetBit (address : Word) (pid : BitVec 32) (bit : Fin 64) (levels : Word) (s : System) :
    Option System :=
  levelsEdit P (fun w => w ||| (1#64 <<< bit.val)) address pid levels s

def pteditClearBit (address : Word) (pid : BitVec 32) (bit : Fin 64) (levels : Word) (s : System) :
    Option System :=
  levelsEdit P (fun w => w &&& ~~~(1#64 <<< bit.val)) address pid levels s

/-- `ptedit_pte_get_bit` does not ask whether the PTE is valid. -/
def pteditPteGetBit (address : Word) (pid : BitVec 32) (bit : Fin 64) (s : System) :
    Option (Bool × System) :=
  (pteditResolve P address pid s).map fun (vm, s) => (vm.pte &&& (1#64 <<< bit.val) != 0, s)

def pteditPteGetPfn (address : Word) (pid : BitVec 32) (s : System) : Option (Word × System) :=
  (pteditResolve P address pid s).map fun (vm, s) =>
    (if marks vm.valid .pte then pteditGetPfn P.arch vm.pte else 0, s)

end Calls

/-! ## What the calls change -/

namespace System

/-- `s'` is `s` but for the kernel's trace. -/
def Quiet (s s' : System) : Prop := ∃ k, s.kernel.Quiet k ∧ s' = { s with kernel := k }

theorem Quiet.refl (s : System) : Quiet s s := ⟨s.kernel, Kernel.Quiet.refl _, rfl⟩

theorem Quiet.trans {s s₁ s₂ : System} (first : Quiet s s₁) (second : Quiet s₁ s₂) :
    Quiet s s₂ := by
  obtain ⟨_, q₁, rfl⟩ := first
  obtain ⟨k₂, q₂, rfl⟩ := second
  exact ⟨k₂, q₁.trans q₂, rfl⟩

theorem Quiet.lib_eq {s s' : System} (quiet : Quiet s s') : s'.lib = s.lib := by
  obtain ⟨_, _, rfl⟩ := quiet
  rfl

theorem Quiet.mem_eq {s s' : System} (quiet : Quiet s s') : s'.kernel.mem = s.kernel.mem := by
  obtain ⟨_, q, rfl⟩ := quiet
  exact q.mem_eq

/-- `s'` is `s` but for physical memory, cached translations and the trace. -/
def Steady (s s' : System) : Prop := ∃ k, s.kernel.Steady k ∧ s' = { s with kernel := k }

theorem Quiet.steady {s s' : System} (quiet : Quiet s s') : Steady s s' := by
  obtain ⟨k, q, rfl⟩ := quiet
  exact ⟨k, q.steady, rfl⟩

theorem Steady.trans {s s₁ s₂ : System} (first : Steady s s₁) (second : Steady s₁ s₂) :
    Steady s s₂ := by
  obtain ⟨_, q₁, rfl⟩ := first
  obtain ⟨k₂, q₂, rfl⟩ := second
  exact ⟨k₂, q₁.trans q₂, rfl⟩

theorem Steady.lib_eq {s s' : System} (steady : Steady s s') : s'.lib = s.lib := by
  obtain ⟨_, _, rfl⟩ := steady
  rfl

theorem Steady.kernel {s s' : System} (steady : Steady s s') : s.kernel.Steady s'.kernel := by
  obtain ⟨_, q, rfl⟩ := steady
  exact q

end System

/-! ## The implementation in use -/

/-- Resolve and update go to one implementation. -/
structure Selected (implementation : Implementation) (s : System) : Prop where
  resolve : s.lib.resolve = some implementation
  update : s.lib.update = some implementation

/-- The library runs with one of the definitions that `ptedit_init` installs. -/
structure Uses (P : Platform) (implementation : Implementation) (s : System) : Prop
    extends Selected implementation s where
  definition : ∃ realPageSize, s.lib.pagingDefinition = initDefinition P realPageSize

theorem Selected.congr {implementation : Implementation} {s s' : System}
    (selected : Selected implementation s) (lib : s'.lib = s.lib) : Selected implementation s' :=
  ⟨lib ▸ selected.resolve, lib ▸ selected.update⟩

theorem Uses.steady {P : Platform} {implementation : Implementation} {s s' : System}
    (uses : Uses P implementation s) (steady : s.Steady s') : Uses P implementation s' := by
  have lib := steady.lib_eq
  exact ⟨uses.toSelected.congr lib, lib ▸ uses.definition⟩

section Effects

variable (P : Platform)

theorem pteditGetPagingRoot_quiet (pid : BitVec 32) (s : System) :
    s.Quiet (pteditGetPagingRoot P pid s).2 :=
  ⟨_, getRoot_quiet P s.current _ _ s.kernel, rfl⟩

theorem walkRoot_quiet (pid : BitVec 32) (s : System) : s.Quiet (walkRoot P pid s).2 := by
  simp only [walkRoot]
  split
  · exact System.Quiet.refl s
  · exact pteditGetPagingRoot_quiet P pid s

theorem pteditResolveKernel_quiet (address : Word) (pid : BitVec 32) (s : System) :
    s.Quiet (pteditResolveKernel P address pid s).2 :=
  ⟨_, resolve_quiet P s.current _ s.kernel, rfl⟩

/-- The record `ptedit_resolve_kernel` returns: the words behind the kernel's pointers. -/
theorem pteditResolveKernel_entry (address : Word) (pid : BitVec 32) (s : System) :
    (pteditResolveKernel P address pid s).1 =
      vmToUser s.kernel.mem (Entry.zeroed address (pid.signExtend 64))
        (resolvedVm P s.current address (pid.signExtend 64) s.kernel) :=
  ioctlVmResolve_vm P s.current (Entry.zeroed address (pid.signExtend 64)) s.kernel

/-- The memory `ptedit_update_kernel` leaves. -/
theorem pteditUpdateKernel_mem (address : Word) (pid : BitVec 32) (vm : Entry) (s : System) :
    (pteditUpdateKernel P address pid vm s).kernel.mem =
      storeAll s.kernel.mem
        (updateStores P (resolvedVm P s.current address (pid.signExtend 64) s.kernel)
          { vm with vaddr := address, pid := pid.signExtend 64 }) :=
  updateVm_stores P s.current { vm with vaddr := address, pid := pid.signExtend 64 } _ s.kernel

/-- `GET_ROOT` does not depend on memory or cached translations. -/
theorem ioctlGetRoot_steady {k k' : Kernel} (steady : k.Steady k') (current : Process)
    (pid root : Word) :
    (ioctlGetRoot P current pid root k').2.1 = (ioctlGetRoot P current pid root k).2.1 := by
  have condition : rootFromTtbr0 P k' = rootFromTtbr0 P k := by
    funext mm
    simp only [rootFromTtbr0, steady.pgd_eq]
  rw [ioctlGetRoot_root, ioctlGetRoot_root, steady.getMm_eq, condition, steady.ttbr0El1_eq,
    steady.pgd_eq]

/-- The root of a walk depends on nothing that an entry edit changes. -/
theorem System.Steady.walkRoot_eq {s s' : System} (steady : s.Steady s') (pid : BitVec 32) :
    (walkRoot P pid s').1 = (walkRoot P pid s).1 := by
  obtain ⟨k, steady, rfl⟩ := steady
  simp only [walkRoot]
  split
  · rfl
  · exact ioctlGetRoot_steady P steady s.current _ 0

/-- Every implementation's resolve changes nothing but the trace. -/
theorem resolve_quiet_system {address : Word} {pid : BitVec 32} {s s' : System} {vm : Entry}
    (resolved : pteditResolve P address pid s = some (vm, s')) : s.Quiet s' := by
  have user : ∀ deref, pteditResolveUserExt P deref address pid s = some (vm, s') →
      s.Quiet s' := by
    intro deref walked
    simp only [pteditResolveUserExt, Option.map_eq_some_iff, Prod.mk.injEq] at walked
    obtain ⟨_, _, _, rfl⟩ := walked
    exact walkRoot_quiet P pid s
  simp only [pteditResolve] at resolved
  split at resolved
  · cases resolved
  · cases resolved
    exact pteditResolveKernel_quiet P address pid s
  · exact user _ resolved
  · exact user _ resolved

/-- `PTEDIT_IMPL_USER_PREAD` always resolves. -/
theorem pteditResolveUser_returns (address : Word) (pid : BitVec 32) (s : System) :
    ∃ vm s', pteditResolveUser P address pid s = some (vm, s') := by
  have total : ∀ a, (physReadPread (walkRoot P pid s).2.kernel.mem a).isSome := fun _ => rfl
  have walked := resolveUserExt_isSome P.arch s.lib.pagingDefinition address total
    (walkRoot P pid s).1 pid
  obtain ⟨vm, walk⟩ := Option.isSome_iff_exists.mp walked
  refine ⟨vm, (walkRoot P pid s).2, ?_⟩
  simp only [pteditResolveUser, pteditResolveUserExt, walk, Option.map_some]

@[simp] theorem psetAll_pwrite (mem : Mem) (stores : List (Word × Word)) :
    psetAll physWritePwrite mem stores = some (storeAll mem stores) := by
  induction stores generalizing mem with
  | nil => rfl
  | cons s rest ih =>
      obtain ⟨slot, value⟩ := s
      simp only [psetAll, physWritePwrite, Option.bind_some, storeAll_cons]
      exact ih _

/-- Writes that stay inside the mapping do what `pwrite` does. -/
theorem psetAll_map {vmem : Vmem} (mem : Mem) {stores : List (Word × Word)}
    (inside : ∀ store ∈ stores, insideMapping vmem store.1 = true) :
    psetAll (physWriteMap vmem) mem stores = some (storeAll mem stores) := by
  induction stores generalizing mem with
  | nil => rfl
  | cons store rest ih =>
      obtain ⟨slot, value⟩ := store
      have within : insideMapping vmem slot = true := inside (slot, value) List.mem_cons_self
      simp only [psetAll, physWriteMap, within, if_true, Option.bind_some, storeAll_cons]
      apply ih
      intro store member
      exact inside store (List.mem_cons_of_mem _ member)

theorem pteditInvalidateTlb_steady (address : Word) (s : System) :
    s.Steady (pteditInvalidateTlb P address s) :=
  ⟨_, s.kernel.invalidateTlb_steady P s.current address, rfl⟩

theorem pteditInvalidateTlb_mem (address : Word) (s : System) :
    (pteditInvalidateTlb P address s).kernel.mem = s.kernel.mem :=
  s.kernel.invalidateTlb_mem P s.current address

theorem map_invalidateTlb_mem (address : Word) (call : Option System) :
    (call.map (pteditInvalidateTlb P address)).map (fun s => s.kernel.mem) =
      call.map (fun s => s.kernel.mem) := by
  cases call with
  | none => rfl
  | some s => exact congrArg some (pteditInvalidateTlb_mem P address s)

/-- The memory `ptedit_update_user_ext` leaves after a resolve that returned
`current`: what its physical writes make of its stores, of which there are none
if the process has no root. -/
theorem pteditUpdateUserExt_mem (pset : Mem → Word → Word → Option Mem) {address : Word}
    {pid : BitVec 32} {current : Entry} {s s₁ : System}
    (resolved : pteditResolve P address pid s = some (current, s₁)) (vm : Entry) :
    (pteditUpdateUserExt P pset address pid vm s).map (fun s => s.kernel.mem) =
      psetAll pset s.kernel.mem
        (if (walkRoot P pid s).1 &&& ~~~1#64 = 0 then []
          else userStores P.arch s.lib.pagingDefinition address
            ((walkRoot P pid s).1 &&& ~~~1#64) current vm) := by
  have quiet := resolve_quiet_system P resolved
  have root := quiet.steady.walkRoot_eq P pid
  have quiet₂ := quiet.trans (walkRoot_quiet P pid s₁)
  simp only [pteditUpdateUserExt, resolved, Option.bind_some, root, quiet₂.lib_eq, quiet₂.mem_eq]
  split
  · simp only [Option.map_some, quiet₂.mem_eq, psetAll]
  · rw [Option.map_map]
    cases psetAll pset s.kernel.mem _ with
    | none => rfl
    | some mem => exact congrArg some (pteditInvalidateTlb_mem P address _)

/-- It touches nothing but memory, cached translations and the trace. -/
theorem pteditUpdateUserExt_steady {pset : Mem → Word → Word → Option Mem} {address : Word}
    {pid : BitVec 32} {vm : Entry} {s s' : System}
    (updated : pteditUpdateUserExt P pset address pid vm s = some s') : s.Steady s' := by
  simp only [pteditUpdateUserExt, Option.bind_eq_some_iff] at updated
  obtain ⟨⟨current, s₁⟩, resolved, rest⟩ := updated
  have quiet := (resolve_quiet_system P resolved).trans (walkRoot_quiet P pid s₁)
  split at rest
  · cases rest
    exact quiet.steady
  · obtain ⟨mem, -, rfl⟩ := Option.map_eq_some_iff.mp rest
    refine quiet.steady.trans (System.Steady.trans ?_ (pteditInvalidateTlb_steady P address _))
    exact ⟨_, ⟨mem, _, _, rfl⟩, rfl⟩

/-- Through `pwrite`, an update whose resolve returns returns, with its stores made. -/
theorem pteditUpdateUserExt_pwrite {address : Word} {pid : BitVec 32} {current : Entry}
    {s s₁ : System} (resolved : pteditResolve P address pid s = some (current, s₁)) (vm : Entry) :
    ∃ s', pteditUpdateUserExt P physWritePwrite address pid vm s = some s' ∧
      s'.kernel.mem = storeAll s.kernel.mem
        (if (walkRoot P pid s).1 &&& ~~~1#64 = 0 then []
          else userStores P.arch s.lib.pagingDefinition address
            ((walkRoot P pid s).1 &&& ~~~1#64) current vm) := by
  have mem := pteditUpdateUserExt_mem P physWritePwrite resolved vm
  rw [psetAll_pwrite] at mem
  exact Option.map_eq_some_iff.mp mem

/-- An update that finds a root ends with a TLB invalidation of the address. -/
theorem pteditUpdateUserExt_invalidated {pset : Mem → Word → Word → Option Mem} {address : Word}
    {pid : BitVec 32} {vm current : Entry} {s s₁ s' : System}
    (resolved : pteditResolve P address pid s = some (current, s₁))
    (rooted : (walkRoot P pid s).1 &&& ~~~1#64 ≠ 0)
    (updated : pteditUpdateUserExt P pset address pid vm s = some s') :
    s.kernel.Invalidated s'.kernel address := by
  have quiet := resolve_quiet_system P resolved
  have root := quiet.steady.walkRoot_eq P pid
  obtain ⟨k, quietK, eq⟩ := quiet.trans (walkRoot_quiet P pid s₁)
  simp only [pteditUpdateUserExt, resolved, Option.bind_some, root, eq, rooted, if_false,
    Option.map_eq_some_iff] at updated
  obtain ⟨mem, -, rfl⟩ := updated
  have edited : s.kernel.Edited { k with mem } :=
    quietK.edited.trans ⟨mem, [], by simp⟩
  exact edited.invalidated (Kernel.Quiet.refl _)

/-- `ptedit_update_user` after a resolve that returned `current`. -/
theorem pteditUpdateUser_spec {address : Word} {pid : BitVec 32} {current : Entry}
    {s s₁ : System} (resolved : pteditResolve P address pid s = some (current, s₁)) (vm : Entry) :
    ∃ s', pteditUpdateUser P address pid vm s = some s' ∧ s.Steady s' ∧
      s'.kernel.mem = storeAll s.kernel.mem
        (if (walkRoot P pid s).1 &&& ~~~1#64 = 0 then []
          else userStores P.arch s.lib.pagingDefinition address
            ((walkRoot P pid s).1 &&& ~~~1#64) current vm) := by
  obtain ⟨s₂, updated, stored⟩ := pteditUpdateUserExt_pwrite P resolved vm
  refine ⟨pteditInvalidateTlb P address s₂, ?_, ?_, ?_⟩
  · simp only [pteditUpdateUser, updated, Option.map_some]
  · exact (pteditUpdateUserExt_steady P updated).trans (pteditInvalidateTlb_steady P address s₂)
  · rw [pteditInvalidateTlb_mem, stored]

end Effects

end PTEditor.Library
