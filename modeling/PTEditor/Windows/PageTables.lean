/-
# PTEditor.Windows.PageTables -- the library's page tables on Windows

Windows has one implementation, the user-space walk, and its physical reads and writes are
`DeviceIoControl`s.  The walk and the update are the same source as on Linux, compiled
for 64-bit Windows; what differs is below them: the driver drops a write the system has no
address for, and a process id is a `size_t`.

`windows_agrees_with_linux` is the lockstep of the two: where the system has an address for
every PTE that is written, any run of PTE calls leaves the memory that it leaves on Linux,
and every address resolves alike afterwards, whatever the tables look like: a process that
maps its own tables, as every process does on Windows, may move its PTEs on the way.
-/
import PTEditor.Library.PageMap
import PTEditor.Theory.Runs
import PTEditor.Windows.Protocol

namespace PTEditor.Windows.PageTables

open PTEditor.Theory.ByteMemory PTEditor.Theory.RadixTree PTEditor.Interface
open PTEditor.Library.X86Walk PTEditor.Library.PageMap
open PTEditor.Library (resolveUserExt userStores guardedStore)
open PTEditor.Theory
open PTEditor.Module (fourLevelPlatform)

set_option autoImplicit false

/-! ## The library -/

structure System where
  /-- `ptedit_paging_root` -/
  pagingRoot : Word
  machine : Machine

section Calls

variable (N : Nt)

/-- `ptedit_init`, which ends with `ptedit_use_implementation(PTEDIT_IMPL_USER_PREAD)`. -/
def pteditInit (m : Machine) : System :=
  let root := pteditGetPagingRoot N 0 m
  ⟨root.1, root.2⟩

def walkRoot (pid : Word) (s : System) : Word × System :=
  if pid = 0 then (s.pagingRoot, s)
  else
    let root := pteditGetPagingRoot N pid s.machine
    (root.1, { s with machine := root.2 })

/-- `ptedit_resolve_user`; a read leaves the machine as it is. -/
def pteditResolve (address pid : Word) (s : System) : Option (Entry × System) :=
  let root := walkRoot N pid s
  (resolveUserExt .x86_64 .x86_64 (fun a => some (physReadPread N a root.2.machine).1) address
    root.1 0).map fun resolved => ({ resolved with pid }, root.2)

def psetAll (stores : List (Word × Word)) (m : Machine) : Machine :=
  stores.foldl (fun m store => physWritePwrite N store.1 store.2 m) m

def pteditUpdateUserExt (address pid : Word) (vm : Entry) (s : System) : Option System :=
  (pteditResolve N address pid s).map fun (current, s) =>
    let root := walkRoot N pid s
    let s := root.2
    let root := root.1 &&& ~~~1#64
    if root = 0 then s
    else
      let stored := psetAll N (userStores .x86_64 .x86_64 address root current vm) s.machine
      { s with machine := pteditInvalidateTlb N address stored }

def pteditUpdate (address pid : Word) (vm : Entry) (s : System) : Option System :=
  (pteditUpdateUserExt N address pid vm s).map fun s =>
    { s with machine := pteditInvalidateTlb N address s.machine }

def pteEdit (change : Word → Word) (address pid : Word) (s : System) : Option System :=
  (pteditResolve N address pid s).bind fun (vm, s) =>
    if marks vm.valid .pte then
      pteditUpdate N address pid { vm with pte := change vm.pte, valid := Level.pte.mask } s
    else some s

def pteditPteSetBit (address pid : Word) (bit : Fin 64) (s : System) : Option System :=
  pteEdit N (fun pte => pte ||| (1#64 <<< bit.val)) address pid s

def pteditPteClearBit (address pid : Word) (bit : Fin 64) (s : System) : Option System :=
  pteEdit N (fun pte => pte &&& ~~~(1#64 <<< bit.val)) address pid s

def pteditPteSetPfn (address pid pfn : Word) (s : System) : Option System :=
  pteEdit N (fun pte => pteditSetPfn .x86_64 pte pfn) address pid s

/-- A PTE call, for the process that is called `named pid` here. -/
def run (named : BitVec 32 → Word) (call : PteCall) (s : System) : Option System :=
  match call.op with
  | .setBit bit => pteditPteSetBit N call.address (named call.pid) bit s
  | .clearBit bit => pteditPteClearBit N call.address (named call.pid) bit s
  | .setPfn pfn => pteditPteSetPfn N call.address (named call.pid) pfn s
  | .update vm =>
      pteditUpdate N call.address (named call.pid) { vm with valid := Level.pte.mask } s

def runCalls (named : BitVec 32 → Word) : List PteCall → System → Option System
  | [], s => some s
  | call :: rest, s => (run N named call s).bind (runCalls named rest)

/-- The system has an address for the PTE of the call, if it finds one. -/
def Addressable (root : Word) (mem : Mem) (call : PteCall) : Prop :=
  ∀ slot, pteSlot mem root call.address = some slot → (N.mmGetVirtualForPhysical slot).isSome

end Calls

/-- What a call tells the processors to drop: the page, twice, if it gets as far as an update. -/
def flushes (mem : Mem) (root : Word) (call : PteCall) : List Word :=
  match call.op with
  | .update _ => [call.address, call.address]
  | _ => if (pteSlot mem root call.address).isSome then [call.address, call.address] else []

/-- What a run of calls tells them, each call in the memory that it finds. -/
def flushesOf (root : Word) : List PteCall → Mem → List Word
  | [], _ => []
  | call :: rest, mem => flushes mem root call ++ flushesOf root rest (storeCall root call mem)

/-- `s'` is `s` but for physical memory and the invalidations. -/
structure Keeps (s s' : System) : Prop where
  pagingRoot : s'.pagingRoot = s.pagingRoot
  cr3 : s'.machine.cr3 = s.machine.cr3

/-! ## One call -/

section Step

variable {N : Nt} {s : System} {root : Word}

theorem Keeps.trans {s s₁ s₂ : System} (first : Keeps s s₁) (second : Keeps s₁ s₂) : Keeps s s₂ :=
  ⟨second.pagingRoot.trans first.pagingRoot, second.cr3.trans first.cr3⟩

theorem walkRoot_state (pid : Word) : (walkRoot N pid s).2 = s := by
  unfold walkRoot
  split
  · rfl
  · rw [pteditGetPagingRoot_eq]

theorem Keeps.walkRoot_eq {s' : System} (keeps : Keeps s s') (pid : Word) :
    (walkRoot N pid s').1 = (walkRoot N pid s).1 := by
  unfold walkRoot
  split
  · exact keeps.pagingRoot
  · rw [pteditGetPagingRoot_eq, pteditGetPagingRoot_eq, keeps.cr3]

/-- The walk of Windows is the radix walk. -/
theorem resolve_eq (good : GoodRoot root) (b pid : Word) (rooted : (walkRoot N pid s).1 = root) :
    pteditResolve N b pid s =
      some ({ resolved (tables s.machine.mem) (rootFrame root) b 0 with pid }, s) := by
  have reads : (fun a => some (physReadPread N a s.machine).1) =
      PTEditor.Library.physReadPread s.machine.mem := by
    funext a
    rw [physReadPread_eq]
    rfl
  simp only [pteditResolve, rooted, walkRoot_state, reads,
    resolveUserExt_x86_64 s.machine.mem root b 0 good.nonzero good.aligned, Option.map_some]

/-- `ptedit_update` with the PTE mask stores the PTE of a page that has one, and drops the page
twice. -/
theorem update_pte (good : GoodRoot root) {b : Word}
    (addressable : ∀ slot, pteSlot s.machine.mem root b = some slot →
      (N.mmGetVirtualForPhysical slot).isSome)
    (pid : Word) (rooted : (walkRoot N pid s).1 = root) (vm : Entry)
    (selected : vm.valid = Level.pte.mask) :
    ∃ s', pteditUpdate N b pid vm s = some s' ∧ Keeps s s' ∧
      tables s'.machine.mem = editStep follow (rootFrame root) (tables s.machine.mem)
        ⟨addressPath b, addressIndex .pte b, fun _ => vm.pte⟩ ∧
      s'.machine.invalidated = s.machine.invalidated ++ [b, b] := by
  have alone : ∀ level, level ≠ .pte → marks vm.valid level = false := by
    intro level ne
    rw [selected, marks_mask]
    simp [ne]
  have pte : marks vm.valid .pte = true := by rw [selected, marks_mask]; rfl
  have record : marks (resolved (tables s.machine.mem) (rootFrame root) b 0).valid .pte =
      (frameAt follow (tables s.machine.mem) (rootFrame root) (addressPath b)).isSome :=
    resolved_marks_pte _ _ b 0
  simp only [pteditUpdate, pteditUpdateUserExt, resolve_eq good b pid rooted, Option.map_some,
    walkRoot_state, rooted, root_and_not_one good.aligned, if_neg good.nonzero, userStores,
    guardedStore, pte, alone .pmd (by decide), alone .pud (by decide), alone .p4d (by decide),
    alone .pgd (by decide), Bool.false_and, Bool.true_and, Bool.and_true, Bool.false_eq_true,
    if_false, List.append_nil, record, pteditInvalidateTlb_eq, editStep]
  refine ⟨_, rfl, ?_⟩
  cases reached : frameAt follow (tables s.machine.mem) (rootFrame root) (addressPath b) with
  | none =>
      simp only [Option.isSome_none, Bool.false_eq_true, if_false, psetAll, List.foldl_nil,
        Machine.invalidateTlb, List.append_assoc]
      exact ⟨⟨rfl, rfl⟩, trivial, rfl⟩
  | some frame =>
      have address := addressable (slot frame (addressIndex .pte b))
        (by simp only [pteSlot, reached, Option.map_some])
      simp only [Option.isSome_some, if_true, psetAll, List.foldl_cons, List.foldl_nil,
        updateSlot_resolved _ b 0 reached, physWritePwrite_eq, Call.intended, if_pos address,
        Machine.invalidateTlb, List.append_assoc, tables_write64]
      exact ⟨⟨rfl, rfl⟩, rfl, rfl⟩

/-- The calls that resolve first and then send the changed PTE back. -/
theorem pteEdit_step (good : GoodRoot root) {b : Word}
    (addressable : ∀ slot, pteSlot s.machine.mem root b = some slot →
      (N.mmGetVirtualForPhysical slot).isSome)
    (change : Word → Word) (pid : Word) (rooted : (walkRoot N pid s).1 = root) :
    ∃ s', pteEdit N change b pid s = some s' ∧ Keeps s s' ∧
      tables s'.machine.mem = editStep follow (rootFrame root) (tables s.machine.mem)
        ⟨addressPath b, addressIndex .pte b, change⟩ ∧
      s'.machine.invalidated = s.machine.invalidated ++
        if (pteSlot s.machine.mem root b).isSome then [b, b] else [] := by
  have marked : marks (resolved (tables s.machine.mem) (rootFrame root) b 0).valid .pte =
      (frameAt follow (tables s.machine.mem) (rootFrame root) (addressPath b)).isSome :=
    resolved_marks_pte _ _ b 0
  simp only [pteEdit, resolve_eq good b pid rooted, Option.bind_some, marked, editStep, pteSlot,
    Option.isSome_map]
  cases reached : frameAt follow (tables s.machine.mem) (rootFrame root) (addressPath b) with
  | none =>
      simp only [Option.isSome_none, Bool.false_eq_true, if_false, List.append_nil]
      exact ⟨s, rfl, ⟨rfl, rfl⟩, rfl, rfl⟩
  | some frame =>
      simp only [Option.isSome_some, if_true]
      have pte : (resolved (tables s.machine.mem) (rootFrame root) b 0).pte =
          tables s.machine.mem frame (addressIndex .pte b) := by
        simp only [addressPath] at reached
        simp only [resolved, entryAt, reached, Option.map_some, Option.getD_some]
      obtain ⟨s', updated, keeps, stored, dropped⟩ :=
        update_pte good addressable pid rooted
          { resolved (tables s.machine.mem) (rootFrame root) b 0 with
            pid
            pte := change (resolved (tables s.machine.mem) (rootFrame root) b 0).pte
            valid := Level.pte.mask } rfl
      refine ⟨s', updated, keeps, ?_, dropped⟩
      simp only [stored, editStep, reached, pte]

/-- The memory after a run of calls, as a run of edits of the tables. -/
theorem tables_storeCall_run (root : Word) (calls : List PteCall) (mem : Mem) :
    tables (Runs.run (storeCall root) calls mem) =
      editRun follow (rootFrame root) (tables mem) (calls.map PteCall.edit) := by
  induction calls generalizing mem with
  | nil => rfl
  | cons call rest ih =>
      rw [Runs.run, ih, tables_storeCall]
      rfl

/-- **One call.** -/
theorem run_step (good : GoodRoot root) (named : BitVec 32 → Word) {call : PteCall}
    (addressable : Addressable N root s.machine.mem call)
    (rooted : (walkRoot N (named call.pid) s).1 = root) :
    ∃ s', run N named call s = some s' ∧ Keeps s s' ∧
      s'.machine.mem = storeCall root call s.machine.mem ∧
      s'.machine.invalidated = s.machine.invalidated ++ flushes s.machine.mem root call := by
  have stepped : ∃ s', run N named call s = some s' ∧ Keeps s s' ∧
      tables s'.machine.mem = editStep follow (rootFrame root) (tables s.machine.mem) call.edit ∧
      s'.machine.invalidated = s.machine.invalidated ++ flushes s.machine.mem root call := by
    obtain ⟨op, b, pid⟩ := call
    cases op with
    | setBit bit =>
        exact pteEdit_step good addressable ((PteOp.setBit bit).onWord .x86_64) _ rooted
    | clearBit bit =>
        exact pteEdit_step good addressable ((PteOp.clearBit bit).onWord .x86_64) _ rooted
    | setPfn pfn =>
        exact pteEdit_step good addressable ((PteOp.setPfn pfn).onWord .x86_64) _ rooted
    | update vm =>
        exact update_pte good addressable _ rooted { vm with valid := Level.pte.mask } rfl
  obtain ⟨s', ran, keeps, edited, dropped⟩ := stepped
  refine ⟨s', ran, keeps, mem_eq_of_tables_eq ?_, dropped⟩
  rw [edited, tables_storeCall]

/-- **A run of calls.** -/
theorem runCalls_mem (good : GoodRoot root) (named : BitVec 32 → Word) (calls : List PteCall)
    (addressable : Runs.Guarded (storeCall root) (Addressable N root) calls s.machine.mem)
    (rooted : ∀ call ∈ calls, (walkRoot N (named call.pid) s).1 = root) :
    ∃ s', runCalls N named calls s = some s' ∧ Keeps s s' ∧
      s'.machine.mem = Runs.run (storeCall root) calls s.machine.mem ∧
      s'.machine.invalidated =
        s.machine.invalidated ++ flushesOf root calls s.machine.mem := by
  induction calls generalizing s with
  | nil => exact ⟨s, rfl, ⟨rfl, rfl⟩, rfl, (List.append_nil _).symm⟩
  | cons call rest ih =>
      obtain ⟨here, later⟩ := addressable
      obtain ⟨s₁, ran, keeps, mem, dropped⟩ :=
        run_step good named here (rooted call List.mem_cons_self)
      have rooted₁ : ∀ c ∈ rest, (walkRoot N (named c.pid) s₁).1 = root := fun c member =>
        (keeps.walkRoot_eq (named c.pid)).trans (rooted c (List.mem_cons_of_mem _ member))
      obtain ⟨s', ranRest, keepsRest, memRest, droppedRest⟩ := ih (by rw [mem]; exact later) rooted₁
      refine ⟨s', ?_, keeps.trans keepsRest, ?_, ?_⟩
      · simp only [runCalls, ran, Option.bind_some, ranRest]
      · rw [memRest, mem]
        rfl
      · rw [droppedRest, dropped, mem, List.append_assoc]
        rfl

end Step

/-! ## Against Linux -/

/-- **A run of PTE calls does on Windows what it does on Linux.**  Both succeed, and leave the same
memory; on Windows each call that reaches a PTE, or is an update, drops its page on every
processor twice; and every address of a process with that root resolves alike afterwards. -/
theorem windows_agrees_with_linux {P : PTEditor.Module.Platform} {s : PTEditor.Library.System}
    {N : Nt} {w : System} {root : Word} (pread : PreadX86 P s) (good : GoodRoot root)
    (same : w.machine.mem = s.kernel.mem) (named : BitVec 32 → Word) (calls : List PteCall)
    (addressable : Runs.Guarded (storeCall root) (Addressable N root) calls s.kernel.mem)
    (linux : ∀ call ∈ calls, (PTEditor.Library.walkRoot P call.pid s).1 = root)
    (windows : ∀ call ∈ calls, (walkRoot N (named call.pid) w).1 = root) :
    ∃ s' w', PTEditor.Library.PageMap.runCalls P calls s = some s' ∧
      runCalls N named calls w = some w' ∧ w'.machine.mem = s'.kernel.mem ∧
      w'.machine.invalidated = w.machine.invalidated ++ flushesOf root calls s.kernel.mem ∧
      ∀ b pid, (PTEditor.Library.walkRoot P pid s).1 = root →
        (walkRoot N (named pid) w).1 = root →
        ∃ record s'', PTEditor.Library.pteditResolve P b pid s' = some (record, s'') ∧
          pteditResolve N b (named pid) w' = some ({ record with pid := named pid }, w') := by
  obtain ⟨s', ran, steady, edited⟩ :=
    PTEditor.Library.PageMap.runCalls_edits pread good calls linux
  obtain ⟨w', ranW, keeps, memW, dropped⟩ :=
    runCalls_mem (s := w) good named calls (same ▸ addressable) windows
  have memory : w'.machine.mem = s'.kernel.mem :=
    mem_eq_of_tables_eq (by rw [memW, tables_storeCall_run, edited, same])
  refine ⟨s', w', ran, ranW, memory, by rw [dropped, same], ?_⟩
  intro b pid rooted rootedW
  have record := PTEditor.Library.PageMap.resolve_eq (pread.steady steady) good b pid
    ((steady.walkRoot_eq P pid).trans rooted)
  have recordW := resolve_eq good b (named pid) ((keeps.walkRoot_eq (named pid)).trans rootedW)
  refine ⟨_, _, record, ?_⟩
  rw [recordW, memory]
  rfl

def onePageMachine : Machine := { onePatMachine with
  cr3 := fun pid => if pid = 4 then some 0x1003 else none
  mem := onePageMem }

/-- Four calls, through three addresses of the page and one that has no tables. -/
theorem windows_agrees_with_linux_onePage :
    ∃ w', runCalls directMapNt (fun _ => 4)
        [⟨.setBit 9, 0, 0⟩, ⟨.clearBit 1, 0xfff, 0⟩, ⟨.setBit 3, 0x8000000000, 0⟩,
          ⟨.setPfn 7, 0x10, 0⟩] (pteditInit directMapNt onePageMachine) = some w' ∧
      read64 w'.machine.mem 0x4000 = 0x7205 := by
  have pread : PreadX86 fourLevelPlatform onePageSystem := ⟨⟨rfl, rfl⟩, rfl, rfl⟩
  have good : GoodRoot 0x1000 := ⟨by decide, by decide⟩
  have start : pteditInit directMapNt onePageMachine = ⟨0x1000, onePageMachine⟩ := by
    rw [pteditInit, pteditGetPagingRoot_eq]
    rfl
  rw [start]
  obtain ⟨s', w', ran, ranW, memory, -⟩ := windows_agrees_with_linux (w := ⟨0x1000, onePageMachine⟩)
    (N := directMapNt) pread good rfl (fun _ => 4)
    [⟨.setBit 9, 0, 0⟩, ⟨.clearBit 1, 0xfff, 0⟩, ⟨.setBit 3, 0x8000000000, 0⟩,
      ⟨.setPfn 7, 0x10, 0⟩]
    ⟨fun _ _ => rfl, fun _ _ => rfl, fun _ _ => rfl, fun _ _ => rfl, trivial⟩ (by decide) (by
      intro call member
      rw [walkRoot, if_neg (by decide), pteditGetPagingRoot_eq]
      decide)
  refine ⟨w', ranW, ?_⟩
  have linux : (PTEditor.Library.PageMap.runCalls fourLevelPlatform
      [⟨.setBit 9, 0, 0⟩, ⟨.clearBit 1, 0xfff, 0⟩, ⟨.setBit 3, 0x8000000000, 0⟩,
        ⟨.setPfn 7, 0x10, 0⟩] onePageSystem).map (fun s => read64 s.kernel.mem 0x4000) =
      some 0x7205 := by
    decide +kernel
  rw [ran, Option.map_some, Option.some.injEq] at linux
  rw [memory, linux]

end PTEditor.Windows.PageTables
