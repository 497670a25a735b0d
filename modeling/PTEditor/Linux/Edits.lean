/-
# PTEditor.Linux.Edits -- resolve, change, update

The calls that edit an entry resolve the address, change the record, and update with
it; the update resolves once more on its own.  Nothing happens in between, so it finds
what the first resolve has found (`resolve_again`), and an edit is a list of stores to
the slots of that record, in every implementation: `pteEdit_mem` for the calls that
change the PTE, `levelsEdit_pread` for those that send back all levels.

Through the mapping an update may fault on the way.  If it returns, its stores were
made (`psetAll_map_eq`).
-/
import PTEditor.Library.WriteBack
import PTEditor.Linux.MappedWalk

namespace PTEditor.Linux.Edits

open PTEditor.Theory.ByteMemory PTEditor.Interface PTEditor.Module PTEditor.Library
open PTEditor.Library.Slots PTEditor.Library.WriteBack PTEditor.Linux.MappedWalk

set_option autoImplicit false

section Resolve

variable {P : Platform} {s s₁ : System} {address : Word} {pid : BitVec 32} {vm : Entry}

theorem pteditResolveUserExt_record {deref : Mem → Word → Option Word}
    (resolved : pteditResolveUserExt P deref address pid s = some (vm, s₁)) :
    resolveUserExt P.arch s.lib.pagingDefinition (deref s.kernel.mem) address
      (walkRoot P pid s).1 pid = some vm := by
  simp only [pteditResolveUserExt, (walkRoot_quiet P pid s).mem_eq, Option.map_eq_some_iff,
    Prod.mk.injEq] at resolved
  obtain ⟨_, walked, rfl, -⟩ := resolved
  exact walked

theorem pteditResolveUserExt_quiet {deref : Mem → Word → Option Word} (quiet : s.Quiet s₁)
    (walked : resolveUserExt P.arch s.lib.pagingDefinition (deref s.kernel.mem) address
      (walkRoot P pid s).1 pid = some vm) :
    ∃ s₂, pteditResolveUserExt P deref address pid s₁ = some (vm, s₂) := by
  have quiet₂ := quiet.trans (walkRoot_quiet P pid s₁)
  refine ⟨(walkRoot P pid s₁).2, ?_⟩
  simp only [pteditResolveUserExt, quiet₂.mem_eq, quiet.lib_eq, quiet.steady.walkRoot_eq P pid,
    walked, Option.map_some]

/-- A resolve right after a resolve returns the same record. -/
theorem resolve_again (resolved : pteditResolve P address pid s = some (vm, s₁)) :
    ∃ s₂, pteditResolve P address pid s₁ = some (vm, s₂) := by
  have quiet := resolve_quiet_system P resolved
  have user : ∀ deref, pteditResolveUserExt P deref address pid s = some (vm, s₁) →
      ∃ s₂, pteditResolveUserExt P deref address pid s₁ = some (vm, s₂) := fun deref walked =>
    pteditResolveUserExt_quiet quiet (pteditResolveUserExt_record walked)
  unfold pteditResolve at resolved ⊢
  rw [quiet.lib_eq]
  split at resolved
  · cases resolved
  · have record := congrArg Prod.fst (Option.some_inj.mp resolved)
    refine ⟨(pteditResolveKernel P address pid s₁).2, congrArg some (Prod.ext ?_ rfl)⟩
    obtain ⟨k, quietKernel, rfl⟩ := quiet
    rw [← record, pteditResolveKernel_entry, pteditResolveKernel_entry,
      resolvedVm_congr P s.current address _ quietKernel.steady quietKernel.mem_eq,
      quietKernel.mem_eq]
  · exact user _ resolved
  · have again := user _ resolved
    rw [pteditResolveUserMap, quiet.lib_eq]
    exact again

/-- What the user-space implementations resolve is the walk of the memory; through the
mapping, because it returned. -/
theorem resolvedIn_of_user {implementation : Implementation} (uses : Uses P implementation s)
    (user : implementation ≠ .kernel) (resolved : pteditResolve P address pid s = some (vm, s₁)) :
    ResolvedIn P address pid s vm := by
  obtain ⟨realPageSize, definition⟩ := uses.definition
  have regular : Regular s.lib.pagingDefinition :=
    definition ▸ initDefinition_regular P realPageSize
  obtain ⟨current, walked, spec⟩ :=
    resolved_walk P.arch regular (read64 s.kernel.mem) address (walkRoot P pid s).1 pid
  have same : resolveUserExt P.arch s.lib.pagingDefinition (physReadPread s.kernel.mem) address
      (walkRoot P pid s).1 pid = some vm → vm = current := fun record =>
    Option.some_inj.mp (record.symm.trans walked)
  cases implementation with
  | kernel => contradiction
  | user =>
      simp only [pteditResolve, uses.resolve] at resolved
      rw [ResolvedIn, same (pteditResolveUserExt_record resolved)]
      exact spec
  | userMap =>
      simp only [pteditResolve, uses.resolve] at resolved
      have record := pteditResolveUserExt_record resolved
      have guardedWalk := resolveUserExt_guarded P.arch s.lib.pagingDefinition address
        (insideMapping s.lib.vmem) (read64 s.kernel.mem) (walkRoot P pid s).1 pid
      have inside := guardedWalk.symm.trans record
      split at inside
      · rw [ResolvedIn, same inside]
        exact spec
      · cases inside

theorem hasPt_of_uses {implementation : Implementation} (uses : Uses P implementation s) :
    s.lib.pagingDefinition.hasPt = true := by
  obtain ⟨realPageSize, definition⟩ := uses.definition
  rw [definition]
  exact (initDefinition_lowest P realPageSize).2

theorem slotIn_quiet (quiet : s.Quiet s₁) (level : Level) :
    slotIn P address pid s₁ vm level = slotIn P address pid s vm level := by
  simp only [slotIn, quiet.lib_eq, quiet.steady.walkRoot_eq P pid]

theorem storesIn_quiet (quiet : s.Quiet s₁) (sent : Entry) :
    storesIn P address pid s₁ vm sent = storesIn P address pid s vm sent := by
  simp only [storesIn, slotIn_quiet quiet]

end Resolve

/-! ## Updates that return -/

/-- Writes through the mapping that all succeed are the stores. -/
theorem psetAll_map_eq {vmem : Vmem} {mem mem' : Mem} {stores : List (Word × Word)}
    (written : psetAll (physWriteMap vmem) mem stores = some mem') :
    mem' = storeAll mem stores := by
  induction stores generalizing mem with
  | nil => exact (Option.some_inj.mp written).symm
  | cons store rest ih =>
      obtain ⟨slot, value⟩ := store
      simp only [psetAll, physWriteMap] at written
      split at written
      · rw [Option.bind_some] at written
        exact ih written
      · cases written

section Update

variable {P : Platform} {s s₁ s₂ : System} {address : Word} {pid : BitVec 32} {vm : Entry}

/-- A user-space update that returns has made the stores of its record. -/
theorem pteditUpdate_user_mem {implementation : Implementation} (uses : Uses P implementation s)
    (user : implementation ≠ .kernel) (resolved : pteditResolve P address pid s = some (vm, s₁))
    {sent : Entry} (updated : pteditUpdate P address pid sent s = some s₂) :
    s₂.kernel.mem = storeAll s.kernel.mem (storesIn P address pid s vm sent) := by
  have walked := resolvedIn_of_user uses user resolved
  have stores : (if (walkRoot P pid s).1 &&& ~~~1#64 = 0 then []
      else userStores P.arch s.lib.pagingDefinition address ((walkRoot P pid s).1 &&& ~~~1#64) vm
        sent) = storesIn P address pid s vm sent := by
    split
    · rename_i zero
      rw [storesIn, walked.written_nil sent (walkSlots_rootless _ _ _ _ zero), List.map_nil]
    · exact walked.userStores_eq sent
  have left : ∀ pset : Mem → Word → Word → Option Mem,
      (pteditUpdateUserExt P pset address pid sent s).map (pteditInvalidateTlb P address) =
        some s₂ →
      psetAll pset s.kernel.mem (storesIn P address pid s vm sent) = some s₂.kernel.mem := by
    intro pset returned
    have mem := map_invalidateTlb_mem P address (pteditUpdateUserExt P pset address pid sent s)
    rw [returned, pteditUpdateUserExt_mem P pset resolved sent, stores] at mem
    exact mem.symm
  cases implementation with
  | kernel => contradiction
  | user =>
      simp only [pteditUpdate, uses.update] at updated
      have mem := left _ updated
      rw [psetAll_pwrite] at mem
      exact (Option.some_inj.mp mem).symm
  | userMap =>
      simp only [pteditUpdate, uses.update] at updated
      exact psetAll_map_eq (left _ updated)

end Update

/-! ## The edits -/

section Edit

variable {P : Platform} {s s₁ s₂ : System} {address : Word} {pid : BitVec 32} {vm : Entry}

/-- Where the implementation in use has the PTE of an address it resolved to `vm`. -/
def pteSlot (P : Platform) (address : Word) (pid : BitVec 32) (s : System) (vm : Entry) :
    Option Word :=
  match s.lib.update with
  | none => none
  | some .kernel => (resolvedVm P s.current address (pid.signExtend 64) s.kernel).slot .pte
  | some _ => if marks vm.valid .pte then some (slotIn P address pid s vm .pte) else none

/-- An update that sends the PTE alone writes the PTE alone. -/
theorem written_pte {current sent : Entry} (selected : sent.valid = Level.pte.mask)
    (valid : marks current.valid .pte = true) : written current sent = [.pte] := by
  simp [written, selected, valid]

theorem updateStores_pte {oldEntry : Vm} (inStep : oldEntry.InStep) {sent : Entry} {slot : Word}
    (selected : sent.valid = Level.pte.mask) (reached : oldEntry.slot .pte = some slot) :
    updateStores P oldEntry sent = [(slot, sent.pte)] := by
  have others : ∀ level, level ≠ .pte → levelStore oldEntry sent level = [] := by
    intro level other
    apply levelStore_unselected
    rw [selected, marks_mask]
    exact decide_eq_false other
  have own : levelStore oldEntry sent .pte = [(slot, sent.pte)] := by
    rw [levelStore_some inStep sent reached, selected, marks_mask]
    rfl
  rw [updateStores, others .pgd (by decide), others .p4d (by decide), others .pud (by decide),
    others .pmd (by decide), own]
  split
  · rfl
  · rfl

theorem pteEdit_update {change : Word → Word}
    (resolved : pteditResolve P address pid s = some (vm, s₁))
    (valid : marks vm.valid .pte = true) :
    pteEdit P change address pid s =
      pteditUpdate P address pid { vm with pte := change vm.pte, valid := Level.pte.mask } s₁ := by
  simp only [pteEdit, resolved, Option.bind_some, valid, if_true]

/-- **An edit of the PTE is one store, in every implementation.** -/
theorem pteEdit_mem {implementation : Implementation} (uses : Uses P implementation s)
    {change : Word → Word} (resolved : pteditResolve P address pid s = some (vm, s₁))
    (valid : marks vm.valid .pte = true) (edited : pteEdit P change address pid s = some s₂)
    {slot : Word} (located : pteSlot P address pid s vm = some slot) :
    s₂.kernel.mem = write64 s.kernel.mem slot (change vm.pte) := by
  have quiet := resolve_quiet_system P resolved
  have uses₁ := uses.steady quiet.steady
  obtain ⟨s', resolved₁⟩ := resolve_again resolved
  rw [pteEdit_update resolved valid] at edited
  have user : implementation ≠ .kernel →
      s₂.kernel.mem = write64 s.kernel.mem (slotIn P address pid s vm .pte) (change vm.pte) := by
    intro notKernel
    rw [pteditUpdate_user_mem uses₁ notKernel resolved₁ edited, storesIn_quiet quiet,
      quiet.mem_eq, storesIn, written_pte rfl valid]
    rfl
  simp only [pteSlot, uses.update, valid, if_true] at located
  cases implementation with
  | kernel =>
      obtain ⟨s', updated, stored⟩ := pteditUpdate_kernel (P := P) ⟨uses₁.resolve, uses₁.update⟩
        address pid { vm with pte := change vm.pte, valid := Level.pte.mask }
      obtain rfl := Option.some_inj.mp (updated.symm.trans edited)
      obtain ⟨k, quietKernel, rfl⟩ := quiet
      rw [stored, resolvedVm_congr P s.current address _ quietKernel.steady quietKernel.mem_eq,
        updateStores_pte (resolvedVm_inStep P s.current address _ s.kernel) rfl located,
        quietKernel.mem_eq]
      rfl
  | user =>
      rw [user (by decide), Option.some_inj.mp located]
  | userMap =>
      rw [user (by decide), Option.some_inj.mp located]

end Edit

/-! ## Through `pread` and `pwrite` -/

section Pread

variable {P : Platform} {s s₁ : System} {address : Word} {pid : BitVec 32} {vm : Entry}

theorem pteditUpdate_returns (uses : Uses P .user s)
    (resolved : pteditResolve P address pid s = some (vm, s₁)) (sent : Entry) :
    ∃ s₂, pteditUpdate P address pid sent s₁ = some s₂ ∧
      s₂.kernel.mem = storeAll s.kernel.mem (storesIn P address pid s vm sent) := by
  have quiet := resolve_quiet_system P resolved
  have uses₁ := uses.steady quiet.steady
  obtain ⟨s', resolved₁⟩ := resolve_again resolved
  have walked₁ := resolvedIn_of_user uses₁ (by decide) resolved₁
  obtain ⟨s₂, updated, -, stored⟩ := pteditUpdate_pread uses₁ resolved₁ walked₁ sent
  rw [storesIn_quiet quiet, quiet.mem_eq] at stored
  exact ⟨s₂, updated, stored⟩

theorem uses_onePage : Uses fourLevelPlatform .user X86Walk.onePageSystem :=
  ⟨⟨rfl, rfl⟩, 4096, rfl⟩

/-- An edit of the PTE returns; without a valid PTE it changes nothing. -/
theorem pteEdit_pread (uses : Uses P .user s) (change : Word → Word)
    (resolved : pteditResolve P address pid s = some (vm, s₁)) :
    ∃ s₂, pteEdit P change address pid s = some s₂ ∧
      s₂.kernel.mem =
        if marks vm.valid .pte then
          write64 s.kernel.mem (slotIn P address pid s vm .pte) (change vm.pte)
        else s.kernel.mem := by
  by_cases valid : marks vm.valid .pte = true
  · obtain ⟨s₂, updated, stored⟩ := pteditUpdate_returns uses resolved
      { vm with pte := change vm.pte, valid := Level.pte.mask }
    refine ⟨s₂, (pteEdit_update resolved valid).trans updated, ?_⟩
    rw [stored, if_pos valid, storesIn, written_pte rfl valid]
    rfl
  · refine ⟨s₁, ?_, ?_⟩
    · simp only [pteEdit, resolved, Option.bind_some, valid, Bool.false_eq_true, if_false]
    · rw [if_neg valid, (resolve_quiet_system P resolved).mem_eq]

/-- An edit of several levels sends every valid level back. -/
theorem levelsEdit_pread (uses : Uses P .user s) (change : Word → Word) (levels : Word)
    (resolved : pteditResolve P address pid s = some (vm, s₁)) :
    ∃ s₂, levelsEdit P change address pid levels s = some s₂ ∧
      s₂.kernel.mem = storeAll s.kernel.mem
        (storesIn P address pid s vm (editLevels s.lib.pagingDefinition change levels vm)) := by
  obtain ⟨s₂, updated, stored⟩ := pteditUpdate_returns uses resolved
    (editLevels s.lib.pagingDefinition change levels vm)
  refine ⟨s₂, ?_, stored⟩
  simp only [levelsEdit, resolved, Option.bind_some, (resolve_quiet_system P resolved).lib_eq]
  exact updated

end Pread

end PTEditor.Linux.Edits
