/-
# PTEditor.Library.WriteBack -- resolve, update, and resolve again

`ptedit_update` computes the slots it writes anew, from a resolve of its own.  Two
consequences of its finding the slots the walk has read:

* `update_resolved_unchanged`: writing back what was resolved changes no byte,
  whatever mask is sent along and however the slots overlap;
* `resolve_reads_update`: where the slots are apart and the new table entries steer
  the walk as the old ones do, the next resolve returns what was written, at all
  selected levels at once.
-/
import PTEditor.Library.Slots
import PTEditor.Library.X86Walk

namespace PTEditor.Library.WriteBack

open PTEditor.Theory.ByteMemory PTEditor.Interface PTEditor.Module PTEditor.Library
open PTEditor.Library.Slots PTEditor.Library.X86Walk

set_option autoImplicit false

section User

variable {P : Platform} {s s' : System} {address : Word} {pid : BitVec 32}

theorem regular_of_uses {implementation : Implementation} (uses : Uses P implementation s) :
    Regular s.lib.pagingDefinition := by
  obtain ⟨realPageSize, definition⟩ := uses.definition
  rw [definition]
  exact initDefinition_regular P realPageSize

/-- What the user-space resolve says about the memory it walks. -/
def ResolvedIn (P : Platform) (address : Word) (pid : BitVec 32) (s : System) (vm : Entry) :
    Prop :=
  Resolved P.arch s.lib.pagingDefinition (read64 s.kernel.mem) address (walkRoot P pid s).1 vm

/-- The slot of a level of a resolved record, in the tables of the walked process. -/
def slotIn (P : Platform) (address : Word) (pid : BitVec 32) (s : System) (vm : Entry)
    (level : Level) : Word :=
  slotOf P.arch s.lib.pagingDefinition address ((walkRoot P pid s).1 &&& ~~~1#64) vm level

theorem pteditResolve_pread (pread : Uses P .user s) (address : Word) (pid : BitVec 32) :
    ∃ vm s₁, pteditResolve P address pid s = some (vm, s₁) ∧ s.Quiet s₁ ∧
      ResolvedIn P address pid s vm := by
  have quiet := walkRoot_quiet P pid s
  obtain ⟨vm, walked, resolved⟩ :=
    resolved_walk P.arch (regular_of_uses pread) (read64 s.kernel.mem) address
      (walkRoot P pid s).1 pid
  refine ⟨vm, (walkRoot P pid s).2, ?_, quiet, resolved⟩
  have deref : physReadPread (walkRoot P pid s).2.kernel.mem =
      fun a => some (read64 s.kernel.mem a) := by
    funext a
    rw [physReadPread, quiet.mem_eq]
  simp only [pteditResolve, pread.resolve, pteditResolveUser, pteditResolveUserExt, deref, walked,
    Option.map_some]

def storesIn (P : Platform) (address : Word) (pid : BitVec 32) (s : System) (current vm : Entry) :
    List (Word × Word) :=
  (written current vm).map fun level => (slotIn P address pid s current level, vm.word level)

/-- An update writes the selected ones among the slots its resolve has read. -/
theorem pteditUpdate_pread (pread : Uses P .user s) {current : Entry} {s₁ : System}
    (resolved : pteditResolve P address pid s = some (current, s₁))
    (walked : ResolvedIn P address pid s current) (vm : Entry) :
    ∃ s₂, pteditUpdate P address pid vm s = some s₂ ∧ s.Steady s₂ ∧
      s₂.kernel.mem = storeAll s.kernel.mem (storesIn P address pid s current vm) := by
  obtain ⟨s₂, updated, steady, stored⟩ := pteditUpdateUser_spec P resolved vm
  refine ⟨s₂, ?_, steady, ?_⟩
  · simp only [pteditUpdate, pread.update, updated]
  · rw [stored]
    split
    · rename_i zero
      rw [storesIn, walked.written_nil vm (walkSlots_rootless _ _ _ _ zero), List.map_nil]
    · rw [walked.userStores_eq vm]
      rfl

/-- A resolve of a state with the same memory finds the same slots. -/
theorem ResolvedIn.congr {vm : Entry} (walked : ResolvedIn P address pid s' vm)
    (steady : s.Steady s') (sameMem : s'.kernel.mem = s.kernel.mem) :
    ResolvedIn P address pid s vm := by
  simp only [ResolvedIn, steady.lib_eq, sameMem, steady.walkRoot_eq P pid] at walked
  exact walked

/-- `PTEDIT_IMPL_USER_PREAD` writes back what it resolved. -/
theorem update_resolved_pread (pread : Uses P .user s) (address : Word) (pid : BitVec 32)
    (mask : Word) :
    ∃ vm s₁ s₂, pteditResolve P address pid s = some (vm, s₁) ∧
      pteditUpdate P address pid { vm with valid := mask } s₁ = some s₂ ∧
      s₂.kernel.mem = s.kernel.mem := by
  obtain ⟨vm, s₁, resolved, quiet, walked⟩ := pteditResolve_pread pread address pid
  have pread₁ := pread.steady quiet.steady
  obtain ⟨current, s', resolved₁, _, walked₁⟩ := pteditResolve_pread pread₁ address pid
  obtain ⟨s₂, updated, -, stored⟩ :=
    pteditUpdate_pread pread₁ resolved₁ walked₁ { vm with valid := mask }
  refine ⟨vm, s₁, s₂, resolved, updated, ?_⟩
  have again := walked₁.congr quiet.steady quiet.mem_eq
  rw [stored, quiet.mem_eq]
  apply storeAll_of_present
  intro store member
  obtain ⟨level, selected, rfl⟩ := List.mem_map.mp member
  -- The word was read by the first walk from the slot the second one names.
  have reached := again.mem_of_marked (mem_written.mp selected).2
  have word := walked.words _ reached
  have sameSlot : slotIn P address pid s₁ current level = slotIn P address pid s current level := by
    simp only [slotIn, quiet.lib_eq, quiet.steady.walkRoot_eq P pid]
  rw [sameSlot]
  cases level <;> exact word

end User

/-! ## Through the kernel -/

/-- Every store of an update, with or without a P4D, is that of a level. -/
theorem level_of_updateStores {P : Platform} {oldEntry : Vm} (inStep : oldEntry.InStep)
    {newEntry : Entry} {store : Word × Word} (member : store ∈ updateStores P oldEntry newEntry) :
    ∃ level, oldEntry.slot level = some store.1 ∧ store.2 = newEntry.word level := by
  have one : ∀ level, store ∈ levelStore oldEntry newEntry level →
      ∃ level, oldEntry.slot level = some store.1 ∧ store.2 = newEntry.word level := by
    intro level stored
    obtain ⟨slot, -, word⟩ := (mem_levelStore inStep newEntry level store).mp stored
    exact ⟨level, slot, word⟩
  simp only [updateStores, List.mem_append] at member
  rcases member with pgd | p4d | pud | pmd | pte
  · exact one .pgd pgd
  · split at p4d
    · exact one .p4d p4d
    · cases p4d
  · exact one .pud pud
  · exact one .pmd pmd
  · exact one .pte pte

section Kernel

variable {P : Platform} {s s' : System}

theorem pteditResolve_kernel (kernel : Selected .kernel s) (address : Word) (pid : BitVec 32) :
    ∃ s₁, s.Quiet s₁ ∧
      pteditResolve P address pid s =
        some (vmToUser s.kernel.mem (Entry.zeroed address (pid.signExtend 64))
          (resolvedVm P s.current address (pid.signExtend 64) s.kernel), s₁) := by
  refine ⟨_, pteditResolveKernel_quiet P address pid s, ?_⟩
  simp only [pteditResolve, kernel.resolve]
  exact congrArg some (Prod.ext (pteditResolveKernel_entry P address pid s) rfl)

theorem pteditUpdate_kernel (kernel : Selected .kernel s) (address : Word) (pid : BitVec 32)
    (vm : Entry) :
    ∃ s₂, pteditUpdate P address pid vm s = some s₂ ∧
      s₂.kernel.mem = storeAll s.kernel.mem
        (updateStores P (resolvedVm P s.current address (pid.signExtend 64) s.kernel)
          { vm with vaddr := address, pid := pid.signExtend 64 }) := by
  refine ⟨_, ?_, pteditUpdateKernel_mem P address pid vm s⟩
  simp only [pteditUpdate, kernel.update]

/-- `PTEDIT_IMPL_KERNEL` writes back what it resolved. -/
theorem update_resolved_kernel (kernel : Selected .kernel s) (address : Word) (pid : BitVec 32)
    (mask : Word) :
    ∃ vm s₁ s₂, pteditResolve P address pid s = some (vm, s₁) ∧
      pteditUpdate P address pid { vm with valid := mask } s₁ = some s₂ ∧
      s₂.kernel.mem = s.kernel.mem := by
  obtain ⟨s₁, quiet, resolved⟩ := pteditResolve_kernel kernel address pid (P := P)
  obtain ⟨s₂, updated, stored⟩ := pteditUpdate_kernel (kernel.congr quiet.lib_eq) address pid
    { vmToUser s.kernel.mem (Entry.zeroed address (pid.signExtend 64))
        (resolvedVm P s.current address (pid.signExtend 64) s.kernel) with valid := mask } (P := P)
  refine ⟨_, s₁, s₂, resolved, updated, ?_⟩
  obtain ⟨k, quietKernel, rfl⟩ := quiet
  rw [stored, resolvedVm_congr P s.current address _ quietKernel.steady quietKernel.mem_eq,
    quietKernel.mem_eq]
  apply storeAll_of_present
  intro store member
  obtain ⟨level, reached, word⟩ :=
    level_of_updateStores (resolvedVm_inStep P s.current address _ s.kernel) member
  have copied := vmToUser_word s.kernel.mem (Entry.zeroed address (pid.signExtend 64))
    (resolvedVm P s.current address (pid.signExtend 64) s.kernel) level
  rw [reached] at copied
  rw [word]
  cases level <;> exact copied

end Kernel

/-- **Writing back what was resolved changes nothing.**  The record of a resolve, sent
back with any mask, leaves every byte of physical memory as it is, also where two
levels of the walk share a slot. -/
theorem update_resolved_unchanged (P : Platform) (s : System) (address : Word) (pid : BitVec 32)
    (mask : Word) (inUse : Uses P .user s ∨ Selected .kernel s) :
    ∃ vm s₁ s₂, pteditResolve P address pid s = some (vm, s₁) ∧
      pteditUpdate P address pid { vm with valid := mask } s₁ = some s₂ ∧
      s₂.kernel.mem = s.kernel.mem := by
  rcases inUse with pread | kernel
  · exact update_resolved_pread pread address pid mask
  · exact update_resolved_kernel kernel address pid mask

theorem update_resolved_unchanged_onePage :
    ∃ vm s₁ s₂, pteditResolve fourLevelPlatform 0 0 onePageSystem = some (vm, s₁) ∧
      pteditUpdate fourLevelPlatform 0 0 { vm with valid := 0x15 } s₁ = some s₂ ∧
      s₂.kernel.mem = onePageSystem.kernel.mem :=
  update_resolved_unchanged fourLevelPlatform onePageSystem 0 0 0x15
    (.inl ⟨⟨rfl, rfl⟩, 4096, rfl⟩)

/-! ## Update, then resolve -/

section ReadBack

variable {P : Platform} {s s' : System} {address : Word} {pid : BitVec 32} {current : Entry}

/-- The slots of any two levels of the record share no byte. -/
def SlotsApart (P : Platform) (address : Word) (pid : BitVec 32) (s : System) (current : Entry) :
    Prop :=
  ∀ level other, marks current.valid level = true → marks current.valid other = true →
    level ≠ other →
      Apart (slotIn P address pid s current level) (slotIn P address pid s current other)

/-- In the tables of an aligned root, different slots are apart. -/
theorem slotsApart_of_ne (aligned : Aligned ((walkRoot P pid s).1 &&& ~~~1#64))
    (distinct : ∀ level other, marks current.valid level = true →
      marks current.valid other = true → level ≠ other →
        slotIn P address pid s current level ≠ slotIn P address pid s current other) :
    SlotsApart P address pid s current := by
  intro level other marked otherMarked ne
  exact apart_of_aligned (slotOf_aligned _ _ _ aligned _ _) (slotOf_aligned _ _ _ aligned _ _)
    (distinct level other marked otherMarked ne)

/-- The table entries to be written steer a walk as the entries in place do. -/
def KeepsCourse (P : Platform) (current vm : Entry) : Prop :=
  ∀ level, level ≠ .pte → marks vm.valid level = true → marks current.valid level = true →
    Steers P.arch (current.word level) (vm.word level)

theorem storesIn_apart (apart : SlotsApart P address pid s current) (vm : Entry) :
    PairwiseApart (storesIn P address pid s current vm) := by
  rw [storesIn, PairwiseApart, List.pairwise_map]
  refine (written_nodup current vm).imp_of_mem ?_
  intro level other selected otherSelected ne
  exact apart level other (mem_written.mp selected).2 (mem_written.mp otherSelected).2 ne

/-- What the stores leave in the slot of a level. -/
theorem read64_storesIn (apart : SlotsApart P address pid s current)
    (walked : ResolvedIn P address pid s current) (vm : Entry) {level : Level}
    (marked : marks current.valid level = true) :
    read64 (storeAll s.kernel.mem (storesIn P address pid s current vm))
        (slotIn P address pid s current level) =
      if marks vm.valid level then vm.word level else current.word level := by
  by_cases selected : marks vm.valid level = true
  · rw [if_pos selected]
    apply read64_storeAll_mem _ (storesIn_apart apart vm)
    exact List.mem_map.mpr ⟨level, mem_written.mpr ⟨selected, marked⟩, rfl⟩
  · rw [if_neg selected, walked.word_eq marked]
    apply read64_storeAll_apart
    intro store member
    obtain ⟨other, otherWritten, rfl⟩ := List.mem_map.mp member
    obtain ⟨otherSelected, otherMarked⟩ := mem_written.mp otherWritten
    apply apart other level otherMarked marked
    rintro rfl
    exact selected otherSelected

/-- The walk of the updated memory visits the slots of the old one. -/
theorem walkSlots_updated (apart : SlotsApart P address pid s current)
    (walked : ResolvedIn P address pid s current) {vm : Entry} (course : KeepsCourse P current vm) :
    walkSlots P.arch s.lib.pagingDefinition
        (read64 (storeAll s.kernel.mem (storesIn P address pid s current vm))) address
        (walkRoot P pid s).1 =
      walkSlots P.arch s.lib.pagingDefinition (read64 s.kernel.mem) address
        (walkRoot P pid s).1 := by
  have alike : ∀ slot ∈ walkSlots P.arch s.lib.pagingDefinition (read64 s.kernel.mem) address
        (walkRoot P pid s).1, slot.1 ≠ .pte →
      Steers P.arch (read64 s.kernel.mem slot.2)
        (read64 (storeAll s.kernel.mem (storesIn P address pid s current vm)) slot.2) := by
    rintro ⟨level, slot⟩ member notPte
    have marked : marks current.valid level = true := by
      rw [walked.valid]
      exact (marks_maskOf _ level).mpr ⟨slot, member⟩
    have here : slot = slotIn P address pid s current level := walked.slots _ member
    have old : current.word level = read64 s.kernel.mem slot := walked.words _ member
    rw [← old, here, read64_storesIn apart walked vm marked]
    split
    · rename_i selected
      exact course level notPte selected marked
    · exact Steers.refl P.arch _
  rcases walkSlots_first P.arch s.lib.pagingDefinition (read64 s.kernel.mem) address
    (walkRoot P pid s).1 with empty | first
  · rw [storesIn, walked.written_nil vm empty]
    rfl
  · have firstAlike := alike _ first (by simp)
    exact walkSlots_steered firstAlike alike

end ReadBack

/-- **The next resolve reads the update.**  With the slots of the resolved levels
apart and the table entries kept on course, a resolve after an update returns the
mask of the one before it, the new word at every selected level and the old word at
the others, and no byte outside the written slots has changed. -/
theorem resolve_reads_update (P : Platform) (s : System) (address : Word) (pid : BitVec 32)
    (current vm : Entry) (s₁ : System) (pread : Uses P .user s)
    (resolved : pteditResolve P address pid s = some (current, s₁))
    (apart : SlotsApart P address pid s current) (course : KeepsCourse P current vm) :
    ∃ s₂ updated s₃, pteditUpdate P address pid vm s = some s₂ ∧
      pteditResolve P address pid s₂ = some (updated, s₃) ∧
      updated.valid = current.valid ∧
      (∀ level, marks current.valid level = true →
        updated.word level = if marks vm.valid level then vm.word level else current.word level) ∧
      ∀ x, (∀ level, marks vm.valid level = true → marks current.valid level = true →
          8#64 ≤ x - slotIn P address pid s current level) →
        s₂.kernel.mem x = s.kernel.mem x := by
  obtain ⟨current', s', resolved', -, walked⟩ := pteditResolve_pread pread address pid
  cases resolved.symm.trans resolved'
  obtain ⟨s₂, update, steady, stored⟩ := pteditUpdate_pread pread resolved walked vm
  obtain ⟨updated, s₃, again, -, rewalked⟩ :=
    pteditResolve_pread (pread.steady steady) address pid
  have sameSlots := walkSlots_updated apart walked course
  simp only [ResolvedIn, steady.lib_eq, steady.walkRoot_eq P pid, stored] at rewalked
  refine ⟨s₂, updated, s₃, update, again, ?_, ?_, ?_⟩
  · rw [rewalked.valid, sameSlots, walked.valid]
  · intro level marked
    have member := walked.mem_of_marked marked
    rw [← sameSlots] at member
    rw [← read64_storesIn apart walked vm marked]
    exact rewalked.words _ member
  · intro x outside
    rw [stored]
    apply storeAll_outside
    intro store member
    obtain ⟨level, selected, rfl⟩ := List.mem_map.mp member
    exact outside level (mem_written.mp selected).1 (mem_written.mp selected).2

def onePageEntry : Entry :=
  { pid := 0, vaddr := 0, pgd := 0x2007, p4d := 0x2007, pud := 0x3007, pmd := 0x4007,
    pte := 0x5007, valid := 0x1d }

theorem resolve_onePage :
    pteditResolve fourLevelPlatform 0 0 onePageSystem = some (onePageEntry, onePageSystem) := by
  have walked : resolveUserExt .x86_64 .x86_64 (physReadPread onePageMem) 0 0x1000 0 =
      some onePageEntry := by decide +kernel
  have root : walkRoot fourLevelPlatform 0 onePageSystem = (0x1000, onePageSystem) := if_pos rfl
  show (pteditResolveUserExt fourLevelPlatform physReadPread 0 0 onePageSystem) = _
  simp only [pteditResolveUserExt, root]
  exact congrArg (Option.map fun resolved => (resolved, onePageSystem)) walked

theorem slotsApart_onePage : SlotsApart fourLevelPlatform 0 0 onePageSystem onePageEntry := by
  apply slotsApart_of_ne (by decide +kernel)
  intro level other
  cases level <;> cases other <;> decide +kernel

/-- Two table entries with other flags and a PTE for another frame. -/
def onePageUpdate : Entry :=
  { onePageEntry with pgd := 0x2027, pmd := 0x4063, pte := 0x9005, valid := 0x19 }

theorem resolve_reads_update_onePage :
    ∃ s₂ updated s₃,
      pteditUpdate fourLevelPlatform 0 0 onePageUpdate onePageSystem = some s₂ ∧
      pteditResolve fourLevelPlatform 0 0 s₂ = some (updated, s₃) ∧
      updated.valid = 0x1d ∧
      (∀ level, marks 0x1d level = true →
        updated.word level = if marks 0x19 level then onePageUpdate.word level
          else onePageEntry.word level) ∧
      ∀ x, (∀ level, marks 0x19 level = true → marks 0x1d level = true →
          8#64 ≤ x - slotIn fourLevelPlatform 0 0 onePageSystem onePageEntry level) →
        s₂.kernel.mem x = onePageMem x := by
  have course : KeepsCourse fourLevelPlatform onePageEntry onePageUpdate := by
    intro level
    cases level <;> intro notPte _ _
    · exact ⟨by decide, by decide, fun _ => by decide⟩
    · exact ⟨by decide, by decide, fun _ => by decide⟩
    · exact ⟨by decide, by decide, fun _ => by decide⟩
    · exact ⟨by decide, by decide, fun _ => by decide⟩
    · contradiction
  exact resolve_reads_update fourLevelPlatform onePageSystem 0 0 onePageEntry onePageUpdate
    onePageSystem ⟨⟨rfl, rfl⟩, 4096, rfl⟩ resolve_onePage slotsApart_onePage course

end PTEditor.Library.WriteBack
