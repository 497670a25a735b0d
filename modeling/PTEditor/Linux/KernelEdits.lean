/-
# PTEditor.Linux.KernelEdits -- the requests of the device as edits of the radix tables

`PTEditor.Library.PageMap` reads the PTE calls of the user-space implementation as edits
of a radix tree.  Here the same is done for the two requests behind the calls of
`PTEDIT_IMPL_KERNEL`, on a 4-level machine and for orderly walks: `VM_RESOLVE` reads the
leaf entry (`vmResolve_leaf`), `VM_UPDATE` with the PTE mask stores it
(`vmUpdate_tables`), and neither spoils the walks of other addresses
(`OrderlyWalk.leafEdit`).
-/
import PTEditor.Library.PageMap
import PTEditor.Linux.Agreement

namespace PTEditor.Linux.KernelEdits

open PTEditor.Theory.ByteMemory PTEditor.Theory.RadixTree PTEditor.Interface PTEditor.Module
open PTEditor.Library PTEditor.Library.X86Walk PTEditor.Library.PageMap PTEditor.Linux.Agreement

set_option autoImplicit false

def leafEdit (addr : Word) (change : Word → Word) : Edit Index Word :=
  ⟨addressPath addr, addressIndex .pte addr, change⟩

def leafAt (mem : Mem) (root addr : Word) : Option Word :=
  entryAt follow (tables mem) (rootFrame root) (addressPath addr) (addressIndex .pte addr)

/-! ## The leaf an orderly walk ends in -/

section Leaf

variable {P : Platform} {mem : Mem} {root addr : Word}

/-- The table of PTEs is reached unless an entry is zero or the PMD is large. -/
theorem frameAt_orderly (orderly : OrderlyWalk P mem root addr) :
    frameAt follow (tables mem) (rootFrame root) (addressPath addr) =
      if pgdEntry mem root addr = 0 ∨ pudEntry mem root addr = 0 ∨ pmdEntry mem root addr = 0 ∨
        (pmdEntry mem root addr).getLsbD 7 = true then none
      else some (tableFrame (pmdEntry mem root addr)) := by
  have pgdRead : tables mem (rootFrame root) (addressIndex .pgd addr) = pgdEntry mem root addr := rfl
  have pudRead : tables mem (tableFrame (pgdEntry mem root addr)) (addressIndex .pud addr) =
      pudEntry mem root addr := rfl
  have pmdRead : tables mem (tableFrame (pudEntry mem root addr)) (addressIndex .pmd addr) =
      pmdEntry mem root addr := rfl
  rw [addressPath, frameAt_three, frameAt_two, frameAt_one, pgdRead]
  by_cases pgdZero : pgdEntry mem root addr = 0
  · simp [pgdZero]
  have pgdPresent : isPresent .x86_64 (pgdEntry mem root addr) = true := by
    rw [orderly.pgd.isPresent]
    exact decide_eq_true pgdZero
  rw [follow_present 0 (by decide) pgdPresent, Option.bind_some, pudRead]
  by_cases pudZero : pudEntry mem root addr = 0
  · simp [pudZero]
  have pudPresent : isPresent .x86_64 (pudEntry mem root addr) = true := by
    rw [(orderly.pud pgdZero).isPresent]
    exact decide_eq_true pudZero
  rw [follow_present 1 (by decide) pudPresent, Option.bind_some, pmdRead]
  by_cases pmdZero : pmdEntry mem root addr = 0
  · simp [pmdZero]
  have pmdPresent : isPresent .x86_64 (pmdEntry mem root addr) = true := by
    rw [(orderly.pmd pgdZero pudZero).isPresent]
    exact decide_eq_true pmdZero
  cases large : (pmdEntry mem root addr).getLsbD 7 with
  | true =>
      rw [follow_large (by rw [stopsAtPmd_x86_64, large])]
      simp
  | false =>
      rw [follow_small pmdPresent (by rw [stopsAtPmd_x86_64, large])]
      simp only [pgdZero, pudZero, pmdZero, Bool.false_eq_true, or_self, if_false]

/-- There is a leaf if the walk gets past a small PMD. -/
theorem leafAt_isSome (orderly : OrderlyWalk P mem root addr) :
    (leafAt mem root addr).isSome ↔
      pgdEntry mem root addr ≠ 0 ∧ pudEntry mem root addr ≠ 0 ∧ pmdEntry mem root addr ≠ 0 ∧
        (pmdEntry mem root addr).getLsbD 7 = false := by
  rw [leafAt, entryAt, Option.isSome_map, frameAt_orderly orderly]
  split
  · rename_i stops
    simp only [Option.isSome_none, Bool.false_eq_true, false_iff]
    rintro ⟨pgd, pud, pmd, small⟩
    simp only [pgd, pud, pmd, small, Bool.false_eq_true, or_self] at stops
  · rename_i passes
    simpa only [Option.isSome_some, true_iff, not_or, Bool.not_eq_true] using passes

/-- The kernel's pointer to the PTE is the slot the radix walk ends in. -/
theorem kernelVm_pte (orderly : OrderlyWalk P mem root addr) (pid : Word) :
    (kernelVm mem root addr pid).slot .pte = PageMap.pteSlot mem root addr := by
  rw [PageMap.pteSlot, frameAt_orderly orderly]
  simp only [kernelVm]
  by_cases pgdZero : pgdEntry mem root addr = 0
  · simp only [pgdZero, true_or, if_true]
    simp
  by_cases pudZero : pudEntry mem root addr = 0
  · simp only [pgdZero, pudZero, true_or, or_true, if_true, if_false]
    simp
  by_cases pmdZero : pmdEntry mem root addr = 0
  · simp only [pgdZero, pudZero, pmdZero, true_or, or_true, if_true, if_false]
    simp
  cases large : (pmdEntry mem root addr).getLsbD 7 with
  | true =>
      simp only [pgdZero, pudZero, pmdZero, or_true, if_true, if_false]
      simp
  | false =>
      simp only [pgdZero, pudZero, pmdZero, Bool.false_eq_true, or_self, if_false]
      simp

/-- The kernel marks the PTE exactly if the radix walk reaches its table. -/
theorem kernelVm_marks_pte (orderly : OrderlyWalk P mem root addr) (pid : Word) :
    marks (kernelVm mem root addr pid).valid .pte = (PageMap.pteSlot mem root addr).isSome := by
  rw [kernelVm_inStep mem root addr pid .pte, kernelVm_pte orderly]

end Leaf

/-! ## The requests -/

section Requests

variable {P : Platform} {k : Kernel} {current : Process} {pid root addr : Word} {mm : Mm}

/-- The request names an address space, and its root is usable. -/
structure Names (P : Platform) (k : Kernel) (current : Process) (pid root : Word) (mm : Mm) :
    Prop where
  named : k.getMm current pid = some mm
  rooted : P.virtToPhys (k.pgd mm) = root
  good : GoodRoot root

theorem Names.steady {k' : Kernel} (names : Names P k current pid root mm)
    (steady : k.Steady k') : Names P k' current pid root mm := by
  refine ⟨?_, ?_, names.good⟩
  · rw [steady.getMm_eq]
    exact names.named
  · rw [steady.pgd_eq]
    exact names.rooted

/-- The record of a resolve, from the entries of the walk. -/
theorem vmResolve_record (four : FourLevel P) (names : Names P k current pid root mm)
    (orderly : OrderlyWalk P k.mem root addr) :
    (ioctlVmResolve P current (Entry.zeroed addr pid) k).2.1 =
      vmToUser k.mem (Entry.zeroed addr pid) (kernelVm k.mem root addr pid) := by
  have entry := ioctlVmResolve_entry P current (Entry.zeroed addr pid) k names.named
  rw [names.rooted] at entry
  have walk : (walkPgd P k.mem addr root (Vm.cleared pid)).1 = kernelVm k.mem root addr pid :=
    walkPgd_orderly four names.good.aligned orderly pid
  rw [← walk]
  exact entry

/-- **`VM_RESOLVE` reads the leaf entry**, and marks the PTE if there is one. -/
theorem vmResolve_leaf (four : FourLevel P) (names : Names P k current pid root mm)
    (orderly : OrderlyWalk P k.mem root addr) :
    marks (ioctlVmResolve P current (Entry.zeroed addr pid) k).2.1.valid .pte =
        (leafAt k.mem root addr).isSome ∧
      (ioctlVmResolve P current (Entry.zeroed addr pid) k).2.1.pte =
        (leafAt k.mem root addr).getD 0 := by
  have leaf : leafAt k.mem root addr = (PageMap.pteSlot k.mem root addr).map (read64 k.mem) := by
    rw [PageMap.pteSlot, Option.map_map]
    rfl
  rw [vmResolve_record four names orderly, leaf]
  constructor
  · rw [vmToUser_valid, kernelVm_marks_pte orderly, Option.isSome_map]
  · have word := vmToUser_word k.mem (Entry.zeroed addr pid) (kernelVm k.mem root addr pid) .pte
    rw [kernelVm_pte orderly] at word
    exact word

/-- As far as the walk goes, its record has the entries it goes through. -/
theorem vmResolve_upper (four : FourLevel P) (names : Names P k current pid root mm)
    (orderly : OrderlyWalk P k.mem root addr) (pgd : pgdEntry k.mem root addr ≠ 0)
    (pud : pudEntry k.mem root addr ≠ 0) (pmd : pmdEntry k.mem root addr ≠ 0) :
    (ioctlVmResolve P current (Entry.zeroed addr pid) k).2.1.pgd = pgdEntry k.mem root addr ∧
      (ioctlVmResolve P current (Entry.zeroed addr pid) k).2.1.pmd = pmdEntry k.mem root addr := by
  have pgdSlot : (kernelVm k.mem root addr pid).slot .pgd =
      some (slot (rootFrame root) (addressIndex .pgd addr)) := by
    simp only [kernelVm, pgd, pud, pmd, if_false]
    split <;> simp
  have pmdSlot : (kernelVm k.mem root addr pid).slot .pmd =
      some (slot (tableFrame (pudEntry k.mem root addr)) (addressIndex .pmd addr)) := by
    simp only [kernelVm, pgd, pud, pmd, if_false]
    split <;> simp
  have word := vmToUser_word k.mem (Entry.zeroed addr pid) (kernelVm k.mem root addr pid)
  have pgdWord := word .pgd
  have pmdWord := word .pmd
  rw [pgdSlot] at pgdWord
  rw [pmdSlot] at pmdWord
  rw [vmResolve_record four names orderly]
  exact ⟨pgdWord, pmdWord⟩

/-- **`VM_UPDATE` with the PTE mask is an edit of the leaf.** -/
theorem vmUpdate_tables (four : FourLevel P) (names : Names P k current pid root mm)
    (orderly : OrderlyWalk P k.mem root addr) (vm : Entry) (selected : vm.valid = Level.pte.mask)
    (sentAddr : vm.vaddr = addr) (sentPid : vm.pid = pid) :
    tables (ioctlVmUpdate P current vm k).2.mem =
      editStep follow (rootFrame root) (tables k.mem) (leafEdit addr fun _ => vm.pte) := by
  subst sentAddr sentPid
  have walk := walkPgd_orderly four names.good.aligned orderly vm.pid
  have mem : (ioctlVmUpdate P current vm k).2.mem =
      storeAll k.mem (updateStores P (kernelVm k.mem root vm.vaddr vm.pid) vm) := by
    have updated := updateVm_mem P current vm (!k.mmIsLocked) k names.named
    rw [oldEntryOf, names.rooted, walk] at updated
    exact updated
  have inStep := kernelVm_inStep k.mem root vm.vaddr vm.pid
  have others : ∀ level, level ≠ .pte →
      levelStore (kernelVm k.mem root vm.vaddr vm.pid) vm level = [] := by
    intro level ne
    apply levelStore_unselected
    rw [selected, marks_mask]
    exact decide_eq_false ne
  have pte : marks vm.valid .pte = true := by
    rw [selected, marks_mask]
    rfl
  rw [mem, updateStores, others .pgd (by decide), others .p4d (by decide), others .pud (by decide),
    others .pmd (by decide), ite_self]
  simp only [List.nil_append, editStep, leafEdit]
  have slot := kernelVm_pte orderly vm.pid
  rw [PageMap.pteSlot] at slot
  cases reached : frameAt follow (tables k.mem) (rootFrame root) (addressPath vm.vaddr) with
  | none =>
      rw [reached, Option.map_none] at slot
      rw [levelStore_none inStep vm slot, storeAll_nil]
  | some frame =>
      rw [reached, Option.map_some] at slot
      rw [levelStore_some inStep vm slot, pte, if_pos rfl, storeAll_cons, storeAll_nil,
        tables_write64]
      rfl

end Requests

/-! ## Orderly walks and leaf edits -/

section Edits

variable {P : Platform} {mem mem' : Mem} {root : Word}

/-- The entries of an orderly walk are entries of the radix tables, which a memory with the same
entries above the leaves shares. -/
theorem pgdEntry_of_inner (addr : Word)
    (inner : ∀ path i, path.length < 3 → entryAt follow (tables mem') (rootFrame root) path i =
      entryAt follow (tables mem) (rootFrame root) path i) :
    pgdEntry mem' root addr = pgdEntry mem root addr :=
  Option.some.inj (inner [] (addressIndex .pgd addr) (by decide))

theorem pudEntry_of_inner {addr : Word}
    (inner : ∀ path i, path.length < 3 → entryAt follow (tables mem') (rootFrame root) path i =
      entryAt follow (tables mem) (rootFrame root) path i)
    (pgdPresent : isPresent .x86_64 (pgdEntry mem root addr) = true) :
    pudEntry mem' root addr = pudEntry mem root addr := by
  have same := inner [addressIndex .pgd addr] (addressIndex .pud addr) (show 1 < 3 by decide)
  have pgd := pgdEntry_of_inner addr inner
  have read : ∀ m, tables m (rootFrame root) (addressIndex .pgd addr) = pgdEntry m root addr :=
    fun _ => rfl
  simp only [entryAt, frameAt_one, read, pgd, follow_present 0 (by decide) pgdPresent,
    Option.map_some, Option.some.injEq] at same
  simp only [pudEntry, pgd]
  exact same

theorem pmdEntry_of_inner {addr : Word}
    (inner : ∀ path i, path.length < 3 → entryAt follow (tables mem') (rootFrame root) path i =
      entryAt follow (tables mem) (rootFrame root) path i)
    (pgdPresent : isPresent .x86_64 (pgdEntry mem root addr) = true)
    (pudPresent : isPresent .x86_64 (pudEntry mem root addr) = true) :
    pmdEntry mem' root addr = pmdEntry mem root addr := by
  have same := inner [addressIndex .pgd addr, addressIndex .pud addr] (addressIndex .pmd addr)
    (show 2 < 3 by decide)
  have pgd := pgdEntry_of_inner addr inner
  have pud := pudEntry_of_inner inner pgdPresent
  have readPgd : ∀ m, tables m (rootFrame root) (addressIndex .pgd addr) = pgdEntry m root addr :=
    fun _ => rfl
  have readPud : ∀ m, tables m (tableFrame (pgdEntry m root addr)) (addressIndex .pud addr) =
      pudEntry m root addr := fun _ => rfl
  have readPud' := readPud mem'
  rw [pgd, pud] at readPud'
  simp only [entryAt, frameAt_two, frameAt_one, readPgd, pgd,
    follow_present 0 (by decide) pgdPresent, Option.bind_some, readPud, readPud',
    follow_present 1 (by decide) pudPresent, Option.map_some, Option.some.injEq] at same
  simp only [pmdEntry, pud]
  exact same

/-- Leaf edits keep walks orderly. -/
theorem orderlyWalk_of_inner {addr : Word} (orderly : OrderlyWalk P mem root addr)
    (inner : ∀ path i, path.length < 3 → entryAt follow (tables mem') (rootFrame root) path i =
      entryAt follow (tables mem) (rootFrame root) path i) : OrderlyWalk P mem' root addr := by
  have pgd := pgdEntry_of_inner addr inner
  have pud : pgdEntry mem root addr ≠ 0 → pudEntry mem' root addr = pudEntry mem root addr := by
    intro nonzero
    apply pudEntry_of_inner inner
    rw [orderly.pgd.isPresent]
    exact decide_eq_true nonzero
  have pmd : pgdEntry mem root addr ≠ 0 → pudEntry mem root addr ≠ 0 →
      pmdEntry mem' root addr = pmdEntry mem root addr := by
    intro pgdNonzero pudNonzero
    apply pmdEntry_of_inner inner
    · rw [orderly.pgd.isPresent]
      exact decide_eq_true pgdNonzero
    · rw [(orderly.pud pgdNonzero).isPresent]
      exact decide_eq_true pudNonzero
  refine ⟨?_, ?_, ?_, ?_, ?_, ?_, ?_, ?_⟩
  · rw [pgd]
    exact orderly.pgd
  · rw [pgd]
    exact orderly.pgdNarrow
  · rw [pgd]
    exact orderly.pgdNotBad
  · intro nonzero
    rw [pgd] at nonzero
    rw [pud nonzero]
    exact orderly.pud nonzero
  · intro nonzero
    rw [pgd] at nonzero
    rw [pud nonzero]
    exact orderly.pudNarrow nonzero
  · intro nonzero
    rw [pgd] at nonzero
    rw [pud nonzero]
    exact orderly.pudSmall nonzero
  · intro pgdNonzero pudNonzero
    rw [pgd] at pgdNonzero
    rw [pud pgdNonzero] at pudNonzero
    rw [pmd pgdNonzero pudNonzero]
    exact orderly.pmd pgdNonzero pudNonzero
  · intro pgdNonzero pudNonzero
    rw [pgd] at pgdNonzero
    rw [pud pgdNonzero] at pudNonzero
    rw [pmd pgdNonzero pudNonzero]
    exact orderly.pmdNarrow pgdNonzero pudNonzero

theorem orderlyWalk_leafEdit {addr : Word} (orderly : OrderlyWalk P mem root addr)
    (shaped : TreeShapedMemory mem root) {b : Word} {change : Word → Word}
    (edited : tables mem' = editStep follow (rootFrame root) (tables mem) (leafEdit b change)) :
    OrderlyWalk P mem' root addr := by
  apply orderlyWalk_of_inner orderly
  intro path i bound
  rw [edited]
  exact entryAt_editStep_inner shaped _ rfl path bound i

theorem treeShaped_leafEdit (shaped : TreeShapedMemory mem root) {b : Word} {change : Word → Word}
    (edited : tables mem' = editStep follow (rootFrame root) (tables mem) (leafEdit b change)) :
    TreeShapedMemory mem' root := by
  unfold TreeShapedMemory
  rw [edited]
  exact treeShaped_editStep shaped _ rfl

/-- A leaf edit is seen by the addresses of its page, and by no others. -/
theorem leafAt_leafEdit (shaped : TreeShapedMemory mem root) {b : Word} {change : Word → Word}
    (edited : tables mem' = editStep follow (rootFrame root) (tables mem) (leafEdit b change))
    (addr : Word) :
    leafAt mem' root addr =
      (leafAt mem root addr).map fun w => if samePage b addr then change w else w := by
  unfold leafAt
  rw [edited, entryAt_editStep_leaf shaped (leafEdit b change) rfl (addressPath addr) rfl]
  refine congrArg (Option.map · _) (funext fun w => ?_)
  exact if_congr (samePage_iff b addr).symm rfl rfl

end Edits

end PTEditor.Linux.KernelEdits
