/-
# PTEditor.Linux.LargePages -- do the walks stop at large pages?

An entry of the upper levels either points to a table or maps a large page; the
walks must not take the page for a table.

* The user-space walk asks for the size bit at the PMD only: `honoursSize_iff`
  says that it treats a page as a table exactly if a PGD or PUD entry it goes
  through has the bit.
* The kernel module asks at the PUD and at the PMD, through `pud_large` and
  `pmd_large`; on aarch64 these are its own and answer no.  `stopsAtLarge_iff`
  says when that shows.
-/
import PTEditor.Linux.MappedWalk

namespace PTEditor.Linux.LargePages

open PTEditor.Theory.ByteMemory PTEditor.Interface PTEditor.Module
open PTEditor.Library PTEditor.Library.X86Walk PTEditor.Linux.MappedWalk

set_option autoImplicit false

/-! ## The user-space walk -/

/-- The address bits inside the page that the entry above a level maps if it is
large: 1 GiB above the PMD, 2 MiB above the PTE. -/
def pageBits : Level → Nat
  | .pgd => 48
  | .p4d => 39
  | .pud => 39
  | .pmd => 30
  | .pte => 21

/-- `a` lies in the frame a step of the walk goes to, taken for a large page. -/
def InFrame (step : Level × Word) (a : Word) : Prop :=
  a.toNat / 2 ^ pageBits step.1 = (castPfn .x86_64 step.2).toNat * 4096 / 2 ^ pageBits step.1

/-- No large page is treated as a page table, by the walk of an address or by an
update after it. -/
structure HonoursSize (mem : Mem) (root addr : Word) (pid : BitVec 32) : Prop where
  pud : ∀ current,
    resolveUserExt .x86_64 .x86_64 (physReadPread mem) addr root pid = some current →
    marks current.valid .pud = true → isPresent .x86_64 current.pud = true →
    castSize current.pud ≠ 0 →
      marks current.valid .pmd = false ∧ marks current.valid .pte = false ∧
        ∀ a ∈ walkReads .x86_64 .x86_64 (read64 mem) addr root, ¬ InFrame (.pmd, current.pud) a
  pmd : ∀ current,
    resolveUserExt .x86_64 .x86_64 (physReadPread mem) addr root pid = some current →
    marks current.valid .pmd = true → isPresent .x86_64 current.pmd = true →
    castSize current.pmd ≠ 0 → marks current.valid .pte = false
  update : ∀ current,
    resolveUserExt .x86_64 .x86_64 (physReadPread mem) addr root pid = some current →
    ∀ step ∈ path mem addr (root &&& ~~~1#64), castSize step.2 ≠ 0 →
      ∀ vm, ∀ store ∈ userStores .x86_64 .x86_64 addr (root &&& ~~~1#64) current vm,
        ¬ InFrame step store.1

section User

variable {mem : Mem} {root addr : Word} {pid : BitVec 32} {current : Entry}

/-- A step reads inside the frame its entry names. -/
theorem inFrame_stepSlot (addr : Word) (step : Level × Word) :
    InFrame step (stepSlot addr step) := by
  have bound := (addressIndex step.1 addr).isLt
  have frame := castPfn_lt step.2
  have page : (stepSlot addr step).toNat / 4096 = (castPfn .x86_64 step.2).toNat := by
    simp only [stepSlot, slot_toNat, tableFrame, BitVec.toNat_setWidth]
    omega
  have split : ∀ n, n / 2 ^ pageBits step.1 = n / 4096 / 2 ^ (pageBits step.1 - 12) := by
    intro n
    rw [Nat.div_div_eq_div_mul]
    congr 1
    cases step.1 <;> rfl
  rw [InFrame, split, split (_ * 4096), page, Nat.mul_div_cancel _ (by decide)]

theorem castSize_stopsAtPmd (entry : Word) :
    stopsAtPmd .x86_64 entry = true ↔ castSize entry ≠ 0 := by
  simp [stopsAtPmd]

def selectAll (entry : Entry) : Entry := { entry with valid := 0x1f }

theorem marks_selectAll (entry : Entry) (level : Level) :
    marks (selectAll entry).valid level = true := by
  show marks 0x1f level = true
  cases level <;> decide

/-- An update that selects every level stores into the table of every step. -/
theorem step_stored
    (walked : resolveUserExt .x86_64 .x86_64 (physReadPread mem) addr root pid = some current)
    (nonzero : root &&& ~~~1#64 ≠ 0) {step : Level × Word}
    (made : step ∈ path mem addr (root &&& ~~~1#64)) :
    (stepSlot addr step, (selectAll current).word step.1) ∈
      userStores .x86_64 .x86_64 addr (root &&& ~~~1#64) current (selectAll current) := by
  obtain ⟨level, parent⟩ := step
  obtain ⟨below, marked, same⟩ := (mem_path walked nonzero _).mp made
  have selected := marks_selectAll current level
  simp only at below marked same selected
  simp only [userStores, updateSlot_x86_64, List.mem_append, stepSlot, same]
  simp only [List.mem_cons, List.not_mem_nil, or_false] at below
  rcases below with rfl | rfl | rfl
  · refine .inr (.inr (.inl ?_))
    rw [show PagingDefinition.x86_64.hasPud = true from rfl, guardedStore_marked _ _ marked,
      if_pos selected]
    exact List.mem_singleton_self _
  · refine .inr (.inl ?_)
    rw [show PagingDefinition.x86_64.hasPmd = true from rfl, guardedStore_marked _ _ marked,
      if_pos selected]
    exact List.mem_singleton_self _
  · refine .inl ?_
    rw [guardedStore_marked _ _ marked, if_pos selected]
    exact List.mem_singleton_self _

/-- Without a root nothing is read and nothing is marked. -/
theorem walked_rootless
    (walked : resolveUserExt .x86_64 .x86_64 (physReadPread mem) addr root pid = some current)
    (zero : root &&& ~~~1#64 = 0) (level : Level) : marks current.valid level = false := by
  simp only [resolveUserExt, zero, if_true, Option.some.injEq] at walked
  rw [← walked]
  show marks 0 level = false
  cases level <;> decide

theorem honoursSize_rootless (zero : root &&& ~~~1#64 = 0) : HonoursSize mem root addr pid := by
  refine ⟨?_, ?_, ?_⟩
  · intro current walked marked
    rw [walked_rootless walked zero] at marked
    cases marked
  · intro current walked marked
    rw [walked_rootless walked zero] at marked
    cases marked
  · intro current walked step _ _ vm store stored
    have nothing : userStores .x86_64 .x86_64 addr (root &&& ~~~1#64) current vm = [] := by
      simp only [userStores, guardedStore_unmarked vm _ _ (walked_rootless walked zero _),
        List.append_nil]
    rw [nothing] at stored
    cases stored

/-- **Large pages in the user-space walk.**  No large page is treated as a table
exactly if the process has no root, or no PGD or PUD entry that the walk of the
address goes through has the size bit. -/
theorem honoursSize_iff (mem : Mem) (root addr : Word) (pid : BitVec 32) :
    HonoursSize mem root addr pid ↔
      root &&& ~~~1#64 = 0 ∨
        ∀ step ∈ path mem addr (root &&& ~~~1#64), castSize step.2 = 0 := by
  by_cases zero : root &&& ~~~1#64 = 0
  · exact iff_of_true (honoursSize_rootless zero) (.inl zero)
  rw [or_iff_right zero]
  constructor
  · intro honours step made
    by_contra large
    have total : ∀ a, (physReadPread mem a).isSome := fun _ => rfl
    obtain ⟨current, walked⟩ := Option.isSome_iff_exists.mp
      (resolveUserExt_isSome .x86_64 .x86_64 addr total root pid)
    exact honours.update current walked step made large (selectAll current) _
      (step_stored walked zero made) (inFrame_stepSlot addr step)
  · intro small
    refine ⟨?_, ?_, ?_⟩
    · -- a present PUD entry is a step to the PMD, so it is not large
      intro current walked marked present large
      have pmdMarked : marks current.valid .pmd = true := by
        rw [(marked_below walked zero).1, marked]
        exact present
      have made : (Level.pmd, current.pud) ∈ path mem addr (root &&& ~~~1#64) :=
        (mem_path walked zero _).mpr ⟨List.mem_cons_of_mem _ List.mem_cons_self, pmdMarked, rfl⟩
      exact absurd (small _ made) large
    · intro current walked _ _ large
      have stops : stopsAtPmd .x86_64 (current.word .pmd) = true :=
        (castSize_stopsAtPmd _).mpr large
      rw [(marked_below walked zero).2.1, leads, stops]
      simp
    · intro current walked step made large
      exact absurd (small step made) large

def largePudMem : Mem :=
  storeAll (fun _ => 0) [(slot 1 0, 0x2007), (slot 2 0, 0x40000087)]

/-- A 1 GiB page at 1 GiB: the walk marks the PMD, and an update of the PMD writes
the first word of the page. -/
theorem largePud_taken_for_table :
    (resolveUserExt .x86_64 .x86_64 (physReadPread largePudMem) 0 0x1000 0).map
        (fun current => (userStores .x86_64 .x86_64 0 0x1000 current (selectAll current)).map
          Prod.fst) = some [0x40000000, 0x2000, 0x1000] ∧
      ¬ HonoursSize largePudMem 0x1000 0 0 := by
  refine ⟨by decide +kernel, ?_⟩
  intro honours
  have found : (resolveUserExt .x86_64 .x86_64 (physReadPread largePudMem) 0 0x1000 0).any
      (fun current => marks current.valid .pud && isPresent .x86_64 current.pud &&
        castSize current.pud != 0 && marks current.valid .pmd) = true := by
    decide +kernel
  obtain ⟨current, walked, facts⟩ := (Option.any_eq_true _ _).mp found
  simp only [Bool.and_eq_true, bne_iff_ne, ne_eq] at facts
  obtain ⟨⟨⟨pud, present⟩, large⟩, pmd⟩ := facts
  have unmarked := (honours.pud current walked pud present large).1
  rw [pmd] at unmarked
  cases unmarked

end User

/-! ## The kernel walk -/

/-- An entry that maps a large page: PSE on x86-64, a block descriptor on aarch64. -/
def largeEntry : Arch → Word → Bool
  | .x86_64, entry => entry.getLsbD 7
  | .aarch64, entry => entry &&& 3#64 == 1#64

/-- `resolve_vm` marks nothing below a large entry, and `update_vm` stores nothing
there. -/
structure StopsAtLarge (P : Platform) (mem : Mem) (vm : Vm) : Prop where
  pud : ∀ pud, vm.slot .pud = some pud → largeEntry P.arch (read64 mem pud) = true →
    ∀ level ∈ [Level.pmd, .pte],
      marks vm.valid level = false ∧ ∀ newEntry, levelStore vm newEntry level = []
  pmd : ∀ pmd, vm.slot .pmd = some pmd → largeEntry P.arch (read64 mem pmd) = true →
    marks vm.valid .pte = false ∧ ∀ newEntry, levelStore vm newEntry .pte = []

/-- The PUD slot of an address, if the entries above it are good and it is not none. -/
def reachedPud (P : Platform) (mem : Mem) (addr root : Word) : Option Word :=
  let pgd := P.helpers.pgdOffset root addr
  let p4d := P.helpers.p4dOffset mem pgd addr
  let pud := P.helpers.pudOffset mem (if P.hasP4d then p4d else pgd) addr
  if P.helpers.pgdNone (read64 mem pgd) || P.helpers.pgdBad (read64 mem pgd) then none
  else if P.hasP4d && (P.helpers.p4dNone (read64 mem p4d) || P.helpers.p4dBad (read64 mem p4d)) then
    none
  else if P.helpers.pudNone (read64 mem pud) then none
  else some pud

/-- The PMD entry is none, or the large ones of the two entries are seen: on x86-64
by the kernel's predicates, on aarch64 not at all. -/
def LargeSeen (P : Platform) (mem : Mem) (addr pud : Word) : Prop :=
  let pmd := P.helpers.pmdOffset mem pud addr
  let pudEntry := read64 mem pud
  let pmdEntry := read64 mem pmd
  P.helpers.pmdNone pmdEntry = true ∨
    match P.arch with
    | .x86_64 =>
        P.helpers.pudLarge pudEntry = true ∨
          (largeEntry .x86_64 pudEntry = false ∧
            (largeEntry .x86_64 pmdEntry = true → P.helpers.pmdLarge pmdEntry = true))
    | .aarch64 =>
        largeEntry .aarch64 pudEntry = false ∧ largeEntry .aarch64 pmdEntry = false

section Kernel

variable {P : Platform} {mem : Mem} {addr root : Word}

/-- The walk down to the PUD: what is left to do is `walkPmd`, if it gets there. -/
theorem walkPgd_reachedPud (P : Platform) (mem : Mem) (addr root pid : Word) :
    ∃ entry : Vm, entry.InStep ∧ entry.slot .pud = none ∧ entry.slot .pmd = none ∧
      entry.slot .pte = none ∧
      (walkPgd P mem addr root (Vm.cleared pid)).1 =
        match reachedPud P mem addr root with
        | none => entry
        | some pud => (walkPmd P mem addr pud (entry.reach .pud pud)).1 := by
  have start := Vm.cleared_inStep pid
  have pgdInStep := Vm.reach_inStep start .pgd (P.helpers.pgdOffset root addr)
  simp only [walkPgd, walkP4d, walkPud, reachedPud]
  by_cases pgd : (P.helpers.pgdNone (read64 mem (P.helpers.pgdOffset root addr)) ||
      P.helpers.pgdBad (read64 mem (P.helpers.pgdOffset root addr))) = true
  · exact ⟨_, start, rfl, rfl, rfl, by simp only [pgd, if_true]⟩
  · simp only [pgd]
    cases P.hasP4d with
    | false =>
        refine ⟨_, pgdInStep, rfl, rfl, rfl, ?_⟩
        simp only [Bool.false_and, Bool.false_eq_true, if_false]
        split
        · rfl
        · rfl
    | true =>
        simp only [Bool.true_and, if_true, Bool.false_eq_true, if_false]
        split
        · exact ⟨_, pgdInStep, rfl, rfl, rfl, rfl⟩
        · refine ⟨_, Vm.reach_inStep pgdInStep .p4d
            (P.helpers.p4dOffset mem (P.helpers.pgdOffset root addr) addr), rfl, rfl, rfl, ?_⟩
          split
          · rfl
          · rfl

/-- Whether a level is marked and stored to is a matter of its pointer. -/
theorem unreached_iff {vm : Vm} (inStep : vm.InStep) (level : Level) :
    (marks vm.valid level = false ∧ ∀ newEntry, levelStore vm newEntry level = []) ↔
      vm.slot level = none := by
  constructor
  · rintro ⟨unmarked, -⟩
    rw [inStep level] at unmarked
    exact Option.isNone_iff_eq_none.mp (by simpa using unmarked)
  · intro missed
    refine ⟨?_, fun newEntry => levelStore_none inStep newEntry missed⟩
    rw [inStep level, missed]
    rfl

theorem stopsAtLarge_slots {vm : Vm} (inStep : vm.InStep) :
    StopsAtLarge P mem vm ↔
      (∀ pud, vm.slot .pud = some pud → largeEntry P.arch (read64 mem pud) = true →
        vm.slot .pmd = none ∧ vm.slot .pte = none) ∧
      (∀ pmd, vm.slot .pmd = some pmd → largeEntry P.arch (read64 mem pmd) = true →
        vm.slot .pte = none) := by
  constructor
  · intro stops
    refine ⟨fun pud reached large => ⟨?_, ?_⟩, fun pmd reached large => ?_⟩
    · exact (unreached_iff inStep _).mp (stops.pud pud reached large .pmd (by decide))
    · exact (unreached_iff inStep _).mp (stops.pud pud reached large .pte (by decide))
    · exact (unreached_iff inStep _).mp (stops.pmd pmd reached large)
  · rintro ⟨belowPud, belowPmd⟩
    refine ⟨fun pud reached large level below => ?_, fun pmd reached large => ?_⟩
    · obtain ⟨noPmd, noPte⟩ := belowPud pud reached large
      simp only [List.mem_cons, List.not_mem_nil, or_false] at below
      rcases below with rfl | rfl
      · exact (unreached_iff inStep _).mpr noPmd
      · exact (unreached_iff inStep _).mpr noPte
    · exact (unreached_iff inStep _).mpr (belowPmd pmd reached large)

/-- The condition in the module's own `pud_large` and `pmd_large`. -/
theorem largeSeen_iff (pud : Word) :
    LargeSeen P mem addr pud ↔
      P.helpers.pmdNone (read64 mem (P.helpers.pmdOffset mem pud addr)) = true ∨
        P.pudLarge (read64 mem pud) = true ∨
        (largeEntry P.arch (read64 mem pud) = false ∧
          (largeEntry P.arch (read64 mem (P.helpers.pmdOffset mem pud addr)) = true →
            P.pmdLarge (read64 mem (P.helpers.pmdOffset mem pud addr)) = true)) := by
  simp only [LargeSeen, Platform.pudLarge, Platform.pmdLarge]
  cases P.arch with
  | x86_64 => exact Iff.rfl
  | aarch64 => simp

/-- From the PUD on: the two entries decide. -/
theorem walkPmd_stopsAtLarge_iff
    (mapped : ∀ mem pmd addr, (P.helpers.pteOffsetMap mem pmd addr).isSome = true) {entry : Vm}
    (inStep : entry.InStep) {pud : Word} (atPud : entry.slot .pud = some pud)
    (noPmd : entry.slot .pmd = none) (noPte : entry.slot .pte = none) :
    StopsAtLarge P mem (walkPmd P mem addr pud entry).1 ↔ LargeSeen P mem addr pud := by
  obtain ⟨pte, pteMapped⟩ := Option.isSome_iff_exists.mp
    (mapped mem (P.helpers.pmdOffset mem pud addr) addr)
  rw [largeSeen_iff, stopsAtLarge_slots ((walkPmd_descends P mem addr pud _).inStep inStep)]
  simp only [walkPmd, walkPte, pteMapped]
  generalize P.helpers.pmdOffset mem pud addr = pmd
  by_cases stops : (P.helpers.pmdNone (read64 mem pmd) || P.pudLarge (read64 mem pud)) = true
  · rw [if_pos stops]
    rw [Bool.or_eq_true] at stops
    refine iff_of_true ⟨fun _ _ _ => ⟨noPmd, noPte⟩, fun _ _ _ => noPte⟩ (stops.imp_right .inl)
  · rw [if_neg stops]
    simp only [Bool.or_eq_true, not_or] at stops
    rw [or_iff_right stops.1, or_iff_right stops.2]
    by_cases large : P.pmdLarge (read64 mem pmd) = true
    · simp [large, atPud, noPte]
    · simp [large, atPud]

/-- **Large pages in `resolve_vm` and `update_vm`.**  With a `pte_offset_map` that
always maps, nothing below a large entry is marked or stored to, exactly if the
address has no PUD entry, or its PMD entry is none, or the large ones of the two
are seen. -/
theorem stopsAtLarge_iff (P : Platform)
    (mapped : ∀ mem pmd addr, (P.helpers.pteOffsetMap mem pmd addr).isSome = true)
    (current : Process) (addr pid : Word) (lock : Bool) (k : Kernel) :
    StopsAtLarge P k.mem (resolveVm P current addr pid lock k).1 ↔
      ∀ mm ∈ k.getMm current pid, ∀ pud ∈ reachedPud P k.mem addr (P.virtToPhys (k.pgd mm)),
        LargeSeen P k.mem addr pud := by
  cases found : k.getMm current pid with
  | none =>
      have cleared : (resolveVm P current addr pid lock k).1 = Vm.cleared pid := by
        simp only [resolveVm, found]
      rw [cleared, stopsAtLarge_slots (Vm.cleared_inStep pid)]
      simp
  | some mm =>
      have inStep := (walkPgd_descends P k.mem addr (P.virtToPhys (k.pgd mm)) _).inStep
        (Vm.cleared_inStep pid)
      rw [resolveVm_vm P current addr pid lock k found]
      obtain ⟨entry, entryInStep, noPud, noPmd, noPte, walk⟩ :=
        walkPgd_reachedPud P k.mem addr (P.virtToPhys (k.pgd mm)) pid
      simp only [Option.mem_def, Option.some.injEq, forall_eq']
      cases reached : reachedPud P k.mem addr (P.virtToPhys (k.pgd mm)) with
      | none =>
          rw [stopsAtLarge_slots inStep, walk, reached]
          simp [noPud, noPmd]
      | some pud =>
          rw [walk, reached]
          simp only [Option.some.injEq, forall_eq']
          exact walkPmd_stopsAtLarge_iff mapped (Vm.reach_inStep entryInStep .pud pud)
            (by simp) (by simpa using noPmd) (by simpa using noPte)

/-- Kernels whose predicates test PSE see every large entry on x86-64. -/
theorem largeSeen_x86_64 (arch : P.arch = .x86_64)
    (pudLarge : ∀ pud, P.helpers.pudLarge pud = pud.getLsbD 7)
    (pmdLarge : ∀ pmd, P.helpers.pmdLarge pmd = pmd.getLsbD 7) (pud : Word) :
    LargeSeen P mem addr pud := by
  rw [largeSeen_iff]
  simp only [Platform.pudLarge, Platform.pmdLarge, arch, largeEntry, pudLarge, pmdLarge]
  cases (read64 mem pud).getLsbD 7 <;> simp

/-- An x86-64 process with a 1 GiB page at address 0. -/
theorem stopsAtLarge_largePud :
    StopsAtLarge fourLevelPlatform largePudMem
      (resolveVm fourLevelPlatform onePageProcess 0 0 true
        { onePageKernel with mem := largePudMem }).1 :=
  (stopsAtLarge_iff fourLevelPlatform (fun _ _ _ => rfl) onePageProcess 0 0 true
    { onePageKernel with mem := largePudMem }).mpr
      fun _ _ pud _ => largeSeen_x86_64 rfl (fun _ => rfl) (fun _ => rfl) pud

/-- Linux 5.15 on aarch64 with four levels of tables: a bad P4D is one that is not a
table descriptor. -/
def aarch64Platform : Platform :=
  { fourLevelPlatform with
    arch := .aarch64
    helpers := { fourLevelHelpers with p4dBad := fun p4d => !p4d.getLsbD 1 } }

/-- A process whose address 0 lies in a 2 MiB block at 2 MiB. -/
def blockKernel : Kernel :=
  { onePageKernel with
    mem := storeAll (fun _ => 0) [(slot 1 0, 0x2003), (slot 2 0, 0x3003), (slot 3 0, 0x200701)] }

/-- The PMD is a block descriptor: `resolve_vm` marks the PTE below it all the same,
and `update_vm` writes the first word of the block. -/
theorem block_taken_for_table :
    (resolveVm aarch64Platform onePageProcess 0 0 true blockKernel).1.valid = 0x1f ∧
      read64 (updateVm aarch64Platform onePageProcess
        { Entry.zeroed 0 0 with pte := 0x777, valid := Level.pte.mask } true blockKernel).2.mem
          0x200000 = 0x777 ∧
      ¬ StopsAtLarge aarch64Platform blockKernel.mem
        (resolveVm aarch64Platform onePageProcess 0 0 true blockKernel).1 := by
  refine ⟨by decide +kernel, by decide +kernel, ?_⟩
  intro stops
  have reached : (resolveVm aarch64Platform onePageProcess 0 0 true blockKernel).1.slot .pmd =
      some 0x3000 := by
    decide +kernel
  have unmarked := (stops.pmd 0x3000 reached (by decide +kernel)).1
  exact absurd unmarked (by decide +kernel)

end Kernel

end PTEditor.Linux.LargePages
