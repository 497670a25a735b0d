/-
# PTEditor.Library.X86Walk -- the x86-64 walk as a walk of radix tables

With the x86-64 paging definition and a page-aligned root, every address the
user-space walk reads is a slot of a 4 KiB frame: a 52-bit frame number, a 9-bit
index, three zero bits.  Physical memory seen through `slot` is a store of radix
tables (`tables`), the walk's present and size tests are its `follow`, and the
resolved record is read off the radix walk (`resolveUserExt_x86_64`): a level is
marked when the table that holds it is reached, and its word is the entry there.

A word write to a slot is a store into the tables (`tables_write64`), so what
`Theory.RadixTree` proves about leaf edits holds of memory.
-/
import PTEditor.Library.System
import PTEditor.Module.FourLevel
import PTEditor.Theory.RadixTree

namespace PTEditor.Library.X86Walk

open PTEditor.Theory.ByteMemory PTEditor.Theory.RadixTree PTEditor.Interface PTEditor.Module

set_option autoImplicit false

abbrev Frame := BitVec 52

abbrev Index := BitVec 9

def slot (frame : Frame) (i : Index) : Word := frame ++ i ++ 0#3

/-- Physical memory as tables of entries. -/
def tables (mem : Mem) : Tables Frame Index Word := fun frame i => read64 mem (slot frame i)

/-- The frame of the table an entry points to. -/
def tableFrame (entry : Word) : Frame := (castPfn .x86_64 entry).setWidth 52

/-- The walk goes below a present entry; below a PMD, only if it is not large. -/
def follow (depth : Nat) (entry : Word) : Option Frame :=
  if isPresent .x86_64 entry && !(depth == 2 && stopsAtPmd .x86_64 entry) then
    some (tableFrame entry)
  else none

def addressIndex (level : Level) (addr : Word) : Index :=
  match level with
  | .pgd => addr.extractLsb' 39 9
  | .p4d => 0
  | .pud => addr.extractLsb' 30 9
  | .pmd => addr.extractLsb' 21 9
  | .pte => addr.extractLsb' 12 9

/-- The indices above the PTE: the prefix of the address's last table. -/
def addressPath (addr : Word) : List Index :=
  [addressIndex .pgd addr, addressIndex .pud addr, addressIndex .pmd addr]

/-! ## Slots -/

theorem slot_toNat (frame : Frame) (i : Index) :
    (slot frame i).toNat = frame.toNat * 4096 + i.toNat * 8 := by
  unfold slot
  simp only [BitVec.toNat_append, BitVec.toNat_ofNat]
  rw [← Nat.shiftLeft_add_eq_or_of_lt (by omega), ← Nat.shiftLeft_add_eq_or_of_lt i.isLt]
  simp only [Nat.shiftLeft_eq]
  omega

theorem slot_aligned (frame : Frame) (i : Index) : Aligned (slot frame i) := by
  unfold Aligned
  rw [slot_toNat]
  omega

theorem slot_injective {f g : Frame} {i j : Index} (same : slot f i = slot g j) :
    f = g ∧ i = j := by
  have values := congrArg BitVec.toNat same
  rw [slot_toNat, slot_toNat] at values
  have hi := i.isLt
  have hj := j.isLt
  constructor <;> apply BitVec.eq_of_toNat_eq <;> omega

theorem slot_apart {f g : Frame} {i j : Index} (ne : ¬ (f = g ∧ i = j)) :
    Apart (slot f i) (slot g j) :=
  apart_of_aligned (slot_aligned f i) (slot_aligned g j) fun same => ne (slot_injective same)

theorem tables_write64 (mem : Mem) (frame : Frame) (i : Index) (w : Word) :
    tables (write64 mem (slot frame i) w) = store (tables mem) frame i w := by
  funext g j
  simp only [tables, store]
  by_cases same : g = frame ∧ j = i
  · obtain ⟨rfl, rfl⟩ := same
    simp only [read64_write64_self, and_self, if_true]
  · rw [if_neg same]
    exact read64_write64_apart mem w (slot_apart fun h => same ⟨h.1.symm, h.2.symm⟩)

/-! ## Index arithmetic -/

theorem index_toNat_x86_64 (level : Level) (addr : Word) :
    (PagingDefinition.x86_64.index level addr).toNat = (addressIndex level addr).toNat := by
  rw [PagingDefinition.index_toNat _ _ _ (by cases level <;> decide)]
  cases level <;>
    simp [addressIndex, BitVec.extractLsb'_toNat, Nat.shiftRight_eq_div_pow,
      PagingDefinition.shift, PagingDefinition.entries, PagingDefinition.x86_64, Nat.mod_one]

theorem indexInt_x86_64 (level : Level) (addr : Word) :
    PagingDefinition.x86_64.indexInt level addr = PagingDefinition.x86_64.index level addr :=
  PagingDefinition.indexInt_eq _ _ _ (by cases level <;> decide)

theorem updateSlot_x86_64 (level : Level) (addr parent : Word) :
    updateSlot .x86_64 .x86_64 addr level parent =
      slot (tableFrame parent) (addressIndex level addr) := by
  apply BitVec.eq_of_toNat_eq
  have frame := castPfn_lt parent
  have index := index_toNat_x86_64 level addr
  have bound := (addressIndex level addr).isLt
  rw [slot_toNat]
  simp only [updateSlot, BitVec.toNat_add, BitVec.toNat_mul, pfnMultiply, entrySize, index,
    tableFrame, BitVec.toNat_setWidth, BitVec.toNat_ofNat]
  omega

theorem walkSlot_x86_64 (level : Level) (addr parent : Word) :
    walkSlot .x86_64 .x86_64 addr level parent =
      slot (tableFrame parent) (addressIndex level addr) := by
  rw [← updateSlot_x86_64]
  simp only [walkSlot, updateSlot, indexInt_x86_64]

def PageAligned (root : Word) : Prop := root.toNat % 4096 = 0

instance (root : Word) : Decidable (PageAligned root) :=
  inferInstanceAs (Decidable (_ = _))

/-- A usable paging root. -/
structure GoodRoot (root : Word) : Prop where
  nonzero : root ≠ 0
  aligned : PageAligned root

def rootFrame (root : Word) : Frame := root.extractLsb' 12 52

theorem rootSlot_x86_64 {root : Word} (aligned : PageAligned root) (addr : Word) :
    root + PagingDefinition.x86_64.index .pgd addr * entrySize =
      slot (rootFrame root) (addressIndex .pgd addr) := by
  apply BitVec.eq_of_toNat_eq
  unfold PageAligned at aligned
  have index := index_toNat_x86_64 .pgd addr
  have bound := (addressIndex .pgd addr).isLt
  have rootBound := root.isLt
  rw [slot_toNat]
  simp only [BitVec.toNat_add, BitVec.toNat_mul, entrySize, index, rootFrame,
    BitVec.extractLsb'_toNat, Nat.shiftRight_eq_div_pow, BitVec.toNat_ofNat]
  omega

/-- Clearing bit 0 does nothing to a page-aligned root. -/
theorem root_and_not_one {root : Word} (aligned : PageAligned root) : root &&& ~~~1#64 = root := by
  unfold PageAligned at aligned
  have low : root.getLsbD 0 = false := by
    rw [BitVec.getLsbD, Nat.testBit_zero]
    simp only [decide_eq_false_iff_not]
    omega
  apply BitVec.eq_of_getLsbD_eq
  intro i bound
  simp only [BitVec.getLsbD_and, BitVec.getLsbD_not, BitVec.getLsbD_one, bound]
  cases i with
  | zero => simp only [low, Bool.false_and]
  | succ i => simp

/-! ## The walk -/

/-- The record of an address, read off the radix walk from the root's frame. -/
def resolved (tables : Tables Frame Index Word) (root : Frame) (addr : Word) (pid : BitVec 32) :
    Entry :=
  let g := addressIndex .pgd addr
  let u := addressIndex .pud addr
  let m := addressIndex .pmd addr
  let t := addressIndex .pte addr
  let pgd := if (frameAt follow tables root [g]).isSome then tables root g else 0
  let reaches (path : List Index) (mask : Word) : Word :=
    if (frameAt follow tables root path).isSome then mask else 0
  { pid := pid.signExtend 64
    vaddr := addr
    pgd := pgd
    p4d := pgd
    pud := (entryAt follow tables root [g] u).getD 0
    pmd := (entryAt follow tables root [g, u] m).getD 0
    pte := (entryAt follow tables root [g, u, m] t).getD 0
    valid := reaches [g] (Level.pgd.mask ||| Level.pud.mask) ||| reaches [g, u] Level.pmd.mask |||
      reaches [g, u, m] Level.pte.mask }

theorem frameAt_one (tables : Tables Frame Index Word) (root : Frame) (g : Index) :
    frameAt follow tables root [g] = follow 0 (tables root g) := by
  simp [frameAt, descend]

theorem frameAt_two (tables : Tables Frame Index Word) (root : Frame) (g u : Index) :
    frameAt follow tables root [g, u] =
      (frameAt follow tables root [g]).bind fun f => follow 1 (tables f u) := by
  simp [frameAt, descend]

theorem frameAt_three (tables : Tables Frame Index Word) (root : Frame) (g u m : Index) :
    frameAt follow tables root [g, u, m] =
      (frameAt follow tables root [g, u]).bind fun f => follow 2 (tables f m) := by
  simp only [frameAt, descend, Option.bind_assoc]
  simp

theorem follow_present (depth : Nat) {entry : Word} (upper : depth ≠ 2)
    (present : isPresent .x86_64 entry = true) : follow depth entry = some (tableFrame entry) := by
  simp [follow, present, upper]

theorem follow_absent {depth : Nat} {entry : Word} (absent : isPresent .x86_64 entry = false) :
    follow depth entry = none := by
  simp [follow, absent]

@[simp] theorem follow_zero (depth : Nat) : follow depth 0#64 = none :=
  follow_absent isPresent_x86_64_zero

theorem follow_large {entry : Word} (large : stopsAtPmd .x86_64 entry = true) :
    follow 2 entry = none := by
  simp [follow, large]

theorem follow_small {entry : Word} (present : isPresent .x86_64 entry = true)
    (small : stopsAtPmd .x86_64 entry = false) : follow 2 entry = some (tableFrame entry) := by
  simp [follow, present, small]

section Has

@[simp] theorem has_p4d : PagingDefinition.x86_64.has .p4d = false := rfl
@[simp] theorem has_pud : PagingDefinition.x86_64.has .pud = true := rfl
@[simp] theorem has_pmd : PagingDefinition.x86_64.has .pmd = true := rfl

end Has

/-- The user-space walk is the radix walk. -/
theorem resolveUserExt_x86_64 (mem : Mem) (root addr : Word) (pid : BitVec 32) (nonzero : root ≠ 0)
    (aligned : PageAligned root) :
    resolveUserExt .x86_64 .x86_64 (physReadPread mem) addr root pid =
      some (resolved (tables mem) (rootFrame root) addr pid) := by
  have pgdSlot : root + PagingDefinition.x86_64.indexInt .pgd addr * entrySize =
      slot (rootFrame root) (addressIndex .pgd addr) := by
    rw [indexInt_x86_64, rootSlot_x86_64 aligned]
  have pread : ∀ f i, physReadPread mem (slot f i) = some (tables mem f i) := fun _ _ => rfl
  simp only [resolveUserExt, root_and_not_one aligned, nonzero, if_false, pgdSlot, pread,
    Option.bind_some, walkLevel, walkPt, walkSlot_x86_64, has_p4d, has_pud, has_pmd, if_true,
    Bool.false_eq_true, Option.map_some]
  simp only [resolved, entryAt, frameAt_three, frameAt_two, frameAt_one]
  -- One case split per level, root first; each stops the walk or opens the next table.
  generalize tables mem (rootFrame root) (addressIndex .pgd addr) = pgd
  cases pgdPresent : isPresent .x86_64 pgd with
  | false => simp [follow_absent pgdPresent, Entry.zeroed]
  | true =>
      simp only [follow_present 0 (by decide) pgdPresent, Option.isSome_some,
        Option.bind_some, Option.map_some, if_true]
      generalize tables mem (tableFrame pgd) (addressIndex .pud addr) = pud
      cases pudPresent : isPresent .x86_64 pud with
      | false => simp [follow_absent pudPresent, Entry.zeroed, Entry.mark, Entry.setWord]
      | true =>
          simp only [follow_present 1 (by decide) pudPresent, Option.isSome_some,
            Option.bind_some, Option.map_some, if_true]
          generalize tables mem (tableFrame pud) (addressIndex .pmd addr) = pmd
          cases pmdPresent : isPresent .x86_64 pmd with
          | false => simp [follow_absent pmdPresent, Entry.zeroed, Entry.mark, Entry.setWord]
          | true =>
              cases large : stopsAtPmd .x86_64 pmd with
              | true => simp [follow_large large, Entry.zeroed, Entry.mark, Entry.setWord]
              | false =>
                  simp [follow_small pmdPresent large, Entry.zeroed, Entry.mark, Entry.setWord]

/-- `PTEDIT_IMPL_USER_PREAD` resolves by the radix walk from its root. -/
theorem pteditResolveUser_x86_64 {P : Platform} {s : System} {root : Word} (arch : P.arch = .x86_64)
    (definition : s.lib.pagingDefinition = .x86_64) (good : GoodRoot root) (b : Word)
    (pid : BitVec 32) (rooted : (walkRoot P pid s).1 = root) :
    pteditResolveUser P b pid s =
      some (resolved (tables s.kernel.mem) (rootFrame root) b pid, (walkRoot P pid s).2) := by
  have walk := resolveUserExt_x86_64 s.kernel.mem root b pid good.nonzero good.aligned
  simp only [pteditResolveUser, pteditResolveUserExt, arch, definition, rooted,
    (walkRoot_quiet P pid s).mem_eq, walk, Option.map_some]

/-! ## A machine with one mapped page -/

/-- One chain of tables, in the frames 1 to 4: address `0` is mapped to frame 5. -/
def onePageMem : Mem :=
  storeAll (fun _ => 0)
    [(slot 1 0, 0x2007), (slot 2 0, 0x3007), (slot 3 0, 0x4007), (slot 4 0, 0x5007)]

def onePageProcess : Process := Process.of 1 0 (by decide)

/-- Process 1 owns the tables in `onePageMem`; process 2 has a root table in frame 8. -/
def onePageKernel : Kernel where
  mem := onePageMem
  tasks pid :=
    if pid = 1 then some onePageProcess.toTask
    else if pid = 2 then some (Process.of 2 1 (by decide)).toTask
    else none
  pgd mm := fourLevelPlatform.physToVirt (if mm = 0 then 0x1000 else 0x8000)
  vmas _ := []
  tlb _ _ := false
  invalidateTlbMethod := .kernel
  mmIsLocked := false
  deviceBusy := true
  realPageSize := 4096
  realPageShift := 12
  pat := 0x0007040600070406
  ttbr0El1 := 0
  trace := []

/-- Process 1 after `ptedit_init` and `ptedit_use_implementation(PTEDIT_IMPL_USER_PREAD)`. -/
def onePageSystem : System where
  lib :=
    { fd := 3
      umem := 4
      pagesize := 4096
      pagingRoot := 0x1000
      vmem := .null
      pagingDefinition := .x86_64
      resolve := some .user
      update := some .user }
  kernel := onePageKernel
  current := onePageProcess

/-- The same process with `PTEDIT_IMPL_KERNEL`. -/
def onePageKernelSystem : System :=
  { onePageSystem with
    lib := { onePageSystem.lib with resolve := some .kernel, update := some .kernel } }

theorem resolvedVm_onePage :
    resolvedVm fourLevelPlatform onePageProcess 0 0 onePageKernel =
      { pid := 0, pgd := some 0x1000, p4d := some 0x1000, pud := some 0x2000, pmd := some 0x3000,
        pte := some 0x4000, valid := 0x1f } := by
  decide +kernel

theorem tables_onePageMem (frame : Frame) (i : Index) :
    tables onePageMem frame i =
      if frame = 4 ∧ i = 0 then 0x5007
      else if frame = 3 ∧ i = 0 then 0x4007
      else if frame = 2 ∧ i = 0 then 0x3007
      else if frame = 1 ∧ i = 0 then 0x2007
      else 0 := by
  have empty : tables (fun _ => 0) frame i = 0 := by simp [tables, read64]
  simp only [onePageMem, storeAll_cons, storeAll_nil, tables_write64, store, empty]

/-- The tables of `onePageMem` are one chain. -/
theorem frameAt_onePageMem (path : List Index) (bound : path.length ≤ 3) (frame : Frame)
    (reached : frameAt follow (tables onePageMem) 1 path = some frame) :
    path = List.replicate path.length 0 ∧ frame = BitVec.ofNat 52 (path.length + 1) := by
  induction path using List.reverseRecOn generalizing frame with
  | nil =>
      cases reached
      exact ⟨rfl, rfl⟩
  | append_singleton path i ih =>
      simp only [List.length_append, List.length_singleton] at bound ⊢
      simp only [frameAt_snoc, entryAt, Option.bind_map, Option.bind_eq_some_iff,
        Function.comp_apply] at reached
      obtain ⟨parent, atParent, followed⟩ := reached
      obtain ⟨zeros, rfl⟩ := ih (by omega) parent atParent
      by_cases zero : i = 0
      · subst zero
        have small : path.length < 3 := by omega
        rw [List.replicate_succ', ← zeros]
        refine ⟨rfl, ?_⟩
        interval_cases path.length <;> exact (Option.some.inj followed).symm
      · simp only [tables_onePageMem, zero, and_false, if_false] at followed
        exact absurd followed (by simp)

theorem onePageMem_treeShaped : TreeShaped follow (tables onePageMem) 1 3 := by
  intro p q frame hp hq atP atQ
  obtain ⟨zerosP, frameP⟩ := frameAt_onePageMem p hp frame atP
  obtain ⟨zerosQ, frameQ⟩ := frameAt_onePageMem q hq frame atQ
  have same : p.length = q.length := by
    have values := congrArg BitVec.toNat (frameP.symm.trans frameQ)
    simp only [BitVec.toNat_ofNat] at values
    omega
  rw [zerosP, zerosQ, same]

end PTEditor.Library.X86Walk
