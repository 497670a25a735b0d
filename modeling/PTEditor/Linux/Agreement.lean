/-
# PTEditor.Linux.Agreement -- the kernel's walk and update against the library's

Two implementations of one interface.  The kernel walks through pointers, asks
none/bad/large predicates and marks a level before it reads its word; the
library walks through copied words and asks for the present bit.  They stop at
different points and fold the missing P4D differently.

On a 4-level machine whose entries on the walk are zero or present
(`OrderlyWalk`) the difference is not visible: `kernel_user_resolve_agree`.
For an address that resolves to a page, the kernel stores root first through its
pointers and the library leaf first through addresses it computes again; the
slots are the same, each is written at most once, and so is the memory:
`kernel_user_update_agree`.
-/
import PTEditor.Library.X86Walk

namespace PTEditor.Linux.Agreement

open PTEditor.Theory.ByteMemory PTEditor.Theory.RadixTree PTEditor.Interface PTEditor.Module
open PTEditor.Library PTEditor.Library.X86Walk

set_option autoImplicit false

/-! ## The entries on a walk -/

section Entries

variable (mem : Mem) (root addr : Word)

def pgdEntry : Word := tables mem (rootFrame root) (addressIndex .pgd addr)

def pudEntry : Word := tables mem (tableFrame (pgdEntry mem root addr)) (addressIndex .pud addr)

def pmdEntry : Word := tables mem (tableFrame (pudEntry mem root addr)) (addressIndex .pmd addr)

end Entries

def ZeroOrPresent (entry : Word) : Prop := entry = 0 ∨ entry.getLsbD 0 = true

/-- The bits of a frame number that the library's 28-bit `pfn` field leaves out. -/
def NarrowPfn (entry : Word) : Prop := entry.extractLsb' 40 12 = 0

instance (entry : Word) : Decidable (ZeroOrPresent entry) :=
  inferInstanceAs (Decidable (_ ∨ _))

instance (entry : Word) : Decidable (NarrowPfn entry) :=
  inferInstanceAs (Decidable (_ = _))

/-- What is asked of the entries on the walk of an address; an entry below a zero
entry, or below a large PMD, is not on the walk. -/
structure OrderlyWalk (P : Platform) (mem : Mem) (root addr : Word) : Prop where
  pgd : ZeroOrPresent (pgdEntry mem root addr)
  pgdNarrow : NarrowPfn (pgdEntry mem root addr)
  pgdNotBad : P.helpers.p4dBad (pgdEntry mem root addr) = false
  pud : pgdEntry mem root addr ≠ 0 → ZeroOrPresent (pudEntry mem root addr)
  pudNarrow : pgdEntry mem root addr ≠ 0 → NarrowPfn (pudEntry mem root addr)
  pudSmall : pgdEntry mem root addr ≠ 0 → (pudEntry mem root addr).getLsbD 7 = false
  pmd : pgdEntry mem root addr ≠ 0 → pudEntry mem root addr ≠ 0 →
    ZeroOrPresent (pmdEntry mem root addr)
  pmdNarrow : pgdEntry mem root addr ≠ 0 → pudEntry mem root addr ≠ 0 →
    (pmdEntry mem root addr).getLsbD 7 = false → NarrowPfn (pmdEntry mem root addr)

theorem ZeroOrPresent.isPresent {entry : Word} (orderly : ZeroOrPresent entry) :
    isPresent .x86_64 entry = decide (entry ≠ 0) := by
  rw [isPresent_x86_64]
  rcases orderly with rfl | present
  · rfl
  · have nonzero : entry ≠ 0 := by
      rintro rfl
      cases present
    simp only [present, nonzero, ne_eq, not_false_eq_true, decide_true]

/-! ## The kernel's slots are the library's -/

theorem toNat_index (addr : Word) (shift : Nat) :
    ((addr >>> shift) &&& 511#64).toNat = (addr.extractLsb' shift 9).toNat := by
  have mask : (511 : Nat) = 2 ^ 9 - 1 := rfl
  simp only [BitVec.toNat_and, BitVec.toNat_ushiftRight, BitVec.extractLsb'_toNat,
    BitVec.toNat_ofNat]
  rw [show 511 % 2 ^ 64 = 511 from rfl, mask, Nat.and_two_pow_sub_one_eq_mod]

theorem pgdSlot_eq {root : Word} (aligned : PageAligned root) (addr : Word) :
    pgdSlot root addr = slot (rootFrame root) (addressIndex .pgd addr) := by
  apply BitVec.eq_of_toNat_eq
  unfold PageAligned at aligned
  have index := toNat_index addr 39
  have bound := (addr.extractLsb' 39 9).isLt
  have rootBound := root.isLt
  rw [slot_toNat]
  simp only [pgdSlot, BitVec.toNat_add, BitVec.toNat_mul, index, rootFrame, addressIndex,
    BitVec.extractLsb'_toNat, Nat.shiftRight_eq_div_pow, BitVec.toNat_ofNat] at bound ⊢
  omega

/-- Forty bits of frame number or twenty-eight, if the others are zero. -/
theorem tableSlot_eq {parent : Word} (narrow : NarrowPfn parent) (addr : Word) (shift : Nat) :
    tableSlot parent addr shift = slot (tableFrame parent) (addr.extractLsb' shift 9) := by
  apply BitVec.eq_of_toNat_eq
  have index := toNat_index addr shift
  have bound := (addr.extractLsb' shift 9).isLt
  have high : parent.toNat / 2 ^ 40 % 2 ^ 12 = 0 := by
    have value := congrArg BitVec.toNat narrow
    simpa [BitVec.extractLsb'_toNat, Nat.shiftRight_eq_div_pow] using value
  have wide := toNat_bitField parent 12 40 (by decide)
  have pfn := toNat_bitField parent 12 28 (by decide)
  rw [slot_toNat]
  simp only [tableSlot, BitVec.toNat_add, BitVec.toNat_mul, index, tableFrame, castPfn,
    BitVec.toNat_setWidth, BitVec.toNat_ofNat, wide, pfn]
  omega

theorem stopsAtPmd_x86_64 (pmd : Word) : stopsAtPmd .x86_64 pmd = pmd.getLsbD 7 := by
  simp only [stopsAtPmd, castSize, bitField_one]
  cases pmd.getLsbD 7 <;> rfl

/-! ## Both walks from the entries -/

/-- The kernel's walk of an orderly address: a pointer is the slot of an entry. -/
def kernelVm (mem : Mem) (root addr pid : Word) : Vm :=
  let pgd := slot (rootFrame root) (addressIndex .pgd addr)
  let pud := slot (tableFrame (pgdEntry mem root addr)) (addressIndex .pud addr)
  let pmd := slot (tableFrame (pudEntry mem root addr)) (addressIndex .pmd addr)
  let pte := slot (tableFrame (pmdEntry mem root addr)) (addressIndex .pte addr)
  let vm := (Vm.cleared pid).reach .pgd pgd
  if pgdEntry mem root addr = 0 then vm
  else if pudEntry mem root addr = 0 then vm.reach .p4d pgd
  else if pmdEntry mem root addr = 0 then (vm.reach .p4d pgd).reach .pud pud
  else
    let vm := ((vm.reach .p4d pgd).reach .pud pud).reach .pmd pmd
    if (pmdEntry mem root addr).getLsbD 7 then vm else vm.reach .pte pte

section Walks

variable {P : Platform} {mem : Mem} {root addr : Word}

theorem walkPgd_orderly (four : FourLevel P) (aligned : PageAligned root)
    (orderly : OrderlyWalk P mem root addr) (pid : Word) :
    (walkPgd P mem addr root (Vm.cleared pid)).1 = kernelVm mem root addr pid := by
  have pgdSlot := pgdSlot_eq aligned addr
  have pgdRead : read64 mem (slot (rootFrame root) (addressIndex .pgd addr)) =
      pgdEntry mem root addr := rfl
  have pudSlot := tableSlot_eq orderly.pgdNarrow addr 30
  have pudRead : read64 mem (slot (tableFrame (pgdEntry mem root addr)) (addr.extractLsb' 30 9)) =
      pudEntry mem root addr := rfl
  simp only [walkPgd_fourLevel four, kernelVm, pgdSlot, pgdRead, orderly.pgdNotBad, pudSlot,
    pudRead, Bool.false_eq_true, or_false]
  by_cases pgdZero : pgdEntry mem root addr = 0
  · simp only [pgdZero, if_true]
  by_cases pudZero : pudEntry mem root addr = 0
  · simp only [pgdZero, pudZero, if_true, if_false]
  have pmdSlot := tableSlot_eq (orderly.pudNarrow pgdZero) addr 21
  have pmdRead : read64 mem (slot (tableFrame (pudEntry mem root addr)) (addr.extractLsb' 21 9)) =
      pmdEntry mem root addr := rfl
  simp only [pgdZero, pudZero, if_false, walkPmd_fourLevel four, pudRead, pmdSlot, pmdRead,
    orderly.pudSmall pgdZero, Bool.false_eq_true, or_false]
  by_cases pmdZero : pmdEntry mem root addr = 0
  · simp only [pmdZero, if_true, addressIndex]
  simp only [pmdZero, if_false, walkPte_fourLevel four, pmdRead]
  cases large : (pmdEntry mem root addr).getLsbD 7 with
  | true => simp only [if_true, addressIndex]
  | false =>
      simp only [Bool.false_eq_true, if_false, addressIndex,
        tableSlot_eq (orderly.pmdNarrow pgdZero pudZero large)]

/-- The library's record of an orderly address. -/
theorem resolved_orderly (orderly : OrderlyWalk P mem root addr) (pid : BitVec 32) :
    resolved (tables mem) (rootFrame root) addr pid =
      let vm := Entry.zeroed addr (pid.signExtend 64)
      let pgd := pgdEntry mem root addr
      let pud := pudEntry mem root addr
      let pmd := pmdEntry mem root addr
      if pgd = 0 then vm
      else
        let vm := { vm with pgd, p4d := pgd, pud, valid := Level.pgd.mask ||| Level.pud.mask }
        if pud = 0 then vm
        else
          let vm := { vm with pmd, valid := vm.valid ||| Level.pmd.mask }
          if pmd = 0 ∨ pmd.getLsbD 7 = true then vm
          else { vm with
            pte := tables mem (tableFrame pmd) (addressIndex .pte addr)
            valid := vm.valid ||| Level.pte.mask } := by
  have pgdRead : tables mem (rootFrame root) (addressIndex .pgd addr) = pgdEntry mem root addr := rfl
  have pudRead : tables mem (tableFrame (pgdEntry mem root addr)) (addressIndex .pud addr) =
      pudEntry mem root addr := rfl
  have pmdRead : tables mem (tableFrame (pudEntry mem root addr)) (addressIndex .pmd addr) =
      pmdEntry mem root addr := rfl
  simp only [resolved, entryAt, frameAt_three, frameAt_two, frameAt_one, pgdRead]
  by_cases pgdZero : pgdEntry mem root addr = 0
  · simp [pgdZero, Entry.zeroed]
  have pgdFollow : follow 0 (pgdEntry mem root addr) =
      some (tableFrame (pgdEntry mem root addr)) :=
    follow_present 0 (by decide) (by rw [orderly.pgd.isPresent]; simpa using pgdZero)
  simp only [pgdZero, pgdFollow, Option.isSome_some, Option.bind_some, Option.map_some, if_true,
    if_false, pudRead, Option.getD_some]
  by_cases pudZero : pudEntry mem root addr = 0
  · simp [pudZero, Entry.zeroed]
  have pudFollow : follow 1 (pudEntry mem root addr) =
      some (tableFrame (pudEntry mem root addr)) :=
    follow_present 1 (by decide) (by rw [(orderly.pud pgdZero).isPresent]; simpa using pudZero)
  simp only [pudZero, pudFollow, Option.isSome_some, Option.bind_some, Option.map_some, if_true,
    if_false, pmdRead, Option.getD_some]
  have pmdPresent := (orderly.pmd pgdZero pudZero).isPresent
  have pmdSize := stopsAtPmd_x86_64 (pmdEntry mem root addr)
  by_cases ends : pmdEntry mem root addr = 0 ∨ (pmdEntry mem root addr).getLsbD 7 = true
  · have pmdFollow : follow 2 (pmdEntry mem root addr) = none := by
      rcases ends with zero | large
      · exact follow_absent (by rw [pmdPresent]; simpa using zero)
      · exact follow_large (by rw [pmdSize, large])
    rw [if_pos ends]
    simp [pmdFollow, Entry.zeroed]
  · obtain ⟨nonzero, small⟩ := not_or.mp ends
    have pmdFollow : follow 2 (pmdEntry mem root addr) =
        some (tableFrame (pmdEntry mem root addr)) :=
      follow_small (by rw [pmdPresent]; simpa using nonzero) (by rw [pmdSize]; simpa using small)
    rw [if_neg ends]
    simp [pmdFollow, Entry.zeroed]

end Walks

/-! ## The two resolves -/

/-- Both implementations are asked about one process, and find the same root. -/
structure SameRoot (P : Platform) (s : System) (pid : BitVec 32) (mm : Mm) (root : Word) :
    Prop where
  named : s.kernel.getMm s.current (pid.signExtend 64) = some mm
  kernelRoot : P.virtToPhys (s.kernel.pgd mm) = root
  userRoot : (walkRoot P pid s).1 = root
  good : GoodRoot root
  definition : s.lib.pagingDefinition = .x86_64

section Resolve

variable {P : Platform} {s : System} {pid : BitVec 32} {mm : Mm} {root addr : Word}

theorem pteditResolveKernel_orderly (four : FourLevel P) (same : SameRoot P s pid mm root)
    (orderly : OrderlyWalk P s.kernel.mem root addr) :
    (pteditResolveKernel P addr pid s).1 =
      vmToUser s.kernel.mem (Entry.zeroed addr (pid.signExtend 64))
        (kernelVm s.kernel.mem root addr (pid.signExtend 64)) := by
  have entry := ioctlVmResolve_entry P s.current (Entry.zeroed addr (pid.signExtend 64)) s.kernel
    same.named
  rw [same.kernelRoot] at entry
  rw [← walkPgd_orderly four same.good.aligned orderly]
  exact entry

/-- **The two walks agree.**  The kernel's resolve and the library's return the
same word on every level, and mark the PTE in the same cases. -/
theorem kernel_user_resolve_agree (four : FourLevel P) (same : SameRoot P s pid mm root)
    (orderly : OrderlyWalk P s.kernel.mem root addr) :
    ∃ user s', pteditResolveUser P addr pid s = some (user, s') ∧
      (∀ level, (pteditResolveKernel P addr pid s).1.word level = user.word level) ∧
      marks (pteditResolveKernel P addr pid s).1.valid .pte = marks user.valid .pte := by
  refine ⟨_, _, pteditResolveUser_x86_64 four.arch same.definition same.good addr pid
    same.userRoot, ?_⟩
  have pgdRead : read64 s.kernel.mem (slot (rootFrame root) (addressIndex .pgd addr)) =
      pgdEntry s.kernel.mem root addr := rfl
  have pudRead : read64 s.kernel.mem
      (slot (tableFrame (pgdEntry s.kernel.mem root addr)) (addressIndex .pud addr)) =
        pudEntry s.kernel.mem root addr := rfl
  have pmdRead : read64 s.kernel.mem
      (slot (tableFrame (pudEntry s.kernel.mem root addr)) (addressIndex .pmd addr)) =
        pmdEntry s.kernel.mem root addr := rfl
  rw [pteditResolveKernel_orderly four same orderly, resolved_orderly orderly]
  simp only [kernelVm]
  -- One case per place where the walks can end.
  by_cases pgdZero : pgdEntry s.kernel.mem root addr = 0
  · simp only [pgdZero, if_true]
    refine ⟨?_, by simp⟩
    intro level
    cases level <;> simp [pgdRead, pgdZero]
  by_cases pudZero : pudEntry s.kernel.mem root addr = 0
  · simp only [pgdZero, pudZero, if_true, if_false]
    refine ⟨?_, by simp⟩
    intro level
    rw [vmToUser_word, Entry.zeroed_word]
    cases level <;> simp [Entry.word, Entry.zeroed, pgdRead]
  by_cases pmdZero : pmdEntry s.kernel.mem root addr = 0
  · simp only [pgdZero, pudZero, pmdZero, if_true, if_false, true_or]
    refine ⟨?_, by simp⟩
    intro level
    rw [vmToUser_word, Entry.zeroed_word]
    cases level <;> simp [Entry.word, Entry.zeroed, pgdRead, pudRead]
  cases large : (pmdEntry s.kernel.mem root addr).getLsbD 7 with
  | true =>
      simp only [pgdZero, pudZero, pmdZero, if_true, if_false, or_true]
      refine ⟨?_, by simp⟩
      intro level
      rw [vmToUser_word, Entry.zeroed_word]
      cases level <;> simp [Entry.word, Entry.zeroed, pgdRead, pudRead, pmdRead]
  | false =>
      simp only [pgdZero, pudZero, pmdZero, if_false, Bool.false_eq_true, or_self]
      refine ⟨?_, by simp⟩
      intro level
      rw [vmToUser_word, Entry.zeroed_word]
      cases level <;> simp [Entry.word, pgdRead, pudRead, pmdRead, tables]

theorem onePage_orderly : OrderlyWalk fourLevelPlatform onePageMem 0x1000 0 where
  pgd := by decide +kernel
  pgdNarrow := by decide +kernel
  pgdNotBad := by decide +kernel
  pud := by decide +kernel
  pudNarrow := by decide +kernel
  pudSmall := by decide +kernel
  pmd := by decide +kernel
  pmdNarrow := by decide +kernel

theorem onePage_sameRoot : SameRoot fourLevelPlatform onePageSystem 0 0 0x1000 where
  named := by decide
  kernelRoot := fourLevelPlatform.virtToPhys_physToVirt 0x1000
  userRoot := rfl
  good := ⟨by decide, by decide⟩
  definition := rfl

theorem kernel_user_resolve_agree_onePage :
    ∃ user s', pteditResolveUser fourLevelPlatform 0 0 onePageSystem = some (user, s') ∧
      (∀ level, (pteditResolveKernel fourLevelPlatform 0 0 onePageSystem).1.word level =
        user.word level) ∧
      marks (pteditResolveKernel fourLevelPlatform 0 0 onePageSystem).1.valid .pte =
        marks user.valid .pte :=
  kernel_user_resolve_agree fourLevelPlatform_fourLevel onePage_sameRoot onePage_orderly

end Resolve

/-! ## The two updates -/

def ResolvesToPage (mem : Mem) (root addr : Word) : Prop :=
  pgdEntry mem root addr ≠ 0 ∧ pudEntry mem root addr ≠ 0 ∧ pmdEntry mem root addr ≠ 0

/-- The slots on the walk of an address that resolves to a page, root first. -/
def walkSlots (mem : Mem) (root addr : Word) : List (Level × Word) :=
  let pte :=
    if (pmdEntry mem root addr).getLsbD 7 then []
    else [(Level.pte, slot (tableFrame (pmdEntry mem root addr)) (addressIndex .pte addr))]
  (.pgd, slot (rootFrame root) (addressIndex .pgd addr)) ::
    (.pud, slot (tableFrame (pgdEntry mem root addr)) (addressIndex .pud addr)) ::
      (.pmd, slot (tableFrame (pudEntry mem root addr)) (addressIndex .pmd addr)) :: pte

def selectedStores (vm : Entry) (slots : List (Level × Word)) : List (Word × Word) :=
  slots.flatMap fun s => if marks vm.valid s.1 then [(s.2, vm.word s.1)] else []

@[simp] theorem selectedStores_nil (vm : Entry) : selectedStores vm [] = [] := rfl

@[simp] theorem selectedStores_cons (vm : Entry) (level : Level) (slot : Word)
    (rest : List (Level × Word)) :
    selectedStores vm ((level, slot) :: rest) =
      (if marks vm.valid level then [(slot, vm.word level)] else []) ++ selectedStores vm rest :=
  List.flatMap_cons

theorem selectedStores_sublist (vm : Entry) (slots : List (Level × Word)) :
    (selectedStores vm slots).Sublist (slots.map fun s => (s.2, vm.word s.1)) := by
  induction slots with
  | nil => exact List.Sublist.slnil
  | cons s rest ih =>
      simp only [selectedStores, List.flatMap_cons, List.map_cons]
      split
      · exact ih.cons_cons _
      · exact ih.cons _

/-- Slots are aligned, so different slots are apart. -/
theorem selectedStores_apart (vm : Entry) {mem : Mem} {root addr : Word}
    (distinct : ((walkSlots mem root addr).map Prod.snd).Nodup) :
    PairwiseApart (selectedStores vm (walkSlots mem root addr)) := by
  have aligned : ∀ s ∈ walkSlots mem root addr, Aligned s.2 := by
    intro s member
    simp only [walkSlots, List.mem_cons] at member
    rcases member with rfl | rfl | rfl | member
    · exact slot_aligned _ _
    · exact slot_aligned _ _
    · exact slot_aligned _ _
    · split at member
      · cases member
      · obtain rfl := List.mem_singleton.mp member
        exact slot_aligned _ _
  have different : (walkSlots mem root addr).Pairwise fun s t => s.2 ≠ t.2 :=
    List.pairwise_map.mp distinct
  have apart : (walkSlots mem root addr).Pairwise fun s t => Apart s.2 t.2 :=
    different.imp_of_mem fun {_ _} hs ht ne => apart_of_aligned (aligned _ hs) (aligned _ ht) ne
  have all : ((walkSlots mem root addr).map fun s => (s.2, vm.word s.1)).Pairwise fun s t =>
      Apart s.1 t.1 := List.pairwise_map.mpr apart
  exact all.sublist (selectedStores_sublist vm _)

section Update

variable {P : Platform} {s : System} {pid : BitVec 32} {mm : Mm} {root addr : Word}

theorem kernelVm_inStep (mem : Mem) (root addr pid : Word) :
    (kernelVm mem root addr pid).InStep := by
  have pgd := Vm.reach_inStep (Vm.cleared_inStep pid) .pgd
    (slot (rootFrame root) (addressIndex .pgd addr))
  simp only [kernelVm]
  split
  · exact pgd
  split
  · exact Vm.reach_inStep pgd .p4d _
  split
  · exact Vm.reach_inStep (Vm.reach_inStep pgd .p4d _) .pud _
  split
  · exact Vm.reach_inStep (Vm.reach_inStep (Vm.reach_inStep pgd .p4d _) .pud _) .pmd _
  · exact Vm.reach_inStep (Vm.reach_inStep (Vm.reach_inStep (Vm.reach_inStep pgd .p4d _) .pud _)
      .pmd _) .pte _

theorem kernelVm_slot {mem : Mem} (page : ResolvesToPage mem root addr) (pid : Word)
    (level : Level) : (kernelVm mem root addr pid).slot level =
      match level with
      | .pgd | .p4d => some (slot (rootFrame root) (addressIndex .pgd addr))
      | .pud => some (slot (tableFrame (pgdEntry mem root addr)) (addressIndex .pud addr))
      | .pmd => some (slot (tableFrame (pudEntry mem root addr)) (addressIndex .pmd addr))
      | .pte =>
          if (pmdEntry mem root addr).getLsbD 7 then none
          else some (slot (tableFrame (pmdEntry mem root addr)) (addressIndex .pte addr)) := by
  obtain ⟨pgdNonzero, pudNonzero, pmdNonzero⟩ := page
  simp only [kernelVm, pgdNonzero, pudNonzero, pmdNonzero, if_false]
  cases (pmdEntry mem root addr).getLsbD 7 with
  | true => cases level <;> simp
  | false => cases level <;> simp

theorem updateStores_orderly {mem : Mem} (page : ResolvesToPage mem root addr) (pid : Word)
    (vm : Entry) (folded : marks vm.valid .p4d = false) :
    updateStores P (kernelVm mem root addr pid) vm =
      selectedStores vm (walkSlots mem root addr) := by
  have inStep := kernelVm_inStep mem root addr pid
  have reached := kernelVm_slot page pid
  have pte : levelStore (kernelVm mem root addr pid) vm .pte =
      selectedStores vm (if (pmdEntry mem root addr).getLsbD 7 then []
        else [(.pte, slot (tableFrame (pmdEntry mem root addr)) (addressIndex .pte addr))]) := by
    have here := reached .pte
    simp only at here
    split at here
    · rename_i large
      rw [levelStore_none inStep vm here, if_pos large, selectedStores_nil]
    · rename_i small
      rw [levelStore_some inStep vm here, if_neg small, selectedStores_cons, selectedStores_nil,
        List.append_nil]
  rw [updateStores, levelStore_some inStep vm (reached .pgd), levelStore_unselected _ folded,
    levelStore_some inStep vm (reached .pud), levelStore_some inStep vm (reached .pmd), pte,
    ite_self, List.nil_append]
  simp only [walkSlots, selectedStores_cons]

/-- The library's record of an address that resolves to a page. -/
theorem resolved_page {mem : Mem} (orderly : OrderlyWalk P mem root addr)
    (page : ResolvesToPage mem root addr) (pid : BitVec 32) :
    let vm := resolved (tables mem) (rootFrame root) addr pid
    vm.p4d = pgdEntry mem root addr ∧ vm.pud = pudEntry mem root addr ∧
      vm.pmd = pmdEntry mem root addr ∧ marks vm.valid .pgd = true ∧ marks vm.valid .pud = true ∧
      marks vm.valid .pmd = true ∧
      marks vm.valid .pte = !(pmdEntry mem root addr).getLsbD 7 := by
  obtain ⟨pgdNonzero, pudNonzero, pmdNonzero⟩ := page
  rw [resolved_orderly orderly]
  simp only [pgdNonzero, pudNonzero, pmdNonzero, if_false, false_or]
  cases (pmdEntry mem root addr).getLsbD 7 with
  | true => simp
  | false => simp

/-- The library stores leaf first. -/
theorem userStores_orderly {mem : Mem} (aligned : PageAligned root)
    (orderly : OrderlyWalk P mem root addr) (page : ResolvesToPage mem root addr)
    (pid : BitVec 32) (vm : Entry) :
    userStores .x86_64 .x86_64 addr root (resolved (tables mem) (rootFrame root) addr pid) vm =
      (selectedStores vm (walkSlots mem root addr)).reverse := by
  obtain ⟨p4d, pud, pmd, pgdMarked, pudMarked, pmdMarked, pteMarked⟩ :=
    resolved_page orderly page pid
  have single : ∀ (c : Bool) (store : Word × Word),
      (if c then [store] else []).reverse = if c then [store] else [] := by
    intro c store
    cases c <;> rfl
  have pte : guardedStore vm (resolved (tables mem) (rootFrame root) addr pid) .pte true
      (slot (tableFrame (pmdEntry mem root addr)) (addressIndex .pte addr)) =
      (selectedStores vm (if (pmdEntry mem root addr).getLsbD 7 then []
        else [(.pte, slot (tableFrame (pmdEntry mem root addr)) (addressIndex .pte addr))])).reverse
          := by
    cases large : (pmdEntry mem root addr).getLsbD 7 with
    | true =>
        rw [guardedStore_unmarked vm true _ (by rw [pteMarked, large]; rfl), if_pos rfl]
        rfl
    | false =>
        rw [guardedStore_marked vm _ (by rw [pteMarked, large]; rfl), if_neg Bool.false_ne_true,
          selectedStores_cons, selectedStores_nil, List.append_nil, single]
  have has : PagingDefinition.x86_64.hasPmd = true ∧ PagingDefinition.x86_64.hasPud = true ∧
      PagingDefinition.x86_64.hasP4d = false ∧ PagingDefinition.x86_64.hasPgd = true :=
    ⟨rfl, rfl, rfl, rfl⟩
  rw [userStores, has.1, has.2.1, has.2.2.1, has.2.2.2, rootSlot_x86_64 aligned,
    updateSlot_x86_64, updateSlot_x86_64, updateSlot_x86_64, p4d, pud, pmd, pte,
    guardedStore_marked vm _ pmdMarked, guardedStore_marked vm _ pudMarked, guardedStore_absent,
    guardedStore_marked vm _ pgdMarked, walkSlots, selectedStores_cons, selectedStores_cons,
    selectedStores_cons]
  simp only [List.reverse_append, List.append_assoc, List.nil_append, single]

/-- **The two updates agree.**  For an address that resolves to a page, through
slots that are different words, and a record that does not select the folded P4D,
both implementations leave the same memory and ask for the address's translation
to be dropped. -/
theorem kernel_user_update_agree (four : FourLevel P) (same : SameRoot P s pid mm root)
    (user : s.lib.resolve = some .user) (orderly : OrderlyWalk P s.kernel.mem root addr)
    (page : ResolvesToPage s.kernel.mem root addr)
    (distinct : ((walkSlots s.kernel.mem root addr).map Prod.snd).Nodup) (vm : Entry)
    (folded : marks vm.valid .p4d = false) :
    ∃ s', pteditUpdateUserExt P physWritePwrite addr pid vm s = some s' ∧
      s'.kernel.mem = (pteditUpdateKernel P addr pid vm s).kernel.mem ∧
      s.kernel.Invalidated s'.kernel addr ∧
      s.kernel.Invalidated (pteditUpdateKernel P addr pid vm s).kernel addr := by
  have resolves : pteditResolve P addr pid s =
      some (resolved (tables s.kernel.mem) (rootFrame root) addr pid, (walkRoot P pid s).2) := by
    simp only [pteditResolve, user]
    exact pteditResolveUser_x86_64 four.arch same.definition same.good addr pid same.userRoot
  have nonzero : (walkRoot P pid s).1 &&& ~~~1#64 ≠ 0 := by
    rw [same.userRoot, root_and_not_one same.good.aligned]
    exact same.good.nonzero
  obtain ⟨s', updated, stored⟩ := pteditUpdateUserExt_pwrite P resolves vm
  rw [if_neg nonzero, same.userRoot, root_and_not_one same.good.aligned, four.arch,
    same.definition, userStores_orderly same.good.aligned orderly page,
    storeAll_reverse (selectedStores_apart vm distinct)] at stored
  refine ⟨s', updated, ?_, pteditUpdateUserExt_invalidated P resolves nonzero updated, ?_⟩
  · have kernel := updateVm_mem P s.current { vm with vaddr := addr, pid := pid.signExtend 64 }
      (!s.kernel.mmIsLocked) s.kernel same.named
    have sent : ∀ level, ({ vm with vaddr := addr, pid := pid.signExtend 64 } : Entry).word level =
        vm.word level := fun level => by cases level <;> rfl
    rw [oldEntryOf, same.kernelRoot, walkPgd_orderly four same.good.aligned orderly,
      updateStores_orderly page _ { vm with vaddr := addr, pid := pid.signExtend 64 } folded]
      at kernel
    simp only [selectedStores, sent] at kernel
    rw [stored]
    exact kernel.symm
  · exact updateVm_invalidated P s.current { vm with vaddr := addr, pid := pid.signExtend 64 }
      (!s.kernel.mmIsLocked) s.kernel same.named

/-- A record with all levels but the P4D selected, and entries that lead elsewhere. -/
theorem kernel_user_update_agree_onePage :
    ∃ s', pteditUpdateUserExt fourLevelPlatform physWritePwrite 0 0
        { pid := 0, vaddr := 0, pgd := 0x9007, p4d := 0, pud := 0, pmd := 0x3087, pte := 0x6005,
          valid := 0x1d } onePageSystem = some s' ∧
      s'.kernel.mem = (pteditUpdateKernel fourLevelPlatform 0 0
        { pid := 0, vaddr := 0, pgd := 0x9007, p4d := 0, pud := 0, pmd := 0x3087, pte := 0x6005,
          valid := 0x1d } onePageSystem).kernel.mem := by
  have page : ResolvesToPage onePageSystem.kernel.mem 0x1000 0 := by
    refine ⟨?_, ?_, ?_⟩ <;> decide +kernel
  obtain ⟨s', updated, same, -⟩ := kernel_user_update_agree fourLevelPlatform_fourLevel
    onePage_sameRoot rfl onePage_orderly page (by decide +kernel)
    { pid := 0, vaddr := 0, pgd := 0x9007, p4d := 0, pud := 0, pmd := 0x3087, pte := 0x6005,
      valid := 0x1d } (by decide)
  exact ⟨s', updated, same⟩

end Update

end PTEditor.Linux.Agreement
