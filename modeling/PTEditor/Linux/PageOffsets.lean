/-
# PTEditor.Linux.PageOffsets -- the addresses of one page

The module reads the page size of the machine when it is loaded: 4 KiB, on aarch64
also 16 KiB or 64 KiB.  The library asks the module for it and installs a paging
definition.  It has one for 16 KiB pages; every other size, 64 KiB too, gets the
definition for 4 KiB.

A walk sees an address through its indices only, so two addresses resolve alike if
they agree above the page offset of the definition (`resolveAlike_of_page`).
`resolveAlike_iff` is what this means for the pages of the machine: with 64 KiB pages,
only the addresses of one 4 KiB block resolve alike.
-/
import PTEditor.Linux.LargePages
import PTEditor.Linux.ValidMask
import PTEditor.Module.Lifecycle

namespace PTEditor.Linux.PageOffsets

open PTEditor.Theory.ByteMemory PTEditor.Interface PTEditor.Module PTEditor.Module.Lifecycle
open PTEditor.Library PTEditor.Library.Slots PTEditor.Linux.ValidMask
open PTEditor.Linux.LargePages (aarch64Platform)
open PagingDefinition (aarch64Pages4k)

set_option autoImplicit false

/-- Whatever the memory and the root, the two addresses have the same entries. -/
def ResolveAlike (arch : Arch) (d : PagingDefinition) (a b : Word) : Prop :=
  ∀ (mem : Mem) (root : Word) (pid : BitVec 32), ∃ e e',
    resolveUserExt arch d (physReadPread mem) a root pid = some e ∧
    resolveUserExt arch d (physReadPread mem) b root pid = some e' ∧
    (∀ level, e.word level = e'.word level) ∧ e.valid = e'.valid

/-! ## Addresses above the page offset -/

section Indices

variable {d : PagingDefinition} {a b : Word}

/-- Every index lies above the page offset. -/
theorem index_eq_of_page (regular : Regular d)
    (same : a.toNat / 2 ^ d.pageOffset = b.toNat / 2 ^ d.pageOffset) (level : Level) :
    d.index level a = d.index level b := by
  have narrow : d.entries level < 64 := by
    have width := regular.narrow level
    omega
  obtain ⟨rest, shift⟩ := Nat.exists_eq_add_of_le (d.pageOffset_le_shift level)
  apply BitVec.eq_of_toNat_eq
  rw [d.index_toNat level a narrow, d.index_toNat level b narrow, shift, Nat.pow_add,
    ← Nat.div_div_eq_div_mul, ← Nat.div_div_eq_div_mul, same]

theorem resolveAlike_of_page (arch : Arch) (regular : Regular d)
    (same : a.toNat / 2 ^ d.pageOffset = b.toNat / 2 ^ d.pageOffset) :
    ResolveAlike arch d a b := by
  intro mem root pid
  have total : ∀ x, (physReadPread mem x).isSome := fun _ => rfl
  obtain ⟨e, walked⟩ := Option.isSome_iff_exists.mp
    (resolveUserExt_isSome arch d a total root pid)
  have there : (resolveUserExt arch d (physReadPread mem) a root pid).map
      (fun e => { e with vaddr := b }) = resolveUserExt arch d (physReadPread mem) b root pid :=
    resolveUserExt_readdress (index_eq_of_page regular same) root pid
  rw [walked, Option.map_some] at there
  refine ⟨e, _, walked, there.symm, ?_, rfl⟩
  intro level
  cases level <;> rfl

end Indices

/-! ## 64 KiB pages -/

section Pages64k

variable (a : Word)

def entryAt (frame : Nat) (i : Word) : Word := BitVec.ofNat 64 (frame * 4096 + i.toNat * 8)

theorem entryAt_toNat {frame : Nat} (low : frame < 4) {i : Word} (bound : i.toNat < 512) :
    (entryAt frame i).toNat = frame * 4096 + i.toNat * 8 := by
  rw [entryAt, BitVec.toNat_ofNat]
  omega

theorem entryAt_apart {frame frame' : Nat} (low : frame < 4) (low' : frame' < 4) {i j : Word}
    (bound : i.toNat < 512) (bound' : j.toNat < 512) (ne : ¬ (frame = frame' ∧ i = j)) :
    Apart (entryAt frame i) (entryAt frame' j) := by
  have first := entryAt_toNat low bound
  have second := entryAt_toNat low' bound'
  refine apart_of_aligned ?_ ?_ ?_
  · rw [Aligned, first]
    omega
  · rw [Aligned, second]
    omega
  · intro same
    rw [same] at first
    refine ne ⟨by omega, BitVec.eq_of_toNat_eq (by omega)⟩

/-- Tables that map one page: the PTE of `a` is 1, every other PTE is zero. -/
def tableStores : List (Word × Word) :=
  [(entryAt 1 (aarch64Pages4k.index .pgd a), 0x2003),
    (entryAt 2 (aarch64Pages4k.index .pmd a), 0x3003),
    (entryAt 3 (aarch64Pages4k.index .pte a), 1)]

def tablesOf : Mem := storeAll (fun _ => 0) (tableStores a)

theorem index_lt_512 (level : Level) (x : Word) : (aarch64Pages4k.index level x).toNat < 512 := by
  have bound := aarch64Pages4k.index_lt level x (by cases level <;> decide)
  have width : 2 ^ aarch64Pages4k.entries level ≤ 512 := by cases level <;> decide
  omega

theorem index_apart {frame frame' : Nat} (low : frame < 4) (low' : frame' < 4) (l l' : Level)
    (x x' : Word)
    (ne : ¬ (frame = frame' ∧ aarch64Pages4k.index l x = aarch64Pages4k.index l' x')) :
    Apart (entryAt frame (aarch64Pages4k.index l x)) (entryAt frame' (aarch64Pages4k.index l' x')) :=
  entryAt_apart low low' (index_lt_512 l x) (index_lt_512 l' x') ne

theorem tableStores_apart : PairwiseApart (tableStores a) := by
  simp only [PairwiseApart, tableStores, List.pairwise_cons, List.mem_cons, List.not_mem_nil,
    or_false, forall_eq_or_imp, forall_eq, false_imp_iff, implies_true, List.Pairwise.nil, and_true]
  exact ⟨⟨index_apart (by decide) (by decide) .pgd .pmd a a (by simp),
    index_apart (by decide) (by decide) .pgd .pte a a (by simp)⟩,
    index_apart (by decide) (by decide) .pmd .pte a a (by simp)⟩

/-- The PTE of an address in the tables of another, where only the last index may differ. -/
theorem read_tablesOf_pte (x : Word) :
    read64 (tablesOf a) (entryAt 3 (aarch64Pages4k.index .pte x)) =
      if aarch64Pages4k.index .pte x = aarch64Pages4k.index .pte a then 1 else 0 := by
  by_cases same : aarch64Pages4k.index .pte x = aarch64Pages4k.index .pte a
  · rw [if_pos same, same]
    exact read64_storeAll_mem _ (tableStores_apart a) (by simp [tableStores])
  · have outside : ∀ s ∈ tableStores a, Apart s.1 (entryAt 3 (aarch64Pages4k.index .pte x)) := by
      intro s inside
      simp only [tableStores, List.mem_cons, List.not_mem_nil, or_false] at inside
      rcases inside with rfl | rfl | rfl
      · exact index_apart (by decide) (by decide) .pgd .pte a x (by simp)
      · exact index_apart (by decide) (by decide) .pmd .pte a x (by simp)
      · exact index_apart (by decide) (by decide) .pte .pte a x fun both => same both.2.symm
    rw [if_neg same, tablesOf, read64_storeAll_apart _ _ _ outside]
    simp [read64]

theorem updateSlot_entryAt {parent : Word} {frame : Nat} (low : frame < 4)
    (pfn : (castPfn .aarch64 parent).toNat = frame) (level : Level) (x : Word) :
    updateSlot .aarch64 aarch64Pages4k x level parent =
      entryAt frame (aarch64Pages4k.index level x) := by
  have bound := index_lt_512 level x
  apply BitVec.eq_of_toNat_eq
  rw [entryAt_toNat low bound]
  simp only [updateSlot, pfnMultiply, entrySize, BitVec.toNat_add, BitVec.toNat_mul, pfn,
    BitVec.toNat_ofNat]
  omega

/-- What the walk finds at an address that differs from `a` in its last index only. -/
theorem resolve_tablesOf {a x : Word} (pgd : aarch64Pages4k.index .pgd x = aarch64Pages4k.index .pgd a)
    (pmd : aarch64Pages4k.index .pmd x = aarch64Pages4k.index .pmd a) (pid : BitVec 32) :
    ∃ e, resolveUserExt .aarch64 aarch64Pages4k (physReadPread (tablesOf a)) x 0x1000 pid =
        some e ∧
      e.word .pte =
        if aarch64Pages4k.index .pte x = aarch64Pages4k.index .pte a then 1 else 0 := by
  obtain ⟨e, walked, recorded⟩ := resolveUserExt_record .aarch64 (read64 (tablesOf a)) x
    regular_aarch64Pages4k rfl (show (0x1000 : Word) ≠ 0 by decide) (by decide) pid
  refine ⟨e, walked, ?_⟩
  have atPgd : pathEntry .aarch64 aarch64Pages4k (read64 (tablesOf a)) x 0x1000 .pgd = 0x2003 := by
    have first : firstSlot aarch64Pages4k x 0x1000 = entryAt 1 (aarch64Pages4k.index .pgd a) := by
      have slot : firstSlot aarch64Pages4k x 0x1000 =
          updateSlot .aarch64 aarch64Pages4k x .pgd 0x1000 := rfl
      rw [slot, updateSlot_entryAt (by decide) (show _ = 1 by decide), pgd]
    rw [pathEntry_pgd _ _ _ _ rfl, first]
    exact read64_storeAll_mem _ (tableStores_apart a) (by simp [tableStores])
  have atP4d : pathEntry .aarch64 aarch64Pages4k (read64 (tablesOf a)) x 0x1000 .p4d = 0x2003 := by
    rw [pathEntry_below _ _ _ _ rfl (by decide)]
    exact atPgd
  have atPud : pathEntry .aarch64 aarch64Pages4k (read64 (tablesOf a)) x 0x1000 .pud = 0x2003 := by
    rw [pathEntry_below _ _ _ _ rfl (by decide)]
    exact atP4d
  have atPmd : pathEntry .aarch64 aarch64Pages4k (read64 (tablesOf a)) x 0x1000 .pmd = 0x3003 := by
    rw [pathEntry_below _ _ _ _ rfl (by decide), Level.above, atPud,
      updateSlot_entryAt (by decide) (show _ = 2 by decide), pmd]
    exact read64_storeAll_mem _ (tableStores_apart a) (by simp [tableStores])
  have atPte : pathEntry .aarch64 aarch64Pages4k (read64 (tablesOf a)) x 0x1000 .pte =
      if aarch64Pages4k.index .pte x = aarch64Pages4k.index .pte a then 1 else 0 := by
    rw [pathEntry_below _ _ _ _ rfl (by decide), Level.above, atPmd,
      updateSlot_entryAt (by decide) (show _ = 3 by decide), ← read_tablesOf_pte a x]
    rfl
  have arrived : arrives .aarch64 aarch64Pages4k (read64 (tablesOf a)) x 0x1000 .pte = true := by
    simp only [arrives, reached, levelsAbove, List.all_cons, List.all_nil, atPgd, atP4d, atPud,
      atPmd]
    decide
  rw [recorded.word_of_arrives arrived, atPte]

theorem not_resolveAlike_pages64k {a b : Word} (page : a.toNat / 65536 = b.toNat / 65536)
    (ne : a.toNat / 4096 ≠ b.toNat / 4096) : ¬ ResolveAlike .aarch64 aarch64Pages4k a b := by
  have upper : ∀ level, 16 ≤ aarch64Pages4k.shift level →
      aarch64Pages4k.index level b = aarch64Pages4k.index level a := by
    intro level high
    have split : aarch64Pages4k.shift level = 16 + (aarch64Pages4k.shift level - 16) := by omega
    apply BitVec.eq_of_toNat_eq
    rw [aarch64Pages4k.index_toNat level a (by cases level <;> decide),
      aarch64Pages4k.index_toNat level b (by cases level <;> decide), split, Nat.pow_add,
      ← Nat.div_div_eq_div_mul, ← Nat.div_div_eq_div_mul]
    exact congrArg (fun n => n / 2 ^ _ % 2 ^ _) page.symm
  have lowest : ∀ x, (aarch64Pages4k.index .pte x).toNat = x.toNat / 4096 % 512 := fun x =>
    aarch64Pages4k.index_toNat .pte x (by decide)
  have differ : aarch64Pages4k.index .pte b ≠ aarch64Pages4k.index .pte a := by
    intro same
    have low := congrArg BitVec.toNat same
    rw [lowest, lowest] at low
    omega
  intro alike
  obtain ⟨e, e', walked, walked', words, -⟩ := alike (tablesOf a) 0x1000 0
  obtain ⟨_, atA, one⟩ := resolve_tablesOf (a := a) (x := a) rfl rfl 0
  obtain ⟨_, atB, zero⟩ := resolve_tablesOf (a := a) (x := b) (upper .pgd (by decide))
    (upper .pmd (by decide)) 0
  obtain rfl := Option.some_inj.mp (walked.symm.trans atA)
  obtain rfl := Option.some_inj.mp (walked'.symm.trans atB)
  have same := words .pte
  rw [one, zero, if_pos rfl, if_neg differ] at same
  exact absurd same (by decide)

end Pages64k

/-! ## The pages of the machine -/

/-- The library takes its definition from the page size the module reports. -/
theorem pteditInit_definition (P : Platform) {fd : Int} (opened : 0 ≤ fd) (umem : Int)
    (getpagesize : Word) (s : System) :
    (pteditInit P fd umem getpagesize s).2.lib.pagingDefinition =
      initDefinition P s.kernel.realPageSize := by
  have notNegative : ¬ fd < 0 := by omega
  simp only [pteditInit, notNegative, if_false]
  split
  · rfl
  · rfl

theorem setUpMemoryAccess_pageSize (o : Outcomes) (s : State) :
    (setUpMemoryAccess o s).2.statics.realPageSize = s.statics.realPageSize := by
  simp only [setUpMemoryAccess]
  cases o.umemSymbols <;> cases o.procCreate <;> by_cases probed : o.registerKretprobe < 0 <;>
    simp [probed, State.register]

/-- The page sizes the module can detect. -/
theorem readPageSize_cases (o : Outcomes) (v : Statics) :
    (readPageSize o v).realPageSize = v.realPageSize ∨
      (readPageSize o v).realPageSize = 16384 ∨ (readPageSize o v).realPageSize = 65536 := by
  simp only [readPageSize]
  split
  · exact .inr (.inr rfl)
  · split
    · exact .inr (.inl rfl)
    · exact .inl rfl

theorem setUpTlb_pageSize (P : Platform) (o : Outcomes) (s : State) :
    (setUpTlb P o s).2.statics.realPageSize = s.statics.realPageSize ∨
      (P.arch = .aarch64 ∧
        ((setUpTlb P o s).2.statics.realPageSize = 16384 ∨
          (setUpTlb P o s).2.statics.realPageSize = 65536)) := by
  cases arch : P.arch with
  | aarch64 =>
      simp only [setUpTlb, arch, setUpMemoryAccess_pageSize, true_and]
      exact readPageSize_cases o _
  | x86_64 =>
      left
      simp only [setUpTlb, arch]
      split
      · rfl
      · split
        · split
          · rfl
          · exact setUpMemoryAccess_pageSize o _
        · exact setUpMemoryAccess_pageSize o _

theorem pteditorInit_pageSize (P : Platform) (o : Outcomes) (registered : Resource → Bool) :
    (pteditorInit P o ⟨registered, .initial⟩).2.statics.realPageSize = 4096 ∨
      (P.arch = .aarch64 ∧
        ((pteditorInit P o ⟨registered, .initial⟩).2.statics.realPageSize = 16384 ∨
          (pteditorInit P o ⟨registered, .initial⟩).2.statics.realPageSize = 65536)) := by
  simp only [pteditorInit]
  split
  · exact .inl rfl
  · split
    · exact .inl rfl
    · exact setUpTlb_pageSize P o _

/-- **Which addresses of a page resolve alike**: all of them, unless the machine has 64 KiB
pages, for which the library installs the definition of 4 KiB; then those of one 4 KiB block. -/
theorem resolveAlike_iff {P : Platform} {o : Outcomes} {registered : Resource → Bool}
    {after : State} (loaded : pteditorInit P o ⟨registered, .initial⟩ = (0, after)) {s : System}
    (running : s.kernel.realPageSize = after.statics.realPageSize) {fd : Int} (opened : 0 ≤ fd)
    (umem : Int) (getpagesize : Word) {a b : Word}
    (samePage : a.toNat / s.kernel.realPageSize.toNat = b.toNat / s.kernel.realPageSize.toNat) :
    ResolveAlike P.arch (pteditInit P fd umem getpagesize s).2.lib.pagingDefinition a b ↔
      s.kernel.realPageSize ≠ 65536 ∨ a.toNat / 4096 = b.toNat / 4096 := by
  have sizes := pteditorInit_pageSize P o registered
  rw [loaded] at sizes
  rw [← running] at sizes
  rw [pteditInit_definition P opened]
  have regular := initDefinition_regular P s.kernel.realPageSize
  rcases sizes with small | ⟨arch, medium | large⟩
  · have offset : (initDefinition P s.kernel.realPageSize).pageOffset = 12 := by
      rw [small, initDefinition]
      cases P.arch <;> rfl
    rw [small] at samePage
    refine iff_of_true (resolveAlike_of_page P.arch regular ?_) (.inr samePage)
    rw [offset]
    exact samePage
  · have offset : (initDefinition P s.kernel.realPageSize).pageOffset = 14 := by
      rw [medium, initDefinition, arch]
      rfl
    rw [medium] at samePage
    refine iff_of_true (resolveAlike_of_page P.arch regular ?_) (.inl ?_)
    · rw [offset]
      exact samePage
    · rw [medium]
      decide
  · have definition : initDefinition P s.kernel.realPageSize = aarch64Pages4k := by
      rw [large, initDefinition, arch]
      rfl
    rw [large] at samePage
    rw [definition, arch]
    constructor
    · intro alike
      right
      by_contra differ
      exact not_resolveAlike_pages64k samePage differ alike
    · rintro (small | block)
      · exact absurd large small
      · exact resolveAlike_of_page .aarch64 regular_aarch64Pages4k block

/-- A load on aarch64 where everything succeeds, with the granule `tcr_el1` has. -/
def granuleLoad (granule : Word) : Outcomes := { Outcomes.good with tcrEl1 := granule <<< 14 }

def granuleSystem (granule : Word) : System :=
  { X86Walk.onePageSystem with
    kernel :=
      { X86Walk.onePageKernel with
        realPageSize :=
          (pteditorInit aarch64Platform (granuleLoad granule)
            ⟨fun _ => false, .initial⟩).2.statics.realPageSize } }

/-- With 16 KiB pages the four quarters of a page resolve alike. -/
theorem resolveAlike_pages16k :
    ResolveAlike .aarch64
      (pteditInit aarch64Platform 3 4 16384 (granuleSystem 2)).2.lib.pagingDefinition 0 0x3000 := by
  have loaded : pteditorInit aarch64Platform (granuleLoad 2) ⟨fun _ => false, .initial⟩ =
      (0, (pteditorInit aarch64Platform (granuleLoad 2) ⟨fun _ => false, .initial⟩).2) :=
    Prod.ext (by decide) rfl
  exact (resolveAlike_iff loaded (s := granuleSystem 2) rfl (by decide) 4 16384
    (by decide)).mpr (.inl (by decide))

/-- With 64 KiB pages the first two 4 KiB blocks of page 0 do not. -/
theorem not_resolveAlike_second_block :
    (pteditorInit aarch64Platform (granuleLoad 1) ⟨fun _ => false, .initial⟩).1 = 0 ∧
      (granuleSystem 1).kernel.realPageSize = 65536 ∧
      ¬ ResolveAlike .aarch64
        (pteditInit aarch64Platform 3 4 65536 (granuleSystem 1)).2.lib.pagingDefinition
        0 0x1000 := by
  refine ⟨by decide, by decide, ?_⟩
  rw [pteditInit_definition aarch64Platform (by decide)]
  exact not_resolveAlike_pages64k (by decide) (by decide)

end PTEditor.Linux.PageOffsets
