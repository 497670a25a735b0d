/-
# PTEditor.Demos.MapPageTable -- the demo that maps its own page table

`map_pt_manual.c` points the PTE of one page (`pt`) at the table that holds the PTE of
another (`target`), and from then on edits that PTE with plain stores: it sends `target`
to the frame of a third page (`secret`), reads `target`, and puts everything back.  Its
stores go around the module, so it invalidates `target` by hand.

`map_pt_manual_works` says that a run of the demo passes both its checks, whatever the
processor caches, and leaves physical memory as it found it.  The custom method, if it is
selected, is taken to drop the page on every processor (`PTEditor.Module.Invalidation` says
when it does).
-/
import PTEditor.Linux.DataFrames

namespace PTEditor.Demos.MapPageTable

open PTEditor.Theory.ByteMemory PTEditor.Theory.RadixTree PTEditor.Theory.Runs
open PTEditor.Theory.CachedReads PTEditor.Interface PTEditor.Module
open PTEditor.Library PTEditor.Library.X86Walk PTEditor.Library.PageMap
open PTEditor.Library.EntryFields PTEditor.Linux.Agreement PTEditor.Linux.KernelEdits
open PTEditor.Linux.MixedRuns PTEditor.Linux.Mmu PTEditor.Linux.TlbRuns PTEditor.Linux.Programs

set_option autoImplicit false

/-! ## The program -/

/-- `map_pt_manual.c` between `ptedit_init` and `ptedit_cleanup`, without its prints: whether it
found the PTE of `target` in `pt`, and whether `target` then began with an S. -/
def mapPtManual (P : Platform) (noise : Nat → List (Event Command Word))
    (pt target secret : Word) (m : Machine) :
    Option (Bool × Bool × Machine) := do
  let (secretEntry, m) ← ask (pteditResolve P secret 0) m
  let (targetEntry, m) ← ask (pteditResolve P target 0) m
  let (ptEntry, m) ← ask (pteditResolve P pt 0) m
  let oldPte := ptEntry.pte
  let newPte := pteditSetPfn P.arch ptEntry.pte (pteditGetPfn P.arch targetEntry.pmd)
  let m ← updatePte P pt ptEntry newPte (cpu P (noise 0) m)
  let entry := (target >>> 12) &&& 0x1ff
  let mappedEntry := pt + 8#64 * entry
  let m := cpu P (noise 1) m
  let found ← loadWord P mappedEntry m
  let worked := found == targetEntry.pte
  let m := cpu P (noise 2) m
  let current ← loadWord P mappedEntry m
  let m ← storeWord P mappedEntry
    (pteditSetPfn P.arch current (pteditGetPfn P.arch secretEntry.pte)) (cpu P (noise 3) m)
  let m ← tell (fun s => some (pteditInvalidateTlb P target s)) (cpu P (noise 4) m)
  let m := cpu P (noise 5) m
  let seen ← loadByte P target m
  let success := seen == 0x53
  let m ← storeWord P mappedEntry targetEntry.pte (cpu P (noise 6) m)
  let m ← updatePte P pt ptEntry oldPte (cpu P (noise 7) m)
  return (worked, success, m)

/-! ## The demo -/

section Demo

/-- `((size_t *)pt) + entry`, with the index of the PTE of `target`. -/
def mappedEntry (pt target : Word) : Word := pt + 8#64 * ((target >>> 12) &&& 0x1ff)

theorem toNat_mappedEntry {pt : Word} (page : UserPage pt) (target : Word) :
    (mappedEntry pt target).toNat = pt.toNat + 8 * (addressIndex .pte target).toNat := by
  have index := toNat_index target 12
  have bound : (addressIndex .pte target).toNat < 512 := (addressIndex .pte target).isLt
  have lower := page.lower
  have value : ((target >>> 12) &&& 0x1ff).toNat = (addressIndex .pte target).toNat := index
  simp only [mappedEntry, BitVec.toNat_add, BitVec.toNat_mul, value, BitVec.toNat_ofNat]
  omega

theorem mappedEntry_page {pt : Word} (page : UserPage pt) (target : Word) :
    mappedEntry pt target >>> 12 = pt >>> 12 := by
  apply BitVec.eq_of_toNat_eq
  have bound : (addressIndex .pte target).toNat < 512 := (addressIndex .pte target).isLt
  have aligned := page.aligned
  simp only [BitVec.toNat_ushiftRight, Nat.shiftRight_eq_div_pow, toNat_mappedEntry page target]
  omega

/-- If `pt` is mapped to a table, its mapped entry is the slot of the index in it. -/
theorem physical_mappedEntry {pt : Word} (page : UserPage pt) (target : Word) (mapping : Mapping) :
    mapping.physical (mappedEntry pt target) = slot mapping.frame (addressIndex .pte target) := by
  apply BitVec.eq_of_toNat_eq
  have bound : (addressIndex .pte target).toNat < 512 := (addressIndex .pte target).isLt
  have aligned := page.aligned
  have offset : (BitVec.extractLsb' 0 12 (mappedEntry pt target)).toNat =
      8 * (addressIndex .pte target).toNat := by
    rw [BitVec.extractLsb'_toNat, toNat_mappedEntry page target]
    omega
  rw [slot_toNat, Mapping.physical, BitVec.toNat_append, offset,
    ← Nat.shiftLeft_add_eq_or_of_lt (by omega), Nat.shiftLeft_eq]
  omega

/-- Once `pt` is mapped to the table of `target`, its mapped entry is the PTE of `target`. -/
theorem physical_mapped {P : Platform} {root : Word} {mem : Mem} {pt target slot pte : Word}
    {rights : Rights} (leaf : Leaf P root mem target slot pte rights) (page : UserPage pt)
    (mapping : Mapping) :
    ({ mapping with frame := pointee (pmdEntry mem root target) } : Mapping).physical
      (mappedEntry pt target) = slot := by
  obtain ⟨pgd, pud, -, small⟩ := (leafAt_isSome leaf.orderly).mp (by
    rw [leaf.leafAt]
    rfl)
  rw [physical_mappedEntry page target, leaf.slot_eq, pointee_eq (leaf.orderly.pmdNarrow pgd pud small)]

section Works

variable {P : Platform} {root : Word} {mem : Mem} {pt target secret : Word}
  {ptSlot ptPte targetSlot targetPte secretSlot secretPte : Word}
  {ptRights targetRights secretRights : Rights} {ptMapping targetMapping secretMapping : Mapping}

/-- The memory after the demo has changed both PTEs and put both back. -/
theorem stores_restore (ptLeaf : Leaf P root mem pt ptSlot ptPte ptRights)
    (targetLeaf : Leaf P root mem target targetSlot targetPte targetRights)
    (apart : Apart ptSlot targetSlot) (v w : Word) :
    write64 (write64 (write64 (write64 mem ptSlot v) targetSlot w) targetSlot targetPte) ptSlot ptPte =
      mem := by
  rw [write64_write64, write64_comm mem v targetPte apart, write64_write64, ← ptLeaf.holds,
    ← targetLeaf.holds, write64_comm mem _ _ apart.symm, write64_read64, write64_read64]

/-- **The demo works, whatever the processor does.**  Let `pt`, `target` and `secret` be pages of
the lower half with present PTEs, `pt` another page than `target`, mapped for the user and `pt`
for writing; let `secret` begin with an S that is not part of the two PTEs, and let the cache
hold nothing wrong for `pt`.  Then for every list of fills and evictions between the steps the
demo runs through, finds the PTE of `target` in `pt`, reads the S at `target`, and leaves all of
physical memory as it was. -/
theorem map_pt_manual_works (four : FourLevel P) {m : Machine}
    (stage : Stage P (own m) root mem m)
    (noise : Nat → List (Theory.CachedReads.Event Command Word))
    (silent : ∀ i, actionsOf (noise i) = [])
    (ptPage : UserPage pt) (targetPage : UserPage target) (secretPage : UserPage secret)
    (apart : samePage pt target = false)
    (ptLeaf : Leaf P root mem pt ptSlot ptPte ptRights)
    (targetLeaf : Leaf P root mem target targetSlot targetPte targetRights)
    (secretLeaf : Leaf P root mem secret secretSlot secretPte secretRights)
    (ptMapped : mappingOf ptRights ptPte = some ptMapping)
    (targetMapped : mappingOf targetRights targetPte = some targetMapping)
    (secretMapped : mappingOf secretRights secretPte = some secretMapping)
    (ptUser : ptMapping.rights.user = true) (ptWritable : ptMapping.rights.writable = true)
    (targetUser : targetMapping.rights.user = true)
    (secretByte : mem (secretMapping.physical secret) = 0x53)
    (secretApart : ∀ slot, slot = ptSlot ∨ slot = targetSlot →
      8#64 ≤ secretMapping.physical secret - slot)
    (ptFresh : Fresh P (own m) (pt >>> 12) m) :
    ∃ m', mapPtManual P noise pt target secret m = some (true, true, m') ∧
      m'.system.kernel.mem = mem := by
  have shaped : TreeShapedMemory mem root := by
    rw [← stage.mem]
    exact stage.sound.shaped
  have apart' : samePage target pt = false := by
    simp only [samePage, beq_eq_false_iff_ne] at apart ⊢
    exact apart.symm
  -- three resolves
  obtain ⟨secretEntry, m₁, asked₁, secretRecord, stage₁, keeps₁⟩ := stage.resolve four secretLeaf
  obtain ⟨targetEntry, m₂, asked₂, targetRecord, stage₂, keeps₂⟩ := stage₁.resolve four targetLeaf
  obtain ⟨ptEntry, m₃, asked₃, ptRecord, stage₃, keeps₃⟩ := stage₂.resolve four ptLeaf
  -- `pt` is sent to the table of `target`
  obtain ⟨stage₄, keeps₄⟩ := stage₃.cpu four (silent 0)
  have keptTo₄ := ((keeps₁.trans keeps₂).trans keeps₃).trans keeps₄
  obtain ⟨m₅, told₅, stage₅, -, fresh₅⟩ := stage₄.update four ptLeaf ptPage ptEntry
    (pteditSetPfn .x86_64 ptPte (pteditGetPfn .x86_64 (pmdEntry mem root target)))
  have ptFresh₅ := fresh₅ pt _ _ _ ptPage ptLeaf (keptTo₄.fresh _ ptFresh)
  have ptMapped₅ := mappingOf_setPfn ptMapped (pmdEntry mem root target)
  generalize moved : pteditSetPfn .x86_64 ptPte (pteditGetPfn .x86_64 (pmdEntry mem root target)) = v
    at told₅ stage₅ ptMapped₅
  have shaped₅ := ptLeaf.write_shaped shaped v
  have ptLeaf₅ := ptLeaf.write_self shaped v
  have targetLeaf₅ := ptLeaf.write_other shaped v targetLeaf apart
  have table := physical_mapped targetLeaf ptPage ptMapping
  -- two loads find the PTE of `target`, and a store replaces it
  obtain ⟨stage₆, keeps₆⟩ := stage₅.cpu four (silent 1)
  have found := stage₆.loadWord_eq ptLeaf₅ ptPage ptMapped₅ ptUser (mappedEntry_page ptPage target)
    (keeps₆.fresh _ ptFresh₅)
  obtain ⟨stage₇, keeps₇⟩ := stage₆.cpu four (silent 2)
  have current := stage₇.loadWord_eq ptLeaf₅ ptPage ptMapped₅ ptUser (mappedEntry_page ptPage target)
    ((keeps₆.trans keeps₇).fresh _ ptFresh₅)
  rw [table, targetLeaf₅.holds] at found current
  obtain ⟨stage₈, keeps₈⟩ := stage₇.cpu four (silent 3)
  have ptFresh₈ := ((keeps₆.trans keeps₇).trans keeps₈).fresh _ ptFresh₅
  have targetMapped₉ := mappingOf_setPfn targetMapped secretPte
  generalize redirected : pteditSetPfn .x86_64 targetPte (pteditGetPfn .x86_64 secretPte) = w
    at targetMapped₉
  have stored₉ := stage₈.storeWord_eq w ptLeaf₅ ptPage ptMapped₅ ptUser ptWritable
    (mappedEntry_page ptPage target) ptFresh₈ table
  obtain ⟨stage₉, fresh₉⟩ := stage₈.setPte targetLeaf₅ w
  have ptFresh₉ := fresh₉ pt _ _ _ ptPage ptLeaf₅ apart' ptFresh₈
  have shaped₉ := targetLeaf₅.write_shaped shaped₅ w
  have targetLeaf₉ := targetLeaf₅.write_self shaped₅ w
  have ptLeaf₉ := targetLeaf₅.write_other shaped₅ w ptLeaf₅ apart'
  -- `target` is invalidated by hand, and a load goes to the frame of `secret`
  obtain ⟨stage₁₀, keeps₁₀⟩ := stage₉.cpu four (silent 4)
  obtain ⟨m₁₁, told₁₁, stage₁₁, targetFresh₁₁, keeps₁₁⟩ := stage₁₀.invalidate four targetPage
  obtain ⟨stage₁₂, keeps₁₂⟩ := stage₁₁.cpu four (silent 5)
  have seen := stage₁₂.loadByte_eq targetLeaf₉ targetPage targetMapped₉ targetUser rfl
    (keeps₁₂.fresh _ targetFresh₁₁)
  have here : ({ targetMapping with frame := pointee secretPte } : Mapping).physical target =
      secretMapping.physical secret := by
    rw [physical_start targetPage, physical_start secretPage, frame_of_mapped secretMapped]
  rw [here,
    write64_outside _ _ _ _ (secretApart _ (.inr rfl)),
    write64_outside _ _ _ _ (secretApart _ (.inl rfl)), secretByte] at seen
  -- both PTEs are put back
  obtain ⟨stage₁₃, keeps₁₃⟩ := stage₁₂.cpu four (silent 6)
  have stored₁₄ := stage₁₃.storeWord_eq targetPte ptLeaf₉ ptPage ptMapped₅ ptUser ptWritable
    (mappedEntry_page ptPage target)
    ((((keeps₁₀.trans keeps₁₁).trans keeps₁₂).trans keeps₁₃).fresh _ ptFresh₉) table
  obtain ⟨stage₁₄, -⟩ := stage₁₃.setPte targetLeaf₉ targetPte
  obtain ⟨stage₁₅, -⟩ := stage₁₄.cpu four (silent 7)
  obtain ⟨m₁₆, told₁₆, stage₁₆, -⟩ := stage₁₅.update four
    (targetLeaf₉.write_other shaped₉ targetPte ptLeaf₉ apart') ptPage ptEntry ptPte
  refine ⟨m₁₆, ?_, ?_⟩
  · have entry : pt + 8#64 * ((target >>> 12) &&& 0x1ff) = mappedEntry pt target := rfl
    simp only [mapPtManual, Option.bind_eq_bind, Option.bind_some, asked₁, asked₂, asked₃, four.arch,
      ptRecord.pte, targetRecord.pmd, targetRecord.pte, secretRecord.pte, moved, told₅, entry, found,
      current, redirected]
    rw [stored₉, Option.bind_some, told₁₁, Option.bind_some, seen, Option.bind_some, stored₁₄,
      Option.bind_some, told₁₆, Option.bind_some, beq_self_eq_true, beq_self_eq_true]
    rfl
  · rw [stage₁₆.mem]
    exact stores_restore ptLeaf targetLeaf (ptLeaf.apart shaped targetLeaf apart) v w

/-- The machine with one page after three more have been mapped: pages 1 and 2 to frames of their
own, page 3 to the table itself, which begins with an S. -/
def fourPagesMem : Mem :=
  write64 (write64 (write64 (write64 onePageMem 0x4000 0x5053) 0x4008 0x6007) 0x4010 0x7007)
    0x4018 0x4007

def fourPagesMachine : Machine :=
  ⟨{ onePageKernelSystem with kernel := { onePageKernel with mem := fourPagesMem } },
    fun _ => ⟨0, ⟨false, false, false⟩⟩⟩

theorem fourPagesMem_treeShaped : TreeShapedMemory fourPagesMem 0x1000 := by
  have leaf₀ : Leaf fourLevelPlatform 0x1000 onePageMem 0 0x4000 0x5007 Rights.all :=
    ⟨onePage_orderly, by decide +kernel, by decide +kernel, by decide +kernel⟩
  have leaf₁ : Leaf fourLevelPlatform 0x1000 onePageMem 0x1000 0x4008 0 Rights.all :=
    ⟨by constructor <;> decide +kernel, by decide +kernel, by decide +kernel, by decide +kernel⟩
  have leaf₂ : Leaf fourLevelPlatform 0x1000 onePageMem 0x2000 0x4010 0 Rights.all :=
    ⟨by constructor <;> decide +kernel, by decide +kernel, by decide +kernel, by decide +kernel⟩
  have leaf₃ : Leaf fourLevelPlatform 0x1000 onePageMem 0x3000 0x4018 0 Rights.all :=
    ⟨by constructor <;> decide +kernel, by decide +kernel, by decide +kernel, by decide +kernel⟩
  have shaped₀ : TreeShapedMemory onePageMem 0x1000 := onePageMem_treeShaped
  have shaped₁ := leaf₀.write_shaped shaped₀ 0x5053
  have second := leaf₀.write_other shaped₀ 0x5053 leaf₁ (by decide)
  have third := leaf₀.write_other shaped₀ 0x5053 leaf₂ (by decide)
  have fourth := leaf₀.write_other shaped₀ 0x5053 leaf₃ (by decide)
  have shaped₂ := second.write_shaped shaped₁ 0x6007
  have third' := second.write_other shaped₁ 0x6007 third (by decide)
  have fourth' := second.write_other shaped₁ 0x6007 fourth (by decide)
  exact (third'.write_other shaped₂ 0x7007 fourth' (by decide)).write_shaped
    (third'.write_shaped shaped₂ 0x7007) 0x4007

/-- The processor fills the pages of `pt` and `target` whenever it can. -/
theorem map_pt_manual_works_fourPages :
    ∃ m', mapPtManual fourLevelPlatform (fun _ => [.fill 1, .fill 2]) 0x1000 0x2000 0x3000
      fourPagesMachine = some (true, true, m') ∧ m'.system.kernel.mem = fourPagesMem := by
  have rooted : fourLevelPlatform.virtToPhys (onePageKernel.pgd 0) = 0x1000 :=
    fourLevelPlatform.virtToPhys_physToVirt 0x1000
  have stage : Stage fourLevelPlatform (own fourPagesMachine) 0x1000 fourPagesMem
      fourPagesMachine :=
    ⟨⟨⟨.inl ⟨rfl, rfl⟩, rfl⟩, fourPagesMem_treeShaped, ⟨fun _ => ⟨rfl, rfl⟩⟩, rfl, rooted⟩, rfl,
      ⟨by decide, by decide⟩, rfl⟩
  have ptLeaf : Leaf fourLevelPlatform 0x1000 fourPagesMem 0x1000 0x4008 0x6007 Rights.all :=
    ⟨by constructor <;> decide +kernel, by decide +kernel, by decide +kernel, by decide +kernel⟩
  have targetLeaf : Leaf fourLevelPlatform 0x1000 fourPagesMem 0x2000 0x4010 0x7007 Rights.all :=
    ⟨by constructor <;> decide +kernel, by decide +kernel, by decide +kernel, by decide +kernel⟩
  have secretLeaf : Leaf fourLevelPlatform 0x1000 fourPagesMem 0x3000 0x4018 0x4007 Rights.all :=
    ⟨by constructor <;> decide +kernel, by decide +kernel, by decide +kernel, by decide +kernel⟩
  exact map_pt_manual_works fourLevelPlatform_fourLevel stage (fun _ => [.fill 1, .fill 2])
    (fun _ => rfl) ⟨by decide, by decide⟩ ⟨by decide, by decide⟩ ⟨by decide, by decide⟩ (by decide)
    ptLeaf targetLeaf secretLeaf
    (show mappingOf Rights.all 0x6007 = some ⟨6, Rights.all⟩ by decide)
    (show mappingOf Rights.all 0x7007 = some ⟨7, Rights.all⟩ by decide)
    (show mappingOf Rights.all 0x4007 = some ⟨4, Rights.all⟩ by decide)
    rfl rfl rfl (by decide +kernel) (by rintro slot (rfl | rfl) <;> decide)
    (fun held => by cases held)

end Works

end Demo

end PTEditor.Demos.MapPageTable
