/-
# PTEditor.Demos.VirtToPhys -- the demo that prints a physical address

`virt2phys.c` resolves an address and puts its physical address together itself: the frame
number of the PTE and twelve bits of the address, or, if the PMD is large, the frame number
of the PMD and twenty-one bits.  A frame number counts pages of 4 KiB at every level, but
the demo shifts the one of a large page by 21.

`virt2phys_right_iff` compares it with the processor's walk: it is right for every 4 KiB
page, and for no large page but the one at physical address zero.
-/
import PTEditor.Demos.MemoryMap
import PTEditor.Linux.DataFrames

namespace PTEditor.Demos.VirtToPhys

open PTEditor.Theory.ByteMemory PTEditor.Interface PTEditor.Module
open PTEditor.Library PTEditor.Library.X86Walk PTEditor.Library.EntryFields
open PTEditor.Linux.Agreement PTEditor.Linux.KernelEdits PTEditor.Linux.MixedRuns
open PTEditor.Linux.Mmu PTEditor.Linux.Programs PTEditor.Demos.MemoryMap

set_option autoImplicit false

def virt2phys (P : Platform) (addr : Word) (s : System) : Option (Word × System) :=
  (pteditResolve P addr 0 s).map fun (entry, s) =>
    if isNormalPage P.arch entry.pmd then
      ((pteditGetPfn P.arch entry.pte <<< 12) ||| (addr &&& 0xfff), s)
    else ((pteditGetPfn P.arch entry.pmd <<< 21) ||| (addr &&& 0x1fffff), s)

/-! ## Arithmetic -/

theorem toNat_low (addr : Word) {width : Nat} (narrow : width ≤ 64) :
    (addr &&& BitVec.ofNat 64 (2 ^ width - 1)).toNat = addr.toNat % 2 ^ width := by
  have fits : 2 ^ width - 1 < 2 ^ 64 := by
    have bound := Nat.pow_le_pow_right (show 0 < 2 by decide) narrow
    have positive := Nat.two_pow_pos width
    omega
  rw [BitVec.toNat_and, BitVec.toNat_ofNat, Nat.mod_eq_of_lt fits, Nat.and_two_pow_sub_one_eq_mod]

/-- A frame number, shifted over the bits of the address. -/
theorem toNat_put_together (pfn addr : Word) {width : Nat} (narrow : width < 64) :
    ((pfn <<< width) ||| (addr &&& BitVec.ofNat 64 (2 ^ width - 1))).toNat =
      pfn.toNat * 2 ^ width % 2 ^ 64 + addr.toNat % 2 ^ width := by
  have split : 2 ^ 64 = 2 ^ width * 2 ^ (64 - width) := by
    rw [← Nat.pow_add]
    congr 1
    omega
  have high : pfn.toNat * 2 ^ width % 2 ^ 64 = (pfn.toNat % 2 ^ (64 - width)) <<< width := by
    rw [split, Nat.mul_comm pfn.toNat, Nat.mul_mod_mul_left, Nat.shiftLeft_eq, Nat.mul_comm]
  rw [BitVec.toNat_or, toNat_low addr (Nat.le_of_lt narrow), BitVec.toNat_shiftLeft,
    Nat.shiftLeft_eq, high, ← Nat.shiftLeft_add_eq_or_of_lt (Nat.mod_lt _ (Nat.two_pow_pos width))]

theorem toNat_getPfn (entry : Word) :
    (pteditGetPfn .x86_64 entry).toNat = entry.toNat / 2 ^ 12 % 2 ^ 40 := by
  rw [pteditGetPfn_eq_pointee, pointee]
  simp only [BitVec.toNat_setWidth, BitVec.extractLsb'_toNat, Nat.shiftRight_eq_div_pow]
  omega

/-- For a small page the demo does what the processor does. -/
theorem physical_small {mapping : Mapping} {pte : Word} (frame : mapping.frame = pointee pte)
    (addr : Word) :
    (pteditGetPfn .x86_64 pte <<< 12) ||| (addr &&& 0xfff) = mapping.physical addr := by
  apply BitVec.eq_of_toNat_eq
  have sum := toNat_put_together (pteditGetPfn .x86_64 pte) addr (show 12 < 64 by decide)
  have pfn : (pointee pte).toNat = (pteditGetPfn .x86_64 pte).toNat := by
    rw [pteditGetPfn_eq_pointee, BitVec.toNat_setWidth]
    omega
  have bound : (pteditGetPfn .x86_64 pte).toNat < 2 ^ 40 := pteditGetPfn_lt pte
  refine sum.trans ?_
  rw [Mapping.physical, frame, BitVec.toNat_append, BitVec.extractLsb'_toNat, Nat.shiftRight_zero,
    ← Nat.shiftLeft_add_eq_or_of_lt (Nat.mod_lt _ (Nat.two_pow_pos 12)), Nat.shiftLeft_eq, pfn]
  omega

/-- For a large page it does so only if the frame number is zero. -/
theorem physical_large_iff (upper : Rights) (pmd addr : Word) :
    (pteditGetPfn .x86_64 pmd <<< 21) ||| (addr &&& 0x1fffff) =
        (largeMapping upper pmd addr).physical addr ↔ pteditGetPfn .x86_64 pmd = 0 := by
  have sum := toNat_put_together (pteditGetPfn .x86_64 pmd) addr (show 21 < 64 by decide)
  have pfn := toNat_getPfn pmd
  rw [pfn] at sum
  have physical : ((largeMapping upper pmd addr).physical addr).toNat =
      pmd.toNat / 2 ^ 21 % 2 ^ 31 * 2 ^ 21 + addr.toNat % 2 ^ 21 := by
    rw [Mapping.physical, BitVec.toNat_append, BitVec.extractLsb'_toNat, Nat.shiftRight_zero,
      ← Nat.shiftLeft_add_eq_or_of_lt (Nat.mod_lt _ (Nat.two_pow_pos 12)), Nat.shiftLeft_eq]
    have frame : (largeMapping upper pmd addr).frame.toNat =
        pmd.toNat / 2 ^ 21 % 2 ^ 31 * 2 ^ 9 + addr.toNat / 2 ^ 12 % 2 ^ 9 := by
      rw [largeMapping, BitVec.toNat_setWidth, BitVec.toNat_append,
        ← Nat.shiftLeft_add_eq_or_of_lt (BitVec.isLt _), Nat.shiftLeft_eq]
      simp only [BitVec.extractLsb'_toNat, Nat.shiftRight_eq_div_pow]
      omega
    rw [frame]
    omega
  rw [← BitVec.toNat_inj, ← BitVec.toNat_inj, physical]
  refine (Eq.congr_left sum).trans ?_
  rw [pfn]
  change _ ↔ _ = 0
  have upperPart : pmd.toNat / 2 ^ 21 % 2 ^ 31 = pmd.toNat / 2 ^ 12 % 2 ^ 40 / 2 ^ 9 := by omega
  have bound : pmd.toNat / 2 ^ 12 % 2 ^ 40 < 2 ^ 40 := Nat.mod_lt _ (Nat.two_pow_pos 40)
  rw [upperPart]
  generalize pmd.toNat / 2 ^ 12 % 2 ^ 40 = number at bound
  rw [Nat.mod_eq_of_lt (show number * 2 ^ 21 < 2 ^ 64 by omega)]
  clear sum pfn physical upperPart
  omega

/-! ## The demo -/

section Demo

variable {P : Platform} {s : System} {root addr : Word}

/-- **When the printed address is the physical address**: for pages of 4 KiB always, for large
pages only if the frame number in the PMD is zero.  It does not matter whether the library walks
through the kernel or with `pread`. -/
theorem virt2phys_right_iff (four : FourLevel P) (ready : Ready P s) (target : Target P s root 0)
    (orderly : OrderlyWalk P s.kernel.mem root addr) {mapping : Mapping}
    (mapped : pageWalk s.kernel.mem root addr = some mapping) :
    ∃ phys s', virt2phys P addr s = some (phys, s') ∧
      (phys = mapping.physical addr ↔
        (pmdEntry s.kernel.mem root addr).getLsbD 7 = false ∨
          pteditGetPfn .x86_64 (pmdEntry s.kernel.mem root addr) = 0) := by
  have canonical : Canonical addr := by
    by_contra outside
    rw [pageWalk_not_canonical outside] at mapped
    cases mapped
  rw [pageWalk_orderly orderly canonical] at mapped
  obtain ⟨vm, s', resolves, -, -, word⟩ := resolve_leaf four ready target orderly
  simp only [virt2phys, resolves, Option.map_some, four.arch, isNormalPage_eq, stopsAtPmd_x86_64]
  cases leaf : leafAt s.kernel.mem root addr with
  | some pte =>
      rw [leaf] at mapped word
      obtain ⟨pgd, pud, pmd, small⟩ := (leafAt_isSome orderly).mp (by rw [leaf]; rfl)
      obtain ⟨-, pmdWord⟩ := resolve_upper four ready target orderly pgd pud pmd resolves
      have read : vm.pte = pte := word
      simp only [pmdWord, small, Bool.not_false, if_true, read, true_or, iff_true]
      exact ⟨_, s', rfl, physical_small (frame_of_mapped mapped) addr⟩
  | none =>
      rw [leaf] at mapped
      simp only [leafless] at mapped
      split at mapped
      · cases mapped
      rename_i walked
      obtain ⟨pgd, pud, pmd⟩ : pgdEntry s.kernel.mem root addr ≠ 0 ∧
          pudEntry s.kernel.mem root addr ≠ 0 ∧ pmdEntry s.kernel.mem root addr ≠ 0 :=
        ⟨fun zero => walked (.inl zero), fun zero => walked (.inr (.inl zero)),
          fun zero => walked (.inr (.inr zero))⟩
      obtain ⟨-, pmdWord⟩ := resolve_upper four ready target orderly pgd pud pmd resolves
      have large : (pmdEntry s.kernel.mem root addr).getLsbD 7 = true := by
        by_contra small
        have present := (leafAt_isSome orderly).mpr ⟨pgd, pud, pmd, Bool.eq_false_of_not_eq_true small⟩
        rw [leaf] at present
        cases present
      cases mapped
      simp only [pmdWord, large, Bool.not_true, Bool.false_eq_true, if_false, Bool.true_eq_false,
        false_or]
      exact ⟨_, s', rfl, physical_large_iff _ _ addr⟩

/-- The one page, and a large page at 4 MiB behind the second PMD. -/
def largePageSystem : System :=
  { onePageKernelSystem with
    kernel := { onePageKernel with mem := write64 onePageMem 0x3008 0x400087 } }

theorem virt2phys_right_largePage :
    ∃ phys s', virt2phys fourLevelPlatform 0x201234 largePageSystem = some (phys, s') ∧
      phys ≠ 0x401234 := by
  have rooted : fourLevelPlatform.virtToPhys (onePageKernel.pgd 0) = 0x1000 :=
    fourLevelPlatform.virtToPhys_physToVirt 0x1000
  have orderly : OrderlyWalk fourLevelPlatform largePageSystem.kernel.mem 0x1000 0x201234 := by
    constructor <;> decide +kernel
  have mapped : pageWalk largePageSystem.kernel.mem 0x1000 0x201234 =
      some ⟨0x401, ⟨true, true, true⟩⟩ := by decide +kernel
  obtain ⟨phys, s', printed, right⟩ := virt2phys_right_iff fourLevelPlatform_fourLevel
    ⟨.inl ⟨rfl, rfl⟩, rfl⟩ ⟨0, rfl, rooted, by decide, by decide⟩ orderly mapped
  refine ⟨phys, s', printed, fun same => ?_⟩
  have either := right.mp (same.trans (by decide))
  revert either
  decide +kernel

end Demo

end PTEditor.Demos.VirtToPhys
