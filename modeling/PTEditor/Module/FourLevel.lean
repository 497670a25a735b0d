/-
# PTEditor.Module.FourLevel -- the kernel's helpers on a 4-level x86-64 machine

The page-table helpers are the kernel's, not the repository's.  `FourLevel` is
what the module relies on when x86-64 runs with four levels and the P4D is
folded into the PGD: `p4d_offset` hands its argument back, `pgd_none` and
`pgd_bad` always say no, and the P4D predicates ask the PGD's own word.  The
walk of such a machine follows from the three table entries of the address
(`walkPgd_fourLevel` and the lemmas below it).

`fourLevelPlatform` is one platform that meets the assumptions.
-/
import PTEditor.Module.Walk

namespace PTEditor.Module

open PTEditor.Theory.ByteMemory PTEditor.Interface

set_option autoImplicit false

def pgdSlot (root addr : Word) : Word := root + 8#64 * ((addr >>> 39) &&& 511#64)

/-- The slot of an address below `parent`: bits 12 to 51 of the entry are the
frame, and nine bits of the address from `shift` on the index. -/
def tableSlot (parent addr : Word) (shift : Nat) : Word :=
  bitField parent 12 40 * 4096#64 + 8#64 * ((addr >>> shift) &&& 511#64)

/-- x86-64, four levels, P4D folded, kernel 4.11 or later.  `pte_offset_map` may
return `NULL` below a large PMD, as recent kernels do. -/
structure FourLevel (P : Platform) : Prop where
  arch : P.arch = .x86_64
  version : P.hasP4d = true
  pgdOffset : ∀ root addr, P.helpers.pgdOffset root addr = pgdSlot root addr
  p4dOffset : ∀ mem pgd addr, P.helpers.p4dOffset mem pgd addr = pgd
  pudOffset : ∀ mem p4d addr, P.helpers.pudOffset mem p4d addr = tableSlot (read64 mem p4d) addr 30
  pmdOffset : ∀ mem pud addr, P.helpers.pmdOffset mem pud addr = tableSlot (read64 mem pud) addr 21
  pteOffsetMap : ∀ mem pmd addr, P.helpers.pmdLarge (read64 mem pmd) = false →
    P.helpers.pteOffsetMap mem pmd addr = some (tableSlot (read64 mem pmd) addr 12)
  pgdNone : ∀ pgd, P.helpers.pgdNone pgd = false
  pgdBad : ∀ pgd, P.helpers.pgdBad pgd = false
  p4dNone : ∀ p4d, P.helpers.p4dNone p4d = decide (p4d = 0)
  pudNone : ∀ pud, P.helpers.pudNone pud = decide (pud = 0)
  pmdNone : ∀ pmd, P.helpers.pmdNone pmd = decide (pmd = 0)
  pudLarge : ∀ pud, P.helpers.pudLarge pud = pud.getLsbD 7
  pmdLarge : ∀ pmd, P.helpers.pmdLarge pmd = pmd.getLsbD 7

/-- The helpers of a kernel that walks a large PMD like any other.  A bad P4D is
one with a flag outside present, write, user, accessed, dirty and no-execute. -/
def fourLevelHelpers : Helpers where
  pgdOffset := pgdSlot
  p4dOffset _ pgd _ := pgd
  pudOffset mem p4d addr := tableSlot (read64 mem p4d) addr 30
  pmdOffset mem pud addr := tableSlot (read64 mem pud) addr 21
  pteOffsetMap mem pmd addr := some (tableSlot (read64 mem pmd) addr 12)
  pgdNone _ := false
  pgdBad _ := false
  p4dNone p4d := decide (p4d = 0)
  p4dBad p4d := p4d &&& 0x7ff0000000000f98#64 != 0
  pudNone pud := decide (pud = 0)
  pmdNone pmd := decide (pmd = 0)
  pudLarge pud := pud.getLsbD 7
  pmdLarge pmd := pmd.getLsbD 7

/-- Linux 5.15 on such a machine. -/
def fourLevelPlatform : Platform where
  arch := .x86_64
  linuxVersionCode := kernelVersion 5 15 0
  pageOffset := 0xffff888000000000#64
  helpers := fourLevelHelpers

theorem fourLevelPlatform_fourLevel : FourLevel fourLevelPlatform where
  arch := rfl
  version := by decide
  pgdOffset _ _ := rfl
  p4dOffset _ _ _ := rfl
  pudOffset _ _ _ := rfl
  pmdOffset _ _ _ := rfl
  pteOffsetMap _ _ _ _ := rfl
  pgdNone _ := rfl
  pgdBad _ := rfl
  p4dNone _ := rfl
  pudNone _ := rfl
  pmdNone _ := rfl
  pudLarge _ := rfl
  pmdLarge _ := rfl

section Walk

variable {P : Platform} (four : FourLevel P) (mem : Mem) (root addr pid : Word)

include four

theorem walkPte_fourLevel (pmd : Word) (entry : Vm) :
    (walkPte P mem addr pmd entry).1 =
      if (read64 mem pmd).getLsbD 7 then entry
      else entry.reach .pte (tableSlot (read64 mem pmd) addr 12) := by
  have large : P.pmdLarge (read64 mem pmd) = (read64 mem pmd).getLsbD 7 := by
    simp only [Platform.pmdLarge, four.arch, four.pmdLarge]
  simp only [walkPte, large]
  cases size : (read64 mem pmd).getLsbD 7 with
  | true =>
      simp only [if_true]
      split <;> rfl
  | false =>
      rw [four.pteOffsetMap mem pmd addr (by rw [four.pmdLarge, size])]
      simp

theorem walkPmd_fourLevel (pud : Word) (entry : Vm) :
    (walkPmd P mem addr pud entry).1 =
      let pmd := tableSlot (read64 mem pud) addr 21
      if read64 mem pmd = 0 ∨ (read64 mem pud).getLsbD 7 = true then entry
      else (walkPte P mem addr pmd (entry.reach .pmd pmd)).1 := by
  have large : P.pudLarge (read64 mem pud) = (read64 mem pud).getLsbD 7 := by
    simp only [Platform.pudLarge, four.arch, four.pudLarge]
  simp only [walkPmd, large, four.pmdOffset, four.pmdNone, Bool.or_eq_true,
    decide_eq_true_eq]
  split <;> rfl

theorem walkPgd_fourLevel :
    (walkPgd P mem addr root (Vm.cleared pid)).1 =
      let pgd := pgdSlot root addr
      let entry := (Vm.cleared pid).reach .pgd pgd
      if read64 mem pgd = 0 ∨ P.helpers.p4dBad (read64 mem pgd) = true then entry
      else
        let entry := entry.reach .p4d pgd
        let pud := tableSlot (read64 mem pgd) addr 30
        if read64 mem pud = 0 then entry
        else (walkPmd P mem addr pud (entry.reach .pud pud)).1 := by
  simp only [walkPgd, walkP4d, walkPud, four.version, four.pgdOffset,
    four.pgdNone, four.pgdBad, four.p4dOffset, four.p4dNone, four.pudOffset, four.pudNone,
    Bool.or_self, Bool.false_eq_true, if_false, if_true, Bool.or_eq_true, decide_eq_true_eq]
  split
  · rfl
  · split <;> rfl

end Walk

end PTEditor.Module
