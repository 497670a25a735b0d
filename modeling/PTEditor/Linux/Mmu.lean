/-
# PTEditor.Linux.Mmu -- what the entries mean to the processor

The module and the library move words.  What the words are for is the processor's walk
of the same tables: which frame an address of a process is mapped to, and with what
rights.  `pageWalk` is that walk for 4-level paging on x86-64: the present bit at every
level, the size bit at the PUD and at the PMD, forty bits of frame number, the rights of
all levels together.  Faults on reserved bits, protection keys and the accessed and dirty
bits are left out.

On an orderly walk the processor ends at the leaf that the library and the module end at
(`pageWalk_orderly`), so edits of leaves are edits of mappings, and of nothing else
(`pageWalk_leafEdit`).
-/
import PTEditor.Linux.KernelEdits

namespace PTEditor.Linux.Mmu

open PTEditor.Theory.ByteMemory PTEditor.Theory.RadixTree PTEditor.Interface PTEditor.Module
open PTEditor.Library PTEditor.Library.X86Walk PTEditor.Library.PageMap PTEditor.Linux.Agreement
open PTEditor.Linux.KernelEdits

set_option autoImplicit false

structure Rights where
  writable : Bool
  user : Bool
  executable : Bool
  deriving DecidableEq, Repr

def Rights.all : Rights := ⟨true, true, true⟩

/-- A right is granted if every level grants it. -/
def Rights.meet (a b : Rights) : Rights where
  writable := a.writable && b.writable
  user := a.user && b.user
  executable := a.executable && b.executable

/-- The rights an entry grants: `PTEDIT_PAGE_BIT_RW`, `_USER` and, inverted, `_NX`. -/
def rightsOf (entry : Word) : Rights where
  writable := entry.getLsbD 1
  user := entry.getLsbD 2
  executable := !entry.getLsbD 63

/-- The 4 KiB frame a page is mapped to, and the rights of accesses to it. -/
structure Mapping where
  frame : Frame
  rights : Rights
  deriving DecidableEq, Repr

def pointee (entry : Word) : Frame := (entry.extractLsb' 12 40).setWidth 52

/-- The upper bits of an address repeat bit 47; the processor walks for no other. -/
def Canonical (addr : Word) : Prop := (addr.setWidth 48).signExtend 64 = addr

instance (addr : Word) : Decidable (Canonical addr) := inferInstanceAs (Decidable (_ = _))

/-- The lower and the upper half. -/
theorem canonical_iff (addr : Word) :
    Canonical addr ↔ addr.toNat < 2 ^ 47 ∨ 2 ^ 64 - 2 ^ 47 ≤ addr.toNat := by
  have bound := addr.isLt
  have sign : (addr.setWidth 48).msb = decide (2 ^ 47 ≤ addr.toNat % 2 ^ 48) := by
    rw [BitVec.msb_eq_decide, BitVec.toNat_setWidth]
  rw [Canonical, ← BitVec.toNat_inj, BitVec.toNat_signExtend, sign]
  simp only [BitVec.toNat_setWidth, decide_eq_true_eq]
  split <;> omega

/-- A PTE maps its frame, if it is present. -/
def mappingOf (upper : Rights) (pte : Word) : Option Mapping :=
  if pte.getLsbD 0 then some { frame := pointee pte, rights := upper.meet (rightsOf pte) } else none

/-- A large PMD maps 512 frames, of which the address selects one. -/
def largeMapping (upper : Rights) (pmd addr : Word) : Mapping where
  frame := ((pmd.extractLsb' 21 31) ++ addr.extractLsb' 12 9).setWidth 52
  rights := upper.meet (rightsOf pmd)

/-- So does a large PUD, with two indices. -/
def hugeMapping (upper : Rights) (pud addr : Word) : Mapping where
  frame := ((pud.extractLsb' 30 22) ++ addr.extractLsb' 12 18).setWidth 52
  rights := upper.meet (rightsOf pud)

/-- The processor goes on from present entries only. -/
def present (entry : Word) : Option Word := if entry.getLsbD 0 then some entry else none

/-- The processor's walk for the page of `addr`. -/
def pageWalk (mem : Mem) (root addr : Word) : Option Mapping :=
  if Canonical addr then
    (present (tables mem (rootFrame root) (addressIndex .pgd addr))).bind fun pgd =>
    (present (tables mem (pointee pgd) (addressIndex .pud addr))).bind fun pud =>
      if pud.getLsbD 7 then some (hugeMapping (rightsOf pgd) pud addr)
      else
        (present (tables mem (pointee pud) (addressIndex .pmd addr))).bind fun pmd =>
          if pmd.getLsbD 7 then
            some (largeMapping ((rightsOf pgd).meet (rightsOf pud)) pmd addr)
          else
            mappingOf (((rightsOf pgd).meet (rightsOf pud)).meet (rightsOf pmd))
              (tables mem (pointee pmd) (addressIndex .pte addr))
  else none

def Mapping.physical (mapping : Mapping) (addr : Word) : Word :=
  mapping.frame ++ addr.extractLsb' 0 12

/-! ## The processor's walk and the library's -/

theorem pointee_eq {entry : Word} (narrow : NarrowPfn entry) : pointee entry = tableFrame entry := by
  apply BitVec.eq_of_toNat_eq
  have high : entry.toNat / 2 ^ 40 % 2 ^ 12 = 0 := by
    have value := congrArg BitVec.toNat narrow
    simpa [BitVec.extractLsb'_toNat, Nat.shiftRight_eq_div_pow] using value
  have pfn := toNat_bitField entry 12 28 (by decide)
  simp only [pointee, tableFrame, castPfn, BitVec.toNat_setWidth, BitVec.extractLsb'_toNat,
    Nat.shiftRight_eq_div_pow, pfn]
  omega

theorem present_orderly {entry : Word} (orderly : ZeroOrPresent entry) :
    present entry = if entry = 0 then none else some entry := by
  rcases orderly with rfl | set
  · rfl
  · have nonzero : entry ≠ 0 := by
      rintro rfl
      cases set
    rw [present, set, if_pos rfl, if_neg nonzero]

section Walk

variable {P : Platform} {mem mem' : Mem} {root addr : Word}

/-- What the levels above the PTE grant. -/
def upperRights (mem : Mem) (root addr : Word) : Rights :=
  ((rightsOf (pgdEntry mem root addr)).meet (rightsOf (pudEntry mem root addr))).meet
    (rightsOf (pmdEntry mem root addr))

/-- What an address without a leaf is mapped to: part of a large page, or nothing. -/
def leafless (mem : Mem) (root addr : Word) : Option Mapping :=
  if pgdEntry mem root addr = 0 ∨ pudEntry mem root addr = 0 ∨ pmdEntry mem root addr = 0 then none
  else
    some (largeMapping ((rightsOf (pgdEntry mem root addr)).meet
      (rightsOf (pudEntry mem root addr))) (pmdEntry mem root addr) addr)

/-- **The processor ends where the library ends.**  The mapping of an orderly address is read off
its leaf, or off its large PMD if it has none. -/
theorem pageWalk_orderly (orderly : OrderlyWalk P mem root addr) (canonical : Canonical addr) :
    pageWalk mem root addr =
      match leafAt mem root addr with
      | some pte => mappingOf (upperRights mem root addr) pte
      | none => leafless mem root addr := by
  have pgdRead : tables mem (rootFrame root) (addressIndex .pgd addr) = pgdEntry mem root addr := rfl
  have pudRead : tables mem (pointee (pgdEntry mem root addr)) (addressIndex .pud addr) =
      pudEntry mem root addr := by
    rw [pointee_eq orderly.pgdNarrow]
    rfl
  have leaf := frameAt_orderly orderly
  simp only [pageWalk, pgdRead, canonical, if_true, present_orderly orderly.pgd, leafAt, entryAt,
    leaf, leafless]
  by_cases pgdZero : pgdEntry mem root addr = 0
  · simp [pgdZero]
  have pmdRead : tables mem (pointee (pudEntry mem root addr)) (addressIndex .pmd addr) =
      pmdEntry mem root addr := by
    rw [pointee_eq (orderly.pudNarrow pgdZero)]
    rfl
  simp only [pgdZero, if_false, Option.bind_some, false_or, pudRead,
    present_orderly (orderly.pud pgdZero)]
  by_cases pudZero : pudEntry mem root addr = 0
  · simp [pudZero]
  simp only [pudZero, if_false, Option.bind_some, false_or, pmdRead, orderly.pudSmall pgdZero,
    Bool.false_eq_true, present_orderly (orderly.pmd pgdZero pudZero)]
  by_cases pmdZero : pmdEntry mem root addr = 0
  · simp [pmdZero]
  simp only [pmdZero, if_false, Option.bind_some, false_or]
  cases large : (pmdEntry mem root addr).getLsbD 7 with
  | true => simp only [if_true, Option.map_none]
  | false =>
      simp only [Bool.false_eq_true, if_false, Option.map_some,
        pointee_eq (orderly.pmdNarrow pgdZero pudZero large)]
      rfl

/-- Entries above the leaves decide what leafless addresses are mapped to. -/
theorem leafless_of_inner (orderly : OrderlyWalk P mem root addr)
    (inner : ∀ path i, path.length < 3 → entryAt follow (tables mem') (rootFrame root) path i =
      entryAt follow (tables mem) (rootFrame root) path i) :
    leafless mem' root addr = leafless mem root addr := by
  have pgd := pgdEntry_of_inner addr inner
  simp only [leafless, pgd]
  by_cases pgdZero : pgdEntry mem root addr = 0
  · simp only [pgdZero, true_or, if_true]
  have pgdPresent : isPresent .x86_64 (pgdEntry mem root addr) = true := by
    rw [orderly.pgd.isPresent]
    exact decide_eq_true pgdZero
  have pud := pudEntry_of_inner inner pgdPresent
  simp only [pud]
  by_cases pudZero : pudEntry mem root addr = 0
  · simp only [pudZero, true_or, or_true, if_true]
  have pudPresent : isPresent .x86_64 (pudEntry mem root addr) = true := by
    rw [(orderly.pud pgdZero).isPresent]
    exact decide_eq_true pudZero
  rw [pmdEntry_of_inner inner pgdPresent pudPresent]

theorem upperRights_of_inner (orderly : OrderlyWalk P mem root addr)
    (inner : ∀ path i, path.length < 3 → entryAt follow (tables mem') (rootFrame root) path i =
      entryAt follow (tables mem) (rootFrame root) path i)
    (leaf : (leafAt mem root addr).isSome) :
    upperRights mem' root addr = upperRights mem root addr := by
  obtain ⟨pgdNonzero, pudNonzero, -⟩ := (leafAt_isSome orderly).mp leaf
  have pgdPresent : isPresent .x86_64 (pgdEntry mem root addr) = true := by
    rw [orderly.pgd.isPresent]
    exact decide_eq_true pgdNonzero
  have pudPresent : isPresent .x86_64 (pudEntry mem root addr) = true := by
    rw [(orderly.pud pgdNonzero).isPresent]
    exact decide_eq_true pudNonzero
  simp only [upperRights, pgdEntry_of_inner addr inner, pudEntry_of_inner inner pgdPresent,
    pmdEntry_of_inner inner pgdPresent pudPresent]

theorem pageWalk_not_canonical (other : ¬ Canonical addr) : pageWalk mem root addr = none := by
  simp only [pageWalk, other, if_false]

/-- **Edits of leaves are edits of mappings.**  If two memories have the same entries above the
leaves, and the leaf of an address has been changed, then its mapping is that of the changed
leaf; an address without a leaf is mapped as before. -/
theorem pageWalk_changed (orderly : OrderlyWalk P mem root addr)
    (inner : ∀ path i, path.length < 3 → entryAt follow (tables mem') (rootFrame root) path i =
      entryAt follow (tables mem) (rootFrame root) path i)
    {change : Word → Word} (leaf : leafAt mem' root addr = (leafAt mem root addr).map change) :
    pageWalk mem' root addr =
      if Canonical addr then
        match leafAt mem root addr with
        | some pte => mappingOf (upperRights mem root addr) (change pte)
        | none => pageWalk mem root addr
      else none := by
  by_cases canonical : Canonical addr
  · rw [if_pos canonical, pageWalk_orderly (orderlyWalk_of_inner orderly inner) canonical,
      pageWalk_orderly orderly canonical, leaf]
    cases here : leafAt mem root addr with
    | none =>
        simp only [Option.map_none]
        exact leafless_of_inner orderly inner
    | some pte =>
        simp only [Option.map_some]
        rw [upperRights_of_inner orderly inner (by rw [here]; rfl)]
  · rw [if_neg canonical, pageWalk_not_canonical canonical]

end Walk

end PTEditor.Linux.Mmu
