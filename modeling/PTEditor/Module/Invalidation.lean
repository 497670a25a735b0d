/-
# PTEditor.Module.Invalidation -- the processors behind `invalidate_tlb_custom`

`Kernel.invalidateTlbCustom` says what the custom method is for: the page is dropped in all
address spaces.  The module runs `_invalidate_tlb` on every processor, and what that does
depends on the kernel it is built for and on the processor: `invpcid` in a loop over all
PCIDs, two writes to CR4 that toggle PGE, `invlpg`, or `tlbi`.

A processor tags its translations with a PCID, and marks those global that the G bit of
their entry made so.  `invpcid` on one address spares global translations, `invlpg` those of
other PCIDs, and a write to CR4 drops translations only if it changes PGE.
`invalidate_tlb_custom_refines` says for which contents of the TLBs the custom method does
what it is for.
-/
import PTEditor.Module.FourLevel

namespace PTEditor.Module.Invalidation

open PTEditor.Theory.ByteMemory PTEditor.Interface

set_option autoImplicit false

/-! ## Processors -/

abbrev Pcid := BitVec 12

structure Translation where
  page : Word
  pcid : Pcid
  isGlobal : Bool
  deriving DecidableEq, Repr

structure Cpu where
  holds : Translation → Bool
  cr4 : Word
  /-- The PCID in CR3. -/
  pcid : Pcid

def crPge : Nat := 7

def Cpu.drop (kind : Translation → Bool) (c : Cpu) : Cpu :=
  { c with holds := fun t => c.holds t && !kind t }

def invpcidFlushOne (pcid : Nat) (addr : Word) : Cpu → Cpu :=
  Cpu.drop fun t => t.page == addr >>> 12 && t.pcid == BitVec.ofNat 12 pcid && !t.isGlobal

def nativeWriteCr4 (value : Word) (c : Cpu) : Cpu :=
  { (if value.getLsbD crPge != c.cr4.getLsbD crPge then c.drop fun _ => true else c) with cr4 := value }

def invlpg (addr : Word) (c : Cpu) : Cpu :=
  c.drop fun t => t.page == addr >>> 12 && (t.isGlobal || t.pcid == c.pcid)

def tlbiVmalle1is : Cpu → Cpu := Cpu.drop fun _ => true

/-! ## The module -/

/-- `_invalidate_tlb`; `invpcidSingle` is `cpu_feature_enabled(X86_FEATURE_INVPCID_SINGLE)`, where
the kernel's headers know the feature. -/
def invalidateTlbOnCpu (P : Platform) (invpcidSingle : Bool) (addr : Word) (c : Cpu) : Cpu :=
  match P.arch with
  | .x86_64 =>
      if kernelVersion 3 2 98 ≤ P.linuxVersionCode then
        if invpcidSingle then
          (List.range 4096).foldl (fun c pcid => invpcidFlushOne pcid addr c) c
        else
          let cr4 := c.cr4
          let c := nativeWriteCr4 (cr4 &&& ~~~(1#64 <<< crPge)) c
          nativeWriteCr4 cr4 c
      else invlpg addr c
  | .aarch64 => tlbiVmalle1is c

/-- `invalidate_tlb_custom`, that is, `on_each_cpu`. -/
def invalidateTlbCustom {Id : Type} (P : Platform) (invpcidSingle : Bool) (addr : Word)
    (cpus : Id → Cpu) : Id → Cpu :=
  fun id => invalidateTlbOnCpu P invpcidSingle addr (cpus id)

/-- The translations that one processor drops. -/
def Drops (P : Platform) (invpcidSingle : Bool) (addr : Word) (c : Cpu) (t : Translation) : Prop :=
  match P.arch with
  | .x86_64 =>
      if kernelVersion 3 2 98 ≤ P.linuxVersionCode then
        if invpcidSingle then t.page = addr >>> 12 ∧ t.isGlobal = false
        else c.cr4.getLsbD crPge = true
      else t.page = addr >>> 12 ∧ (t.isGlobal = true ∨ t.pcid = c.pcid)
  | .aarch64 => True

section OneCpu

variable {P : Platform} {invpcidSingle : Bool} {addr : Word} {c : Cpu} {t : Translation}

/-- After some rounds of the loop, by induction on their number. -/
theorem invpcid_rounds (addr : Word) (c : Cpu) (t : Translation) (count : Nat) (bound : count ≤ 4096) :
    ((List.range count).foldl (fun c pcid => invpcidFlushOne pcid addr c) c).holds t =
      (c.holds t && !(t.page == addr >>> 12 && !t.isGlobal && decide (t.pcid.toNat < count))) := by
  induction count with
  | zero => simp
  | succ count ih =>
      rw [List.range_succ, List.foldl_append, List.foldl_cons, List.foldl_nil]
      simp only [invpcidFlushOne, Cpu.drop] at ih ⊢
      rw [ih (by omega)]
      have here : (t.pcid == BitVec.ofNat 12 count) = decide (t.pcid.toNat = count) := by
        rw [beq_eq_decide, decide_eq_decide, ← BitVec.toNat_inj, BitVec.toNat_ofNat]
        omega
      have next : decide (t.pcid.toNat < count + 1) =
          (decide (t.pcid.toNat < count) || decide (t.pcid.toNat = count)) := by
        rw [← Bool.decide_or, decide_eq_decide]
        omega
      rw [here, next]
      cases c.holds t <;> cases t.page == addr >>> 12 <;> cases t.isGlobal <;>
        cases decide (t.pcid.toNat < count) <;> cases decide (t.pcid.toNat = count) <;> rfl

/-- Toggling PGE drops everything, if there is something to toggle. -/
theorem toggle_holds (c : Cpu) (t : Translation) :
    (nativeWriteCr4 c.cr4 (nativeWriteCr4 (c.cr4 &&& ~~~(1#64 <<< crPge)) c)).holds t =
      (c.holds t && !c.cr4.getLsbD crPge) := by
  have cleared : (c.cr4 &&& ~~~(1#64 <<< crPge)).getLsbD crPge = false := by
    simp [crPge]
  simp only [nativeWriteCr4, cleared]
  cases c.cr4.getLsbD crPge <;> simp [Cpu.drop]

/-- **One processor** keeps what it does not drop. -/
theorem invalidateTlbOnCpu_holds_iff :
    (invalidateTlbOnCpu P invpcidSingle addr c).holds t = true ↔
      c.holds t = true ∧ ¬ Drops P invpcidSingle addr c t := by
  unfold invalidateTlbOnCpu Drops
  cases P.arch with
  | aarch64 => simp [tlbiVmalle1is, Cpu.drop]
  | x86_64 =>
      simp only
      split
      · split
        · rw [invpcid_rounds addr c t 4096 (Nat.le_refl 4096)]
          have bound : t.pcid.toNat < 4096 := t.pcid.isLt
          simp [bound, imp_iff_not_or]
        · rw [toggle_holds]
          simp
      · simp [invlpg, Cpu.drop, imp_iff_not_or]

end OneCpu

/-! ## All processors -/

section AllCpus

variable {Id : Type}

/-- Some processor holds a translation of the page for the address space, whose PCIDs there are
known. -/
def Held (owner : Id → Pcid → Option Mm) (cpus : Id → Cpu) (mm : Mm) (page : Word) : Prop :=
  ∃ id t, (cpus id).holds t = true ∧ t.page = page ∧ owner id t.pcid = some mm

/-- The kernel's view holds at least what the processors hold. -/
def Covers (owner : Id → Pcid → Option Mm) (cpus : Id → Cpu) (k : Kernel) : Prop :=
  ∀ mm page, Held owner cpus mm page → k.tlb mm page = true

variable {k : Kernel} {owner : Id → Pcid → Option Mm} {cpus : Id → Cpu}

/-- **When the custom method does what it is for**: the view in which the page is gone covers the
processors afterwards exactly if, before, every translation of the page that belongs to an address
space was one that its processor drops.  With `invpcid` these are the translations that are not
global; and then nothing but the page is dropped. -/
theorem invalidate_tlb_custom_refines (P : Platform) (invpcidSingle : Bool)
    (covers : Covers owner cpus k) (shift : P.arch = .x86_64 → k.realPageShift = 12) (addr : Word) :
    (Covers owner (invalidateTlbCustom P invpcidSingle addr cpus) (k.invalidateTlbCustom addr) ↔
      ∀ id t, (cpus id).holds t = true → t.page = addr >>> k.realPageShift →
        (owner id t.pcid).isSome → Drops P invpcidSingle addr (cpus id) t) ∧
      (P.arch = .x86_64 → kernelVersion 3 2 98 ≤ P.linuxVersionCode → invpcidSingle = true →
        ∀ mm page, page ≠ addr >>> k.realPageShift →
          (Held owner (invalidateTlbCustom P invpcidSingle addr cpus) mm page ↔
            Held owner cpus mm page)) := by
  refine ⟨⟨?_, ?_⟩, ?_⟩
  · -- a translation that stays would be one the view has dropped
    intro after id t held page owned
    by_contra kept
    obtain ⟨mm, named⟩ := Option.isSome_iff_exists.mp owned
    have remains := after mm t.page
      ⟨id, t, invalidateTlbOnCpu_holds_iff.mpr ⟨held, kept⟩, rfl, named⟩
    simp [Kernel.invalidateTlbCustom, page] at remains
  · rintro drops mm page ⟨id, t, held, rfl, named⟩
    obtain ⟨before, kept⟩ := invalidateTlbOnCpu_holds_iff.mp held
    have other : t.page ≠ addr >>> k.realPageShift := fun same =>
      kept (drops id t before same (by rw [named]; rfl))
    simp [Kernel.invalidateTlbCustom, other, covers mm t.page ⟨id, t, before, rfl, named⟩]
  · intro arch version single mm page other
    constructor
    · rintro ⟨id, t, held, here, named⟩
      exact ⟨id, t, (invalidateTlbOnCpu_holds_iff.mp held).1, here, named⟩
    · rintro ⟨id, t, held, rfl, named⟩
      refine ⟨id, t, invalidateTlbOnCpu_holds_iff.mpr ⟨held, ?_⟩, rfl, named⟩
      rw [shift arch] at other
      simp only [Drops, arch, version, single, if_true, not_and]
      exact fun same => absurd same other

/-- Two processors that hold one translation of page 5, and a view that allows for everything. -/
def pageFive (isGlobal : Bool) : Bool → Cpu :=
  fun _ => { holds := fun t => t == ⟨5, 1, isGlobal⟩, cr4 := 0x80, pcid := 1 }

def everythingCached : Kernel where
  mem _ := 0
  tasks _ := none
  pgd _ := 0
  vmas _ := []
  tlb _ _ := true
  invalidateTlbMethod := .custom
  mmIsLocked := false
  deviceBusy := true
  realPageSize := 4096
  realPageShift := 12
  pat := 0
  ttbr0El1 := 0
  trace := []

/-- With `invpcid`, a global translation of the page survives the custom method, and one that is
not global does not. -/
theorem invalidate_tlb_custom_refines_pageFive :
    ¬ Covers (fun _ _ => some 0) (invalidateTlbCustom fourLevelPlatform true 0x5000 (pageFive true))
        (everythingCached.invalidateTlbCustom 0x5000) ∧
      Covers (fun _ _ => some 0) (invalidateTlbCustom fourLevelPlatform true 0x5000 (pageFive false))
        (everythingCached.invalidateTlbCustom 0x5000) := by
  have covers : ∀ isGlobal, Covers (fun _ _ => some 0) (pageFive isGlobal) everythingCached :=
    fun _ _ _ _ => rfl
  have refines := fun isGlobal => (invalidate_tlb_custom_refines fourLevelPlatform true
    (covers isGlobal) (fun _ => rfl) 0x5000).1
  constructor
  · intro after
    have drops : (5 : Word) = 0x5000 >>> 12 ∧ true = false :=
      (refines true).mp after true ⟨5, 1, true⟩ (by decide) (by decide) rfl
    cases drops.2
  · refine (refines false).mpr fun id t held _ _ => ?_
    have only : t = ⟨5, 1, false⟩ := eq_of_beq held
    subst only
    show (5 : Word) = 0x5000 >>> 12 ∧ false = false
    decide

end AllCpus

end PTEditor.Module.Invalidation
