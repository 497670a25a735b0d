/-
# PTEditor.Library.MemoryTypes -- the memory types of PAT and MAIR

The register has eight slots of eight bits; a slot holds a memory type, three bits
of it on x86-64, all eight on aarch64.  `ptedit_set_mt` reads the register, clears
the slot, puts the new type in and writes the register back.

The mask for the slot is an `int`: its shift counts are taken modulo 32, and it is
widened with its sign.  So the cleared slot is `mt % 4`, and on aarch64, where the
mask of slot 3 is a positive `int`, every slot above is cleared with it.
`getMt_setMt` is what the slots hold afterwards, `setsOneSlot_iff` when that is what
was asked for.

On x86-64 the register travels as two `int`s, each widened with its sign when they are put
together again.  A register of memory types has neither sign bit set, so that it arrives
as it was sent (`pat_transfer_lossless`).
-/
import PTEditor.Library.X86Walk

namespace PTEditor.Library.MemoryTypes

open PTEditor.Theory.ByteMemory PTEditor.Interface PTEditor.Module PTEditor.Library.X86Walk

set_option autoImplicit false

/-! ## The calls -/

abbrev Slot := Fin 8

/-- The bits of a memory type in its slot: the `int` constants `7` and `0xff`. -/
def typeMask : Arch → BitVec 32
  | .x86_64 => 7
  | .aarch64 => 0xff

def typeWidth : Arch → Nat
  | .x86_64 => 3
  | .aarch64 => 8

def offset (mt : Slot) : Nat := mt.val * 8

section Calls

variable (P : Platform)

def pteditGetMts (s : System) : Word := (deviceIoctl P s.current .getPat s.kernel).2.1

/-- `ptedit_set_mts`; the register is that of every CPU. -/
def pteditSetMts (mts : Word) (s : System) : System :=
  { s with kernel := (deviceIoctl P s.current (.setPat mts) s.kernel).2.2 }

def pteditGetMt (mt : Slot) (s : System) : BitVec 8 :=
  ((pteditGetMts P s >>> offset mt) &&& (typeMask P.arch).setWidth 64).setWidth 8

/-- `~(7 << (mt * 8))` or `~(0xff << (mt * 8))`: an `int`, shifted modulo 32, when it
meets the register. -/
def clearMask (arch : Arch) (mt : Slot) : Word :=
  (~~~(typeMask arch <<< (offset mt % 32))).signExtend 64

/-- `mts` after its three assignments in `ptedit_set_mt`. -/
def newMts (mt : Slot) (value : BitVec 8) (s : System) : Word :=
  pteditGetMts P s &&& clearMask P.arch mt ||| (value.setWidth 64 <<< offset mt)

def pteditSetMt (mt : Slot) (value : BitVec 8) (s : System) : System :=
  pteditSetMts P (newMts P mt value s) s

end Calls

/-! ## Bits -/

/-- The mask of slot `mt` clears slot `j`. -/
def hits (arch : Arch) (mt j : Slot) : Bool :=
  j.val == mt.val % 4 || (arch == .aarch64 && mt.val % 4 == 3 && decide (4 ≤ j.val))

/-- What the mask leaves, slot by slot. -/
theorem clearMask_getLsbD (arch : Arch) (mt j : Slot) (i : Fin 8) (inside : i.val < typeWidth arch) :
    (clearMask arch mt).getLsbD (offset j + i.val) = !hits arch mt j := by
  revert mt j i
  cases arch <;> decide +kernel

/-- On x86-64 the mask, with its sign, leaves the upper half alone. -/
theorem clearMask_upper (mt : Slot) (i : Fin 64) (upper : 32 ≤ i.val) :
    (clearMask .x86_64 mt).getLsbD i.val = true := by
  revert mt i
  decide +kernel

def Fits (arch : Arch) (value : BitVec 8) : Prop := value.toNat < 2 ^ typeWidth arch

instance (arch : Arch) (value : BitVec 8) : Decidable (Fits arch value) :=
  inferInstanceAs (Decidable (_ < _))

theorem Fits.getLsbD {arch : Arch} {value : BitVec 8} (fits : Fits arch value) {i : Nat}
    (outside : typeWidth arch ≤ i) : value.getLsbD i = false :=
  Nat.testBit_lt_two_pow (lt_of_lt_of_le fits (Nat.pow_le_pow_right (by decide) outside))

theorem typeMask_getLsbD (arch : Arch) (i : Fin 64) :
    ((typeMask arch).setWidth 64).getLsbD i.val = decide (i.val < typeWidth arch) := by
  revert i
  cases arch <;> decide +kernel

section Bits

variable {P : Platform}

theorem getMt_getLsbD (j : Slot) (s : System) (i : Fin 8) :
    (pteditGetMt P j s).getLsbD i.val =
      (decide (i.val < typeWidth P.arch) && (pteditGetMts P s).getLsbD (offset j + i.val)) := by
  have bit := typeMask_getLsbD P.arch ⟨i.val, by omega⟩
  simp only at bit
  simp only [pteditGetMt, BitVec.getLsbD_setWidth, BitVec.getLsbD_and, BitVec.getLsbD_ushiftRight,
    bit, i.isLt, decide_true, Bool.true_and]
  exact Bool.and_comm _ _

/-- The value put into slot `mt`, seen from slot `j`. -/
theorem shifted_getLsbD (mt j : Slot) (value : BitVec 8) (i : Fin 8) :
    (value.setWidth 64 <<< offset mt).getLsbD (offset j + i.val) =
      (decide (j = mt) && value.getLsbD i.val) := by
  have jBound := j.isLt
  have iBound := i.isLt
  have inside : offset j + i.val < 64 := by
    unfold offset
    omega
  rw [BitVec.getLsbD_shiftLeft]
  simp only [inside, decide_true, Bool.true_and, BitVec.getLsbD_setWidth]
  rcases lt_trichotomy j.val mt.val with below | same | above
  · have before : offset j + i.val < offset mt := by
      unfold offset
      omega
    have other : j ≠ mt := fun same => by
      rw [same] at below
      omega
    simp [before, other]
  · obtain rfl := Fin.ext same
    have bound : i.val < 64 := by omega
    simp [bound]
  · have past : ¬ offset j + i.val < offset mt := by
      unfold offset
      omega
    have other : j ≠ mt := fun same => by
      rw [same] at above
      omega
    have outside : 8 ≤ offset j + i.val - offset mt := by
      unfold offset
      omega
    simp [past, other, BitVec.getLsbD_of_ge value _ outside]

theorem newMts_getLsbD (mt j : Slot) (value : BitVec 8) (s : System) (i : Fin 8)
    (inside : i.val < typeWidth P.arch) :
    (newMts P mt value s).getLsbD (offset j + i.val) =
      ((pteditGetMts P s).getLsbD (offset j + i.val) && !hits P.arch mt j ||
        (decide (j = mt) && value.getLsbD i.val)) := by
  rw [newMts, BitVec.getLsbD_or, BitVec.getLsbD_and, clearMask_getLsbD P.arch mt j i inside,
    shifted_getLsbD]

/-- What `GET_PAT` returns on x86-64: the sign of the lower half spreads over the
upper one. -/
theorem ioctlGetPat_getLsbD (arch : P.arch = .x86_64) (k : Kernel) (i : Fin 64) :
    (ioctlGetPat P k).getLsbD i.val =
      (k.pat.getLsbD i.val || (decide (32 ≤ i.val) && k.pat.getLsbD 31)) := by
  simp only [ioctlGetPat, arch, BitVec.getLsbD_or, BitVec.getLsbD_shiftLeft,
    BitVec.getLsbD_signExtend, BitVec.getLsbD_setWidth, BitVec.getLsbD_ushiftRight, i.isLt,
    decide_true, Bool.true_and]
  by_cases lower : i.val < 32
  · have notUpper : ¬ 32 ≤ i.val := by omega
    simp [lower, notUpper]
  · have upper : 32 ≤ i.val := by omega
    have inside : i.val - 32 < 32 := by omega
    have back : 32 + (i.val - 32) = i.val := by omega
    have sign : (k.pat.setWidth 32).msb = k.pat.getLsbD 31 := by
      simp [BitVec.msb_eq_getLsbD_last]
    simp only [lower, upper, inside, back, sign, decide_true, decide_false, Bool.not_false,
      Bool.true_and, if_false, if_true]
    simp [show i.val - 32 < 64 by omega, Bool.or_comm]

/-- `SET_PAT` splits the value and puts it together again. -/
theorem setPat_pat (pat : Word) (k : Kernel) : (setPat P pat k).pat = pat := by
  cases arch : P.arch with
  | aarch64 => simp only [setPat, arch]
  | x86_64 =>
      simp only [setPat, arch]
      apply BitVec.eq_of_getLsbD_eq
      intro i bound
      have ones : ∀ j < 32, (0xffffffff#64).getLsbD j = true := by decide
      rw [BitVec.getLsbD_append]
      by_cases lower : i < 32
      · simp only [lower, decide_true, if_true, BitVec.getLsbD_setWidth, BitVec.getLsbD_and,
          ones i lower, Bool.true_and, Bool.and_true]
      · have back : 32 + (i - 32) = i := by omega
        have inside : i - 32 < 32 := by omega
        simp only [lower, decide_false, inside, decide_true, BitVec.getLsbD_setWidth,
          BitVec.getLsbD_and, BitVec.getLsbD_ushiftRight, back, ones (i - 32) inside,
          Bool.true_and, Bool.and_true, if_false]

/-- A value survives the transfer unless the sign of its lower half spoils the upper one. -/
theorem getPat_setPat {pat : Word}
    (sign : P.arch = .x86_64 → pat.getLsbD 31 = true → ∀ i, 32 ≤ i → i < 64 →
      pat.getLsbD i = true) (k : Kernel) : ioctlGetPat P (setPat P pat k) = pat := by
  cases arch : P.arch with
  | aarch64 =>
      simp only [ioctlGetPat, arch]
      exact setPat_pat _ _
  | x86_64 =>
      apply BitVec.eq_of_getLsbD_eq
      intro i bound
      have back := ioctlGetPat_getLsbD arch (setPat P pat k) ⟨i, bound⟩
      rw [setPat_pat] at back
      refine back.trans ?_
      by_cases signed : 32 ≤ i ∧ pat.getLsbD 31 = true
      · simp only [sign arch signed.2 i signed.1 bound, Bool.true_or]
      · have unsigned : (decide (32 ≤ i) && pat.getLsbD 31) = false := by
          rw [Bool.eq_false_iff]
          simpa using signed
        simp only [unsigned, Bool.or_false]

/-- If the sign of the lower half is set, the upper half has only ones already. -/
theorem newMts_sign (arch : P.arch = .x86_64) {mt : Slot} {value : BitVec 8}
    (fits : Fits .x86_64 value) (s : System) {i : Nat} (bound : i < 64) (upper : 32 ≤ i)
    (sign : (newMts P mt value s).getLsbD 31 = true) : (newMts P mt value s).getLsbD i = true := by
  have absent : (value.setWidth 64 <<< offset mt).getLsbD 31 = false := by
    have shifted := shifted_getLsbD mt ⟨3, by decide⟩ value ⟨7, by decide⟩
    rw [fits.getLsbD (i := 7) (by decide), Bool.and_false] at shifted
    exact shifted
  have read : (pteditGetMts P s).getLsbD 31 = s.kernel.pat.getLsbD 31 := by
    have bit := ioctlGetPat_getLsbD arch s.kernel ⟨31, by decide⟩
    simp only [show ¬ 32 ≤ 31 by decide, decide_false, Bool.false_and, Bool.or_false] at bit
    exact bit
  have spread : (pteditGetMts P s).getLsbD i =
      (s.kernel.pat.getLsbD i || (decide (32 ≤ i) && s.kernel.pat.getLsbD 31)) :=
    ioctlGetPat_getLsbD arch s.kernel ⟨i, bound⟩
  rw [newMts, BitVec.getLsbD_or, BitVec.getLsbD_and, absent, Bool.or_false, Bool.and_eq_true,
    read] at sign
  rw [newMts, BitVec.getLsbD_or, BitVec.getLsbD_and, spread, sign.1, arch,
    clearMask_upper mt ⟨i, bound⟩ upper]
  simp [upper]

/-- The register reads back as it was written. -/
theorem getMts_setMt {mt : Slot} {value : BitVec 8} (fits : Fits P.arch value) (s : System) :
    pteditGetMts P (pteditSetMt P mt value s) = newMts P mt value s := by
  show ioctlGetPat P (setPat P (newMts P mt value s) s.kernel) = newMts P mt value s
  apply getPat_setPat
  intro arch signed i upper bound
  rw [arch] at fits
  exact newMts_sign arch fits s bound upper signed

end Bits

/-! ## Setting the register -/

section SetMts

variable {P : Platform} {pat : Word}

/-- Bit 31 is the topmost bit of byte 3, which no type of three bits has. -/
theorem unsigned_of_types (types : ∀ i : Slot, (pat.extractLsb' (offset i) 8).toNat < 8) :
    pat.getLsbD 31 = false := by
  have fits : Fits .x86_64 (pat.extractLsb' (offset 3) 8) := types 3
  have top := fits.getLsbD (i := 7) (by decide)
  rw [BitVec.getLsbD_extractLsb'] at top
  exact top

/-- What `ptedit_get_mt` reads from a register whose bytes are types. -/
theorem getMt_byte (arch : P.arch = .x86_64)
    (types : ∀ i : Slot, (pat.extractLsb' (offset i) 8).toNat < 8) {s : System}
    (held : pteditGetMts P s = pat) (i : Slot) :
    pteditGetMt P i s = pat.extractLsb' (offset i) 8 := by
  apply BitVec.eq_of_getLsbD_eq
  intro j bound
  have bit := getMt_getLsbD (P := P) i s ⟨j, bound⟩
  rw [held, arch] at bit
  refine bit.trans ?_
  by_cases inside : j < typeWidth .x86_64
  · simp [inside, bound]
  · have fits : Fits .x86_64 (pat.extractLsb' (offset i) 8) := types i
    rw [fits.getLsbD (Nat.le_of_not_lt inside)]
    simp [inside]

/-- **The transfer of a legal register value loses nothing.**  A value whose bytes are all
memory types goes through `_set_pat` and `GET_PAT`, two `int`s each way, and comes back
as it was; so `ptedit_get_mts` returns what `ptedit_set_mts` was given, and
`ptedit_get_mt` its bytes. -/
theorem pat_transfer_lossless (arch : P.arch = .x86_64) (pat : Word)
    (types : ∀ i : Slot, (pat.extractLsb' (offset i) 8).toNat < 8) (s : System) :
    (∀ k, ioctlGetPat P (setPat P pat k) = pat) ∧
      pteditGetMts P (pteditSetMts P pat s) = pat ∧
      ∀ i, pteditGetMt P i (pteditSetMts P pat s) = pat.extractLsb' (offset i) 8 := by
  have lossless : ∀ k, ioctlGetPat P (setPat P pat k) = pat := by
    intro k
    apply getPat_setPat
    intro _ signed
    rw [unsigned_of_types types] at signed
    cases signed
  have held : pteditGetMts P (pteditSetMts P pat s) = pat := lossless s.kernel
  exact ⟨lossless, held, getMt_byte arch types held⟩

/-- The value Linux boots with. -/
theorem pat_transfer_lossless_boot :
    pteditGetMts fourLevelPlatform (pteditSetMts fourLevelPlatform 0x0407050600070106
        onePageSystem) = 0x0407050600070106 ∧
      pteditGetMt fourLevelPlatform 5
        (pteditSetMts fourLevelPlatform 0x0407050600070106 onePageSystem) = 5 := by
  obtain ⟨-, held, bytes⟩ := pat_transfer_lossless (P := fourLevelPlatform) rfl
    0x0407050600070106 (by decide +kernel) onePageSystem
  refine ⟨held, (bytes 5).trans ?_⟩
  decide

end SetMts

/-! ## Setting one slot -/

section SetMt

variable {P : Platform}

/-- **What the slots hold after `ptedit_set_mt`**: the mask clears its slots, and the
value goes into slot `mt`, over what is left there. -/
theorem getMt_setMt (mt j : Slot) {value : BitVec 8} (fits : Fits P.arch value) (s : System) :
    pteditGetMt P j (pteditSetMt P mt value s) =
      (if hits P.arch mt j then 0 else pteditGetMt P j s) ||| (if j = mt then value else 0) := by
  apply BitVec.eq_of_getLsbD_eq
  intro i bound
  have after := getMt_getLsbD (P := P) j (pteditSetMt P mt value s) ⟨i, bound⟩
  have before := getMt_getLsbD (P := P) j s ⟨i, bound⟩
  simp only [getMts_setMt fits] at after before
  have cleared : (if hits P.arch mt j then 0 else pteditGetMt P j s).getLsbD i =
      ((pteditGetMt P j s).getLsbD i && !hits P.arch mt j) := by
    cases hits P.arch mt j <;> simp
  have put : (if j = mt then value else 0).getLsbD i = (decide (j = mt) && value.getLsbD i) := by
    by_cases same : j = mt <;> simp [same]
  rw [BitVec.getLsbD_or, after, cleared, put]
  by_cases inside : i < typeWidth P.arch
  · rw [newMts_getLsbD mt j value s ⟨i, bound⟩ inside]
    simp only [inside, decide_true, Bool.true_and] at before ⊢
    rw [before]
  · have outside : value.getLsbD i = false := fits.getLsbD (by omega)
    simp only [inside, decide_false, Bool.false_and] at before ⊢
    rw [before, outside]
    simp

/-- `ptedit_set_mt` does what it says: the slot holds the value, the others hold
what they held. -/
def SetsOneSlot (P : Platform) (mt : Slot) (value : BitVec 8) (s : System) : Prop :=
  pteditGetMt P mt (pteditSetMt P mt value s) = value ∧
    ∀ j, j ≠ mt → pteditGetMt P j (pteditSetMt P mt value s) = pteditGetMt P j s

/-- **When `ptedit_set_mt` sets its slot and no other**: the other slots its mask
clears are zero already, and if the mask misses the slot itself, the old type has no
bit the new one lacks. -/
theorem setsOneSlot_iff (P : Platform) (mt : Slot) {value : BitVec 8} (fits : Fits P.arch value)
    (s : System) :
    SetsOneSlot P mt value s ↔
      (∀ j, j ≠ mt → hits P.arch mt j = true → pteditGetMt P j s = 0) ∧
        (hits P.arch mt mt = false → pteditGetMt P mt s ||| value = value) := by
  simp only [SetsOneSlot, getMt_setMt mt _ fits s, if_true]
  have own : (if hits P.arch mt mt = true then 0 else pteditGetMt P mt s) ||| value = value ↔
      (hits P.arch mt mt = false → pteditGetMt P mt s ||| value = value) := by
    cases hits P.arch mt mt <;> simp
  have others : (∀ j, j ≠ mt →
      (if hits P.arch mt j = true then 0 else pteditGetMt P j s) ||| (if j = mt then value else 0) =
        pteditGetMt P j s) ↔
      ∀ j, j ≠ mt → hits P.arch mt j = true → pteditGetMt P j s = 0 := by
    refine forall_congr' fun j => imp_congr_right fun other => ?_
    cases hits P.arch mt j <;> simp [other, eq_comm]
  rw [own, others]
  exact and_comm

/-- Slot 3 of the register `onePageKernel` has: the mask stays inside the slot. -/
theorem setsOneSlot_three : SetsOneSlot fourLevelPlatform 3 6 onePageSystem := by
  refine (setsOneSlot_iff fourLevelPlatform 3 (by decide) onePageSystem).mpr ⟨?_, ?_⟩
  · decide +kernel
  · decide +kernel

/-- Slot 5 of the same register: type 1 goes over the old type 4, giving 5, and the
mask clears slot 1. -/
theorem setMt_five_changes_one :
    pteditGetMt fourLevelPlatform 5 (pteditSetMt fourLevelPlatform 5 1 onePageSystem) = 5 ∧
      pteditGetMt fourLevelPlatform 1 onePageSystem = 4 ∧
      pteditGetMt fourLevelPlatform 1 (pteditSetMt fourLevelPlatform 5 1 onePageSystem) = 0 ∧
      ¬ SetsOneSlot fourLevelPlatform 5 1 onePageSystem := by
  refine ⟨by decide +kernel, by decide +kernel, by decide +kernel, ?_⟩
  rintro ⟨own, -⟩
  exact absurd own (by decide +kernel)

end SetMt

end PTEditor.Library.MemoryTypes
