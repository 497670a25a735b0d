/-
# PTEditor.Library.EntryFields -- PFN and memory type of an entry

The library reads and writes two fields of an entry with shifts and masks: the PFN
(`ptedit_get_pfn`, `ptedit_set_pfn`) and the memory type (`ptedit_extract_mt`,
`ptedit_apply_mt`, and the `_huge` pair for a PMD that maps a large page).  On
x86-64 a memory type is three scattered bits, PWT, PCD and PAT, and the PAT bit is
bit 7 in a PTE but bit 12 in a large PMD; on aarch64 it is an index of three bits.

Each pair is a field in the sense of `Theory.WordFields` (`pteditSetPfn_eq_put`,
`pteditApplyMt_eq_put`), as long as a PFN fits: `ptedit_set_pfn` shifts it in at full
width.  Bit 12 is also the lowest bit of the PFN field, so the two fields of a large
PMD are not independent.
-/
import PTEditor.Interface.Layouts
import PTEditor.Theory.WordFields

namespace PTEditor.Library.EntryFields

open PTEditor.Theory.ByteMemory PTEditor.Theory.WordFields PTEditor.Interface

set_option autoImplicit false

/-! ## The memory type of an entry -/

def pageBitPwt : Nat := 3

def pageBitPcd : Nat := 4

def pageBitPat : Nat := 7

def pageBitPatLarge : Nat := 12

/-- The x86-64 branch of `ptedit_apply_mt` and `ptedit_apply_mt_huge`, which differ in
the PAT bit. -/
def applyMtBits (pat : Nat) (entry : Word) (mt : BitVec 8) : Word :=
  let entry := entry &&&
    ~~~((1#64 <<< pageBitPwt) ||| (1#64 <<< pageBitPcd) ||| (1#64 <<< pat))
  let entry := if mt &&& 1 != 0 then entry ||| (1#64 <<< pageBitPwt) else entry
  let entry := if mt &&& 2 != 0 then entry ||| (1#64 <<< pageBitPcd) else entry
  if mt &&& 4 != 0 then entry ||| (1#64 <<< pat) else entry

/-- The aarch64 branch: `~0x1c` and `(mt & 7) << 2` are `int`s. -/
def applyMtIndex (entry : Word) (mt : BitVec 8) : Word :=
  let entry := entry &&& (~~~0x1c#32).signExtend 64
  entry ||| ((mt.setWidth 32 &&& 7) <<< 2).signExtend 64

def pteditApplyMt : Arch → Word → BitVec 8 → Word
  | .x86_64 => applyMtBits pageBitPat
  | .aarch64 => applyMtIndex

def pteditApplyMtHuge : Arch → Word → BitVec 8 → Word
  | .x86_64 => applyMtBits pageBitPatLarge
  | .aarch64 => applyMtIndex

/-- `!!(entry & (1ull << bit))`. -/
def testBit (entry : Word) (bit : Nat) : BitVec 32 :=
  if entry &&& (1#64 <<< bit) != 0 then 1 else 0

/-- The x86-64 branch of `ptedit_extract_mt` and `ptedit_extract_mt_huge`. -/
def extractMtBits (pat : Nat) (entry : Word) : BitVec 8 :=
  (testBit entry pageBitPwt ||| (testBit entry pageBitPcd <<< 1) |||
    (testBit entry pat <<< 2)).setWidth 8

def extractMtIndex (entry : Word) : BitVec 8 := ((entry >>> 2) &&& 7).setWidth 8

def pteditExtractMt : Arch → Word → BitVec 8
  | .x86_64 => extractMtBits pageBitPat
  | .aarch64 => extractMtIndex

def pteditExtractMtHuge : Arch → Word → BitVec 8
  | .x86_64 => extractMtBits pageBitPatLarge
  | .aarch64 => extractMtIndex

/-! ## The PFN as a field -/

def pfnWidth : Arch → Nat
  | .x86_64 => 40
  | .aarch64 => 36

def pfnField (arch : Arch) : Field 64 (BitVec (pfnWidth arch)) :=
  Field.range 12 (pfnWidth arch) (by cases arch <;> decide)

theorem pfnField_mask (arch : Arch) (i : Nat) :
    (pfnField arch).mask.getLsbD i = decide (12 ≤ i ∧ i < 12 + pfnWidth arch) :=
  Field.range_mask 12 (pfnWidth arch) _ i

theorem pfnMask_eq (arch : Arch) : pfnMask arch = (pfnField arch).mask := by
  cases arch <;> decide

section Pfn

variable {arch : Arch} (entry pfn : Word)

theorem pteditGetPfn_eq : pteditGetPfn arch entry = ((pfnField arch).get entry).setWidth 64 := by
  apply BitVec.eq_of_getLsbD_eq
  intro i bound
  have field : ((pfnField arch).get entry).getLsbD i =
      (decide (i < pfnWidth arch) && entry.getLsbD (12 + i)) :=
    BitVec.getLsbD_extractLsb' 12 (pfnWidth arch) entry i
  have mask : (pfnField arch).mask.getLsbD (12 + i) = decide (i < pfnWidth arch) := by
    rw [pfnField_mask]
    exact decide_eq_decide.mpr (by omega)
  simp only [pteditGetPfn, pfnMask_eq, BitVec.getLsbD_ushiftRight, BitVec.getLsbD_and, mask,
    BitVec.getLsbD_setWidth, field, bound, decide_true, Bool.true_and]
  exact Bool.and_comm _ _

theorem getLsbD_pteditGetPfn (i : Nat) :
    (pteditGetPfn arch entry).getLsbD i =
      (decide (i < pfnWidth arch) && entry.getLsbD (12 + i)) := by
  have narrower : pfnWidth arch ≤ 64 := by cases arch <;> decide
  have field : ((pfnField arch).get entry).getLsbD i =
      (decide (i < pfnWidth arch) && entry.getLsbD (12 + i)) :=
    BitVec.getLsbD_extractLsb' 12 (pfnWidth arch) entry i
  rw [pteditGetPfn_eq, BitVec.getLsbD_setWidth, field]
  by_cases below : i < pfnWidth arch
  · have inside : i < 64 := by omega
    simp [inside]
  · simp [below]

/-- `ptedit_set_pfn`, bit by bit: outside the field the PFN is added to what is there. -/
theorem getLsbD_pteditSetPfn {i : Nat} (bound : i < 64) :
    (pteditSetPfn arch entry pfn).getLsbD i =
      if 12 ≤ i ∧ i < 12 + pfnWidth arch then pfn.getLsbD (i - 12)
      else (entry.getLsbD i || (decide (12 ≤ i) && pfn.getLsbD (i - 12))) := by
  have shifted : (pfn <<< 12).getLsbD i = (decide (12 ≤ i) && pfn.getLsbD (i - 12)) := by
    rw [BitVec.getLsbD_shiftLeft]
    by_cases above : 12 ≤ i
    · simp [above, bound, Nat.not_lt.mpr above]
    · simp [above, Nat.lt_of_not_le above]
  simp only [pteditSetPfn, pfnMask_eq, BitVec.getLsbD_or, BitVec.getLsbD_and, BitVec.getLsbD_not,
    pfnField_mask, shifted, bound, decide_true, Bool.true_and]
  by_cases inside : 12 ≤ i ∧ i < 12 + pfnWidth arch
  · simp [inside]
  · simp [inside]

/-- A PFN that fits is written to its field. -/
theorem pteditSetPfn_eq_put {pfn : Word} (fits : pfn.toNat < 2 ^ pfnWidth arch) :
    pteditSetPfn arch entry pfn = (pfnField arch).put entry (pfn.setWidth (pfnWidth arch)) := by
  apply BitVec.eq_of_getLsbD_eq
  intro i bound
  rw [getLsbD_pteditSetPfn _ _ bound]
  by_cases inside : 12 ≤ i ∧ i < 12 + pfnWidth arch
  · have rest : i - 12 < pfnWidth arch := by omega
    rw [if_pos inside, (pfnField arch).put_inside _ _ (by simp [pfnField_mask, inside])]
    simp [pfnField, Field.range, bound, inside, rest]
  · rw [if_neg inside, (pfnField arch).put_outside _ _ (by simp [pfnField_mask, inside])]
    have none : (decide (12 ≤ i) && pfn.getLsbD (i - 12)) = false := by
      by_cases above : 12 ≤ i
      · have beyond : pfnWidth arch ≤ i - 12 := by omega
        have zero : pfn.getLsbD (i - 12) = false :=
          Nat.testBit_lt_two_pow (lt_of_lt_of_le fits (Nat.pow_le_pow_right (by decide) beyond))
        rw [zero, Bool.and_false]
      · simp [above]
    rw [none, Bool.or_false]

theorem setWidth_pfn {pfn : Word} (fits : pfn.toNat < 2 ^ pfnWidth arch) :
    (pfn.setWidth (pfnWidth arch)).setWidth 64 = pfn := by
  apply BitVec.eq_of_toNat_eq
  rw [BitVec.toNat_setWidth, BitVec.toNat_setWidth, Nat.mod_eq_of_lt fits]
  exact Nat.mod_eq_of_lt pfn.isLt

theorem pteditGetPfn_lt : (pteditGetPfn arch entry).toNat < 2 ^ pfnWidth arch := by
  rw [pteditGetPfn_eq, BitVec.toNat_setWidth]
  exact lt_of_le_of_lt (Nat.mod_le _ _) (BitVec.isLt _)

end Pfn

/-! ## The memory type as a field -/

/-- Three positions in an entry, the lowest first. -/
structure Ascending (a b c : Nat) : Prop where
  low : a < b
  high : b < c
  inside : c < 64

namespace Ascending

variable {a b c : Nat} (ascending : Ascending a b c)

include ascending

theorem second_lt : b < 64 := lt_trans ascending.high ascending.inside

theorem first_lt : a < 64 := lt_trans ascending.low ascending.second_lt

theorem apart_above :
    (Field.bit b ascending.second_lt).Apart (Field.bit c ascending.inside) := by
  have high := ascending.high
  intro i here
  rw [Field.bit_mask, decide_eq_true_eq] at here
  rw [Field.bit_mask, decide_eq_false_iff_not]
  omega

theorem apart_pair :
    (Field.bit a ascending.first_lt).Apart
      (Field.pair (Field.bit b ascending.second_lt) (Field.bit c ascending.inside)
        ascending.apart_above) := by
  have low := ascending.low
  have high := ascending.high
  intro i here
  rw [Field.bit_mask, decide_eq_true_eq] at here
  rw [Field.pair_mask, Field.bit_mask, Field.bit_mask, Bool.or_eq_false_iff,
    decide_eq_false_iff_not, decide_eq_false_iff_not]
  omega

end Ascending

def threeBits (a b c : Nat) (ascending : Ascending a b c) : Field 64 (Bool × Bool × Bool) :=
  Field.pair (Field.bit a ascending.first_lt)
    (Field.pair (Field.bit b ascending.second_lt) (Field.bit c ascending.inside)
      ascending.apart_above)
    ascending.apart_pair

section ThreeBits

variable {a b c : Nat} (ascending : Ascending a b c)

theorem threeBits_mask (i : Nat) :
    (threeBits a b c ascending).mask.getLsbD i = decide (i = a ∨ i = b ∨ i = c) := by
  rw [threeBits, Field.pair_mask, Field.pair_mask, Field.bit_mask, Field.bit_mask, Field.bit_mask]
  simp [Bool.decide_or]

theorem threeBits_put (entry : Word) (value : Bool × Bool × Bool) (i : Nat) :
    ((threeBits a b c ascending).put entry value).getLsbD i =
      if i = a then value.1
      else if i = b then value.2.1
      else if i = c then value.2.2
      else entry.getLsbD i := by
  have one : ∀ (position : Nat) (inside : position < 64) (word : Word) (v : Bool),
      ((Field.bit position inside).put word v).getLsbD i =
        if i = position then v else word.getLsbD i := by
    intro position inside word v
    rw [Field.put, getLsbD_splice, Field.bit_mask]
    by_cases here : i = position
    · cases v <;> simp [here, Field.bit, inside]
    · simp [here]
  rw [threeBits, Field.pair_put, one, Field.pair_put, one, one]

end ThreeBits

theorem pteBits_ascending : Ascending 3 4 7 := ⟨by decide, by decide, by decide⟩

theorem largeBits_ascending : Ascending 3 4 12 := ⟨by decide, by decide, by decide⟩

theorem indexBits_ascending : Ascending 2 3 4 := ⟨by decide, by decide, by decide⟩

def mtField : Arch → Field 64 (Bool × Bool × Bool)
  | .x86_64 => threeBits 3 4 7 pteBits_ascending
  | .aarch64 => threeBits 2 3 4 indexBits_ascending

def mtHugeField : Arch → Field 64 (Bool × Bool × Bool)
  | .x86_64 => threeBits 3 4 12 largeBits_ascending
  | .aarch64 => threeBits 2 3 4 indexBits_ascending

def mtBits (mt : BitVec 8) : Bool × Bool × Bool := (mt.getLsbD 0, mt.getLsbD 1, mt.getLsbD 2)

/-- The memory type that three bits stand for. -/
def mtOfBits (bits : Bool × Bool × Bool) : BitVec 8 :=
  (if bits.1 then 1 else 0) ||| (if bits.2.1 then 2 else 0) ||| (if bits.2.2 then 4 else 0)

theorem mtBits_mtOfBits (bits : Bool × Bool × Bool) : mtBits (mtOfBits bits) = bits := by
  obtain ⟨a, b, c⟩ := bits
  cases a <;> cases b <;> cases c <;> rfl

theorem mtOfBits_mtBits : ∀ mt, mtOfBits (mtBits mt) = mt % 8 := by decide +kernel

section MemoryType

variable (entry : Word) (mt : BitVec 8)

theorem mt_and_ne_zero : ∀ mt : BitVec 8, (mt &&& 1 != 0) = mt.getLsbD 0 ∧
    (mt &&& 2 != 0) = mt.getLsbD 1 ∧ (mt &&& 4 != 0) = mt.getLsbD 2 := by
  decide +kernel

/-- A flag that is or-ed in when it is set. -/
theorem getLsbD_orIf {k : Nat} (inside : k < 64) (word : Word) (flag : Bool) (i : Nat) :
    (if flag = true then word ||| (1#64 <<< k) else word).getLsbD i =
      (word.getLsbD i || (decide (i = k) && flag)) := by
  cases flag with
  | true => rw [if_pos rfl, BitVec.getLsbD_or, getLsbD_one_shiftLeft inside, Bool.and_true]
  | false => rw [if_neg Bool.false_ne_true, Bool.and_false, Bool.or_false]

theorem applyMtBits_eq_put {pat : Nat} (ascending : Ascending 3 4 pat) :
    applyMtBits pat entry mt = (threeBits 3 4 pat ascending).put entry (mtBits mt) := by
  obtain ⟨pwt, pcd, patFlag⟩ := mt_and_ne_zero mt
  have inside := ascending.inside
  have high := ascending.high
  have ne3 : pat ≠ 3 := by omega
  have ne4 : pat ≠ 4 := by omega
  apply BitVec.eq_of_getLsbD_eq
  intro i bound
  simp only [applyMtBits, pwt, pcd, patFlag, pageBitPwt, pageBitPcd]
  rw [getLsbD_orIf inside, getLsbD_orIf (by decide), getLsbD_orIf (by decide), threeBits_put]
  simp only [BitVec.getLsbD_and, BitVec.getLsbD_not, BitVec.getLsbD_or,
    getLsbD_one_shiftLeft inside, getLsbD_one_shiftLeft (show 3 < 64 by decide),
    getLsbD_one_shiftLeft (show 4 < 64 by decide), bound, decide_true, Bool.true_and, mtBits]
  by_cases at3 : i = 3
  · simp [at3, ne3.symm]
  by_cases at4 : i = 4
  · simp [at4, ne4.symm]
  by_cases atPat : i = pat
  · simp [atPat, ne3, ne4]
  · simp [at3, at4, atPat]

/-- The two `int` masks of the aarch64 branch, sign-extended. -/
theorem applyMtIndex_masks : ∀ i : Fin 64,
    ((~~~0x1c#32).signExtend 64).getLsbD i.val =
      !decide (i.val = 2 ∨ i.val = 3 ∨ i.val = 4) := by
  decide +kernel

theorem applyMtIndex_index {i : Nat} (bound : i < 64) :
    (((mt.setWidth 32 &&& 7) <<< 2).signExtend 64).getLsbD i =
      if i = 2 then mt.getLsbD 0 else if i = 3 then mt.getLsbD 1
      else if i = 4 then mt.getLsbD 2 else false := by
  have seven : ∀ j : Nat, (7 : BitVec 32).getLsbD j = decide (j < 3) := by
    intro j
    by_cases below : j < 32
    · revert j
      decide +kernel
    · rw [BitVec.getLsbD_of_ge _ _ (Nat.le_of_not_lt below), eq_comm, decide_eq_false_iff_not]
      omega
  have positive : ((mt.setWidth 32 &&& 7) <<< 2).msb = false := by
    simp [BitVec.msb_eq_getLsbD_last]
  rw [BitVec.signExtend_eq_setWidth_of_msb_false positive]
  simp only [BitVec.getLsbD_setWidth, BitVec.getLsbD_shiftLeft, BitVec.getLsbD_and, seven]
  by_cases at2 : i = 2
  · simp [at2]
  by_cases at3 : i = 3
  · simp [at3]
  by_cases at4 : i = 4
  · simp [at4]
  · have outside : i < 2 ∨ ¬ i - 2 < 3 := by omega
    obtain low | high := outside
    · simp [at2, at3, at4, low]
    · simp [at2, at3, at4, high]

theorem applyMtIndex_eq_put :
    applyMtIndex entry mt = (threeBits 2 3 4 indexBits_ascending).put entry (mtBits mt) := by
  apply BitVec.eq_of_getLsbD_eq
  intro i bound
  rw [applyMtIndex, BitVec.getLsbD_or, BitVec.getLsbD_and, applyMtIndex_masks ⟨i, bound⟩,
    applyMtIndex_index mt bound, threeBits_put]
  simp only [mtBits]
  by_cases at2 : i = 2
  · simp [at2]
  by_cases at3 : i = 3
  · simp [at3]
  by_cases at4 : i = 4
  · simp [at4]
  · simp [at2, at3, at4]

theorem testBit_eq {k : Nat} (inside : k < 64) :
    testBit entry k = if entry.getLsbD k then 1 else 0 := by
  rw [testBit, and_bit_ne_zero entry k inside]

theorem extractMtBits_eq {pat : Nat} (ascending : Ascending 3 4 pat) :
    extractMtBits pat entry = mtOfBits ((threeBits 3 4 pat ascending).get entry) := by
  have bits : (threeBits 3 4 pat ascending).get entry =
      (entry.getLsbD 3, entry.getLsbD 4, entry.getLsbD pat) := rfl
  rw [extractMtBits, pageBitPwt, pageBitPcd, testBit_eq entry (by decide),
    testBit_eq entry (by decide), testBit_eq entry ascending.inside, bits, mtOfBits]
  cases entry.getLsbD 3 <;> cases entry.getLsbD 4 <;> cases entry.getLsbD pat <;> rfl

theorem extractMtIndex_eq :
    extractMtIndex entry = mtOfBits ((threeBits 2 3 4 indexBits_ascending).get entry) := by
  have bits : (threeBits 2 3 4 indexBits_ascending).get entry =
      (entry.getLsbD 2, entry.getLsbD 3, entry.getLsbD 4) := rfl
  have own : mtBits (extractMtIndex entry) =
      (entry.getLsbD 2, entry.getLsbD 3, entry.getLsbD 4) := by
    simp [mtBits, extractMtIndex]
  have small : extractMtIndex entry % 8 = extractMtIndex entry := by
    apply BitVec.eq_of_toNat_eq
    have bound : (extractMtIndex entry).toNat ≤ 7 := by
      rw [extractMtIndex, BitVec.toNat_setWidth, BitVec.toNat_and]
      exact le_trans (Nat.mod_le _ _) Nat.and_le_right
    rw [BitVec.toNat_umod]
    exact Nat.mod_eq_of_lt (Nat.lt_succ_of_le bound)
  rw [bits, ← own, mtOfBits_mtBits, small]

theorem pteditApplyMt_eq_put (arch : Arch) :
    pteditApplyMt arch entry mt = (mtField arch).put entry (mtBits mt) := by
  cases arch with
  | x86_64 => exact applyMtBits_eq_put entry mt pteBits_ascending
  | aarch64 => exact applyMtIndex_eq_put entry mt

theorem pteditExtractMt_eq (arch : Arch) :
    pteditExtractMt arch entry = mtOfBits ((mtField arch).get entry) := by
  cases arch with
  | x86_64 => exact extractMtBits_eq entry pteBits_ascending
  | aarch64 => exact extractMtIndex_eq entry

theorem pteditApplyMtHuge_eq_put (arch : Arch) :
    pteditApplyMtHuge arch entry mt = (mtHugeField arch).put entry (mtBits mt) := by
  cases arch with
  | x86_64 => exact applyMtBits_eq_put entry mt largeBits_ascending
  | aarch64 => exact applyMtIndex_eq_put entry mt

theorem pteditExtractMtHuge_eq (arch : Arch) :
    pteditExtractMtHuge arch entry = mtOfBits ((mtHugeField arch).get entry) := by
  cases arch with
  | x86_64 => exact extractMtBits_eq entry largeBits_ascending
  | aarch64 => exact extractMtIndex_eq entry

/-- What was applied is extracted again, in both pairs. -/
theorem pteditExtractMt_apply (arch : Arch) :
    pteditExtractMt arch (pteditApplyMt arch entry mt) = mt % 8 := by
  rw [pteditExtractMt_eq, pteditApplyMt_eq_put, Field.get_put, mtOfBits_mtBits]

theorem pteditExtractMtHuge_apply (arch : Arch) :
    pteditExtractMtHuge arch (pteditApplyMtHuge arch entry mt) = mt % 8 := by
  rw [pteditExtractMtHuge_eq, pteditApplyMtHuge_eq_put, Field.get_put, mtOfBits_mtBits]

end MemoryType

/-! ## A PTE -/

/-- The bits of the memory type of a PTE. -/
def MtBit : Arch → Nat → Prop
  | .x86_64, i => i = pageBitPwt ∨ i = pageBitPcd ∨ i = pageBitPat
  | .aarch64, i => i = 2 ∨ i = 3 ∨ i = 4

theorem mtField_outside {arch : Arch} {i : Nat} (outside : ¬ MtBit arch i) :
    (mtField arch).mask.getLsbD i = false := by
  cases arch with
  | x86_64 =>
      rw [mtField, threeBits_mask]
      exact decide_eq_false outside
  | aarch64 =>
      rw [mtField, threeBits_mask]
      exact decide_eq_false outside

theorem pfnField_outside {arch : Arch} {i : Nat}
    (outside : ¬ (12 ≤ i ∧ i < 12 + pfnWidth arch)) :
    (pfnField arch).mask.getLsbD i = false := by
  rw [pfnField_mask]
  exact decide_eq_false outside

theorem pfn_apart_mt (arch : Arch) : (pfnField arch).Apart (mtField arch) := by
  intro i inside
  rw [pfnField_mask, decide_eq_true_eq] at inside
  apply mtField_outside
  intro bit
  cases arch with
  | x86_64 =>
      simp only [MtBit, pageBitPwt, pageBitPcd, pageBitPat] at bit
      omega
  | aarch64 =>
      simp only [MtBit] at bit
      omega

/-- **PFN and memory type of a PTE are independent fields**: each setter is read back by
its getter, writing what was read changes nothing, the last write counts, the two
setters commute and neither shows in the other's getter or outside its own bits. -/
theorem pfn_and_mt_independent (arch : Arch) (entry pfn pfn' : Word) (mt mt' : BitVec 8)
    (fits : pfn.toNat < 2 ^ pfnWidth arch) (fits' : pfn'.toNat < 2 ^ pfnWidth arch) :
    pteditGetPfn arch (pteditSetPfn arch entry pfn) = pfn ∧
    pteditExtractMt arch (pteditApplyMt arch entry mt) = mt % 8 ∧
    pteditSetPfn arch entry (pteditGetPfn arch entry) = entry ∧
    pteditApplyMt arch entry (pteditExtractMt arch entry) = entry ∧
    pteditSetPfn arch (pteditSetPfn arch entry pfn) pfn' = pteditSetPfn arch entry pfn' ∧
    pteditApplyMt arch (pteditApplyMt arch entry mt) mt' = pteditApplyMt arch entry mt' ∧
    pteditApplyMt arch (pteditSetPfn arch entry pfn) mt =
      pteditSetPfn arch (pteditApplyMt arch entry mt) pfn ∧
    pteditGetPfn arch (pteditApplyMt arch entry mt) = pteditGetPfn arch entry ∧
    pteditExtractMt arch (pteditSetPfn arch entry pfn) = pteditExtractMt arch entry ∧
    (∀ i, ¬ (12 ≤ i ∧ i < 12 + pfnWidth arch) →
      (pteditSetPfn arch entry pfn).getLsbD i = entry.getLsbD i) ∧
    (∀ i, ¬ MtBit arch i → (pteditApplyMt arch entry mt).getLsbD i = entry.getLsbD i) := by
  have apart := pfn_apart_mt arch
  refine ⟨?_, pteditExtractMt_apply entry mt arch, ?_, ?_, ?_, ?_, ?_, ?_, ?_, ?_, ?_⟩
  · rw [pteditSetPfn_eq_put entry fits, pteditGetPfn_eq, Field.get_put, setWidth_pfn fits]
  · have same : (pteditGetPfn arch entry).setWidth (pfnWidth arch) = (pfnField arch).get entry := by
      have narrower : pfnWidth arch ≤ 64 := by cases arch <;> decide
      rw [pteditGetPfn_eq, BitVec.setWidth_setWidth_of_le _ narrower, BitVec.setWidth_eq]
    rw [pteditSetPfn_eq_put entry (pteditGetPfn_lt entry), same, Field.put_get]
  · rw [pteditApplyMt_eq_put, pteditExtractMt_eq, mtBits_mtOfBits, Field.put_get]
  · rw [pteditSetPfn_eq_put entry fits, pteditSetPfn_eq_put _ fits', Field.put_put,
      pteditSetPfn_eq_put entry fits']
  · rw [pteditApplyMt_eq_put, pteditApplyMt_eq_put, Field.put_put, pteditApplyMt_eq_put]
  · rw [pteditSetPfn_eq_put entry fits, pteditApplyMt_eq_put, apart.put_comm,
      pteditApplyMt_eq_put, pteditSetPfn_eq_put _ fits]
  · rw [pteditGetPfn_eq, pteditApplyMt_eq_put, apart.get_put, pteditGetPfn_eq]
  · rw [pteditExtractMt_eq, pteditSetPfn_eq_put entry fits, apart.symm.get_put,
      pteditExtractMt_eq]
  · intro i outside
    rw [pteditSetPfn_eq_put entry fits, Field.put_outside _ _ _ (pfnField_outside outside)]
  · intro i outside
    rw [pteditApplyMt_eq_put, Field.put_outside _ _ _ (mtField_outside outside)]

/-- An uncachable mapping moved to another frame. -/
theorem pfn_and_mt_independent_moved :
    pteditApplyMt .x86_64 (pteditSetPfn .x86_64 0x8000000012345067 0xabcde) 3 =
      pteditSetPfn .x86_64 (pteditApplyMt .x86_64 0x8000000012345067 3) 0xabcde :=
  (pfn_and_mt_independent .x86_64 0x8000000012345067 0xabcde 0xabcde 3 3
    (by decide) (by decide)).2.2.2.2.2.2.1

/-! ## A PMD that maps a large page -/

/-- Frame and memory type of a large PMD do not disturb each other, for these arguments. -/
def HugeIndependent (entry pfn : Word) (mt : BitVec 8) : Prop :=
  pteditExtractMtHuge .x86_64 (pteditApplyMtHuge .x86_64 entry mt) = mt ∧
  (∀ i, i ≠ pageBitPwt → i ≠ pageBitPcd → i ≠ pageBitPatLarge →
    (pteditApplyMtHuge .x86_64 entry mt).getLsbD i = entry.getLsbD i) ∧
  (∀ member, member ≠ .writeThrough → member ≠ .cacheDisabled → member ≠ .pat →
    pmdLargeX86.castMember member (pteditApplyMtHuge .x86_64 entry mt) =
      pmdLargeX86.castMember member entry) ∧
  pteditGetPfn .x86_64 (pteditApplyMtHuge .x86_64 entry mt) = pteditGetPfn .x86_64 entry ∧
  pteditExtractMtHuge .x86_64 (pteditSetPfn .x86_64 entry pfn) =
    pteditExtractMtHuge .x86_64 entry

section Huge

variable (entry pfn : Word) (mt : BitVec 8)

theorem getLsbD_pteditApplyMtHuge (i : Nat) :
    (pteditApplyMtHuge .x86_64 entry mt).getLsbD i =
      if i = 3 then mt.getLsbD 0
      else if i = 4 then mt.getLsbD 1
      else if i = 12 then mt.getLsbD 2
      else entry.getLsbD i := by
  rw [pteditApplyMtHuge_eq_put, mtHugeField, threeBits_put]
  rfl

theorem pteditExtractMtHuge_eq_iff (entry' : Word) :
    pteditExtractMtHuge .x86_64 entry' = pteditExtractMtHuge .x86_64 entry ↔
      entry'.getLsbD 3 = entry.getLsbD 3 ∧ entry'.getLsbD 4 = entry.getLsbD 4 ∧
      entry'.getLsbD 12 = entry.getLsbD 12 := by
  have bits : ∀ word : Word, (mtHugeField .x86_64).get word =
      (word.getLsbD 3, word.getLsbD 4, word.getLsbD 12) := fun _ => rfl
  have injective : Function.Injective mtOfBits :=
    Function.LeftInverse.injective mtBits_mtOfBits
  rw [pteditExtractMtHuge_eq, pteditExtractMtHuge_eq, injective.eq_iff, bits, bits,
    Prod.mk.injEq, Prod.mk.injEq]

/-- Only these members of the struct lie on the bits of the memory type. -/
theorem pmdLargeX86_covers : ∀ member, member ≠ .writeThrough → member ≠ .cacheDisabled →
    member ≠ .pat → ¬ pmdLargeX86.Covers member 3 ∧ ¬ pmdLargeX86.Covers member 4 ∧
      ¬ pmdLargeX86.Covers member 12 := by
  intro member
  cases member <;> decide

theorem castMember_pteditApplyMtHuge {member : Member} (notPwt : member ≠ .writeThrough)
    (notPcd : member ≠ .cacheDisabled) (notPat : member ≠ .pat) :
    pmdLargeX86.castMember member (pteditApplyMtHuge .x86_64 entry mt) =
      pmdLargeX86.castMember member entry := by
  obtain ⟨no3, no4, no12⟩ := pmdLargeX86_covers member notPwt notPcd notPat
  apply Layout.castMember_congr
  intro i covered
  have ne3 : i ≠ 3 := fun same => no3 (same ▸ covered)
  have ne4 : i ≠ 4 := fun same => no4 (same ▸ covered)
  have ne12 : i ≠ 12 := fun same => no12 (same ▸ covered)
  rw [getLsbD_pteditApplyMtHuge, if_neg ne3, if_neg ne4, if_neg ne12]

/-- Bit 12 is the lowest bit of what `ptedit_get_pfn` takes for the PFN. -/
theorem pteditGetPfn_applyMtHuge_iff :
    pteditGetPfn .x86_64 (pteditApplyMtHuge .x86_64 entry mt) = pteditGetPfn .x86_64 entry ↔
      mt.getLsbD 2 = entry.getLsbD 12 := by
  constructor
  · intro same
    have bit := congrArg (BitVec.getLsbD · 0) same
    rw [getLsbD_pteditGetPfn, getLsbD_pteditGetPfn, getLsbD_pteditApplyMtHuge] at bit
    simpa [pfnWidth] using bit
  · intro bit
    apply BitVec.eq_of_getLsbD_eq
    intro i _
    rw [getLsbD_pteditGetPfn, getLsbD_pteditGetPfn, getLsbD_pteditApplyMtHuge,
      if_neg (by omega), if_neg (by omega)]
    by_cases lowest : 12 + i = 12
    · rw [if_pos lowest, lowest, bit]
    · rw [if_neg lowest]

theorem pteditExtractMtHuge_setPfn_iff :
    pteditExtractMtHuge .x86_64 (pteditSetPfn .x86_64 entry pfn) =
        pteditExtractMtHuge .x86_64 entry ↔
      pfn.getLsbD 0 = entry.getLsbD 12 := by
  rw [pteditExtractMtHuge_eq_iff, getLsbD_pteditSetPfn _ _ (by decide),
    getLsbD_pteditSetPfn _ _ (by decide), getLsbD_pteditSetPfn _ _ (by decide)]
  simp [pfnWidth]

theorem mt_lt_four_iff : ∀ mt : BitVec 8, mt.toNat < 8 → (mt.toNat < 4 ↔ mt.getLsbD 2 = false) := by
  decide +kernel

/-- **Frame and memory type of a large PMD are independent exactly below PAT**: the PAT bit
of a large page is bit 12, which `ptedit_get_pfn` and `ptedit_set_pfn` take for a bit of the
PFN, so it has to be clear in the entry and in the memory type.  Neither the size bit of the
entry nor the bits of an over-wide PFN matter. -/
theorem hugeIndependent_iff {entry pfn : Word} {mt : BitVec 8} (inRange : mt.toNat < 8)
    (aligned : pfn.toNat % 512 = 0) :
    HugeIndependent entry pfn mt ↔ entry.getLsbD 12 = false ∧ mt.toNat < 4 := by
  have even : pfn.getLsbD 0 = false := by
    rw [← BitVec.testBit_toNat, Nat.testBit_zero]
    exact decide_eq_false (by omega)
  rw [mt_lt_four_iff mt inRange]
  constructor
  · rintro ⟨-, -, -, frame, type⟩
    rw [pteditGetPfn_applyMtHuge_iff] at frame
    rw [pteditExtractMtHuge_setPfn_iff, even] at type
    exact ⟨type.symm, frame.trans type.symm⟩
  · rintro ⟨bit, pat⟩
    refine ⟨?_, ?_, ?_, ?_, ?_⟩
    · rw [pteditExtractMtHuge_apply]
      apply BitVec.eq_of_toNat_eq
      rw [BitVec.toNat_umod]
      exact Nat.mod_eq_of_lt inRange
    · intro i notPwt notPcd notPat
      rw [getLsbD_pteditApplyMtHuge]
      exact (if_neg notPwt).trans ((if_neg notPcd).trans (if_neg notPat))
    · exact fun _ => castMember_pteditApplyMtHuge entry mt
    · rw [pteditGetPfn_applyMtHuge_iff, pat, bit]
    · rw [pteditExtractMtHuge_setPfn_iff, even, bit]

/-- A 2 MiB page that is made uncachable and moved. -/
theorem hugeIndependent_uncachable : HugeIndependent 0x400000e7 0x40200 3 :=
  (hugeIndependent_iff (by decide) (by decide)).mpr ⟨by decide, by decide⟩

/-- Memory type 4 moves the frame of a 2 MiB page by one. -/
theorem not_hugeIndependent_pat :
    castSize 0x400000e7 = 1 ∧ ¬ HugeIndependent 0x400000e7 0x40200 4 := by
  refine ⟨by decide, ?_⟩
  rintro ⟨-, -, -, frame, -⟩
  revert frame
  decide

end Huge

end PTEditor.Library.EntryFields
