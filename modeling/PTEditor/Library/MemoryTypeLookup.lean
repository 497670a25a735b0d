/-
# PTEditor.Library.MemoryTypeLookup -- from a memory type to an entry

`ptedit_find_mt` scans the eight slots of the register for a memory type and returns
the set of slots that hold it, `ptedit_find_first_mt` returns the first of them, and
`ptedit_apply_mt` puts that slot into an entry.  `foldl_mark` is the loop, bit by bit;
`findFirstMtIn_cases` is what find-first-set makes of it.  The functions up to the
register's value are pure, and hold for every value; the calls read it with
`ptedit_get_mts` first.

On aarch64 a type of four bits also matches a slot whose two nibbles, inner and outer,
both are that type.
-/
import PTEditor.Library.MemoryTypes
import PTEditor.Library.EntryFields

namespace PTEditor.Library.MemoryTypeLookup

open PTEditor.Theory.ByteMemory PTEditor.Interface PTEditor.Module PTEditor.Library.MemoryTypes
  PTEditor.Library.EntryFields PTEditor.Library.X86Walk

set_option autoImplicit false

/-! ## The calls -/

/-- The test of the loop of `ptedit_find_mt`. -/
def matchesMt (arch : Arch) (mts : Word) (type : BitVec 8) (i : Nat) : Bool :=
  match arch with
  | .x86_64 => (mts >>> (i * 8)) &&& 7 == type.setWidth 64
  | .aarch64 =>
      if (mts >>> (i * 8)) &&& 0xff == type.setWidth 64 then true
      else
        let plow : BitVec 8 := ((mts >>> (i * 8)) &&& 0xf).setWidth 8
        let phigh : BitVec 8 := (((mts >>> (i * 8)) >>> 4) &&& 0xf).setWidth 8
        plow == phigh && plow == type

/-- `found |= (1 << i)`. -/
def mark (test : Nat → Bool) (found : BitVec 8) (i : Nat) : BitVec 8 :=
  if test i then found ||| (1#32 <<< i).setWidth 8 else found

def getMtIn (arch : Arch) (mts : Word) (mt : Slot) : BitVec 8 :=
  ((mts >>> offset mt) &&& (typeMask arch).setWidth 64).setWidth 8

def findMtIn (arch : Arch) (mts : Word) (type : BitVec 8) : BitVec 8 :=
  (List.range 8).foldl (mark (matchesMt arch mts type)) 0

/-- `__builtin_ffs`: one more than the position of the lowest bit that is set, or zero. -/
def builtinFfs (x : BitVec 32) : Int :=
  match (List.range 32).find? fun i => x.getLsbD i with
  | some i => i + 1
  | none => 0

def findFirstMtIn (arch : Arch) (mts : Word) (type : BitVec 8) : Int :=
  builtinFfs ((findMtIn arch mts type).setWidth 32) - 1

section Calls

variable (P : Platform)

def pteditFindMt (type : BitVec 8) (s : System) : BitVec 8 :=
  findMtIn P.arch (pteditGetMts P s) type

def pteditFindFirstMt (type : BitVec 8) (s : System) : Int :=
  builtinFfs ((pteditFindMt P type s).setWidth 32) - 1

end Calls

/-! ## The loop -/

theorem getLsbD_mark (test : Nat → Bool) (found : BitVec 8) {i j : Nat} (bound : j < 8) :
    (mark test found i).getLsbD j = (found.getLsbD j || (decide (j = i) && test i)) := by
  have one : ((1#32 <<< i).setWidth 8).getLsbD j = decide (j = i) := by
    rw [← BitVec.twoPow_eq, BitVec.getLsbD_setWidth, BitVec.getLsbD_twoPow]
    by_cases same : j = i
    · have inside : i < 32 := by omega
      simp [same, inside, same ▸ bound]
    · simp [same, Ne.symm same]
  unfold mark
  cases here : test i with
  | true => rw [if_pos rfl, BitVec.getLsbD_or, one, Bool.and_true]
  | false => simp

/-- The bits the loop leaves: those it found, and one for each position that passes. -/
theorem foldl_mark (test : Nat → Bool) (positions : List Nat) (found : BitVec 8) {j : Nat}
    (bound : j < 8) :
    (positions.foldl (mark test) found).getLsbD j =
      (found.getLsbD j || (decide (j ∈ positions) && test j)) := by
  induction positions generalizing found with
  | nil => simp
  | cons i rest ih =>
      rw [List.foldl_cons, ih, getLsbD_mark test found bound]
      by_cases same : j = i
      · subst same
        cases test j <;> simp
      · simp [same]

theorem getLsbD_findMtIn (arch : Arch) (mts : Word) (type : BitVec 8) (i : Slot) :
    (findMtIn arch mts type).getLsbD i.val = matchesMt arch mts type i.val := by
  rw [findMtIn, foldl_mark _ _ _ i.isLt]
  simp [List.mem_range]

/-! ## What a match means -/

def slotByte (mts : Word) (i : Slot) : BitVec 8 := mts.extractLsb' (offset i) 8

/-- The slot holds the type: on x86-64 by what `ptedit_get_mt` returns of it, on aarch64
by its byte or by both of its nibbles. -/
def Holds : Arch → Word → Slot → BitVec 8 → Prop
  | .x86_64, mts, i, type => getMtIn .x86_64 mts i = type
  | .aarch64, mts, i, type =>
      slotByte mts i = type ∨
        ((slotByte mts i).toNat % 16 = type.toNat ∧ (slotByte mts i).toNat / 16 = type.toNat)

/-- A byte compared as a `size_t`. -/
theorem eq_setWidth_iff {x : Word} (small : x.toNat < 256) (type : BitVec 8) :
    x = type.setWidth 64 ↔ x.setWidth 8 = type := by
  rw [← BitVec.toNat_inj, ← BitVec.toNat_inj, BitVec.toNat_setWidth, BitVec.toNat_setWidth]
  have bound := type.isLt
  omega

theorem and_toNat_le (x : Word) (mask : Word) : (x &&& mask).toNat ≤ mask.toNat := by
  rw [BitVec.toNat_and]
  exact Nat.and_le_right

section Matches

variable (mts : Word) (type : BitVec 8) (i : Slot)

theorem slotByte_toNat : (slotByte mts i).toNat = (mts >>> offset i).toNat % 256 := by
  rw [slotByte, BitVec.extractLsb'_toNat, BitVec.toNat_ushiftRight]

theorem low_byte : ((mts >>> offset i) &&& 0xff).setWidth 8 = slotByte mts i := by
  apply BitVec.eq_of_toNat_eq
  rw [slotByte_toNat, BitVec.toNat_setWidth, BitVec.toNat_and]
  show ((mts >>> offset i).toNat &&& (2 ^ 8 - 1)) % 2 ^ 8 = (mts >>> offset i).toNat % 256
  rw [Nat.and_two_pow_sub_one_eq_mod]
  omega

theorem low_nibble :
    (((mts >>> offset i) &&& 0xf).setWidth 8).toNat = (slotByte mts i).toNat % 16 := by
  rw [slotByte_toNat, BitVec.toNat_setWidth, BitVec.toNat_and]
  show ((mts >>> offset i).toNat &&& (2 ^ 4 - 1)) % 2 ^ 8 = (mts >>> offset i).toNat % 256 % 16
  rw [Nat.and_two_pow_sub_one_eq_mod]
  omega

theorem high_nibble :
    ((((mts >>> offset i) >>> 4) &&& 0xf).setWidth 8).toNat = (slotByte mts i).toNat / 16 := by
  rw [slotByte_toNat, BitVec.toNat_setWidth, BitVec.toNat_and, BitVec.toNat_ushiftRight,
    Nat.shiftRight_eq_div_pow]
  show ((mts >>> offset i).toNat / 2 ^ 4 &&& (2 ^ 4 - 1)) % 2 ^ 8 =
    (mts >>> offset i).toNat % 256 / 16
  rw [Nat.and_two_pow_sub_one_eq_mod]
  omega

theorem matchesMt_iff (arch : Arch) :
    matchesMt arch mts type i.val = true ↔ Holds arch mts i type := by
  cases arch with
  | x86_64 =>
      have small : ((mts >>> offset i) &&& 7).toNat < 256 :=
        lt_of_le_of_lt (and_toNat_le _ _) (by decide)
      exact (beq_iff_eq).trans (eq_setWidth_iff small type)
  | aarch64 =>
      have small : ((mts >>> offset i) &&& 0xff).toNat < 256 :=
        lt_of_le_of_lt (and_toNat_le _ _) (by decide)
      have byte : ((mts >>> offset i) &&& 0xff == type.setWidth 64) = true ↔
          slotByte mts i = type := by
        rw [beq_iff_eq, eq_setWidth_iff small, low_byte]
      have low := low_nibble mts i
      have high := high_nibble mts i
      simp only [offset] at byte low high
      simp only [matchesMt]
      by_cases whole : slotByte mts i = type
      · rw [if_pos (byte.mpr whole)]
        exact ⟨fun _ => .inl whole, fun _ => rfl⟩
      · rw [if_neg (mt byte.mp whole)]
        show _ ↔ slotByte mts i = type ∨ _ ∧ _
        rw [Bool.and_eq_true, beq_iff_eq, beq_iff_eq, ← low, ← high, BitVec.toNat_inj,
          BitVec.toNat_inj]
        constructor
        · rintro ⟨same, own⟩
          exact .inr ⟨own, same ▸ own⟩
        · rintro (absurdity | ⟨own, other⟩)
          · exact absurd absurdity whole
          · exact ⟨own.trans other.symm, own⟩

end Matches

/-! ## The first slot -/

section First

variable (arch : Arch) (mts : Word) (type : BitVec 8)

theorem getLsbD_findMtIn_iff (i : Slot) :
    ((findMtIn arch mts type).setWidth 32).getLsbD i.val = true ↔ Holds arch mts i type := by
  have inside : i.val < 32 := by omega
  rw [BitVec.getLsbD_setWidth, getLsbD_findMtIn]
  simp [inside, matchesMt_iff]

/-- The lowest bit of the set, as the search of `__builtin_ffs` finds it. -/
theorem find?_findMtIn (i : Nat) :
    (List.range 32).find? (fun j => ((findMtIn arch mts type).setWidth 32).getLsbD j) = some i ↔
      ∃ slot : Slot, slot.val = i ∧ Holds arch mts slot type ∧
        ∀ j < slot, ¬ Holds arch mts j type := by
  have bit := getLsbD_findMtIn_iff arch mts type
  have beyond : ∀ j, 8 ≤ j → ((findMtIn arch mts type).setWidth 32).getLsbD j = false := by
    intro j outside
    rw [BitVec.getLsbD_setWidth, BitVec.getLsbD_of_ge _ _ outside, Bool.and_false]
  rw [List.find?_range_eq_some]
  constructor
  · rintro ⟨here, -, before⟩
    have inside : i < 8 := by
      by_contra outside
      rw [beyond i (by omega)] at here
      cases here
    refine ⟨⟨i, inside⟩, rfl, (bit ⟨i, inside⟩).mp here, ?_⟩
    intro j below held
    have clear := before j.val below
    rw [(bit j).mpr held] at clear
    cases clear
  · rintro ⟨slot, rfl, held, least⟩
    refine ⟨(bit slot).mpr held, List.mem_range.mpr (by omega), ?_⟩
    intro j below
    have inside : j < 8 := by omega
    have clear := least ⟨j, inside⟩ below
    rw [← bit, Bool.not_eq_true] at clear
    rw [clear]
    rfl

/-- The first slot that holds the type, or `-1` if none does. -/
theorem findFirstMtIn_cases :
    (∃ slot : Slot, findFirstMtIn arch mts type = (slot.val : Int) ∧ Holds arch mts slot type ∧
      ∀ j < slot, ¬ Holds arch mts j type) ∨
    (findFirstMtIn arch mts type = -1 ∧ ∀ i, ¬ Holds arch mts i type) := by
  unfold findFirstMtIn builtinFfs
  cases found : (List.range 32).find?
      (fun j => ((findMtIn arch mts type).setWidth 32).getLsbD j) with
  | none =>
      refine .inr ⟨rfl, ?_⟩
      intro i held
      have clear := List.find?_range_eq_none.mp found i.val (by omega)
      rw [(getLsbD_findMtIn_iff arch mts type i).mpr held] at clear
      cases clear
  | some k =>
      obtain ⟨slot, rfl, least⟩ := (find?_findMtIn arch mts type k).mp found
      refine .inl ⟨slot, ?_, least⟩
      simp only [add_sub_cancel_right]

theorem findFirstMtIn_eq_iff (i : Slot) :
    findFirstMtIn arch mts type = (i.val : Int) ↔
      Holds arch mts i type ∧ ∀ j < i, ¬ Holds arch mts j type := by
  obtain ⟨slot, same, held, least⟩ | ⟨same, absent⟩ := findFirstMtIn_cases arch mts type
  · rw [same]
    constructor
    · intro value
      have here : slot = i := Fin.ext (by omega)
      rw [← here]
      exact ⟨held, least⟩
    · rintro ⟨heldToo, leastToo⟩
      -- Neither of two first slots comes before the other.
      have notBelow : ¬ slot.val < i.val := fun below => leastToo slot below held
      have notAbove : ¬ i.val < slot.val := fun above => least i above heldToo
      omega
  · rw [same]
    constructor
    · intro value
      omega
    · rintro ⟨heldToo, -⟩
      exact absurd heldToo (absent i)

theorem findFirstMtIn_none_iff :
    findFirstMtIn arch mts type = -1 ↔ ∀ i, ¬ Holds arch mts i type := by
  obtain ⟨slot, same, held, -⟩ | ⟨same, absent⟩ := findFirstMtIn_cases arch mts type
  · rw [same]
    constructor
    · intro value
      omega
    · intro noSlot
      exact absurd held (noSlot slot)
  · exact ⟨fun _ => absent, fun _ => same⟩

/-- If it is not `-1`, it is a slot that holds the type. -/
theorem findFirstMtIn_slot (found : findFirstMtIn arch mts type ≠ -1) :
    ∃ slot : Slot, findFirstMtIn arch mts type = (slot.val : Int) ∧ Holds arch mts slot type := by
  obtain ⟨slot, same, held, -⟩ | ⟨same, -⟩ := findFirstMtIn_cases arch mts type
  · exact ⟨slot, same, held⟩
  · exact absurd same found

/-- The `int` of a slot, as the `unsigned char` that `ptedit_apply_mt` takes. -/
theorem ofInt_slot : ∀ slot : Slot, ((BitVec.ofInt 8 (slot.val : Int)) % 8).toNat = slot.val := by
  decide +kernel

/-- **The lookup chain is sound and complete**, for every value of the register: the bits of
`ptedit_find_mt` are the slots that hold the type, `ptedit_find_first_mt` is the first of
them or `-1`, and the slot that comes back out of an entry holds the type.  The calls are
these functions of what `ptedit_get_mts` returns. -/
theorem mtLookup_exact (entry : Word) :
    (∀ i : Slot, (findMtIn arch mts type).getLsbD i.val = true ↔ Holds arch mts i type) ∧
    (∀ i : Slot, findFirstMtIn arch mts type = (i.val : Int) ↔
      Holds arch mts i type ∧ ∀ j < i, ¬ Holds arch mts j type) ∧
    (findFirstMtIn arch mts type = -1 ↔ ∀ i, ¬ Holds arch mts i type) ∧
    (∀ f, findFirstMtIn arch mts type = f → f ≠ -1 →
      (∃ slot : Slot,
        slot.val = (pteditExtractMt arch (pteditApplyMt arch entry (BitVec.ofInt 8 f))).toNat ∧
        Holds arch mts slot type) ∧
      ∃ slot : Slot,
        slot.val =
          (pteditExtractMtHuge arch (pteditApplyMtHuge arch entry (BitVec.ofInt 8 f))).toNat ∧
        Holds arch mts slot type) ∧
    (∀ (P : Platform) (s : System), P.arch = arch → pteditGetMts P s = mts →
      pteditFindMt P type s = findMtIn arch mts type ∧
      pteditFindFirstMt P type s = findFirstMtIn arch mts type ∧
      ∀ i, pteditGetMt P i s = getMtIn arch mts i) := by
  refine ⟨?_, findFirstMtIn_eq_iff arch mts type, findFirstMtIn_none_iff arch mts type, ?_, ?_⟩
  · intro i
    rw [getLsbD_findMtIn, matchesMt_iff]
  · rintro f rfl found
    obtain ⟨slot, same, held⟩ := findFirstMtIn_slot arch mts type found
    rw [same, pteditExtractMt_apply, pteditExtractMtHuge_apply]
    exact ⟨⟨slot, (ofInt_slot slot).symm, held⟩, ⟨slot, (ofInt_slot slot).symm, held⟩⟩
  · rintro P s rfl rfl
    exact ⟨rfl, rfl, fun _ => rfl⟩

end First

/-- Write-back in the register `onePageKernel` has is slot 0, found by the calls themselves. -/
theorem mtLookup_exact_writeBack :
    pteditFindFirstMt fourLevelPlatform 6 onePageSystem = 0 ∧
      ∃ slot : Slot,
        slot.val = (pteditExtractMt .x86_64 (pteditApplyMt .x86_64 0x1007 0)).toNat ∧
        Holds .x86_64 (pteditGetMts fourLevelPlatform onePageSystem) slot 6 := by
  have first : findFirstMtIn .x86_64
      (pteditGetMts fourLevelPlatform onePageSystem) 6 = 0 := by
    decide +kernel
  have lookup := mtLookup_exact .x86_64
    (pteditGetMts fourLevelPlatform onePageSystem) 6 0x1007
  refine ⟨?_, (lookup.2.2.2.1 0 first (by decide)).1⟩
  rw [(lookup.2.2.2.2 fourLevelPlatform onePageSystem rfl rfl).2.1, first]

end PTEditor.Library.MemoryTypeLookup
