/-
# PTEditor.Linux.PfnViews -- two readings of the PFN, and writing it

The PFN of an entry is read in two ways: through the bit-field structs, which is how
the walk and the update find tables, and with `ptedit_get_pfn`.  On aarch64 both have
36 bits.  On x86-64 the structs have 28, `ptedit_get_pfn` and `ptedit_set_pfn` have 40,
so the readings differ from 1 TiB on (`pfnViewsAgree_iff`).

`ptedit_set_pfn` clears the field and shifts the PFN in at full width, so a PFN that is
too wide sets bits above the field.  `ptedit_pte_set_pfn` passes it on unchecked:
`pteSetPfn_changesOnlyPfn_iff` says when the PTE keeps its other bits.
-/
import PTEditor.Library.EntryFields
import PTEditor.Linux.Edits

namespace PTEditor.Linux.PfnViews

open PTEditor.Theory.ByteMemory PTEditor.Interface PTEditor.Module PTEditor.Library
open PTEditor.Library.EntryFields PTEditor.Library.WriteBack PTEditor.Linux.Edits

set_option autoImplicit false

/-! ## The struct against the mask -/

section Views

variable (entry pfn : Word)

def structWidth : Arch → Nat
  | .x86_64 => 28
  | .aarch64 => 36

theorem getLsbD_castPfn (arch : Arch) {i : Nat} (bound : i < 64) :
    (castPfn arch entry).getLsbD i =
      (decide (i < structWidth arch) && entry.getLsbD (12 + i)) := by
  cases arch with
  | x86_64 =>
      rw [castPfn, getLsbD_bitField, decide_eq_true bound, Bool.true_and]
      rfl
  | aarch64 =>
      rw [castPfn, getLsbD_bitField, decide_eq_true bound, Bool.true_and]
      rfl

theorem castPfn_aarch64 : castPfn .aarch64 entry = pteditGetPfn .aarch64 entry := by
  apply BitVec.eq_of_getLsbD_eq
  intro i bound
  rw [getLsbD_castPfn _ _ bound, getLsbD_pteditGetPfn]
  rfl

/-- On x86-64 the struct misses the twelve upper bits of the mask. -/
theorem castPfn_x86_64_iff :
    castPfn .x86_64 entry = pteditGetPfn .x86_64 entry ↔
      ∀ i, 40 ≤ i → i < 52 → entry.getLsbD i = false := by
  constructor
  · intro same i low high
    have bit := congrArg (BitVec.getLsbD · (i - 12)) same
    have position : 12 + (i - 12) = i := by omega
    have narrow : ¬ i - 12 < 28 := by omega
    have wide : i - 12 < 40 := by omega
    simp only [getLsbD_castPfn _ _ (show i - 12 < 64 by omega), getLsbD_pteditGetPfn, position,
      structWidth, pfnWidth, narrow, wide, decide_true, decide_false, Bool.true_and,
      Bool.false_and] at bit
    exact bit.symm
  · intro zero
    apply BitVec.eq_of_getLsbD_eq
    intro i bound
    rw [getLsbD_castPfn _ _ bound, getLsbD_pteditGetPfn]
    simp only [structWidth, pfnWidth]
    by_cases narrow : i < 28
    · have wide : i < 40 := by omega
      simp [narrow, wide]
    · by_cases wide : i < 40
      · rw [zero (12 + i) (by omega) (by omega), Bool.and_false, Bool.and_false]
      · simp [narrow, wide]

/-- A view of the lowest bits of the field shows as much of a PFN that was set. -/
theorem toNat_pfnBits {arch : Arch} {width : Nat} (narrow : width ≤ pfnWidth arch) {view : Word}
    (bits : ∀ i, i < 64 → view.getLsbD i =
      (decide (i < width) && (pteditSetPfn arch entry pfn).getLsbD (12 + i))) :
    view.toNat = pfn.toNat % 2 ^ width := by
  have fits : pfnWidth arch ≤ 52 := by cases arch <;> decide
  have low : view = (pfn.setWidth width).setWidth 64 := by
    apply BitVec.eq_of_getLsbD_eq
    intro i bound
    rw [bits i bound, BitVec.getLsbD_setWidth, BitVec.getLsbD_setWidth]
    by_cases shown : i < width
    · have inside : 12 ≤ 12 + i ∧ 12 + i < 12 + pfnWidth arch := by omega
      rw [getLsbD_pteditSetPfn _ _ (by omega), if_pos inside, Nat.add_sub_cancel_left]
      simp [shown, bound]
    · simp [shown]
  rw [low, BitVec.toNat_setWidth, BitVec.toNat_setWidth]
  exact Nat.mod_eq_of_lt (lt_of_lt_of_le (Nat.mod_lt _ (Nat.two_pow_pos _))
    (Nat.pow_le_pow_right (by decide) (by omega)))

theorem castPfn_pteditSetPfn (arch : Arch) :
    (castPfn arch (pteditSetPfn arch entry pfn)).toNat = pfn.toNat % 2 ^ structWidth arch :=
  toNat_pfnBits entry pfn (by cases arch <;> decide) fun _ => getLsbD_castPfn _ arch

theorem pteditGetPfn_pteditSetPfn (arch : Arch) :
    (pteditGetPfn arch (pteditSetPfn arch entry pfn)).toNat = pfn.toNat % 2 ^ pfnWidth arch :=
  toNat_pfnBits entry pfn (le_refl _) fun i _ => getLsbD_pteditGetPfn _ i

end Views

/-- The two readings of the PFN agree: in every struct type, for the tables the walk and the
update go to from `entry`, and in the PTE at `slot` after its PFN was set to `pfn`. -/
structure PfnViewsAgree (arch : Arch) (entry pfn : Word) (mem : Mem) (slot : Word) : Prop where
  cast : ∀ level, (entryLayout arch level).castMember .pfn entry = pteditGetPfn arch entry
  walk : ∀ d addr level, walkSlot arch d addr level entry =
    pteditGetPfn arch entry * pfnMultiply + d.indexInt level addr * entrySize
  update : ∀ d addr level, updateSlot arch d addr level entry =
    pteditGetPfn arch entry * pfnMultiply + d.index level addr * entrySize
  set : (entryLayout arch .pte).castMember .pfn (read64 mem slot) = pfn

/-- **When the two readings of the PFN agree**: on aarch64 always; on x86-64 if bits 40 to 51
of the entry are zero and the PFN that is set has at most 28 bits. -/
theorem pfnViewsAgree_iff {P : Platform} {implementation : Implementation} {s s₁ s₂ : System}
    {address : Word} {pid : BitVec 32} {vm : Entry} {pfn slot : Word}
    (uses : Uses P implementation s) (resolved : pteditResolve P address pid s = some (vm, s₁))
    (valid : marks vm.valid .pte = true) (located : pteSlot P address pid s vm = some slot)
    (set : pteditPteSetPfn P address pid pfn s = some s₂)
    (fits : pfn.toNat < 2 ^ pfnWidth P.arch) (entry : Word) :
    PfnViewsAgree P.arch entry pfn s₂.kernel.mem slot ↔
      P.arch = .aarch64 ∨
        ((∀ i, 40 ≤ i → i < 52 → entry.getLsbD i = false) ∧ pfn.toNat < 2 ^ 28) := by
  have shown : ((entryLayout P.arch .pte).castMember .pfn (read64 s₂.kernel.mem slot)).toNat =
      pfn.toNat % 2 ^ structWidth P.arch := by
    rw [castMember_pfn, pteEdit_mem uses resolved valid set located, read64_write64_self,
      castPfn_pteditSetPfn]
  have agree : castPfn P.arch entry = pteditGetPfn P.arch entry →
      pfn.toNat < 2 ^ structWidth P.arch →
      PfnViewsAgree P.arch entry pfn s₂.kernel.mem slot := by
    intro same narrow
    refine ⟨?_, ?_, ?_, ?_⟩
    · intro level
      rw [castMember_pfn, same]
    · intro d addr level
      rw [walkSlot, same]
    · intro d addr level
      rw [updateSlot, same]
    · apply BitVec.eq_of_toNat_eq
      rw [shown, Nat.mod_eq_of_lt narrow]
  cases arch : P.arch with
  | aarch64 =>
      rw [arch] at agree fits
      exact iff_of_true (agree (castPfn_aarch64 entry) fits) (.inl rfl)
  | x86_64 =>
      rw [arch] at agree shown
      constructor
      · intro views
        refine .inr ⟨(castPfn_x86_64_iff entry).mp ?_, ?_⟩
        · exact (castMember_pfn .x86_64 .pgd entry).symm.trans (views.cast .pgd)
        · rw [views.set] at shown
          rw [shown]
          exact Nat.mod_lt _ (by decide)
      · rintro (other | ⟨zero, narrow⟩)
        · cases other
        · exact agree ((castPfn_x86_64_iff entry).mpr zero) narrow

/-- The PTE of the mapped page lies in frame 4. -/
theorem pteSlot_onePage :
    pteSlot fourLevelPlatform 0 0 X86Walk.onePageSystem onePageEntry = some 0x4000 := by
  decide +kernel

/-- The mapped page moved to frame 9. -/
theorem pfnViewsAgree_onePage :
    ∃ s₂, pteditPteSetPfn fourLevelPlatform 0 0 9 X86Walk.onePageSystem = some s₂ ∧
      PfnViewsAgree .x86_64 0x5007 9 s₂.kernel.mem 0x4000 := by
  obtain ⟨s₂, set, -⟩ := pteEdit_pread uses_onePage (fun pte => pteditSetPfn .x86_64 pte 9)
    resolve_onePage
  refine ⟨s₂, set, (pfnViewsAgree_iff uses_onePage resolve_onePage (by decide) pteSlot_onePage set
    (by decide) 0x5007).mpr (.inr ⟨?_, by decide⟩)⟩
  intro i low high
  revert i
  decide

/-- A page at 1 TiB: the struct shows PFN 0, in the entry and after setting it. -/
theorem not_pfnViewsAgree_high :
    (entryLayout .x86_64 .pte).castMember .pfn 0x10000000067 = 0 ∧
      pteditGetPfn .x86_64 0x10000000067 = 0x10000000 ∧
      ∃ s₂, pteditPteSetPfn fourLevelPlatform 0 0 0x10000000 X86Walk.onePageSystem = some s₂ ∧
        (entryLayout .x86_64 .pte).castMember .pfn (read64 s₂.kernel.mem 0x4000) = 0 ∧
        ¬ PfnViewsAgree .x86_64 0x10000000067 0x10000000 s₂.kernel.mem 0x4000 := by
  obtain ⟨s₂, set, -⟩ := pteEdit_pread uses_onePage
    (fun pte => pteditSetPfn .x86_64 pte 0x10000000) resolve_onePage
  have stored := pteEdit_mem uses_onePage resolve_onePage (by decide) set pteSlot_onePage
  refine ⟨by decide, by decide, s₂, set, ?_, ?_⟩
  · rw [stored, read64_write64_self]
    decide
  · intro views
    exact absurd (views.cast .pte) (by decide)

/-! ## The other bits of the PTE -/

/-- The word `new` is `old` with another PFN, the given one modulo the width of the field. -/
def ChangesOnlyPfn (arch : Arch) (old new pfn : Word) : Prop :=
  (∀ i, i < 64 → ¬ (12 ≤ i ∧ i < 12 + pfnWidth arch) → new.getLsbD i = old.getLsbD i) ∧
    (pteditGetPfn arch new).toNat = pfn.toNat % 2 ^ pfnWidth arch

section OtherBits

variable (arch : Arch) (old pfn : Word)

/-- A PFN adds its bits above the field to those of the entry. -/
theorem changesOnlyPfn_iff :
    ChangesOnlyPfn arch old (pteditSetPfn arch old pfn) pfn ↔
      ∀ i, 12 + pfnWidth arch ≤ i → i < 64 → pfn.getLsbD (i - 12) = true →
        old.getLsbD i = true := by
  rw [ChangesOnlyPfn, and_iff_left (pteditGetPfn_pteditSetPfn old pfn arch)]
  constructor
  · intro kept i above bound set
    have bit := kept i bound (by omega)
    have low : 12 ≤ i := by omega
    rw [getLsbD_pteditSetPfn _ _ bound, if_neg (by omega), set] at bit
    simpa [low] using bit.symm
  · intro already i bound outside
    rw [getLsbD_pteditSetPfn _ _ bound, if_neg outside]
    by_cases low : 12 ≤ i
    · by_cases set : pfn.getLsbD (i - 12) = true
      · rw [already i (by omega) bound set, Bool.true_or]
      · rw [Bool.not_eq_true] at set
        rw [set, Bool.and_false, Bool.or_false]
    · simp [low]

end OtherBits

/-- **When `ptedit_pte_set_pfn` changes the PFN only**: if every bit of the PFN that lies above
the field once it is shifted is set in the PTE already. -/
theorem pteSetPfn_changesOnlyPfn_iff {P : Platform} {s s₁ : System} {address : Word}
    {pid : BitVec 32} {vm : Entry} (uses : Uses P .user s)
    (resolved : pteditResolve P address pid s = some (vm, s₁))
    (valid : marks vm.valid .pte = true) (pfn : Word) :
    ∃ s₂, pteditPteSetPfn P address pid pfn s = some s₂ ∧
      (ChangesOnlyPfn P.arch (read64 s.kernel.mem (slotIn P address pid s vm .pte))
          (read64 s₂.kernel.mem (slotIn P address pid s vm .pte)) pfn ↔
        ∀ i, 12 + pfnWidth P.arch ≤ i → i < 64 → pfn.getLsbD (i - 12) = true →
          (read64 s.kernel.mem (slotIn P address pid s vm .pte)).getLsbD i = true) := by
  have word : vm.pte = read64 s.kernel.mem (slotIn P address pid s vm .pte) :=
    (resolvedIn_of_user uses (by decide) resolved).word_eq valid
  obtain ⟨s₂, edited, stored⟩ :=
    pteEdit_pread uses (fun pte => pteditSetPfn P.arch pte pfn) resolved
  refine ⟨s₂, edited, ?_⟩
  rw [stored, if_pos valid, read64_write64_self, word]
  exact changesOnlyPfn_iff P.arch _ pfn

/-- A PFN that fits. -/
theorem pteSetPfn_changesOnlyPfn_onePage :
    ∃ s₂, pteditPteSetPfn fourLevelPlatform 0 0 9 X86Walk.onePageSystem = some s₂ ∧
      ChangesOnlyPfn .x86_64
        (read64 X86Walk.onePageMem
          (slotIn fourLevelPlatform 0 0 X86Walk.onePageSystem onePageEntry .pte))
        (read64 s₂.kernel.mem
          (slotIn fourLevelPlatform 0 0 X86Walk.onePageSystem onePageEntry .pte)) 9 := by
  obtain ⟨s₂, set, exactly⟩ :=
    pteSetPfn_changesOnlyPfn_iff uses_onePage resolve_onePage (by decide) 9
  refine ⟨s₂, set, exactly.mpr ?_⟩
  have narrow : ∀ i, i < 64 → 52 ≤ i → (9 : Word).getLsbD (i - 12) = true → False := by decide
  intro i above bound bit
  exact absurd bit (narrow i bound above)

/-- PFN `2^51` makes the page execute-disabled. -/
theorem not_changesOnlyPfn_wide :
    ∃ s₂, pteditPteSetPfn fourLevelPlatform 0 0 0x8000000000000 X86Walk.onePageSystem = some s₂ ∧
      (read64 X86Walk.onePageMem 0x4000).getLsbD 63 = false ∧
      (read64 s₂.kernel.mem 0x4000).getLsbD 63 = true ∧
      ¬ ChangesOnlyPfn .x86_64 (read64 X86Walk.onePageMem 0x4000) (read64 s₂.kernel.mem 0x4000)
        0x8000000000000 := by
  obtain ⟨s₂, set, -⟩ := pteEdit_pread uses_onePage
    (fun pte => pteditSetPfn .x86_64 pte 0x8000000000000) resolve_onePage
  have stored := pteEdit_mem uses_onePage resolve_onePage (by decide) set pteSlot_onePage
  have before : (read64 X86Walk.onePageMem 0x4000).getLsbD 63 = false := by decide +kernel
  have after : (read64 s₂.kernel.mem 0x4000).getLsbD 63 = true := by
    rw [stored, read64_write64_self]
    decide
  refine ⟨s₂, set, before, after, ?_⟩
  rintro ⟨kept, -⟩
  have same := kept 63 (by decide) (by decide)
  rw [after, before] at same
  cases same

end PTEditor.Linux.PfnViews
