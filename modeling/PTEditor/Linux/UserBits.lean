/-
# PTEditor.Linux.UserBits -- the bit calls through `pread` and `pwrite`

`ptedit_set_bit` and `ptedit_clear_bit` send every valid level back, edited or not, and
the update writes them leaf first.  It has computed all slots before the first write, so
it does not matter that an edited entry may lead a walk elsewhere.

* `bitCall_changesOnly`: with the slots of the valid levels apart, the calls change the
  bit in the slots of the edited levels and no other byte;
* `bitCalls_agree_iff`: `ptedit_set_bit` with the PTE mask alone leaves the memory that
  `ptedit_pte_set_bit` leaves, exactly if no other level is written back over the bit.
  Where tables map themselves, the stale copy of the PMD, say, lands on the PTE after it.
-/
import PTEditor.Linux.Edits
import PTEditor.Linux.LevelBits

namespace PTEditor.Linux.UserBits

open PTEditor.Theory.ByteMemory PTEditor.Interface PTEditor.Module PTEditor.Library
open PTEditor.Library.Slots PTEditor.Library.WriteBack PTEditor.Linux.Edits
open PTEditor.Linux.LevelBits (BitOp edits editLevels_marks editLevels_word)

set_option autoImplicit false

/-! ## The general calls -/

/-- The level is selected, valid in the record, and part of the paging definition. -/
def Edited (d : PagingDefinition) (vm : Entry) (levels : Word) (level : Level) : Prop :=
  marks levels level = true ∧ marks vm.valid level = true ∧ d.has level = true

/-- The words in the slots of the edited levels are changed, and nothing else is. -/
structure ChangesOnly (slot : Level → Word) (edited : Level → Prop) (change : Word → Word)
    (before after : Mem) : Prop where
  changed : ∀ level, edited level → read64 after (slot level) = change (read64 before (slot level))
  kept : ∀ x, (∀ level, edited level → 8#64 ≤ x - slot level) → after x = before x

section General

variable {P : Platform} {s s₁ : System} {address : Word} {pid : BitVec 32} {vm : Entry}

theorem word_edited {d : PagingDefinition} (change : Word → Word) {levels : Word} {level : Level}
    (edited : Edited d vm levels level) :
    (editLevels d change levels vm).word level = change (vm.word level) := by
  obtain ⟨selected, marked, has⟩ := edited
  simp [editLevels_word, edits, selected, marked, has]

theorem word_unedited {d : PagingDefinition} (lowest : d.hasPt = true) (change : Word → Word)
    {levels : Word} {level : Level} (kept : ¬ Edited d vm levels level) :
    (editLevels d change levels vm).word level = vm.word level := by
  rw [editLevels_word, if_neg]
  intro edited
  simp only [edits, Bool.and_eq_true, Bool.or_eq_true, beq_iff_eq] at edited
  obtain ⟨marked, selected, pte | has⟩ := edited
  · subst pte
    exact kept ⟨selected, marked, lowest⟩
  · exact kept ⟨selected, marked, has⟩

/-- What is left in the slot of a valid level is the word that was sent. -/
theorem read64_levelsEdit (apart : WriteBack.SlotsApart P address pid s vm)
    (walked : ResolvedIn P address pid s vm) (change : Word → Word) (levels : Word) {level : Level}
    (marked : marks vm.valid level = true) :
    read64 (storeAll s.kernel.mem (storesIn P address pid s vm
        (editLevels s.lib.pagingDefinition change levels vm))) (slotIn P address pid s vm level) =
      (editLevels s.lib.pagingDefinition change levels vm).word level := by
  rw [read64_storesIn apart walked _ marked, if_pos]
  rw [editLevels_marks]
  exact marked

theorem levelsEdit_changesOnly (uses : Uses P .user s) (walked : ResolvedIn P address pid s vm)
    (apart : WriteBack.SlotsApart P address pid s vm) (change : Word → Word) (levels : Word) :
    ChangesOnly (slotIn P address pid s vm) (Edited s.lib.pagingDefinition vm levels) change
      s.kernel.mem (storeAll s.kernel.mem (storesIn P address pid s vm
        (editLevels s.lib.pagingDefinition change levels vm))) where
  changed level edited := by
    have old := walked.word_eq edited.2.1
    rw [read64_levelsEdit apart walked change levels edited.2.1, word_edited change edited, old]
    rfl
  kept x outside := by
    by_cases hit : ∃ level, marks vm.valid level = true ∧ x - slotIn P address pid s vm level < 8#64
    · obtain ⟨level, marked, inside⟩ := hit
      have kept : ¬ Edited s.lib.pagingDefinition vm levels level := by
        intro edited
        have beyond := outside level edited
        bv_omega
      apply byte_eq_of_read64_eq _ x inside
      rw [read64_levelsEdit apart walked change levels marked,
        word_unedited (hasPt_of_uses uses) change kept]
      exact walked.word_eq marked
    · apply storeAll_outside
      intro store member
      obtain ⟨level, selected, rfl⟩ := List.mem_map.mp member
      by_contra below
      exact hit ⟨level, (mem_written.mp selected).2, by bv_omega⟩

end General

/-- **The bit calls change what they name.**  Where the slots of the valid levels are
words of their own, the bit is set, or cleared, at every level that is selected, valid and
part of the paging definition, and no other byte of physical memory changes.  Without a
root, or a valid level, none does. -/
theorem bitCall_changesOnly {P : Platform} {s : System} (uses : Uses P .user s) (op : BitOp)
    (address : Word) (pid : BitVec 32) (bit : Fin 64) (levels : Word) :
    ∃ vm s₁ s', pteditResolve P address pid s = some (vm, s₁) ∧
      op.call P address pid bit levels s = some s' ∧
      (WriteBack.SlotsApart P address pid s vm →
        ChangesOnly (slotIn P address pid s vm) (Edited s.lib.pagingDefinition vm levels)
          (op.change bit) s.kernel.mem s'.kernel.mem) ∧
      ((walkRoot P pid s).1 &&& ~~~1#64 = 0 ∨ (∀ level, marks vm.valid level = false) →
        s'.kernel.mem = s.kernel.mem) := by
  obtain ⟨vm, s₁, resolved, -, walked⟩ := pteditResolve_pread uses address pid
  obtain ⟨s', called, stored⟩ := levelsEdit_pread uses (op.change bit) levels resolved
  refine ⟨vm, s₁, s', resolved, (op.call_eq address pid bit levels s).trans called, ?_, ?_⟩
  · intro apart
    rw [stored]
    exact levelsEdit_changesOnly uses walked apart (op.change bit) levels
  · intro nothing
    have unwritten : ∀ sent, written vm sent = [] := by
      intro sent
      rcases nothing with zero | unmarked
      · exact walked.written_nil sent (walkSlots_rootless _ _ _ _ zero)
      · exact written_unmarked unmarked sent
    rw [stored, storesIn, unwritten]
    rfl

/-- Bit 9 of the PMD and the PTE of the mapped page. -/
theorem bitCall_changesOnly_onePage :
    ∃ s', pteditSetBit fourLevelPlatform 0 0 9 0x18 X86Walk.onePageSystem = some s' ∧
      ChangesOnly (slotIn fourLevelPlatform 0 0 X86Walk.onePageSystem onePageEntry)
        (Edited .x86_64 onePageEntry 0x18) (BitOp.set.change 9) X86Walk.onePageMem
        s'.kernel.mem := by
  obtain ⟨vm, s₁, s', resolved, called, effect, -⟩ :=
    bitCall_changesOnly uses_onePage .set 0 0 9 0x18
  obtain ⟨rfl, -⟩ := Prod.mk.inj (Option.some_inj.mp (resolve_onePage.symm.trans resolved))
  exact ⟨s', called, effect slotsApart_onePage⟩

/-! ## The calls for the PTE alone -/

def pteCall (P : Platform) : BitOp → Word → BitVec 32 → Fin 64 → System → Option System
  | .set => pteditPteSetBit P
  | .clear => pteditPteClearBit P

/-- The byte that a bit of the word at `a` is in. -/
def byteOf (a : Word) (bit : Fin 64) : Word := a + BitVec.ofNat 64 (bit.val / 8)

/-- Changing a bit of a word changes the byte of the bit, unless it has the value already. -/
theorem extractLsb_change_eq_iff (op : BitOp) (bit : Fin 64) (w : Word) {k : Nat} (inside : k < 8) :
    (op.change bit w).extractLsb' (8 * k) 8 = w.extractLsb' (8 * k) 8 ↔
      k ≠ bit.val / 8 ∨ w.getLsbD bit.val = op.value := by
  constructor
  · intro same
    by_cases here : k = bit.val / 8
    · right
      have position : 8 * k + bit.val % 8 = bit.val := by omega
      have low : bit.val % 8 < 8 := by omega
      have bitSame := congrArg (BitVec.getLsbD · (bit.val % 8)) same
      simp only [BitVec.getLsbD_extractLsb', low, decide_true, Bool.true_and, position] at bitSame
      rw [← bitSame, op.getLsbD_change bit _ _ bit.isLt, if_pos rfl]
    · exact .inl here
  · intro harmless
    apply BitVec.eq_of_getLsbD_eq
    intro i bound
    have below : 8 * k + i < 64 := by omega
    simp only [BitVec.getLsbD_extractLsb', bound, decide_true, Bool.true_and]
    rw [op.getLsbD_change bit _ _ below]
    split
    · rename_i position
      rcases harmless with elsewhere | already
      · omega
      · rw [position, already]
    · rfl

theorem write64_change_eq_iff (op : BitOp) (bit : Fin 64) (m : Mem) (a x : Word) :
    write64 m a (op.change bit (read64 m a)) x = m x ↔
      x ≠ byteOf a bit ∨ (read64 m a).getLsbD bit.val = op.value := by
  have small : bit.val / 8 < 8 := by omega
  by_cases inside : x - a < 8#64
  · have offset : (x - a).toNat < 8 := by bv_omega
    have atByte : x = byteOf a bit ↔ (x - a).toNat = bit.val / 8 := by
      unfold byteOf
      constructor
      · intro here
        bv_omega
      · intro here
        bv_omega
    rw [byte_read64 m a x inside, write64, if_pos inside, ne_eq, atByte]
    exact extractLsb_change_eq_iff op bit (read64 m a) offset
  · have outside : x ≠ byteOf a bit := by
      unfold byteOf
      intro here
      bv_omega
    rw [write64, if_neg inside]
    exact ⟨fun _ => .inl outside, fun _ => rfl⟩

section Pte

variable {P : Platform} {s s₁ : System} {address : Word} {pid : BitVec 32} {vm : Entry}

theorem pteCall_eq (op : BitOp) (bit : Fin 64) :
    pteCall P op address pid bit s = pteEdit P (op.change bit) address pid s := by
  cases op with
  | set => rfl
  | clear => rfl

/-- With the PTE mask, every other level is sent as it was read. -/
theorem word_pteMask (walked : ResolvedIn P address pid s vm) (change : Word → Word) {level : Level}
    (notPte : level ≠ .pte) (marked : marks vm.valid level = true) :
    (editLevels s.lib.pagingDefinition change Level.pte.mask vm).word level =
      read64 s.kernel.mem (slotIn P address pid s vm level) := by
  rw [editLevels_word, edits, marks_mask, decide_eq_false notPte, Bool.false_and, Bool.and_false]
  exact walked.word_eq marked

/-- The PTE is written first, the other valid levels after it. -/
theorem written_valid {sent : Entry} (same : ∀ level, marks sent.valid level = marks vm.valid level)
    (valid : marks vm.valid .pte = true) :
    ∃ others, written vm sent = .pte :: others ∧
      ∀ level, level ∈ others ↔ level ≠ .pte ∧ marks vm.valid level = true := by
  refine ⟨[Level.pmd, .pud, .p4d, .pgd].filter fun level => marks vm.valid level, ?_, ?_⟩
  · simp only [written, same, Bool.and_self]
    rw [List.filter_cons, if_pos valid]
  · intro level
    rw [List.mem_filter]
    cases level <;> simp

/-- The general call leaves a byte as the call for the PTE does, unless another level is
written back over a byte that has changed. -/
theorem storesIn_pteMask_iff (walked : ResolvedIn P address pid s vm) (change : Word → Word)
    (valid : marks vm.valid .pte = true) (x : Word) :
    let alone := write64 s.kernel.mem (slotIn P address pid s vm .pte) (change vm.pte)
    storeAll s.kernel.mem (storesIn P address pid s vm
        (editLevels s.lib.pagingDefinition change Level.pte.mask vm)) x = alone x ↔
      ∀ level, level ≠ .pte → marks vm.valid level = true →
        x - slotIn P address pid s vm level < 8#64 → alone x = s.kernel.mem x := by
  intro alone
  obtain ⟨others, order, member⟩ := written_valid
    (editLevels_marks change Level.pte.mask s.lib.pagingDefinition vm) valid
  have edited : (editLevels s.lib.pagingDefinition change Level.pte.mask vm).word .pte =
      change vm.pte := by
    rw [editLevels_word, edits, valid, marks_mask]
    rfl
  have present : ∀ store ∈ others.map fun level => (slotIn P address pid s vm level,
        (editLevels s.lib.pagingDefinition change Level.pte.mask vm).word level),
      store.2 = read64 s.kernel.mem store.1 := by
    intro store inOthers
    obtain ⟨level, there, rfl⟩ := List.mem_map.mp inOthers
    obtain ⟨notPte, marked⟩ := (member level).mp there
    exact word_pteMask walked change notPte marked
  rw [storesIn, order, List.map_cons, storeAll_cons, edited,
    storeAll_restore s.kernel.mem alone _ present]
  split
  · rename_i restored
    obtain ⟨store, inOthers, inside⟩ := restored
    obtain ⟨level, there, rfl⟩ := List.mem_map.mp inOthers
    obtain ⟨notPte, marked⟩ := (member level).mp there
    exact ⟨fun same _ _ _ _ => same.symm, fun kept => (kept level notPte marked inside).symm⟩
  · rename_i missed
    refine iff_of_true rfl ?_
    intro level notPte marked inside
    exact absurd ⟨_, List.mem_map_of_mem ((member level).mpr ⟨notPte, marked⟩), inside⟩ missed

/-- Without a PTE the general call writes back what it has read. -/
theorem storesIn_pteMask_missing (walked : ResolvedIn P address pid s vm) (change : Word → Word)
    (missing : marks vm.valid .pte = false) :
    storeAll s.kernel.mem (storesIn P address pid s vm
      (editLevels s.lib.pagingDefinition change Level.pte.mask vm)) = s.kernel.mem := by
  apply storeAll_of_present
  intro store member
  obtain ⟨level, selected, rfl⟩ := List.mem_map.mp member
  have marked := (mem_written.mp selected).2
  apply word_pteMask walked change _ marked
  rintro rfl
  rw [missing] at marked
  cases marked

end Pte

/-- **When the two ways to change a bit of the PTE agree.**  `ptedit_set_bit` with the PTE
mask leaves the memory that `ptedit_pte_set_bit` leaves, and likewise for clearing, exactly
if there is no PTE to change, its bit has the value already, or the byte of the bit lies in
the slot of no other valid level. -/
theorem bitCalls_agree_iff {P : Platform} {s : System} (uses : Uses P .user s) (op : BitOp)
    (address : Word) (pid : BitVec 32) (bit : Fin 64) :
    ∃ vm s₁ general alone, pteditResolve P address pid s = some (vm, s₁) ∧
      op.call P address pid bit Level.pte.mask s = some general ∧
      pteCall P op address pid bit s = some alone ∧
      (general.kernel.mem = alone.kernel.mem ↔
        marks vm.valid .pte = false ∨ vm.pte.getLsbD bit.val = op.value ∨
          ∀ level, level ≠ .pte → marks vm.valid level = true →
            8#64 ≤ byteOf (slotIn P address pid s vm .pte) bit -
              slotIn P address pid s vm level) := by
  obtain ⟨vm, s₁, resolved, -, walked⟩ := pteditResolve_pread uses address pid
  obtain ⟨general, called, generalMem⟩ :=
    levelsEdit_pread uses (op.change bit) Level.pte.mask resolved
  obtain ⟨alone, calledAlone, aloneMem⟩ := pteEdit_pread uses (op.change bit) resolved
  refine ⟨vm, s₁, general, alone, resolved, (op.call_eq address pid bit _ s).trans called,
    (pteCall_eq op bit).trans calledAlone, ?_⟩
  rw [generalMem, aloneMem]
  by_cases valid : marks vm.valid .pte = true
  · have old : vm.pte = read64 s.kernel.mem (slotIn P address pid s vm .pte) :=
      walked.word_eq valid
    rw [if_pos valid, funext_iff, forall_congr' (storesIn_pteMask_iff walked (op.change bit) valid)]
    simp only [old, write64_change_eq_iff, valid, Bool.true_eq_false, false_or]
    constructor
    · intro agree
      by_contra disturbed
      push Not at disturbed
      obtain ⟨differs, level, notPte, marked, inside⟩ := disturbed
      rcases agree _ level notPte marked (BitVec.not_le.mp inside) with elsewhere | already
      · exact elsewhere rfl
      · exact differs already
    · intro undisturbed x level notPte marked inside
      rcases undisturbed with already | outside
      · exact .inr already
      · left
        rintro rfl
        exact absurd inside (BitVec.not_lt.mpr (outside level notPte marked))
  · rw [if_neg valid]
    rw [Bool.not_eq_true] at valid
    exact iff_of_true (storesIn_pteMask_missing walked (op.change bit) valid) (.inl valid)

/-- Bit 9 of the mapped page, whose tables are in four frames. -/
theorem bitCalls_agree_onePage :
    ∃ general alone,
      pteditSetBit fourLevelPlatform 0 0 9 Level.pte.mask X86Walk.onePageSystem = some general ∧
      pteditPteSetBit fourLevelPlatform 0 0 9 X86Walk.onePageSystem = some alone ∧
      general.kernel.mem = alone.kernel.mem := by
  obtain ⟨vm, s₁, general, alone, resolved, called, calledAlone, agree⟩ :=
    bitCalls_agree_iff uses_onePage .set 0 0 9
  obtain ⟨rfl, -⟩ := Prod.mk.inj (Option.some_inj.mp (resolve_onePage.symm.trans resolved))
  refine ⟨general, alone, called, calledAlone, agree.mpr (.inr (.inr ?_))⟩
  intro level
  cases level <;> decide +kernel

/-- A root table in frame 1 whose first entry is the frame of the table itself. -/
def selfMapSystem : System :=
  { X86Walk.onePageSystem with
    kernel := { X86Walk.onePageKernel with mem := storeAll (fun _ => 0) [(0x1000, 0x1007)] } }

/-- At address 0 all four levels are that entry.  Setting bit 9 of it as a PTE works with
`ptedit_pte_set_bit`; `ptedit_set_bit` puts the old word back as the PMD, the PUD and the
PGD. -/
theorem not_bitCalls_agree_selfMap :
    Uses fourLevelPlatform .user selfMapSystem ∧
      ∃ general alone,
        pteditSetBit fourLevelPlatform 0 0 9 Level.pte.mask selfMapSystem = some general ∧
        pteditPteSetBit fourLevelPlatform 0 0 9 selfMapSystem = some alone ∧
        read64 general.kernel.mem 0x1000 = 0x1007 ∧ read64 alone.kernel.mem 0x1000 = 0x1207 ∧
        general.kernel.mem ≠ alone.kernel.mem := by
  have lost : (pteditSetBit fourLevelPlatform 0 0 9 Level.pte.mask selfMapSystem).map
      (fun s => read64 s.kernel.mem 0x1000) = some 0x1007 := by
    decide +kernel
  have changed : (pteditPteSetBit fourLevelPlatform 0 0 9 selfMapSystem).map
      (fun s => read64 s.kernel.mem 0x1000) = some 0x1207 := by
    decide +kernel
  obtain ⟨general, called, word⟩ := Option.map_eq_some_iff.mp lost
  obtain ⟨alone, calledAlone, wordAlone⟩ := Option.map_eq_some_iff.mp changed
  refine ⟨⟨⟨rfl, rfl⟩, 4096, rfl⟩, general, alone, called, calledAlone, word, wordAlone, ?_⟩
  intro same
  rw [same, wordAlone] at word
  exact absurd word (by decide)

end PTEditor.Linux.UserBits
