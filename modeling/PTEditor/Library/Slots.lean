/-
# PTEditor.Library.Slots -- the slots of the user-space walk, for any paging definition

A walk whose reads all succeed is described by the slots of the levels it marks,
root first (`walkSlots`): the record it returns has the word of each of these slots
and the mask of their levels, and `ptedit_update_user_ext` computes the same slots
from the record again (`resolved_walk`), whichever levels the definition has.

The slots depend on the entries through their present, size and PFN fields only
(`Steers`), so a walk of another memory whose entries steer alike visits the same
slots (`walkSlots_steered`).
-/
import PTEditor.Library.System

namespace PTEditor.Library.Slots

open PTEditor.Theory.ByteMemory PTEditor.Interface PTEditor.Module PTEditor.Library

set_option autoImplicit false

/-! ## The walk, level by level -/

section Walk

variable (arch : Arch) (d : PagingDefinition) (read : Word → Word) (addr : Word)

/-- The marked slots below `parent`: of the levels listed, and of the PTE. -/
def slotsBelow : List Level → Word → List (Level × Word)
  | [], parent =>
      if stopsAtPmd arch parent then [] else [(.pte, walkSlot arch d addr .pte parent)]
  | level :: below, parent =>
      if d.has level then
        let slot := walkSlot arch d addr level parent
        (level, slot) :: if isPresent arch (read slot) then slotsBelow below (read slot) else []
      else if isPresent arch parent then slotsBelow below parent
      else []

def firstSlot (root : Word) : Word := root + d.index .pgd addr * entrySize

/-- The marked slots of a walk from `root`, the lowest bit of which is a flag. -/
def walkSlots (root : Word) : List (Level × Word) :=
  let root := root &&& ~~~1#64
  let slot := firstSlot d addr root
  if root = 0 then []
  else if isPresent arch (read slot) then
    (.pgd, slot) :: slotsBelow arch d read addr [.p4d, .pud, .pmd] (read slot)
  else []

/-- The levels below the PGD as the walk goes through them. -/
def walkBelow : List Level → Word → Entry → Option Entry
  | [], parent, resolved => walkPt arch d (fun a => some (read a)) addr parent resolved
  | level :: below, parent, resolved =>
      walkLevel arch d (fun a => some (read a)) addr level parent resolved (walkBelow below)

end Walk

def maskOf (slots : List (Level × Word)) : Word :=
  slots.foldr (fun s valid => s.1.mask ||| valid) 0

@[simp] theorem maskOf_nil : maskOf [] = 0 := rfl

@[simp] theorem maskOf_cons (s : Level × Word) (rest : List (Level × Word)) :
    maskOf (s :: rest) = s.1.mask ||| maskOf rest := rfl

theorem marks_maskOf (slots : List (Level × Word)) (level : Level) :
    marks (maskOf slots) level = true ↔ ∃ slot, (level, slot) ∈ slots := by
  induction slots with
  | nil => simp
  | cons s rest ih =>
      simp only [maskOf_cons, marks_or, marks_mask, Bool.or_eq_true, decide_eq_true_eq, ih,
        List.mem_cons]
      constructor
      · rintro (rfl | ⟨slot, member⟩)
        · exact ⟨s.2, .inl rfl⟩
        · exact ⟨slot, .inr member⟩
      · rintro ⟨slot, same | member⟩
        · exact .inl (congrArg Prod.fst same)
        · exact .inr ⟨slot, member⟩

/-! ## The record of a walk -/

section Record

variable {arch : Arch} {d : PagingDefinition} {read : Word → Word} {addr : Word}

/-- How a walk through `levels` and the PTE turns one record into another. -/
structure Walked (arch : Arch) (d : PagingDefinition) (read : Word → Word) (addr : Word)
    (levels : List Level) (slots : List (Level × Word)) (resolved current : Entry) : Prop where
  valid : current.valid = resolved.valid ||| maskOf slots
  kept : ∀ level, level ∉ levels → level ≠ .pte → current.word level = resolved.word level
  words : ∀ s ∈ slots, current.word s.1 = read s.2
  parents : ∀ s ∈ slots, s.2 = walkSlot arch d addr s.1 (current.word s.1.above)
  levels : ∀ s ∈ slots, s.1 ∈ levels ∧ d.has s.1 = true ∨ s.1 = .pte

theorem Walked.refl (levels : List Level) (resolved : Entry) :
    Walked arch d read addr levels [] resolved resolved :=
  ⟨by simp, fun _ _ _ => rfl, by simp, by simp, by simp⟩

/-- The PTE, below a record that has the PMD entry. -/
theorem walkPt_walked {parent : Word} {resolved : Entry} (above : resolved.pmd = parent) :
    ∃ current, walkBelow arch d read addr [] parent resolved = some current ∧
      Walked arch d read addr [] (slotsBelow arch d read addr [] parent) resolved current := by
  simp only [walkBelow, walkPt, slotsBelow]
  by_cases stops : stopsAtPmd arch parent = true
  · simp only [stops, if_true]
    exact ⟨resolved, rfl, Walked.refl [] resolved⟩
  · simp only [stops, Bool.false_eq_true, if_false, Option.map_some]
    refine ⟨_, rfl, ?_, ?_, ?_, ?_, ?_⟩
    · simp
    · intro level _ notPte
      simp [notPte]
    · simp
    · rw [← above]
      simp [Level.above, Entry.mark, Entry.setWord, Entry.word]
    · simp

/-- The walk goes on below a present entry and ends at another. -/
theorem goesOn_walked {below : List Level} {entry : Word} {resolved : Entry}
    (next : ∃ current, walkBelow arch d read addr below entry resolved = some current ∧
      Walked arch d read addr below (slotsBelow arch d read addr below entry) resolved current) :
    ∃ current, (if isPresent arch entry then walkBelow arch d read addr below entry resolved
        else some resolved) = some current ∧
      Walked arch d read addr below
        (if isPresent arch entry then slotsBelow arch d read addr below entry else [])
        resolved current := by
  by_cases present : isPresent arch entry = true
  · simp only [present, if_true]
    exact next
  · simp only [present, Bool.false_eq_true, if_false]
    exact ⟨resolved, rfl, Walked.refl below resolved⟩

/-- `level` comes before the levels of `below`, and the one above it before both. -/
def OnTop (level : Level) (below : List Level) : Prop :=
  (level ∉ below ∧ level ≠ .pte) ∧ level.above ≠ level ∧ level.above ∉ below ∧ level.above ≠ .pte

instance (level : Level) (below : List Level) : Decidable (OnTop level below) :=
  inferInstanceAs (Decidable (_ ∧ _))

section Cons

variable {level : Level} {below : List Level} {slots : List (Level × Word)}
  {resolved current : Entry} {entry : Word}

/-- A walk that started with another word in `level` keeps what is above. -/
theorem Walked.kept_above {start : Entry} (spec : Walked arch d read addr below slots start current)
    (same : ∀ other, other ≠ level → start.word other = resolved.word other) :
    ∀ other, other ∉ level :: below → other ≠ .pte → current.word other = resolved.word other := by
  intro other outside notPte
  rw [List.mem_cons, not_or] at outside
  rw [spec.kept other outside.2 notPte, same other outside.1]

/-- A level the definition has: its slot comes first. -/
theorem Walked.cons_read (has : d.has level = true) (top : OnTop level below) {slot : Word}
    (slotEq : slot = walkSlot arch d addr level (resolved.word level.above))
    (spec : Walked arch d read addr below slots
      ((resolved.mark level).setWord level (read slot)) current) :
    Walked arch d read addr (level :: below) ((level, slot) :: slots) resolved current := by
  obtain ⟨⟨once, notPte⟩, aboveNe, aboveOnce, aboveNotPte⟩ := top
  have parentKept : current.word level.above = resolved.word level.above := by
    rw [spec.kept level.above aboveOnce aboveNotPte]
    simp [aboveNe]
  refine ⟨?_, ?_, ?_, ?_, ?_⟩
  · rw [spec.valid]
    simp [BitVec.or_assoc]
  · apply spec.kept_above
    intro other different
    simp [different]
  · intro s member
    rcases List.mem_cons.mp member with rfl | later
    · rw [spec.kept level once notPte]
      simp
    · exact spec.words s later
  · intro s member
    rcases List.mem_cons.mp member with rfl | later
    · rw [parentKept]
      exact slotEq
    · exact spec.parents s later
  · intro s member
    rcases List.mem_cons.mp member with rfl | later
    · exact .inl ⟨List.mem_cons_self, has⟩
    · exact (spec.levels s later).imp_left fun inside => ⟨.tail _ inside.1, inside.2⟩

/-- A level it does not have: the parent's entry is carried on. -/
theorem Walked.cons_copy
    (spec : Walked arch d read addr below slots (resolved.setWord level entry) current) :
    Walked arch d read addr (level :: below) slots resolved current := by
  refine ⟨?_, ?_, spec.words, spec.parents, ?_⟩
  · rw [spec.valid]
    simp
  · apply spec.kept_above
    intro other different
    simp [different]
  · intro s member
    exact (spec.levels s member).imp_left fun inside => ⟨.tail _ inside.1, inside.2⟩

end Cons

/-- One more level on top, below a record that has the entry above it. -/
theorem walkLevel_walked {level : Level} {below : List Level} {parent : Word} {resolved : Entry}
    (top : OnTop level below) (above : resolved.word level.above = parent)
    (next : ∀ entry (r : Entry), r.word level = entry →
      ∃ current, walkBelow arch d read addr below entry r = some current ∧
        Walked arch d read addr below (slotsBelow arch d read addr below entry) r current) :
    ∃ current, walkBelow arch d read addr (level :: below) parent resolved = some current ∧
      Walked arch d read addr (level :: below)
        (slotsBelow arch d read addr (level :: below) parent) resolved current := by
  simp only [walkBelow, walkLevel, slotsBelow]
  cases has : d.has level with
  | true =>
      simp only [if_true, Option.map_some, Option.bind_some]
      obtain ⟨current, walked, spec⟩ := goesOn_walked
        (next (read (walkSlot arch d addr level parent))
          ((resolved.mark level).setWord level (read (walkSlot arch d addr level parent)))
          (by simp))
      exact ⟨current, walked, spec.cons_read has top (by rw [above])⟩
  | false =>
      simp only [Bool.false_eq_true, if_false, Option.bind_some]
      obtain ⟨current, walked, spec⟩ := goesOn_walked
        (next parent (resolved.setWord level parent) (by simp))
      exact ⟨current, walked, spec.cons_copy⟩

/-- The levels below the PGD. -/
theorem walkBelow_walked (arch : Arch) (d : PagingDefinition) (read : Word → Word) (addr : Word)
    {pgdEntry : Word} {resolved : Entry} (above : resolved.pgd = pgdEntry) :
    ∃ current,
      walkBelow arch d read addr [.p4d, .pud, .pmd] pgdEntry resolved = some current ∧
      Walked arch d read addr [.p4d, .pud, .pmd]
        (slotsBelow arch d read addr [.p4d, .pud, .pmd] pgdEntry) resolved current := by
  refine walkLevel_walked (by decide) above ?_
  intro p4dEntry r₁ atP4d
  refine walkLevel_walked (by decide) atP4d ?_
  intro pudEntry r₂ atPud
  refine walkLevel_walked (by decide) atPud ?_
  intro pmdEntry r₃ atPmd
  exact walkPt_walked atPmd

end Record

/-! ## Update and walk -/

theorem walkSlots_rootless (arch : Arch) (d : PagingDefinition) (read : Word → Word) (addr : Word)
    {root : Word} (zero : root &&& ~~~1#64 = 0) : walkSlots arch d read addr root = [] := by
  simp only [walkSlots, zero, if_true]

/-- A walk that marks anything marks the slot of the root table. -/
theorem walkSlots_first (arch : Arch) (d : PagingDefinition) (read : Word → Word)
    (addr root : Word) :
    walkSlots arch d read addr root = [] ∨
      (.pgd, firstSlot d addr (root &&& ~~~1#64)) ∈ walkSlots arch d read addr root := by
  simp only [walkSlots]
  split
  · exact .inl rfl
  · split
    · exact .inr List.mem_cons_self
    · exact .inl rfl

/-- What the definitions of `ptedit_init` have in common: there is a PGD, and an
index fits into an `int`. -/
structure Regular (d : PagingDefinition) : Prop where
  hasPgd : d.hasPgd = true
  narrow : ∀ level, d.entries level < 32

theorem regular_x86_64 : Regular .x86_64 := ⟨rfl, fun level => by cases level <;> decide⟩

theorem regular_aarch64Pages16k : Regular .aarch64Pages16k :=
  ⟨rfl, fun level => by cases level <;> decide⟩

theorem regular_aarch64Pages4k : Regular .aarch64Pages4k :=
  ⟨rfl, fun level => by cases level <;> decide⟩

theorem initDefinition_regular (P : Platform) (realPageSize : Word) :
    Regular (initDefinition P realPageSize) := by
  simp only [initDefinition]
  cases P.arch with
  | x86_64 => exact regular_x86_64
  | aarch64 =>
      simp only
      split
      · exact regular_aarch64Pages16k
      · exact regular_aarch64Pages4k

/-- Every definition has the two lowest levels. -/
theorem initDefinition_lowest (P : Platform) (realPageSize : Word) :
    (initDefinition P realPageSize).hasPmd = true ∧
      (initDefinition P realPageSize).hasPt = true := by
  simp only [initDefinition]
  cases P.arch with
  | x86_64 => exact ⟨rfl, rfl⟩
  | aarch64 =>
      simp only
      split
      · exact ⟨rfl, rfl⟩
      · exact ⟨rfl, rfl⟩

/-- The slot `ptedit_update_user_ext` computes for a level of the record. -/
def slotOf (arch : Arch) (d : PagingDefinition) (addr root : Word) (current : Entry) :
    Level → Word
  | .pgd => firstSlot d addr root
  | level => updateSlot arch d addr level (current.word level.above)

theorem updateSlot_aligned (arch : Arch) (d : PagingDefinition) (addr : Word) (level : Level)
    (parent : Word) : Aligned (updateSlot arch d addr level parent) := by
  simp only [Aligned, updateSlot, pfnMultiply, entrySize, BitVec.toNat_add, BitVec.toNat_mul]
  simp only [BitVec.toNat_ofNat]
  omega

/-- In the tables of an aligned root every slot is aligned. -/
theorem slotOf_aligned (arch : Arch) (d : PagingDefinition) (addr : Word) {root : Word}
    (aligned : Aligned root) (current : Entry) (level : Level) :
    Aligned (slotOf arch d addr root current level) := by
  cases level with
  | pgd =>
      simp only [Aligned] at aligned
      simp only [Aligned, slotOf, firstSlot, entrySize, BitVec.toNat_add, BitVec.toNat_mul]
      simp only [BitVec.toNat_ofNat]
      omega
  | p4d | pud | pmd | pte => exact updateSlot_aligned arch d addr _ _

/-- What the record of a walk says about the slots of the walk. -/
structure Resolved (arch : Arch) (d : PagingDefinition) (read : Word → Word) (addr root : Word)
    (current : Entry) : Prop where
  valid : current.valid = maskOf (walkSlots arch d read addr root)
  words : ∀ s ∈ walkSlots arch d read addr root, current.word s.1 = read s.2
  slots : ∀ s ∈ walkSlots arch d read addr root,
    s.2 = slotOf arch d addr (root &&& ~~~1#64) current s.1
  has : ∀ s ∈ walkSlots arch d read addr root, d.has s.1 = true ∨ s.1 = .pte

section Update

variable {arch : Arch} {d : PagingDefinition} {read : Word → Word} {addr root : Word}

theorem walkSlot_eq_updateSlot (regular : Regular d) (level : Level) (parent : Word) :
    walkSlot arch d addr level parent = updateSlot arch d addr level parent := by
  simp only [walkSlot, updateSlot, d.indexInt_eq level addr (regular.narrow level)]

theorem Resolved.of_empty {current : Entry} (empty : walkSlots arch d read addr root = [])
    (unmarked : current.valid = 0) : Resolved arch d read addr root current := by
  refine ⟨?_, ?_, ?_, ?_⟩ <;> rw [empty]
  · exact unmarked
  · simp
  · simp
  · simp

/-- The record after the root table's entry has been read. -/
def startedEntry (addr pid pgdEntry : Word) : Entry :=
  ((Entry.zeroed addr pid).setWord .pgd pgdEntry).mark .pgd

/-- The slot of the root table on top of those below it. -/
theorem Walked.resolved (regular : Regular d) {pid pgdEntry : Word} {below : List (Level × Word)}
    {current : Entry} (entry : pgdEntry = read (firstSlot d addr (root &&& ~~~1#64)))
    (slots : walkSlots arch d read addr root =
      (.pgd, firstSlot d addr (root &&& ~~~1#64)) :: below)
    (spec : Walked arch d read addr [.p4d, .pud, .pmd] below (startedEntry addr pid pgdEntry)
      current) : Resolved arch d read addr root current := by
  refine ⟨?_, ?_, ?_, ?_⟩ <;> rw [slots]
  · rw [spec.valid]
    simp [startedEntry]
  · intro s member
    rcases List.mem_cons.mp member with rfl | later
    · rw [spec.kept .pgd (by decide) (by decide), ← entry]
      rfl
    · exact spec.words s later
  · intro s member
    rcases List.mem_cons.mp member with rfl | later
    · rfl
    · obtain ⟨level, slot⟩ := s
      have parent := spec.parents _ later
      rw [walkSlot_eq_updateSlot regular] at parent
      cases level with
      | pgd => rcases spec.levels _ later with ⟨inside, -⟩ | pte <;> contradiction
      | p4d | pud | pmd | pte => exact parent
  · intro s member
    rcases List.mem_cons.mp member with rfl | later
    · exact .inl regular.hasPgd
    · exact (spec.levels s later).imp_left And.right

/-- **The walk and its slots.**  A walk whose reads succeed returns the words of its
slots, and an update finds the slots again. -/
theorem resolved_walk (arch : Arch) (regular : Regular d) (read : Word → Word) (addr root : Word)
    (pid : BitVec 32) :
    ∃ current, resolveUserExt arch d (fun a => some (read a)) addr root pid = some current ∧
      Resolved arch d read addr root current := by
  simp only [resolveUserExt, d.indexInt_eq .pgd addr (regular.narrow .pgd), Option.bind_some]
  by_cases zero : root &&& ~~~1#64 = 0
  · rw [if_pos zero]
    exact ⟨_, rfl, Resolved.of_empty (walkSlots_rootless arch d read addr zero) rfl⟩
  rw [if_neg zero]
  by_cases present : isPresent arch (read (firstSlot d addr (root &&& ~~~1#64))) = true
  · have start : (startedEntry addr (pid.signExtend 64)
        (read (firstSlot d addr (root &&& ~~~1#64)))).pgd =
          read (firstSlot d addr (root &&& ~~~1#64)) := rfl
    obtain ⟨current, walked, spec⟩ := walkBelow_walked arch d read addr start
    refine ⟨current, (if_pos present).trans walked, spec.resolved regular rfl ?_⟩
    simp only [walkSlots, zero, present, if_true, if_false]
  · have slots : walkSlots arch d read addr root = [] := by
      simp only [walkSlots, zero, present, Bool.false_eq_true, if_false]
    exact ⟨_, if_neg present, Resolved.of_empty slots rfl⟩

section Stores

variable {current : Entry}

/-- The marked levels are those of the slots. -/
theorem Resolved.mem_of_marked (resolved : Resolved arch d read addr root current) {level : Level}
    (marked : marks current.valid level = true) :
    (level, slotOf arch d addr (root &&& ~~~1#64) current level) ∈
      walkSlots arch d read addr root := by
  rw [resolved.valid] at marked
  obtain ⟨slot, member⟩ := (marks_maskOf _ level).mp marked
  rwa [← resolved.slots _ member]

theorem Resolved.word_eq (resolved : Resolved arch d read addr root current) {level : Level}
    (marked : marks current.valid level = true) :
    current.word level = read (slotOf arch d addr (root &&& ~~~1#64) current level) :=
  resolved.words _ (resolved.mem_of_marked marked)

/-- A guarded store of a level the definition has wherever the record has it. -/
theorem guardedStore_existing (vm : Entry) {level : Level} {has : Bool} (slot : Word)
    (existing : marks current.valid level = true → has = true) :
    guardedStore vm current level has slot =
      if marks vm.valid level && marks current.valid level then [(slot, vm.word level)]
      else [] := by
  by_cases marked : marks current.valid level = true
  · rw [existing marked, guardedStore_marked vm slot marked, marked, Bool.and_true]
  · rw [Bool.not_eq_true] at marked
    rw [guardedStore_unmarked vm has slot marked, marked, Bool.and_false]
    rfl

/-- The levels an update with `vm` writes, in its order. -/
def written (current vm : Entry) : List Level :=
  [Level.pte, .pmd, .pud, .p4d, .pgd].filter fun level =>
    marks vm.valid level && marks current.valid level

theorem mem_written {vm : Entry} {level : Level} :
    level ∈ written current vm ↔
      marks vm.valid level = true ∧ marks current.valid level = true := by
  simp only [written, List.mem_filter, Bool.and_eq_true, and_iff_right_iff_imp]
  intro _
  cases level <;> decide

theorem written_nodup (current vm : Entry) : (written current vm).Nodup :=
  List.Pairwise.filter _ (by decide)

theorem written_unmarked (unmarked : ∀ level, marks current.valid level = false) (vm : Entry) :
    written current vm = [] := by
  rw [List.eq_nil_iff_forall_not_mem]
  intro level selected
  have marked := (mem_written.mp selected).2
  rw [unmarked level] at marked
  cases marked

/-- Where the walk has no slots there is nothing to write. -/
theorem Resolved.written_nil (resolved : Resolved arch d read addr root current) (vm : Entry)
    (empty : walkSlots arch d read addr root = []) : written current vm = [] := by
  apply written_unmarked
  intro level
  rw [resolved.valid, empty]
  simp

/-- The stores of an update, level by level. -/
theorem Resolved.userStores_eq (resolved : Resolved arch d read addr root current) (vm : Entry) :
    userStores arch d addr (root &&& ~~~1#64) current vm =
      (written current vm).map fun level =>
        (slotOf arch d addr (root &&& ~~~1#64) current level, vm.word level) := by
  have has : ∀ level, marks current.valid level = true → level ≠ .pte → d.has level = true :=
    fun level marked notPte => (resolved.has _ (resolved.mem_of_marked marked)).resolve_right notPte
  have cons : ∀ (chosen : Bool) (s : Word × Word) (rest : List (Word × Word)),
      (if chosen then [s] else []) ++ rest = if chosen then s :: rest else rest := by
    intro chosen s rest
    cases chosen <;> rfl
  simp only [userStores]
  have hasPmd : marks current.valid .pmd = true → d.hasPmd = true := fun m => has .pmd m (by decide)
  have hasPud : marks current.valid .pud = true → d.hasPud = true := fun m => has .pud m (by decide)
  have hasP4d : marks current.valid .p4d = true → d.hasP4d = true := fun m => has .p4d m (by decide)
  have hasPgd : marks current.valid .pgd = true → d.hasPgd = true := fun m => has .pgd m (by decide)
  have hasPte : marks current.valid .pte = true → true = true := fun _ => rfl
  rw [guardedStore_existing vm _ hasPte, guardedStore_existing vm _ hasPmd,
    guardedStore_existing vm _ hasPud, guardedStore_existing vm _ hasP4d,
    guardedStore_existing vm _ hasPgd]
  simp only [written, cons, List.filter_cons, List.filter_nil, apply_ite (List.map _),
    List.map_cons, List.map_nil]
  rfl

end Stores

end Update

/-! ## Entries that steer alike -/

/-- `new` sends a walk the way `old` does. -/
structure Steers (arch : Arch) (old new : Word) : Prop where
  present : isPresent arch new = isPresent arch old
  pfn : castPfn arch new = castPfn arch old
  size : arch = .x86_64 → castSize new = castSize old

section Steered

variable {arch : Arch} {d : PagingDefinition} {read read' : Word → Word} {addr : Word}

theorem Steers.refl (arch : Arch) (entry : Word) : Steers arch entry entry :=
  ⟨rfl, rfl, fun _ => rfl⟩

theorem Steers.walkSlot_eq {old new : Word} (steers : Steers arch old new) (level : Level) :
    walkSlot arch d addr level new = walkSlot arch d addr level old := by
  rw [walkSlot, walkSlot, steers.pfn]

theorem Steers.stopsAtPmd_eq {old new : Word} (steers : Steers arch old new) :
    stopsAtPmd arch new = stopsAtPmd arch old := by
  cases arch with
  | x86_64 =>
      show (castSize new != 0) = (castSize old != 0)
      rw [steers.size rfl]
  | aarch64 => rfl

/-- Below parents that steer alike, a walk visits the same slots. -/
theorem slotsBelow_steered (levels : List Level) (upper : .pte ∉ levels) {parent parent' : Word}
    (steers : Steers arch parent parent')
    (alike : ∀ s ∈ slotsBelow arch d read addr levels parent, s.1 ≠ .pte →
      Steers arch (read s.2) (read' s.2)) :
    slotsBelow arch d read' addr levels parent' = slotsBelow arch d read addr levels parent := by
  induction levels generalizing parent parent' with
  | nil => simp only [slotsBelow, steers.stopsAtPmd_eq, steers.walkSlot_eq]
  | cons level below ih =>
      rw [List.mem_cons, not_or] at upper
      simp only [slotsBelow] at alike ⊢
      cases has : d.has level with
      | true =>
          simp only [has, if_true] at alike ⊢
          have slotSteers := alike _ List.mem_cons_self (Ne.symm upper.1)
          rw [steers.walkSlot_eq, slotSteers.present]
          by_cases present : isPresent arch (read (walkSlot arch d addr level parent)) = true
          · simp only [present, if_true] at alike ⊢
            rw [ih upper.2 slotSteers fun s later => alike s (List.mem_cons_of_mem _ later)]
          · simp only [present, Bool.false_eq_true, if_false]
      | false =>
          simp only [has, Bool.false_eq_true, if_false] at alike ⊢
          rw [steers.present]
          by_cases present : isPresent arch parent = true
          · simp only [present, if_true] at alike ⊢
            exact ih upper.2 steers alike
          · simp only [present, Bool.false_eq_true, if_false]

/-- **A walk is steered by its entries.**  Where the entries of its slots steer alike,
PTE apart, a walk of another memory visits the same slots. -/
theorem walkSlots_steered {root : Word}
    (first : Steers arch (read (firstSlot d addr (root &&& ~~~1#64)))
      (read' (firstSlot d addr (root &&& ~~~1#64))))
    (alike : ∀ s ∈ walkSlots arch d read addr root, s.1 ≠ .pte →
      Steers arch (read s.2) (read' s.2)) :
    walkSlots arch d read' addr root = walkSlots arch d read addr root := by
  simp only [walkSlots] at alike ⊢
  by_cases zero : root &&& ~~~1#64 = 0
  · simp only [zero, if_true]
  simp only [zero, if_false, first.present] at alike ⊢
  by_cases present : isPresent arch (read (firstSlot d addr (root &&& ~~~1#64))) = true
  · simp only [present, if_true] at alike ⊢
    have below := slotsBelow_steered [.p4d, .pud, .pmd] (by decide) first
      fun s later => alike s (List.mem_cons_of_mem _ later)
    rw [below]
  · simp only [present, Bool.false_eq_true, if_false]

end Steered

end PTEditor.Library.Slots
