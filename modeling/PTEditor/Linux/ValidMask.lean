/-
# PTEditor.Linux.ValidMask -- what the record of the user-space walk says

A walk follows the levels its paging definition has: the slot of a level lies in the
table that the entry of the nearest existing level above names (`pathSlot`).  The
entry that stands at a level is the word in its own slot, or, at a level the
definition folds away, the word of that nearest level (`pathEntry`).

`resolveUserExt_record` is the record of a walk level by level: a field holds the
entry that stands at its level if the walk got there (`Arrives`) and zero otherwise,
and the mask has the existing levels among those.  `valid_mask_exact` spells this out
for the definitions of `ptedit_init`, with the words the walk reads.
-/
import PTEditor.Linux.MappedWalk
import PTEditor.Library.Slots

namespace PTEditor.Linux.ValidMask

open PTEditor.Theory.ByteMemory PTEditor.Interface PTEditor.Module
open PTEditor.Library PTEditor.Library.Slots PTEditor.Linux.MappedWalk

set_option autoImplicit false

/-! ## The path of an address -/

/-- The levels above a level, nearest first. -/
def levelsAbove : Level → List Level
  | .pgd => []
  | .p4d => [.pgd]
  | .pud => [.p4d, .pgd]
  | .pmd => [.pud, .p4d, .pgd]
  | .pte => [.pmd, .pud, .p4d, .pgd]

theorem levelsAbove_eq {level : Level} (below : level ≠ .pgd) :
    levelsAbove level = level.above :: levelsAbove level.above := by
  cases level with
  | pgd => contradiction
  | p4d | pud | pmd | pte => rfl

section Path

variable (arch : Arch) (d : PagingDefinition) (read : Word → Word) (addr root : Word)

/-- The slot of the first of a chain of levels, each in the table the next one's entry
names; the last is the root table's. -/
def chainSlot : List Level → Word
  | [] => root
  | [level] => root + d.index level addr * entrySize
  | level :: next :: rest =>
      castPfn arch (read (chainSlot (next :: rest))) * pfnMultiply + d.index level addr * entrySize

def existingAbove (level : Level) : List Level := (levelsAbove level).filter d.has

/-- The slot of a level: in the table of the nearest existing level above. -/
def pathSlot (level : Level) : Word :=
  chainSlot arch d read addr root (level :: existingAbove d level)

/-- The entry that stands at a level: its own, or that of the nearest existing level above. -/
def pathEntry (level : Level) : Word :=
  read (chainSlot arch d read addr root ((level :: levelsAbove level).filter d.has))

section Equations

variable {d} (hasPgd : d.hasPgd = true)

include hasPgd

theorem existingAbove_ne_nil {level : Level} (below : level ≠ .pgd) :
    existingAbove d level ≠ [] := by
  have member : Level.pgd ∈ existingAbove d level := by
    refine List.mem_filter.mpr ⟨?_, hasPgd⟩
    cases level with
    | pgd => contradiction
    | p4d | pud | pmd | pte => decide
  exact List.ne_nil_of_mem member

theorem pathSlot_below {level : Level} (below : level ≠ .pgd) :
    pathSlot arch d read addr root level =
      updateSlot arch d addr level (pathEntry arch d read addr root level.above) := by
  have above : existingAbove d level = (level.above :: levelsAbove level.above).filter d.has := by
    rw [existingAbove, levelsAbove_eq below]
  have nonempty := existingAbove_ne_nil hasPgd below
  rw [above] at nonempty
  rw [pathSlot, above, pathEntry, updateSlot]
  obtain ⟨next, rest, chain⟩ := List.exists_cons_of_ne_nil nonempty
  rw [chain, chainSlot]

theorem pathEntry_pgd :
    pathEntry arch d read addr root .pgd = read (firstSlot d addr root) := by
  have chain : (Level.pgd :: levelsAbove .pgd).filter d.has = [.pgd] := by
    simp [levelsAbove, PagingDefinition.has, hasPgd]
  rw [pathEntry, chain, chainSlot, firstSlot]

theorem pathEntry_below {level : Level} (below : level ≠ .pgd) :
    pathEntry arch d read addr root level =
      if d.has level then
        read (updateSlot arch d addr level (pathEntry arch d read addr root level.above))
      else pathEntry arch d read addr root level.above := by
  by_cases has : d.has level = true
  · rw [if_pos has, ← pathSlot_below arch read addr root hasPgd below, pathEntry,
      List.filter_cons_of_pos has]
    rfl
  · rw [if_neg has, pathEntry, List.filter_cons_of_neg has, levelsAbove_eq below]
    rfl

end Equations

/-- At an existing level stands the word in its slot. -/
theorem pathEntry_existing {level : Level} (has : d.has level = true) :
    pathEntry arch d read addr root level = read (pathSlot arch d read addr root level) := by
  rw [pathEntry, List.filter_cons_of_pos has]
  rfl

end Path

/-! ## The record -/

/-- Put the entry of a level into a record, and mark the level if the definition has it. -/
def fill (d : PagingDefinition) (level : Level) (entry : Word) (resolved : Entry) : Entry :=
  (if d.has level then resolved.mark level else resolved).setWord level entry

@[simp] theorem fill_word (d : PagingDefinition) (level other : Level) (entry : Word)
    (resolved : Entry) :
    (fill d level entry resolved).word other = if other = level then entry else resolved.word other := by
  cases has : d.has level <;> simp [fill, has]

@[simp] theorem fill_marks (d : PagingDefinition) (level other : Level) (entry : Word)
    (resolved : Entry) :
    marks (fill d level entry resolved).valid other =
      (marks resolved.valid other || (d.has level && decide (other = level))) := by
  cases has : d.has level <;> simp [fill, has]

section Record

variable (arch : Arch) (d : PagingDefinition) (read : Word → Word) (addr root : Word)

/-- The entries above the level are present. -/
def reached (level : Level) : Bool :=
  (levelsAbove level).all fun above => isPresent arch (pathEntry arch d read addr root above)

/-- The walk gets to the level and fills its field; it leaves the PGD field alone if the
entry is not present. -/
def arrives : Level → Bool
  | .pgd => isPresent arch (pathEntry arch d read addr root .pgd)
  | .pte =>
      reached arch d read addr root .pte &&
        !stopsAtPmd arch (pathEntry arch d read addr root .pmd)
  | level => reached arch d read addr root level

/-- Fields and mask of a record, level by level. -/
def Recorded (current : Entry) : Prop :=
  ∀ level,
    current.word level =
      (if arrives arch d read addr root level then pathEntry arch d read addr root level else 0) ∧
    marks current.valid level = (d.has level && arrives arch d read addr root level)

variable {d}

/-- One level of the walk, on the path. -/
theorem walkLevel_path (regular : Regular d) {level : Level} (below : level ≠ .pgd)
    (resolved : Entry) (next : Word → Entry → Option Entry) :
    walkLevel arch d (fun a => some (read a)) addr level
        (pathEntry arch d read addr root level.above) resolved next =
      if isPresent arch (pathEntry arch d read addr root level) then
        next (pathEntry arch d read addr root level)
          (fill d level (pathEntry arch d read addr root level) resolved)
      else some (fill d level (pathEntry arch d read addr root level) resolved) := by
  rw [pathEntry_below arch read addr root regular.hasPgd below, walkLevel,
    walkSlot_eq_updateSlot regular]
  cases has : d.has level with
  | true => simp [fill, has]
  | false => simp [fill, has]

/-- **The record of a walk**: a field holds the entry that stands at its level if the walk
got there, and the mask has the existing levels among those. -/
theorem resolveUserExt_record (regular : Regular d) (hasPt : d.hasPt = true) {root : Word}
    (nonzero : root ≠ 0) (flagless : root &&& ~~~1#64 = root) (pid : BitVec 32) :
    ∃ current, resolveUserExt arch d (fun a => some (read a)) addr root pid = some current ∧
      Recorded arch d read addr root current := by
  have first : read (root + d.indexInt .pgd addr * entrySize) =
      pathEntry arch d read addr root .pgd := by
    rw [pathEntry_pgd arch read addr root regular.hasPgd,
      d.indexInt_eq .pgd addr (regular.narrow .pgd)]
    rfl
  have p4d := walkLevel_path arch read addr root regular (show Level.p4d ≠ .pgd by decide)
  have pud := walkLevel_path arch read addr root regular (show Level.pud ≠ .pgd by decide)
  have pmd := walkLevel_path arch read addr root regular (show Level.pmd ≠ .pgd by decide)
  simp only [Level.above] at p4d pud pmd
  have hasPgd : d.has .pgd = true := regular.hasPgd
  have last : read (walkSlot arch d addr .pte (pathEntry arch d read addr root .pmd)) =
      pathEntry arch d read addr root .pte := by
    rw [pathEntry_below arch read addr root regular.hasPgd (show Level.pte ≠ .pgd by decide),
      walkSlot_eq_updateSlot regular]
    exact (if_pos hasPt).symm
  have hasPte : d.has .pte = true := hasPt
  simp only [resolveUserExt, flagless, if_neg nonzero, Option.bind_some, first, p4d, pud, pmd,
    walkPt, last, Option.map_some]
  by_cases atPgd : isPresent arch (pathEntry arch d read addr root .pgd) = true
  case neg =>
    refine ⟨_, if_neg atPgd, fun level => ?_⟩
    cases level <;> simp [arrives, reached, levelsAbove, atPgd]
  rw [if_pos atPgd]
  by_cases atP4d : isPresent arch (pathEntry arch d read addr root .p4d) = true
  case neg =>
    refine ⟨_, if_neg atP4d, fun level => ?_⟩
    cases level <;> simp [arrives, reached, levelsAbove, atPgd, atP4d, hasPgd]
  rw [if_pos atP4d]
  by_cases atPud : isPresent arch (pathEntry arch d read addr root .pud) = true
  case neg =>
    refine ⟨_, if_neg atPud, fun level => ?_⟩
    cases level <;> simp [arrives, reached, levelsAbove, atPgd, atP4d, atPud, hasPgd]
  rw [if_pos atPud]
  by_cases atPmd : isPresent arch (pathEntry arch d read addr root .pmd) = true
  case neg =>
    refine ⟨_, if_neg atPmd, fun level => ?_⟩
    cases level <;> simp [arrives, reached, levelsAbove, atPgd, atP4d, atPud, atPmd, hasPgd]
  rw [if_pos atPmd]
  by_cases stops : stopsAtPmd arch (pathEntry arch d read addr root .pmd) = true
  · refine ⟨_, if_pos stops, fun level => ?_⟩
    cases level <;>
      simp [arrives, reached, levelsAbove, atPgd, atP4d, atPud, atPmd, stops, hasPgd]
  · refine ⟨_, if_neg stops, fun level => ?_⟩
    cases level <;>
      simp [arrives, reached, levelsAbove, atPgd, atP4d, atPud, atPmd, stops, hasPgd, hasPte]

end Record

/-! ## The mask -/

/-- Induction from the root table down. -/
theorem level_down {property : Level → Prop} (top : property .pgd)
    (down : ∀ level, level ≠ .pgd → property level.above → property level) :
    ∀ level, property level := by
  have p4d := down .p4d (by decide) top
  have pud := down .pud (by decide) p4d
  have pmd := down .pmd (by decide) pud
  intro level
  cases level with
  | pgd => exact top
  | p4d => exact p4d
  | pud => exact pud
  | pmd => exact pmd
  | pte => exact down .pte (by decide) pmd

section Mask

variable {arch : Arch} {d : PagingDefinition} {read : Word → Word} {addr root : Word}

theorem reached_below {level : Level} (below : level ≠ .pgd) :
    reached arch d read addr root level = true ↔
      isPresent arch (pathEntry arch d read addr root level.above) = true ∧
        reached arch d read addr root level.above = true := by
  rw [reached, levelsAbove_eq below, List.all_cons, Bool.and_eq_true]
  rfl

theorem reached_above (level : Level) : ∀ above ∈ levelsAbove level,
    reached arch d read addr root level = true → reached arch d read addr root above = true := by
  revert level
  refine level_down (fun above inside => ?_) (fun level below ih above inside reaches => ?_)
  · cases inside
  · rw [levelsAbove_eq below] at inside
    rw [reached_below below] at reaches
    rcases List.mem_cons.mp inside with rfl | later
    · exact reaches.2
    · exact ih above later reaches.2

/-- A folded level adds nothing: the level is reached if the existing levels above are
present. -/
theorem reached_iff (hasPgd : d.hasPgd = true) (level : Level) :
    reached arch d read addr root level = true ↔
      ∀ above ∈ existingAbove d level,
        isPresent arch (read (pathSlot arch d read addr root above)) = true := by
  revert level
  refine level_down ?_ fun level below ih => ?_
  · simp [reached, existingAbove, levelsAbove]
  · have chain : existingAbove d level = (level.above :: levelsAbove level.above).filter d.has := by
      rw [existingAbove, levelsAbove_eq below]
    rw [reached_below below, ih, chain]
    by_cases has : d.has level.above = true
    · rw [List.filter_cons_of_pos has, pathEntry_existing arch d read addr root has,
        List.forall_mem_cons]
      rfl
    · -- The entry of a folded level is one of those the levels above it were reached by.
      have notTop : level.above ≠ .pgd := fun same => has (same ▸ hasPgd)
      rw [List.filter_cons_of_neg has, pathEntry_below arch read addr root hasPgd notTop,
        if_neg has]
      refine ⟨And.right, fun all => ⟨?_, all⟩⟩
      exact ((reached_below notTop).mp (ih.mpr all)).1

/-- The reads below an entry are the slots below it. -/
theorem levelReads_subset {level : Level} {below : List Level} {next : Word → List Word}
    (nextSubset : ∀ entry, ∀ a ∈ next entry, ∃ l, (l, a) ∈ slotsBelow arch d read addr below entry)
    (parent : Word) :
    ∀ a ∈ levelReads arch d read addr level parent next,
      ∃ l, (l, a) ∈ slotsBelow arch d read addr (level :: below) parent := by
  intro a inside
  simp only [levelReads] at inside
  simp only [slotsBelow]
  by_cases has : d.has level = true
  · rw [if_pos has] at inside ⊢
    rcases List.mem_cons.mp inside with rfl | later
    · exact ⟨level, List.mem_cons_self⟩
    · by_cases present : isPresent arch (read (walkSlot arch d addr level parent)) = true
      · rw [if_pos present] at later ⊢
        obtain ⟨l, member⟩ := nextSubset _ a later
        exact ⟨l, List.mem_cons_of_mem _ member⟩
      · rw [if_neg present] at later
        cases later
  · rw [if_neg has] at inside ⊢
    by_cases present : isPresent arch parent = true
    · rw [if_pos present] at inside ⊢
      exact nextSubset parent a inside
    · rw [if_neg present] at inside
      cases inside

/-- The walk reads the slot of the root table and the slots it marks. -/
theorem walkReads_subset (regular : Regular d) (flagless : root &&& ~~~1#64 = root) :
    ∀ a ∈ walkReads arch d read addr root,
      a = firstSlot d addr root ∨ ∃ l, (l, a) ∈ walkSlots arch d read addr root := by
  have pt : ∀ pmdEntry, ∀ a ∈ (if stopsAtPmd arch pmdEntry then []
      else [walkSlot arch d addr .pte pmdEntry]),
      ∃ l, (l, a) ∈ slotsBelow arch d read addr [] pmdEntry := by
    intro pmdEntry a inside
    simp only [slotsBelow]
    by_cases stops : stopsAtPmd arch pmdEntry = true
    · rw [if_pos stops] at inside
      cases inside
    · rw [if_neg stops] at inside ⊢
      exact ⟨.pte, by simpa using inside⟩
  intro a inside
  simp only [walkReads, flagless, d.indexInt_eq .pgd addr (regular.narrow .pgd)] at inside
  by_cases zero : root = 0
  · rw [if_pos zero] at inside
    cases inside
  rw [if_neg zero] at inside
  rcases List.mem_cons.mp inside with rfl | later
  · exact .inl rfl
  · change a ∈ if isPresent arch (read (firstSlot d addr root)) = true then _ else _ at later
    by_cases present : isPresent arch (read (firstSlot d addr root)) = true
    · rw [if_pos present] at later
      obtain ⟨l, member⟩ :=
        levelReads_subset (levelReads_subset (levelReads_subset pt)) _ a later
      refine .inr ⟨l, ?_⟩
      simp only [walkSlots, flagless, zero, present, if_true, if_false]
      exact List.mem_cons_of_mem _ member
    · rw [if_neg present] at later
      cases later

end Mask

/-- The record says exactly what the walk met. -/
structure ExactRecord (arch : Arch) (d : PagingDefinition) (read : Word → Word) (addr root : Word)
    (current : Entry) : Prop where
  pgd : marks current.valid .pgd = true ↔
    isPresent arch (read (pathSlot arch d read addr root .pgd)) = true
  /-- The PGD is always read, a further level if it is marked. -/
  further : ∀ level, level ≠ .pgd → d.has level = true →
    (marks current.valid level = true ↔
      (∀ above ∈ existingAbove d level,
        (above = .pgd ∨ marks current.valid above = true) ∧
          isPresent arch (read (pathSlot arch d read addr root above)) = true) ∧
      (level = .pte → arch = .x86_64 → castSize (read (pathSlot arch d read addr root .pmd)) = 0))
  existing : ∀ level, marks current.valid level = true → d.has level = true
  upward : ∀ level, marks current.valid level = true →
    ∀ above ∈ existingAbove d level, marks current.valid above = true
  marked : ∀ level, marks current.valid level = true →
    current.word level = read (pathSlot arch d read addr root level)
  unmarked : ∀ level, d.has level = true → marks current.valid level = false →
    current.word level = 0
  folded : ∀ level, d.has level = false →
    (∀ above ∈ existingAbove d level,
      (above = .pgd ∨ marks current.valid above = true) ∧
        isPresent arch (read (pathSlot arch d read addr root above)) = true) →
    current.word level = current.word level.above

/-- The slot of the root table and the slots of the marked levels. -/
def onPath (arch : Arch) (d : PagingDefinition) (read : Word → Word) (addr root : Word)
    (current : Entry) (a : Word) : Bool :=
  a == pathSlot arch d read addr root .pgd ||
    [Level.pgd, .p4d, .pud, .pmd, .pte].any fun level =>
      marks current.valid level && a == pathSlot arch d read addr root level

section Exact

variable {arch : Arch} {d : PagingDefinition} {read : Word → Word} {addr root : Word}
  {current : Entry}

theorem arrives_reached {level : Level} (arrived : arrives arch d read addr root level = true) :
    reached arch d read addr root level = true := by
  cases level with
  | pgd => rfl
  | p4d | pud | pmd => exact arrived
  | pte => exact (Bool.and_eq_true _ _ ▸ arrived).1

/-- The walk got to every level above one it reached. -/
theorem arrives_above {level above : Level} (reaches : reached arch d read addr root level = true)
    (inside : above ∈ levelsAbove level) : arrives arch d read addr root above = true := by
  have there := reached_above level above inside reaches
  cases above with
  | pgd => exact List.all_eq_true.mp reaches .pgd inside
  | p4d | pud | pmd => exact there
  | pte => cases level <;> simp [levelsAbove] at inside

theorem arrives_pte :
    arrives arch d read addr root .pte = true ↔
      reached arch d read addr root .pte = true ∧
        (arch = .x86_64 → castSize (pathEntry arch d read addr root .pmd) = 0) := by
  rw [arrives, Bool.and_eq_true, Bool.not_eq_true', and_congr_right_iff]
  intro _
  cases arch with
  | x86_64 => simp [stopsAtPmd]
  | aarch64 => simp [stopsAtPmd]

namespace Recorded

variable (recorded : Recorded arch d read addr root current)

include recorded

theorem marks_iff (level : Level) : marks current.valid level = true ↔
    d.has level = true ∧ arrives arch d read addr root level = true := by
  rw [(recorded level).2, Bool.and_eq_true]

theorem word_of_arrives {level : Level} (arrived : arrives arch d read addr root level = true) :
    current.word level = pathEntry arch d read addr root level := by
  rw [(recorded level).1, if_pos arrived]

/-- The existing levels above a level the walk reached are marked. -/
theorem upward {level : Level} (reaches : reached arch d read addr root level = true) :
    ∀ above ∈ existingAbove d level, marks current.valid above = true := by
  intro above inside
  rw [existingAbove, List.mem_filter] at inside
  exact (recorded.marks_iff above).mpr ⟨inside.2, arrives_above reaches inside.1⟩

theorem reached_iff_read (hasPgd : d.hasPgd = true) (level : Level) :
    reached arch d read addr root level = true ↔
      ∀ above ∈ existingAbove d level,
        (above = .pgd ∨ marks current.valid above = true) ∧
          isPresent arch (read (pathSlot arch d read addr root above)) = true := by
  rw [reached_iff hasPgd]
  constructor
  · intro present above inside
    have reaches : reached arch d read addr root level = true :=
      (reached_iff hasPgd level).mpr present
    exact ⟨.inr (recorded.upward reaches above inside), present above inside⟩
  · exact fun all above inside => (all above inside).2

theorem exactRecord (hasPgd : d.hasPgd = true) (hasPmd : d.hasPmd = true) (hasPt : d.hasPt = true) :
    ExactRecord arch d read addr root current where
  pgd := by
    have has : d.has .pgd = true := hasPgd
    rw [recorded.marks_iff, ← pathEntry_existing arch d read addr root has]
    exact and_iff_right hasPgd
  further := by
    intro level notTop has
    have hasPmd : d.has .pmd = true := hasPmd
    rw [recorded.marks_iff, ← recorded.reached_iff_read hasPgd,
      ← pathEntry_existing arch d read addr root hasPmd, and_iff_right has]
    cases level with
    | pgd => contradiction
    | p4d | pud | pmd => simp [arrives]
    | pte => simp [arrives_pte]
  existing level marked := ((recorded.marks_iff level).mp marked).1
  upward level marked := recorded.upward (arrives_reached ((recorded.marks_iff level).mp marked).2)
  marked := by
    intro level marked
    obtain ⟨has, arrived⟩ := (recorded.marks_iff level).mp marked
    rw [recorded.word_of_arrives arrived, pathEntry_existing arch d read addr root has]
  unmarked := by
    intro level has unmarked
    rw [(recorded level).2, has, Bool.true_and] at unmarked
    rw [(recorded level).1, unmarked, if_neg Bool.false_ne_true]
  folded := by
    intro level absent all
    have reaches := (recorded.reached_iff_read hasPgd level).mpr all
    have notTop : level ≠ .pgd := fun same => by
      rw [same, PagingDefinition.has, hasPgd] at absent
      cases absent
    have aboveArrived := arrives_above reaches (levelsAbove_eq notTop ▸ List.mem_cons_self)
    have arrived : arrives arch d read addr root level = true := by
      cases level with
      | pgd => contradiction
      | p4d | pud | pmd => exact reaches
      | pte =>
          rw [PagingDefinition.has, hasPt] at absent
          cases absent
    rw [recorded.word_of_arrives arrived, recorded.word_of_arrives aboveArrived,
      pathEntry_below arch read addr root hasPgd notTop, absent, if_neg Bool.false_ne_true]

/-- The marked slots of the walk are those of the path. -/
theorem slot_eq (regular : Regular d) (flagless : root &&& ~~~1#64 = root)
    (resolved : Resolved arch d read addr root current) {level : Level} {slot : Word}
    (member : (level, slot) ∈ walkSlots arch d read addr root) :
    marks current.valid level = true ∧ slot = pathSlot arch d read addr root level := by
  have marked : marks current.valid level = true := by
    rw [resolved.valid]
    exact (marks_maskOf _ level).mpr ⟨slot, member⟩
  have reaches := arrives_reached ((recorded.marks_iff level).mp marked).2
  have found := resolved.slots _ member
  rw [flagless] at found
  refine ⟨marked, found.trans ?_⟩
  by_cases top : level = .pgd
  · subst top
    rfl
  · have arrived := arrives_above reaches (levelsAbove_eq top ▸ List.mem_cons_self)
    rw [pathSlot_below arch read addr root regular.hasPgd top,
      ← recorded.word_of_arrives arrived]
    cases level with
    | pgd => contradiction
    | p4d | pud | pmd | pte => rfl

theorem walkReads_onPath (regular : Regular d) (flagless : root &&& ~~~1#64 = root)
    (resolved : Resolved arch d read addr root current) :
    (walkReads arch d read addr root).all (onPath arch d read addr root current) = true := by
  rw [List.all_eq_true]
  intro a inside
  rw [onPath, Bool.or_eq_true, beq_iff_eq, List.any_eq_true]
  rcases walkReads_subset regular flagless a inside with first | ⟨level, member⟩
  · exact .inl first
  · obtain ⟨marked, slot⟩ := recorded.slot_eq regular flagless resolved member
    refine .inr ⟨level, ?_, ?_⟩
    · cases level <;> decide
    · rw [marked, slot, beq_self_eq_true, Bool.and_true]

end Recorded

end Exact

/-- **The valid mask is exact**, for the definition `ptedit_init` installs: the PGD is marked
if its entry is present, a further existing level if every existing level above was read and
is present, the PTE on x86-64 only below a PMD that is not large.  A marked field is the word
in the slot of its level, an unmarked one is zero, a folded one is its parent's, and the walk
reads nothing but the slot of the root table and the marked slots. -/
theorem valid_mask_exact (P : Platform) (realPageSize : Word) (mem : Mem) (addr root : Word)
    (pid : BitVec 32) (nonzero : root ≠ 0) (aligned : root.toNat % 4096 = 0) :
    ∃ current,
      resolveUserExt P.arch (initDefinition P realPageSize) (physReadPread mem) addr root pid =
        some current ∧
      ExactRecord P.arch (initDefinition P realPageSize) (read64 mem) addr root current ∧
      resolveUserExt P.arch (initDefinition P realPageSize)
        (guarded (onPath P.arch (initDefinition P realPageSize) (read64 mem) addr root current)
          (read64 mem)) addr root pid = some current := by
  have regular := initDefinition_regular P realPageSize
  have flagless := X86Walk.root_and_not_one aligned
  obtain ⟨hasPmd, hasPt⟩ := initDefinition_lowest P realPageSize
  obtain ⟨current, walked, recorded⟩ :=
    resolveUserExt_record P.arch (read64 mem) addr regular hasPt nonzero flagless pid
  obtain ⟨same, walkedAgain, resolved⟩ :=
    resolved_walk P.arch regular (read64 mem) addr root pid
  obtain rfl : current = same := Option.some_inj.mp (walked.symm.trans walkedAgain)
  refine ⟨current, walked, recorded.exactRecord regular.hasPgd hasPmd hasPt, ?_⟩
  rw [resolveUserExt_guarded, if_pos (recorded.walkReads_onPath regular flagless resolved)]
  exact walked

/-- The walk of the one mapped page marks every level but the folded P4D, and has its PTE. -/
theorem valid_mask_exact_onePage :
    ∃ current,
      resolveUserExt .x86_64 .x86_64 (physReadPread X86Walk.onePageMem) 0 0x1000 0 =
        some current ∧
      current.valid = 0x1d ∧
      current.pte = read64 X86Walk.onePageMem
        (pathSlot .x86_64 .x86_64 (read64 X86Walk.onePageMem) 0 0x1000 .pte) := by
  obtain ⟨current, walked, exactly, -⟩ :=
    valid_mask_exact fourLevelPlatform 4096 X86Walk.onePageMem 0 0x1000 0 (by decide) (by decide)
  have valid : current.valid = 0x1d := by
    have evaluated : (resolveUserExt .x86_64 .x86_64 (physReadPread X86Walk.onePageMem) 0 0x1000
        0).map Entry.valid = some 0x1d := by
      decide +kernel
    have mask := congrArg (Option.map Entry.valid) walked
    exact Option.some_inj.mp (mask.symm.trans evaluated)
  refine ⟨current, walked, valid, exactly.marked .pte ?_⟩
  rw [valid]
  decide

end PTEditor.Linux.ValidMask
