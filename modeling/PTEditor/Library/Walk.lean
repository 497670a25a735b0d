/-
# PTEditor.Library.Walk -- the user-space walk of `ptedit.c`

`ptedit_resolve_user_ext` walks the page tables itself, from physical reads: a
paging definition says which levels exist and how wide each index is, `deref` is
the physical read.  A read may fault (the mapped implementation can leave its
mapping), so the walk is partial.  A level the definition does not have is
carried through as a copy of its parent's entry, without a read and without a
mark.

`ptedit_update_user_ext` recomputes the slot addresses from a finished walk.  Its
stores are `userStores`, leaf first; the index arithmetic is the same but in
`size_t` where the walk has `int` (`indexInt_eq`).
-/
import PTEditor.Interface.Entry
import PTEditor.Theory.WordFields

namespace PTEditor.Library

open PTEditor.Theory.ByteMemory PTEditor.Interface

set_option autoImplicit false

/-- `ptedit_paging_definition_t`. -/
structure PagingDefinition where
  hasPgd : Bool
  hasP4d : Bool
  hasPud : Bool
  hasPmd : Bool
  hasPt : Bool
  pgdEntries : Nat
  p4dEntries : Nat
  pudEntries : Nat
  pmdEntries : Nat
  ptEntries : Nat
  pageOffset : Nat
  deriving DecidableEq, Repr

namespace PagingDefinition

def x86_64 : PagingDefinition where
  hasPgd := true
  hasP4d := false
  hasPud := true
  hasPmd := true
  hasPt := true
  pgdEntries := 9
  p4dEntries := 0
  pudEntries := 9
  pmdEntries := 9
  ptEntries := 9
  pageOffset := 12

def aarch64Pages16k : PagingDefinition where
  hasPgd := true
  hasP4d := false
  hasPud := true
  hasPmd := true
  hasPt := true
  pgdEntries := 11
  p4dEntries := 0
  pudEntries := 11
  pmdEntries := 11
  ptEntries := 11
  pageOffset := 14

/-- The definition `ptedit_init` installs on aarch64 with any other page size. -/
def aarch64Pages4k : PagingDefinition where
  hasPgd := true
  hasP4d := false
  hasPud := false
  hasPmd := true
  hasPt := true
  pgdEntries := 9
  p4dEntries := 0
  pudEntries := 0
  pmdEntries := 9
  ptEntries := 9
  pageOffset := 12

variable (d : PagingDefinition)

def has : Level → Bool
  | .pgd => d.hasPgd
  | .p4d => d.hasP4d
  | .pud => d.hasPud
  | .pmd => d.hasPmd
  | .pte => d.hasPt

def entries : Level → Nat
  | .pgd => d.pgdEntries
  | .p4d => d.p4dEntries
  | .pud => d.pudEntries
  | .pmd => d.pmdEntries
  | .pte => d.ptEntries

def shift : Level → Nat
  | .pgd => d.pageOffset + d.ptEntries + d.pmdEntries + d.pudEntries + d.p4dEntries
  | .p4d => d.pageOffset + d.ptEntries + d.pmdEntries + d.pudEntries
  | .pud => d.pageOffset + d.ptEntries + d.pmdEntries
  | .pmd => d.pageOffset + d.ptEntries
  | .pte => d.pageOffset

/-- `pgdi`, `p4di`, `pudi`, `pmdi` and `pti`, as `size_t`. -/
def index (level : Level) (addr : Word) : Word :=
  (addr >>> d.shift level) % (1#64 <<< d.entries level)

/-- The same value after it went through an `int` variable. -/
def indexInt (level : Level) (addr : Word) : Word :=
  ((d.index level addr).setWidth 32).signExtend 64

end PagingDefinition

def pfnMultiply : Word := 4096#64

def entrySize : Word := 8#64

/-! ## The walk -/

section Walk

variable (arch : Arch) (d : PagingDefinition) (deref : Word → Option Word) (addr : Word)

/-- The slot of a level in the table a parent entry names, as the walk computes it. -/
def walkSlot (level : Level) (parent : Word) : Word :=
  castPfn arch parent * pfnMultiply + d.indexInt level addr * entrySize

/-- One of the levels P4D, PUD and PMD: read it and mark it if the definition has
it, else carry the parent's entry on; stop if what came out is not present. -/
def walkLevel (level : Level) (parent : Word) (resolved : Entry)
    (next : Word → Entry → Option Entry) : Option Entry :=
  let read :=
    if d.has level then
      (deref (walkSlot arch d addr level parent)).map fun entry => (entry, resolved.mark level)
    else some (parent, resolved)
  read.bind fun (entry, resolved) =>
    let resolved := resolved.setWord level entry
    if isPresent arch entry then next entry resolved else some resolved

/-- A PMD that maps a large page; the size test exists on x86-64 only. -/
def stopsAtPmd (pmdEntry : Word) : Bool :=
  match arch with
  | .x86_64 => castSize pmdEntry != 0
  | .aarch64 => false

def walkPt (pmdEntry : Word) (resolved : Entry) : Option Entry :=
  if stopsAtPmd arch pmdEntry then some resolved
  else
    (deref (walkSlot arch d addr .pte pmdEntry)).map fun ptEntry =>
      (resolved.setWord .pte ptEntry).mark .pte

/-- `ptedit_resolve_user_ext`, from the root the process has. -/
def resolveUserExt (root : Word) (pid : BitVec 32) : Option Entry :=
  let root := root &&& ~~~1#64
  let resolved := Entry.zeroed addr (pid.signExtend 64)
  if root = 0 then some resolved
  else
    (deref (root + d.indexInt .pgd addr * entrySize)).bind fun pgdEntry =>
      if isPresent arch pgdEntry then
        let resolved := (resolved.setWord .pgd pgdEntry).mark .pgd
        walkLevel arch d deref addr .p4d pgdEntry resolved fun p4dEntry resolved =>
          walkLevel arch d deref addr .pud p4dEntry resolved fun pudEntry resolved =>
            walkLevel arch d deref addr .pmd pudEntry resolved fun pmdEntry resolved =>
              walkPt arch d deref addr pmdEntry resolved
      else some resolved

end Walk

section Total

variable {arch : Arch} {d : PagingDefinition} {deref : Word → Option Word} {addr : Word}

theorem walkLevel_isSome (total : ∀ a, (deref a).isSome) (level : Level) (parent : Word)
    (resolved : Entry) {next : Word → Entry → Option Entry}
    (nextTotal : ∀ entry resolved, (next entry resolved).isSome) :
    (walkLevel arch d deref addr level parent resolved next).isSome := by
  have goesOn : ∀ entry (resolved : Entry),
      (if isPresent arch entry then next entry resolved else some resolved).isSome := by
    intro entry resolved
    split
    · exact nextTotal entry resolved
    · rfl
  simp only [walkLevel]
  split
  · obtain ⟨entry, read⟩ := Option.isSome_iff_exists.mp (total (walkSlot arch d addr level parent))
    rw [read]
    exact goesOn _ _
  · exact goesOn _ _

/-- A walk whose reads all succeed returns a record. -/
theorem resolveUserExt_isSome (arch : Arch) (d : PagingDefinition) (addr : Word)
    (total : ∀ a, (deref a).isSome) (root : Word) (pid : BitVec 32) :
    (resolveUserExt arch d deref addr root pid).isSome := by
  have pt : ∀ pmdEntry resolved, (walkPt arch d deref addr pmdEntry resolved).isSome := by
    intro pmdEntry resolved
    simp only [walkPt]
    split
    · rfl
    · rw [Option.isSome_map]
      exact total _
  simp only [resolveUserExt]
  split
  · rfl
  · obtain ⟨pgdEntry, read⟩ := Option.isSome_iff_exists.mp
      (total ((root &&& ~~~1#64) + d.indexInt .pgd addr * entrySize))
    rw [read, Option.bind_some]
    split
    · exact walkLevel_isSome total .p4d _ _ fun _ _ =>
        walkLevel_isSome total .pud _ _ fun _ _ => walkLevel_isSome total .pmd _ _ pt
    · rfl

end Total

section Relabel

/-- A change of the record that no step of the walk looks at: of its address or its process. -/
structure Relabels (relabel : Entry → Entry) : Prop where
  setWord : ∀ (r : Entry) level w, relabel (r.setWord level w) = (relabel r).setWord level w
  mark : ∀ (r : Entry) level, relabel (r.mark level) = (relabel r).mark level

variable {arch : Arch} {d : PagingDefinition} {deref : Word → Option Word} {addr addr' : Word}
  {relabel : Entry → Entry}

theorem walkSlot_congr {level : Level} (same : d.index level addr = d.index level addr')
    (parent : Word) : walkSlot arch d addr level parent = walkSlot arch d addr' level parent := by
  simp only [walkSlot, PagingDefinition.indexInt, same]

theorem walkLevel_relabel (relabels : Relabels relabel) {level : Level}
    (same : d.index level addr = d.index level addr') (parent : Word) (resolved : Entry)
    {next next' : Word → Entry → Option Entry}
    (nextRelabel : ∀ entry r, (next entry r).map relabel = next' entry (relabel r)) :
    (walkLevel arch d deref addr level parent resolved next).map relabel =
      walkLevel arch d deref addr' level parent (relabel resolved) next' := by
  have goesOn : ∀ entry (r : Entry),
      (if isPresent arch entry then next entry (r.setWord level entry)
        else some (r.setWord level entry)).map relabel =
      if isPresent arch entry then next' entry ((relabel r).setWord level entry)
        else some ((relabel r).setWord level entry) := by
    intro entry r
    split
    · rw [nextRelabel, relabels.setWord]
    · rw [Option.map_some, relabels.setWord]
  simp only [walkLevel, walkSlot_congr same]
  split
  · cases deref (walkSlot arch d addr' level parent) with
    | none => rfl
    | some entry =>
        rw [← relabels.mark]
        exact goesOn entry (resolved.mark level)
  · exact goesOn parent resolved

/-- Two addresses with the same indices, and two processes with the same root, have the
same walk. -/
theorem resolveUserExt_relabel (relabels : Relabels relabel)
    (same : ∀ level, d.index level addr = d.index level addr') (root : Word)
    {pid pid' : BitVec 32}
    (start : relabel (Entry.zeroed addr (pid.signExtend 64)) =
      Entry.zeroed addr' (pid'.signExtend 64)) :
    (resolveUserExt arch d deref addr root pid).map relabel =
      resolveUserExt arch d deref addr' root pid' := by
  have pt : ∀ pmdEntry (r : Entry),
      (walkPt arch d deref addr pmdEntry r).map relabel =
        walkPt arch d deref addr' pmdEntry (relabel r) := by
    intro pmdEntry r
    simp only [walkPt, walkSlot_congr (same .pte)]
    split
    · rfl
    · cases deref (walkSlot arch d addr' .pte pmdEntry) with
      | none => rfl
      | some ptEntry => simp only [Option.map_some, relabels.mark, relabels.setWord]
  have first : d.indexInt .pgd addr = d.indexInt .pgd addr' := by
    simp only [PagingDefinition.indexInt, same .pgd]
  simp only [resolveUserExt, first]
  generalize root &&& ~~~1#64 = root
  split
  · rw [Option.map_some, start]
  · cases deref (root + d.indexInt .pgd addr' * entrySize) with
    | none => rfl
    | some pgdEntry =>
        simp only [Option.bind_some]
        split
        · rw [← start, ← relabels.setWord, ← relabels.mark]
          exact walkLevel_relabel relabels (same .p4d) _ _ fun _ _ =>
            walkLevel_relabel relabels (same .pud) _ _ fun _ _ =>
              walkLevel_relabel relabels (same .pmd) _ _ pt
        · rw [Option.map_some, start]

/-- The process shows in the record's `pid` only: the walk knows the root. -/
theorem resolveUserExt_retarget (root : Word) (pid target : BitVec 32) :
    (resolveUserExt arch d deref addr root pid).map
        (fun e => { e with pid := target.signExtend 64 }) =
      resolveUserExt arch d deref addr root target := by
  have relabels : Relabels fun e => { e with pid := target.signExtend 64 } :=
    ⟨fun _ level _ => by cases level <;> rfl, fun _ _ => rfl⟩
  exact resolveUserExt_relabel relabels (fun _ => rfl) root rfl

/-- The address shows in the record's `vaddr` only, up to the indices it has. -/
theorem resolveUserExt_readdress (same : ∀ level, d.index level addr = d.index level addr')
    (root : Word) (pid : BitVec 32) :
    (resolveUserExt arch d deref addr root pid).map (fun e => { e with vaddr := addr' }) =
      resolveUserExt arch d deref addr' root pid := by
  have relabels : Relabels fun e => { e with vaddr := addr' } :=
    ⟨fun _ level _ => by cases level <;> rfl, fun _ _ => rfl⟩
  exact resolveUserExt_relabel relabels same root rfl

end Relabel

/-! ## The stores of an update -/

section Update

variable (arch : Arch) (d : PagingDefinition) (addr : Word)

/-- The slot of a level in the table a parent entry names, as the update computes it. -/
def updateSlot (level : Level) (parent : Word) : Word :=
  castPfn arch parent * pfnMultiply + d.index level addr * entrySize

/-- One guarded `pset`: the level is selected in `vm` and valid in `current`. -/
def guardedStore (vm current : Entry) (level : Level) (has : Bool) (slot : Word) :
    List (Word × Word) :=
  if marks vm.valid level && marks current.valid level && has then [(slot, vm.word level)] else []

/-- The stores of `ptedit_update_user_ext`, in its order: leaf first.  The PTE is
written without asking the definition for the level. -/
def userStores (root : Word) (current vm : Entry) : List (Word × Word) :=
  guardedStore vm current .pte true (updateSlot arch d addr .pte current.pmd) ++
    (guardedStore vm current .pmd d.hasPmd (updateSlot arch d addr .pmd current.pud) ++
      (guardedStore vm current .pud d.hasPud (updateSlot arch d addr .pud current.p4d) ++
        (guardedStore vm current .p4d d.hasP4d (updateSlot arch d addr .p4d current.pgd) ++
          guardedStore vm current .pgd d.hasPgd (root + d.index .pgd addr * entrySize))))

end Update

theorem guardedStore_marked (vm : Entry) {current : Entry} {level : Level} (slot : Word)
    (marked : marks current.valid level = true) :
    guardedStore vm current level true slot =
      if marks vm.valid level then [(slot, vm.word level)] else [] := by
  simp only [guardedStore, marked, Bool.and_true]

theorem guardedStore_unmarked (vm : Entry) {current : Entry} {level : Level} (has : Bool)
    (slot : Word) (unmarked : marks current.valid level = false) :
    guardedStore vm current level has slot = [] := by
  simp only [guardedStore, unmarked, Bool.and_false, Bool.false_and, Bool.false_eq_true, if_false]

theorem guardedStore_absent (vm current : Entry) (level : Level) (slot : Word) :
    guardedStore vm current level false slot = [] := by
  simp only [guardedStore, Bool.and_false, Bool.false_eq_true, if_false]

/-- A guarded store goes to its slot, and only for a level the resolve marked. -/
theorem mem_guardedStore {vm current : Entry} {level : Level} {has : Bool} {slot : Word}
    {s : Word × Word} (stored : s ∈ guardedStore vm current level has slot) :
    marks current.valid level = true ∧ s.1 = slot := by
  simp only [guardedStore] at stored
  split at stored
  · rename_i chosen
    simp only [Bool.and_eq_true] at chosen
    exact ⟨chosen.1.2, by rw [List.mem_singleton.mp stored]⟩
  · cases stored

/-! ## Index arithmetic -/

namespace PagingDefinition

variable (d : PagingDefinition)

theorem index_toNat (level : Level) (addr : Word) (width : d.entries level < 64) :
    (d.index level addr).toNat = addr.toNat / 2 ^ d.shift level % 2 ^ d.entries level := by
  rw [index, BitVec.toNat_umod, BitVec.toNat_ushiftRight, Nat.shiftRight_eq_div_pow,
    PTEditor.Theory.WordFields.toNat_one_shiftLeft width]

theorem pageOffset_le_shift (level : Level) : d.pageOffset ≤ d.shift level := by
  cases level <;> simp only [shift] <;> omega

theorem index_lt (level : Level) (addr : Word) (width : d.entries level < 64) :
    (d.index level addr).toNat < 2 ^ d.entries level := by
  rw [d.index_toNat level addr width]
  exact Nat.mod_lt _ (Nat.two_pow_pos _)

/-- The detour through `int` loses nothing while an index is narrower than one. -/
theorem indexInt_eq (level : Level) (addr : Word) (width : d.entries level < 32) :
    d.indexInt level addr = d.index level addr := by
  have small : (d.index level addr).toNat < 2 ^ 31 :=
    lt_of_lt_of_le (d.index_lt level addr (by omega)) (Nat.pow_le_pow_right (by decide) (by omega))
  have narrowed : ((d.index level addr).setWidth 32).toNat = (d.index level addr).toNat := by
    rw [BitVec.toNat_setWidth]
    omega
  have positive : ((d.index level addr).setWidth 32).msb = false := by
    rw [BitVec.msb_eq_decide, narrowed]
    simp only [decide_eq_false_iff_not]
    omega
  apply BitVec.eq_of_toNat_eq
  unfold indexInt
  rw [BitVec.signExtend_eq_setWidth_of_msb_false positive, BitVec.toNat_setWidth, narrowed]
  omega

end PagingDefinition

end PTEditor.Library
