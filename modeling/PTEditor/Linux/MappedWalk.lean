/-
# PTEditor.Linux.MappedWalk -- the walk through the mapping against the walk through `pread`

`PTEDIT_IMPL_USER` maps the first 32 GiB of physical memory and walks by plain
loads; `PTEDIT_IMPL_USER_PREAD` reads every entry through `/proc/umem`.  The walk
is the same function of its physical read, so the two differ only where a load
leaves the mapping.

`walkReads` are the addresses a walk reads, whatever the read does outside them
(`resolveUserExt_guarded`).  On x86-64 an entry's PFN has 28 bits, so a table may
lie anywhere below 1 TiB: `sameWalk_iff` says that the implementations agree
exactly when the walk of the address meets no entry that points past the mapping.
-/
import PTEditor.Library.X86Walk

namespace PTEditor.Linux.MappedWalk

open PTEditor.Theory.ByteMemory PTEditor.Interface PTEditor.Module
open PTEditor.Library PTEditor.Library.X86Walk

set_option autoImplicit false

/-! ## The reads of a walk -/

section Reads

variable (arch : Arch) (d : PagingDefinition) (read : Word → Word) (addr : Word)

/-- The reads from one of the levels P4D, PUD and PMD on. -/
def levelReads (level : Level) (parent : Word) (next : Word → List Word) : List Word :=
  if d.has level then
    let slot := walkSlot arch d addr level parent
    slot :: if isPresent arch (read slot) then next (read slot) else []
  else if isPresent arch parent then next parent
  else []

/-- The addresses `ptedit_resolve_user_ext` reads, in order, if `read` is what the
physical read returns. -/
def walkReads (root : Word) : List Word :=
  let root := root &&& ~~~1#64
  if root = 0 then []
  else
    let slot := root + d.indexInt .pgd addr * entrySize
    slot :: if isPresent arch (read slot) then
      levelReads arch d read addr .p4d (read slot) fun p4dEntry =>
        levelReads arch d read addr .pud p4dEntry fun pudEntry =>
          levelReads arch d read addr .pmd pudEntry fun pmdEntry =>
            if stopsAtPmd arch pmdEntry then [] else [walkSlot arch d addr .pte pmdEntry]
    else []

end Reads

theorem walkReads_rootless {arch : Arch} {d : PagingDefinition} {read : Word → Word} {addr : Word}
    {root : Word} (zero : root &&& ~~~1#64 = 0) : walkReads arch d read addr root = [] := by
  simp only [walkReads, zero, if_true]

section Guarded

variable (arch : Arch) (d : PagingDefinition) (addr : Word) (inside : Word → Bool)
  (read : Word → Word)

/-- A physical read that faults outside some set of addresses. -/
def guarded (address : Word) : Option Word :=
  if inside address then some (read address) else none

theorem walkLevel_guarded (level : Level) (parent : Word) (resolved : Entry)
    {next next' : Word → Entry → Option Entry} {reads : Word → List Word}
    (below : ∀ entry r, next entry r = if (reads entry).all inside then next' entry r else none) :
    walkLevel arch d (guarded inside read) addr level parent resolved next =
      if (levelReads arch d read addr level parent reads).all inside then
        walkLevel arch d (fun a => some (read a)) addr level parent resolved next'
      else none := by
  simp only [walkLevel, levelReads]
  cases d.has level with
  | false =>
      simp only [Bool.false_eq_true, if_false, Option.bind_some, below]
      cases isPresent arch parent <;> simp
  | true =>
      simp only [if_true, List.all_cons, guarded]
      cases inside (walkSlot arch d addr level parent) with
      | false => simp
      | true =>
          simp only [if_true, Option.map_some, Option.bind_some, Bool.true_and, below]
          cases isPresent arch (read (walkSlot arch d addr level parent)) <;> simp

/-- **`walkReads` is what the walk reads**: a walk whose read faults outside some
set of addresses returns exactly if they are all in it, and then what it returns
with a read that never faults. -/
theorem resolveUserExt_guarded (root : Word) (pid : BitVec 32) :
    resolveUserExt arch d (guarded inside read) addr root pid =
      if (walkReads arch d read addr root).all inside then
        resolveUserExt arch d (fun a => some (read a)) addr root pid
      else none := by
  have pt : ∀ pmdEntry r, walkPt arch d (guarded inside read) addr pmdEntry r =
      if (if stopsAtPmd arch pmdEntry then [] else [walkSlot arch d addr .pte pmdEntry]).all inside
      then walkPt arch d (fun a => some (read a)) addr pmdEntry r else none := by
    intro pmdEntry r
    simp only [walkPt, guarded]
    cases stopsAtPmd arch pmdEntry with
    | true => simp
    | false => cases within : inside (walkSlot arch d addr .pte pmdEntry) <;> simp [within]
  simp only [resolveUserExt, walkReads]
  split
  · simp
  · simp only [List.all_cons, guarded]
    generalize (root &&& ~~~1#64) + d.indexInt .pgd addr * entrySize = pgdSlot
    by_cases within : inside pgdSlot = true
    · simp only [within, if_true, Option.bind_some, Bool.true_and]
      by_cases present : isPresent arch (read pgdSlot) = true
      · simp only [present, if_true]
        exact walkLevel_guarded arch d addr inside read .p4d _ _ fun _ _ =>
          walkLevel_guarded arch d addr inside read .pud _ _ fun _ _ =>
            walkLevel_guarded arch d addr inside read .pmd _ _ pt
      · simp [present]
    · simp [within]

end Guarded

/-! ## On x86-64 -/

section X86

variable (mem : Mem) (addr : Word)

def rootSlot (root : Word) : Word :=
  root + PagingDefinition.x86_64.index .pgd addr * entrySize

/-- The entry the address selects in the table `parent` points to. -/
def entryBelow (level : Level) (parent : Word) : Word :=
  tables mem (tableFrame parent) (addressIndex level addr)

/-- The walk goes on from a present entry to the table of the next level; from a
PMD entry, only if it is not large. -/
def leads (level : Level) (entry : Word) : Bool :=
  isPresent .x86_64 entry && !(level == .pte && stopsAtPmd .x86_64 entry)

/-- The steps of a walk below `entry`: each is a level and the entry that leads to
its table. -/
def followed : List Level → Word → List (Level × Word)
  | [], _ => []
  | level :: below, entry =>
      if leads level entry then (level, entry) :: followed below (entryBelow mem addr level entry)
      else []

def stepSlot (step : Level × Word) : Word :=
  slot (tableFrame step.2) (addressIndex step.1 addr)

/-- The steps of the walk of an address from its entry in the root table. -/
def path (root : Word) : List (Level × Word) :=
  followed mem addr [.pud, .pmd, .pte] (read64 mem (rootSlot addr root))

/-- The tables on the path of an address lie in the mapped part of memory. -/
def TablesMapped (root : Word) : Prop :=
  (rootSlot addr root).toNat + 8 ≤ mappingLength ∧
    ∀ step ∈ path mem addr root, (castPfn .x86_64 step.2).toNat * 4096 < mappingLength

instance (root : Word) : Decidable (TablesMapped mem addr root) :=
  inferInstanceAs (Decidable (_ ∧ _))

variable {mem addr}

/-- The mapping ends at a page boundary, so it has a table's slot if it has the
table's frame. -/
theorem insideMapping_stepSlot (step : Level × Word) :
    insideMapping .mapped (stepSlot addr step) = true ↔
      (castPfn .x86_64 step.2).toNat * 4096 < mappingLength := by
  have frame := castPfn_lt step.2
  have bound := (addressIndex step.1 addr).isLt
  simp only [insideMapping, stepSlot, slot_toNat, tableFrame, BitVec.toNat_setWidth, mappingLength,
    beq_self_eq_true, Bool.true_and, decide_eq_true_eq]
  omega

theorem leads_upper {level : Level} (upper : level ≠ .pte) (entry : Word) :
    leads level entry = isPresent .x86_64 entry := by
  simp [leads, upper]

/-- The last step: from a PMD entry to its PTE. -/
theorem pteReads_eq (mem : Mem) (addr entry : Word) :
    (if isPresent .x86_64 entry then
        if stopsAtPmd .x86_64 entry then [] else [walkSlot .x86_64 .x86_64 addr .pte entry]
      else []) = (followed mem addr [.pte] entry).map (stepSlot addr) := by
  by_cases present : isPresent .x86_64 entry = true <;>
    by_cases large : stopsAtPmd .x86_64 entry = true <;>
      simp [followed, leads, present, large, walkSlot_x86_64, stepSlot]

/-- A step above it, once the steps below are known. -/
theorem levelReads_eq {level : Level} (has : PagingDefinition.x86_64.has level = true)
    (upper : level ≠ .pte) {below : List Level} {next : Word → List Word}
    (nextEq : ∀ entry, (if isPresent .x86_64 entry then next entry else []) =
      (followed mem addr below entry).map (stepSlot addr)) (entry : Word) :
    (if isPresent .x86_64 entry then
        levelReads .x86_64 .x86_64 (read64 mem) addr level entry next
      else []) = (followed mem addr (level :: below) entry).map (stepSlot addr) := by
  simp only [levelReads, has, if_true, nextEq, followed, leads_upper upper, walkSlot_x86_64]
  split
  · rfl
  · rfl

theorem walkReads_x86_64 {root : Word} (nonzero : root &&& ~~~1#64 ≠ 0) :
    walkReads .x86_64 .x86_64 (read64 mem) addr root =
      rootSlot addr (root &&& ~~~1#64) ::
        (path mem addr (root &&& ~~~1#64)).map (stepSlot addr) := by
  have pmd := levelReads_eq has_pmd (by decide) (pteReads_eq mem addr)
  have below := levelReads_eq has_pud (by decide) pmd
  simp only [walkReads, nonzero, if_false, indexInt_x86_64, path, rootSlot, ← below]
  simp only [levelReads, has_p4d, Bool.false_eq_true, if_false]
  congr 1
  split
  · rfl
  · rfl

/-- All reads are inside the mapping exactly if the tables are. -/
theorem walkReads_inside_iff {root : Word} (nonzero : root &&& ~~~1#64 ≠ 0) :
    (walkReads .x86_64 .x86_64 (read64 mem) addr root).all (insideMapping .mapped) = true ↔
      TablesMapped mem addr (root &&& ~~~1#64) := by
  have first : insideMapping .mapped (rootSlot addr (root &&& ~~~1#64)) = true ↔
      (rootSlot addr (root &&& ~~~1#64)).toNat + 8 ≤ mappingLength := by
    simp [insideMapping]
  rw [walkReads_x86_64 nonzero, List.all_cons, Bool.and_eq_true, first, List.all_map,
    List.all_eq_true]
  simp only [Function.comp_apply, insideMapping_stepSlot]
  rfl

/-- What a walk marks: a level below a marked level whose entry leads there. -/
theorem marked_below {root : Word} {pid : BitVec 32} {current : Entry}
    (walked : resolveUserExt .x86_64 .x86_64 (physReadPread mem) addr root pid = some current)
    (nonzero : root &&& ~~~1#64 ≠ 0) :
    marks current.valid .pmd =
        (marks current.valid .pud && isPresent .x86_64 (current.word .pud)) ∧
      marks current.valid .pte =
        (marks current.valid .pmd && leads .pte (current.word .pmd)) ∧
      path mem addr (root &&& ~~~1#64) =
        ([.pud, .pmd, .pte].filter (marks current.valid)).map fun level =>
          (level, current.word level.above) := by
  have first : physReadPread mem ((root &&& ~~~1#64) +
      PagingDefinition.x86_64.index .pgd addr * entrySize) =
        some (read64 mem (rootSlot addr (root &&& ~~~1#64))) := rfl
  have entry : ∀ level parent, physReadPread mem (slot (tableFrame parent)
      (addressIndex level addr)) = some (entryBelow mem addr level parent) := fun _ _ => rfl
  simp only [resolveUserExt, nonzero, indexInt_x86_64, first, walkLevel, walkPt, walkSlot_x86_64,
    has_p4d, has_pud, has_pmd, if_true, entry, Bool.false_eq_true, Option.map_some,
    Option.bind_some, if_false] at walked
  simp only [path]
  generalize read64 mem (rootSlot addr (root &&& ~~~1#64)) = pgd at walked ⊢
  by_cases pgdPresent : isPresent .x86_64 pgd = true
  · simp only [pgdPresent, if_true] at walked
    have toPud : leads .pud pgd = true := (leads_upper (by decide) pgd).trans pgdPresent
    rw [followed, if_pos toPud]
    generalize entryBelow mem addr .pud pgd = pud at walked ⊢
    by_cases pudPresent : isPresent .x86_64 pud = true
    · simp only [pudPresent, if_true] at walked
      have toPmd : leads .pmd pud = true := (leads_upper (by decide) pud).trans pudPresent
      rw [followed, if_pos toPmd]
      generalize entryBelow mem addr .pmd pud = pmd at walked ⊢
      by_cases pmdPresent : isPresent .x86_64 pmd = true
      · simp only [pmdPresent, if_true] at walked
        by_cases large : stopsAtPmd .x86_64 pmd = true
        · simp only [large, if_true] at walked
          cases walked
          simp [Entry.mark, Entry.setWord, Entry.word, Level.above, followed, leads, pudPresent,
            large]
        · simp only [large] at walked
          cases walked
          simp [Entry.mark, Entry.setWord, Entry.word, Level.above, followed, leads, pudPresent,
            pmdPresent, large]
      · simp only [pmdPresent] at walked
        cases walked
        simp [Entry.mark, Entry.setWord, Entry.word, Level.above, followed, leads, pudPresent,
          pmdPresent]
    · simp only [pudPresent] at walked
      cases walked
      simp [Entry.mark, Entry.setWord, Entry.word, Level.above, followed, leads, pudPresent]
  · simp only [pgdPresent] at walked
    cases walked
    simp [followed, leads, pgdPresent]

/-- The levels a walk marks are the steps it made. -/
theorem mem_path {root : Word} {pid : BitVec 32} {current : Entry}
    (walked : resolveUserExt .x86_64 .x86_64 (physReadPread mem) addr root pid = some current)
    (nonzero : root &&& ~~~1#64 ≠ 0) (step : Level × Word) :
    step ∈ path mem addr (root &&& ~~~1#64) ↔
      step.1 ∈ [Level.pud, .pmd, .pte] ∧ marks current.valid step.1 = true ∧
        step.2 = current.word step.1.above := by
  rw [(marked_below walked nonzero).2.2, List.mem_map]
  constructor
  · rintro ⟨level, chosen, rfl⟩
    rw [List.mem_filter] at chosen
    exact ⟨chosen.1, chosen.2, rfl⟩
  · rintro ⟨below, marked, same⟩
    exact ⟨step.1, List.mem_filter.mpr ⟨below, marked⟩, by rw [← same]⟩

/-- An update stores into slots its own resolve has read. -/
theorem userStores_subset_reads {root : Word} {pid : BitVec 32} {current : Entry}
    (walked : resolveUserExt .x86_64 .x86_64 (physReadPread mem) addr root pid = some current)
    (vm : Entry) {s : Word × Word}
    (stored : s ∈ userStores .x86_64 .x86_64 addr (root &&& ~~~1#64) current vm) :
    s.1 ∈ walkReads .x86_64 .x86_64 (read64 mem) addr root := by
  by_cases zero : root &&& ~~~1#64 = 0
  · simp only [resolveUserExt, zero, if_true] at walked
    cases walked
    simp [userStores, guardedStore] at stored
  have nonzero : root &&& ~~~1#64 ≠ 0 := zero
  have made : ∀ level ∈ [Level.pud, .pmd, .pte], marks current.valid level = true →
      (level, current.word level.above) ∈ path mem addr (root &&& ~~~1#64) :=
    fun level below marked => (mem_path walked nonzero _).mpr ⟨below, marked, rfl⟩
  rw [walkReads_x86_64 nonzero]
  simp only [userStores, updateSlot_x86_64, List.mem_append] at stored
  rcases stored with stored | stored | stored | stored | stored
  · obtain ⟨marked, same⟩ := mem_guardedStore stored
    exact .tail _ (List.mem_map.mpr ⟨_, made .pte (by decide) marked, same.symm⟩)
  · obtain ⟨marked, same⟩ := mem_guardedStore stored
    exact .tail _ (List.mem_map.mpr ⟨_, made .pmd (by decide) marked, same.symm⟩)
  · obtain ⟨marked, same⟩ := mem_guardedStore stored
    exact .tail _ (List.mem_map.mpr ⟨_, made .pud (by decide) marked, same.symm⟩)
  · rw [show PagingDefinition.x86_64.hasP4d = false from rfl, guardedStore_absent] at stored
    cases stored
  · obtain ⟨-, same⟩ := mem_guardedStore stored
    rw [same]
    exact List.mem_cons_self

end X86

/-! ## The two implementations -/

/-- The library with both function pointers set to one implementation. -/
def pointingTo (implementation : Implementation) (s : System) : System :=
  { s with
    lib := { s.lib with resolve := some implementation, update := some implementation } }

/-- The calls of `PTEDIT_IMPL_USER` stay inside the mapping and do what those of
`PTEDIT_IMPL_USER_PREAD` do. -/
structure SameWalk (P : Platform) (s : System) (address : Word) (pid : BitVec 32) : Prop where
  reads : ∀ a ∈ walkReads P.arch s.lib.pagingDefinition (read64 s.kernel.mem) address
    (walkRoot P pid s).1, insideMapping s.lib.vmem a = true
  writes : ∀ current s', pteditResolveUserMap P address pid s = some (current, s') →
    ∀ vm, ∀ store ∈ userStores P.arch s.lib.pagingDefinition address
      ((walkRoot P pid s).1 &&& ~~~1#64) current vm, insideMapping s.lib.vmem store.1 = true
  resolve : pteditResolveUserMap P address pid s = pteditResolveUser P address pid s
  update : ∀ vm,
    (pteditUpdateUserMap P address pid vm (pointingTo .userMap s)).map (fun s => s.kernel.mem) =
      (pteditUpdateUser P address pid vm (pointingTo .user s)).map (fun s => s.kernel.mem)

section System

variable {P : Platform} {s : System} {address : Word} {pid : BitVec 32}

@[simp] theorem walkRoot_pointingTo (implementation : Implementation) :
    (walkRoot P pid (pointingTo implementation s)).1 = (walkRoot P pid s).1 := by
  simp only [walkRoot]
  split <;> rfl

/-- If all reads are inside the mapping, the walk through it is the walk through
`pread`. -/
theorem resolveUserMap_eq
    (inside : (walkReads P.arch s.lib.pagingDefinition (read64 s.kernel.mem) address
      (walkRoot P pid s).1).all (insideMapping s.lib.vmem) = true) :
    pteditResolveUserMap P address pid s = pteditResolveUser P address pid s := by
  have walk := resolveUserExt_guarded P.arch s.lib.pagingDefinition address
    (insideMapping s.lib.vmem) (read64 s.kernel.mem) (walkRoot P pid s).1 pid
  rw [if_pos inside] at walk
  simp only [pteditResolveUserMap, pteditResolveUser, pteditResolveUserExt,
    (walkRoot_quiet P pid s).mem_eq]
  exact congrArg (Option.map _) walk

/-- The `pread` walk finds the same record whatever the function pointers are. -/
theorem resolveUser_pointingTo {current : Entry}
    (walked : resolveUserExt P.arch s.lib.pagingDefinition (physReadPread s.kernel.mem) address
      (walkRoot P pid s).1 pid = some current) (implementation : Implementation) :
    pteditResolveUser P address pid (pointingTo implementation s) =
      some (current, (walkRoot P pid (pointingTo implementation s)).2) := by
  simp only [pteditResolveUser, pteditResolveUserExt, walkRoot_pointingTo,
    (walkRoot_quiet P pid (pointingTo implementation s)).mem_eq]
  exact congrArg (Option.map _) walked

/-- With the reads and the stores inside the mapping, both updates leave the same
memory. -/
theorem updateUserMap_mem_eq {current : Entry}
    (inside : (walkReads P.arch s.lib.pagingDefinition (read64 s.kernel.mem) address
      (walkRoot P pid s).1).all (insideMapping s.lib.vmem) = true)
    (walked : resolveUserExt P.arch s.lib.pagingDefinition (physReadPread s.kernel.mem) address
      (walkRoot P pid s).1 pid = some current) (vm : Entry)
    (stores : ∀ store ∈ userStores P.arch s.lib.pagingDefinition address
      ((walkRoot P pid s).1 &&& ~~~1#64) current vm, insideMapping s.lib.vmem store.1 = true) :
    (pteditUpdateUserMap P address pid vm (pointingTo .userMap s)).map (fun s => s.kernel.mem) =
      (pteditUpdateUser P address pid vm (pointingTo .user s)).map (fun s => s.kernel.mem) := by
  have insideMap : (walkReads P.arch (pointingTo .userMap s).lib.pagingDefinition
      (read64 (pointingTo .userMap s).kernel.mem) address
      (walkRoot P pid (pointingTo .userMap s)).1).all
        (insideMapping (pointingTo .userMap s).lib.vmem) = true := by
    rw [walkRoot_pointingTo]
    exact inside
  have mapResolved : pteditResolve P address pid (pointingTo .userMap s) =
      some (current, (walkRoot P pid (pointingTo .userMap s)).2) :=
    (resolveUserMap_eq insideMap).trans (resolveUser_pointingTo walked .userMap)
  have preadResolved : pteditResolve P address pid (pointingTo .user s) =
      some (current, (walkRoot P pid (pointingTo .user s)).2) :=
    resolveUser_pointingTo walked .user
  have guardedStores : ∀ store ∈ (if (walkRoot P pid s).1 &&& ~~~1#64 = 0 then []
      else userStores P.arch s.lib.pagingDefinition address ((walkRoot P pid s).1 &&& ~~~1#64)
        current vm), insideMapping s.lib.vmem store.1 = true := by
    intro store member
    split at member
    · cases member
    · exact stores store member
  simp only [pteditUpdateUserMap, pteditUpdateUser, map_invalidateTlb_mem]
  rw [pteditUpdateUserExt_mem P _ mapResolved, pteditUpdateUserExt_mem P _ preadResolved,
    psetAll_pwrite, walkRoot_pointingTo, walkRoot_pointingTo]
  exact psetAll_map _ guardedStores

end System

/-- **On x86-64 the mapped walk is the `pread` walk exactly when the process has
no root or every table on the path of the address lies in the mapped 32 GiB.** -/
theorem sameWalk_iff (P : Platform) (s : System) (address : Word) (pid : BitVec 32) (root : Word)
    (arch : P.arch = .x86_64) (definition : s.lib.pagingDefinition = .x86_64)
    (mapped : s.lib.vmem = .mapped) (rooted : (walkRoot P pid s).1 = root) :
    SameWalk P s address pid ↔
      root &&& ~~~1#64 = 0 ∨ TablesMapped s.kernel.mem address (root &&& ~~~1#64) := by
  have insideIff : (walkReads .x86_64 .x86_64 (read64 s.kernel.mem) address root).all
      (insideMapping .mapped) = true ↔
        root &&& ~~~1#64 = 0 ∨ TablesMapped s.kernel.mem address (root &&& ~~~1#64) := by
    by_cases zero : root &&& ~~~1#64 = 0
    · rw [walkReads_rootless zero]
      exact iff_of_true rfl (.inl zero)
    · rw [walkReads_inside_iff zero, or_iff_right zero]
  constructor
  · intro same
    have reads := same.reads
    rw [arch, definition, mapped, rooted] at reads
    exact insideIff.mp (List.all_eq_true.mpr reads)
  · intro tables
    have inside := insideIff.mpr tables
    have total : ∀ a, (physReadPread s.kernel.mem a).isSome := fun _ => rfl
    obtain ⟨current, walked⟩ := Option.isSome_iff_exists.mp
      (resolveUserExt_isSome .x86_64 .x86_64 address total root pid)
    have stores : ∀ vm, ∀ store ∈ userStores .x86_64 .x86_64 address (root &&& ~~~1#64) current vm,
        insideMapping .mapped store.1 = true := by
      intro vm store member
      exact List.all_eq_true.mp inside _ (userStores_subset_reads walked vm member)
    rw [← arch, ← definition, ← mapped, ← rooted] at inside stores
    rw [← arch, ← definition, ← rooted] at walked
    refine ⟨List.all_eq_true.mp inside, ?_, resolveUserMap_eq inside, fun vm =>
      updateUserMap_mem_eq inside walked vm (stores vm)⟩
    intro found s' resolved
    have same : found = current := by
      rw [resolveUserMap_eq inside] at resolved
      simp only [pteditResolveUser, pteditResolveUserExt, (walkRoot_quiet P pid s).mem_eq, walked,
        Option.map_some, Option.some.injEq, Prod.mk.injEq] at resolved
      exact resolved.1.symm
    rw [same]
    exact stores

/-- A process with `PTEDIT_IMPL_USER` and one PGD entry, to an empty PUD table in
`frame`. -/
def mappedSystem (frame : Word) : System :=
  { onePageSystem with
    lib :=
      { onePageSystem.lib with
        vmem := .mapped, resolve := some .userMap, update := some .userMap }
    kernel :=
      { onePageKernel with
        mem := storeAll (fun _ => 0) [(slot 1 0, frame <<< 12 ||| 7)] } }

theorem sameWalk_low_table : SameWalk fourLevelPlatform (mappedSystem 2) 0 0 := by
  have tables : TablesMapped (mappedSystem 2).kernel.mem 0 (0x1000 &&& ~~~1#64) := by
    decide +kernel
  exact (sameWalk_iff fourLevelPlatform (mappedSystem 2) 0 0 0x1000 rfl rfl rfl rfl).mpr
    (.inr tables)

/-- **A table at 32 GiB**: the `pread` walk finds the PGD and PUD entries, the
mapped walk dies reading the PUD slot. -/
theorem mapped_walk_leaves_mapping :
    (pteditResolveUser fourLevelPlatform 0 0 (mappedSystem 0x800000)).map (fun r => r.1.valid) =
      some 5 ∧
    pteditResolveUserMap fourLevelPlatform 0 0 (mappedSystem 0x800000) = none ∧
    insideMapping .mapped (slot 0x800000 0) = false ∧
    ¬ SameWalk fourLevelPlatform (mappedSystem 0x800000) 0 0 := by
  have dies : pteditResolveUserMap fourLevelPlatform 0 0 (mappedSystem 0x800000) = none := by
    have none : (pteditResolveUserMap fourLevelPlatform 0 0 (mappedSystem 0x800000)).isNone := by
      decide +kernel
    exact Option.isNone_iff_eq_none.mp none
  refine ⟨by decide +kernel, dies, by decide +kernel, ?_⟩
  intro same
  obtain ⟨vm, s', returns⟩ := pteditResolveUser_returns fourLevelPlatform 0 0 (mappedSystem 0x800000)
  rw [← same.resolve, dies] at returns
  cases returns

end PTEditor.Linux.MappedWalk
