/-
# PTEditor.Linux.Programs -- a program that uses the library and its own memory

The demos do not only call the library: they load and store through the addresses whose
PTEs they have changed.  The processor is in the model with its cache of translations:
between any two steps of a program it may fill and evict as it likes (`cpu`), and an access
goes through the cached mapping if there is one (`mappingFor`).

`Stage` is what the machine of such a program keeps, `Leaf` what is known of the PTE of one
page.  Each step has its lemma: a resolve finds the leaf, an update stores it and leaves
the pages of the program fresh, an access to a fresh page goes where the tables say.
-/
import PTEditor.Linux.PagingRoot
import PTEditor.Linux.TlbRuns
import PTEditor.Library.EntryFields

namespace PTEditor.Linux.Programs

open PTEditor.Theory.ByteMemory PTEditor.Theory.RadixTree PTEditor.Theory.Runs
open PTEditor.Theory.CachedReads PTEditor.Interface PTEditor.Module
open PTEditor.Library PTEditor.Library.X86Walk PTEditor.Library.PageMap
open PTEditor.Linux.Agreement PTEditor.Linux.KernelEdits PTEditor.Linux.MixedRuns
open PTEditor.Linux.Mmu PTEditor.Linux.TlbRuns

set_option autoImplicit false

/-! ## Accesses of the program -/

section Access

variable (P : Platform)

def own (m : Machine) : Mm := m.system.current.owner

/-- The mapping an access goes through: the one that is held, or the one in the tables. -/
def mappingFor (addr : Word) (m : Machine) : Option Mapping :=
  if m.system.kernel.tlb (own m) (addr >>> 12) then some (m.held (addr >>> 12))
  else inTables P (own m) m.system (addr >>> 12)

/-- A load in user mode, which dies without a mapping or the right to use it. -/
def loadByte (addr : Word) (m : Machine) : Option Byte :=
  (mappingFor P addr m).bind fun mapping =>
    if mapping.rights.user then some (m.system.kernel.mem (mapping.physical addr)) else none

def loadWord (addr : Word) (m : Machine) : Option Word :=
  (mappingFor P addr m).bind fun mapping =>
    if mapping.rights.user then some (read64 m.system.kernel.mem (mapping.physical addr)) else none

def setMem (mem : Mem) (m : Machine) : Machine :=
  { m with system := { m.system with kernel := { m.system.kernel with mem } } }

def storeWord (addr value : Word) (m : Machine) : Option Machine :=
  (mappingFor P addr m).bind fun mapping =>
    if mapping.rights.user && mapping.rights.writable then
      some (setMem (write64 m.system.kernel.mem (mapping.physical addr) value) m)
    else none

/-- What the processor does to its cache on its own. -/
def cpu (events : List (Event Command Word)) (m : Machine) : Machine :=
  run (machineStep P (own m)) events m

/-! ## Calls of the program -/

def ask {Answer : Type} (call : System → Option (Answer × System)) (m : Machine) :
    Option (Answer × Machine) :=
  (call m.system).map fun answer => (answer.1, { m with system := answer.2 })

def tell (call : System → Option System) (m : Machine) : Option Machine :=
  (call m.system).map fun s => { m with system := s }

def updatePte (addr : Word) (vm : Entry) (pte : Word) : Machine → Option Machine :=
  tell (pteditUpdate P addr 0 { vm with pte, valid := Level.pte.mask })

end Access

/-! ## Leaves in memory -/

section Leaves

variable {P : Platform} {mem : Mem} {root addr b : Word}

/-- The PTE of an address: where it is, what it is, and what the levels above it grant. -/
structure Leaf (P : Platform) (root : Word) (mem : Mem) (addr slot pte : Word) (rights : Rights) :
    Prop where
  orderly : OrderlyWalk P mem root addr
  ends : PageMap.pteSlot mem root addr = some slot
  holds : read64 mem slot = pte
  grants : upperRights mem root addr = rights

variable {slot pte : Word} {rights : Rights}

theorem Leaf.leafAt (leaf : Leaf P root mem addr slot pte rights) :
    leafAt mem root addr = some pte := by
  have same : KernelEdits.leafAt mem root addr =
      (PageMap.pteSlot mem root addr).map (read64 mem) := by
    rw [PageMap.pteSlot, Option.map_map]
    rfl
  rw [same, leaf.ends, Option.map_some, leaf.holds]

theorem Leaf.pageWalk (leaf : Leaf P root mem addr slot pte rights) (canonical : Canonical addr) :
    pageWalk mem root addr = mappingOf rights pte := by
  rw [pageWalk_orderly leaf.orderly canonical, leaf.leafAt]
  simp only [leaf.grants]

/-- The slot is in the table that the PMD points to. -/
theorem Leaf.slot_eq (leaf : Leaf P root mem addr slot pte rights) :
    slot = X86Walk.slot (tableFrame (pmdEntry mem root addr)) (addressIndex .pte addr) := by
  have found := leaf.ends
  rw [PageMap.pteSlot, frameAt_orderly leaf.orderly] at found
  split at found
  · cases found
  · exact (Option.some.inj found).symm

/-- Storing a PTE is an edit of its leaf. -/
theorem Leaf.tables_write (leaf : Leaf P root mem b slot pte rights) (value : Word) :
    tables (write64 mem slot value) =
      editStep follow (rootFrame root) (tables mem) (leafEdit b fun _ => value) := by
  have found := leaf.ends
  simp only [PageMap.pteSlot, editStep, leafEdit] at found ⊢
  cases reached : frameAt follow (tables mem) (rootFrame root) (addressPath b) with
  | none =>
      rw [reached] at found
      cases found
  | some frame =>
      rw [reached] at found
      simp only [Option.map_some, Option.some.injEq] at found
      rw [← found, tables_write64]

theorem Leaf.write_shaped (leaf : Leaf P root mem b slot pte rights)
    (shaped : TreeShapedMemory mem root) (value : Word) :
    TreeShapedMemory (write64 mem slot value) root :=
  treeShaped_leafEdit shaped (leaf.tables_write value)

/-- The walks of all addresses end in the slots they ended in. -/
theorem Leaf.write_slot (leaf : Leaf P root mem b slot pte rights)
    (shaped : TreeShapedMemory mem root) (value : Word) (a : Word) :
    PageMap.pteSlot (write64 mem slot value) root a = PageMap.pteSlot mem root a := by
  simp only [PageMap.pteSlot, leaf.tables_write value]
  rw [frameAt_editStep shaped _ rfl (addressPath a) (Nat.le_refl 3)]

theorem Leaf.write_inner (leaf : Leaf P root mem b slot pte rights)
    (shaped : TreeShapedMemory mem root) (value : Word) (path : List Index) (i : Index)
    (bound : path.length < 3) :
    entryAt follow (tables (write64 mem slot value)) (rootFrame root) path i =
      entryAt follow (tables mem) (rootFrame root) path i := by
  rw [leaf.tables_write value]
  exact entryAt_editStep_inner shaped _ rfl path bound i

theorem Leaf.write_rights (leaf : Leaf P root mem b slot pte rights)
    (shaped : TreeShapedMemory mem root) (value : Word) {slotA pteA : Word} {rightsA : Rights}
    (other : Leaf P root mem addr slotA pteA rightsA) :
    upperRights (write64 mem slot value) root addr = rightsA := by
  rw [upperRights_of_inner other.orderly (leaf.write_inner shaped value) (by
    rw [other.leafAt]
    rfl)]
  exact other.grants

/-- The stored PTE is the PTE. -/
theorem Leaf.write_self (leaf : Leaf P root mem b slot pte rights)
    (shaped : TreeShapedMemory mem root) (value : Word) :
    Leaf P root (write64 mem slot value) b slot value rights where
  orderly := orderlyWalk_leafEdit leaf.orderly shaped (leaf.tables_write value)
  ends := by rw [leaf.write_slot shaped, leaf.ends]
  holds := read64_write64_self mem slot value
  grants := leaf.write_rights shaped value leaf

/-- The slots of two pages are apart. -/
theorem Leaf.apart (leaf : Leaf P root mem b slot pte rights) (shaped : TreeShapedMemory mem root)
    {slotA pteA : Word} {rightsA : Rights} (other : Leaf P root mem addr slotA pteA rightsA)
    (apart : samePage b addr = false) : Apart slot slotA := by
  have found := leaf.ends
  have foundA := other.ends
  obtain ⟨f, reached, rfl⟩ := Option.map_eq_some_iff.mp found
  obtain ⟨g, reachedA, rfl⟩ := Option.map_eq_some_iff.mp foundA
  apply slot_apart
  rintro ⟨rfl, index⟩
  have path := shaped (addressPath b) (addressPath addr) f (Nat.le_refl 3) (Nat.le_refl 3) reached
    reachedA
  rw [(samePage_iff b addr).mpr ⟨path, index⟩] at apart
  cases apart

/-- The PTE of another page is as before. -/
theorem Leaf.write_other (leaf : Leaf P root mem b slot pte rights)
    (shaped : TreeShapedMemory mem root) (value : Word) {slotA pteA : Word} {rightsA : Rights}
    (other : Leaf P root mem addr slotA pteA rightsA) (apart : samePage b addr = false) :
    Leaf P root (write64 mem slot value) addr slotA pteA rightsA where
  orderly := orderlyWalk_leafEdit other.orderly shaped (leaf.tables_write value)
  ends := by rw [leaf.write_slot shaped, other.ends]
  holds := by rw [read64_write64_apart mem value (leaf.apart shaped other apart), other.holds]
  grants := leaf.write_rights shaped value other

end Leaves

/-! ## Pages and addresses -/

section Pages

variable {mem : Mem} {root addr : Word}

theorem toNat_page (addr : Word) :
    ((addr >>> 12) <<< 12).toNat = addr.toNat - addr.toNat % 4096 := by
  have bound := addr.isLt
  simp only [BitVec.toNat_shiftLeft, BitVec.toNat_ushiftRight, Nat.shiftLeft_eq,
    Nat.shiftRight_eq_div_pow]
  omega

theorem extract_page (addr : Word) {start : Nat} (above : 12 ≤ start) (width : Nat) :
    ((addr >>> 12) <<< 12).extractLsb' start width = addr.extractLsb' start width := by
  apply BitVec.eq_of_getLsbD_eq
  intro i bound
  simp only [BitVec.getLsbD_extractLsb', bound, decide_true, Bool.true_and, BitVec.getLsbD_shiftLeft,
    BitVec.getLsbD_ushiftRight]
  by_cases inside : start + i < 64
  · simp only [inside, decide_true, Bool.true_and, Nat.not_lt.mpr (show 12 ≤ start + i by omega),
      decide_false, Bool.not_false, show 12 + (start + i - 12) = start + i by omega]
  · simp only [inside, decide_false, Bool.false_and, BitVec.getLsbD_of_ge addr (start + i) (by omega)]

/-- A walk is for a page. -/
theorem pageWalk_page (mem : Mem) (root addr : Word) :
    pageWalk mem root ((addr >>> 12) <<< 12) = pageWalk mem root addr := by
  have canonical : Canonical ((addr >>> 12) <<< 12) ↔ Canonical addr := by
    rw [canonical_iff, canonical_iff, toNat_page]
    omega
  by_cases half : Canonical addr
  · simp only [pageWalk, half, canonical.mpr half, if_true, largeMapping, hugeMapping, addressIndex,
      extract_page addr (show 12 ≤ 12 by decide), extract_page addr (show 12 ≤ 21 by decide),
      extract_page addr (show 12 ≤ 30 by decide), extract_page addr (show 12 ≤ 39 by decide)]
  · rw [pageWalk_not_canonical half, pageWalk_not_canonical (mt canonical.mp half)]

end Pages

/-! ## What each step keeps -/

section Steps

variable {P : Platform} {root : Word} {m : Machine}

/-- The machine of the program, whose page tables are a tree below `root`. -/
structure Stage (P : Platform) (owner : Mm) (root : Word) (mem : Mem) (m : Machine) : Prop where
  sound : Sound P owner root m.system
  owner : own m = owner
  good : GoodRoot root
  mem : m.system.kernel.mem = mem

/-- What a step that stores no PTE keeps. -/
structure Keeps (P : Platform) (owner : Mm) (m m' : Machine) : Prop where
  stays : Stays m.system m'.system
  fresh : ∀ page, Fresh P owner page m → Fresh P owner page m'

variable {owner : Mm} {mem : Mem}

theorem Keeps.trans {m₁ m₂ : Machine} (first : Keeps P owner m m₁) (second : Keeps P owner m₁ m₂) :
    Keeps P owner m m₂ :=
  ⟨first.stays.trans second.stays, fun page fresh => second.fresh page (first.fresh page fresh)⟩

theorem Stage.names (stage : Stage P owner root mem m) :
    Names P m.system.kernel m.system.current ((0 : BitVec 32).signExtend 64) root owner := by
  refine ⟨?_, stage.sound.rooted, stage.good⟩
  have own : m.system.current.owner = owner := stage.owner
  rw [show (0 : BitVec 32).signExtend 64 = 0 from rfl, Kernel.getMm_zero, own]

theorem Stage.target (stage : Stage P owner root mem m) : Target P m.system root 0 :=
  ⟨owner, stage.names⟩

/-- A fill or an eviction. -/
theorem Stage.step_silent (four : FourLevel P) (stage : Stage P owner root mem m)
    {event : Theory.CachedReads.Event Command Word} (silent : ∀ command, event ≠ .act command) :
    Stage P owner root mem (machineStep P owner event m) ∧
      Keeps P owner m (machineStep P owner event m) := by
  have aimed : AimedEvent P owner root m.system event := fun command act => absurd act (silent command)
  obtain ⟨sound, stays, -, follows⟩ := machineStep_view four stage.sound aimed
  have kept : (step (translations root m.system.current.owner owner) event (view owner m)).store =
      (view owner m).store := by
    cases event with
    | act command => exact absurd rfl (silent command)
    | fill page => exact step_fill_store _ page
    | evict page => rfl
  refine ⟨⟨sound, ?_, stage.good, ?_⟩, stays, ?_⟩
  · rw [own, stays.current]
    exact stage.owner
  · have store := congrArg (fun c => c.store.mem) follows
    rw [kept] at store
    exact store.trans stage.mem
  · intro page fresh
    rw [fresh_iff sound m.system.current.owner, follows]
    have coherent := (fresh_iff stage.sound m.system.current.owner page).mp fresh
    cases event with
    | act command => exact absurd rfl (silent command)
    | fill filled => exact coherentAt_fill coherent filled
    | evict evicted => exact coherentAt_evict coherent evicted

/-- **The processor on its own** changes no memory and spoils no page. -/
theorem Stage.cpu (four : FourLevel P) (stage : Stage P owner root mem m)
    {events : List (Theory.CachedReads.Event Command Word)} (silent : actionsOf events = []) :
    Stage P owner root mem (cpu P events m) ∧ Keeps P owner m (cpu P events m) := by
  unfold Programs.cpu
  rw [stage.owner]
  induction events generalizing m with
  | nil => exact ⟨stage, ⟨rfl, rfl, rfl, rfl, rfl, rfl⟩, fun _ fresh => fresh⟩
  | cons event rest ih =>
      have first : ∀ command, event ≠ .act command := by
        rintro command rfl
        cases silent
      obtain ⟨stage₁, keeps₁⟩ := stage.step_silent four first
      have restSilent : actionsOf rest = [] := by
        cases event with
        | act command => exact absurd rfl (first command)
        | fill page => exact silent
        | evict page => exact silent
      obtain ⟨stage', keeps'⟩ := ih stage₁ restSilent
      exact ⟨stage', keeps₁.trans keeps'⟩

/-- A call that only reads. -/
theorem Stage.quiet (stage : Stage P owner root mem m) {s' : System} (quiet : m.system.Quiet s') :
    Stage P owner root mem { m with system := s' } ∧ Keeps P owner m { m with system := s' } := by
  have stays := Continues.stays (continues_of_steady quiet.steady)
  refine ⟨⟨stage.sound.stays stays (stage.sound.ready.steady quiet.steady) ?_, ?_, stage.good, ?_⟩,
    stays, ?_⟩
  · rw [quiet.mem_eq]
    exact stage.sound.shaped
  · rw [own, stays.current]
    exact stage.owner
  · rw [quiet.mem_eq, stage.mem]
  · obtain ⟨k, ⟨events, rfl⟩, rfl⟩ := quiet
    exact fun page fresh => fresh

/-- The record of an address with a PTE. -/
structure Records (mem : Mem) (root addr pte : Word) (vm : Entry) : Prop where
  pgd : vm.pgd = pgdEntry mem root addr
  pmd : vm.pmd = pmdEntry mem root addr
  pte : vm.pte = pte
  marked : marks vm.valid .pte = true

/-- A resolve finds the PTE, and changes nothing. -/
theorem Stage.resolve (four : FourLevel P) (stage : Stage P owner root mem m) {addr slot pte : Word}
    {rights : Rights} (leaf : Leaf P root mem addr slot pte rights) :
    ∃ vm m', ask (pteditResolve P addr 0) m = some (vm, m') ∧ Records mem root addr pte vm ∧
      Stage P owner root mem m' ∧ Keeps P owner m m' := by
  have orderly : OrderlyWalk P m.system.kernel.mem root addr := by
    rw [stage.mem]
    exact leaf.orderly
  have found : leafAt m.system.kernel.mem root addr = some pte := by
    rw [stage.mem]
    exact leaf.leafAt
  obtain ⟨vm, s', resolved, quiet, marked, word⟩ :=
    resolve_leaf four stage.sound.ready stage.target orderly
  obtain ⟨pgd, pud, pmd, -⟩ := (leafAt_isSome orderly).mp (by rw [found]; rfl)
  obtain ⟨pgd, pmd⟩ :=
    resolve_upper four stage.sound.ready stage.target orderly pgd pud pmd resolved
  rw [stage.mem] at pgd pmd
  rw [found] at marked word
  exact ⟨vm, { m with system := s' }, by simp only [ask, resolved, Option.map_some],
    ⟨pgd, pmd, word, marked⟩, stage.quiet quiet⟩

/-- A command of the program, as an event of the machine. -/
theorem Stage.command (four : FourLevel P) (stage : Stage P owner root mem m) {command : Command}
    (aimed : Aimed P owner root m.system command) :
    ∃ m', tell (command.run P) m = some m' ∧
      Stage P owner root (command.apply root ⟨mem, m.system.kernel.invalidateTlbMethod⟩).mem m' ∧
      Stays m.system m'.system ∧
      view owner m' = step (translations root owner owner) (.act command) (view owner m) := by
  obtain ⟨s', ran, -⟩ := command_does four stage.sound aimed
  have stepped : machineStep P owner (.act command) m = { m with system := s' } := by
    simp only [machineStep, ran, Option.getD_some]
  have aimedEvent : AimedEvent P owner root m.system (.act command) := by
    intro other same
    cases same
    exact aimed
  obtain ⟨sound, stays, -, follows⟩ := machineStep_view four stage.sound aimedEvent
  rw [stepped] at sound stays follows
  have sameOwner : m.system.current.owner = owner := stage.owner
  refine ⟨{ m with system := s' }, by simp only [tell, ran, Option.map_some],
    ⟨sound, ?_, stage.good, ?_⟩, stays, ?_⟩
  · rw [own, stays.current]
    exact sameOwner
  · have store := congrArg (fun c => c.store.mem) follows
    rw [← stage.mem]
    exact store
  · rw [sameOwner] at follows
    exact follows

/-- The page of an address in the lower half. -/
structure UserPage (addr : Word) : Prop where
  aligned : addr.toNat % 4096 = 0
  lower : addr.toNat < 2 ^ 47

theorem UserPage.canonical {addr : Word} (user : UserPage addr) : Canonical addr :=
  (canonical_iff addr).mpr (.inl user.lower)

theorem UserPage.page_eq {addr : Word} (user : UserPage addr) : (addr >>> 12) <<< 12 = addr := by
  apply BitVec.eq_of_toNat_eq
  rw [toNat_page, user.aligned, Nat.sub_zero]

/-- **A PTE call changes the PTE**, and leaves the pages of the lower half fresh. -/
theorem Stage.call (four : FourLevel P) (stage : Stage P owner root mem m) {addr slot pte : Word}
    {rights : Rights} (leaf : Leaf P root mem addr slot pte rights) (user : UserPage addr)
    (op : PteOp) :
    ∃ m', tell (PteCall.run P ⟨op, addr, 0⟩) m = some m' ∧
      Stage P owner root (write64 mem slot (op.onWord .x86_64 pte)) m' ∧ Stays m.system m'.system ∧
      ∀ a slotA pteA rightsA, UserPage a → Leaf P root mem a slotA pteA rightsA →
        Fresh P owner (a >>> 12) m → Fresh P owner (a >>> 12) m' := by
  have aimed : Aimed P owner root m.system (.act (.call ⟨op, addr, 0⟩)) := by
    intro call called
    cases called
    refine ⟨stage.names, ?_⟩
    rw [stage.mem]
    exact leaf.orderly
  obtain ⟨m', told, stage', stays, follows⟩ := stage.command four aimed
  refine ⟨m', told, ?_, stays, ?_⟩
  · simp only [Command.apply, storeCall, leaf.ends, leaf.holds] at stage'
    exact stage'
  · intro a slotA pteA rightsA userA leafA fresh
    rw [fresh_iff stage'.sound owner, follows]
    have coherent := (fresh_iff stage.sound owner (a >>> 12)).mp fresh
    apply coherentAt_act coherent
    have bound := a.isLt
    have shifted : (a >>> 12).toNat = a.toNat / 4096 := by
      rw [BitVec.toNat_ushiftRight, Nat.shiftRight_eq_div_pow]
    have orderlyView : OrderlyView P root (a >>> 12) (view owner m).store := by
      refine ⟨stage.sound.shaped, ?_⟩
      rw [userA.page_eq]
      show OrderlyWalk P m.system.kernel.mem root a
      rw [stage.mem]
      exact leafA.orderly
    refine (timely_iff (by omega) ?_ orderlyView _).mpr ?_
    · rw [userA.page_eq]
      exact userA.canonical
    · intro call called _ _ _
      cases called
      have lower := user.lower
      exact .inr (.inr ⟨user.canonical, .inr ⟨rfl, by simp only; omega⟩⟩)

/-- `ptedit_update` with the PTE mask stores the PTE it is given. -/
theorem Stage.update (four : FourLevel P) (stage : Stage P owner root mem m) {addr slot pte : Word}
    {rights : Rights} (leaf : Leaf P root mem addr slot pte rights) (user : UserPage addr)
    (vm : Entry) (value : Word) :
    ∃ m', updatePte P addr vm value m = some m' ∧ Stage P owner root (write64 mem slot value) m' ∧
      Stays m.system m'.system ∧
      ∀ a slotA pteA rightsA, UserPage a → Leaf P root mem a slotA pteA rightsA →
        Fresh P owner (a >>> 12) m → Fresh P owner (a >>> 12) m' :=
  stage.call four leaf user (.update { vm with pte := value })

/-- `ptedit_invalidate_tlb` makes its page fresh, and leaves the others so. -/
theorem Stage.invalidate (four : FourLevel P) (stage : Stage P owner root mem m) {addr : Word}
    (user : UserPage addr) :
    ∃ m', tell (fun s => some (pteditInvalidateTlb P addr s)) m = some m' ∧
      Stage P owner root mem m' ∧ Fresh P owner (addr >>> 12) m' ∧ Keeps P owner m m' := by
  have aimed : Aimed P owner root m.system (.invalidateTlb addr) := by
    intro call called
    cases called
  obtain ⟨m', told, stage', stays, follows⟩ := stage.command four aimed
  refine ⟨m', told, stage', ?_, stays, ?_⟩
  · rw [fresh_iff stage'.sound owner, follows]
    have lower := user.lower
    have shifted : (addr >>> 12).toNat = addr.toNat / 4096 := by
      rw [BitVec.toNat_ushiftRight, Nat.shiftRight_eq_div_pow]
    have dropped : dropsPage m.system.kernel.invalidateTlbMethod owner owner addr (addr >>> 12) =
        true := by
      refine (dropsPage_iff _ owner owner (by omega) ?_ ?_).mpr ⟨user.canonical, .inr ⟨rfl, by omega⟩⟩
      · rw [user.page_eq]
        exact user.canonical
      · rw [user.page_eq]
        exact beq_self_eq_true _
    intro value held
    simp only [step, translations, Command.drops, view, dropped, if_true, reduceCtorEq] at held
  · intro page fresh
    rw [fresh_iff stage'.sound owner, follows]
    apply coherentAt_act ((fresh_iff stage.sound owner page).mp fresh)
    exact fun value found => .inl found

/-! ### Accesses -/

/-- An address of a fresh page goes through the mapping in the tables. -/
theorem Stage.mappingFor_eq (stage : Stage P owner root mem m) {addr a : Word}
    (page : addr >>> 12 = a >>> 12) (fresh : Fresh P owner (a >>> 12) m) :
    mappingFor P addr m = pageWalk mem root a := by
  have tables : inTables P owner m.system (a >>> 12) = pageWalk mem root a := by
    rw [inTables_eq stage.sound, pageWalk_page, stage.mem]
  have here : m.system.kernel.tlb owner (a >>> 12) = true →
      pageWalk mem root a = some (m.held (a >>> 12)) := by
    intro live
    rw [← tables]
    exact fresh live
  simp only [mappingFor, stage.owner, page, tables]
  split
  · rename_i live
    exact (here live).symm
  · rfl

variable {addr a slot pte : Word} {rights : Rights} {mapping : Mapping}

theorem Stage.loadWord_eq (stage : Stage P owner root mem m)
    (leaf : Leaf P root mem a slot pte rights) (user : UserPage a)
    (mapped : mappingOf rights pte = some mapping) (granted : mapping.rights.user = true)
    (page : addr >>> 12 = a >>> 12) (fresh : Fresh P owner (a >>> 12) m) :
    loadWord P addr m = some (read64 mem (mapping.physical addr)) := by
  rw [loadWord, stage.mappingFor_eq page fresh, leaf.pageWalk user.canonical, mapped,
    Option.bind_some, if_pos granted, stage.mem]

theorem Stage.loadByte_eq (stage : Stage P owner root mem m)
    (leaf : Leaf P root mem a slot pte rights) (user : UserPage a)
    (mapped : mappingOf rights pte = some mapping) (granted : mapping.rights.user = true)
    (page : addr >>> 12 = a >>> 12) (fresh : Fresh P owner (a >>> 12) m) :
    loadByte P addr m = some (mem (mapping.physical addr)) := by
  rw [loadByte, stage.mappingFor_eq page fresh, leaf.pageWalk user.canonical, mapped,
    Option.bind_some, if_pos granted, stage.mem]

/-- Memory that is changed behind the module's back, tables or not. -/
theorem Stage.setMem (stage : Stage P owner root mem m) {mem' : Mem}
    (shaped : TreeShapedMemory mem' root) :
    Stage P owner root mem' (setMem mem' m) ∧ Stays m.system (setMem mem' m).system :=
  ⟨⟨stage.sound.stays ⟨rfl, rfl, rfl, rfl, rfl, rfl⟩ (stage.sound.ready.congr rfl rfl) shaped,
    stage.owner, stage.good, rfl⟩, ⟨rfl, rfl, rfl, rfl, rfl, rfl⟩⟩

/-- A page that is mapped as before stays fresh. -/
theorem Stage.fresh_setMem (stage : Stage P owner root mem m) {mem' : Mem} {c : Word}
    (same : pageWalk mem' root c = pageWalk mem root c) (fresh : Fresh P owner (c >>> 12) m) :
    Fresh P owner (c >>> 12) (Programs.setMem mem' m) := by
  intro live
  have before := fresh live
  rw [inTables, stage.sound.rooted, pageWalk_page, stage.mem] at before
  have rooted : P.virtToPhys ((Programs.setMem mem' m).system.kernel.pgd owner) = root :=
    stage.sound.rooted
  rw [inTables, rooted, pageWalk_page]
  show pageWalk mem' root c = _
  rw [same]
  exact before

/-- A PTE that is changed behind the module's back: the other pages stay fresh. -/
theorem Stage.setPte (stage : Stage P owner root mem m) {b slotB pteB : Word} {rightsB : Rights}
    (hit : Leaf P root mem b slotB pteB rightsB) (value : Word) :
    Stage P owner root (write64 mem slotB value) (Programs.setMem (write64 mem slotB value) m) ∧
      ∀ c slotC pteC rightsC, UserPage c → Leaf P root mem c slotC pteC rightsC →
        samePage b c = false → Fresh P owner (c >>> 12) m →
          Fresh P owner (c >>> 12) (Programs.setMem (write64 mem slotB value) m) := by
  have shaped : TreeShapedMemory mem root := by
    rw [← stage.mem]
    exact stage.sound.shaped
  refine ⟨(stage.setMem (hit.write_shaped shaped value)).1, ?_⟩
  intro c slotC pteC rightsC userC leafC apart freshC
  apply stage.fresh_setMem _ freshC
  rw [(hit.write_other shaped value leafC apart).pageWalk userC.canonical,
    leafC.pageWalk userC.canonical]

/-- **A store that hits a PTE.** -/
theorem Stage.storeWord_eq (stage : Stage P owner root mem m) (value : Word)
    (leaf : Leaf P root mem a slot pte rights) (user : UserPage a)
    (mapped : mappingOf rights pte = some mapping) (granted : mapping.rights.user = true)
    (writable : mapping.rights.writable = true) (page : addr >>> 12 = a >>> 12)
    (fresh : Fresh P owner (a >>> 12) m) {slotB : Word} (physical : mapping.physical addr = slotB) :
    storeWord P addr value m = some (Programs.setMem (write64 mem slotB value) m) := by
  rw [storeWord, stage.mappingFor_eq page fresh, leaf.pageWalk user.canonical, mapped,
    Option.bind_some, granted, writable, physical, stage.mem]
  rfl

end Steps

end PTEditor.Linux.Programs
