/-
# PTEditor.Linux.LostUpdate -- a bit call against another client's updates

The device serves requests one at a time.  A bit call is two of them, a resolve
and an update, and another client's updates of the same address may be served
before, between and after.  A run is any order of such turns.

The call sends back every valid level, not only the ones it was asked to change:
an update served in between is undone by the stale copy.  `Calm` says when that
cannot happen, and `no_lost_update_of_calm` that then nothing is lost: slots at
levels outside the mask hold what the other client stored last, selected levels
have the call's bit.  `staleCopy_undoes_update` is a run that is not calm.
-/
import PTEditor.Linux.LevelBits
import PTEditor.Theory.Runs

namespace PTEditor.Linux.LostUpdate

open PTEditor.Theory.ByteMemory PTEditor.Theory.Runs PTEditor.Interface PTEditor.Module
open PTEditor.Library PTEditor.Library.X86Walk PTEditor.Linux.LevelBits

set_option autoImplicit false

/-- The arguments of a bit call, and what its process brings along. -/
structure Call where
  current : Process
  address : Word
  pid : Word
  op : BitOp
  bit : Fin 64
  levels : Word
  pagingDefinition : PagingDefinition

/-- How far a call has got.  The pointers are the ones the kernel had when it
answered the resolve; the call itself sees the entry only. -/
inductive Phase where
  | start
  | resolved (vm : Vm) (entry : Entry)
  | done (vm : Vm)

/-- The kernel, the call, and the stores the other client's requests have made. -/
structure Exchange where
  kernel : Kernel
  phase : Phase
  written : List (Word × Word)

/-- Whose request is served next: the call's, or an update of another client. -/
inductive Turn where
  | call
  | other (current : Process) (newEntry : Entry)

section Exchange

variable (P : Platform) (c : Call)

def Exchange.vm (x : Exchange) : Vm := resolvedVm P c.current c.address c.pid x.kernel

/-- The call's next request. -/
def callStep (x : Exchange) : Exchange :=
  match x.phase with
  | .start =>
      let answer := ioctlVmResolve P c.current (Entry.zeroed c.address c.pid) x.kernel
      { x with kernel := answer.2.2, phase := .resolved (x.vm P c) answer.2.1 }
  | .resolved vm entry =>
      let sent := editLevels c.pagingDefinition (c.op.change c.bit) c.levels entry
      let sent := { sent with vaddr := c.address, pid := c.pid }
      { x with kernel := (ioctlVmUpdate P c.current sent x.kernel).2, phase := .done vm }
  | .done _ => x

def otherStep (current : Process) (newEntry : Entry) (x : Exchange) : Exchange :=
  { x with
    kernel := (ioctlVmUpdate P current newEntry x.kernel).2
    written := x.written ++
      updateStores P (resolvedVm P current newEntry.vaddr newEntry.pid x.kernel) newEntry }

def step : Turn → Exchange → Exchange
  | .call => callStep P c
  | .other current newEntry => otherStep P current newEntry

/-- The other client's requests are for the same address and process, and leave
the levels of the call's mask alone. -/
def Disjoint (x : Exchange) : Turn → Prop
  | .call => True
  | .other current newEntry =>
      newEntry.vaddr = c.address ∧ newEntry.pid = c.pid ∧
        x.kernel.getMm current c.pid = x.kernel.getMm c.current c.pid ∧
        ∀ level, marks c.levels level = true → marks newEntry.valid level = false

/-- No turn reaches a defect.  An update served between the call's two requests
writes what is there.  When the call's update is served, the library changes the copy
stored last in a slot if and only if the call is to change it, or the bit is there already.
Afterwards the other client does not write such a slot under the name of the P4D, or with
the bit. -/
def Calm (x : Exchange) (turn : Turn) : Prop :=
  match turn, x.phase with
  | .other _ newEntry, .resolved _ _ => ∀ level slot, (x.vm P c).slot level = some slot →
      marks newEntry.valid level = true → newEntry.word level = read64 x.kernel.mem slot
  | .other _ newEntry, .done _ => ∀ level slot, marks c.levels level = true →
      (x.vm P c).slot level = some slot → (x.vm P c).slot .p4d = some slot →
        marks newEntry.valid .p4d = true → newEntry.p4d.getLsbD c.bit.val = c.op.value
  | .call, .resolved _ _ => ∀ level slot, (x.vm P c).Owns level slot →
      edits c.pagingDefinition c.levels (lastCopy (x.vm P c) level) = marks c.levels level ∨
        (read64 x.kernel.mem slot).getLsbD c.bit.val = c.op.value
  | _, _ => True

/-- Different levels are different words, at any two moments of the run; only the P4D's
slot may be another level's, as it is where the P4D is folded. -/
def DistinctSlots (xs : List Exchange) : Prop :=
  ∀ x ∈ xs, ∀ y ∈ xs, ∀ level a, (x.vm P c).Owns level a → OneLevel (y.vm P c) level a

end Exchange

/-! ## One slot of one level -/

section Slot

variable {P : Platform} {c : Call} {level : Level} {a initial : Word}

theorem vm_version (x : Exchange) (old : P.hasP4d = false) : (x.vm P c).slot .p4d = none :=
  resolvedVm_p4d_none old c.current c.address c.pid x.kernel

theorem vm_inStep (x : Exchange) : (x.vm P c).InStep :=
  resolvedVm_inStep P c.current c.address c.pid x.kernel

/-- What the call may rely on: between its requests, that its copies are fresh,
and afterwards, that its bit is there. -/
def PhaseKept (P : Platform) (c : Call) (level : Level) (a : Word) (k : Kernel) : Phase → Prop
  | .start => True
  | .resolved vm entry =>
      vm = resolvedVm P c.current c.address c.pid k ∧
        entry = vmToUser k.mem (Entry.zeroed c.address c.pid) vm
  | .done vm => marks c.levels level = true → vm.slot level = some a →
      (read64 k.mem a).getLsbD c.bit.val = c.op.value

/-- What holds of the word at `a` after every turn. -/
structure Kept (P : Platform) (c : Call) (level : Level) (a initial : Word) (x : Exchange) :
    Prop where
  outside : marks c.levels level = false →
    read64 x.kernel.mem a = lastStore x.written a initial
  phase : PhaseKept P c level a x.kernel x.phase

/-- The stores of one update of the call's address, seen from the word. -/
theorem updateStores_words {x : Exchange} (one : OneLevel (x.vm P c) level a) (n : Entry) :
    ∀ s ∈ updateStores P (x.vm P c) n,
      (s.1 = a ∧ (x.vm P c).slot level = some a ∧ ∃ other, (other = level ∨ other = .p4d) ∧
        (x.vm P c).slot other = some a ∧ marks n.valid other = true ∧ s.2 = n.word other) ∨
      Apart s.1 a := by
  intro s member
  obtain ⟨other, reached, selected, value⟩ :=
    (mem_updateStores (vm_inStep x) (vm_version x) n s).mp member
  rcases one other s.1 reached with ⟨here, which⟩ | apart
  · rw [here] at reached
    rcases which with rfl | ⟨rfl, own⟩
    · exact .inl ⟨here, reached, other, .inl rfl, reached, selected, value⟩
    · exact .inl ⟨here, own, .p4d, .inr rfl, reached, selected, value⟩
  · exact .inr apart

theorem read64_update_word {x : Exchange} (one : OneLevel (x.vm P c) level a) (n : Entry) :
    read64 (storeAll x.kernel.mem (updateStores P (x.vm P c) n)) a =
      lastStore (updateStores P (x.vm P c) n) a (read64 x.kernel.mem a) := by
  apply read64_storeAll_eq_lastStore
  intro s member
  exact (updateStores_words one n s member).imp And.left id

/-- The other client's turn: its stores go to the slots of the call's walk. -/
theorem other_step {x : Exchange} {current : Process} {n : Entry}
    (disjoint : Disjoint c x (.other current n)) :
    (step P c (.other current n) x).kernel.mem =
        storeAll x.kernel.mem (updateStores P (x.vm P c) n) ∧
      (step P c (.other current n) x).written = x.written ++ updateStores P (x.vm P c) n := by
  obtain ⟨addr, pid, sameMm, -⟩ := disjoint
  have vm : resolvedVm P current n.vaddr n.pid x.kernel = x.vm P c := by
    rw [addr, pid]
    exact resolvedVm_current P c.current c.address c.pid sameMm
  rw [← vm]
  exact ⟨updateVm_stores P current n _ x.kernel, rfl⟩

/-- A turn that only stores what is there already changes nothing. -/
theorem other_unchanged {x : Exchange} {current : Process} {n : Entry}
    (disjoint : Disjoint c x (.other current n))
    (present : ∀ other slot, (x.vm P c).slot other = some slot → marks n.valid other = true →
      n.word other = read64 x.kernel.mem slot) :
    (step P c (.other current n) x).kernel.mem = x.kernel.mem := by
  rw [(other_step disjoint (P := P)).1]
  apply storeAll_of_present
  intro s member
  obtain ⟨other, reached, selected, value⟩ :=
    (mem_updateStores (vm_inStep x) (vm_version x) n s).mp member
  rw [value, present other s.1 reached selected]

/-- A turn after the call's update leaves the bit at a selected level: it does not select the
level, and what it stores there as the P4D has the bit. -/
theorem other_keeps_bit {x : Exchange} {n : Entry} (one : OneLevel (x.vm P c) level a)
    (unselected : marks n.valid level = false)
    (hidden : (x.vm P c).slot level = some a → (x.vm P c).slot .p4d = some a →
      marks n.valid .p4d = true → n.p4d.getLsbD c.bit.val = c.op.value)
    (before : (read64 x.kernel.mem a).getLsbD c.bit.val = c.op.value) :
    (read64 (storeAll x.kernel.mem (updateStores P (x.vm P c) n)) a).getLsbD c.bit.val =
      c.op.value := by
  rw [read64_update_word one n]
  refine lastStore_induction (fun w => w.getLsbD c.bit.val = c.op.value) ?_ (.inl before)
  intro s member here
  rcases updateStores_words one n s member with
    ⟨_, own, other, which, reached, marked, value⟩ | apart
  · rcases which with rfl | rfl
    · rw [unselected] at marked
      cases marked
    · rw [value]
      exact hidden own reached marked
  · exact absurd here apart.ne

theorem other_kept {x : Exchange} {current : Process} {n : Entry}
    (one : OneLevel (x.vm P c) level a) (disjoint : Disjoint c x (.other current n))
    (calm : Calm P c x (.other current n)) (kept : Kept P c level a initial x) :
    Kept P c level a initial (step P c (.other current n) x) := by
  obtain ⟨mem, written⟩ := other_step disjoint (P := P)
  have unchanged := other_unchanged (P := P) disjoint
  obtain ⟨-, -, -, disjoint⟩ := disjoint
  refine ⟨?_, ?_⟩
  · intro unselected
    rw [mem, written, read64_update_word one n, lastStore_append, kept.outside unselected]
  have before := kept.phase
  have samePhase : (step P c (.other current n) x).phase = x.phase := rfl
  simp only [Calm] at calm
  rw [samePhase]
  cases phase : x.phase with
  | start => trivial
  | resolved vm entry =>
      rw [phase] at before
      simp only [phase] at calm
      have steady : x.kernel.Steady (step P c (.other current n) x).kernel :=
        updateVm_steady P current n _ x.kernel
      refine ⟨before.1.trans ?_, ?_⟩
      · exact (resolvedVm_congr P c.current c.address c.pid steady (unchanged calm)).symm
      · rw [unchanged calm]
        exact before.2
  | done vm =>
      rw [phase] at before
      simp only [phase] at calm
      intro selected reached
      rw [mem]
      exact other_keeps_bit one (disjoint level selected) (calm level a selected)
        (before selected reached)

/-- The call's update, from fresh copies: the word keeps its value at a level
outside the mask, and has the bit at a selected one. -/
theorem sentBack_kept {x : Exchange} (one : OneLevel (x.vm P c) level a)
    (due : ∀ level slot, (x.vm P c).Owns level slot →
      edits c.pagingDefinition c.levels (lastCopy (x.vm P c) level) = marks c.levels level ∨
        (read64 x.kernel.mem slot).getLsbD c.bit.val = c.op.value) :
    let sent := sentBack c.pagingDefinition c.op c.bit c.levels c.address c.pid x.kernel.mem
      (x.vm P c)
    let after := read64 (storeAll x.kernel.mem (updateStores P (x.vm P c) sent)) a
    (marks c.levels level = false → after = read64 x.kernel.mem a) ∧
      (marks c.levels level = true → (x.vm P c).slot level = some a →
        after.getLsbD c.bit.val = c.op.value) := by
  intro sent after
  by_cases reached : (x.vm P c).slot level = some a
  · have changed : after = if marks c.levels level then c.op.change c.bit (read64 x.kernel.mem a)
        else read64 x.kernel.mem a :=
      (read64_sentBack _ _ _ _ _ _ _ (vm_inStep x) (vm_version x) one reached).trans
        ((c.op.change_if_iff c.bit _ _ _).mpr (due level a (one.owns reached)))
    rw [changed]
    constructor
    · intro unselected
      rw [unselected]
      rfl
    · intro selected _
      rw [selected, if_pos rfl, c.op.getLsbD_change c.bit _ _ c.bit.isLt, if_pos rfl]
  · have missed : after = read64 x.kernel.mem a := by
      apply read64_storeAll_apart
      intro s member
      rcases updateStores_words one sent s member with ⟨-, own, -⟩ | apart
      · exact absurd own reached
      · exact apart
    exact ⟨fun _ => missed, fun _ own => absurd own reached⟩

theorem call_kept {x : Exchange} (one : OneLevel (x.vm P c) level a) (calm : Calm P c x .call)
    (kept : Kept P c level a initial x) : Kept P c level a initial (step P c .call x) := by
  have before := kept.phase
  simp only [Calm] at calm
  simp only [step, callStep]
  cases phase : x.phase with
  | start =>
      have quiet := resolve_quiet P c.current (Entry.zeroed c.address c.pid) x.kernel
      refine ⟨?_, ?_, ?_⟩
      · intro unselected
        rw [quiet.mem_eq]
        exact kept.outside unselected
      · exact (resolvedVm_congr P c.current c.address c.pid quiet.steady quiet.mem_eq).symm
      · rw [quiet.mem_eq]
        exact ioctlVmResolve_vm P c.current (Entry.zeroed c.address c.pid) x.kernel
  | resolved vm entry =>
      rw [phase] at before
      simp only [phase] at calm
      obtain ⟨rfl, rfl⟩ := before
      have mem := ioctlVmUpdate_sentBack c.pagingDefinition c.op c.bit c.levels c.address c.pid
        x.kernel.mem P c.current (x.vm P c) x.kernel
      obtain ⟨same, changed⟩ := sentBack_kept one calm
      refine ⟨?_, ?_⟩
      · intro unselected
        exact (congrArg (read64 · a) mem).trans
          ((same unselected).trans (kept.outside unselected))
      · intro selected reached
        exact (congrArg (fun m => (read64 m a).getLsbD c.bit.val) mem).trans
          (changed selected reached)
  | done vm =>
      rw [phase] at before
      exact ⟨kept.outside, by rw [phase]; exact before⟩

end Slot

/-! ## Whole runs -/

section Run

variable {P : Platform} {c : Call}

def Phase.vm? : Phase → Option Vm
  | .start => none
  | .resolved vm _ => some vm
  | .done vm => some vm

/-- They are the pointers of some state of the run. -/
theorem phase_vm_mem_states (turns : List Turn) {x : Exchange} {vm : Vm}
    (reached : (run (step P c) turns x).phase.vm? = some vm) :
    x.phase.vm? = some vm ∨ ∃ y ∈ states (step P c) turns x, vm = y.vm P c := by
  induction turns generalizing x with
  | nil => exact .inl reached
  | cons turn rest ih =>
      rcases ih reached with here | ⟨y, member, same⟩
      · cases turn with
        | other current n => exact .inl here
        | call =>
            simp only [step, callStep] at here
            cases phase : x.phase with
            | start =>
                simp only [phase, Phase.vm?, Option.some.injEq] at here
                exact .inr ⟨x, first_mem_states _ x, here.symm⟩
            | resolved vm' entry =>
                simp only [phase, Phase.vm?] at here
                exact .inl here
            | done vm' =>
                simp only [phase, Phase.vm?] at here
                exact .inl here
      · exact .inr ⟨y, List.mem_cons_of_mem _ member, same⟩

/-- The state in which the call has not begun and the other client has stored
nothing. -/
structure NotBegun (x : Exchange) : Prop where
  phase : x.phase = .start
  written : x.written = []

theorem kept_of_calm {turns : List Turn} {x : Exchange} (notBegun : NotBegun x)
    (distinct : DistinctSlots P c (states (step P c) turns x))
    (disjoint : Guarded (step P c) (Disjoint c) turns x)
    (calm : Guarded (step P c) (Calm P c) turns x) {y : Exchange}
    (member : y ∈ states (step P c) turns x) {level : Level} {a : Word}
    (owns : (y.vm P c).Owns level a) :
    Kept P c level a (read64 x.kernel.mem a) (run (step P c) turns x) := by
  have one : Guarded (step P c) (fun z _ => OneLevel (z.vm P c) level a) turns x := by
    apply guarded_of_states
    intro z memberZ
    exact distinct y member z memberZ level a owns
  refine run_induction _ _ ?_ ((one.and disjoint).and calm) ?_
  · rintro z turn kept ⟨⟨oneZ, disjointZ⟩, calmZ⟩
    cases turn with
    | call => exact call_kept oneZ calmZ kept
    | other current n => exact other_kept oneZ disjointZ calmZ kept
  · refine ⟨?_, ?_⟩
    · intro _
      rw [notBegun.written]
      rfl
    · rw [notBegun.phase]
      trivial

/-- **Calm runs lose nothing.**  In any order of the call's two requests and the
other client's updates in which every turn is calm, a slot at a level outside the
mask holds what the other client stored there last, and once the call is through,
every level that was selected and valid has its bit. -/
theorem no_lost_update_of_calm (turns : List Turn) {x : Exchange} (notBegun : NotBegun x)
    (distinct : DistinctSlots P c (states (step P c) turns x))
    (disjoint : Guarded (step P c) (Disjoint c) turns x)
    (calm : Guarded (step P c) (Calm P c) turns x) :
    let last := run (step P c) turns x
    (∀ y ∈ states (step P c) turns x, ∀ level slot, marks c.levels level = false →
      (y.vm P c).Owns level slot →
        read64 last.kernel.mem slot = lastStore last.written slot (read64 x.kernel.mem slot)) ∧
    (∀ vm level slot, last.phase = .done vm → marks c.levels level = true →
      vm.Owns level slot → (read64 last.kernel.mem slot).getLsbD c.bit.val = c.op.value) := by
  intro last
  constructor
  · intro y member level slot unselected owns
    exact (kept_of_calm notBegun distinct disjoint calm member owns).outside unselected
  · intro vm level slot done selected owns
    have answered : last.phase.vm? = some vm := by rw [done]; rfl
    rcases phase_vm_mem_states turns answered with early | ⟨y, member, rfl⟩
    · rw [notBegun.phase] at early
      cases early
    · have kept := (kept_of_calm notBegun distinct disjoint calm member owns).phase
      rw [show (run (step P c) turns x).phase = _ from done] at kept
      exact kept selected owns.1

/-- On a folded walk the four levels are the only ones to have slots of their own. -/
theorem oneLevel_of_owns {vm : Vm} (folded : Folded vm) (apart : FourSlotsApart vm) {level : Level}
    {a : Word} (owns : vm.Owns level a) : OneLevel vm level a := by
  apply apart.oneLevel folded _ owns.1
  rintro rfl
  exact absurd (owns.2 rfl .pgd (folded a owns.1)) (by decide)

/-- While the pointers stay the same, distinct means distinct once. -/
theorem distinctSlots_of_constant {xs : List Exchange} {vm : Vm}
    (constant : xs.map (fun x => x.vm P c) = List.replicate xs.length vm) (folded : Folded vm)
    (apart : FourSlotsApart vm) : DistinctSlots P c xs := by
  have same : ∀ x ∈ xs, x.vm P c = vm := by
    intro x member
    have inMap := List.mem_map_of_mem (f := fun x : Exchange => x.vm P c) member
    rw [constant] at inMap
    exact List.eq_of_mem_replicate inMap
  intro x memberX y memberY level a owns
  rw [same x memberX] at owns
  rw [same y memberY]
  exact oneLevel_of_owns folded apart owns

/-- `ptedit_set_bit(0, 0, 9, PTEDIT_VALID_MASK_PTE)` on the machine with one page. -/
def onePageCall : Call where
  current := onePageProcess
  address := 0
  pid := 0
  op := .set
  bit := 9
  levels := Level.pte.mask
  pagingDefinition := .x86_64

/-- Another thread of the process sets bit 9 of the PMD, and nothing else. -/
def onePageOther : Turn :=
  .other onePageProcess
    { pid := 0, vaddr := 0, pgd := 0, p4d := 0, pud := 0, pmd := 0x4207, pte := 0,
      valid := Level.pmd.mask }

def onePageStart : Exchange := ⟨onePageKernel, .start, []⟩

theorem onePageOther_disjoint (x : Exchange) : Disjoint onePageCall x onePageOther := by
  refine ⟨rfl, rfl, rfl, ?_⟩
  intro level selected
  cases level <;> first | rfl | exact absurd selected (by decide)

/-- Updates before and after the call: the PMD and the PTE both end with bit 9. -/
theorem no_lost_update_onePage :
    let last := run (step fourLevelPlatform onePageCall) [onePageOther, .call, .call, onePageOther]
      onePageStart
    read64 last.kernel.mem 0x3000 = 0x4207 ∧ (read64 last.kernel.mem 0x4000).getLsbD 9 = true := by
  have constant : (states (step fourLevelPlatform onePageCall)
      [onePageOther, .call, .call, onePageOther] onePageStart).map
        (fun x => x.vm fourLevelPlatform onePageCall) =
      List.replicate 5 (resolvedVm fourLevelPlatform onePageProcess 0 0 onePageKernel) := by
    decide +kernel
  have due : ∀ level, edits .x86_64 Level.pte.mask (lastCopy (Exchange.vm fourLevelPlatform
      onePageCall (run (step fourLevelPlatform onePageCall) [onePageOther, .call] onePageStart))
      level) = marks Level.pte.mask level := by
    intro level
    cases level <;> decide +kernel
  obtain ⟨outside, selected⟩ := no_lost_update_of_calm
    [onePageOther, .call, .call, onePageOther] (x := onePageStart) ⟨rfl, rfl⟩
    (distinctSlots_of_constant constant folded_onePage fourSlotsApart_onePage)
    ⟨onePageOther_disjoint _, trivial, trivial, onePageOther_disjoint _, trivial⟩
    ⟨trivial, trivial, fun level _ _ => .inl (due level), fun _ _ _ _ _ p4d =>
      absurd p4d (by decide), trivial⟩
  constructor
  · rw [outside onePageStart (first_mem_states _ _) .pmd 0x3000 (by decide)
      ⟨congrArg (Vm.slot · .pmd) resolvedVm_onePage, nofun⟩]
    decide +kernel
  · exact selected _ .pte 0x4000 rfl (by decide) ⟨by decide +kernel, nofun⟩

/-- An update served between the call's two requests: the PMD keeps its three
fields, the slots are distinct, and yet the store is gone in the end. -/
theorem staleCopy_undoes_update :
    let turns := [Turn.call, onePageOther, Turn.call]
    let last := run (step fourLevelPlatform onePageCall) turns onePageStart
    DistinctSlots fourLevelPlatform onePageCall
        (states (step fourLevelPlatform onePageCall) turns onePageStart) ∧
      Guarded (step fourLevelPlatform onePageCall) (Disjoint onePageCall) turns onePageStart ∧
      (isPresent .x86_64 0x4207 = isPresent .x86_64 0x4007 ∧ castSize 0x4207 = castSize 0x4007 ∧
        castPfn .x86_64 0x4207 = castPfn .x86_64 0x4007) ∧
      (onePageStart.vm fourLevelPlatform onePageCall).slot .pmd = some 0x3000 ∧
      read64 onePageStart.kernel.mem 0x3000 = 0x4007 ∧
      lastStore last.written 0x3000 0x4007 = 0x4207 ∧ read64 last.kernel.mem 0x3000 = 0x4007 := by
  have constant : (states (step fourLevelPlatform onePageCall)
      [.call, onePageOther, .call] onePageStart).map
        (fun x => x.vm fourLevelPlatform onePageCall) =
      List.replicate 4 (resolvedVm fourLevelPlatform onePageProcess 0 0 onePageKernel) := by
    decide +kernel
  refine ⟨distinctSlots_of_constant constant folded_onePage fourSlotsApart_onePage,
    ⟨trivial, onePageOther_disjoint _, trivial, trivial⟩, ?_, ?_, ?_, ?_, ?_⟩ <;> decide +kernel

/-- Served without interruption, the two requests are the library's call. -/
theorem bitCall_eq_run {s : System} (resolve : s.lib.resolve = some .kernel)
    (update : s.lib.update = some .kernel) (op : BitOp) (addr : Word) (pid : BitVec 32)
    (bit : Fin 64) (levels : Word) :
    op.call P addr pid bit levels s =
      some { s with
        kernel := (run (step P ⟨s.current, addr, pid.signExtend 64, op, bit, levels,
          s.lib.pagingDefinition⟩) [.call, .call] ⟨s.kernel, .start, []⟩).kernel } := by
  cases op <;>
    simp only [BitOp.call, pteditSetBit, pteditClearBit, levelsEdit, pteditResolve, resolve,
      Option.bind_some, pteditUpdate, pteditResolveKernel, update, pteditUpdateKernel, run, step,
      callStep] <;>
    rfl

end Run

end PTEditor.Linux.LostUpdate
