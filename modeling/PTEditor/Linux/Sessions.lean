/-
# PTEditor.Linux.Sessions -- who has the device open

The device can be open once: `device_open` refuses while `device_busy` is set, and
`device_release` clears it.  The kernel calls `device_release` when the last descriptor of
the open file is gone, so what happens to descriptors decides: `fork` copies them, `exec`
keeps them (the library opens the device without `O_CLOEXEC`), `exit` closes them, and
`ptedit_cleanup` closes the one that the process's `ptedit_fd` names.

* `init_succeeds_iff`: over any run of processes that come and go, `ptedit_init` succeeds
  exactly if no process has a descriptor of the device, and `ptedit_cleanup` gives the device
  back exactly if every descriptor of it is the one in the caller's `ptedit_fd`;
* `lost_descriptor_locks_out`: a process that calls `ptedit_init` once more, or `exec`, while
  it has a descriptor other than 0, can close it no more; whatever any process calls, every
  `ptedit_init` fails until it exits.
-/
import PTEditor.Library.Implementations

namespace PTEditor.Linux.Sessions

open PTEditor.Theory.Runs PTEditor.Theory.ByteMemory PTEditor.Module PTEditor.Library
open PTEditor.Library.Implementations PTEditor.Library.X86Walk

set_option autoImplicit false

abbrev Pid := BitVec 32

/-- A descriptor of a process, and the open file of the device behind it. -/
structure Descriptor where
  process : Pid
  fd : Int
  file : Nat
  deriving DecidableEq, Repr

structure Session where
  kernel : Kernel
  /-- The variables of `ptedit.c`, of which each process has its own. -/
  lib : Pid → LibraryState
  descriptors : List Descriptor
  /-- How often the device has been opened. -/
  opened : Nat

inductive Action where
  /-- `ptedit_init`, with the numbers that `open` would return and what `getpagesize` returns;
  a negative `fd` is an `open` that does not get as far as the device. -/
  | init (caller : Process) (fd umem : Int) (getpagesize : Word)
  | cleanup (caller : Process)
  | request (caller : Process) (request : Request)
  | fork (parent : Process) (child : Pid)
  | exec (process : Pid)
  | exit (process : Pid)

section Step

variable (P : Platform)

def setLib (process : Pid) (lib : LibraryState) (s : Session) : Session :=
  { s with lib := fun p => if p = process then lib else s.lib p }

/-- Descriptors are closed; the device is released with the last one of its open file. -/
def close (closed : Descriptor → Bool) (s : Session) : Session :=
  let rest := s.descriptors.filter fun d => !closed d
  let last := s.descriptors.any fun d => closed d && rest.all fun other => other.file != d.file
  { s with
    descriptors := rest
    kernel := if last then (deviceRelease s.kernel).2 else s.kernel }

def init (caller : Process) (fd umem : Int) (getpagesize : Word) (s : Session) : Int × Session :=
  let device := if fd < 0 then (-1, s.kernel) else deviceOpen s.kernel
  let fd := if device.1 < 0 then -1 else fd
  let result := pteditInit P fd umem getpagesize ⟨s.lib caller.pid, device.2, caller⟩
  let after := setLib caller.pid result.2.lib { s with kernel := result.2.kernel }
  (result.1,
    if device.1 < 0 then after
    else
      { after with
        descriptors := ⟨caller.pid, fd, s.opened⟩ :: s.descriptors
        opened := s.opened + 1 })

def closedBy (caller : Process) (s : Session) (d : Descriptor) : Bool :=
  d.process == caller.pid && (pteditCleanup ⟨s.lib caller.pid, s.kernel, caller⟩).contains d.fd

def step : Action → Session → Session
  | .init caller fd umem getpagesize, s => (init P caller fd umem getpagesize s).2
  | .cleanup caller, s => close (closedBy caller s) s
  | .request caller request, s =>
      { s with kernel := (deviceIoctl P caller request s.kernel).2.2 }
  | .fork parent child, s =>
      let copies := s.descriptors.filter fun d => d.process == parent.pid
      setLib child (s.lib parent.pid)
        { s with descriptors := copies.map (fun d => { d with process := child }) ++ s.descriptors }
  | .exec process, s => setLib process zeroedLibrary s
  | .exit process, s => close (fun d => d.process == process) s

end Step

/-- What the kernel sees to: two descriptors that a process opens have different numbers, and a
child has a pid that no one else has. -/
def Sees (s : Session) : Action → Prop
  | .init _ fd umem _ => 0 ≤ fd → fd ≠ umem
  | .fork _ child => ∀ d ∈ s.descriptors, d.process ≠ child
  | _ => True

def boot (kernel : Kernel) : Session :=
  ⟨{ kernel with deviceBusy := false }, fun _ => zeroedLibrary, [], 0⟩

/-! ## What the calls do to `device_busy` -/

section Busy

variable {P : Platform}

theorem steady_busy {k k' : Kernel} (steady : k.Steady k') : k'.deviceBusy = k.deviceBusy := by
  obtain ⟨_, _, _, rfl⟩ := steady
  rfl

/-- No request touches `device_busy`. -/
theorem deviceIoctl_busy (P : Platform) (current : Process) (request : Request) (k : Kernel) :
    (deviceIoctl P current request k).2.2.deviceBusy = k.deviceBusy := by
  cases request with
  | vmResolve vm => exact steady_busy (resolve_quiet P current vm k).steady
  | vmUpdate vm => exact steady_busy (updateVm_steady P current vm _ k)
  | vmLock =>
      simp only [deviceIoctl, ioctlVmLock]
      split <;> rfl
  | vmUnlock =>
      simp only [deviceIoctl, ioctlVmUnlock]
      split <;> rfl
  | getRoot pid root => exact steady_busy (getRoot_quiet P current pid root k).steady
  | setRoot pid root =>
      simp only [deviceIoctl, ioctlSetRoot]
      split
      · rfl
      · rename_i mm named
        have locked := steady_busy (k.quiet_emitIf (!k.mmIsLocked) (.writeLock mm)).steady
        refine (steady_busy (Kernel.quiet_emitIf _ _ _).steady).trans ?_
        exact locked
  | invalidateTlb addr => exact steady_busy (Kernel.invalidateTlb_steady k P current addr)
  | setPat pat =>
      simp only [deviceIoctl, setPat]
      split <;> rfl
  | switchTlbInvalidation method =>
      simp only [deviceIoctl, ioctlSwitchTlbInvalidation]
      split
      · rfl
      · split <;> rfl
  | readPage | writePage | getPagesize | getPat | unknown => rfl

theorem pteditInit_busy (fd umem : Int) (getpagesize : Word) (t : System) :
    (pteditInit P fd umem getpagesize t).2.kernel.deviceBusy = t.kernel.deviceBusy := by
  by_cases failed : fd < 0
  · simp [pteditInit, failed]
  · by_cases pages : initDefinition P t.kernel.realPageSize = .aarch64Pages16k
    · simp only [pteditInit, failed, if_false, pteditUseImplementation, if_true, pages,
        Int.one_ne_zero, pteditGetPagingRoot]
      exact deviceIoctl_busy P _ _ _
    · simp [pteditInit, failed, pteditUseImplementation, pages]

theorem pteditInit_fd (fd umem : Int) (getpagesize : Word) (t : System) :
    (pteditInit P fd umem getpagesize t).2.lib.fd = fd := by
  by_cases failed : fd < 0
  · simp [pteditInit, failed]
  · by_cases pages : initDefinition P t.kernel.realPageSize = .aarch64Pages16k <;>
      simp [pteditInit, failed, pteditUseImplementation, pages]

theorem pteditInit_umem (fd umem : Int) (getpagesize : Word) (t : System) :
    (pteditInit P fd umem getpagesize t).2.lib.umem = if fd < 0 then t.lib.umem else umem := by
  by_cases failed : fd < 0
  · simp [pteditInit, failed]
  · by_cases pages : initDefinition P t.kernel.realPageSize = .aarch64Pages16k <;>
      simp [pteditInit, failed, pteditUseImplementation, pages]

theorem pteditInit_answer (fd umem : Int) (getpagesize : Word) (t : System) :
    (pteditInit P fd umem getpagesize t).1 = if fd < 0 then -1 else 0 := by
  by_cases failed : fd < 0 <;> simp [pteditInit, failed]

end Busy

/-! ## The two outcomes of `ptedit_init` -/

section Init

variable (P : Platform) {s : Session} (caller : Process) {fd : Int} (umem : Int)

/-- An `open` that fails, before the device or at it, leaves the descriptors alone, and `-1` in
`ptedit_fd`. -/
theorem init_fails (getpagesize : Word) (blocked : fd < 0 ∨ s.kernel.deviceBusy = true) :
    let result := init P caller fd umem getpagesize s
    result.1 = -1 ∧ result.2.descriptors = s.descriptors ∧
      result.2.kernel.deviceBusy = s.kernel.deviceBusy ∧
      ∀ p, (result.2.lib p).umem = (s.lib p).umem ∧
        (result.2.lib p).fd = if p = caller.pid then -1 else (s.lib p).fd := by
  intro result
  obtain ⟨error, negative, device⟩ : ∃ error : Int, error < 0 ∧
      (if fd < 0 then (-1, s.kernel) else deviceOpen s.kernel) = (error, s.kernel) := by
    by_cases early : fd < 0
    · exact ⟨-1, by decide, if_pos early⟩
    · have busy := blocked.resolve_left early
      exact ⟨-16, by decide, by rw [if_neg early, deviceOpen, if_pos busy]⟩
  simp only [result, init, device, if_pos negative, pteditInit_answer, setLib, pteditInit_busy]
  refine ⟨by decide, trivial, trivial, fun p => ?_⟩
  by_cases own : p = caller.pid
  · subst own
    simp only [if_true, pteditInit_umem, pteditInit_fd]
    exact ⟨rfl, trivial⟩
  · simp only [if_neg own, and_self]

/-- An `open` that succeeds. -/
theorem init_opens (getpagesize : Word) (opens : 0 ≤ fd) (free : s.kernel.deviceBusy = false) :
    let result := init P caller fd umem getpagesize s
    result.1 = 0 ∧ result.2.descriptors = ⟨caller.pid, fd, s.opened⟩ :: s.descriptors ∧
      result.2.kernel.deviceBusy = true ∧
      ∀ p, (result.2.lib p).umem = (if p = caller.pid then umem else (s.lib p).umem) ∧
        (result.2.lib p).fd = if p = caller.pid then fd else (s.lib p).fd := by
  intro result
  have device : (if fd < 0 then (-1, s.kernel) else deviceOpen s.kernel) =
      (0, { s.kernel with deviceBusy := true }) := by
    rw [if_neg (by omega), deviceOpen, free]
    rfl
  simp only [result, init, device, Int.lt_irrefl, if_false, pteditInit_answer, setLib,
    pteditInit_busy, if_neg (show ¬ fd < 0 by omega)]
  refine ⟨trivial, trivial, trivial, fun p => ?_⟩
  by_cases own : p = caller.pid
  · subst own
    simp only [if_true, pteditInit_umem, pteditInit_fd, if_neg (show ¬ fd < 0 by omega), and_self]
  · simp only [if_neg own, and_self]

end Init

/-! ## The device is open once -/

/-- What every reachable state keeps. -/
structure Exclusive (s : Session) : Prop where
  busy : s.kernel.deviceBusy = true ↔ s.descriptors ≠ []
  once : ∀ d ∈ s.descriptors, ∀ e ∈ s.descriptors, d.file = e.file
  opened : ∀ d ∈ s.descriptors, 0 ≤ d.fd
  /-- `ptedit_umem` names another descriptor. -/
  umem : ∀ d ∈ s.descriptors, 0 < (s.lib d.process).umem → (s.lib d.process).umem ≠ d.fd

theorem boot_exclusive (kernel : Kernel) : Exclusive (boot kernel) := by
  refine ⟨?_, ?_, ?_, ?_⟩
  · simp [boot]
  · intro d member
    cases member
  · intro d member
    cases member
  · intro d member
    cases member

section Invariant

variable {P : Platform} {s : Session}

theorem Exclusive.free (exclusive : Exclusive s) (none : s.descriptors = []) :
    s.kernel.deviceBusy = false := by
  rw [← Bool.not_eq_true, exclusive.busy]
  exact fun some => some none

theorem mem_close {closed : Descriptor → Bool} {d : Descriptor} :
    d ∈ (close closed s).descriptors ↔ d ∈ s.descriptors ∧ closed d = false := by
  simp [close]

/-- Whatever is closed, the device is released with its last descriptor and not before. -/
theorem Exclusive.close (exclusive : Exclusive s) (closed : Descriptor → Bool) :
    Exclusive (close closed s) := by
  have subset : ∀ d ∈ (Sessions.close closed s).descriptors, d ∈ s.descriptors :=
    fun d member => (mem_close.mp member).1
  refine ⟨?_, ?_, fun d member => exclusive.opened d (subset d member),
    fun d member => exclusive.umem d (subset d member)⟩
  · by_cases some : (Sessions.close closed s).descriptors = []
    · -- nothing is left: released, unless it was not open
      cases held : s.descriptors with
      | nil =>
          have free := exclusive.free held
          simp [Sessions.close, held, free]
      | cons d rest =>
          have all : ∀ e ∈ s.descriptors, closed e = true := by
            intro e member
            by_contra open'
            have left : e ∈ (Sessions.close closed s).descriptors :=
              mem_close.mpr ⟨member, by simpa using open'⟩
            rw [some] at left
            cases left
          have first : closed d = true := all d (by rw [held]; exact List.mem_cons_self)
          have empty : s.descriptors.filter (fun e => !closed e) = [] := some
          simp only [Sessions.close, empty, List.all_nil, Bool.and_true, ne_eq, not_true_eq_false,
            iff_false]
          rw [if_pos (by rw [List.any_eq_true]; exact ⟨d, by rw [held]; exact List.mem_cons_self, first⟩)]
          simp [deviceRelease]
    · obtain ⟨e, left⟩ := List.exists_mem_of_ne_nil _ some
      have busy := exclusive.busy.mpr (List.ne_nil_of_mem (subset e left))
      have kept : (s.descriptors.any fun d => closed d &&
          (s.descriptors.filter fun d => !closed d).all fun other => other.file != d.file) =
          false := by
        rw [List.any_eq_false]
        intro d member gone
        rw [Bool.and_eq_true, List.all_eq_true] at gone
        have differ := gone.2 e left
        rw [exclusive.once e (subset e left) d member] at differ
        simp at differ
      simp only [Sessions.close, kept, Bool.false_eq_true, if_false, busy, true_iff]
      exact some
  · intro d member e member'
    exact exclusive.once d (subset d member) e (subset e member')

/-- A child's descriptors are copies of its parent's, and so is what its library remembers. -/
theorem Exclusive.fork (exclusive : Exclusive s) (parent : Process) {child : Pid}
    (new : ∀ d ∈ s.descriptors, d.process ≠ child) :
    Exclusive (Sessions.step P (.fork parent child) s) := by
  have origin : ∀ d ∈ (Sessions.step P (.fork parent child) s).descriptors,
      ∃ e ∈ s.descriptors, d.fd = e.fd ∧ d.file = e.file ∧
        (Sessions.step P (.fork parent child) s).lib d.process = s.lib e.process := by
    intro d member
    rcases List.mem_append.mp member with copy | old
    · obtain ⟨e, found, rfl⟩ := List.mem_map.mp copy
      obtain ⟨held, own⟩ := List.mem_filter.mp found
      refine ⟨e, held, rfl, rfl, ?_⟩
      rw [show e.process = parent.pid by simpa using own]
      exact if_pos rfl
    · exact ⟨d, old, rfl, rfl, if_neg (new d old)⟩
  refine ⟨exclusive.busy.trans ⟨?_, ?_⟩, ?_, ?_, ?_⟩
  · intro some empty
    exact some (List.append_eq_nil_iff.mp empty).2
  · intro some empty
    refine some ?_
    simp [Sessions.step, setLib, empty]
  · intro d member d' member'
    obtain ⟨e, held, -, file, -⟩ := origin d member
    obtain ⟨e', held', -, file', -⟩ := origin d' member'
    rw [file, file']
    exact exclusive.once e held e' held'
  · intro d member
    obtain ⟨e, held, fd, -, -⟩ := origin d member
    rw [fd]
    exact exclusive.opened e held
  · intro d member
    obtain ⟨e, held, fd, -, lib⟩ := origin d member
    rw [fd, lib]
    exact exclusive.umem e held

/-- **One step** keeps the device open at most once, and `device_busy` in step with it. -/
theorem Exclusive.step (exclusive : Exclusive s) {action : Action} (sees : Sees s action) :
    Exclusive (step P action s) := by
  cases action with
  | init caller fd umem getpagesize =>
      by_cases blocked : fd < 0 ∨ s.kernel.deviceBusy = true
      · obtain ⟨-, same, busy, lib⟩ := init_fails P caller umem getpagesize blocked
        refine ⟨?_, ?_, ?_, ?_⟩
        · exact (busy ▸ same ▸ exclusive.busy)
        · exact same ▸ exclusive.once
        · exact same ▸ exclusive.opened
        · intro d member positive
          have before : d ∈ s.descriptors := same ▸ member
          have umemSame : ((Sessions.step P (.init caller fd umem getpagesize) s).lib
              d.process).umem = (s.lib d.process).umem := (lib d.process).1
          rw [umemSame] at positive ⊢
          exact exclusive.umem d before positive
      · rw [not_or, Bool.not_eq_true] at blocked
        obtain ⟨early, free⟩ := blocked
        have none : s.descriptors = [] := by
          by_contra some
          rw [exclusive.busy.mpr some] at free
          cases free
        obtain ⟨-, held, busy, lib⟩ := init_opens P caller umem getpagesize
          (Int.not_lt.mp early) free
        rw [none] at held
        have only : ∀ d ∈ (Sessions.step P (.init caller fd umem getpagesize) s).descriptors,
            d = ⟨caller.pid, fd, s.opened⟩ := fun d member => List.mem_singleton.mp (held ▸ member)
        refine ⟨⟨fun _ => ?_, fun _ => busy⟩, ?_, ?_, ?_⟩
        · intro empty
          exact List.cons_ne_nil _ _ (held.symm.trans empty)
        · intro d member e member'
          rw [only d member, only e member']
        · intro d member
          rw [only d member]
          exact Int.not_lt.mp early
        · intro d member positive
          rw [only d member]
          have umemNew : ((Sessions.step P (.init caller fd umem getpagesize) s).lib
              caller.pid).umem = umem := by
            refine ((lib caller.pid).1).trans (if_pos rfl)
          rw [umemNew]
          exact (sees (Int.not_lt.mp early)).symm
  | cleanup caller => exact exclusive.close _
  | request caller request =>
      exact ⟨(deviceIoctl_busy P caller request s.kernel).symm ▸ exclusive.busy, exclusive.once,
        exclusive.opened, exclusive.umem⟩
  | fork parent child => exact exclusive.fork parent sees
  | exec process =>
      refine ⟨exclusive.busy, exclusive.once, exclusive.opened, ?_⟩
      intro d member positive
      by_cases own : d.process = process
      · have cleared : ((setLib process zeroedLibrary s).lib d.process).umem = 0 := by
          simp [setLib, own, zeroedLibrary]
        have positive : 0 < ((setLib process zeroedLibrary s).lib d.process).umem := positive
        omega
      · have same : (setLib process zeroedLibrary s).lib d.process = s.lib d.process := if_neg own
        have positive : 0 < ((setLib process zeroedLibrary s).lib d.process).umem := positive
        show ((setLib process zeroedLibrary s).lib d.process).umem ≠ d.fd
        rw [same] at positive ⊢
        exact exclusive.umem d member positive
  | exit process => exact exclusive.close _

theorem run_exclusive {actions : List Action} (kernel : Kernel)
    (sees : Guarded (step P) Sees actions (boot kernel)) :
    Exclusive (run (step P) actions (boot kernel)) :=
  run_induction Sees Exclusive (fun _ _ exclusive sees => exclusive.step sees) sees
    (boot_exclusive kernel)

/-- `ptedit_cleanup` closes the descriptor that its `ptedit_fd` names, and no other of the
device. -/
theorem Exclusive.closedBy_iff (exclusive : Exclusive s) {d : Descriptor} (held : d ∈ s.descriptors)
    (caller : Process) :
    closedBy caller s d = true ↔ d.process = caller.pid ∧ d.fd = (s.lib caller.pid).fd := by
  have opened := exclusive.opened d held
  have umem := exclusive.umem d held
  simp only [closedBy, Bool.and_eq_true, beq_iff_eq, List.contains_iff_mem, pteditCleanup,
    List.mem_append]
  constructor
  · rintro ⟨own, named | named⟩
    · refine ⟨own, ?_⟩
      split at named
      · exact List.mem_singleton.mp named
      · cases named
    · exfalso
      rw [own] at umem
      split at named
      · rename_i positive
        exact umem positive (List.mem_singleton.mp named).symm
      · cases named
  · rintro ⟨own, named⟩
    refine ⟨own, .inl ?_⟩
    rw [if_pos (by omega), named]
    exact List.mem_singleton_self _

end Invariant

/-- **When `ptedit_init` succeeds, and when `ptedit_cleanup` gives the device back.** -/
theorem init_succeeds_iff (P : Platform) (kernel : Kernel) {actions : List Action}
    (sees : Guarded (step P) Sees actions (boot kernel)) :
    let s := run (step P) actions (boot kernel)
    (∀ caller fd umem getpagesize,
      (init P caller fd umem getpagesize s).1 = 0 ↔ 0 ≤ fd ∧ s.descriptors = []) ∧
    ∀ caller, (step P (.cleanup caller) s).kernel.deviceBusy = false ↔
      ∀ d ∈ s.descriptors, d.process = caller.pid ∧ d.fd = (s.lib caller.pid).fd := by
  intro s
  have exclusive : Exclusive s := run_exclusive kernel sees
  constructor
  · intro caller fd umem getpagesize
    by_cases blocked : fd < 0 ∨ s.kernel.deviceBusy = true
    · have failed := (init_fails P caller umem getpagesize blocked).1
      rw [failed]
      refine ⟨fun zero => absurd zero (by decide), ?_⟩
      rintro ⟨opens, none⟩
      rcases blocked with early | busy
      · omega
      · exact absurd none (exclusive.busy.mp busy)
    · rw [not_or, Bool.not_eq_true] at blocked
      have opens : 0 ≤ fd := Int.not_lt.mp blocked.1
      have answer := (init_opens P caller umem getpagesize opens blocked.2).1
      refine ⟨fun _ => ⟨opens, ?_⟩, fun _ => answer⟩
      by_contra some
      rw [exclusive.busy.mpr some] at blocked
      exact absurd blocked.2 (by decide)
  · intro caller
    have after : Exclusive (step P (.cleanup caller) s) := exclusive.close _
    rw [← Bool.not_eq_true, after.busy, not_not, List.eq_nil_iff_forall_not_mem]
    constructor
    · intro gone d held
      rw [← exclusive.closedBy_iff held]
      by_contra kept
      exact gone d (mem_close.mpr ⟨held, by simpa using kept⟩)
    · intro own d left
      obtain ⟨held, kept⟩ := mem_close.mp left
      rw [(exclusive.closedBy_iff held caller).mpr (own d held)] at kept
      cases kept

/-- A child keeps the device open when its parent has given it back. -/
theorem init_succeeds_iff_forked :
    let s := run (step fourLevelPlatform) [.init onePageProcess 3 4 4096, .fork onePageProcess 2,
      .cleanup onePageProcess] (boot onePageKernel)
    s.descriptors = [⟨2, 3, 0⟩] ∧ (init fourLevelPlatform onePageProcess 3 4 4096 s).1 ≠ 0 := by
  have opened : (run (step fourLevelPlatform) [.init onePageProcess 3 4 4096]
      (boot onePageKernel)).descriptors = [⟨1, 3, 0⟩] := by decide +kernel
  have sees : Guarded (step fourLevelPlatform) Sees [.init onePageProcess 3 4 4096,
      .fork onePageProcess 2, .cleanup onePageProcess] (boot onePageKernel) := by
    refine ⟨fun _ => by decide, ?_, trivial, trivial⟩
    intro d held
    have held : d ∈ (run (step fourLevelPlatform) [.init onePageProcess 3 4 4096]
      (boot onePageKernel)).descriptors := held
    rw [opened] at held
    rw [List.mem_singleton.mp held]
    decide
  have left : (run (step fourLevelPlatform) [.init onePageProcess 3 4 4096, .fork onePageProcess 2,
      .cleanup onePageProcess] (boot onePageKernel)).descriptors = [⟨2, 3, 0⟩] := by decide +kernel
  refine ⟨left, fun succeeds => ?_⟩
  have empty := (((init_succeeds_iff fourLevelPlatform onePageKernel sees).1 onePageProcess 3 4
    4096).mp succeeds).2
  rw [left] at empty
  cases empty

/-! ## Lost descriptors -/

/-- The process has a descriptor that its library does not know. -/
def Lost (process : Pid) (fd : Int) (s : Session) : Prop :=
  (∃ d ∈ s.descriptors, d.process = process ∧ d.fd = fd) ∧ (s.lib process).fd ≠ fd

/-- The ways to lose one: to open the device once more, and to be replaced by a program that
knows nothing of it. -/
inductive Loses (process : Pid) : Action → Prop
  | again (caller : Process) (fd umem : Int) (getpagesize : Word) :
      caller.pid = process → Loses process (.init caller fd umem getpagesize)
  | exec : Loses process (.exec process)

section Lost

variable {P : Platform} {s : Session} {process : Pid} {fd : Int}

theorem Exclusive.blocked (exclusive : Exclusive s) {d : Descriptor} (held : d ∈ s.descriptors) :
    s.kernel.deviceBusy = true :=
  exclusive.busy.mpr (List.ne_nil_of_mem held)

theorem lost_of_loses (exclusive : Exclusive s) {d : Descriptor} (held : d ∈ s.descriptors)
    (above : 0 < d.fd) {action : Action} (loses : Loses d.process action) :
    Lost d.process d.fd (step P action s) := by
  cases loses with
  | again caller fd umem getpagesize own =>
      obtain ⟨-, same, -, lib⟩ := init_fails P caller umem getpagesize
        (.inr (exclusive.blocked held) : fd < 0 ∨ s.kernel.deviceBusy = true)
      refine ⟨⟨d, ?_, rfl, rfl⟩, ?_⟩
      · exact same.symm ▸ held
      · have unset := (lib d.process).2
        rw [if_pos own.symm] at unset
        have unset : ((step P (.init caller fd umem getpagesize) s).lib d.process).fd = -1 := unset
        omega
  | exec =>
      refine ⟨⟨d, held, rfl, rfl⟩, ?_⟩
      have unset : ((step P (.exec d.process) s).lib d.process).fd = 0 := by
        simp [step, setLib, zeroedLibrary]
      omega

/-- **One step**: only the exit of the process ends it. -/
theorem Lost.step (exclusive : Exclusive s) (above : 0 < fd) (lost : Lost process fd s)
    {action : Action} (sees : Sees s action) (stays : action ≠ .exit process) :
    Lost process fd (step P action s) := by
  obtain ⟨⟨d, held, rfl, rfl⟩, unknown⟩ := lost
  cases action with
  | init caller fd umem getpagesize =>
      obtain ⟨-, same, -, lib⟩ := init_fails P caller umem getpagesize
        (.inr (exclusive.blocked held) : fd < 0 ∨ s.kernel.deviceBusy = true)
      refine ⟨⟨d, ?_, rfl, rfl⟩, ?_⟩
      · exact same.symm ▸ held
      · have now := (lib d.process).2
        have now : ((Sessions.step P (.init caller fd umem getpagesize) s).lib d.process).fd =
            if d.process = caller.pid then -1 else (s.lib d.process).fd := now
        rw [now]
        split
        · omega
        · exact unknown
  | cleanup caller =>
      refine ⟨⟨d, mem_close.mpr ⟨held, ?_⟩, rfl, rfl⟩, unknown⟩
      rw [← Bool.not_eq_true, exclusive.closedBy_iff held]
      rintro ⟨own, named⟩
      rw [← own] at named
      exact unknown named.symm
  | request caller request => exact ⟨⟨d, held, rfl, rfl⟩, unknown⟩
  | fork parent child =>
      refine ⟨⟨d, List.mem_append_right _ held, rfl, rfl⟩, ?_⟩
      have same : (Sessions.step P (.fork parent child) s).lib d.process = s.lib d.process :=
        if_neg (sees d held)
      rw [same]
      exact unknown
  | exec other =>
      refine ⟨⟨d, held, rfl, rfl⟩, ?_⟩
      by_cases own : d.process = other
      · have unset : ((Sessions.step P (.exec other) s).lib d.process).fd = 0 := by
          simp [Sessions.step, setLib, own, zeroedLibrary]
        omega
      · have same : (Sessions.step P (.exec other) s).lib d.process = s.lib d.process := if_neg own
        rw [same]
        exact unknown
  | exit other =>
      refine ⟨⟨d, mem_close.mpr ⟨held, ?_⟩, rfl, rfl⟩, unknown⟩
      rw [beq_eq_false_iff_ne]
      rintro rfl
      exact stays rfl

end Lost

/-- **A lost descriptor locks everyone out**, the process that lost it included, until that
process exits. -/
theorem lost_descriptor_locks_out (P : Platform) (kernel : Kernel) {actions later : List Action}
    (sees : Guarded (step P) Sees actions (boot kernel)) {d : Descriptor}
    (held : d ∈ (run (step P) actions (boot kernel)).descriptors) (above : 0 < d.fd)
    {loss : Action} (loses : Loses d.process loss)
    (after : Guarded (step P) (fun s action => Sees s action ∧ action ≠ .exit d.process)
      (loss :: later) (run (step P) actions (boot kernel))) :
    ∀ t ∈ states (step P) later (step P loss (run (step P) actions (boot kernel))),
      ∀ caller fd umem getpagesize, (init P caller fd umem getpagesize t).1 = -1 := by
  have exclusive := run_exclusive kernel sees
  have lost := lost_of_loses (P := P) exclusive held above loses
  have throughout := states_induction _ (fun t => Exclusive t ∧ Lost d.process d.fd t)
    (fun t action both met =>
      ⟨both.1.step met.1, both.2.step both.1 above met.1 met.2⟩)
    after.2 ⟨exclusive.step after.1.1, lost⟩
  intro t member caller fd umem getpagesize
  obtain ⟨now, ⟨e, still, -, -⟩, -⟩ := throughout t member
  exact (init_fails P caller umem getpagesize (.inr (now.blocked still))).1

/-- After `exec`, the new program's `ptedit_cleanup` and `ptedit_init` change nothing. -/
theorem lost_descriptor_locks_out_exec :
    (init fourLevelPlatform onePageProcess 5 6 4096 (run (step fourLevelPlatform)
      [.init onePageProcess 3 4 4096, .exec 1, .cleanup onePageProcess]
      (boot onePageKernel))).1 = -1 := by
  have opened : (⟨1, 3, 0⟩ : Descriptor) ∈ (run (step fourLevelPlatform)
      [.init onePageProcess 3 4 4096] (boot onePageKernel)).descriptors := by decide +kernel
  have sees : Guarded (step fourLevelPlatform) Sees [.init onePageProcess 3 4 4096]
      (boot onePageKernel) := ⟨fun _ => by decide, trivial⟩
  have after : Guarded (step fourLevelPlatform) (fun s action => Sees s action ∧ action ≠ .exit 1)
      [.exec 1, .cleanup onePageProcess]
      (run (step fourLevelPlatform) [.init onePageProcess 3 4 4096] (boot onePageKernel)) := by
    refine ⟨⟨trivial, ?_⟩, ⟨trivial, ?_⟩, trivial⟩ <;>
      · intro same
        cases same
  have last := List.mem_cons_of_mem (run (step fourLevelPlatform) [.init onePageProcess 3 4 4096,
    .exec 1] (boot onePageKernel)) (List.mem_singleton_self (run (step fourLevelPlatform)
    [.init onePageProcess 3 4 4096, .exec 1, .cleanup onePageProcess] (boot onePageKernel)))
  exact lost_descriptor_locks_out fourLevelPlatform onePageKernel sees opened (by decide) .exec
    after _ last onePageProcess 5 6 4096

end PTEditor.Linux.Sessions
