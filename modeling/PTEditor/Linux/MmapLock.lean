/-
# PTEditor.Linux.MmapLock -- who holds the mmap locks, over whole sessions

`VM_LOCK` takes the locks of the caller's address space and sets one flag for the
whole device; from then on no request locks anything, whichever process it names,
until a `VM_UNLOCK`, which gives back the locks of *its* caller.  Nothing happens
when the device is closed.

A `Session` is the kernel and a ghost: the `VM_LOCK` still to be undone.  As long
as every unlock comes from the address space that locked, the hold counts are
exactly those of that request (`Accounted`).  From there:

* `accesses_protected`: accesses happen under the lock of the address space they
  touch, if requests stay with the locked one;
* `locks_balanced_iff`: the locks balance, exactly if unlocks and releases pair up
  with the locks;
* `unblocked_iff`: a process waits for itself at every `VM_LOCK` it gets through
  with, and nowhere else.
-/
import PTEditor.Library.X86Walk
import PTEditor.Module.Locks
import PTEditor.Theory.Runs

namespace PTEditor.Linux.MmapLock

open PTEditor.Theory.ByteMemory PTEditor.Theory.Traces PTEditor.Theory.Runs
open PTEditor.Interface PTEditor.Module PTEditor.Library.X86Walk

set_option autoImplicit false

/-! ## Sessions -/

/-- A `VM_LOCK` that returned 0: the address space it locked, and what it did. -/
structure Taken where
  mm : Mm
  events : List Event

structure Session where
  kernel : Kernel
  /-- The last `VM_LOCK` that returned 0, unless a `VM_UNLOCK` has returned 0 since. -/
  taken : Option Taken

/-- Any process may issue any request; opening and closing happen at any time. -/
inductive Action where
  | deviceOpen
  | ioctl (current : Process) (request : Request)
  | deviceRelease

/-- What a request does to the ghost. -/
def Session.note (P : Platform) (s : Session) (current : Process) (request : Request) :
    Option Taken :=
  let result := deviceIoctl P current request s.kernel
  match request with
  | .vmLock =>
      if result.1 = 0 then some ⟨current.owner, newEvents s.kernel result.2.2⟩ else s.taken
  | .vmUnlock => if result.1 = 0 then none else s.taken
  | _ => s.taken

def step (P : Platform) : Action → Session → Session
  | .deviceOpen, s => { s with kernel := (deviceOpen s.kernel).2 }
  | .ioctl current request, s =>
      ⟨(deviceIoctl P current request s.kernel).2.2, s.note P current request⟩
  | .deviceRelease, s => { s with kernel := (deviceRelease s.kernel).2 }

structure JustLoaded (s : Session) : Prop where
  unlocked : s.kernel.mmIsLocked = false
  trace : s.kernel.trace = []
  taken : s.taken = none

/-! ## Accounting for the holds -/

/-- The holds of `mm` that the session owes back. -/
def Session.held (s : Session) (mm : Mm) : Int :=
  if s.taken.map Taken.mm = some mm then 1 else 0

/-- The flag, the ghost and the hold counts agree. -/
structure Accounted (s : Session) : Prop where
  flag : s.kernel.mmIsLocked = s.taken.isSome
  events : ∀ t ∈ s.taken, t.events = [.writeLock t.mm, .readLock t.mm]
  read : ∀ mm, readHolds mm s.kernel.trace = s.held mm
  write : ∀ mm, writeHolds mm s.kernel.trace = s.held mm

/-- Unlocks come from the address space that locked. -/
def UnlocksOwn (s : Session) : Action → Prop
  | .ioctl current .vmUnlock => ∀ t ∈ s.taken, t.mm = current.owner
  | _ => True

section Accounting

variable {P : Platform} {s : Session}

theorem JustLoaded.accounted (loaded : JustLoaded s) : Accounted s := by
  obtain ⟨unlocked, trace, taken⟩ := loaded
  refine ⟨?_, ?_, ?_, ?_⟩
  · rw [unlocked, taken]
    rfl
  · intro t member
    rw [taken] at member
    cases member
  · intro mm
    simp [trace, Session.held, taken]
  · intro mm
    simp [trace, Session.held, taken]

theorem Session.held_nonneg (s : Session) (mm : Mm) : 0 ≤ s.held mm := by
  unfold Session.held
  split <;> omega

theorem Accounted.free (accounted : Accounted s) (unlocked : s.kernel.mmIsLocked = false) :
    s.taken = none ∧ ∀ mm, s.held mm = 0 := by
  have taken : s.taken = none := by
    have flag := accounted.flag
    rw [unlocked] at flag
    exact Option.isSome_eq_false_iff.mp flag.symm |> Option.isNone_iff_eq_none.mp
  refine ⟨taken, fun mm => ?_⟩
  simp [Session.held, taken]

theorem Accounted.locked (accounted : Accounted s) (locked : s.kernel.mmIsLocked = true) :
    ∃ t, s.taken = some t ∧ t.events = [.writeLock t.mm, .readLock t.mm] ∧
      ∀ mm, s.held mm = if t.mm = mm then 1 else 0 := by
  have flag := accounted.flag
  rw [locked] at flag
  obtain ⟨t, taken⟩ := Option.isSome_iff_exists.mp flag.symm
  refine ⟨t, taken, accounted.events t taken, fun mm => ?_⟩
  simp [Session.held, taken]

/-- What a request does before it locks leaves the accounts as they are. -/
theorem Accounted.afterEarly (accounted : Accounted s) {current : Process} {request : Request}
    {early rest : List Event} (shape : RequestShape P current s.kernel request early rest)
    (mm : Mm) :
    readHolds mm (s.kernel.trace ++ early) = s.held mm ∧
      writeHolds mm (s.kernel.trace ++ early) = s.held mm := by
  obtain ⟨read, write⟩ := holds_accesses shape.early_isAccess mm
  rw [readHolds_append, writeHolds_append, accounted.read mm, accounted.write mm, read, write]
  omega

/-- A request that takes no lock for later leaves the accounts as they are. -/
theorem Accounted.ioctl (accounted : Accounted s) (current : Process) {request : Request}
    (notLocking : request.isLocking = false) : Accounted (step P (.ioctl current request) s) := by
  have note : s.note P current request = s.taken := by
    cases request with
    | vmLock | vmUnlock => cases notLocking
    | _ => rfl
  have trace := deviceIoctl_trace P current s.kernel request
  have holds : ∀ mm, readHolds mm (requestEvents P current s.kernel request) = 0 ∧ _ :=
    requestEvents_holds notLocking
  refine ⟨?_, ?_, ?_, ?_⟩
  · show (deviceIoctl P current request s.kernel).2.2.mmIsLocked = (s.note P current request).isSome
    rw [deviceIoctl_locked P current s.kernel notLocking, note]
    exact accounted.flag
  · show ∀ t ∈ s.note P current request, t.events = _
    rw [note]
    exact accounted.events
  · intro mm
    show readHolds mm (deviceIoctl P current request s.kernel).2.2.trace = _
    rw [trace, readHolds_append, (holds mm).1, accounted.read mm]
    simp [Session.held, step, note]
  · intro mm
    show writeHolds mm (deviceIoctl P current request s.kernel).2.2.trace = _
    rw [trace, writeHolds_append, (holds mm).2, accounted.write mm]
    simp [Session.held, step, note]

theorem Accounted.vmLock (accounted : Accounted s) (current : Process) :
    Accounted (step P (.ioctl current .vmLock) s) := by
  cases flag : s.kernel.mmIsLocked with
  | true =>
      have same : step P (.ioctl current .vmLock) s = s := by
        simp [step, Session.note, deviceIoctl, ioctlVmLock, flag]
      rw [same]
      exact accounted
  | false =>
      obtain ⟨-, held⟩ := accounted.free flag
      have events : requestEvents P current s.kernel .vmLock =
          [.writeLock current.owner, .readLock current.owner] := by
        simp [requestEvents, flag]
      have taken : (step P (.ioctl current .vmLock) s).taken = some ⟨current.owner,
          [.writeLock current.owner, .readLock current.owner]⟩ := by
        have returned : (deviceIoctl P current .vmLock s.kernel).1 = 0 := by
          simp [deviceIoctl, ioctlVmLock, flag]
        simp [step, Session.note, returned, newEvents_deviceIoctl, events]
      have trace : (step P (.ioctl current .vmLock) s).kernel.trace = s.kernel.trace ++ _ :=
        deviceIoctl_trace P current s.kernel .vmLock
      refine ⟨?_, ?_, ?_, ?_⟩
      · rw [taken]
        simp [step, deviceIoctl, ioctlVmLock, flag]
      · rw [taken]
        rintro t ⟨⟩
        rfl
      · intro mm
        rw [trace, readHolds_append, accounted.read mm, held mm, events, Session.held, taken]
        simp [Event.readDelta]
      · intro mm
        rw [trace, writeHolds_append, accounted.write mm, held mm, events, Session.held, taken]
        simp [Event.writeDelta]

theorem Accounted.vmUnlock (accounted : Accounted s) {current : Process}
    (own : ∀ t ∈ s.taken, t.mm = current.owner) :
    Accounted (step P (.ioctl current .vmUnlock) s) := by
  cases flag : s.kernel.mmIsLocked with
  | false =>
      have same : step P (.ioctl current .vmUnlock) s = s := by
        simp [step, Session.note, deviceIoctl, ioctlVmUnlock, flag]
      rw [same]
      exact accounted
  | true =>
      obtain ⟨t, owed, -, held⟩ := accounted.locked flag
      have owner := own t owed
      have events : requestEvents P current s.kernel .vmUnlock =
          [.writeUnlock current.owner, .readUnlock current.owner] := by
        simp [requestEvents, flag]
      have taken : (step P (.ioctl current .vmUnlock) s).taken = none := by
        simp [step, Session.note, deviceIoctl, ioctlVmUnlock, flag]
      have trace : (step P (.ioctl current .vmUnlock) s).kernel.trace = s.kernel.trace ++ _ :=
        deviceIoctl_trace P current s.kernel .vmUnlock
      refine ⟨?_, ?_, ?_, ?_⟩
      · rw [taken]
        simp [step, deviceIoctl, ioctlVmUnlock, flag]
      · rw [taken]
        rintro t ⟨⟩
      · intro mm
        rw [trace, readHolds_append, accounted.read mm, held mm, events, Session.held, taken, owner]
        simp only [readHolds_cons, readHolds_nil, Event.readDelta]
        split <;> simp
      · intro mm
        rw [trace, writeHolds_append, accounted.write mm, held mm, events, Session.held, taken,
          owner]
        simp only [writeHolds_cons, writeHolds_nil, Event.writeDelta]
        split <;> simp

/-- One step keeps the accounts. -/
theorem Accounted.step (accounted : Accounted s) {action : Action} (own : UnlocksOwn s action) :
    Accounted (step P action s) := by
  cases action with
  | deviceOpen =>
      simp only [MmapLock.step, deviceOpen]
      cases s.kernel.deviceBusy with
      | false => exact ⟨accounted.flag, accounted.events, accounted.read, accounted.write⟩
      | true => exact accounted
  | deviceRelease => exact ⟨accounted.flag, accounted.events, accounted.read, accounted.write⟩
  | ioctl current request =>
      cases request with
      | vmLock => exact accounted.vmLock current
      | vmUnlock => exact accounted.vmUnlock own
      | _ => exact accounted.ioctl current rfl

/-- A fact about every event that each request keeps up, as long as the accounts are
in order, holds of the whole trace. -/
theorem run_throughout {guard : Session → Action → Prop} {fact : List Event → Event → Prop}
    (own : ∀ s action, guard s action → UnlocksOwn s action)
    (requests : ∀ s current request, Accounted s → guard s (.ioctl current request) →
      Throughout fact s.kernel.trace (requestEvents P current s.kernel request))
    (loaded : JustLoaded s) {actions : List Action} (guarded : Guarded (step P) guard actions s) :
    Throughout fact [] (run (step P) actions s).kernel.trace := by
  have kept := run_induction guard
    (fun s => Accounted s ∧ Throughout fact [] s.kernel.trace) ?_ guarded
    ⟨loaded.accounted, by rw [loaded.trace]; trivial⟩
  · exact kept.2
  · rintro s action ⟨accounted, sofar⟩ met
    refine ⟨accounted.step (own s action met), ?_⟩
    cases action with
    | deviceOpen =>
        simp only [MmapLock.step, deviceOpen]
        cases s.kernel.deviceBusy <;> exact sofar
    | deviceRelease => exact sofar
    | ioctl current request =>
        show Throughout fact [] (deviceIoctl P current request s.kernel).2.2.trace
        rw [deviceIoctl_trace, throughout_append]
        exact ⟨sofar, requests s current request accounted met⟩

end Accounting

/-! ## Accesses under the lock -/

/-- A store needs the write lock of the address space, a read either lock. -/
def Protected (before : List Event) : Event → Prop
  | .load mm => 0 < readHolds mm before ∨ 0 < writeHolds mm before
  | .store mm _ _ | .storeRoot mm _ => 0 < writeHolds mm before
  | _ => True

/-- While the device is locked, requests keep to the address space that locked it;
and `GET_ROOT` on aarch64, which looks before it locks, waits until then. -/
def StaysOwn (P : Platform) (s : Session) : Action → Prop
  | .ioctl current request =>
      (∀ t ∈ s.taken, ∀ mm ∈ request.target current s.kernel, mm = t.mm) ∧
        (request.readsEarly P = true →
          ∀ mm ∈ request.target current s.kernel, ∃ t ∈ s.taken, t.mm = mm)
  | _ => True

section Accesses

variable {P : Platform} {s : Session}

/-- What stands inside a bracket is protected by its lock. -/
theorem within_protected {mode : Mode} {mm : Mm} {event : Event}
    (within : event.Within mode mm) {before : List Event}
    (held : 0 < readHolds mm before ∨ 0 < writeHolds mm before)
    (writeHeld : mode = .write → 0 < writeHolds mm before) : Protected before event := by
  cases event with
  | readLock | readUnlock | writeLock | writeUnlock => cases within
  | load m =>
      have same : m = mm := within
      rw [same]
      exact held
  | store m slot value =>
      obtain ⟨write, same⟩ : mode = .write ∧ m = mm := within
      rw [same]
      exact writeHeld write
  | storeRoot m root =>
      obtain ⟨write, same⟩ : mode = .write ∧ m = mm := within
      rw [same]
      exact writeHeld write
  | invalidateTlb => trivial

/-- A bracket protects its body: by the lock it takes, or by one taken before. -/
theorem bracket_protected {before : List Event} {lock : Bool} {mode : Mode} {mm : Mm}
    {body : List Event} (within : ∀ event ∈ body, event.Within mode mm)
    (read : readHolds mm before = if lock then 0 else 1)
    (write : writeHolds mm before = if lock then 0 else 1) :
    Throughout Protected before (bracket lock mode mm body) := by
  refine (throughout_bracket before lock mode mm body).mpr ⟨?_, ?_, ?_⟩
  · intro
    cases mode <;> trivial
  · refine throughout_of_forall fun earlier sub event member => ?_
    obtain ⟨readBody, writeBody⟩ :=
      holds_accesses (fun e found => (within e (sub found)).isAccess) mm
    apply within_protected (within event member)
    · rw [readHolds_append, readHolds_append, writeHolds_append, writeHolds_append, readBody,
        writeBody, read, write]
      cases lock <;> cases mode <;>
        simp [Mode.lock, Event.readDelta, Event.writeDelta]
    · rintro rfl
      rw [writeHolds_append, writeHolds_append, writeBody, write]
      cases lock <;> simp [Mode.lock, Event.writeDelta]
  · intro
    cases mode <;> trivial

/-- One request accesses what its locks cover. -/
theorem requestEvents_protected (accounted : Accounted s) {current : Process} {request : Request}
    (stays : StaysOwn P s (.ioctl current request)) :
    Throughout Protected s.kernel.trace (requestEvents P current s.kernel request) := by
  cases locking : request.isLocking with
  | true =>
      cases request with
      | vmLock =>
          simp only [requestEvents]
          split <;> simp [Protected]
      | vmUnlock =>
          simp only [requestEvents]
          split <;> simp [Protected]
      | _ => cases locking
  | false =>
      obtain ⟨early, rest, shape⟩ := requestEvents_shape P current s.kernel locking
      rw [shape.events, throughout_append]
      constructor
      · rcases shape.early with rfl | ⟨mm, target, reads, rfl⟩
        · trivial
        · obtain ⟨t, taken, same⟩ := stays.2 reads mm target
          have held : s.held mm = 1 := by
            rw [Option.mem_def] at taken
            simp [Session.held, taken, same]
          refine ⟨.inl ?_, trivial⟩
          rw [accounted.read mm, held]
          omega
      · rcases shape.rest with rfl | ⟨_, rfl⟩ | ⟨mm, mode, body, target, within, rfl⟩
        · trivial
        · exact ⟨trivial, trivial⟩
        · have held : s.held mm = if !s.kernel.mmIsLocked then 0 else 1 := by
            cases flag : s.kernel.mmIsLocked with
            | false => exact (accounted.free flag).2 mm
            | true =>
                obtain ⟨t, taken, -, held⟩ := accounted.locked flag
                rw [held mm, stays.1 t taken mm target]
                simp
          obtain ⟨read, write⟩ := accounted.afterEarly shape mm
          exact bracket_protected within (read.trans held) (write.trans held)

/-- **Accesses are protected.**  In every run in which `VM_UNLOCK`s come from the
address space that locked, and requests made while the device is locked keep to
it, each page-table access happens under the lock of the address space it
touches. -/
theorem accesses_protected (P : Platform) {s : Session} (loaded : JustLoaded s) {actions : List Action}
    (unlocksOwn : Guarded (step P) UnlocksOwn actions s)
    (staysOwn : Guarded (step P) (StaysOwn P) actions s) :
    Throughout Protected [] (run (step P) actions s).kernel.trace := by
  refine run_throughout (fun _ _ met => met.1) ?_ loaded (unlocksOwn.and staysOwn)
  rintro s current request accounted ⟨-, stays⟩
  exact requestEvents_protected accounted stays

def onePageSession : Session := ⟨onePageKernel, none⟩

theorem onePageSession_justLoaded : JustLoaded onePageSession := ⟨rfl, rfl, rfl⟩

theorem otherPid_ne : (2 : BitVec 32) ≠ 0 := by decide

def otherProcess : Process := Process.of 2 1 otherPid_ne

/-- Process 1 locks, resolves an address of its own and unlocks; then it sets the
root of process 2. -/
theorem accesses_protected_own :
    Throughout Protected [] (run (step fourLevelPlatform)
      [.ioctl onePageProcess .vmLock, .ioctl onePageProcess (.vmResolve (Entry.zeroed 0 1)),
        .ioctl onePageProcess .vmUnlock, .ioctl onePageProcess (.setRoot 2 0x9000)]
      onePageSession).kernel.trace := by
  refine accesses_protected fourLevelPlatform onePageSession_justLoaded ?_ ?_
  · refine ⟨trivial, trivial, ?_, trivial, trivial⟩
    rintro t ⟨⟩
    rfl
  · refine ⟨⟨?_, ?_⟩, ⟨?_, ?_⟩, ⟨?_, ?_⟩, ⟨?_, ?_⟩, trivial⟩
    · rintro t ⟨⟩
    · rintro ⟨⟩
    · rintro t ⟨⟩ mm ⟨⟩
      rfl
    · rintro ⟨⟩
    · rintro t ⟨⟩ mm ⟨⟩
    · rintro ⟨⟩
    · rintro t ⟨⟩
    · rintro ⟨⟩

/-- Process 1 locks and sets the root of process 2: only the first address space is
locked, the store goes to the second. -/
theorem accesses_unprotected :
    JustLoaded onePageSession ∧
      ¬ Throughout Protected [] (run (step fourLevelPlatform)
        [.ioctl onePageProcess .vmLock, .ioctl onePageProcess (.setRoot 2 0x9000)]
        onePageSession).kernel.trace := by
  refine ⟨onePageSession_justLoaded, ?_⟩
  have trace : (run (step fourLevelPlatform)
      [.ioctl onePageProcess .vmLock, .ioctl onePageProcess (.setRoot 2 0x9000)]
      onePageSession).kernel.trace = [.writeLock 0, .readLock 0, .storeRoot 1 0x9000] := by
    decide +kernel
  rw [trace]
  rintro ⟨-, -, stored, -⟩
  have held : writeHolds 1 [.writeLock 0, .readLock 0] = 0 := by decide
  have positive : 0 < writeHolds 1 [.writeLock 0, .readLock 0] := stored
  omega

end Accesses

/-! ## Balance -/

/-- What each step should do to the locks: most requests leave the counts as they
are, an unlock gives back what the last lock took, and a release leaves nothing
taken. -/
def Balanced (P : Platform) (s : Session) : Action → Prop
  | .deviceOpen => True
  | .deviceRelease =>
      let k := (deviceRelease s.kernel).2
      (∀ mm, readHolds mm k.trace = 0 ∧ writeHolds mm k.trace = 0) ∧ k.mmIsLocked = false
  | .ioctl _ .vmLock => True
  | .ioctl current .vmUnlock =>
      let result := deviceIoctl P current .vmUnlock s.kernel
      result.1 = 0 → ∃ t ∈ s.taken, t.mm = current.owner ∧ ∀ mm,
        readHolds mm (newEvents s.kernel result.2.2) = -readHolds mm t.events ∧
          writeHolds mm (newEvents s.kernel result.2.2) = -writeHolds mm t.events
  | .ioctl current request =>
      let k := (deviceIoctl P current request s.kernel).2.2
      ∀ mm, readHolds mm k.trace = readHolds mm s.kernel.trace ∧
        writeHolds mm k.trace = writeHolds mm s.kernel.trace

def NonNegative (before : List Event) (event : Event) : Prop :=
  ∀ mm, 0 ≤ readHolds mm (before ++ [event]) ∧ 0 ≤ writeHolds mm (before ++ [event])

/-- Unlocks come from the address space that locked, and nothing is locked when the
device is closed. -/
def Paired (s : Session) : Action → Prop
  | .ioctl current .vmUnlock => ∀ t ∈ s.taken, t.mm = current.owner
  | .deviceRelease => s.kernel.mmIsLocked = false
  | _ => True

section Balance

variable {P : Platform} {s : Session}

theorem Paired.unlocksOwn {action : Action} (paired : Paired s action) : UnlocksOwn s action := by
  cases action with
  | deviceOpen | deviceRelease => trivial
  | ioctl current request =>
      cases request with
      | vmUnlock => exact paired
      | _ => trivial

/-- An unlock gives back what was taken exactly if it comes from where it was taken. -/
theorem balanced_vmUnlock_iff (accounted : Accounted s) (current : Process) :
    Balanced P s (.ioctl current .vmUnlock) ↔ ∀ t ∈ s.taken, t.mm = current.owner := by
  simp only [Balanced, newEvents_deviceIoctl]
  cases flag : s.kernel.mmIsLocked with
  | false =>
      rw [(accounted.free flag).1]
      simp [deviceIoctl, ioctlVmUnlock, flag]
  | true =>
      obtain ⟨t, taken, events, -⟩ := accounted.locked flag
      have returned : (deviceIoctl P current .vmUnlock s.kernel).1 = 0 := by
        simp [deviceIoctl, ioctlVmUnlock, flag]
      simp only [taken, Option.mem_def, Option.some.injEq, exists_eq_left', forall_eq', returned,
        forall_const, and_iff_left_iff_imp]
      intro owner mm
      simp only [events, owner, requestEvents, flag, if_true, readHolds_cons, readHolds_nil,
        writeHolds_cons, writeHolds_nil, Event.readDelta, Event.writeDelta]
      split <;> omega

/-- **One step.**  While the accounts are in order, a step does to the locks what it
should exactly if it is paired. -/
theorem balanced_iff_paired (accounted : Accounted s) (action : Action) :
    Balanced P s action ↔ Paired s action := by
  have unchanged : ∀ current request, Request.isLocking request = false → ∀ mm,
      readHolds mm (deviceIoctl P current request s.kernel).2.2.trace =
          readHolds mm s.kernel.trace ∧
        writeHolds mm (deviceIoctl P current request s.kernel).2.2.trace =
          writeHolds mm s.kernel.trace := by
    intro current request notLocking mm
    obtain ⟨read, write⟩ := requestEvents_holds notLocking mm
    rw [deviceIoctl_trace, readHolds_append, writeHolds_append, read, write]
    omega
  cases action with
  | deviceOpen => exact Iff.rfl
  | deviceRelease =>
      simp only [Balanced, Paired, deviceRelease]
      constructor
      · exact fun balanced => balanced.2
      · intro unlocked
        obtain ⟨-, held⟩ := accounted.free unlocked
        refine ⟨fun mm => ?_, unlocked⟩
        rw [accounted.read mm, accounted.write mm, held mm]
        exact ⟨rfl, rfl⟩
  | ioctl current request =>
      cases request with
      | vmLock => exact Iff.rfl
      | vmUnlock => exact balanced_vmUnlock_iff accounted current
      | _ => exact iff_of_true (unchanged current _ rfl) trivial

/-- Events that release nothing make no count negative. -/
theorem rising_nonNegative {before body : List Event}
    (rises : ∀ event ∈ body, ∀ mm, 0 ≤ event.readDelta mm ∧ 0 ≤ event.writeDelta mm)
    (nonneg : ∀ mm, 0 ≤ readHolds mm before ∧ 0 ≤ writeHolds mm before) :
    Throughout NonNegative before body := by
  induction body generalizing before with
  | nil => trivial
  | cons event rest ih =>
      have after : NonNegative before event := by
        intro mm
        have start := nonneg mm
        have added := rises event List.mem_cons_self mm
        simp only [readHolds_append, writeHolds_append, readHolds_cons, writeHolds_cons,
          readHolds_nil, writeHolds_nil]
        omega
      exact ⟨after, ih (fun e member => rises e (List.mem_cons_of_mem _ member)) after⟩

/-- Accesses keep the counts where they are. -/
theorem accesses_nonNegative {before body : List Event}
    (accesses : ∀ event ∈ body, event.isAccess = true)
    (nonneg : ∀ mm, 0 ≤ readHolds mm before ∧ 0 ≤ writeHolds mm before) :
    Throughout NonNegative before body := by
  refine rising_nonNegative ?_ nonneg
  intro event member mm
  rw [readDelta_access mm (accesses event member), writeDelta_access mm (accesses event member)]
  omega

theorem Mode.lock_holds (mode : Mode) (target mm : Mm) :
    0 ≤ readHolds mm [mode.lock target] ∧ 0 ≤ writeHolds mm [mode.lock target] := by
  cases mode <;> simp only [Mode.lock, readHolds_cons, readHolds_nil, writeHolds_cons,
    writeHolds_nil, Event.readDelta, Event.writeDelta] <;> split <;> omega

theorem bracket_nonNegative {before body : List Event}
    (accesses : ∀ event ∈ body, event.isAccess = true)
    (nonneg : ∀ mm, 0 ≤ readHolds mm before ∧ 0 ≤ writeHolds mm before) (lock : Bool) (mode : Mode)
    (target : Mm) : Throughout NonNegative before (bracket lock mode target body) := by
  refine (throughout_bracket before lock mode target body).mpr ⟨?_, ?_, ?_⟩
  · intro _ mm
    have added := Mode.lock_holds mode target mm
    have start := nonneg mm
    rw [readHolds_append, writeHolds_append]
    omega
  · refine accesses_nonNegative accesses fun mm => ?_
    have added := Mode.lock_holds mode target mm
    have start := nonneg mm
    rw [readHolds_append, writeHolds_append]
    cases lock with
    | false => simpa using start
    | true =>
        simp only [if_true]
        omega
  · rintro rfl mm
    obtain ⟨read, write⟩ := bracket_holds accesses true mode target mm
    have start := nonneg mm
    have whole : before ++ [mode.lock target] ++ body ++ [mode.unlock target] =
        before ++ bracket true mode target body := by
      simp [bracket]
    simp only [if_true]
    rw [whole, readHolds_append, writeHolds_append, read, write]
    omega

theorem Accounted.nonneg (accounted : Accounted s) (mm : Mm) :
    0 ≤ readHolds mm s.kernel.trace ∧ 0 ≤ writeHolds mm s.kernel.trace := by
  rw [accounted.read mm, accounted.write mm]
  exact ⟨s.held_nonneg mm, s.held_nonneg mm⟩

theorem vmLock_nonNegative (accounted : Accounted s) (current : Process) :
    Throughout NonNegative s.kernel.trace (requestEvents P current s.kernel .vmLock) := by
  refine rising_nonNegative ?_ accounted.nonneg
  intro event member mm
  simp only [requestEvents] at member
  split at member
  · cases member
  · simp only [List.mem_cons, List.not_mem_nil, or_false] at member
    rcases member with rfl | rfl
    · exact ⟨le_rfl, by simp only [Event.writeDelta]; split <;> omega⟩
    · exact ⟨by simp only [Event.readDelta]; split <;> omega, le_rfl⟩

/-- The address space that locked has one of each to give back. -/
theorem vmUnlock_nonNegative (accounted : Accounted s) {current : Process}
    (own : UnlocksOwn s (.ioctl current .vmUnlock)) :
    Throughout NonNegative s.kernel.trace (requestEvents P current s.kernel .vmUnlock) := by
  simp only [requestEvents]
  split
  · rename_i locked
    obtain ⟨t, taken, -, held⟩ := accounted.locked locked
    have owner := own t taken
    refine ⟨fun mm => ?_, fun mm => ?_, trivial⟩
    · simp only [readHolds_append, writeHolds_append, readHolds_cons, writeHolds_cons,
        readHolds_nil, writeHolds_nil, Event.readDelta, Event.writeDelta, accounted.read mm,
        accounted.write mm, held mm, owner]
      split <;> omega
    · simp only [readHolds_append, writeHolds_append, readHolds_cons, writeHolds_cons,
        readHolds_nil, writeHolds_nil, Event.readDelta, Event.writeDelta, accounted.read mm,
        accounted.write mm, held mm, owner]
      split <;> omega
  · trivial

theorem requestEvents_nonNegative (accounted : Accounted s) {current : Process}
    {request : Request} (own : UnlocksOwn s (.ioctl current request)) :
    Throughout NonNegative s.kernel.trace (requestEvents P current s.kernel request) := by
  cases locking : request.isLocking with
  | false =>
      obtain ⟨early, rest, shape⟩ := requestEvents_shape P current s.kernel locking
      have afterEarly : ∀ mm, 0 ≤ readHolds mm (s.kernel.trace ++ early) ∧
          0 ≤ writeHolds mm (s.kernel.trace ++ early) := by
        intro mm
        obtain ⟨read, write⟩ := accounted.afterEarly shape mm
        rw [read, write]
        exact ⟨s.held_nonneg mm, s.held_nonneg mm⟩
      rw [shape.events, throughout_append]
      refine ⟨accesses_nonNegative shape.early_isAccess accounted.nonneg, ?_⟩
      rcases shape.rest with rfl | ⟨addr, rfl⟩ | ⟨mm, mode, body, -, within, rfl⟩
      · trivial
      · exact accesses_nonNegative (by simp [Event.isAccess]) afterEarly
      · exact bracket_nonNegative (fun event member => (within event member).isAccess) afterEarly
          _ _ _
  | true =>
      cases request with
      | vmLock => exact vmLock_nonNegative accounted current
      | vmUnlock => exact vmUnlock_nonNegative accounted own
      | _ => cases locking

/-- **Locks are balanced.**  Every step of a run does to the locks what it should,
and no count is ever negative, exactly if every unlock comes from the address
space that locked and the device is never closed while it is locked. -/
theorem locks_balanced_iff (P : Platform) {s : Session} (loaded : JustLoaded s)
    (actions : List Action) :
    (Guarded (step P) (Balanced P) actions s ∧
      Throughout NonNegative [] (run (step P) actions s).kernel.trace) ↔
      Guarded (step P) Paired actions s := by
  have steps : Guarded (step P) (Balanced P) actions s ↔ Guarded (step P) Paired actions s :=
    guarded_iff Accounted (fun _ action accounted => balanced_iff_paired accounted action)
      (fun _ _ accounted paired => accounted.step paired.unlocksOwn) loaded.accounted
  rw [steps, and_iff_left_iff_imp]
  exact run_throughout (fun _ _ paired => paired.unlocksOwn)
    (fun _ _ _ accounted paired => requestEvents_nonNegative accounted paired.unlocksOwn) loaded

/-- Process 1 locks, sets a root, unlocks and closes the device. -/
theorem locks_balanced_own :
    Throughout NonNegative [] (run (step fourLevelPlatform)
      [.ioctl onePageProcess .vmLock, .ioctl onePageProcess (.setRoot 1 0x9000),
        .ioctl onePageProcess .vmUnlock, .deviceRelease] onePageSession).kernel.trace := by
  refine ((locks_balanced_iff fourLevelPlatform onePageSession_justLoaded _).mpr ?_).2
  refine ⟨trivial, trivial, ?_, ?_, trivial⟩
  · rintro t ⟨⟩
    rfl
  · exact rfl

/-- Process 1 locks and process 2 unlocks: a count becomes negative, and the locks of
process 1 stay taken.  And a device that is closed while it is locked stays
locked. -/
theorem locks_unbalanced :
    (JustLoaded onePageSession ∧ ¬ Throughout NonNegative [] (run (step fourLevelPlatform)
      [.ioctl onePageProcess .vmLock, .ioctl otherProcess .vmUnlock]
      onePageSession).kernel.trace) ∧
    ¬ Guarded (step fourLevelPlatform) (Balanced fourLevelPlatform)
      [.ioctl onePageProcess .vmLock, .deviceRelease] onePageSession := by
  refine ⟨⟨onePageSession_justLoaded, ?_⟩, ?_⟩
  · have trace : (run (step fourLevelPlatform)
        [.ioctl onePageProcess .vmLock, .ioctl otherProcess .vmUnlock]
        onePageSession).kernel.trace =
          [.writeLock 0, .readLock 0, .writeUnlock 1, .readUnlock 1] := by
      decide +kernel
    rw [trace]
    rintro ⟨-, -, unlocked, -⟩
    have negative : writeHolds 1 [.writeLock 0, .readLock 0, .writeUnlock 1] = -1 := by decide
    have nonneg : 0 ≤ writeHolds 1 [.writeLock 0, .readLock 0, .writeUnlock 1] := (unlocked 1).2
    omega
  · rintro ⟨-, ⟨-, unlocked⟩, -⟩
    cases unlocked

end Balance

/-! ## Waiting for oneself -/

/-- An acquisition that what is held already does not block: a reader waits for a
writer, a writer for anybody. -/
def Unblocked (before : List Event) : Event → Prop
  | .readLock mm => ¬ 0 < writeHolds mm before
  | .writeLock mm => ¬ 0 < readHolds mm before ∧ ¬ 0 < writeHolds mm before
  | _ => True

section Waiting

variable {P : Platform} {s : Session} {current : Process}

/-- Accesses acquire nothing. -/
theorem accesses_unblocked {body : List Event} (accesses : ∀ event ∈ body, event.isAccess = true)
    (before : List Event) : Throughout Unblocked before body := by
  refine throughout_of_forall fun _ _ event member => ?_
  have access := accesses event member
  cases event with
  | readLock | readUnlock | writeLock | writeUnlock => cases access
  | load | store | storeRoot | invalidateTlb => trivial

/-- A request that takes no lock for later finds every lock it takes free. -/
theorem requestEvents_unblocked (accounted : Accounted s) {request : Request}
    (notLocking : request.isLocking = false) :
    Throughout Unblocked s.kernel.trace (requestEvents P current s.kernel request) := by
  obtain ⟨early, rest, shape⟩ := requestEvents_shape P current s.kernel notLocking
  rw [shape.events, throughout_append]
  refine ⟨accesses_unblocked shape.early_isAccess _, ?_⟩
  rcases shape.rest with rfl | ⟨addr, rfl⟩ | ⟨mm, mode, body, -, within, rfl⟩
  · trivial
  · exact accesses_unblocked (by simp [Event.isAccess]) _
  · refine (throughout_bracket _ _ _ _ _).mpr ⟨?_, ?_, ?_⟩
    · -- the bracket locks only while nothing is held
      intro locks
      have unlocked : s.kernel.mmIsLocked = false := by simpa using locks
      obtain ⟨-, held⟩ := accounted.free unlocked
      obtain ⟨readFree, writeFree⟩ := accounted.afterEarly shape mm
      rw [held mm] at readFree writeFree
      cases mode with
      | read =>
          show ¬ 0 < writeHolds mm (s.kernel.trace ++ early)
          omega
      | write =>
          show ¬ 0 < readHolds mm (s.kernel.trace ++ early) ∧
            ¬ 0 < writeHolds mm (s.kernel.trace ++ early)
          omega
    · exact accesses_unblocked (fun event member => (within event member).isAccess) _
    · intro
      cases mode <;> trivial

/-- A `VM_LOCK` that is let through takes the write lock and then waits for it as a
reader. -/
theorem vmLock_blocked (accounted : Accounted s) (unlocked : s.kernel.mmIsLocked = false) :
    ¬ Throughout Unblocked s.kernel.trace (requestEvents P current s.kernel .vmLock) := by
  obtain ⟨-, held⟩ := accounted.free unlocked
  simp only [requestEvents, unlocked, Bool.false_eq_true, if_false]
  rintro ⟨-, blocked, -⟩
  apply blocked
  rw [writeHolds_append, accounted.write, held]
  simp [Event.writeDelta]

/-- In a run of one process, whatever is taken is taken on its own address space. -/
theorem run_accounted (loaded : JustLoaded s) (current : Process) (requests : List Request) :
    Accounted (run (step P) (requests.map (.ioctl current)) s) := by
  have own : ∀ s : Session, Accounted s ∧ (∀ t ∈ s.taken, t.mm = current.owner) →
      ∀ requests : List Request, Accounted (run (step P) (requests.map (.ioctl current)) s) := by
    intro s start requests
    induction requests generalizing s with
    | nil => exact start.1
    | cons request rest ih =>
        refine ih _ ⟨start.1.step ?_, ?_⟩
        · cases request with
          | vmUnlock => exact start.2
          | _ => trivial
        · show ∀ t ∈ s.note P current request, t.mm = current.owner
          cases request with
          | vmLock =>
              simp only [Session.note]
              split
              · rintro t ⟨⟩
                rfl
              · exact start.2
          | vmUnlock =>
              simp only [Session.note]
              split
              · rintro t ⟨⟩
              · exact start.2
          | _ => exact start.2
  refine own s ⟨loaded.accounted, ?_⟩ requests
  rw [loaded.taken]
  rintro t ⟨⟩

/-- **Which requests wait for themselves.**  After any requests of one process,
acquisitions let through, a further request of the process makes no acquisition
that the process blocks itself, exactly if it is not a `VM_LOCK` on an unlocked
device. -/
theorem unblocked_iff (P : Platform) {s : Session} (loaded : JustLoaded s) (current : Process)
    (requests : List Request) (request : Request) :
    let k := (run (step P) (requests.map (.ioctl current)) s).kernel
    Throughout Unblocked k.trace (newEvents k (deviceIoctl P current request k).2.2) ↔
      ¬ (request = .vmLock ∧ k.mmIsLocked = false) := by
  intro k
  have accounted : Accounted (run (step P) (requests.map (.ioctl current)) s) :=
    run_accounted loaded current requests
  rw [newEvents_deviceIoctl]
  cases locking : request.isLocking with
  | false =>
      refine iff_of_true (requestEvents_unblocked accounted locking) ?_
      rintro ⟨rfl, -⟩
      cases locking
  | true =>
      cases request with
      | vmLock =>
          cases flag : k.mmIsLocked with
          | false =>
              refine iff_of_false (vmLock_blocked accounted flag) ?_
              exact fun other => other ⟨rfl, rfl⟩
          | true =>
              refine iff_of_true ?_ (by simp)
              simp only [requestEvents, flag, if_true]
              trivial
      | vmUnlock =>
          refine iff_of_true ?_ (by simp)
          simp only [requestEvents]
          split <;> simp [Unblocked]
      | _ => cases locking

/-- A process that has resolved an address may update it. -/
theorem unblocked_update :
    let k := (run (step fourLevelPlatform)
      ([.vmResolve (Entry.zeroed 0 1)].map (.ioctl onePageProcess)) onePageSession).kernel
    Throughout Unblocked k.trace (newEvents k
      (deviceIoctl fourLevelPlatform onePageProcess (.vmUpdate (Entry.zeroed 0 1)) k).2.2) := by
  refine (unblocked_iff fourLevelPlatform onePageSession_justLoaded onePageProcess _ _).mpr ?_
  rintro ⟨⟨⟩, -⟩

/-- The first `VM_LOCK` of a process waits for itself. -/
theorem vmLock_waits_for_itself :
    JustLoaded onePageSession ∧
      ¬ Throughout Unblocked onePageSession.kernel.trace (newEvents onePageSession.kernel
        (deviceIoctl fourLevelPlatform onePageProcess .vmLock onePageSession.kernel).2.2) := by
  refine ⟨onePageSession_justLoaded, ?_⟩
  have events : newEvents onePageSession.kernel
      (deviceIoctl fourLevelPlatform onePageProcess .vmLock onePageSession.kernel).2.2 =
        [.writeLock 0, .readLock 0] := by
    decide +kernel
  rw [events]
  rintro ⟨-, blocked, -⟩
  exact blocked (by decide)

end Waiting

end PTEditor.Linux.MmapLock
