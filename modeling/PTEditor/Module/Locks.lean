/-
# PTEditor.Module.Locks -- what each request does to the mmap locks

The trace of the kernel lists lock operations and page-table accesses.  From it
the mmap lock of an address space is read off as two hold counts, acquisitions
minus releases (`readHolds`, `writeHolds`); an acquisition always succeeds here.

`requestEvents` is what one request appends to the trace (`deviceIoctl_trace`).
The requests that take a lock do so around their accesses (`bracket`), unless
`mm_is_locked` says that somebody has asked for the lock before; `VM_LOCK` and
`VM_UNLOCK` are the two that leave the counts changed.
-/
import PTEditor.Module.Device
import PTEditor.Theory.Traces

namespace PTEditor.Module

open PTEditor.Theory.ByteMemory PTEditor.Theory.Traces PTEditor.Interface

set_option autoImplicit false

/-! ## Hold counts -/

/-- What an event does to the read holds of `mm`. -/
def Event.readDelta (mm : Mm) : Event → Int
  | .readLock m => if m = mm then 1 else 0
  | .readUnlock m => if m = mm then -1 else 0
  | _ => 0

def Event.writeDelta (mm : Mm) : Event → Int
  | .writeLock m => if m = mm then 1 else 0
  | .writeUnlock m => if m = mm then -1 else 0
  | _ => 0

def readHolds (mm : Mm) (trace : List Event) : Int := total (Event.readDelta mm) trace

def writeHolds (mm : Mm) (trace : List Event) : Int := total (Event.writeDelta mm) trace

section Holds

variable (mm : Mm)

@[simp] theorem readHolds_nil : readHolds mm [] = 0 := rfl

@[simp] theorem writeHolds_nil : writeHolds mm [] = 0 := rfl

@[simp] theorem readHolds_append (first second : List Event) :
    readHolds mm (first ++ second) = readHolds mm first + readHolds mm second :=
  total_append _ first second

@[simp] theorem writeHolds_append (first second : List Event) :
    writeHolds mm (first ++ second) = writeHolds mm first + writeHolds mm second :=
  total_append _ first second

@[simp] theorem readHolds_cons (event : Event) (rest : List Event) :
    readHolds mm (event :: rest) = event.readDelta mm + readHolds mm rest :=
  total_cons _ event rest

@[simp] theorem writeHolds_cons (event : Event) (rest : List Event) :
    writeHolds mm (event :: rest) = event.writeDelta mm + writeHolds mm rest :=
  total_cons _ event rest

end Holds

/-- An event that is not a lock operation. -/
def Event.isAccess : Event → Bool
  | .readLock _ | .readUnlock _ | .writeLock _ | .writeUnlock _ => false
  | _ => true

theorem readDelta_access (mm : Mm) {event : Event} (access : event.isAccess = true) :
    event.readDelta mm = 0 := by
  cases event with
  | readLock | readUnlock | writeLock | writeUnlock => cases access
  | load | store | storeRoot | invalidateTlb => rfl

theorem writeDelta_access (mm : Mm) {event : Event} (access : event.isAccess = true) :
    event.writeDelta mm = 0 := by
  cases event with
  | readLock | readUnlock | writeLock | writeUnlock => cases access
  | load | store | storeRoot | invalidateTlb => rfl

/-- Accesses leave the counts as they are. -/
theorem holds_accesses {body : List Event} (accesses : ∀ event ∈ body, event.isAccess = true)
    (mm : Mm) : readHolds mm body = 0 ∧ writeHolds mm body = 0 := by
  constructor
  · exact total_eq_zero _ fun event member => readDelta_access mm (accesses event member)
  · exact total_eq_zero _ fun event member => writeDelta_access mm (accesses event member)

/-! ## The events of a request -/

inductive Mode where
  | read
  | write
  deriving DecidableEq, Repr

def Mode.lock : Mode → Mm → Event
  | .read => .readLock
  | .write => .writeLock

def Mode.unlock : Mode → Mm → Event
  | .read => .readUnlock
  | .write => .writeUnlock

/-- Accesses between a lock and its unlock, if the request locks at all. -/
def bracket (lock : Bool) (mode : Mode) (mm : Mm) (body : List Event) : List Event :=
  (if lock then [mode.lock mm] else []) ++ body ++ (if lock then [mode.unlock mm] else [])

theorem bracket_holds {body : List Event} (accesses : ∀ event ∈ body, event.isAccess = true)
    (lock : Bool) (mode : Mode) (target mm : Mm) :
    readHolds mm (bracket lock mode target body) = 0 ∧
      writeHolds mm (bracket lock mode target body) = 0 := by
  obtain ⟨read, write⟩ := holds_accesses accesses mm
  cases lock with
  | false => simp [bracket, read, write]
  | true =>
      cases mode <;>
        simp [bracket, Mode.lock, Mode.unlock, Event.readDelta, Event.writeDelta, read, write] <;>
        split <;> omega

theorem throughout_bracket {fact : List Event → Event → Prop} (before : List Event) (lock : Bool)
    (mode : Mode) (mm : Mm) (body : List Event) :
    Throughout fact before (bracket lock mode mm body) ↔
      (lock = true → fact before (mode.lock mm)) ∧
        Throughout fact (before ++ if lock then [mode.lock mm] else []) body ∧
        (lock = true →
          fact (before ++ (if lock then [mode.lock mm] else []) ++ body) (mode.unlock mm)) := by
  cases lock with
  | false => simp [bracket]
  | true => simp [bracket, throughout_append]

/-- The accesses of `update_vm`: its own walk, the stores, the invalidation. -/
def updateAccesses (P : Platform) (k : Kernel) (mm : Mm) (newEntry : Entry) : List Event :=
  .load mm :: (updateStores P (oldEntryOf P k mm newEntry) newEntry).map
    (fun s => .store mm s.1 s.2) ++ [.invalidateTlb newEntry.vaddr]

/-- What a request appends to the trace. -/
def requestEvents (P : Platform) (current : Process) (k : Kernel) : Request → List Event
  | .vmResolve vm =>
      match k.getMm current vm.pid with
      | none => []
      | some mm => bracket (!k.mmIsLocked) .read mm [.load mm]
  | .vmUpdate vm =>
      match k.getMm current vm.pid with
      | none => []
      | some mm => bracket (!k.mmIsLocked) .write mm (updateAccesses P k mm vm)
  | .vmLock => if k.mmIsLocked then [] else [.writeLock current.owner, .readLock current.owner]
  | .vmUnlock =>
      if k.mmIsLocked then [.writeUnlock current.owner, .readUnlock current.owner] else []
  | .getRoot pid _ =>
      match k.getMm current pid with
      | none => []
      | some mm =>
          (if P.arch = .aarch64 then [.load mm] else []) ++
            if rootFromTtbr0 P k (some mm) then [] else bracket (!k.mmIsLocked) .read mm [.load mm]
  | .setRoot pid root =>
      match k.getMm current pid with
      | none => []
      | some mm => bracket (!k.mmIsLocked) .write mm [.storeRoot mm root]
  | .invalidateTlb addr => [.invalidateTlb addr]
  | _ => []

/-! ## The trace of a request -/

section Trace

variable (P : Platform) (current : Process) (k : Kernel)

theorem emit_trace (event : Event) : (k.emit event).trace = k.trace ++ [event] := rfl

theorem emitIf_trace (condition : Bool) (event : Event) :
    (k.emitIf condition event).trace = k.trace ++ if condition then [event] else [] := by
  cases condition with
  | false => exact (List.append_nil _).symm
  | true => rfl

theorem emit_locked (event : Event) : (k.emit event).mmIsLocked = k.mmIsLocked := rfl

theorem emitIf_locked (condition : Bool) (event : Event) :
    (k.emitIf condition event).mmIsLocked = k.mmIsLocked := by
  cases condition <;> rfl

theorem resolveVm_trace (addr pid : Word) (lock : Bool) {mm : Mm}
    (found : k.getMm current pid = some mm) :
    (resolveVm P current addr pid lock k).2.2.trace =
      k.trace ++ bracket lock .read mm [.load mm] := by
  simp only [resolveVm, found, emitIf_trace, emit_trace, bracket, Mode.lock, Mode.unlock,
    List.append_assoc]

theorem setEntry_trace (mm : Mm) (oldEntry : Vm) (newEntry : Entry) (level : Level) :
    (setEntry mm oldEntry newEntry level k).trace =
      k.trace ++ (levelStore oldEntry newEntry level).map (fun s => .store mm s.1 s.2) := by
  simp only [setEntry, levelStore]
  split
  · cases oldEntry.slot level with
    | none => simp
    | some slot => rfl
  · simp

theorem setEntries_trace (mm : Mm) (oldEntry : Vm) (newEntry : Entry) :
    (setEntries P mm oldEntry newEntry k).trace =
      k.trace ++ (updateStores P oldEntry newEntry).map (fun s => .store mm s.1 s.2) := by
  cases version : P.hasP4d with
  | false => simp [setEntries, updateStores, setEntry_trace, version]
  | true => simp [setEntries, updateStores, setEntry_trace, version]

theorem updateVm_trace (newEntry : Entry) (lock : Bool) {mm : Mm}
    (found : k.getMm current newEntry.pid = some mm) :
    (updateVm P current newEntry lock k).2.trace =
      k.trace ++ bracket lock .write mm (updateAccesses P k mm newEntry) := by
  have locked := k.quiet_emitIf lock (.writeLock mm)
  have foundLocked : (k.emitIf lock (.writeLock mm)).getMm current newEntry.pid = some mm := by
    rw [locked.steady.getMm_eq]
    exact found
  have old := resolveVm_vm P current newEntry.vaddr newEntry.pid false
    (k.emitIf lock (.writeLock mm)) foundLocked
  rw [locked.mem_eq, locked.steady.pgd_eq] at old
  have invalidated : ∀ k : Kernel, (k.invalidateTlb P current newEntry.vaddr).trace =
      k.trace ++ [.invalidateTlb newEntry.vaddr] := by
    intro k
    obtain ⟨_, same⟩ := k.invalidateTlb_frame P current newEntry.vaddr
    rw [same]
  simp only [updateVm, found, emitIf_trace, invalidated, setEntries_trace, old,
    resolveVm_trace P current _ _ _ false foundLocked]
  simp [bracket, updateAccesses, oldEntryOf, Mode.lock, Mode.unlock]

theorem getRoot_trace (pid root : Word) :
    (ioctlGetRoot P current pid root k).2.2.trace =
      k.trace ++ requestEvents P current k (.getRoot pid root) := by
  have tested := (testPgd_quiet P k (k.getMm current pid)).steady
  have condition : rootFromTtbr0 P (testPgd P k (k.getMm current pid)) (k.getMm current pid) =
      rootFromTtbr0 P k (k.getMm current pid) := by
    simp only [rootFromTtbr0, tested.pgd_eq]
  simp only [ioctlGetRoot, condition, requestEvents]
  cases found : k.getMm current pid with
  | none => cases arch : P.arch <;> simp [testPgd, rootFromTtbr0, arch]
  | some mm =>
      have inspected : (testPgd P k (some mm)).trace =
          k.trace ++ if P.arch = .aarch64 then [.load mm] else [] := by
        cases arch : P.arch <;> simp [testPgd, arch, emit_trace]
      have lockedSame : (testPgd P k (some mm)).mmIsLocked = k.mmIsLocked := by
        cases arch : P.arch <;> simp [testPgd, arch, emit_locked]
      by_cases fallback : rootFromTtbr0 P k (some mm) = true
      · simp only [fallback, if_true, inspected, List.append_nil]
      · simp only [fallback, Bool.false_eq_true, if_false, emitIf_trace, emit_trace, emit_locked,
          emitIf_locked, inspected, lockedSame, bracket, Mode.lock, Mode.unlock,
          List.append_assoc]

theorem setRoot_trace (pid root : Word) :
    (ioctlSetRoot P current pid root k).2.trace =
      k.trace ++ requestEvents P current k (.setRoot pid root) := by
  simp only [ioctlSetRoot, requestEvents]
  cases k.getMm current pid with
  | none => exact (List.append_nil _).symm
  | some mm =>
      simp only [emitIf_trace, Kernel.emit, emitIf_locked, bracket, Mode.lock, Mode.unlock,
        List.append_assoc]

/-- A request appends its events to the trace and nothing else. -/
theorem deviceIoctl_trace (request : Request) :
    (deviceIoctl P current request k).2.2.trace =
      k.trace ++ requestEvents P current k request := by
  cases request with
  | vmResolve vm =>
      show (resolveVm P current vm.vaddr vm.pid (!k.mmIsLocked) k).2.2.trace = _
      cases found : k.getMm current vm.pid with
      | none => simp [resolveVm, requestEvents, found]
      | some mm =>
          rw [resolveVm_trace P current k _ _ _ found]
          simp only [requestEvents, found]
  | vmUpdate vm =>
      show (updateVm P current vm (!k.mmIsLocked) k).2.trace = _
      cases found : k.getMm current vm.pid with
      | none => simp [updateVm, requestEvents, found]
      | some mm =>
          rw [updateVm_trace P current k vm _ found]
          simp only [requestEvents, found]
  | vmLock =>
      simp only [deviceIoctl, ioctlVmLock, requestEvents]
      cases k.mmIsLocked <;> simp [Kernel.emit]
  | vmUnlock =>
      simp only [deviceIoctl, ioctlVmUnlock, requestEvents]
      cases k.mmIsLocked <;> simp [Kernel.emit]
  | getRoot pid root => exact getRoot_trace P current k pid root
  | setRoot pid root => exact setRoot_trace P current k pid root
  | invalidateTlb addr =>
      obtain ⟨_, same⟩ := k.invalidateTlb_frame P current addr
      simp only [deviceIoctl, same, requestEvents]
  | setPat pat =>
      simp only [deviceIoctl, setPat, requestEvents, List.append_nil]
      cases P.arch <;> rfl
  | switchTlbInvalidation method =>
      simp only [deviceIoctl, ioctlSwitchTlbInvalidation, requestEvents, List.append_nil]
      split
      · rfl
      · split <;> rfl
  | readPage | writePage | getPagesize | getPat | unknown => exact (List.append_nil _).symm

/-- What the trace has gained from one state to a later one. -/
def newEvents (before after : Kernel) : List Event := after.trace.drop before.trace.length

theorem newEvents_deviceIoctl (request : Request) :
    newEvents k (deviceIoctl P current request k).2.2 = requestEvents P current k request := by
  rw [newEvents, deviceIoctl_trace, List.drop_left]

end Trace

/-! ## The shape of a request's events -/

/-- The two requests that leave a lock taken or give one back. -/
def Request.isLocking : Request → Bool
  | .vmLock | .vmUnlock => true
  | _ => false

/-- The address space whose page tables a request accesses. -/
def Request.target (current : Process) (k : Kernel) : Request → Option Mm
  | .vmResolve vm | .vmUpdate vm => k.getMm current vm.pid
  | .getRoot pid _ | .setRoot pid _ => k.getMm current pid
  | _ => none

/-- `GET_ROOT` on aarch64 looks at `mm->pgd` before it locks. -/
def Request.readsEarly (P : Platform) : Request → Bool
  | .getRoot _ _ => P.arch == .aarch64
  | _ => false

/-- What may stand between a lock of this mode and its unlock. -/
def Event.Within (mode : Mode) (mm : Mm) : Event → Prop
  | .load m => m = mm
  | .store m _ _ | .storeRoot m _ => mode = .write ∧ m = mm
  | .invalidateTlb _ => True
  | _ => False

theorem Event.Within.isAccess {mode : Mode} {mm : Mm} {event : Event}
    (within : event.Within mode mm) : event.isAccess = true := by
  cases event with
  | readLock | readUnlock | writeLock | writeUnlock => cases within
  | load | store | storeRoot | invalidateTlb => rfl

section Shape

variable (P : Platform) (current : Process) (k : Kernel)

theorem updateAccesses_within (mm : Mm) (newEntry : Entry) :
    ∀ event ∈ updateAccesses P k mm newEntry, event.Within .write mm := by
  intro event member
  simp only [updateAccesses, List.cons_append, List.mem_cons, List.mem_append, List.mem_map,
    List.not_mem_nil, or_false] at member
  rcases member with rfl | ⟨s, -, rfl⟩ | rfl
  · exact rfl
  · exact ⟨rfl, rfl⟩
  · trivial

/-- The events of a request that takes no lock for later: perhaps a look at
`mm->pgd`, and then nothing, an invalidation, or accesses to the target under one
lock. -/
structure RequestShape (request : Request) (early rest : List Event) : Prop where
  events : requestEvents P current k request = early ++ rest
  early : early = [] ∨ ∃ mm, request.target current k = some mm ∧
    request.readsEarly P = true ∧ early = [.load mm]
  rest : rest = [] ∨ (∃ addr, rest = [.invalidateTlb addr]) ∨
    ∃ mm mode body, request.target current k = some mm ∧
      (∀ event ∈ body, event.Within mode mm) ∧ rest = bracket (!k.mmIsLocked) mode mm body

theorem requestEvents_shape {request : Request} (notLocking : request.isLocking = false) :
    ∃ early rest, RequestShape P current k request early rest := by
  have load : ∀ mm event, event ∈ [Event.load mm] → event.Within .read mm := by
    intro mm event member
    rw [List.mem_singleton.mp member]
    exact rfl
  cases request with
  | vmLock | vmUnlock => cases notLocking
  | vmResolve vm =>
      refine ⟨[], _, rfl, .inl rfl, ?_⟩
      cases found : k.getMm current vm.pid with
      | none => exact .inl rfl
      | some mm =>
          exact .inr (.inr ⟨mm, .read, _, found, load mm, rfl⟩)
  | vmUpdate vm =>
      refine ⟨[], _, rfl, .inl rfl, ?_⟩
      cases found : k.getMm current vm.pid with
      | none => exact .inl rfl
      | some mm =>
          exact .inr (.inr ⟨mm, .write, _, found, updateAccesses_within P k mm vm, rfl⟩)
  | setRoot pid root =>
      refine ⟨[], _, rfl, .inl rfl, ?_⟩
      cases found : k.getMm current pid with
      | none => exact .inl rfl
      | some mm =>
          refine .inr (.inr ⟨mm, .write, [.storeRoot mm root], found, ?_, rfl⟩)
          intro event member
          rw [List.mem_singleton.mp member]
          exact ⟨rfl, rfl⟩
  | getRoot pid root =>
      cases found : k.getMm current pid with
      | none => exact ⟨[], [], by simp only [requestEvents, found, List.append_nil], .inl rfl,
          .inl rfl⟩
      | some mm =>
          have events : requestEvents P current k (.getRoot pid root) =
              (if P.arch = .aarch64 then [.load mm] else []) ++
                if rootFromTtbr0 P k (some mm) then []
                else bracket (!k.mmIsLocked) .read mm [.load mm] := by
            simp only [requestEvents, found]
          refine ⟨_, _, events, ?_, ?_⟩
          · by_cases aarch64 : P.arch = .aarch64
            · rw [if_pos aarch64]
              exact .inr ⟨mm, found, by rw [Request.readsEarly, aarch64]; rfl, rfl⟩
            · exact .inl (if_neg aarch64)
          · split
            · exact .inl rfl
            · exact .inr (.inr ⟨mm, .read, _, found, load mm, rfl⟩)
  | invalidateTlb addr => exact ⟨[], _, rfl, .inl rfl, .inr (.inl ⟨addr, rfl⟩)⟩
  | readPage | writePage | getPagesize | getPat | setPat | switchTlbInvalidation | unknown =>
      exact ⟨[], [], rfl, .inl rfl, .inl rfl⟩

/-- Only the two locking requests move `mm_is_locked`. -/
theorem deviceIoctl_locked {request : Request} (notLocking : request.isLocking = false) :
    (deviceIoctl P current request k).2.2.mmIsLocked = k.mmIsLocked := by
  cases request with
  | vmLock | vmUnlock => cases notLocking
  | vmResolve vm => exact (resolve_quiet P current vm k).steady.mmIsLocked_eq
  | vmUpdate vm => exact (updateVm_steady P current vm _ k).mmIsLocked_eq
  | getRoot pid root => exact (getRoot_quiet P current pid root k).steady.mmIsLocked_eq
  | setRoot pid root =>
      simp only [deviceIoctl, ioctlSetRoot]
      cases k.getMm current pid with
      | none => rfl
      | some mm => simp only [emitIf_locked, emit_locked]
  | invalidateTlb addr => exact (k.invalidateTlb_steady P current addr).mmIsLocked_eq
  | setPat pat =>
      simp only [deviceIoctl, setPat]
      cases P.arch <;> rfl
  | switchTlbInvalidation method =>
      simp only [deviceIoctl, ioctlSwitchTlbInvalidation]
      split
      · rfl
      · split <;> rfl
  | readPage | writePage | getPagesize | getPat | unknown => rfl

variable {P current k} {request : Request} {early rest : List Event}

theorem RequestShape.early_isAccess (shape : RequestShape P current k request early rest) :
    ∀ event ∈ early, event.isAccess = true := by
  rcases shape.early with rfl | ⟨mm, -, -, rfl⟩
  · simp
  · simp [Event.isAccess]

/-- Such a request gives back every lock it takes. -/
theorem requestEvents_holds (notLocking : request.isLocking = false) (mm : Mm) :
    readHolds mm (requestEvents P current k request) = 0 ∧
      writeHolds mm (requestEvents P current k request) = 0 := by
  obtain ⟨early, rest, shape⟩ := requestEvents_shape P current k notLocking
  have earlyHolds := holds_accesses shape.early_isAccess mm
  have restHolds : readHolds mm rest = 0 ∧ writeHolds mm rest = 0 := by
    rcases shape.rest with rfl | ⟨_, rfl⟩ | ⟨target, mode, body, -, within, rfl⟩
    · exact ⟨rfl, rfl⟩
    · exact ⟨rfl, rfl⟩
    · exact bracket_holds (fun event member => (within event member).isAccess) _ _ _ mm
  rw [shape.events, readHolds_append, writeHolds_append]
  omega

end Shape

end PTEditor.Module
