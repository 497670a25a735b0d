/-
# PTEditor.Module.Lifecycle -- loading and unloading the module

`pteditor_init` registers a misc device, a kretprobe and `/proc/umem`;
`pteditor_exit` takes them away again.  Everything the two functions ask of the
kernel may fail: one load attempt comes with its `Outcomes`.

The init function returns early after the device is registered, without taking it
back; it goes on when the kretprobe or the `/proc` entry fails, and the exit
function unregisters both all the same.  `clean_iff_orderly` says exactly which
sequences of loads and unloads leave nothing behind.
-/
import PTEditor.Module.FourLevel
import PTEditor.Theory.Runs

namespace PTEditor.Module.Lifecycle

open PTEditor.Theory.ByteMemory PTEditor.Theory.Runs PTEditor.Interface

set_option autoImplicit false

/-! ## What the two functions work on -/

/-- What the module registers with the kernel. -/
inductive Resource where
  | miscDev
  | probeDevmem
  | umem
  deriving DecidableEq, Repr

/-- The names passed to `kallsyms_lookup_name`. -/
inductive Symbol where
  | flushTlbMmRange
  | nativeWriteCr4
  | memoryLseek
  | readMem
  | writeMem
  | mmapMem
  deriving DecidableEq, Repr

/-- How the kernel answers during one load attempt. -/
structure Outcomes where
  /-- The address `kp.addr` has after `register_kprobe`; zero if it failed. -/
  kallsymsLookupName : Word
  miscRegister : Int
  lookup : Symbol → Word
  /-- `cpu_feature_enabled(X86_FEATURE_INVPCID_SINGLE)`. -/
  invpcidSingle : Bool
  tcrEl1 : Word
  registerKretprobe : Int
  /-- `proc_create` returned an entry. -/
  procCreate : Bool

/-- The module's variables that `pteditor_init` sets. -/
structure Statics where
  flushTlbMmRangeFunc : Word
  nativeWriteCr4Func : Word
  invalidateTlb : Option TlbMethod
  realPageSize : Word
  realPageShift : Nat
  umemLseek : Word
  umemRead : Word
  umemWrite : Word
  umemMmap : Word
  hasUmem : Bool

/-- Their values in a module just brought into memory. -/
def Statics.initial : Statics where
  flushTlbMmRangeFunc := 0
  nativeWriteCr4Func := 0
  invalidateTlb := none
  realPageSize := 4096
  realPageShift := 12
  umemLseek := 0
  umemRead := 0
  umemWrite := 0
  umemMmap := 0
  hasUmem := false

structure State where
  registered : Resource → Bool
  statics : Statics

def State.register (s : State) (resource : Resource) : State :=
  { s with registered := fun r => if r = resource then true else s.registered r }

theorem State.register_registered (s : State) (resource other : Resource) :
    (s.register resource).registered other = (decide (other = resource) || s.registered other) := by
  by_cases same : other = resource <;> simp [register, same]

def State.unregister (s : State) (resource : Resource) : State :=
  { s with registered := fun r => if r = resource then false else s.registered r }

/-! ## `pteditor_init` and `pteditor_exit` -/

/-- `KPROBE_KALLSYMS_LOOKUP`: the kernel no longer exports `kallsyms_lookup_name`. -/
def kprobeKallsymsLookup (P : Platform) : Bool :=
  decide (kernelVersion 5 7 0 ≤ P.linuxVersionCode)

def enxio : Int := -6

/-- All of `memory_lseek`, `read_mem`, `write_mem` and `mmap_mem` were found. -/
def Outcomes.umemSymbols (o : Outcomes) : Bool :=
  !(o.lookup .memoryLseek == 0 || o.lookup .readMem == 0 || o.lookup .writeMem == 0 ||
    o.lookup .mmapMem == 0)

/-- The page size aarch64 reports in `tcr_el1`. -/
def readPageSize (o : Outcomes) (v : Statics) : Statics :=
  if (o.tcrEl1 >>> 14) &&& 3#64 = 1 then { v with realPageSize := 64 * 1024, realPageShift := 16 }
  else if (o.tcrEl1 >>> 14) &&& 3#64 = 2 then
    { v with realPageSize := 16 * 1024, realPageShift := 14 }
  else v

/-- The end of `pteditor_init`, from `register_kretprobe` on: failures are reported
in the log only, and `proc_create` is not even looked at. -/
def setUpMemoryAccess (o : Outcomes) (s : State) : Int × State :=
  let s := if o.registerKretprobe < 0 then s else s.register .probeDevmem
  let s := { s with
    statics := { s.statics with
      umemLseek := o.lookup .memoryLseek
      umemRead := o.lookup .readMem
      umemWrite := o.lookup .writeMem
      umemMmap := o.lookup .mmapMem } }
  if !o.umemSymbols then (0, s)
  else
    let s := if o.procCreate then s.register .umem else s
    (0, { s with statics := { s.statics with hasUmem := true } })

/-- `pteditor_init` once the device is registered. -/
def setUpTlb (P : Platform) (o : Outcomes) (s : State) : Int × State :=
  match P.arch with
  | .x86_64 =>
      let s := { s with
        statics := { s.statics with flushTlbMmRangeFunc := o.lookup .flushTlbMmRange } }
      if o.lookup .flushTlbMmRange = 0 then (enxio, s)
      else
        let s := { s with statics := { s.statics with invalidateTlb := some .kernel } }
        if !o.invpcidSingle then
          let s := { s with
            statics := { s.statics with nativeWriteCr4Func := o.lookup .nativeWriteCr4 } }
          if o.lookup .nativeWriteCr4 = 0 then (enxio, s) else setUpMemoryAccess o s
        else setUpMemoryAccess o s
  | .aarch64 =>
      let s := { s with statics := { s.statics with invalidateTlb := some .kernel } }
      setUpMemoryAccess o { s with statics := readPageSize o s.statics }

def pteditorInit (P : Platform) (o : Outcomes) (s : State) : Int × State :=
  if kprobeKallsymsLookup P && o.kallsymsLookupName == 0 then (enxio, s)
  else if o.miscRegister ≠ 0 then (enxio, s)
  else setUpTlb P o (s.register .miscDev)

/-- What `pteditor_exit` asks the kernel to take away, in order. -/
def exitRemoves (s : State) : List Resource :=
  [.miscDev, .probeDevmem] ++ if s.statics.hasUmem then [.umem] else []

def pteditorExit (s : State) : State := (exitRemoves s).foldl State.unregister s

/-! ## Loads and unloads -/

/-- The module and, while it is loaded, how its load went. -/
structure Lifetime where
  state : State
  load : Option Outcomes

inductive Action where
  | load (outcomes : Outcomes)
  | unload

/-- The kernel loads a module with fresh variables, once at a time; it calls
`pteditor_exit` only after an init that returned 0. -/
def step (P : Platform) : Action → Lifetime → Lifetime
  | .load o, s =>
      match s.load with
      | some _ => s
      | none =>
          let result := pteditorInit P o { s.state with statics := .initial }
          ⟨result.2, if result.1 = 0 then some o else none⟩
  | .unload, s =>
      match s.load with
      | some _ => ⟨pteditorExit s.state, none⟩
      | none => s

def Lifetime.unloaded : Lifetime := ⟨⟨fun _ => false, .initial⟩, none⟩

/-- What a step should do: leave nothing registered if the module is not loaded
afterwards, and take away only what is registered. -/
def Clean (P : Platform) (s : Lifetime) (action : Action) : Prop :=
  ((step P action s).load = none →
      ∀ resource, (step P action s).state.registered resource = false) ∧
    (action = .unload → s.load.isSome = true →
      ∀ resource ∈ exitRemoves s.state, s.state.registered resource = true)

/-- A load attempt that gets its device and then fails: on x86-64 a function needed
for TLB invalidation is not found. -/
def FailsLate (P : Platform) (o : Outcomes) : Prop :=
  (kprobeKallsymsLookup P = true → o.kallsymsLookupName ≠ 0) ∧ o.miscRegister = 0 ∧
    P.arch = .x86_64 ∧
    (o.lookup .flushTlbMmRange = 0 ∨ (o.invpcidSingle = false ∧ o.lookup .nativeWriteCr4 = 0))

/-- No load fails late, and an unloaded module had got its kretprobe and, if it found
the functions for it, its `/proc` entry. -/
def Orderly (P : Platform) (s : Lifetime) : Action → Prop
  | .load o => s.load = none → ¬ FailsLate P o
  | .unload => ∀ o ∈ s.load, 0 ≤ o.registerKretprobe ∧ (o.umemSymbols = true → o.procCreate = true)

/-! ## What a load leaves registered -/

/-- The state a successful load leaves, by its outcomes. -/
structure Loaded (o : Outcomes) (s : State) : Prop where
  miscDev : s.registered .miscDev = true
  probeDevmem : s.registered .probeDevmem = decide (0 ≤ o.registerKretprobe)
  umem : s.registered .umem = (o.umemSymbols && o.procCreate)
  hasUmem : s.statics.hasUmem = o.umemSymbols

section Init

variable {P : Platform} {o : Outcomes} {s : State}

/-- Only the device is registered, and `has_umem` is as the module starts with it. -/
structure DeviceOnly (s : State) : Prop where
  registered : ∀ resource, s.registered resource = decide (resource = .miscDev)
  hasUmem : s.statics.hasUmem = false

theorem setUpMemoryAccess_loaded (device : DeviceOnly s) :
    (setUpMemoryAccess o s).1 = 0 ∧ Loaded o (setUpMemoryAccess o s).2 := by
  have probed : ∀ resource,
      (if o.registerKretprobe < 0 then s else s.register .probeDevmem).registered resource =
        (decide (resource = .miscDev) ||
          decide (resource = .probeDevmem) && decide (0 ≤ o.registerKretprobe)) := by
    intro resource
    by_cases failed : o.registerKretprobe < 0
    · have negative : ¬ 0 ≤ o.registerKretprobe := by omega
      simp [failed, negative, device.registered]
    · have returned : 0 ≤ o.registerKretprobe := by omega
      simp [failed, returned, State.register_registered, device.registered, Bool.or_comm]
  have kept : (if o.registerKretprobe < 0 then s else
      s.register .probeDevmem).statics.hasUmem = false := by
    split
    · exact device.hasUmem
    · exact device.hasUmem
  simp only [setUpMemoryAccess]
  cases symbols : o.umemSymbols with
  | false =>
      refine ⟨rfl, ?_, ?_, ?_, ?_⟩
      · simp [probed]
      · simp [probed]
      · simp [probed, symbols]
      · simp [kept, symbols]
  | true =>
      refine ⟨rfl, ?_, ?_, ?_, ?_⟩
      · cases o.procCreate <;> simp [State.register_registered, probed]
      · cases o.procCreate <;> simp [State.register_registered, probed]
      · cases o.procCreate <;> simp [State.register_registered, probed, symbols]
      · exact symbols.symm

/-- A function needed for TLB invalidation is not found; x86-64 only. -/
def TlbMissing (P : Platform) (o : Outcomes) : Prop :=
  P.arch = .x86_64 ∧
    (o.lookup .flushTlbMmRange = 0 ∨ (o.invpcidSingle = false ∧ o.lookup .nativeWriteCr4 = 0))

/-- With its device, the module is loaded unless a function is missing. -/
theorem setUpTlb_cases (P : Platform) (o : Outcomes) (device : DeviceOnly s) :
    (TlbMissing P o ∧ (setUpTlb P o s).1 = enxio ∧ DeviceOnly (setUpTlb P o s).2) ∨
      (¬ TlbMissing P o ∧ (setUpTlb P o s).1 = 0 ∧ Loaded o (setUpTlb P o s).2) := by
  cases arch : P.arch with
  | aarch64 =>
      have found : ¬ TlbMissing P o := by
        rintro ⟨x86, -⟩
        rw [arch] at x86
        cases x86
      simp only [setUpTlb, arch]
      refine .inr ⟨found, setUpMemoryAccess_loaded ⟨device.registered, ?_⟩⟩
      simp only [readPageSize]
      split
      · exact device.hasUmem
      · split
        · exact device.hasUmem
        · exact device.hasUmem
  | x86_64 =>
      simp only [setUpTlb, arch]
      by_cases flush : o.lookup .flushTlbMmRange = 0
      · rw [if_pos flush]
        exact .inl ⟨⟨arch, .inl flush⟩, rfl, device.registered, device.hasUmem⟩
      · rw [if_neg flush]
        cases invpcid : o.invpcidSingle with
        | true =>
            have found : ¬ TlbMissing P o := by
              rintro ⟨-, failed | ⟨without, -⟩⟩
              · exact flush failed
              · rw [invpcid] at without
                cases without
            exact .inr ⟨found, setUpMemoryAccess_loaded ⟨device.registered, device.hasUmem⟩⟩
        | false =>
            simp only [Bool.not_false, if_true]
            by_cases cr4 : o.lookup .nativeWriteCr4 = 0
            · rw [if_pos cr4]
              exact .inl ⟨⟨arch, .inr ⟨invpcid, cr4⟩⟩, rfl, device.registered, device.hasUmem⟩
            · rw [if_neg cr4]
              have found : ¬ TlbMissing P o := by
                rintro ⟨-, failed | ⟨-, failed⟩⟩
                · exact flush failed
                · exact cr4 failed
              exact .inr ⟨found, setUpMemoryAccess_loaded ⟨device.registered, device.hasUmem⟩⟩

/-- The three ways a load attempt can go: nothing happens, the device is left
behind, or the module is loaded. -/
theorem pteditorInit_cases (nothing : ∀ resource, s.registered resource = false)
    (fresh : s.statics.hasUmem = false) :
    (¬ FailsLate P o ∧ pteditorInit P o s = (enxio, s)) ∨
      (FailsLate P o ∧ (pteditorInit P o s).1 = enxio ∧ DeviceOnly (pteditorInit P o s).2) ∨
      (¬ FailsLate P o ∧ (pteditorInit P o s).1 = 0 ∧ Loaded o (pteditorInit P o s).2) := by
  have device : DeviceOnly (s.register .miscDev) := by
    refine ⟨fun resource => ?_, fresh⟩
    cases resource <;> simp [State.register, nothing]
  simp only [pteditorInit]
  by_cases missing : (kprobeKallsymsLookup P && o.kallsymsLookupName == 0) = true
  · rw [if_pos missing]
    refine .inl ⟨?_, rfl⟩
    rintro ⟨lookup, -⟩
    rw [Bool.and_eq_true, beq_iff_eq] at missing
    exact lookup missing.1 missing.2
  rw [if_neg missing]
  by_cases refused : o.miscRegister ≠ 0
  · rw [if_pos refused]
    refine .inl ⟨?_, rfl⟩
    rintro ⟨-, accepted, -⟩
    exact refused accepted
  rw [if_neg refused]
  have lookup : kprobeKallsymsLookup P = true → o.kallsymsLookupName ≠ 0 := by
    intro probe zero
    exact missing (by simp [probe, zero])
  have accepted : o.miscRegister = 0 := not_not.mp refused
  right
  rcases setUpTlb_cases P o device with ⟨tlb, left⟩ | ⟨found, loaded⟩
  · exact .inl ⟨⟨lookup, accepted, tlb⟩, left⟩
  · refine .inr ⟨?_, loaded⟩
    rintro ⟨-, -, tlb⟩
    exact found tlb

/-- An unload takes everything away; it takes away only what is there exactly if the
load got its kretprobe and the `/proc` entry it wanted. -/
theorem pteditorExit_spec (loaded : Loaded o s) :
    (∀ resource, (pteditorExit s).registered resource = false) ∧
      ((∀ resource ∈ exitRemoves s, s.registered resource = true) ↔
        0 ≤ o.registerKretprobe ∧ (o.umemSymbols = true → o.procCreate = true)) := by
  obtain ⟨miscDev, probeDevmem, umem, hasUmem⟩ := loaded
  simp only [pteditorExit, exitRemoves, hasUmem]
  cases symbols : o.umemSymbols with
  | false =>
      rw [symbols, Bool.false_and] at umem
      constructor
      · intro resource
        cases resource <;> simp [State.unregister, umem]
      · simp [miscDev, probeDevmem]
  | true =>
      rw [symbols, Bool.true_and] at umem
      constructor
      · intro resource
        cases resource <;> simp [State.unregister]
      · simp [miscDev, probeDevmem, umem]

end Init

/-! ## Runs -/

/-- Between steps: nothing is registered, or the module is loaded. -/
def Settled (s : Lifetime) : Prop :=
  match s.load with
  | none => ∀ resource, s.state.registered resource = false
  | some o => Loaded o s.state

section Steps

variable {P : Platform} {s : Lifetime}

/-- A load attempt on a settled, unloaded module. -/
theorem load_clean_iff (settled : ∀ resource, s.state.registered resource = false)
    (unloaded : s.load = none) (o : Outcomes) :
    (Clean P s (.load o) ↔ ¬ FailsLate P o) ∧
      (¬ FailsLate P o → Settled (step P (.load o) s)) := by
  have attempt := pteditorInit_cases (P := P) (o := o)
    (s := { s.state with statics := .initial }) settled rfl
  simp only [Clean, Settled, step, unloaded, reduceCtorEq, false_implies, and_true]
  rcases attempt with ⟨notLate, same⟩ | ⟨late, failed, device⟩ | ⟨notLate, returned, loaded⟩
  · rw [same]
    exact ⟨iff_of_true (fun _ => settled) notLate, fun _ => settled⟩
  · rw [failed]
    refine ⟨iff_of_false ?_ (not_not.mpr late), fun notLate => absurd late notLate⟩
    intro clean
    have left := clean rfl .miscDev
    rw [device.registered] at left
    cases left
  · rw [returned]
    exact ⟨iff_of_true (fun gone => nomatch gone) notLate, fun _ => loaded⟩

theorem clean_step_iff (settled : Settled s) (action : Action) :
    Clean P s action ↔ Orderly P s action := by
  unfold Settled at settled
  cases action with
  | load o =>
      cases loaded : s.load with
      | some _ => simp [Clean, Orderly, step, loaded]
      | none =>
          simp only [loaded] at settled
          simp only [Orderly, loaded, forall_const]
          exact (load_clean_iff settled loaded o).1
  | unload =>
      cases loaded : s.load with
      | none =>
          simp only [loaded] at settled
          simp [Clean, Orderly, step, loaded, settled]
      | some o =>
          simp only [loaded] at settled
          obtain ⟨gone, only⟩ := pteditorExit_spec settled
          simp only [Clean, Orderly, step, loaded, Option.mem_def, Option.some.injEq, forall_eq',
            Option.isSome_some, forall_const, gone, implies_true, true_and]
          exact only

theorem Settled.step (settled : Settled s) {action : Action} (orderly : Orderly P s action) :
    Settled (step P action s) := by
  cases action with
  | load o =>
      cases loaded : s.load with
      | some _ =>
          simp only [Lifecycle.step, loaded]
          exact settled
      | none =>
          unfold Settled at settled
          simp only [loaded] at settled
          exact (load_clean_iff settled loaded o).2 (orderly loaded)
  | unload =>
      cases loaded : s.load with
      | none =>
          simp only [Lifecycle.step, loaded]
          exact settled
      | some o =>
          unfold Settled at settled
          simp only [loaded] at settled
          simp only [Settled, Lifecycle.step, loaded]
          exact (pteditorExit_spec settled).1

/-- **Loads and unloads leave nothing behind**, and unloads take away only what is
registered, exactly if no load attempt fails after its device is registered and no
module is unloaded whose kretprobe or `/proc` entry had failed. -/
theorem clean_iff_orderly (P : Platform) (actions : List Action) :
    Guarded (step P) (Clean P) actions .unloaded ↔
      Guarded (step P) (Orderly P) actions .unloaded :=
  guarded_iff Settled (fun _ action settled => clean_step_iff settled action)
    (fun _ _ settled orderly => settled.step orderly) (show Settled .unloaded from fun _ => rfl)

def Outcomes.good : Outcomes where
  kallsymsLookupName := 1
  miscRegister := 0
  lookup _ := 1
  invpcidSingle := true
  tcrEl1 := 0
  registerKretprobe := 0
  procCreate := true

/-- A kernel without `flush_tlb_mm_range`: the failed load leaves its device behind.
And a module whose kretprobe or `/proc` entry failed takes it away nevertheless. -/
theorem load_leaves_device :
    ¬ Guarded (step fourLevelPlatform) (Clean fourLevelPlatform)
        [.load { Outcomes.good with lookup := fun _ => 0 }] .unloaded ∧
      ¬ Guarded (step fourLevelPlatform) (Clean fourLevelPlatform)
        [.load { Outcomes.good with registerKretprobe := -2 }, .unload] .unloaded ∧
      ¬ Guarded (step fourLevelPlatform) (Clean fourLevelPlatform)
        [.load { Outcomes.good with procCreate := false }, .unload] .unloaded := by
  refine ⟨?_, ?_, ?_⟩
  · rintro ⟨⟨clean, -⟩, -⟩
    have left : true = false := clean rfl .miscDev
    cases left
  · rintro ⟨-, ⟨-, only⟩, -⟩
    have missing : false = true := only rfl rfl .probeDevmem (by decide)
    cases missing
  · rintro ⟨-, ⟨-, only⟩, -⟩
    have missing : false = true := only rfl rfl .umem (by decide)
    cases missing

end Steps

end PTEditor.Module.Lifecycle
