/-
# PTEditor.Library.Implementations -- switching implementations, over whole histories

`ptedit_use_implementation(PTEDIT_IMPL_USER)` sets the two function pointers and
then maps `/proc/umem`, once: a pointer that is not null is kept.  It looks neither
at the descriptor it maps, which may never have been opened, nor at the result, so
a failed mapping stays active and no later call tries again.

A `History` is the library with two ghosts, what `ptedit_umem` stands for and what
was mapped.  `live_iff` says for which histories the mapped implementation is never
active without its mapping.
-/
import PTEditor.Library.X86Walk
import PTEditor.Theory.Runs

namespace PTEditor.Library.Implementations

open PTEditor.Theory.ByteMemory PTEditor.Theory.Runs
open PTEditor.Interface PTEditor.Module PTEditor.Library PTEditor.Library.X86Walk

set_option autoImplicit false

/-- The descriptors `ptedit_cleanup` closes; it changes no variable. -/
def pteditCleanup (s : System) : List Int :=
  (if 0 ≤ s.lib.fd then [s.lib.fd] else []) ++ (if 0 < s.lib.umem then [s.lib.umem] else [])

/-! ## Histories -/

structure History where
  system : System
  /-- `ptedit_umem` is an open descriptor of `/proc/umem`. -/
  opened : Bool
  /-- The mapping in `ptedit_vmem` was made from such a descriptor. -/
  mapsUmem : Bool

/-- The calls, with what `open`, `getpagesize` and `mmap` return in them. -/
inductive Action where
  | init (fd umem : Int) (getpagesize : Word)
  | useImplementation (implementation : Int) (mapped : Bool)
  | cleanup

/-- The call reaches the `mmap` of `ptedit_use_implementation`. -/
def Action.maps (s : History) : Action → Bool
  | .useImplementation implementation _ => implementation == 2 && s.system.lib.vmem == .null
  | _ => false

def step (P : Platform) : Action → History → History
  | .init fd umem getpagesize, s =>
      { s with
        system := (pteditInit P fd umem getpagesize s.system).2
        opened := if fd < 0 then s.opened else decide (0 ≤ umem) }
  | .useImplementation implementation mapped, s =>
      { s with
        system := pteditUseImplementation P implementation mapped s.system
        mapsUmem :=
          if Action.maps s (.useImplementation implementation mapped) then mapped && s.opened
          else s.mapsUmem }
  | .cleanup, s => { s with opened := s.opened && !(s.system.lib.umem ∈ pteditCleanup s.system) }

def zeroedLibrary : LibraryState where
  fd := 0
  umem := 0
  pagesize := 0
  pagingRoot := 0
  vmem := .null
  pagingDefinition :=
    { hasPgd := false, hasP4d := false, hasPud := false, hasPmd := false, hasPt := false
      pgdEntries := 0, p4dEntries := 0, pudEntries := 0, pmdEntries := 0, ptEntries := 0
      pageOffset := 0 }
  resolve := none
  update := none

def start (kernel : Kernel) (current : Process) : History :=
  ⟨⟨zeroedLibrary, kernel, current⟩, false, false⟩

/-- The mapped implementation is active with a mapping of `/proc/umem` only, and the
two function pointers go together. -/
structure Live (s : History) : Prop where
  mapped : s.system.lib.resolve = some .userMap ∨ s.system.lib.update = some .userMap →
    s.system.lib.vmem = .mapped ∧ s.mapsUmem = true
  together : s.system.lib.resolve = s.system.lib.update

def MapsUmem (s : History) : Action → Prop
  | .useImplementation implementation mapped =>
      Action.maps s (.useImplementation implementation mapped) = true →
        mapped = true ∧ s.opened = true
  | _ => True

/-! ## What the calls do to the pointers -/

/-- The function pointers and the mapping after `ptedit_use_implementation`. -/
theorem useImplementation_pointers (P : Platform) (implementation : Int) (mapped : Bool)
    (s : System) :
    let lib := (pteditUseImplementation P implementation mapped s).lib
    let chosen := if implementation = 0 then some Implementation.kernel
      else if implementation = 1 then some .user
      else if implementation = 2 then some .userMap else none
    lib.resolve = chosen.or s.lib.resolve ∧ lib.update = chosen.or s.lib.update ∧
      lib.vmem = if implementation = 2 ∧ s.lib.vmem = .null then
        (if mapped then .mapped else .failed) else s.lib.vmem := by
  intro lib chosen
  by_cases kernel : implementation = 0
  · simp [lib, chosen, pteditUseImplementation, kernel]
  · by_cases user : implementation = 1
    · simp [lib, chosen, pteditUseImplementation, user]
    · by_cases userMap : implementation = 2
      · by_cases unset : s.lib.vmem = .null
        · simp [lib, chosen, pteditUseImplementation, userMap, unset]
        · simp [lib, chosen, pteditUseImplementation, userMap, unset]
      · simp [lib, chosen, pteditUseImplementation, kernel, user, userMap]

/-- `ptedit_init` leaves the mapping alone; it selects the requests of the device or,
on a machine with 16 KiB pages, `pread`, unless it fails. -/
theorem init_pointers (P : Platform) (fd umem : Int) (getpagesize : Word) (s : System) :
    let lib := (pteditInit P fd umem getpagesize s).2.lib
    lib.vmem = s.lib.vmem ∧
      ((lib.resolve = s.lib.resolve ∧ lib.update = s.lib.update) ∨
        ∃ chosen, chosen ≠ Implementation.userMap ∧ lib.resolve = some chosen ∧
          lib.update = some chosen) := by
  intro lib
  by_cases failed : fd < 0
  · simp [lib, pteditInit, failed]
  · by_cases pages : initDefinition P s.kernel.realPageSize = .aarch64Pages16k
    · refine ⟨?_, .inr ⟨.user, nofun, ?_, ?_⟩⟩ <;>
        simp [lib, pteditInit, failed, pteditUseImplementation, pages]
    · refine ⟨?_, .inr ⟨.kernel, nofun, ?_, ?_⟩⟩ <;>
        simp [lib, pteditInit, failed, pteditUseImplementation, pages]

/-! ## Runs -/

/-- Between calls: the pointers are in order, and whatever is in `ptedit_vmem` is a
mapping of `/proc/umem`. -/
structure Sound (s : History) : Prop where
  live : Live s
  vmem : s.system.lib.vmem ≠ .null → s.system.lib.vmem = .mapped ∧ s.mapsUmem = true

section Steps

variable {P : Platform} {s : History}

theorem start_sound (kernel : Kernel) (current : Process) : Sound (start kernel current) := by
  refine ⟨⟨fun active => ?_, rfl⟩, fun set => absurd rfl set⟩
  rcases active with active | active <;> cases active

/-- The one call of `mmap`: the mapped implementation is active afterwards, so it is
live exactly if the mapping succeeded, from the right descriptor. -/
theorem live_mapping_iff {implementation : Int} {mapped : Bool}
    (maps : Action.maps s (.useImplementation implementation mapped) = true) :
    Live (step P (.useImplementation implementation mapped) s) ↔
      mapped = true ∧ s.opened = true := by
  obtain ⟨rfl, unset⟩ : implementation = 2 ∧ s.system.lib.vmem = .null := by
    simpa [Action.maps] using maps
  obtain ⟨resolve, update, vmem⟩ := useImplementation_pointers P 2 mapped s.system
  have mapsUmem : (step P (.useImplementation 2 mapped) s).mapsUmem = (mapped && s.opened) :=
    if_pos maps
  simp only [unset, and_self, if_true] at vmem
  constructor
  · intro live
    have both := (live.mapped (.inl resolve)).2
    rw [mapsUmem, Bool.and_eq_true] at both
    exact both
  · rintro ⟨rfl, opened⟩
    refine ⟨fun _ => ⟨vmem, ?_⟩, resolve.trans update.symm⟩
    rw [mapsUmem, opened]
    rfl

/-- Any other call of `ptedit_use_implementation` keeps the pointers in order. -/
theorem Sound.useImplementation (sound : Sound s) {implementation : Int} {mapped : Bool}
    (maps : Action.maps s (.useImplementation implementation mapped) = false) :
    Sound (step P (.useImplementation implementation mapped) s) := by
  obtain ⟨resolve, update, vmem⟩ := useImplementation_pointers P implementation mapped s.system
  have kept : ¬ (implementation = 2 ∧ s.system.lib.vmem = .null) := by
    rintro ⟨rfl, unset⟩
    simp [Action.maps, unset] at maps
  have sameVmem : (step P (.useImplementation implementation mapped) s).system.lib.vmem =
      s.system.lib.vmem := vmem.trans (if_neg kept)
  have sameMaps : (step P (.useImplementation implementation mapped) s).mapsUmem = s.mapsUmem :=
    if_neg (by rw [maps]; exact Bool.false_ne_true)
  refine ⟨⟨?_, ?_⟩, ?_⟩
  · intro active
    rw [sameVmem, sameMaps]
    by_cases userMap : implementation = 2
    · exact sound.vmem fun unset => kept ⟨userMap, unset⟩
    · refine sound.live.mapped ?_
      -- no new pointer is the mapped implementation
      have before : ∀ pointer : Option Implementation,
          (if implementation = 0 then some Implementation.kernel
            else if implementation = 1 then some .user
            else if implementation = 2 then some .userMap else none).or pointer = some .userMap →
          pointer = some .userMap := by
        intro pointer
        rw [if_neg userMap]
        split
        · exact nofun
        · split
          · exact nofun
          · exact id
      exact active.imp (fun r => before _ (resolve.symm.trans r))
        (fun u => before _ (update.symm.trans u))
  · exact resolve.trans ((congrArg _ sound.live.together).trans update.symm)
  · rw [sameVmem, sameMaps]
    exact sound.vmem

theorem Sound.init (sound : Sound s) (fd umem : Int) (getpagesize : Word) :
    Sound (step P (.init fd umem getpagesize) s) := by
  obtain ⟨vmem, pointers⟩ := init_pointers P fd umem getpagesize s.system
  have sameVmem : (step P (.init fd umem getpagesize) s).system.lib.vmem = s.system.lib.vmem :=
    vmem
  refine ⟨?_, by rw [sameVmem]; exact sound.vmem⟩
  rcases pointers with ⟨resolve, update⟩ | ⟨chosen, other, resolve, update⟩
  · refine ⟨fun active => ?_, resolve.trans (sound.live.together.trans update.symm)⟩
    rw [sameVmem]
    exact sound.live.mapped (active.imp resolve.symm.trans update.symm.trans)
  · refine ⟨fun active => absurd ?_ other, resolve.trans update.symm⟩
    rcases active with active | active
    · exact Option.some.inj (resolve.symm.trans active)
    · exact Option.some.inj (update.symm.trans active)

/-- One call, from a sound history. -/
theorem live_step_iff (sound : Sound s) (action : Action) :
    (Live (step P action s) ↔ MapsUmem s action) ∧
      (MapsUmem s action → Sound (step P action s)) := by
  cases action with
  | init fd umem getpagesize =>
      have after := sound.init (P := P) fd umem getpagesize
      exact ⟨iff_of_true after.live trivial, fun _ => after⟩
  | cleanup =>
      have after : Sound (step P .cleanup s) := ⟨⟨sound.live.mapped, sound.live.together⟩, sound.vmem⟩
      exact ⟨iff_of_true after.live trivial, fun _ => after⟩
  | useImplementation implementation mapped =>
      cases maps : Action.maps s (.useImplementation implementation mapped) with
      | false =>
          have after := sound.useImplementation (P := P) maps
          refine ⟨iff_of_true after.live fun called => ?_, fun _ => after⟩
          rw [maps] at called
          cases called
      | true =>
          have exactly := live_mapping_iff (P := P) maps
          have condition : MapsUmem s (.useImplementation implementation mapped) ↔
              mapped = true ∧ s.opened = true := by simp [MapsUmem, maps]
          refine ⟨exactly.trans condition.symm, fun met => ?_⟩
          have live := exactly.mpr (condition.mp met)
          refine ⟨live, fun _ => live.mapped (.inl ?_)⟩
          obtain ⟨rfl, -⟩ : implementation = 2 ∧ s.system.lib.vmem = .null := by
            simpa [Action.maps] using maps
          exact (useImplementation_pointers P 2 mapped s.system).1

/-- **The mapped implementation and its mapping.**  In every state of a history the
mapped implementation is active with a mapping of `/proc/umem` only, and the two
pointers go together, exactly if each call that maps has `/proc/umem` open and
succeeds. -/
theorem live_iff (P : Platform) (kernel : Kernel) (current : Process) (actions : List Action) :
    (∀ s ∈ states (step P) actions (start kernel current), Live s) ↔
      Guarded (step P) MapsUmem actions (start kernel current) := by
  have sound := start_sound kernel current
  rw [states_iff_guarded, and_iff_right sound.live]
  exact guarded_iff Sound (fun _ action sound => (live_step_iff sound action).1)
    (fun _ action sound => (live_step_iff sound action).2) sound

/-- The module is loaded but `/proc/umem` is missing: the mapping fails, and the
library walks page tables through it all the same.  The same without any
`ptedit_init`. -/
theorem mapped_without_umem :
    ¬ (∀ s ∈ states (step fourLevelPlatform)
        [.init 3 (-1) 4096, .useImplementation 2 false] (start onePageKernel onePageProcess),
        Live s) ∧
      ¬ (∀ s ∈ states (step fourLevelPlatform)
        [.useImplementation 2 true] (start onePageKernel onePageProcess), Live s) := by
  rw [states_iff_guarded, states_iff_guarded]
  refine ⟨?_, ?_⟩
  · rintro ⟨-, -, live, -⟩
    have mapped : Vmem.failed = .mapped := (live.mapped (.inl rfl)).1
    cases mapped
  · rintro ⟨-, live, -⟩
    have maps : false = true := (live.mapped (.inl rfl)).2
    cases maps

end Steps

end PTEditor.Library.Implementations
