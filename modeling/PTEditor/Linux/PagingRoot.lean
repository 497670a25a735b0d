/-
# PTEditor.Linux.PagingRoot -- the cached root of the calling process

With a user-space implementation, pid `0` walks from `ptedit_paging_root`, which
`ptedit_use_implementation` read once; any other pid, the caller's own included,
asks the kernel anew.  The two agree while the cache is the caller's root
(`Cached`).  Selecting an implementation makes it so; an entry update keeps it;
a new root for the caller, or a fork after which the child goes on with the
inherited cache, breaks it.

`resolve_zero_eq_own` is the invariant over whole runs.  `cachedRoot_goes_stale`
are two short runs in which pid `0` resolves through a root that is not the
caller's.
-/
import PTEditor.Library.X86Walk
import PTEditor.Theory.Runs

namespace PTEditor.Linux.PagingRoot

open PTEditor.Theory.ByteMemory PTEditor.Theory.Runs PTEditor.Interface PTEditor.Module
open PTEditor.Library PTEditor.Library.X86Walk

set_option autoImplicit false

/-- The calls of a run, and a fork, after which the run is the child's. -/
inductive Action where
  | useImplementation (implementation : Int) (mapped : Bool)
  | setPagingRoot (pid : BitVec 32) (root : Word)
  | update (address : Word) (pid : BitVec 32) (vm : Entry)
  | fork (child : Process) (pgd : Word) (mem : Mem)

/-- After a fork the child runs, with an address space of its own that has the
parent's areas and tables of its own somewhere in memory, and with the library's
variables as they were. -/
def forkChild (child : Process) (pgd : Word) (mem : Mem) (s : System) : System :=
  { s with
    current := child
    kernel :=
      { s.kernel with
        mem
        tasks := fun pid => if pid = child.pid then some child.toTask else s.kernel.tasks pid
        pgd := fun mm => if mm = child.owner then pgd else s.kernel.pgd mm
        vmas := fun mm => if mm = child.owner then s.kernel.vmas s.current.owner
          else s.kernel.vmas mm } }

section Run

variable (P : Platform)

/-- One action; `none` once the program has died. -/
def step (action : Action) (s : Option System) : Option System :=
  s.bind fun s =>
    match action with
    | .useImplementation implementation mapped =>
        some (pteditUseImplementation P implementation mapped s)
    | .setPagingRoot pid root => some (pteditSetPagingRoot P pid root s)
    | .update address pid vm => pteditUpdate P address pid vm s
    | .fork child pgd mem => some (forkChild child pgd mem s)

def UserSpace (s : System) : Prop :=
  s.lib.resolve = some .user ∨ s.lib.resolve = some .userMap

/-- What `GET_ROOT` answers the caller about itself. -/
def callerRoot (s : System) : Word :=
  if P.arch = .aarch64 ∧ s.kernel.pgd s.current.owner = 0 then s.kernel.ttbr0El1 &&& ~~~1#64
  else P.virtToPhys (s.kernel.pgd s.current.owner)

/-- The cached root is the caller's, if a user-space implementation uses it. -/
def Cached (s : System) : Prop := UserSpace s → s.lib.pagingRoot = callerRoot P s

/-- The action leaves the caller and its root as they are. -/
def KeepsRoot (s : System) : Action → Prop
  | .setPagingRoot pid root =>
      s.kernel.getMm s.current (pid.signExtend 64) = some s.current.owner →
        P.physToVirt root = s.kernel.pgd s.current.owner
  | .fork _ _ _ => False
  | _ => True

end Run

/-! ## What `GET_ROOT` answers -/

section Root

variable {P : Platform} {s : System}

theorem ioctlGetRoot_owner {k : Kernel} {current : Process} {pid root : Word}
    (named : k.getMm current pid = some current.owner) :
    (ioctlGetRoot P current pid root k).2.1 =
      if P.arch = .aarch64 ∧ k.pgd current.owner = 0 then k.ttbr0El1 &&& ~~~1#64
      else P.virtToPhys (k.pgd current.owner) := by
  rw [ioctlGetRoot_root, named]
  cases arch : P.arch with
  | x86_64 => simp [rootFromTtbr0, arch]
  | aarch64 => by_cases zero : k.pgd current.owner = 0#64 <;> simp [rootFromTtbr0, arch, zero]

theorem pteditGetPagingRoot_zero : (pteditGetPagingRoot P 0 s).1 = callerRoot P s :=
  ioctlGetRoot_owner (by
    rw [show (0 : BitVec 32).signExtend 64 = 0 from rfl]
    exact s.kernel.getMm_zero s.current)

theorem pteditGetPagingRoot_own (runs : s.kernel.Runs s.current) :
    (pteditGetPagingRoot P s.current.pid s).1 = callerRoot P s :=
  ioctlGetRoot_owner (s.kernel.getMm_self s.current runs)

theorem callerRoot_steady {s' : System} (steady : s.Steady s') :
    callerRoot P s' = callerRoot P s := by
  obtain ⟨k, steadyK, rfl⟩ := steady
  simp only [callerRoot, steadyK.pgd_eq, steadyK.ttbr0El1_eq]

end Root

/-! ## One action -/

section Step

variable {P : Platform} {s : System}

theorem ioctlSetRoot_kept (current : Process) (pid root : Word) (k : Kernel) :
    (ioctlSetRoot P current pid root k).2.tasks = k.tasks ∧
      (ioctlSetRoot P current pid root k).2.ttbr0El1 = k.ttbr0El1 ∧
      ∀ mm, (k.getMm current pid = some mm → P.physToVirt root = k.pgd mm) →
        (ioctlSetRoot P current pid root k).2.pgd mm = k.pgd mm := by
  simp only [ioctlSetRoot]
  cases named : k.getMm current pid with
  | none => exact ⟨rfl, rfl, fun _ _ => rfl⟩
  | some target =>
      have first := (k.quiet_emitIf (!k.mmIsLocked) (.writeLock target)).steady
      simp only
      have last := fun k : Kernel =>
        (k.quiet_emitIf (!k.mmIsLocked) (.writeUnlock target)).steady
      rw [(last _).tasks_eq, (last _).ttbr0El1_eq, (last _).pgd_eq]
      refine ⟨first.tasks_eq, first.ttbr0El1_eq, ?_⟩
      intro mm kept
      simp only
      split
      · rename_i same
        exact kept (by rw [same])
      · rw [first.pgd_eq]

/-- `ptedit_use_implementation` touches the library's variables and the trace.
Selecting a user-space implementation reads the caller's root; selecting the
kernel's leaves the cache behind; any other number does nothing. -/
theorem pteditUseImplementation_spec (implementation : Int) (mapped : Bool) :
    ∃ k lib, s.kernel.Quiet k ∧
      pteditUseImplementation P implementation mapped s = ⟨lib, k, s.current⟩ ∧
      (implementation = 1 ∨ implementation = 2 → lib.pagingRoot = callerRoot P s) ∧
      (implementation = 0 → lib.resolve = some .kernel) ∧
      (implementation ≠ 0 → implementation ≠ 1 → implementation ≠ 2 → lib = s.lib) := by
  have zero : ∀ lib, (pteditGetPagingRoot P 0 { s with lib }).1 = callerRoot P s := fun lib =>
    pteditGetPagingRoot_zero
  have quiet := getRoot_quiet P s.current ((0 : BitVec 32).signExtend 64) 0 s.kernel
  simp only [pteditUseImplementation]
  by_cases first : implementation = 0
  · subst first
    exact ⟨s.kernel, _, Kernel.Quiet.refl _, rfl, by simp, fun _ => rfl, by simp⟩
  by_cases second : implementation = 1
  · subst second
    exact ⟨_, _, quiet, rfl, fun _ => zero _, by simp, by simp⟩
  by_cases third : implementation = 2
  · subst third
    refine ⟨_, _, quiet, rfl, ?_, by simp, by simp⟩
    intro _
    split <;> exact zero _
  · rw [if_neg first, if_neg second, if_neg third]
    exact ⟨s.kernel, s.lib, Kernel.Quiet.refl _, rfl, by simp [second, third], by simp [first],
      fun _ _ _ => rfl⟩

theorem callerRoot_quiet {k : Kernel} (quiet : s.kernel.Quiet k) (lib : LibraryState) :
    callerRoot P ⟨lib, k, s.current⟩ = callerRoot P s := by
  simp only [callerRoot, quiet.steady.pgd_eq, quiet.steady.ttbr0El1_eq]

/-- Selecting a user-space implementation makes the cache fresh. -/
theorem useImplementation_fresh {implementation : Int}
    (userSpace : implementation = 1 ∨ implementation = 2) (mapped : Bool) :
    Cached P (pteditUseImplementation P implementation mapped s) := by
  obtain ⟨k, lib, quiet, eq, fresh, -, -⟩ := pteditUseImplementation_spec (P := P) (s := s)
    implementation mapped
  rw [eq]
  intro _
  rw [callerRoot_quiet quiet]
  exact fresh userSpace

theorem useImplementation_cached (implementation : Int) (mapped : Bool) (cached : Cached P s) :
    Cached P (pteditUseImplementation P implementation mapped s) := by
  by_cases userSpace : implementation = 1 ∨ implementation = 2
  · exact useImplementation_fresh userSpace mapped
  obtain ⟨notOne, notTwo⟩ := not_or.mp userSpace
  obtain ⟨k, lib, quiet, eq, -, kernel, same⟩ := pteditUseImplementation_spec (P := P) (s := s)
    implementation mapped
  rw [eq]
  intro selected
  rw [callerRoot_quiet quiet]
  by_cases zero : implementation = 0
  · have notUser := kernel zero
    rcases selected with user | userMap
    · exact absurd (notUser.symm.trans user) (by decide)
    · exact absurd (notUser.symm.trans userMap) (by decide)
  · obtain rfl := same zero notOne notTwo
    exact cached selected

theorem setPagingRoot_cached (pid : BitVec 32) (root : Word)
    (keeps : KeepsRoot P s (.setPagingRoot pid root)) (cached : Cached P s) :
    Cached P (pteditSetPagingRoot P pid root s) := by
  obtain ⟨-, sameTtbr0, samePgd⟩ := ioctlSetRoot_kept (P := P) s.current (pid.signExtend 64) root
    s.kernel
  intro selected
  have sameRoot : callerRoot P (pteditSetPagingRoot P pid root s) = callerRoot P s := by
    simp only [callerRoot, pteditSetPagingRoot, deviceIoctl, sameTtbr0,
      samePgd s.current.owner keeps]
  rw [sameRoot]
  exact cached selected

theorem pteditUpdate_steady {address : Word} {pid : BitVec 32} {vm : Entry} {s' : System}
    (updated : pteditUpdate P address pid vm s = some s') : s.Steady s' := by
  have user : ∀ pset, (pteditUpdateUserExt P pset address pid vm s).map
      (pteditInvalidateTlb P address) = some s' → s.Steady s' := by
    intro pset updated
    obtain ⟨s₁, first, rfl⟩ := Option.map_eq_some_iff.mp updated
    exact (pteditUpdateUserExt_steady P first).trans (pteditInvalidateTlb_steady P address s₁)
  simp only [pteditUpdate] at updated
  split at updated
  · cases updated
  · cases updated
    exact ⟨_, updateVm_steady P s.current { vm with vaddr := address, pid := pid.signExtend 64 }
      (!s.kernel.mmIsLocked) s.kernel, rfl⟩
  · exact user _ updated
  · exact user _ updated

def CallerRuns (s : System) : Prop := s.kernel.Runs s.current

theorem step_runs (action : Action) {s' : System} (runs : CallerRuns s)
    (stepped : step P action (some s) = some s') : CallerRuns s' := by
  simp only [step, Option.bind_some] at stepped
  cases action with
  | useImplementation implementation mapped =>
      obtain ⟨k, lib, quiet, eq, -⟩ := pteditUseImplementation_spec (P := P) (s := s)
        implementation mapped
      obtain rfl := Option.some.inj (stepped.symm.trans (congrArg some eq))
      exact quiet.steady.runs runs
  | setPagingRoot pid root =>
      obtain rfl := Option.some.inj stepped
      obtain ⟨sameTasks, -, -⟩ := ioctlSetRoot_kept (P := P) s.current (pid.signExtend 64) root
        s.kernel
      show (ioctlSetRoot P s.current (pid.signExtend 64) root s.kernel).2.tasks s.current.pid = _
      rw [sameTasks]
      exact runs
  | update address pid vm =>
      obtain ⟨k, steady, rfl⟩ := pteditUpdate_steady stepped
      exact steady.runs runs
  | fork child pgd mem =>
      obtain rfl := Option.some.inj stepped
      simp [CallerRuns, Kernel.Runs, forkChild]

/-- An action that keeps the caller's root keeps the cache right. -/
theorem step_cached (action : Action) {s' : System} (keeps : KeepsRoot P s action)
    (cached : Cached P s) (stepped : step P action (some s) = some s') : Cached P s' := by
  simp only [step, Option.bind_some] at stepped
  cases action with
  | useImplementation implementation mapped =>
      obtain rfl := Option.some.inj stepped
      exact useImplementation_cached implementation mapped cached
  | setPagingRoot pid root =>
      obtain rfl := Option.some.inj stepped
      exact setPagingRoot_cached pid root keeps cached
  | update address pid vm =>
      have steady := pteditUpdate_steady stepped
      intro selected
      rw [callerRoot_steady steady]
      simp only [UserSpace, steady.lib_eq] at selected ⊢
      exact cached selected
  | fork child pgd mem => exact keeps.elim

end Step

/-! ## Whole runs -/

/-- What a resolve returns, but for the process it was asked about. -/
def resolvedEntries (P : Platform) (address : Word) (pid : BitVec 32) (s : System) : Option Entry :=
  (pteditResolve P address pid s).map fun answer => { answer.1 with pid := 0 }

section Whole

variable {P : Platform}

/-- Two pids with one root resolve alike in user space. -/
theorem resolvedEntries_eq {s : System} (selected : UserSpace s) {pid pid' : BitVec 32}
    (sameRoot : (walkRoot P pid s).1 = (walkRoot P pid' s).1) (address : Word) :
    resolvedEntries P address pid s = resolvedEntries P address pid' s := by
  have walk : ∀ (deref : Mem → Word → Option Word) (p : BitVec 32),
      (pteditResolveUserExt P deref address p s).map (fun answer => { answer.1 with pid := 0 }) =
        resolveUserExt P.arch s.lib.pagingDefinition (deref s.kernel.mem) address
          (walkRoot P p s).1 0 := by
    intro deref p
    simp only [pteditResolveUserExt, (walkRoot_quiet P p s).mem_eq, Option.map_map]
    exact resolveUserExt_retarget (walkRoot P p s).1 p 0
  rcases selected with user | userMap
  · simp only [resolvedEntries, pteditResolve, user, pteditResolveUser, walk, sameRoot]
  · simp only [resolvedEntries, pteditResolve, userMap, pteditResolveUserMap, walk, sameRoot]

theorem resolvedEntries_zero_eq_own {s : System} (runs : CallerRuns s) (selected : UserSpace s)
    (cached : Cached P s) (address : Word) :
    resolvedEntries P address 0 s = resolvedEntries P address s.current.pid s := by
  apply resolvedEntries_eq selected
  simp only [walkRoot, if_true, s.current.pid_ne, if_false]
  rw [cached selected, pteditGetPagingRoot_own runs]

/-- The invariant rule for programs that may die: what every step of a living
program keeps, the last state has, if there is one. -/
theorem alive_induction (guard : System → Action → Prop) {invariant : System → Prop}
    (preserved : ∀ s action s', invariant s → guard s action → step P action (some s) = some s' →
      invariant s')
    {actions : List Action} {s : Option System}
    (guarded : Guarded (step P) (fun s action => ∀ t, s = some t → guard t action) actions s)
    (initially : ∀ t, s = some t → invariant t) {last : System}
    (alive : run (step P) actions s = some last) : invariant last := by
  refine run_induction _ (fun s => ∀ t, s = some t → invariant t) ?_ guarded initially last alive
  rintro (_ | t) action holds met t' stepped
  · cases stepped
  · exact preserved t action t' (holds t rfl) (met t rfl) stepped

theorem alive_runs {actions : List Action} {start last : System} (runs : CallerRuns start)
    (alive : run (step P) actions (some start) = some last) : CallerRuns last := by
  refine alive_induction (fun _ _ => True)
    (fun _ action _ known _ stepped => step_runs action known stepped)
    (guarded_of_states fun _ _ _ _ => trivial) ?_ alive
  rintro t ⟨rfl⟩
  exact runs

/-- **Pid 0 is the caller while the cache is fresh.**  Whatever came before the
last selection of a user-space implementation, if no action after it gives the
caller another root and none is a fork, pid `0` and the caller's own pid resolve
every address alike. -/
theorem resolve_zero_eq_own {start : System} (runs : CallerRuns start) (before : List Action)
    {implementation : Int} (userSpace : implementation = 1 ∨ implementation = 2) (mapped : Bool)
    (after : List Action)
    (keeps : Guarded (step P) (fun s action => ∀ t, s = some t → KeepsRoot P t action) after
      (run (step P) (before ++ [.useImplementation implementation mapped]) (some start)))
    {last : System}
    (alive : run (step P) (before ++ [.useImplementation implementation mapped] ++ after)
      (some start) = some last)
    (selected : UserSpace last) (address : Word) :
    resolvedEntries P address 0 last = resolvedEntries P address last.current.pid last := by
  have fresh : ∀ t, run (step P) (before ++ [.useImplementation implementation mapped])
      (some start) = some t → Cached P t := by
    intro t reached
    rw [run_append] at reached
    obtain ⟨s, -, stepped⟩ := Option.bind_eq_some_iff.mp reached
    obtain rfl := Option.some.inj stepped
    exact useImplementation_fresh userSpace mapped
  have cached : Cached P last := by
    rw [run_append] at alive
    exact alive_induction (KeepsRoot P)
      (fun _ action _ known keeps stepped => step_cached action keeps known stepped)
      keeps fresh alive
  exact resolvedEntries_zero_eq_own (alive_runs runs alive) selected cached address

/-- The caller's root is set before the selection; then an entry is updated and
another process gets a new root. -/
theorem resolve_zero_eq_own_onePage :
    ∃ last, run (step fourLevelPlatform)
        ([.setPagingRoot 0 0x1000] ++ [.useImplementation 1 false] ++
          [.update 0 0 (Entry.zeroed 0 0), .setPagingRoot 2 0x9000]) (some onePageKernelSystem) =
        some last ∧
      resolvedEntries fourLevelPlatform 0 0 last =
        resolvedEntries fourLevelPlatform 0 last.current.pid last := by
  have ends : (run (step fourLevelPlatform)
      ([.setPagingRoot 0 0x1000] ++ [.useImplementation 1 false] ++
        [.update 0 0 (Entry.zeroed 0 0), .setPagingRoot 2 0x9000]) (some onePageKernelSystem)).map
        (fun s => s.lib.resolve) = some (some .user) := by
    decide +kernel
  obtain ⟨last, alive, user⟩ := Option.map_eq_some_iff.mp ends
  have runs : CallerRuns onePageKernelSystem := rfl
  refine ⟨last, alive, resolve_zero_eq_own runs [.setPagingRoot 0 0x1000] (.inl rfl) false
    [.update 0 0 (Entry.zeroed 0 0), .setPagingRoot 2 0x9000] ?_ alive (.inl user) 0⟩
  refine ⟨fun _ _ => trivial, ?_, trivial⟩
  intro t reached named
  have other : (step fourLevelPlatform (.update 0 0 (Entry.zeroed 0 0))
      (run (step fourLevelPlatform) ([.setPagingRoot 0 0x1000] ++ [.useImplementation 1 false])
        (some onePageKernelSystem))).map
        (fun s => (s.kernel.getMm s.current ((2 : BitVec 32).signExtend 64), s.current.owner)) =
      some (some 1, 0) := by
    decide +kernel
  rw [reached, Option.map_some, named, Option.some.injEq, Prod.mk.injEq, Option.some.injEq] at other
  exact absurd (other.1.symm.trans other.2) (by decide)

/-- A new root for the caller, or a fork, after the selection: pid `0` still walks
from the old root. -/
theorem cachedRoot_goes_stale :
    (∃ last, run (step fourLevelPlatform)
        [.useImplementation 1 false, .setPagingRoot 0 0x8000] (some onePageKernelSystem) =
        some last ∧ UserSpace last ∧
      resolvedEntries fourLevelPlatform 0 0 last ≠
        resolvedEntries fourLevelPlatform 0 last.current.pid last) ∧
    (∃ last, run (step fourLevelPlatform)
        [.useImplementation 1 false,
          .fork (Process.of 3 2 (by decide)) (fourLevelPlatform.physToVirt 0x8000) onePageMem]
        (some onePageKernelSystem) = some last ∧ UserSpace last ∧
      resolvedEntries fourLevelPlatform 0 0 last ≠
        resolvedEntries fourLevelPlatform 0 last.current.pid last) := by
  refine ⟨⟨_, rfl, .inl rfl, ?_⟩, ⟨_, rfl, .inl rfl, ?_⟩⟩ <;> decide +kernel

end Whole

end PTEditor.Linux.PagingRoot
