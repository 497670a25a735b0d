/-
# PTEditor.Linux.MixedRuns -- PTE calls while the implementation is switched

A program may call `ptedit_use_implementation` at any time, so the calls of one run go
partly through the device and partly through `/proc/umem`.  Both ways walk the tables on
their own, with their own tests and their own arithmetic.  `mixed_calls_refine_page_map`
says that on a machine with orderly walks it does not matter where the switches are: the
run edits one map from pages to words, and every resolve, made either way, reads it.
-/
import PTEditor.Linux.KernelEdits

namespace PTEditor.Linux.MixedRuns

open PTEditor.Theory.ByteMemory PTEditor.Theory.RadixTree PTEditor.Interface PTEditor.Module
open PTEditor.Library PTEditor.Library.X86Walk PTEditor.Library.PageMap PTEditor.Linux.Agreement
open PTEditor.Linux.KernelEdits

set_option autoImplicit false

inductive Action where
  | call (call : PteCall)
  | useKernel
  | usePread

def Action.run (P : Platform) (action : Action) (s : System) : Option System :=
  match action with
  | .call pteCall => pteCall.run P s
  | .useKernel => some (pteditUseImplementation P 0 false s)
  | .usePread => some (pteditUseImplementation P 1 false s)

def runActions (P : Platform) : List Action → System → Option System
  | [], s => some s
  | action :: rest, s => (action.run P s).bind (runActions P rest)

def callsOf (actions : List Action) : List PteCall :=
  actions.filterMap fun
    | .call call => some call
    | _ => none

/-! ## One action -/

section Step

variable {P : Platform} {s : System} {root : Word}

def ownRoot (P : Platform) (s : System) : Word := P.virtToPhys (s.kernel.pgd s.current.owner)

/-- One of the two implementations is selected; `pread` has the caller's root in its cache. -/
structure Ready (P : Platform) (s : System) : Prop where
  active : Selected .kernel s ∨ (PreadX86 P s ∧ s.lib.pagingRoot = ownRoot P s)
  definition : s.lib.pagingDefinition = .x86_64

/-- The pid names an address space with the root. -/
def Target (P : Platform) (s : System) (root : Word) (pid : BitVec 32) : Prop :=
  ∃ mm, Names P s.kernel s.current (pid.signExtend 64) root mm

def files (s : System) : Int × Word := (s.lib.umem, s.lib.pagesize)

/-- The process and its kernel are the same, but for memory, cached translations and the trace. -/
structure Continues (s s' : System) : Prop where
  current : s'.current = s.current
  kernel : s.kernel.Steady s'.kernel
  files : files s' = files s

theorem Continues.refl (s : System) : Continues s s := ⟨rfl, (Kernel.Quiet.refl _).steady, rfl⟩

theorem Continues.trans {s₁ s₂ : System} (first : Continues s s₁) (second : Continues s₁ s₂) :
    Continues s s₂ :=
  ⟨second.current.trans first.current, first.kernel.trans second.kernel,
    second.files.trans first.files⟩

theorem continues_of_steady {s' : System} (steady : s.Steady s') : Continues s s' := by
  obtain ⟨k, steadyK, rfl⟩ := steady
  exact ⟨rfl, steadyK, rfl⟩

theorem Continues.target {s' : System} (continues : Continues s s') {pid : BitVec 32}
    (target : Target P s root pid) : Target P s' root pid := by
  obtain ⟨mm, names⟩ := target
  refine ⟨mm, ?_⟩
  rw [continues.current]
  exact names.steady continues.kernel

theorem Continues.ownRoot_eq {s' : System} (continues : Continues s s') :
    ownRoot P s' = ownRoot P s := by
  unfold ownRoot
  rw [continues.current, continues.kernel.pgd_eq]

/-- Being ready is a matter of the library's variables and of the caller's root. -/
theorem Ready.congr {s' : System} (ready : Ready P s) (lib : s'.lib = s.lib)
    (own : ownRoot P s' = ownRoot P s) : Ready P s' := by
  refine ⟨?_, lib ▸ ready.definition⟩
  rcases ready.active with kernel | ⟨pread, cached⟩
  · exact .inl (kernel.congr lib)
  · refine .inr ⟨pread.congr lib, ?_⟩
    rw [lib, own, cached]

theorem Ready.steady {s' : System} (ready : Ready P s) (steady : s.Steady s') : Ready P s' :=
  ready.congr steady.lib_eq (continues_of_steady steady).ownRoot_eq

/-- The root the library walks from, cached or asked for. -/
theorem walkRoot_eq (arch : P.arch = .x86_64) (cached : s.lib.pagingRoot = ownRoot P s)
    {pid : BitVec 32} (target : Target P s root pid) : (walkRoot P pid s).1 = root := by
  obtain ⟨mm, names⟩ := target
  simp only [walkRoot]
  split
  · -- pid 0 names the caller, whose root is the one in the cache
    rename_i zero
    have named := names.named
    rw [zero, show (0 : BitVec 32).signExtend 64 = 0 from rfl, Kernel.getMm_zero,
      Option.some.injEq] at named
    rw [cached, ownRoot, named]
    exact names.rooted
  · have answer := ioctlGetRoot_root P s.current (pid.signExtend 64) 0 s.kernel
    rw [names.named, Option.map_some, Option.getD_some, names.rooted] at answer
    simp only [rootFromTtbr0, arch, Bool.false_eq_true, if_false] at answer
    exact answer

/-- A resolve, made either way, reads the leaf. -/
theorem resolve_leaf (four : FourLevel P) (ready : Ready P s) {pid : BitVec 32}
    (target : Target P s root pid) {b : Word} (orderly : OrderlyWalk P s.kernel.mem root b) :
    ∃ vm s', pteditResolve P b pid s = some (vm, s') ∧ s.Quiet s' ∧
      marks vm.valid .pte = (leafAt s.kernel.mem root b).isSome ∧
      vm.pte = (leafAt s.kernel.mem root b).getD 0 := by
  have ⟨mm, names⟩ := target
  rcases ready.active with kernel | ⟨pread, cached⟩
  · obtain ⟨marked, word⟩ := vmResolve_leaf four names orderly
    refine ⟨(pteditResolveKernel P b pid s).1, _, ?_, pteditResolveKernel_quiet P b pid s, marked,
      word⟩
    simp only [pteditResolve, kernel.resolve]
  · have rooted := walkRoot_eq four.arch cached target
    refine ⟨_, _, resolve_eq pread names.good b pid rooted, walkRoot_quiet P pid s, ?_, rfl⟩
    rw [resolved_marks_pte, leafAt, entryAt, Option.isSome_map]

/-- As far as the walk goes, the record of a resolve has the PGD and the PMD. -/
theorem resolve_upper (four : FourLevel P) (ready : Ready P s) {pid : BitVec 32}
    (target : Target P s root pid) {b : Word} (orderly : OrderlyWalk P s.kernel.mem root b)
    (pgd : pgdEntry s.kernel.mem root b ≠ 0) (pud : pudEntry s.kernel.mem root b ≠ 0)
    (pmd : pmdEntry s.kernel.mem root b ≠ 0) {vm : Entry} {s' : System}
    (resolves : pteditResolve P b pid s = some (vm, s')) :
    vm.pgd = pgdEntry s.kernel.mem root b ∧ vm.pmd = pmdEntry s.kernel.mem root b := by
  have ⟨mm, names⟩ := target
  rcases ready.active with kernel | ⟨pread, cached⟩
  · simp only [pteditResolve, kernel.resolve, Option.some.injEq] at resolves
    have record : (pteditResolveKernel P b pid s).1 = vm := congrArg Prod.fst resolves
    rw [← record]
    exact vmResolve_upper four names orderly pgd pud pmd
  · rw [resolve_eq pread names.good b pid (walkRoot_eq four.arch cached target),
      Option.some.injEq, Prod.mk.injEq] at resolves
    rw [← resolves.1, resolved_orderly orderly]
    simp only [pgd, pud, pmd, false_or, if_false]
    split <;> exact ⟨rfl, rfl⟩

/-- An update with the PTE mask, made either way, edits the leaf. -/
theorem update_leaf (four : FourLevel P) (ready : Ready P s) {pid : BitVec 32}
    (target : Target P s root pid) {b : Word} (orderly : OrderlyWalk P s.kernel.mem root b)
    (vm : Entry) (selected : vm.valid = Level.pte.mask) :
    ∃ s', pteditUpdate P b pid vm s = some s' ∧ s.Steady s' ∧
      tables s'.kernel.mem =
        editStep follow (rootFrame root) (tables s.kernel.mem) (leafEdit b fun _ => vm.pte) := by
  have ⟨mm, names⟩ := target
  rcases ready.active with kernel | ⟨pread, cached⟩
  · refine ⟨pteditUpdateKernel P b pid vm s, ?_, ?_, ?_⟩
    · simp only [pteditUpdate, kernel.update]
    · exact ⟨_, updateVm_steady P s.current _ _ s.kernel, rfl⟩
    · exact vmUpdate_tables four names orderly { vm with vaddr := b, pid := pid.signExtend 64 }
        selected rfl rfl
  · exact update_pte pread names.good b pid (walkRoot_eq four.arch cached target) vm selected

/-- A call that resolves and sends the changed PTE back. -/
theorem pteEdit_leaf (four : FourLevel P) (ready : Ready P s) {pid : BitVec 32}
    (target : Target P s root pid) {b : Word} (orderly : OrderlyWalk P s.kernel.mem root b)
    (change : Word → Word) :
    ∃ s', pteEdit P change b pid s = some s' ∧ s.Steady s' ∧
      tables s'.kernel.mem =
        editStep follow (rootFrame root) (tables s.kernel.mem) (leafEdit b change) := by
  obtain ⟨vm, s₁, resolved, quiet, marked, word⟩ := resolve_leaf four ready target orderly
  have continues := continues_of_steady quiet.steady
  simp only [pteEdit, resolved, Option.bind_some, marked]
  cases leaf : leafAt s.kernel.mem root b with
  | none =>
      refine ⟨s₁, rfl, quiet.steady, ?_⟩
      have missing : frameAt follow (tables s.kernel.mem) (rootFrame root) (addressPath b) = none :=
        Option.map_eq_none_iff.mp leaf
      simp only [editStep, leafEdit, missing, quiet.mem_eq]
  | some w =>
      rw [leaf, Option.getD_some] at word
      obtain ⟨s', updated, steady, stored⟩ := update_leaf four (ready.steady quiet.steady)
        (continues.target target) (by rw [quiet.mem_eq]; exact orderly)
        { vm with pte := change vm.pte, valid := Level.pte.mask } rfl
      refine ⟨s', ?_, quiet.steady.trans steady, ?_⟩
      · simp only [Option.isSome_some, if_true, updated]
      · obtain ⟨frame, reached, here⟩ := Option.map_eq_some_iff.mp leaf
        rw [quiet.mem_eq] at stored
        simp only [stored, editStep, leafEdit, reached, word, here]

/-- **One call, either way, is one leaf edit.** -/
theorem call_leaf (four : FourLevel P) (ready : Ready P s) (call : PteCall)
    (target : Target P s root call.pid) (orderly : OrderlyWalk P s.kernel.mem root call.address) :
    ∃ s', call.run P s = some s' ∧ s.Steady s' ∧
      tables s'.kernel.mem =
        editStep follow (rootFrame root) (tables s.kernel.mem) call.edit := by
  obtain ⟨op, b, pid⟩ := call
  cases op with
  | setBit bit => exact pteEdit_leaf four ready target orderly ((PteOp.setBit bit).onWord .x86_64)
  | clearBit bit => exact pteEdit_leaf four ready target orderly ((PteOp.clearBit bit).onWord .x86_64)
  | setPfn pfn =>
      obtain ⟨s', ran, steady, stored⟩ :=
        pteEdit_leaf four ready target orderly fun pte => pteditSetPfn P.arch pte pfn
      refine ⟨s', ran, steady, ?_⟩
      rw [stored, four.arch]
      rfl
  | update vm =>
      exact update_leaf four ready target orderly { vm with valid := Level.pte.mask } rfl

/-- Switching touches no memory, and leaves a usable implementation. -/
theorem useKernel_ready (ready : Ready P s) :
    Ready P (pteditUseImplementation P 0 false s) ∧
      Continues s (pteditUseImplementation P 0 false s) ∧
      (pteditUseImplementation P 0 false s).kernel.mem = s.kernel.mem :=
  ⟨⟨.inl ⟨rfl, rfl⟩, ready.definition⟩, ⟨rfl, (Kernel.Quiet.refl _).steady, rfl⟩, rfl⟩

theorem usePread_ready (arch : P.arch = .x86_64) (ready : Ready P s) :
    Ready P (pteditUseImplementation P 1 false s) ∧
      Continues s (pteditUseImplementation P 1 false s) ∧
      (pteditUseImplementation P 1 false s).kernel.mem = s.kernel.mem := by
  have quiet := getRoot_quiet P s.current ((0 : BitVec 32).signExtend 64) 0 s.kernel
  have continues : Continues s (pteditUseImplementation P 1 false s) :=
    ⟨rfl, quiet.steady, rfl⟩
  have answer := ioctlGetRoot_root P s.current 0 0 s.kernel
  rw [s.kernel.getMm_zero, Option.map_some, Option.getD_some] at answer
  simp only [rootFromTtbr0, arch, Bool.false_eq_true, if_false] at answer
  exact ⟨⟨.inr ⟨⟨⟨rfl, rfl⟩, arch, ready.definition⟩, answer.trans continues.ownRoot_eq.symm⟩,
    ready.definition⟩, continues, quiet.mem_eq⟩

end Step

/-! ## Whole runs -/

section Run

variable {P : Platform} {s : System} {root : Word}

/-- One more action, whose own edit is known. -/
theorem runActions_cons {rest : List Action} {s₁ : System} (action : Action) (root : Word)
    (ran : action.run P s = some s₁) (continues : Continues s s₁)
    (restRan : ∃ s', runActions P rest s₁ = some s' ∧ Ready P s' ∧ Continues s₁ s' ∧
      tables s'.kernel.mem = editRun follow (rootFrame root) (tables s₁.kernel.mem)
        ((callsOf rest).map PteCall.edit)) :
    ∃ s', runActions P (action :: rest) s = some s' ∧ Ready P s' ∧ Continues s s' ∧
      tables s'.kernel.mem = editRun follow (rootFrame root) (tables s₁.kernel.mem)
        ((callsOf rest).map PteCall.edit) := by
  obtain ⟨s', ranRest, ready', continues', edited⟩ := restRan
  refine ⟨s', ?_, ready', continues.trans continues', edited⟩
  simp only [runActions, ran, Option.bind_some, ranRest]

/-- **A run is a run of leaf edits**, wherever it switches. -/
theorem runActions_edits (four : FourLevel P) (ready : Ready P s)
    (shaped : TreeShapedMemory s.kernel.mem root) (actions : List Action)
    (targets : ∀ call ∈ callsOf actions, Target P s root call.pid)
    (orderly : ∀ call ∈ callsOf actions, OrderlyWalk P s.kernel.mem root call.address) :
    ∃ s', runActions P actions s = some s' ∧ Ready P s' ∧ Continues s s' ∧
      tables s'.kernel.mem =
        editRun follow (rootFrame root) (tables s.kernel.mem)
          ((callsOf actions).map PteCall.edit) := by
  induction actions generalizing s with
  | nil => exact ⟨s, rfl, ready, Continues.refl s, rfl⟩
  | cons action rest ih =>
      cases action with
      | useKernel =>
          obtain ⟨ready₁, continues₁, mem₁⟩ := useKernel_ready ready
          have rest := runActions_cons (P := P) .useKernel root rfl continues₁
            (ih ready₁ (by rw [mem₁]; exact shaped)
              (fun call member => continues₁.target (targets call member))
              (fun call member => by rw [mem₁]; exact orderly call member))
          rw [mem₁] at rest
          exact rest
      | usePread =>
          obtain ⟨ready₁, continues₁, mem₁⟩ := usePread_ready four.arch ready
          have rest := runActions_cons (P := P) .usePread root rfl continues₁
            (ih ready₁ (by rw [mem₁]; exact shaped)
              (fun call member => continues₁.target (targets call member))
              (fun call member => by rw [mem₁]; exact orderly call member))
          rw [mem₁] at rest
          exact rest
      | call call =>
          obtain ⟨s₁, ran, steady, stored⟩ := call_leaf four ready call
            (targets call List.mem_cons_self) (orderly call List.mem_cons_self)
          have continues₁ := continues_of_steady steady
          have rest := runActions_cons (.call call) root ran continues₁
            (ih (ready.steady steady) (treeShaped_leafEdit shaped stored)
              (fun c member => continues₁.target (targets c (List.mem_cons_of_mem _ member)))
              (fun c member => orderlyWalk_leafEdit (orderly c (List.mem_cons_of_mem _ member))
                shaped stored))
          rw [stored] at rest
          exact rest

/-- What a run of edits leaves above the leaves and in them, and that it spoils no walk. -/
theorem editRun_leaves {mem mem' : Mem} (shaped : TreeShapedMemory mem root) (calls : List PteCall)
    (edited : tables mem' =
      editRun follow (rootFrame root) (tables mem) (calls.map PteCall.edit)) :
    TreeShapedMemory mem' root ∧
      (∀ b, OrderlyWalk P mem root b → OrderlyWalk P mem' root b) ∧
      (∀ path i, path.length < 3 → entryAt follow (tables mem') (rootFrame root) path i =
        entryAt follow (tables mem) (rootFrame root) path i) ∧
      ∀ b, leafAt mem' root b = (leafAt mem root b).map (opsOn b calls) := by
  obtain ⟨shape, -, inner, leaves⟩ := editRun_refines shaped (calls.map PteCall.edit) (by
    intro edit member
    obtain ⟨call, _, rfl⟩ := List.mem_map.mp member
    rfl)
  rw [← edited] at shape inner leaves
  refine ⟨shape, fun b orderly => orderlyWalk_of_inner orderly inner, inner, ?_⟩
  intro b
  rw [leafAt, leaves _ _ rfl]
  exact congrArg (Option.map · _) (funext (changesAt_eq_opsOn b calls))

/-- **Where a program switches does not matter.**  A run of PTE calls and switches between the
device and `pread` succeeds.  Whatever is selected before and after it, a resolve then finds the
PTE it found before, under the run's operations on its page, in order; the memory is still
tree-shaped, and no byte outside the PTE slots of the called addresses changes. -/
theorem mixed_calls_refine_page_map (four : FourLevel P) (ready : Ready P s)
    (shaped : TreeShapedMemory s.kernel.mem root) (actions : List Action)
    (targets : ∀ call ∈ callsOf actions, Target P s root call.pid)
    (orderly : ∀ call ∈ callsOf actions, OrderlyWalk P s.kernel.mem root call.address) :
    ∃ s', runActions P actions s = some s' ∧ TreeShapedMemory s'.kernel.mem root ∧
      (∀ b pid, Target P s root pid → OrderlyWalk P s.kernel.mem root b →
        ∃ before after s₁ s₂, pteditResolve P b pid s = some (before, s₁) ∧
          pteditResolve P b pid s' = some (after, s₂) ∧
          marks after.valid .pte = marks before.valid .pte ∧
          after.pte =
            if marks before.valid .pte then opsOn b (callsOf actions) before.pte else 0) ∧
      (∀ x, (∀ call ∈ callsOf actions, ∀ slot,
        PageMap.pteSlot s.kernel.mem root call.address = some slot → 8#64 ≤ x - slot) →
          s'.kernel.mem x = s.kernel.mem x) := by
  obtain ⟨s', ran, ready', continues, edited⟩ :=
    runActions_edits four ready shaped actions targets orderly
  obtain ⟨shaped', orderly', -, leaves⟩ := editRun_leaves (P := P) shaped (callsOf actions) edited
  refine ⟨s', ran, shaped', ?_, ?_⟩
  · intro b pid target orderlyB
    obtain ⟨before, s₁, first, -, marked, word⟩ := resolve_leaf four ready target orderlyB
    obtain ⟨after, s₂, last, -, marked', word'⟩ :=
      resolve_leaf four ready' (continues.target target) (orderly' b orderlyB)
    rw [leaves b] at marked' word'
    refine ⟨before, after, s₁, s₂, first, last, ?_, ?_⟩
    · rw [marked, marked', Option.isSome_map]
    · rw [marked, word', word]
      cases leafAt s.kernel.mem root b with
      | none => rfl
      | some w => rfl
  · intro x outside
    exact runCalls_outside (callsOf actions) shaped edited x outside

/-- Three edits of the one page: through the device, through `pread`, and back. -/
theorem mixed_calls_refine_page_map_onePage :
    ∃ s' after s₂, runActions fourLevelPlatform
        [.call ⟨.setBit 9, 0, 0⟩, .usePread, .call ⟨.clearBit 1, 0xfff, 0⟩, .useKernel,
          .call ⟨.setPfn 7, 0x10, 0⟩] onePageKernelSystem = some s' ∧
      pteditResolve fourLevelPlatform 0 0 s' = some (after, s₂) ∧ after.pte = 0x7205 := by
  have own : fourLevelPlatform.virtToPhys (onePageKernel.pgd 0) = 0x1000 :=
    fourLevelPlatform.virtToPhys_physToVirt 0x1000
  have ready : Ready fourLevelPlatform onePageKernelSystem := ⟨.inl ⟨rfl, rfl⟩, rfl⟩
  have target : Target fourLevelPlatform onePageKernelSystem 0x1000 0 :=
    ⟨0, by decide, own, by decide, by decide⟩
  have orderly : ∀ b, b = 0 ∨ b = 0xfff ∨ b = 0x10 →
      OrderlyWalk fourLevelPlatform onePageMem 0x1000 b := by
    rintro b (rfl | rfl | rfl)
    · exact onePage_orderly
    · constructor <;> decide +kernel
    · constructor <;> decide +kernel
  obtain ⟨s', ran, -, resolves, -⟩ := mixed_calls_refine_page_map fourLevelPlatform_fourLevel ready
    (show TreeShapedMemory onePageKernelSystem.kernel.mem 0x1000 from onePageMem_treeShaped)
    [.call ⟨.setBit 9, 0, 0⟩, .usePread, .call ⟨.clearBit 1, 0xfff, 0⟩, .useKernel,
      .call ⟨.setPfn 7, 0x10, 0⟩]
    (by
      intro call member
      simp only [callsOf, List.filterMap_cons, List.filterMap_nil, List.mem_cons,
        List.not_mem_nil, or_false] at member
      rcases member with rfl | rfl | rfl <;> exact target)
    (by
      intro call member
      simp only [callsOf, List.filterMap_cons, List.filterMap_nil, List.mem_cons,
        List.not_mem_nil, or_false] at member
      rcases member with rfl | rfl | rfl
      · exact orderly 0 (.inl rfl)
      · exact orderly 0xfff (.inr (.inl rfl))
      · exact orderly 0x10 (.inr (.inr rfl)))
  obtain ⟨before, after, s₁, s₂, first, last, -, change⟩ :=
    resolves 0 0 target (orderly 0 (.inl rfl))
  refine ⟨s', after, s₂, ran, last, ?_⟩
  have initial : (pteditResolve fourLevelPlatform 0 0 onePageKernelSystem).map
      (fun answer => (marks answer.1.valid .pte, answer.1.pte)) = some (true, 0x5007) := by
    decide +kernel
  rw [first, Option.map_some, Option.some.injEq, Prod.mk.injEq] at initial
  rw [change, initial.1, initial.2]
  decide

end Run

end PTEditor.Linux.MixedRuns
