/-
# PTEditor.Linux.LevelBits -- `ptedit_set_bit` and `ptedit_clear_bit` through the kernel

The two calls resolve all levels, change the selected ones, and send every valid
level back.  What a slot holds afterwards is the copy that the kernel stores there
last (`lastCopy`): on a 4-level machine the P4D is folded, its slot is the PGD's, and
the kernel writes the PGD before the P4D.  And the library changes its copy of a level
only if its definition of the tables has the level (`edits`): no definition has a P4D,
so an edit of the PGD is written and then overwritten by the stale copy, and the one
for aarch64 with 4 KiB pages has no PUD.

`read64_updateStores` says what one update leaves in a slot, `read64_sentBack` what the
call leaves there.  `bitCall_takes_effect_iff` puts them together: all selected levels
take effect, and no other, exactly when for each slot the call is to change its word if
and only if the library changes the copy stored there last, or the bit is there already.
-/
import PTEditor.Library.X86Walk

namespace PTEditor.Linux.LevelBits

open PTEditor.Theory.ByteMemory PTEditor.Interface PTEditor.Module PTEditor.Library
open PTEditor.Library.X86Walk

set_option autoImplicit false

/-! ## Folded walks -/

/-- The P4D slot is the PGD slot. -/
def Folded (vm : Vm) : Prop := ∀ slot, vm.slot .p4d = some slot → vm.slot .pgd = some slot

/-- The slots of the four levels share no byte; the P4D's is not a word of its own. -/
def FourSlotsApart (vm : Vm) : Prop :=
  ∀ level other a b, level ≠ .p4d → other ≠ .p4d → level ≠ other →
    vm.slot level = some a → vm.slot other = some b → Apart a b

/-- The word at `a` is a slot of `level` alone, or of `level` and the P4D. -/
def OneLevel (vm : Vm) (level : Level) (a : Word) : Prop :=
  ∀ other b, vm.slot other = some b →
    (b = a ∧ (other = level ∨ other = .p4d ∧ vm.slot level = some a)) ∨ Apart b a

theorem OneLevel.hit {vm : Vm} {level other : Level} {a : Word} (one : OneLevel vm level a)
    (reached : vm.slot other = some a) : other = level ∨ other = .p4d ∧ vm.slot level = some a := by
  rcases one other a reached with ⟨-, which⟩ | apart
  · exact which
  · exact absurd rfl apart.ne

theorem OneLevel.owns {vm : Vm} {level : Level} {a : Word} (one : OneLevel vm level a)
    (reached : vm.slot level = some a) : vm.Owns level a := by
  refine ⟨reached, ?_⟩
  rintro rfl other hit
  rcases one.hit hit with same | ⟨same, -⟩
  · exact same
  · exact same

theorem FourSlotsApart.oneLevel {vm : Vm} (apart : FourSlotsApart vm) (folded : Folded vm)
    {level : Level} {a : Word} (notP4d : level ≠ .p4d) (reached : vm.slot level = some a) :
    OneLevel vm level a := by
  have four : ∀ other b, other ≠ .p4d → vm.slot other = some b →
      (b = a ∧ other = level) ∨ Apart b a := by
    intro other b otherNotP4d atB
    by_cases same : other = level
    · subst same
      exact .inl ⟨Option.some.inj (atB.symm.trans reached), rfl⟩
    · exact .inr (apart other level b a otherNotP4d notP4d same atB reached)
  intro other b atB
  by_cases p4d : other = .p4d
  · subst p4d
    rcases four .pgd b (by decide) (folded b atB) with ⟨here, -⟩ | apart
    · exact .inl ⟨here, .inr ⟨rfl, reached⟩⟩
    · exact .inr apart
  · exact (four other b p4d atB).imp (And.imp_right .inl) id

/-- `p4d_offset(pgd, addr)` returns `pgd`, on a kernel that has the call. -/
structure FoldedP4d (P : Platform) : Prop where
  version : P.hasP4d = true
  p4dOffset : ∀ mem pgd addr, P.helpers.p4dOffset mem pgd addr = pgd

section Walk

variable {P : Platform} (mem : Mem) (addr : Word)

/-- Levels below the P4D leave the PGD and P4D pointers alone. -/
theorem Folded.reach {vm : Vm} (folded : Folded vm) (level : Level) (slot : Word)
    (notPgd : level ≠ .pgd) (notP4d : level ≠ .p4d) : Folded (vm.reach level slot) := by
  intro a reached
  rw [Vm.reach_slot, if_neg (Ne.symm notP4d)] at reached
  rw [Vm.reach_slot, if_neg (Ne.symm notPgd)]
  exact folded a reached

theorem walkPud_folded (parent : Word) {entry : Vm} (folded : Folded entry) :
    Folded (walkPud P mem addr parent entry).1 := by
  refine (walkPud_descends P mem addr parent entry).invariant ?_ folded
  intro vm level slot member held
  apply held.reach level slot
  · rintro rfl
    exact absurd member (by decide)
  · rintro rfl
    exact absurd member (by decide)

theorem walkPgd_folded (fold : FoldedP4d P) (root pid : Word) :
    Folded (walkPgd P mem addr root (Vm.cleared pid)).1 := by
  have start : Folded ((Vm.cleared pid).reach .pgd (P.helpers.pgdOffset root addr)) := by
    intro slot reached
    simp at reached
  simp only [walkPgd, walkP4d, fold.version, fold.p4dOffset, if_true]
  split
  · intro slot reached
    simp at reached
  split
  · exact start
  · apply walkPud_folded
    intro slot reached
    simpa using reached

end Walk

theorem resolvedVm_folded {P : Platform} (fold : FoldedP4d P) (current : Process) (addr pid : Word)
    (k : Kernel) : Folded (resolvedVm P current addr pid k) := by
  cases found : k.getMm current pid with
  | none =>
      rw [resolvedVm_none P current addr pid found]
      intro slot reached
      simp at reached
  | some mm =>
      rw [resolvedVm_some P current addr pid found]
      exact walkPgd_folded k.mem addr fold _ pid

/-! ## What one update leaves in a slot -/

/-- The level whose copy is stored last in the slot of `level`: the kernel writes the
P4D right after the PGD. -/
def lastCopy (vm : Vm) (level : Level) : Level :=
  if level = .pgd ∧ vm.slot .p4d = vm.slot .pgd then .p4d else level

theorem lastCopy_slot (vm : Vm) (level : Level) : vm.slot (lastCopy vm level) = vm.slot level := by
  simp only [lastCopy]
  split
  · rename_i folded
    rw [folded.2, folded.1]
  · rfl

section Update

variable {vm : Vm} {level : Level} {a : Word}

theorem read64_levelStore (inStep : vm.InStep) (one : OneLevel vm level a) (m : Mem) {n : Entry}
    (sent : ∀ other b, vm.slot other = some b → marks n.valid other = true) (other : Level) :
    read64 (storeAll m (levelStore vm n other)) a =
      if vm.slot other = some a then n.word other else read64 m a := by
  cases reached : vm.slot other with
  | none => simp only [levelStore_none inStep n reached, storeAll_nil, reduceCtorEq, if_false]
  | some b =>
      rw [levelStore_some inStep n reached, if_pos (sent other b reached), storeAll_cons,
        storeAll_nil]
      rcases one other b reached with ⟨rfl, -⟩ | apart
      · rw [read64_write64_self, if_pos rfl]
      · rw [read64_write64_apart m _ apart, if_neg fun same => apart.ne (Option.some.inj same)]

/-- **One update that sends all valid levels.**  A slot holds the copy stored there last. -/
theorem read64_updateStores {P : Platform} (inStep : vm.InStep)
    (version : P.hasP4d = false → vm.slot .p4d = none) (one : OneLevel vm level a)
    (reached : vm.slot level = some a) (m : Mem) {n : Entry}
    (sent : ∀ other b, vm.slot other = some b → marks n.valid other = true) :
    read64 (storeAll m (updateStores P vm n)) a = n.word (lastCopy vm level) := by
  have other : ∀ l, l ≠ level → l ≠ .p4d → vm.slot l ≠ some a := by
    intro l notLevel notP4d hit
    rcases one.hit hit with same | ⟨same, -⟩
    · exact notLevel same
    · exact notP4d same
  simp only [updateStores_eq inStep version, storeAll_append, read64_levelStore inStep one _ sent]
  cases level with
  | pgd =>
      rw [if_neg (other .pte (by decide) (by decide)), if_neg (other .pmd (by decide) (by decide)),
        if_neg (other .pud (by decide) (by decide)), if_pos reached, lastCopy, reached]
      by_cases folded : vm.slot .p4d = some a
      · rw [if_pos folded, if_pos ⟨rfl, folded⟩]
      · rw [if_neg folded, if_neg fun both => folded both.2]
  | p4d =>
      rw [if_neg (other .pte (by decide) (by decide)), if_neg (other .pmd (by decide) (by decide)),
        if_neg (other .pud (by decide) (by decide)), if_pos reached]
      rfl
  | pud =>
      rw [if_neg (other .pte (by decide) (by decide)), if_neg (other .pmd (by decide) (by decide)),
        if_pos reached]
      rfl
  | pmd =>
      rw [if_neg (other .pte (by decide) (by decide)), if_pos reached]
      rfl
  | pte =>
      rw [if_pos reached]
      rfl

end Update

/-! ## What the library sends back -/

section Edit

variable (change : Word → Word) (levels : Word)

theorem editLevel_marks (level : Level) (has : Bool) (vm : Entry) (other : Level) :
    marks (editLevel change levels level has vm).valid other = marks vm.valid other := by
  simp only [editLevel]
  split
  · rename_i edited
    simp only [Bool.and_eq_true] at edited
    rw [Entry.mark_valid, Entry.setWord_valid, marks_or, marks_mask]
    by_cases same : other = level
    · simp [same, edited.1.1]
    · simp [same]
  · rfl

theorem editLevel_word (level : Level) (has : Bool) (vm : Entry) (other : Level) :
    (editLevel change levels level has vm).word other =
      if other = level ∧ (marks vm.valid level && marks levels level && has) = true then
        change (vm.word level)
      else vm.word other := by
  simp only [editLevel]
  split
  · rename_i edited
    simp [edited]
  · rename_i kept
    simp [kept]

/-- The library changes its copy of a level that is selected and, PTE apart, in its definition. -/
def edits (d : PagingDefinition) (levels : Word) (level : Level) : Bool :=
  marks levels level && (level == .pte || d.has level)

theorem editLevels_marks (d : PagingDefinition) (vm : Entry) (level : Level) :
    marks (editLevels d change levels vm).valid level = marks vm.valid level := by
  simp only [editLevels, editLevel_marks]

theorem editLevels_word (d : PagingDefinition) (vm : Entry) (level : Level) :
    (editLevels d change levels vm).word level =
      if (marks vm.valid level && edits d levels level) = true then change (vm.word level)
      else vm.word level := by
  simp only [editLevels, editLevel_word, editLevel_marks]
  cases level <;> simp [edits, PagingDefinition.has, and_assoc]

end Edit

/-! ## The calls -/

inductive BitOp where
  | set
  | clear
  deriving DecidableEq, Repr

namespace BitOp

def change : BitOp → Fin 64 → Word → Word
  | .set, bit, w => w ||| (1#64 <<< bit.val)
  | .clear, bit, w => w &&& ~~~(1#64 <<< bit.val)

def value : BitOp → Bool
  | .set => true
  | .clear => false

def call (P : Platform) : BitOp → Word → BitVec 32 → Fin 64 → Word → System → Option System
  | .set => pteditSetBit P
  | .clear => pteditClearBit P

theorem call_eq {P : Platform} (op : BitOp) (address : Word) (pid : BitVec 32) (bit : Fin 64)
    (levels : Word) (s : System) :
    op.call P address pid bit levels s = levelsEdit P (op.change bit) address pid levels s := by
  cases op with
  | set => rfl
  | clear => rfl

theorem getLsbD_change (op : BitOp) (bit : Fin 64) (w : Word) (i : Nat) (bound : i < 64) :
    (op.change bit w).getLsbD i = if i = bit.val then op.value else w.getLsbD i := by
  have power := getLsbD_one_shiftLeft bit.isLt i
  cases op with
  | set =>
      simp only [change, value, BitVec.getLsbD_or, power]
      by_cases here : i = bit.val <;> simp [here]
  | clear =>
      simp only [change, value, BitVec.getLsbD_and, BitVec.getLsbD_not, power]
      by_cases here : i = bit.val <;> simp [here, bound]

theorem change_eq_iff (op : BitOp) (bit : Fin 64) (w : Word) :
    op.change bit w = w ↔ w.getLsbD bit.val = op.value := by
  constructor
  · intro same
    rw [← same, op.getLsbD_change bit w bit.val bit.isLt, if_pos rfl]
  · intro already
    apply BitVec.eq_of_getLsbD_eq
    intro i bound
    rw [op.getLsbD_change bit w i bound]
    split
    · rename_i here
      rw [here, already]
    · rfl

/-- Changing a word when it is due, or when it is not. -/
theorem change_if_iff (op : BitOp) (bit : Fin 64) (w : Word) (changes due : Bool) :
    ((if changes then op.change bit w else w) = if due then op.change bit w else w) ↔
      changes = due ∨ w.getLsbD bit.val = op.value := by
  have already := op.change_eq_iff bit w
  cases changes <;> cases due
  · simp
  · simpa using eq_comm.trans already
  · simpa using already
  · simp

end BitOp

/-- Every valid level among PGD, PUD, PMD and PTE has its bit changed if it is
selected, and keeps its word if it is not. -/
def TakesEffect (vm : Vm) (op : BitOp) (bit : Fin 64) (levels : Word) (before after : Mem) : Prop :=
  ∀ level slot, level ≠ .p4d → vm.slot level = some slot →
    read64 after slot =
      if marks levels level then op.change bit (read64 before slot) else read64 before slot

/-- What the library sends after a resolve that found the pointers `vm`. -/
def sentBack (d : PagingDefinition) (op : BitOp) (bit : Fin 64) (levels addr pid : Word) (mem : Mem)
    (vm : Vm) : Entry :=
  editLevels d (op.change bit) levels (vmToUser mem (Entry.zeroed addr pid) vm)

section Sent

variable (d : PagingDefinition) (op : BitOp) (bit : Fin 64) (levels addr pid : Word) (mem : Mem)

theorem sentBack_target (vm : Vm) : (sentBack d op bit levels addr pid mem vm).vaddr = addr ∧
    (sentBack d op bit levels addr pid mem vm).pid = pid := by
  have kept : ∀ change level has entry,
      (editLevel change levels level has entry).vaddr = entry.vaddr ∧
        (editLevel change levels level has entry).pid = entry.pid := by
    intro change level has entry
    simp only [editLevel]
    split
    · cases level <;> exact ⟨rfl, rfl⟩
    · exact ⟨rfl, rfl⟩
  simp only [sentBack, editLevels, kept]
  exact ⟨rfl, rfl⟩

/-- The update of such a record: it carries its address and process already. -/
theorem ioctlVmUpdate_sentBack (P : Platform) (current : Process) (vm : Vm) (k : Kernel) :
    let sent := sentBack d op bit levels addr pid mem vm
    (ioctlVmUpdate P current { sent with vaddr := addr, pid } k).2.mem =
      storeAll k.mem (updateStores P (resolvedVm P current addr pid k) sent) := by
  intro sent
  obtain ⟨sameAddr, samePid⟩ := sentBack_target d op bit levels addr pid mem vm
  have stored := updateVm_stores P current sent (!k.mmIsLocked) k
  rw [Entry.retarget_eq sameAddr samePid]
  rw [sameAddr, samePid] at stored
  exact stored

variable {vm : Vm}

theorem sentBack_marks (inStep : vm.InStep) {level : Level} {slot : Word}
    (reached : vm.slot level = some slot) :
    marks (sentBack d op bit levels addr pid mem vm).valid level = true := by
  rw [sentBack, editLevels_marks, vmToUser_valid, inStep level, reached, Option.isSome_some]

theorem sentBack_word (inStep : vm.InStep) {level : Level} {slot : Word}
    (reached : vm.slot level = some slot) :
    (sentBack d op bit levels addr pid mem vm).word level =
      if edits d levels level then op.change bit (read64 mem slot) else read64 mem slot := by
  rw [sentBack, editLevels_word, vmToUser_valid, vmToUser_word, inStep level, reached]
  simp

/-- **What the call leaves in a slot.** -/
theorem read64_sentBack {P : Platform} (inStep : vm.InStep)
    (version : P.hasP4d = false → vm.slot .p4d = none) {level : Level} {a : Word}
    (one : OneLevel vm level a) (reached : vm.slot level = some a) :
    read64 (storeAll mem (updateStores P vm (sentBack d op bit levels addr pid mem vm))) a =
      if edits d levels (lastCopy vm level) then op.change bit (read64 mem a)
      else read64 mem a := by
  rw [read64_updateStores inStep version one reached mem fun other b atB =>
    sentBack_marks d op bit levels addr pid mem inStep atB]
  exact sentBack_word d op bit levels addr pid mem inStep ((lastCopy_slot vm level).trans reached)

end Sent

section Call

variable {P : Platform} {s : System}

/-- One call is one update with what the resolve returned, edited. -/
theorem bitCall_mem (resolve : s.lib.resolve = some .kernel) (update : s.lib.update = some .kernel)
    (op : BitOp) (addr : Word) (pid : BitVec 32) (bit : Fin 64) (levels : Word) :
    ∃ s', op.call P addr pid bit levels s = some s' ∧
      s'.kernel.mem =
        let vm := resolvedVm P s.current addr (pid.signExtend 64) s.kernel
        storeAll s.kernel.mem (updateStores P vm
          (sentBack s.lib.pagingDefinition op bit levels addr (pid.signExtend 64) s.kernel.mem vm))
      := by
  obtain ⟨k, quiet, after⟩ := pteditResolveKernel_quiet P addr pid s
  simp only [op.call_eq, levelsEdit, pteditResolve, resolve, Option.bind_some, pteditUpdate, after,
    update]
  refine ⟨_, rfl, ?_⟩
  rw [pteditResolveKernel_entry]
  have stored := ioctlVmUpdate_sentBack s.lib.pagingDefinition op bit levels addr
    (pid.signExtend 64) s.kernel.mem P s.current
    (resolvedVm P s.current addr (pid.signExtend 64) s.kernel) k
  rw [quiet.mem_eq, resolvedVm_congr P s.current _ _ quiet.steady quiet.mem_eq] at stored
  exact stored

/-- **When the bit calls take effect.**  Through the kernel, every selected level
of a 4-level walk is changed and no other, exactly when for each level the walk reaches the bit
is there already, or the library changes the copy that is stored last just if the level is
selected. -/
theorem bitCall_takes_effect_iff (fold : FoldedP4d P) (resolve : s.lib.resolve = some .kernel)
    (update : s.lib.update = some .kernel) (op : BitOp) (addr : Word) (pid : BitVec 32)
    (bit : Fin 64) (levels : Word)
    (apart : FourSlotsApart (resolvedVm P s.current addr (pid.signExtend 64) s.kernel)) :
    ∃ s', op.call P addr pid bit levels s = some s' ∧
      (TakesEffect (resolvedVm P s.current addr (pid.signExtend 64) s.kernel) op bit levels
          s.kernel.mem s'.kernel.mem ↔
        ∀ level slot, level ≠ .p4d →
          (resolvedVm P s.current addr (pid.signExtend 64) s.kernel).slot level = some slot →
            edits s.lib.pagingDefinition levels (lastCopy
                (resolvedVm P s.current addr (pid.signExtend 64) s.kernel) level) =
              marks levels level ∨
            (read64 s.kernel.mem slot).getLsbD bit.val = op.value) := by
  obtain ⟨s', called, mem⟩ := bitCall_mem (P := P) resolve update op addr pid bit levels
  refine ⟨s', called, ?_⟩
  have inStep := resolvedVm_inStep P s.current addr (pid.signExtend 64) s.kernel
  have folded := resolvedVm_folded fold s.current addr (pid.signExtend 64) s.kernel
  have version := fun old : P.hasP4d = false =>
    resolvedVm_p4d_none old s.current addr (pid.signExtend 64) s.kernel
  generalize resolvedVm P s.current addr (pid.signExtend 64) s.kernel = vm at *
  refine forall₄_congr fun level slot notP4d reached => ?_
  rw [mem, read64_sentBack _ _ _ _ _ _ _ inStep version (apart.oneLevel folded notP4d reached)
    reached]
  exact op.change_if_iff bit _ _ _

theorem foldedP4d_fourLevelPlatform : FoldedP4d fourLevelPlatform :=
  ⟨fourLevelPlatform_fourLevel.version, fun _ _ _ => rfl⟩

theorem folded_onePage : Folded (resolvedVm fourLevelPlatform onePageProcess 0 0 onePageKernel) :=
  resolvedVm_folded foldedP4d_fourLevelPlatform onePageProcess 0 0 onePageKernel

theorem fourSlotsApart_onePage :
    FourSlotsApart (resolvedVm fourLevelPlatform onePageProcess 0 0 onePageKernel) := by
  rw [resolvedVm_onePage]
  intro level other a b notP4d notP4d' ne atA atB
  cases level <;> cases other <;>
    first
      | exact absurd rfl ne
      | exact absurd rfl notP4d
      | exact absurd rfl notP4d'
      | (cases atA; cases atB; decide)

/-- A call that selects the PMD and the PTE. -/
theorem bitCall_takes_effect_onePage :
    ∃ s', pteditSetBit fourLevelPlatform 0 0 9 0x18 onePageKernelSystem = some s' ∧
      TakesEffect (resolvedVm fourLevelPlatform onePageProcess 0 0 onePageKernel) .set 9 0x18
        onePageMem s'.kernel.mem := by
  obtain ⟨s', called, effect⟩ := bitCall_takes_effect_iff foldedP4d_fourLevelPlatform
    (s := onePageKernelSystem) rfl rfl .set 0 0 9 0x18 fourSlotsApart_onePage
  have due : ∀ level, level ≠ .p4d → edits .x86_64 0x18
      (lastCopy (resolvedVm fourLevelPlatform onePageProcess 0 0 onePageKernel) level) =
        marks 0x18 level := by
    intro level notP4d
    rw [resolvedVm_onePage]
    cases level <;> first | exact absurd rfl notP4d | decide
  exact ⟨s', called, effect.mpr fun level _ notP4d _ => .inl (due level notP4d)⟩

/-- Setting bit 9 of the PGD leaves the PGD as it was. -/
theorem bitCall_pgd_edit_lost :
    FourSlotsApart (resolvedVm fourLevelPlatform onePageProcess 0 0 onePageKernel) ∧
      ∃ s', pteditSetBit fourLevelPlatform 0 0 9 Level.pgd.mask onePageKernelSystem = some s' ∧
        ¬ TakesEffect (resolvedVm fourLevelPlatform onePageProcess 0 0 onePageKernel) .set 9
          Level.pgd.mask onePageMem s'.kernel.mem := by
  refine ⟨fourSlotsApart_onePage, ?_⟩
  have lost : (pteditSetBit fourLevelPlatform 0 0 9 Level.pgd.mask onePageKernelSystem).map
      (fun s => read64 s.kernel.mem 0x1000) = some 0x2007 := by
    decide +kernel
  obtain ⟨s', called, word⟩ := Option.map_eq_some_iff.mp lost
  refine ⟨s', called, ?_⟩
  intro effect
  have changed := effect .pgd 0x1000 (by decide) (by rw [resolvedVm_onePage]; rfl)
  rw [word] at changed
  exact absurd changed (by decide +kernel)

end Call

end PTEditor.Linux.LevelBits
