/-
# PTEditor.Library.PageMap -- editing PTEs is editing a map from pages to words

The abstract view of the PTE-level calls: a process is a map from pages (address
bits 12 to 47) to PTE words, and `ptedit_pte_set_bit`, `ptedit_pte_clear_bit`,
`ptedit_pte_set_pfn` and `ptedit_update` with the PTE mask are functions on the
word of one page.  The code instead walks the page tables anew for every call,
in a memory its earlier calls have changed.

`call_step` is one call: it is a leaf edit of the radix tables.  Over a run the
tree shape carries (`editRun_refines`), so the code's final resolves are those
of the map (`pte_calls_refine_page_map`).
-/
import PTEditor.Library.X86Walk

namespace PTEditor.Library.PageMap

open PTEditor.Theory.ByteMemory PTEditor.Theory.RadixTree PTEditor.Interface PTEditor.Module
open PTEditor.Library.X86Walk

set_option autoImplicit false

/-- The calls that edit one PTE. -/
inductive PteOp where
  | setBit (bit : Fin 64)
  | clearBit (bit : Fin 64)
  | setPfn (pfn : Word)
  | update (vm : Entry)

/-- What a call means for the word of its page. -/
def PteOp.onWord (arch : Arch) : PteOp → Word → Word
  | .setBit bit, pte => pte ||| (1#64 <<< bit.val)
  | .clearBit bit, pte => pte &&& ~~~(1#64 <<< bit.val)
  | .setPfn pfn, pte => pteditSetPfn arch pte pfn
  | .update vm, _ => vm.pte

structure PteCall where
  op : PteOp
  address : Word
  pid : BitVec 32

def PteCall.run (P : Platform) (call : PteCall) (s : System) : Option System :=
  match call.op with
  | .setBit bit => pteditPteSetBit P call.address call.pid bit s
  | .clearBit bit => pteditPteClearBit P call.address call.pid bit s
  | .setPfn pfn => pteditPteSetPfn P call.address call.pid pfn s
  | .update vm => pteditUpdate P call.address call.pid { vm with valid := Level.pte.mask } s

def runCalls (P : Platform) : List PteCall → System → Option System
  | [], s => some s
  | call :: rest, s => (call.run P s).bind (runCalls P rest)

def PteCall.edit (call : PteCall) : Edit Index Word where
  path := addressPath call.address
  index := addressIndex .pte call.address
  change := call.op.onWord .x86_64

/-- The root table and all tables the walk reaches, one per index prefix, are
different frames. -/
def TreeShapedMemory (mem : Mem) (root : Word) : Prop :=
  TreeShaped follow (tables mem) (rootFrame root) 3

/-- Two addresses of one page: bits 12 to 47 agree. -/
def samePage (a b : Word) : Bool := a.extractLsb' 12 36 == b.extractLsb' 12 36

/-- The operations of a call list on the page of `b`, in order. -/
def opsOn (b : Word) (calls : List PteCall) (pte : Word) : Word :=
  calls.foldl (fun w call => if samePage call.address b then call.op.onWord .x86_64 w else w) pte

/-- The library runs with `PTEDIT_IMPL_USER_PREAD` on x86-64, with the definition
`ptedit_init` installs there. -/
structure PreadX86 (P : Platform) (s : System) : Prop extends Selected .user s where
  arch : P.arch = .x86_64
  definition : s.lib.pagingDefinition = .x86_64

theorem PreadX86.congr {P : Platform} {s s' : System} (pread : PreadX86 P s)
    (lib : s'.lib = s.lib) : PreadX86 P s' :=
  ⟨pread.toSelected.congr lib, pread.arch, lib ▸ pread.definition⟩

theorem PreadX86.steady {P : Platform} {s s' : System} (pread : PreadX86 P s)
    (steady : s.Steady s') : PreadX86 P s' := pread.congr steady.lib_eq

section Step

variable {P : Platform} {s : System} {root : Word}

theorem resolve_eq (pread : PreadX86 P s) (good : GoodRoot root) (b : Word) (pid : BitVec 32)
    (rooted : (walkRoot P pid s).1 = root) :
    pteditResolve P b pid s =
      some (resolved (tables s.kernel.mem) (rootFrame root) b pid, (walkRoot P pid s).2) := by
  simp only [pteditResolve, pread.resolve]
  exact pteditResolveUser_x86_64 pread.arch pread.definition good b pid rooted

theorem resolved_marks_pte (T : Tables Frame Index Word) (frame : Frame) (b : Word)
    (pid : BitVec 32) :
    marks (resolved T frame b pid).valid .pte =
      (frameAt follow T frame (addressPath b)).isSome := by
  simp only [resolved, addressPath]
  cases (frameAt follow T frame [addressIndex .pgd b]).isSome <;>
    cases (frameAt follow T frame [addressIndex .pgd b, addressIndex .pud b]).isSome <;>
      cases (frameAt follow T frame
        [addressIndex .pgd b, addressIndex .pud b, addressIndex .pmd b]).isSome <;> simp

/-- The PTE slot the update computes from a finished walk is the slot the walk
ended in. -/
theorem updateSlot_resolved (T : Tables Frame Index Word) {root frame : Frame} (b : Word)
    (pid : BitVec 32) (reached : frameAt follow T root (addressPath b) = some frame) :
    updateSlot .x86_64 .x86_64 b .pte (resolved T root b pid).pmd =
      slot frame (addressIndex .pte b) := by
  rw [updateSlot_x86_64]
  simp only [addressPath, frameAt_three, Option.bind_eq_some_iff] at reached
  obtain ⟨f, two, three⟩ := reached
  simp only [resolved, entryAt, two, Option.map_some, Option.getD_some]
  unfold follow at three
  split at three
  · rw [Option.some.inj three]
  · cases three

/-- `ptedit_update` with the PTE mask stores the PTE of a page that has one. -/
theorem update_pte (pread : PreadX86 P s) (good : GoodRoot root) (b : Word) (pid : BitVec 32)
    (rooted : (walkRoot P pid s).1 = root) (vm : Entry) (selected : vm.valid = Level.pte.mask) :
    ∃ s', pteditUpdate P b pid vm s = some s' ∧ s.Steady s' ∧
      tables s'.kernel.mem = editStep follow (rootFrame root) (tables s.kernel.mem)
        ⟨addressPath b, addressIndex .pte b, fun _ => vm.pte⟩ := by
  obtain ⟨s', updated, steady, mem⟩ :=
    pteditUpdateUser_spec P (resolve_eq pread good b pid rooted) vm
  have alone : ∀ level, level ≠ .pte → marks vm.valid level = false := by
    intro level ne
    rw [selected, marks_mask]
    simp [ne]
  have pte : marks vm.valid .pte = true := by rw [selected, marks_mask]; rfl
  refine ⟨s', by simp only [pteditUpdate, pread.update, updated], steady, ?_⟩
  rw [rooted, root_and_not_one good.aligned, if_neg good.nonzero, pread.arch,
    pread.definition] at mem
  simp only [userStores, guardedStore, pte, alone .pmd (by decide), alone .pud (by decide),
    alone .p4d (by decide), alone .pgd (by decide), Bool.false_and, Bool.true_and, Bool.and_true,
    Bool.false_eq_true, if_false, List.append_nil, resolved_marks_pte] at mem
  simp only [editStep]
  cases reached : frameAt follow (tables s.kernel.mem) (rootFrame root) (addressPath b) with
  | none =>
      simp only [reached, Option.isSome_none, Bool.false_eq_true, if_false, storeAll_nil] at mem
      rw [mem]
  | some frame =>
      simp only [reached, Option.isSome_some, if_true, storeAll_cons, storeAll_nil,
        updateSlot_resolved _ b pid reached] at mem
      rw [mem, tables_write64]
      rfl

/-- The calls that resolve first and then send the changed PTE back. -/
theorem pteEdit_step (pread : PreadX86 P s) (good : GoodRoot root) (change : Word → Word) (b : Word)
    (pid : BitVec 32) (rooted : (walkRoot P pid s).1 = root) :
    ∃ s', pteEdit P change b pid s = some s' ∧ s.Steady s' ∧
      tables s'.kernel.mem = editStep follow (rootFrame root) (tables s.kernel.mem)
        ⟨addressPath b, addressIndex .pte b, change⟩ := by
  have quiet := walkRoot_quiet P pid s
  have sameTables : tables (walkRoot P pid s).2.kernel.mem = tables s.kernel.mem := by
    rw [quiet.mem_eq]
  simp only [pteEdit, resolve_eq pread good b pid rooted, Option.bind_some, resolved_marks_pte,
    editStep]
  cases reached : frameAt follow (tables s.kernel.mem) (rootFrame root) (addressPath b) with
  | none =>
      simp only [Option.isSome_none, Bool.false_eq_true, if_false]
      exact ⟨_, rfl, quiet.steady, sameTables⟩
  | some frame =>
      simp only [Option.isSome_some, if_true]
      have pte : (resolved (tables s.kernel.mem) (rootFrame root) b pid).pte =
          tables s.kernel.mem frame (addressIndex .pte b) := by
        simp only [addressPath] at reached
        simp only [resolved, entryAt, reached, Option.map_some, Option.getD_some]
      have rooted' := (quiet.steady.walkRoot_eq P pid).trans rooted
      obtain ⟨s', updated, steady, stored⟩ :=
        update_pte (pread.steady quiet.steady) good b pid rooted'
          { resolved (tables s.kernel.mem) (rootFrame root) b pid with
            pte := change (resolved (tables s.kernel.mem) (rootFrame root) b pid).pte
            valid := Level.pte.mask } rfl
      refine ⟨s', updated, quiet.steady.trans steady, ?_⟩
      rw [sameTables] at stored
      simp only [stored, editStep, reached, pte]

/-- One call is one leaf edit. -/
theorem call_step (pread : PreadX86 P s) (good : GoodRoot root) (call : PteCall)
    (rooted : (walkRoot P call.pid s).1 = root) :
    ∃ s', call.run P s = some s' ∧ s.Steady s' ∧
      tables s'.kernel.mem =
        editStep follow (rootFrame root) (tables s.kernel.mem) call.edit := by
  obtain ⟨op, b, pid⟩ := call
  cases op with
  | setBit bit => exact pteEdit_step pread good ((PteOp.setBit bit).onWord .x86_64) b pid rooted
  | clearBit bit => exact pteEdit_step pread good ((PteOp.clearBit bit).onWord .x86_64) b pid rooted
  | setPfn pfn =>
      obtain ⟨s', ran, steady, stored⟩ :=
        pteEdit_step pread good (fun pte => pteditSetPfn P.arch pte pfn) b pid rooted
      refine ⟨s', ran, steady, ?_⟩
      rw [stored, pread.arch]
      rfl
  | update vm =>
      exact update_pte pread good b pid rooted { vm with valid := Level.pte.mask } rfl

/-- A run of calls is a run of leaf edits. -/
theorem runCalls_edits (pread : PreadX86 P s) (good : GoodRoot root) (calls : List PteCall)
    (rooted : ∀ call ∈ calls, (walkRoot P call.pid s).1 = root) :
    ∃ s', runCalls P calls s = some s' ∧ s.Steady s' ∧
      tables s'.kernel.mem =
        editRun follow (rootFrame root) (tables s.kernel.mem) (calls.map PteCall.edit) := by
  induction calls generalizing s with
  | nil => exact ⟨s, rfl, (System.Quiet.refl s).steady, rfl⟩
  | cons call rest ih =>
      obtain ⟨s₁, ran, steady, stored⟩ :=
        call_step pread good call (rooted call List.mem_cons_self)
      have rooted₁ : ∀ c ∈ rest, (walkRoot P c.pid s₁).1 = root := fun c member =>
        (steady.walkRoot_eq P c.pid).trans (rooted c (List.mem_cons_of_mem _ member))
      obtain ⟨s', ranRest, steadyRest, storedRest⟩ := ih (pread.steady steady) rooted₁
      refine ⟨s', ?_, steady.trans steadyRest, ?_⟩
      · simp only [runCalls, ran, Option.bind_some, ranRest]
      · rw [storedRest, stored]
        rfl

end Step

/-! ## Pages -/

theorem samePage_iff (a b : Word) :
    samePage a b = true ↔
      addressPath a = addressPath b ∧ addressIndex .pte a = addressIndex .pte b := by
  simp only [samePage, beq_iff_eq, addressPath, List.cons.injEq, and_true, addressIndex,
    ← BitVec.toNat_inj, BitVec.extractLsb'_toNat, Nat.shiftRight_eq_div_pow]
  omega

theorem changesAt_eq_opsOn (b : Word) (calls : List PteCall) (pte : Word) :
    changesAt (addressPath b) (addressIndex .pte b) (calls.map PteCall.edit) pte =
      opsOn b calls pte := by
  induction calls generalizing pte with
  | nil => rfl
  | cons call rest ih =>
      have same := samePage_iff call.address b
      simp only [List.map_cons, changesAt, opsOn, List.foldl_cons]
      rw [ih]
      simp only [opsOn, PteCall.edit, ← same]

/-! ## Whole runs -/

/-- The slot of a page's PTE, if the walk of the page reaches one. -/
def pteSlot (mem : Mem) (root b : Word) : Option Word :=
  (frameAt follow (tables mem) (rootFrame root) (addressPath b)).map fun frame =>
    slot frame (addressIndex .pte b)

/-- The memory after a call: the changed word in the slot of the PTE. -/
def storeCall (root : Word) (call : PteCall) (mem : Mem) : Mem :=
  match pteSlot mem root call.address with
  | none => mem
  | some slot => write64 mem slot (call.op.onWord .x86_64 (read64 mem slot))

/-- The stored word is the edit of the radix tables. -/
theorem tables_storeCall (root : Word) (call : PteCall) (mem : Mem) :
    tables (storeCall root call mem) =
      editStep follow (rootFrame root) (tables mem) call.edit := by
  simp only [storeCall, pteSlot, editStep, PteCall.edit]
  cases frameAt follow (tables mem) (rootFrame root) (addressPath call.address) with
  | none => rfl
  | some frame =>
      simp only [Option.map_some, tables_write64]
      rfl

/-- Two stores of tables whose walks reach the same frames and that differ in
leaf entries only: the record of an address differs in its PTE only. -/
theorem resolved_congr {T T' : Tables Frame Index Word} {frame : Frame} (change : Word → Word)
    (b : Word) (pid : BitVec 32)
    (frames : ∀ path, path.length ≤ 3 → frameAt follow T' frame path = frameAt follow T frame path)
    (inner : ∀ path i, path.length < 3 →
      entryAt follow T' frame path i = entryAt follow T frame path i)
    (leaf : entryAt follow T' frame (addressPath b) (addressIndex .pte b) =
      (entryAt follow T frame (addressPath b) (addressIndex .pte b)).map change) :
    resolved T' frame b pid =
      { resolved T frame b pid with
        pte := if marks (resolved T frame b pid).valid .pte then
            change (resolved T frame b pid).pte
          else 0 } := by
  have rootEntry : T' frame (addressIndex .pgd b) = T frame (addressIndex .pgd b) := by
    have same := inner [] (addressIndex .pgd b) (by simp)
    simpa [entryAt] using same
  have pte : ∀ entry : Option Word,
      (entry.map change).getD 0 = if entry.isSome then change (entry.getD 0) else 0 := by
    intro entry
    cases entry <;> rfl
  have reached : (entryAt follow T frame (addressPath b) (addressIndex .pte b)).isSome =
      (frameAt follow T frame (addressPath b)).isSome := Option.isSome_map
  rw [resolved_marks_pte, ← reached]
  simp only [addressPath] at leaf ⊢
  simp only [resolved, rootEntry, leaf, pte, frames [_] (by simp), frames [_, _] (by simp),
    frames [_, _, _] (by simp), inner [_] _ (by simp), inner [_, _] _ (by simp)]
  rfl

/-- A byte whose word is the same entry of the tables before and after is the
same byte. -/
theorem byte_eq_of_tables_eq {mem mem' : Mem} (x : Word)
    (same : tables mem' (x.extractLsb' 12 52) (x.extractLsb' 3 9) =
      tables mem (x.extractLsb' 12 52) (x.extractLsb' 3 9)) : mem' x = mem x := by
  refine byte_eq_of_read64_eq same x ?_
  have value := slot_toNat (x.extractLsb' 12 52) (x.extractLsb' 3 9)
  simp only [BitVec.extractLsb'_toNat, Nat.shiftRight_eq_div_pow] at value
  have bound := x.isLt
  rw [BitVec.lt_def, BitVec.toNat_sub, value]
  simp only [BitVec.toNat_ofNat]
  omega

/-- The tables decide all of memory. -/
theorem mem_eq_of_tables_eq {mem mem' : Mem} (same : tables mem' = tables mem) : mem' = mem :=
  funext fun x => byte_eq_of_tables_eq x (congrFun (congrFun same _) _)

theorem runCalls_outside {s s' : System} {root : Word} (calls : List PteCall)
    (shaped : TreeShapedMemory s.kernel.mem root)
    (edited : tables s'.kernel.mem =
      editRun follow (rootFrame root) (tables s.kernel.mem) (calls.map PteCall.edit))
    (x : Word)
    (outside : ∀ call ∈ calls, ∀ slot, pteSlot s.kernel.mem root call.address = some slot →
      8#64 ≤ x - slot) : s'.kernel.mem x = s.kernel.mem x := by
  apply byte_eq_of_tables_eq
  rw [edited]
  apply editRun_untouched shaped
  · intro edit member
    obtain ⟨call, _, rfl⟩ := List.mem_map.mp member
    rfl
  · rintro edit member reached same
    obtain ⟨call, called, rfl⟩ := List.mem_map.mp member
    have far := outside call called (slot (x.extractLsb' 12 52) (x.extractLsb' 3 9)) (by
      simp only [pteSlot]
      simp only [PteCall.edit] at reached same
      rw [reached, Option.map_some, same])
    have value := slot_toNat (x.extractLsb' 12 52) (x.extractLsb' 3 9)
    simp only [BitVec.extractLsb'_toNat, Nat.shiftRight_eq_div_pow] at value
    have bound := x.isLt
    rw [BitVec.le_def, BitVec.toNat_sub, value] at far
    simp only [BitVec.toNat_ofNat] at far
    omega

section Run

variable {P : Platform} {s : System} {root : Word}

/-- What a resolve returns after a run, from what it returned before. -/
theorem runCalls_resolved {s' : System} (shaped : TreeShapedMemory s.kernel.mem root)
    {calls : List PteCall}
    (edited : tables s'.kernel.mem =
      editRun follow (rootFrame root) (tables s.kernel.mem) (calls.map PteCall.edit))
    (b : Word) (pid : BitVec 32) :
    resolved (tables s'.kernel.mem) (rootFrame root) b pid =
      { resolved (tables s.kernel.mem) (rootFrame root) b pid with
        pte :=
          if marks (resolved (tables s.kernel.mem) (rootFrame root) b pid).valid .pte then
            opsOn b calls (resolved (tables s.kernel.mem) (rootFrame root) b pid).pte
          else 0 } := by
  obtain ⟨-, frames, inner, leaves⟩ := editRun_refines shaped (calls.map PteCall.edit) (by
    intro edit member
    obtain ⟨call, _, rfl⟩ := List.mem_map.mp member
    rfl)
  have ops : changesAt (addressPath b) (addressIndex .pte b) (calls.map PteCall.edit) =
      opsOn b calls := funext (changesAt_eq_opsOn b calls)
  rw [edited]
  refine resolved_congr (opsOn b calls) b pid frames inner ?_
  rw [leaves _ _ rfl, ops]

/-- A call for a page without a PTE stores nothing. -/
theorem call_without_pte (pread : PreadX86 P s) (good : GoodRoot root)
    (shaped : TreeShapedMemory s.kernel.mem root) (call : PteCall)
    (rooted : (walkRoot P call.pid s).1 = root)
    (missing : pteSlot s.kernel.mem root call.address = none) :
    ∃ s', call.run P s = some s' ∧ s'.kernel.mem = s.kernel.mem := by
  obtain ⟨s', ran, -, edited⟩ := call_step pread good call rooted
  refine ⟨s', ran, funext fun x => runCalls_outside [call] shaped edited x ?_⟩
  intro c member slot found
  obtain rfl := List.mem_singleton.mp member
  rw [missing] at found
  cases found

theorem pteSlot_eq_none_iff (b : Word) (pid : BitVec 32) :
    pteSlot s.kernel.mem root b = none ↔
      marks (resolved (tables s.kernel.mem) (rootFrame root) b pid).valid .pte = false := by
  rw [resolved_marks_pte]
  simp [pteSlot]

/-- **Editing PTEs is editing a map from pages to words.**  Any run of PTE calls
on a tree-shaped memory succeeds and leaves a tree-shaped memory.  Every address
then resolves to the record it resolved to before, but for the PTE: that is the
former word under the run's operations on its page, in order, which is also what
`ptedit_pte_get_bit` and `ptedit_pte_get_pfn` read.  A page without a PTE has the
word `0` before and after, and a call for it changes no memory.  No byte outside
the PTE slots of the called addresses changes. -/
theorem pte_calls_refine_page_map (pread : PreadX86 P s) (good : GoodRoot root)
    (shaped : TreeShapedMemory s.kernel.mem root) (calls : List PteCall)
    (rooted : ∀ call ∈ calls, (walkRoot P call.pid s).1 = root) :
    ∃ s', runCalls P calls s = some s' ∧ TreeShapedMemory s'.kernel.mem root ∧
      (∀ b pid, (walkRoot P pid s).1 = root →
        ∃ before after s₁ s₂, pteditResolve P b pid s = some (before, s₁) ∧
          pteditResolve P b pid s' = some (after, s₂) ∧
          after = { before with
            pte := if marks before.valid .pte then opsOn b calls before.pte else 0 } ∧
          (marks before.valid .pte = false →
            before.pte = 0 ∧ ∀ op, ∃ s₃, PteCall.run P ⟨op, b, pid⟩ s' = some s₃ ∧
              s₃.kernel.mem = s'.kernel.mem) ∧
          (∀ bit : Fin 64, ∃ s₃,
            pteditPteGetBit P b pid bit s' = some (after.pte.getLsbD bit, s₃)) ∧
          (∃ s₃, pteditPteGetPfn P b pid s' = some (pteditGetPfn .x86_64 after.pte, s₃))) ∧
      (∀ x, (∀ call ∈ calls, ∀ slot, pteSlot s.kernel.mem root call.address = some slot →
        8#64 ≤ x - slot) → s'.kernel.mem x = s.kernel.mem x) := by
  obtain ⟨s', ran, steady, edited⟩ := runCalls_edits pread good calls rooted
  have shaped' : TreeShapedMemory s'.kernel.mem root := by
    unfold TreeShapedMemory
    rw [edited]
    refine (editRun_refines shaped (calls.map PteCall.edit) ?_).1
    intro edit member
    obtain ⟨call, _, rfl⟩ := List.mem_map.mp member
    rfl
  have pread' := pread.steady steady
  refine ⟨s', ran, shaped', ?_, runCalls_outside calls shaped edited⟩
  intro b pid rootedB
  have rootedB' := (steady.walkRoot_eq P pid).trans rootedB
  have before := resolve_eq pread good b pid rootedB
  have after := resolve_eq pread' good b pid rootedB'
  have change := runCalls_resolved shaped edited b pid
  refine ⟨_, _, _, _, before, after, change, ?_, ?_, ?_⟩
  · intro missing
    have noSlot : pteSlot s.kernel.mem root b = none := (pteSlot_eq_none_iff b pid).mpr missing
    have noSlot' : pteSlot s'.kernel.mem root b = none := by
      rw [pteSlot_eq_none_iff b pid, change]
      exact missing
    refine ⟨?_, fun op => call_without_pte pread' good shaped' ⟨op, b, pid⟩ rootedB' noSlot'⟩
    simp only [pteSlot, Option.map_eq_none_iff, addressPath] at noSlot
    simp only [resolved, entryAt, noSlot, Option.map_none, Option.getD_none]
  · intro bit
    simp only [pteditPteGetBit, after, Option.map_some]
    rw [and_bit_ne_zero _ _ bit.isLt]
    exact ⟨_, rfl⟩
  · simp only [pteditPteGetPfn, after, Option.map_some, pread.arch]
    refine ⟨_, congrArg some (Prod.ext ?_ rfl)⟩
    simp only
    split
    · rfl
    · rename_i missing
      rw [change] at missing ⊢
      simp only [Bool.not_eq_true] at missing
      simp only [missing, Bool.false_eq_true, if_false, pteditGetPfn_zero]

/-- On the machine with one page: a run that edits its PTE through three of its
addresses and names a page without tables in between. -/
theorem pte_calls_refine_page_map_onePage :
    ∃ s' after s₂, runCalls fourLevelPlatform
        [⟨.setBit 9, 0, 0⟩, ⟨.clearBit 1, 0xfff, 0⟩, ⟨.setBit 3, 0x8000000000, 0⟩,
          ⟨.setPfn 7, 0x10, 0⟩] onePageSystem = some s' ∧
      TreeShapedMemory s'.kernel.mem 0x1000 ∧
      pteditResolve fourLevelPlatform 0 0 s' = some (after, s₂) ∧ after.pte = 0x7205 := by
  have pread : PreadX86 fourLevelPlatform onePageSystem := ⟨⟨rfl, rfl⟩, rfl, rfl⟩
  have good : GoodRoot 0x1000 := ⟨by decide, by decide⟩
  obtain ⟨s', ran, shaped, resolves, -⟩ := pte_calls_refine_page_map pread good
    onePageMem_treeShaped
    [⟨.setBit 9, 0, 0⟩, ⟨.clearBit 1, 0xfff, 0⟩, ⟨.setBit 3, 0x8000000000, 0⟩,
      ⟨.setPfn 7, 0x10, 0⟩] (by decide)
  obtain ⟨before, after, s₁, s₂, first, last, change, -⟩ := resolves 0 0 (by decide)
  refine ⟨s', after, s₂, ran, shaped, last, ?_⟩
  have initial : (pteditResolve fourLevelPlatform 0 0 onePageSystem).map Prod.fst =
      some { pid := 0, vaddr := 0, pgd := 0x2007, p4d := 0x2007, pud := 0x3007, pmd := 0x4007,
             pte := 0x5007, valid := 0x1d } := by
    decide +kernel
  rw [first, Option.map_some, Option.some.injEq] at initial
  rw [change, show before = _ from initial]
  decide

end Run

end PTEditor.Library.PageMap
