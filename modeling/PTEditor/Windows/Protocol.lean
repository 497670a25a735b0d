/-
# PTEditor.Windows.Protocol -- the library's Windows calls against the driver

Each call of the Windows library is one `DeviceIoControl`: it lays its arguments
out in a buffer, sends a control code, and reads the answer back.  `Call.intended`
and `Call.Answers` say what each call is for, as a change of the machine and an
answer; `Meets` compares the call as the library and the driver perform it
together.

Seven of the nine calls meet it in every state.  `ptedit_set_mts` sends the code
that reads the register, and the driver's `SET_CR3` runs on into `FLUSH_TLB`;
`meets_iff` says exactly when a call does what it is for.
-/
import PTEditor.Theory.Runs
import PTEditor.Windows.Driver

namespace PTEditor.Windows

open PTEditor.Theory.ByteMemory PTEditor.Theory.Runs

set_option autoImplicit false

/-! ## The library -/

/-- A `size_t` variable, passed by its address. -/
def wordBuffer (w : Word) : Mem := write64 (fun _ => 0) 0 w

def pairBuffer (first second : Word) : Mem := write64 (wordBuffer first) 8 second

/-- `ptedit_page_t` on Windows: the content, then the physical address. -/
def pageBuffer (content : Mem) (paddr : Word) : Mem := write64 content 4096 paddr

section Calls

variable (N : Nt)

/-- `ptedit_pagesize`, an `int`, where it is used as a `size_t`. -/
def pagesize : Word := N.dwPageSize.signExtend 64

/-- `if (!pid) pid = GetCurrentProcessId()`; a `pid_t` is a `size_t` here. -/
def namedPid (pid : Word) : Word := if pid = 0 then N.currentProcessId.setWidth 64 else pid

def pteditGetMts (m : Machine) : Word × Machine :=
  let mt := wordBuffer 0
  let answer := deviceIoControl N Command.getPat.libraryCode mt 8 mt 8 m
  (read64 answer.1 0, answer.2)

/-- `ptedit_set_mts` sends `PTEDITOR_GET_PAT`. -/
def pteditSetMts (mts : Word) (m : Machine) : Machine :=
  let buffer := wordBuffer mts
  (deviceIoControl N Command.getPat.libraryCode buffer 8 buffer 8 m).2

def pteditGetPagingRoot (pid : Word) (m : Machine) : Word × Machine :=
  let answer := deviceIoControl N Command.getCr3.libraryCode (wordBuffer (namedPid N pid)) 8
    (wordBuffer 0) 8 m
  (read64 answer.1 0 &&& ~~~0xfff#64, answer.2)

def pteditSetPagingRoot (pid root : Word) (m : Machine) : Machine :=
  let info := pairBuffer (namedPid N pid) root
  (deviceIoControl N Command.setCr3.libraryCode info 16 info 16 m).2

def pteditInvalidateTlb (address : Word) (m : Machine) : Machine :=
  let vaddr := wordBuffer address
  (deviceIoControl N Command.flushTlb.libraryCode vaddr 8 vaddr 8 m).2

def pteditReadPhysicalPage (pfn : Word) (buffer : Mem) (m : Machine) : Mem × Machine :=
  deviceIoControl N Command.readPage.libraryCode (wordBuffer (pfn * pagesize N)) 8 buffer 4096 m

/-- `ptedit_write_physical_page` refuses any page size but 4096. -/
def pteditWritePhysicalPage (pfn : Word) (content : Mem) (m : Machine) : Machine :=
  if N.dwPageSize ≠ 4096 then m
  else
    let page := pageBuffer content (pfn * pagesize N)
    (deviceIoControl N Command.writePage.libraryCode page 4104 page 4104 m).2

def physReadPread (address : Word) (m : Machine) : Word × Machine :=
  let answer := deviceIoControl N Command.readPhysVal.libraryCode (wordBuffer address) 8
    (wordBuffer 0) 8 m
  (read64 answer.1 0, answer.2)

def physWritePwrite (address value : Word) (m : Machine) : Machine :=
  let info := pairBuffer address value
  (deviceIoControl N Command.writePhysVal.libraryCode info 16 info 16 m).2

end Calls

/-! ## What the calls are for -/

inductive Call where
  | getMts
  | setMts (mts : Word)
  | getPagingRoot (pid : Word)
  | setPagingRoot (pid root : Word)
  | invalidateTlb (address : Word)
  | readPhysicalPage (pfn : Word) (buffer : Mem)
  | writePhysicalPage (pfn : Word) (content : Mem)
  | physRead (address : Word)
  | physWrite (address value : Word)

section Specification

variable (N : Nt)

def Call.run (m : Machine) : Call → Machine
  | .getMts => (pteditGetMts N m).2
  | .setMts mts => pteditSetMts N mts m
  | .getPagingRoot pid => (pteditGetPagingRoot N pid m).2
  | .setPagingRoot pid root => pteditSetPagingRoot N pid root m
  | .invalidateTlb address => pteditInvalidateTlb N address m
  | .readPhysicalPage pfn buffer => (pteditReadPhysicalPage N pfn buffer m).2
  | .writePhysicalPage pfn content => pteditWritePhysicalPage N pfn content m
  | .physRead address => (physReadPread N address m).2
  | .physWrite address value => physWritePwrite N address value m

/-- The machine a call is meant to leave: the state it names changed, all else
as it was.  A physical write the system has no address for is dropped. -/
def Call.intended (m : Machine) : Call → Machine
  | .setMts mts => { m with pat := mts }
  | .setPagingRoot pid root =>
      if (m.cr3 (namedPid N pid)).isSome then
        { m with cr3 := fun p => if p = namedPid N pid then some root else m.cr3 p }
      else m
  | .invalidateTlb address => { m with invalidated := m.invalidated ++ [address] }
  | .writePhysicalPage pfn content =>
      let paddr := pfn * 4096
      if N.dwPageSize = 4096 ∧ (N.mmGetVirtualForPhysical paddr).isSome then
        { m with mem := fun x => if x - paddr < 4096 then content (x - paddr) else m.mem x }
      else m
  | .physWrite address value =>
      if (N.mmGetVirtualForPhysical address).isSome then
        { m with mem := write64 m.mem address value }
      else m
  | .getMts | .getPagingRoot _ | .readPhysicalPage _ _ | .physRead _ => m

/-- What a call is meant to tell its caller. -/
def Call.Answers (m : Machine) : Call → Prop
  | .getMts => (pteditGetMts N m).1 = m.pat
  | .setMts mts => (pteditGetMts N (pteditSetMts N mts m)).1 = mts
  | .getPagingRoot pid =>
      (pteditGetPagingRoot N pid m).1 = (m.cr3 (namedPid N pid)).getD 0 &&& ~~~0xfff#64
  | .readPhysicalPage pfn buffer =>
      ∀ offset : Word, (pteditReadPhysicalPage N pfn buffer m).1 offset =
        if offset < 4096 then m.mem (pfn * pagesize N + offset) else buffer offset
  | .physRead address => (physReadPread N address m).1 = read64 m.mem address
  | _ => True

/-- The call does what it is for, and nothing else. -/
structure Meets (m : Machine) (call : Call) : Prop where
  state : call.run N m = call.intended N m
  answers : call.Answers N m

end Specification

/-! ## What the calls do -/

section Effects

variable (N : Nt) (m : Machine)

@[simp] theorem read64_wordBuffer (w : Word) : read64 (wordBuffer w) 0 = w :=
  read64_write64_self _ _ _

@[simp] theorem read64_pairBuffer_first (first second : Word) :
    read64 (pairBuffer first second) 0 = first := by
  have apart : Apart 8 0 := by decide
  rw [pairBuffer, read64_write64_apart _ _ apart, read64_wordBuffer]

@[simp] theorem read64_pairBuffer_second (first second : Word) :
    read64 (pairBuffer first second) 8 = second :=
  read64_write64_self _ _ _

theorem pteditGetMts_eq : pteditGetMts N m = (m.pat, m) := by
  simp only [pteditGetMts, deviceIoControl, dispatchDeviceCtl, Command.select_libraryCode]
  rw [read64_copyBack le_rfl le_rfl, read64_write64_self]

/-- The register is read into the caller's own copy of the argument. -/
theorem pteditSetMts_eq (mts : Word) : pteditSetMts N mts m = m := by
  simp only [pteditSetMts, deviceIoControl, dispatchDeviceCtl, Command.select_libraryCode]

theorem pteditGetPagingRoot_eq (pid : Word) :
    pteditGetPagingRoot N pid m =
      ((m.cr3 (namedPid N pid)).getD 0 &&& ~~~0xfff#64, m) := by
  simp only [pteditGetPagingRoot, deviceIoControl, dispatchDeviceCtl, Command.select_libraryCode]
  rw [read64_copyBack le_rfl le_rfl, read64_write64_self,
    read64_systemBuffer N _ (by decide) (by decide), read64_wordBuffer]

/-- The root is written, and then the TLB told to drop the address that the
process id is. -/
theorem pteditSetPagingRoot_eq (pid root : Word) :
    pteditSetPagingRoot N pid root m =
      ((Call.setPagingRoot pid root).intended N m).invalidateTlb (namedPid N pid) := by
  simp only [pteditSetPagingRoot, deviceIoControl, dispatchDeviceCtl, Command.select_libraryCode,
    flushTlb]
  rw [read64_systemBuffer N _ (by decide) (by decide), read64_pairBuffer_first,
    read64_systemBuffer N _ (by decide) (by decide), read64_pairBuffer_second]
  rfl

theorem pteditInvalidateTlb_eq (address : Word) :
    pteditInvalidateTlb N address m = m.invalidateTlb address := by
  simp only [pteditInvalidateTlb, deviceIoControl, dispatchDeviceCtl, Command.select_libraryCode,
    flushTlb]
  rw [read64_systemBuffer N _ (by decide) (by decide), read64_wordBuffer]

theorem pteditReadPhysicalPage_state (pfn : Word) (buffer : Mem) :
    (pteditReadPhysicalPage N pfn buffer m).2 = m := by
  simp only [pteditReadPhysicalPage, deviceIoControl, dispatchDeviceCtl,
    Command.select_libraryCode]

theorem pteditReadPhysicalPage_content (pfn : Word) (buffer : Mem) (offset : Word) :
    (pteditReadPhysicalPage N pfn buffer m).1 offset =
      if offset < 4096 then m.mem (pfn * pagesize N + offset) else buffer offset := by
  simp only [pteditReadPhysicalPage, deviceIoControl, dispatchDeviceCtl,
    Command.select_libraryCode, copyBack, Machine.copyOut]
  rw [read64_systemBuffer N _ (by decide) (by decide), read64_wordBuffer]
  by_cases inside : offset < 4096
  · have within : offset.toNat < min 4096 4096 := by bv_omega
    rw [if_pos within, if_pos inside, if_pos inside]
  · have outside : ¬ offset.toNat < min 4096 4096 := by bv_omega
    rw [if_neg outside, if_neg inside]

/-- A word read lands in the first eight bytes of the answer. -/
theorem physReadPread_eq (address : Word) :
    physReadPread N address m = (read64 m.mem address, m) := by
  simp only [physReadPread, deviceIoControl, dispatchDeviceCtl, Command.select_libraryCode]
  rw [read64_copyBack le_rfl le_rfl, read64_systemBuffer N _ (by decide) (by decide),
    read64_wordBuffer]
  refine Prod.ext ?_ rfl
  simp [read64, Machine.copyOut]

theorem physWritePwrite_eq (address value : Word) :
    physWritePwrite N address value m = (Call.physWrite address value).intended N m := by
  simp only [physWritePwrite, deviceIoControl, dispatchDeviceCtl, Command.select_libraryCode,
    Call.intended]
  rw [read64_systemBuffer N _ (by decide) (by decide), read64_pairBuffer_first,
    read64_systemBuffer N _ (by decide) (by decide), read64_pairBuffer_second]
  cases found : N.mmGetVirtualForPhysical address with
  | none => rfl
  | some vaddr =>
      simp only [N.physical_virtual address vaddr found, Option.isSome_some, if_true]
      rfl

theorem copyIn_congr (pa count : Word) {source source' : Mem}
    (same : ∀ offset < count, source offset = source' offset) :
    m.copyIn pa count source = m.copyIn pa count source' := by
  simp only [Machine.copyIn]
  congr 1
  funext x
  split
  · exact same _ ‹_›
  · rfl

/-- The content goes through the packed record and the system buffer unchanged. -/
theorem systemBuffer_pageBuffer (content : Mem) (paddr offset : Word) (inside : offset < 4096) :
    systemBuffer N (pageBuffer content paddr) 4104 offset = content offset := by
  rw [systemBuffer_inside N _ (by bv_omega), pageBuffer]
  exact write64_outside content 4096 paddr offset (by bv_omega)

theorem pteditWritePhysicalPage_eq (pfn : Word) (content : Mem) :
    pteditWritePhysicalPage N pfn content m = (Call.writePhysicalPage pfn content).intended N m := by
  simp only [pteditWritePhysicalPage, Call.intended, deviceIoControl, dispatchDeviceCtl,
    Command.select_libraryCode]
  by_cases supported : N.dwPageSize = 4096
  · have size : pagesize N = 4096 := by
      rw [pagesize, supported]
      decide
    have paddr : read64 (systemBuffer N (pageBuffer content (pfn * 4096)) 4104) 4096 =
        pfn * 4096 := by
      rw [read64_systemBuffer N _ (by decide) (by decide), pageBuffer, read64_write64_self]
    rw [if_neg (not_not_intro supported), size, paddr]
    cases found : N.mmGetVirtualForPhysical (pfn * 4096) with
    | none => simp
    | some vaddr =>
        simp only [supported, Option.isSome_some, and_self, if_true,
          N.physical_virtual _ vaddr found]
        exact copyIn_congr m _ _ (systemBuffer_pageBuffer N content _)
  · rw [if_pos supported, if_neg fun both => supported both.1]

end Effects

/-! ## Where the two agree -/

/-- The call is one the library and the driver agree about. -/
def Agreed (m : Machine) : Call → Prop
  | .setPagingRoot _ _ => False
  | .setMts mts => m.pat = mts
  | _ => True

theorem meets_of_agreed (N : Nt) {m : Machine} {call : Call} (agreed : Agreed m call) :
    Meets N m call := by
  cases call with
  | getMts => exact ⟨congrArg Prod.snd (pteditGetMts_eq N m), congrArg Prod.fst (pteditGetMts_eq N m)⟩
  | setMts mts =>
      have same : m.pat = mts := agreed
      subst same
      refine ⟨pteditSetMts_eq N m m.pat, ?_⟩
      show (pteditGetMts N (pteditSetMts N m.pat m)).1 = m.pat
      rw [pteditSetMts_eq, pteditGetMts_eq]
  | getPagingRoot pid =>
      have answer := pteditGetPagingRoot_eq N m pid
      exact ⟨congrArg Prod.snd answer, congrArg Prod.fst answer⟩
  | setPagingRoot pid root => exact agreed.elim
  | invalidateTlb address => exact ⟨pteditInvalidateTlb_eq N m address, trivial⟩
  | readPhysicalPage pfn buffer =>
      exact ⟨pteditReadPhysicalPage_state N m pfn buffer,
        pteditReadPhysicalPage_content N m pfn buffer⟩
  | writePhysicalPage pfn content => exact ⟨pteditWritePhysicalPage_eq N m pfn content, trivial⟩
  | physRead address =>
      have answer := physReadPread_eq N m address
      exact ⟨congrArg Prod.snd answer, congrArg Prod.fst answer⟩
  | physWrite address value => exact ⟨physWritePwrite_eq N m address value, trivial⟩

/-- The register is read and not written: a later read returns the old value. -/
theorem setMts_meets_only_same (N : Nt) {m : Machine} {mts : Word}
    (meets : Meets N m (.setMts mts)) : m.pat = mts := by
  have answer : (pteditGetMts N (pteditSetMts N mts m)).1 = mts := meets.answers
  rwa [pteditSetMts_eq, pteditGetMts_eq] at answer

/-- The list of invalidations grows whatever the process. -/
theorem setPagingRoot_never_meets (N : Nt) {m : Machine} {pid root : Word} :
    ¬ Meets N m (.setPagingRoot pid root) := by
  intro meets
  have flushed := congrArg Machine.invalidated
    ((pteditSetPagingRoot_eq N m pid root).symm.trans meets.state)
  simp [Machine.invalidateTlb] at flushed

/-- **A library call does what it is for, and nothing else, exactly if it is not
`ptedit_set_paging_root` and, for `ptedit_set_mts`, the register already has the
value.** -/
theorem meets_iff (N : Nt) (m : Machine) (call : Call) : Meets N m call ↔ Agreed m call := by
  refine ⟨?_, meets_of_agreed N⟩
  intro meets
  cases call with
  | setMts mts => exact setMts_meets_only_same N meets
  | setPagingRoot pid root => exact setPagingRoot_never_meets N meets
  | getMts | getPagingRoot | invalidateTlb | readPhysicalPage | writePhysicalPage | physRead
  | physWrite => trivial

/-- A client that makes only agreed calls sees the machine it intends, after every
call. -/
theorem run_eq_intended (N : Nt) {calls : List Call} {m : Machine}
    (agreed : Guarded (fun call m => call.run N m) Agreed calls m) :
    run (fun call m => call.run N m) calls m = run (fun call m => call.intended N m) calls m := by
  induction calls generalizing m with
  | nil => rfl
  | cons call rest ih =>
      have here : call.run N m = call.intended N m := (meets_of_agreed N agreed.1).state
      have later := ih (m := call.run N m) agreed.2
      exact later.trans (congrArg (run _ rest) here)

def directMapNt : Nt where
  mmGetVirtualForPhysical pa := some (pa + 0xffff800000000000)
  physical va := va - 0xffff800000000000
  physical_virtual pa va found := by
    rw [← Option.some.inj found]
    exact BitVec.add_sub_cancel pa _
  pool _ := 0
  currentProcessId := 4
  dwPageSize := 4096

def onePatMachine : Machine where
  pat := 0x0007040600070406
  cr3 pid := if pid = 4 then some 0x1ad000 else none
  mem _ := 0
  invalidated := []

/-- `ptedit_set_mts(6)` leaves the register as it was, and writing a root of
process 4 invalidates the page of address 4. -/
theorem calls_miss_their_effect :
    pteditSetMts directMapNt 6 onePatMachine = onePatMachine ∧
    (pteditGetMts directMapNt (pteditSetMts directMapNt 6 onePatMachine)).1 =
      0x0007040600070406 ∧
    (pteditSetPagingRoot directMapNt 4 0x5000 onePatMachine).cr3 4 = some 0x5000 ∧
    (pteditSetPagingRoot directMapNt 4 0x5000 onePatMachine).invalidated = [4] ∧
    ¬ Meets directMapNt onePatMachine (.setMts 6) ∧
    ¬ Meets directMapNt onePatMachine (.setPagingRoot 4 0x5000) := by
  have kept : (pteditGetMts directMapNt (pteditSetMts directMapNt 6 onePatMachine)).1 =
      0x0007040600070406 := by
    rw [pteditSetMts_eq, pteditGetMts_eq]
    rfl
  have flushed : (pteditSetPagingRoot directMapNt 4 0x5000 onePatMachine).invalidated = [4] := by
    rw [pteditSetPagingRoot_eq]
    rfl
  refine ⟨pteditSetMts_eq _ _ _, kept, ?_, flushed, ?_, ?_⟩
  · rw [pteditSetPagingRoot_eq]
    rfl
  · intro meets
    have answer : (pteditGetMts directMapNt (pteditSetMts directMapNt 6 onePatMachine)).1 = 6 :=
      meets.answers
    rw [kept] at answer
    exact absurd answer (by decide)
  · intro meets
    have quiet : (pteditSetPagingRoot directMapNt 4 0x5000 onePatMachine).invalidated = [] :=
      congrArg Machine.invalidated meets.state
    rw [flushed] at quiet
    cases quiet

end PTEditor.Windows
