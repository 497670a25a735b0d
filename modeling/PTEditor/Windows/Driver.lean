/-
# PTEditor.Windows.Driver -- the Windows driver behind the I/O manager

`DispatchDeviceCtl` serves one request: a control code and the system buffer,
into which the I/O manager has copied the caller's input and from which it copies
`IoStatus.Information` bytes back (`METHOD_BUFFERED`).  A buffer is addressed by
offset, so a word at offset `0` is `*(SIZE_T*)buffer`.

What the driver calls in the NT kernel is a parameter (`Nt`).  A store through
the address that `MmGetVirtualForPhysical` returns reaches the physical bytes it
was asked for.  `__readcr3` and `__writecr3` between `KeStackAttachProcess` and
`KeUnstackDetachProcess` read and write the root of the process attached to, and
`KeIpiGenericCall` runs its argument on all processors.
-/
import PTEditor.Theory.ByteMemory

namespace PTEditor.Windows

open PTEditor.Theory.ByteMemory

set_option autoImplicit false

/-! ## Control codes -/

def ctlCode (deviceType function method access : BitVec 32) : BitVec 32 :=
  (deviceType <<< 16) ||| (access <<< 14) ||| (function <<< 2) ||| method

def fileDeviceUnknown : BitVec 32 := 0x22

def methodBuffered : BitVec 32 := 0

def fileAnyAccess : BitVec 32 := 0

def fileReadData : BitVec 32 := 1

/-- The requests, by the name both sides give their control code. -/
inductive Command where
  | writePage
  | readPage
  | getCr3
  | setCr3
  | flushTlb
  | readPhysVal
  | writePhysVal
  | getPat
  | setPat
  deriving DecidableEq, Repr

/-- The definitions in `Driver.c`. -/
def Command.driverCode : Command → BitVec 32
  | .readPage => ctlCode fileDeviceUnknown 0x801 methodBuffered fileAnyAccess
  | .writePage => ctlCode fileDeviceUnknown 0x802 methodBuffered fileReadData
  | .getCr3 => ctlCode fileDeviceUnknown 0x803 methodBuffered fileAnyAccess
  | .setCr3 => ctlCode fileDeviceUnknown 0x807 methodBuffered fileAnyAccess
  | .flushTlb => ctlCode fileDeviceUnknown 0x804 methodBuffered fileAnyAccess
  | .readPhysVal => ctlCode fileDeviceUnknown 0x805 methodBuffered fileAnyAccess
  | .writePhysVal => ctlCode fileDeviceUnknown 0x806 methodBuffered fileAnyAccess
  | .setPat => ctlCode fileDeviceUnknown 0x808 methodBuffered fileAnyAccess
  | .getPat => ctlCode fileDeviceUnknown 0x809 methodBuffered fileAnyAccess

/-- The definitions in `module/pteditor.h`, which the library is compiled with. -/
def Command.libraryCode : Command → BitVec 32
  | .readPage => ctlCode fileDeviceUnknown 0x801 methodBuffered fileAnyAccess
  | .writePage => ctlCode fileDeviceUnknown 0x802 methodBuffered fileReadData
  | .getCr3 => ctlCode fileDeviceUnknown 0x803 methodBuffered fileAnyAccess
  | .flushTlb => ctlCode fileDeviceUnknown 0x804 methodBuffered fileAnyAccess
  | .readPhysVal => ctlCode fileDeviceUnknown 0x805 methodBuffered fileAnyAccess
  | .writePhysVal => ctlCode fileDeviceUnknown 0x806 methodBuffered fileAnyAccess
  | .setCr3 => ctlCode fileDeviceUnknown 0x807 methodBuffered fileAnyAccess
  | .setPat => ctlCode fileDeviceUnknown 0x808 methodBuffered fileAnyAccess
  | .getPat => ctlCode fileDeviceUnknown 0x809 methodBuffered fileAnyAccess

/-- The case labels of the driver's `switch`, in its order. -/
def Command.labels : List Command :=
  [.writePage, .readPage, .getCr3, .setCr3, .flushTlb, .readPhysVal, .writePhysVal, .getPat,
    .setPat]

/-- The label a control code selects; `none` is `default`. -/
def Command.select (code : BitVec 32) : Option Command :=
  Command.labels.find? fun command => command.driverCode == code

/-- The two lists of definitions agree, and the codes are distinct: what the
library sends under a name arrives at the label of that name. -/
@[simp] theorem Command.select_libraryCode (command : Command) :
    Command.select command.libraryCode = some command := by
  cases command <;> decide

/-! ## State -/

/-- What the NT kernel and the Windows API provide. -/
structure Nt where
  /-- `none` is `NULL`. -/
  mmGetVirtualForPhysical : Word → Option Word
  /-- The physical address behind a virtual address of the system. -/
  physical : Word → Word
  physical_virtual : ∀ pa va, mmGetVirtualForPhysical pa = some va → physical va = pa
  /-- What a fresh system buffer holds. -/
  pool : Mem
  /-- `GetCurrentProcessId`. -/
  currentProcessId : BitVec 32
  /-- `GetSystemInfo`. -/
  dwPageSize : BitVec 32

/-- What the driver reads and writes. -/
structure Machine where
  /-- The MSR `IA32_PAT`. -/
  pat : Word
  /-- The paging root of each process; `none` if there is no process of that id. -/
  cr3 : Word → Option Word
  mem : Mem
  /-- The addresses of the TLB invalidations, in order. -/
  invalidated : List Word

namespace Machine

variable (m : Machine)

def invalidateTlb (addr : Word) : Machine := { m with invalidated := m.invalidated ++ [addr] }

def setPat (pat : Word) : Machine := { m with pat }

/-- `__writecr3` while attached to the process `pid`. -/
def writeCr3 (pid root : Word) : Machine :=
  { m with cr3 := fun p => if p = pid then some root else m.cr3 p }

/-- `MmCopyMemory` of `count` bytes of a buffer to physical memory from `pa` on. -/
def copyIn (pa count : Word) (source : Mem) : Machine :=
  { m with mem := fun x => if x - pa < count then source (x - pa) else m.mem x }

/-- `MmCopyMemory` of `count` bytes of physical memory from `pa` on to a buffer. -/
def copyOut (pa count : Word) (target : Mem) : Mem := fun offset =>
  if offset < count then m.mem (pa + offset) else target offset

def storeWord (pa value : Word) : Machine := { m with mem := write64 m.mem pa value }

end Machine

/-! ## The driver -/

def statusSuccess : BitVec 32 := 0

def statusInvalidParameter : BitVec 32 := 0xC000000D

structure Completion where
  status : BitVec 32
  information : Nat
  buffer : Mem
  machine : Machine

def flushTlb (buffer : Mem) (m : Machine) : Completion :=
  { status := statusSuccess, information := 0, buffer, machine := m.invalidateTlb (read64 buffer 0) }

/-- `DispatchDeviceCtl`.  `SET_CR3` has no `break`: it goes on with the case of
`FLUSH_TLB`, on the same buffer. -/
def dispatchDeviceCtl (N : Nt) (code : BitVec 32) (buffer : Mem) (m : Machine) : Completion :=
  match Command.select code with
  | some .writePage =>
      let machine :=
        match N.mmGetVirtualForPhysical (read64 buffer 4096) with
        | some vaddr => m.copyIn (N.physical vaddr) 4096 buffer
        | none => m
      { status := statusSuccess, information := 0, buffer, machine }
  | some .readPage =>
      { status := statusSuccess, information := 4096
        buffer := m.copyOut (read64 buffer 0) 4096 buffer, machine := m }
  | some .getCr3 =>
      let answer := (m.cr3 (read64 buffer 0)).getD 0
      { status := statusSuccess, information := 8, buffer := write64 buffer 0 answer, machine := m }
  | some .setCr3 =>
      let pid := read64 buffer 0
      let m := if (m.cr3 pid).isSome then m.writeCr3 pid (read64 buffer 8) else m
      flushTlb buffer m
  | some .flushTlb => flushTlb buffer m
  | some .readPhysVal =>
      { status := statusSuccess, information := 8
        buffer := m.copyOut (read64 buffer 0) 8 buffer, machine := m }
  | some .writePhysVal =>
      let val := read64 buffer 8
      let machine :=
        match N.mmGetVirtualForPhysical (read64 buffer 0) with
        | some vaddr => m.storeWord (N.physical vaddr) val
        | none => m
      { status := statusSuccess, information := 0, buffer, machine }
  | some .getPat =>
      { status := statusSuccess, information := 8, buffer := write64 buffer 0 m.pat, machine := m }
  | some .setPat =>
      { status := statusSuccess, information := 0, buffer, machine := m.setPat (read64 buffer 0) }
  | none => { status := statusInvalidParameter, information := 0, buffer, machine := m }

/-! ## The I/O manager -/

/-- The system buffer of a request: the input, then what the pool had. -/
def systemBuffer (N : Nt) (input : Mem) (inLength : Nat) : Mem := fun offset =>
  if offset.toNat < inLength then input offset else N.pool offset

/-- The caller's output buffer after a completion. -/
def copyBack (completion : Completion) (output : Mem) (outLength : Nat) : Mem := fun offset =>
  if offset.toNat < min completion.information outLength then completion.buffer offset
  else output offset

def deviceIoControl (N : Nt) (code : BitVec 32) (input : Mem) (inLength : Nat) (output : Mem)
    (outLength : Nat) (m : Machine) : Mem × Machine :=
  let completion := dispatchDeviceCtl N code (systemBuffer N input inLength) m
  (copyBack completion output outLength, completion.machine)

theorem systemBuffer_inside (N : Nt) (input : Mem) {inLength : Nat} {offset : Word}
    (inside : offset.toNat < inLength) : systemBuffer N input inLength offset = input offset :=
  if_pos inside

/-- The driver reads the words the caller put in. -/
theorem read64_systemBuffer (N : Nt) (input : Mem) {inLength : Nat} {offset : Word}
    (fits : offset.toNat + 8 ≤ inLength) (bound : inLength ≤ 2 ^ 32) :
    read64 (systemBuffer N input inLength) offset = read64 input offset := by
  apply read64_congr
  intro x inside
  exact systemBuffer_inside N input (by bv_omega)

/-- The caller reads the words the driver put in. -/
theorem read64_copyBack {completion : Completion} {output : Mem} {outLength : Nat}
    (information : 8 ≤ completion.information) (fits : 8 ≤ outLength) :
    read64 (copyBack completion output outLength) 0 = read64 completion.buffer 0 := by
  apply read64_congr
  intro x inside
  exact if_pos (by bv_omega)

end PTEditor.Windows
