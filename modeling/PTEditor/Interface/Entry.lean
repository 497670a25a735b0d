/-
# PTEditor.Interface.Entry -- the structures and bit layouts both sides share

`module/pteditor.h` is compiled into the kernel module and into the library:
the record `ptedit_entry_t` that carries the entries of one address through the
device, and the bits of its `valid` mask.  `ptedit.h` adds the bit-field view of
a 64-bit entry (`ptedit_cast`) and the shift-and-mask accessors of the PFN.

Only the fields some modelled function reads are kept from the bit-field
structs: `present`, `size` (x86-64 only) and `pfn`.  The table types
`ptedit_p4d_t`, `ptedit_pud_t` and `ptedit_pmd_t` are typedefs of
`ptedit_pgd_t`, so one view serves every level of a walk.
-/
import PTEditor.Theory.ByteMemory

namespace PTEditor.Interface

open PTEditor.Theory.ByteMemory

set_option autoImplicit false

inductive Arch where
  | x86_64
  | aarch64
  deriving DecidableEq, Repr

/-- The levels of a page-table walk, root first. -/
inductive Level where
  | pgd
  | p4d
  | pud
  | pmd
  | pte
  deriving DecidableEq, Repr

namespace Level

def bit : Level → Nat
  | .pgd => 0
  | .p4d => 1
  | .pud => 2
  | .pmd => 3
  | .pte => 4

/-- `PTEDIT_VALID_MASK_PGD` and its siblings. -/
def mask (level : Level) : Word := 1#64 <<< level.bit

theorem bit_lt (level : Level) : level.bit < 64 := by
  cases level <;> decide

/-- The level whose entries point to the tables of this one. -/
def above : Level → Level
  | .pgd => .pgd
  | .p4d => .pgd
  | .pud => .p4d
  | .pmd => .pud
  | .pte => .pmd

end Level

/-- The C test `valid & PTEDIT_VALID_MASK_x`. -/
def marks (valid : Word) (level : Level) : Bool := valid &&& level.mask != 0

theorem getLsbD_one_shiftLeft {k : Nat} (inside : k < 64) (i : Nat) :
    (1#64 <<< k).getLsbD i = decide (i = k) := by
  rw [← BitVec.twoPow_eq, BitVec.getLsbD_twoPow]
  simp [inside, eq_comm]

/-- The C test `w & (1ull << i)` reads bit `i`. -/
theorem and_bit_ne_zero (w : Word) (i : Nat) (bound : i < 64) :
    (w &&& (1#64 <<< i) != 0) = w.getLsbD i := by
  have power : 1#64 <<< i ≠ 0#64 := by
    intro zero
    have bit := getLsbD_one_shiftLeft bound i
    rw [zero] at bit
    simp at bit
  rw [← BitVec.twoPow_eq, BitVec.and_twoPow, BitVec.twoPow_eq]
  cases w.getLsbD i with
  | false => rfl
  | true => simpa using power

theorem marks_eq_getLsbD (valid : Word) (level : Level) :
    marks valid level = valid.getLsbD level.bit :=
  and_bit_ne_zero valid level.bit level.bit_lt

@[simp] theorem marks_zero (level : Level) : marks 0#64 level = false := by
  cases level <;> rfl

@[simp] theorem marks_or (valid valid' : Word) (level : Level) :
    marks (valid ||| valid') level = (marks valid level || marks valid' level) := by
  simp only [marks_eq_getLsbD, BitVec.getLsbD_or]

@[simp] theorem marks_mask (other level : Level) :
    marks other.mask level = decide (level = other) := by
  cases other <;> cases level <;> rfl

/-- `ptedit_entry_t`: the entries of one address on all levels, and the mask of
those that are valid (on the way up) or to be written (on the way down). -/
structure Entry where
  pid : Word
  vaddr : Word
  pgd : Word
  p4d : Word
  pud : Word
  pmd : Word
  pte : Word
  valid : Word
  deriving DecidableEq, Repr

namespace Entry

/-- `memset(&vm, 0, sizeof(vm))`, then the address and the process. -/
def zeroed (vaddr pid : Word) : Entry :=
  { pid, vaddr, pgd := 0, p4d := 0, pud := 0, pmd := 0, pte := 0, valid := 0 }

def word (entry : Entry) : Level → Word
  | .pgd => entry.pgd
  | .p4d => entry.p4d
  | .pud => entry.pud
  | .pmd => entry.pmd
  | .pte => entry.pte

def setWord (entry : Entry) (level : Level) (w : Word) : Entry :=
  match level with
  | .pgd => { entry with pgd := w }
  | .p4d => { entry with p4d := w }
  | .pud => { entry with pud := w }
  | .pmd => { entry with pmd := w }
  | .pte => { entry with pte := w }

/-- `entry.valid |= PTEDIT_VALID_MASK_x`. -/
def mark (entry : Entry) (level : Level) : Entry :=
  { entry with valid := entry.valid ||| level.mask }

@[simp] theorem setWord_word (entry : Entry) (level other : Level) (w : Word) :
    (entry.setWord level w).word other = if other = level then w else entry.word other := by
  cases level <;> cases other <;> rfl

@[simp] theorem setWord_valid (entry : Entry) (level : Level) (w : Word) :
    (entry.setWord level w).valid = entry.valid := by
  cases level <;> rfl

@[simp] theorem mark_word (entry : Entry) (level other : Level) :
    (entry.mark level).word other = entry.word other := by
  cases other <;> rfl

@[simp] theorem mark_valid (entry : Entry) (level : Level) :
    (entry.mark level).valid = entry.valid ||| level.mask := rfl

@[simp] theorem zeroed_word (vaddr pid : Word) (level : Level) :
    (zeroed vaddr pid).word level = 0 := by
  cases level <;> rfl

@[simp] theorem zeroed_valid (vaddr pid : Word) : (zeroed vaddr pid).valid = 0 := rfl

theorem retarget_eq {entry : Entry} {vaddr pid : Word} (sameAddr : entry.vaddr = vaddr)
    (samePid : entry.pid = pid) : { entry with vaddr, pid } = entry := by
  subst sameAddr samePid
  rfl

end Entry

/-! ## The bit-field view of an entry -/

/-- A `size_t x : width` member at bit `offset`, read as a `size_t`. -/
def bitField (entry : Word) (offset width : Nat) : Word :=
  (entry.extractLsb' offset width).setWidth 64

def pagePresent : Arch → Word
  | .x86_64 => 1
  | .aarch64 => 3

def castPresent : Arch → Word → Word
  | .x86_64, entry => bitField entry 0 1
  | .aarch64, entry => bitField entry 0 2

/-- `ptedit_cast(entry, ptedit_pgd_t).size`, a member of the x86-64 struct only. -/
def castSize (entry : Word) : Word := bitField entry 7 1

/-- `ptedit_cast(entry, ptedit_pgd_t).pfn`: 28 bits on x86-64, 36 on aarch64. -/
def castPfn : Arch → Word → Word
  | .x86_64, entry => bitField entry 12 28
  | .aarch64, entry => bitField entry 12 36

/-- The walk's test for going on below an entry. -/
def isPresent (arch : Arch) (entry : Word) : Bool :=
  castPresent arch entry == pagePresent arch

theorem getLsbD_bitField (entry : Word) (offset width i : Nat) :
    (bitField entry offset width).getLsbD i =
      (decide (i < 64) && decide (i < width) && entry.getLsbD (offset + i)) := by
  simp [bitField, BitVec.getLsbD_setWidth, BitVec.getLsbD_extractLsb', Bool.and_assoc]

theorem toNat_bitField (entry : Word) (offset width : Nat) (fits : width ≤ 64) :
    (bitField entry offset width).toNat = entry.toNat / 2 ^ offset % 2 ^ width := by
  have narrow : entry.toNat / 2 ^ offset % 2 ^ width < 2 ^ 64 :=
    lt_of_lt_of_le (Nat.mod_lt _ (Nat.two_pow_pos width)) (Nat.pow_le_pow_right (by decide) fits)
  simp only [bitField, BitVec.toNat_setWidth, BitVec.extractLsb'_toNat, Nat.shiftRight_eq_div_pow]
  exact Nat.mod_eq_of_lt narrow

theorem castPfn_lt (entry : Word) : (castPfn .x86_64 entry).toNat < 2 ^ 28 := by
  simp only [castPfn]
  rw [toNat_bitField entry 12 28 (by decide)]
  exact Nat.mod_lt _ (by decide)

@[simp] theorem isPresent_x86_64_zero : isPresent .x86_64 0 = false := by decide

/-- A one-bit member is the bit. -/
theorem bitField_one (entry : Word) (offset : Nat) :
    bitField entry offset 1 = if entry.getLsbD offset then 1 else 0 := by
  apply BitVec.eq_of_getLsbD_eq
  intro i _
  rw [getLsbD_bitField]
  cases i with
  | zero => cases entry.getLsbD offset <;> simp
  | succ i => cases entry.getLsbD offset <;> simp

theorem isPresent_x86_64 (entry : Word) : isPresent .x86_64 entry = entry.getLsbD 0 := by
  simp only [isPresent, castPresent, pagePresent, bitField_one]
  cases entry.getLsbD 0 <;> rfl

/-! ## The PFN accessors -/

def pfnMask : Arch → Word
  | .x86_64 => ((1#64 <<< 40) - 1) <<< 12
  | .aarch64 => ((1#64 <<< 36) - 1) <<< 12

def pteditSetPfn (arch : Arch) (pte pfn : Word) : Word :=
  (pte &&& ~~~pfnMask arch) ||| (pfn <<< 12)

def pteditGetPfn (arch : Arch) (pte : Word) : Word :=
  (pte &&& pfnMask arch) >>> 12

@[simp] theorem pteditGetPfn_zero (arch : Arch) : pteditGetPfn arch 0 = 0 := by
  cases arch <;> rfl

end PTEditor.Interface
