/-
# PTEditor.Linux.PhysicalPages -- reading and writing physical pages

`ptedit_read_physical_page` and `ptedit_write_physical_page` copy one page, through
`/proc/umem` if the library could open it and through the device otherwise.  Both
ways take the frame number in units of the page size.  `ptedit_get_pfn` and the walk
have it in units of 4 KiB (`ptedit_pfn_multiply`), on machines with larger pages too.

`accessesFrame_iff` says when the page that is copied is the page an entry maps: with
4 KiB pages always, with 16 KiB pages for frame 0 only.
-/
import PTEditor.Library.EntryFields
import PTEditor.Linux.LargePages

namespace PTEditor.Linux.PhysicalPages

open PTEditor.Theory.ByteMemory PTEditor.Interface PTEditor.Module PTEditor.Library
open PTEditor.Library.EntryFields

set_option autoImplicit false

/-! ## The calls -/

/-- `size` bytes of memory from `base` on, copied into a buffer. -/
def copyOut (mem : Mem) (base size : Word) (buffer : Word → Byte) : Word → Byte :=
  fun offset => if offset < size then mem (base + offset) else buffer offset

/-- `size` bytes of a buffer, copied to memory from `base` on. -/
def copyIn (mem : Mem) (base size : Word) (content : Word → Byte) : Mem :=
  fun x => if x - base < size then content (x - base) else mem x

def pteditReadPhysicalPage (P : Platform) (pfn : Word) (buffer : Word → Byte) (s : System) :
    Word → Byte :=
  if 0 < s.lib.umem then copyOut s.kernel.mem (pfn * s.lib.pagesize) s.lib.pagesize buffer
  else
    fun offset =>
      if offset < s.kernel.realPageSize then
        (deviceIoctl P s.current (.readPage pfn) s.kernel).2.1 offset
      else buffer offset

def pteditWritePhysicalPage (P : Platform) (pfn : Word) (content : Word → Byte) (s : System) :
    System :=
  if 0 < s.lib.umem then
    { s with
      kernel :=
        { s.kernel with
          mem := copyIn s.kernel.mem (pfn * s.lib.pagesize) s.lib.pagesize content } }
  else { s with kernel := (deviceIoctl P s.current (.writePage pfn content) s.kernel).2.2 }

/-- Physical memory that `mmap` has mapped from `/proc/umem`, from `start` on; the pointer to it
skips some bytes. -/
structure Window where
  start : Word
  length : Word
  skip : Word
  deriving DecidableEq, Repr

/-- `ptedit_pmap`; `none` where `mmap` fails. -/
def pteditPmap (physical length : Word) (s : System) : Option Window :=
  let skip := physical % s.lib.pagesize
  if s.lib.umem < 0 ∨ length + skip = 0 then none
  else some { start := physical / s.lib.pagesize * s.lib.pagesize, length := length + skip, skip }

def Window.load (window : Window) (i : Word) (mem : Mem) : Option Byte :=
  if window.skip + i < window.length then some (mem (window.start + (window.skip + i))) else none

/-! ## What they access -/

section Pages

variable {P : Platform} {s : System} {size : Word}

/-- The library and the module know the page size of the machine. -/
structure PageSize (s : System) (size : Word) : Prop where
  pagesize : s.lib.pagesize = size
  realPageSize : s.kernel.realPageSize = size

/-- Both ways copy out the page in units of the page size. -/
theorem pteditReadPhysicalPage_eq (pages : PageSize s size) (pfn : Word) (buffer : Word → Byte) :
    pteditReadPhysicalPage P pfn buffer s = copyOut s.kernel.mem (pfn * size) size buffer := by
  unfold pteditReadPhysicalPage
  split
  · rw [pages.pagesize]
  · rw [pages.realPageSize]
    funext offset
    simp only [deviceIoctl, ioctlReadPage, pages.realPageSize, copyOut]

theorem pteditWritePhysicalPage_mem (pages : PageSize s size) (pfn : Word)
    (content : Word → Byte) :
    (pteditWritePhysicalPage P pfn content s).kernel.mem =
      copyIn s.kernel.mem (pfn * size) size content := by
  unfold pteditWritePhysicalPage
  split
  · rw [pages.pagesize]
  · simp only [deviceIoctl, ioctlWritePage, pages.realPageSize]
    rfl

end Pages

def withMem (s : System) (mem : Mem) : System := { s with kernel := { s.kernel with mem } }

/-- The page the calls copy for the entry's PFN is the page the entry maps: `size` bytes from
the address the walk would follow, whatever the memory holds. -/
def AccessesFrame (P : Platform) (s : System) (size entry : Word) : Prop :=
  ∀ mem : Mem,
    (∀ buffer, pteditReadPhysicalPage P (pteditGetPfn P.arch entry) buffer (withMem s mem) =
      copyOut mem (pteditGetPfn P.arch entry * pfnMultiply) size buffer) ∧
    ∀ content, (pteditWritePhysicalPage P (pteditGetPfn P.arch entry) content
      (withMem s mem)).kernel.mem =
        copyIn mem (pteditGetPfn P.arch entry * pfnMultiply) size content

theorem copyOut_injective {base base' size : Word} (positive : 0 < size)
    (same : ∀ mem buffer, copyOut mem base size buffer = copyOut mem base' size buffer) :
    base = base' := by
  have first := congrFun (same (fun x => if x = base then 1 else 0) fun _ => 0) 0
  have start : ∀ x : Word, x + 0 = x := fun x => BitVec.add_zero x
  simp only [copyOut, positive, if_true, start] at first
  by_contra differ
  rw [if_neg (Ne.symm differ)] at first
  exact absurd first (by decide)

theorem eq_zero_of_mul_eq {n : Nat} (same : n * 16384 = n * 4096) : n = 0 := by omega

/-- A PFN counts the same in pages of 4 KiB and of 16 KiB only if it is zero. -/
theorem eq_zero_of_scaled {pfn : Word} (bound : pfn.toNat < 2 ^ 36)
    (same : pfn * 16384 = pfn * pfnMultiply) : pfn = 0 := by
  -- Neither product wraps around, so the remainders are the products.
  have unwrapped : ∀ size, size ≤ 2 ^ 28 → pfn.toNat * size % 2 ^ 64 = pfn.toNat * size := by
    intro size small
    exact Nat.mod_eq_of_lt (lt_of_lt_of_le (Nat.mul_lt_mul_of_lt_of_le bound small (by decide))
      (by decide))
  have scaled : pfn.toNat * 16384 % 2 ^ 64 = pfn.toNat * 4096 % 2 ^ 64 := by
    have products := congrArg BitVec.toNat same
    rw [BitVec.toNat_mul, BitVec.toNat_mul] at products
    exact products
  rw [unwrapped 16384 (by decide), unwrapped 4096 (by decide)] at scaled
  exact BitVec.eq_of_toNat_eq (eq_zero_of_mul_eq scaled)

/-- A page size for which there is a paging definition. -/
def Supported (P : Platform) (size : Word) : Prop :=
  size = 4096 ∨ (P.arch = .aarch64 ∧ size = 16384)

theorem withMem_pageSize {s : System} {size : Word} (pages : PageSize s size) (mem : Mem) :
    PageSize (withMem s mem) size :=
  ⟨pages.pagesize, pages.realPageSize⟩

/-- **When a PFN read from an entry names the page the entry maps**: with 4 KiB pages, or if it
is zero.  The entry need not be aligned to the page size, and both ways of access are alike. -/
theorem accessesFrame_iff {P : Platform} {s : System} {size : Word} (supported : Supported P size)
    (pages : PageSize s size) (entry : Word) :
    AccessesFrame P s size entry ↔ size = 4096 ∨ pteditGetPfn P.arch entry = 0 := by
  have reads : ∀ mem buffer, pteditReadPhysicalPage P (pteditGetPfn P.arch entry) buffer
      (withMem s mem) = copyOut mem (pteditGetPfn P.arch entry * size) size buffer :=
    fun mem => pteditReadPhysicalPage_eq (withMem_pageSize pages mem) _
  have writes : ∀ mem content, (pteditWritePhysicalPage P (pteditGetPfn P.arch entry) content
      (withMem s mem)).kernel.mem =
        copyIn mem (pteditGetPfn P.arch entry * size) size content :=
    fun mem => pteditWritePhysicalPage_mem (withMem_pageSize pages mem) _
  constructor
  · intro accesses
    rcases supported with small | ⟨arch, large⟩
    · exact .inl small
    · right
      have base := copyOut_injective (show 0 < size by rw [large]; decide) fun mem buffer =>
        (reads mem buffer).symm.trans ((accesses mem).1 buffer)
      have bound : (pteditGetPfn P.arch entry).toNat < 2 ^ 36 := by
        rw [arch]
        exact pteditGetPfn_lt entry
      rw [large] at base
      exact eq_zero_of_scaled bound base
  · intro either
    have base : pteditGetPfn P.arch entry * size = pteditGetPfn P.arch entry * pfnMultiply := by
      rcases either with small | zero
      · rw [small]
        rfl
      · rw [zero]
        exact BitVec.zero_mul.trans BitVec.zero_mul.symm
    intro mem
    rw [← base]
    exact ⟨reads mem, writes mem⟩

/-- A mapped page of a machine with 4 KiB pages. -/
theorem accessesFrame_pages4k :
    AccessesFrame fourLevelPlatform X86Walk.onePageSystem 4096 0x5007 :=
  (accessesFrame_iff (.inl rfl) ⟨rfl, rfl⟩ 0x5007).mpr (.inl rfl)

def pages16kSystem : System :=
  { X86Walk.onePageSystem with
    lib := { X86Walk.onePageSystem.lib with pagesize := 16384 }
    kernel := { X86Walk.onePageKernel with realPageSize := 16384 } }

/-- An entry for the 16 KiB page at `0x8000`, and the byte that is read for its PFN, at
`0x20000`. -/
theorem not_accessesFrame_pages16k :
    (pteditGetPfn .aarch64 0x8003 * pfnMultiply).toNat % 16384 = 0 ∧
      PageSize pages16kSystem 16384 ∧
      pteditReadPhysicalPage LargePages.aarch64Platform (pteditGetPfn .aarch64 0x8003)
        (fun _ => 0) (withMem pages16kSystem fun x => if x = 0x20000 then 1 else 0) 0 = 1 ∧
      ¬ AccessesFrame LargePages.aarch64Platform pages16kSystem 16384 0x8003 := by
  refine ⟨by decide, ⟨rfl, rfl⟩, by decide, ?_⟩
  intro accesses
  have first := congrFun ((accesses fun x => if x = 0x20000 then 1 else 0).1 fun _ => 0) 0
  revert first
  decide

end PTEditor.Linux.PhysicalPages
