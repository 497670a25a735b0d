/-
# PTEditor.Demos.MemoryMap -- `demos/memmap.c`, all mapped pages of a process

The demo walks the page tables of a process level by level, through
`ptedit_read_physical_page`, and lists the address of each page it finds present.
The tables are read into four buffers that the loops share; the inner loops read
over the buffers of the levels below while the outer ones go on.

The library answers the same question for one address at a time.
`memmap_lists_resolved_pages` says that the two agree: the list is the pages, each
once and in order, for which `ptedit_resolve` finds a present PTE or a large PMD.
`memmap_used_memory` is the number the demo prints last.
-/
import Mathlib.Algebra.BigOperators.Ring.List
import Mathlib.Data.Set.Card
import PTEditor.Library.Implementations
import PTEditor.Linux.Agreement
import PTEditor.Linux.PfnViews
import PTEditor.Linux.PhysicalPages
import PTEditor.Theory.Enumeration

namespace PTEditor.Demos.MemoryMap

open PTEditor.Theory.ByteMemory PTEditor.Theory.Enumeration PTEditor.Theory.RadixTree
open PTEditor.Interface PTEditor.Module
open PTEditor.Library PTEditor.Library.X86Walk PTEditor.Library.Implementations
open PTEditor.Linux PTEditor.Linux.PhysicalPages

set_option autoImplicit false

/-! ## The program -/

def isPresent : Arch → Word → Bool
  | .x86_64, entry => entry &&& (1#64 <<< 0) != 0
  | .aarch64, entry => entry &&& 3 == 3

def isNormalPage : Arch → Word → Bool
  | .x86_64, entry => entry &&& (1#64 <<< 7) == 0
  | .aarch64, _ => true

/-- `FIRST_LEVEL_ENTRIES`; on x86-64 the upper half is the kernel's. -/
def firstLevelEntries : Arch → Nat
  | .x86_64 => 256
  | .aarch64 => 512

inductive Line where
  | notInitialised
  | dumping (pid : Word)
  /-- The four lines of `dump`. -/
  | entry (type : String) (entry : Word)
  | page (address : Word)
  | largePage (address : Word)
  | usedMemory (kb : Word)
  deriving DecidableEq, Repr

/-- The variables of `main` before they are assigned. -/
structure Locals where
  pml4 : Word → Byte
  pdpt : Word → Byte
  pd : Word → Byte
  pt : Word → Byte
  pdpti : Word

def zeroedLocals : Locals := ⟨fun _ => 0, fun _ => 0, fun _ => 0, fun _ => 0, 0⟩

structure Scan where
  pdpt : Word → Byte
  pd : Word → Byte
  pt : Word → Byte
  memUsage : Word
  output : List Line

def element (buffer : Word → Byte) (i : Nat) : Word := read64 buffer (BitVec.ofNat 64 (8 * i))

namespace Scan

def print (scan : Scan) (line : Line) : Scan := { scan with output := scan.output ++ [line] }

/-- `dump`, which is always asked to. -/
def dump (scan : Scan) (entry : Word) (type : String) : Scan := scan.print (.entry type entry)

def use (scan : Scan) (bytes : Word) : Scan := { scan with memUsage := scan.memUsage + bytes }

end Scan

/-- The address printed for a normal page. -/
def pageAddress (arch : Arch) (pml4i pdpti pdi pti : Word) : Word :=
  match arch with
  | .x86_64 => pti <<< 12 ||| pdi <<< 21 ||| pdpti <<< 30 ||| pml4i <<< 39
  | .aarch64 => pti <<< 12 ||| pdi <<< 21 ||| pml4i <<< 30

def largePageAddress (pml4i pdpti pdi : Word) : Word :=
  pdi <<< 21 ||| pdpti <<< 30 ||| pml4i <<< 39

section Program

variable (P : Platform) (s : System)

def ptRound (pml4i pdpti pdi : Word) (scan : Scan) (pti : Nat) : Scan :=
  let ptEntry := element scan.pt pti
  if isPresent P.arch ptEntry then
    let scan := scan.dump ptEntry "        PT  "
    let scan := scan.print (.page (pageAddress P.arch pml4i pdpti pdi (BitVec.ofNat 64 pti)))
    scan.use 4096
  else scan

def pdRound (pml4i pdpti : Word) (scan : Scan) (pdi : Nat) : Scan :=
  let pdEntry := element scan.pd pdi
  if isPresent P.arch pdEntry then
    let scan := scan.dump pdEntry "    PD  "
    if isNormalPage P.arch pdEntry then
      let scan :=
        { scan with pt := pteditReadPhysicalPage P (pteditGetPfn P.arch pdEntry) scan.pt s }
      (List.range 512).foldl (ptRound P pml4i pdpti (BitVec.ofNat 64 pdi)) scan
    else
      let scan := scan.print (.largePage (largePageAddress pml4i pdpti (BitVec.ofNat 64 pdi)))
      scan.use (2 * 1024 * 1024)
  else scan

def scanPd (pml4i pdpti pdptEntry : Word) (scan : Scan) : Scan :=
  let scan :=
    { scan with pd := pteditReadPhysicalPage P (pteditGetPfn P.arch pdptEntry) scan.pd s }
  (List.range 512).foldl (pdRound P s pml4i pdpti) scan

def pdptRound (pml4i : Word) (scan : Scan) (pdpti : Nat) : Scan :=
  let pdptEntry := element scan.pdpt pdpti
  if isPresent P.arch pdptEntry then
    scanPd P s pml4i (BitVec.ofNat 64 pdpti) pdptEntry (scan.dump pdptEntry "PDPT")
  else scan

/-- One round of the loop over the PML4 entries; aarch64 has no PDPT, and leaves `pdpti`
as it was. -/
def pml4Round (locals : Locals) (pml4 : Word → Byte) (scan : Scan) (pml4i : Nat) : Scan :=
  let pml4Entry := element pml4 pml4i
  if isPresent P.arch pml4Entry then
    let scan := scan.dump pml4Entry ""
    match P.arch with
    | .x86_64 =>
        let scan :=
          { scan with
            pdpt := pteditReadPhysicalPage P (pteditGetPfn P.arch pml4Entry) scan.pdpt s }
        (List.range 512).foldl (pdptRound P s (BitVec.ofNat 64 pml4i)) scan
    | .aarch64 => scanPd P s (BitVec.ofNat 64 pml4i) locals.pdpti pml4Entry scan
  else scan

def scanRoot (locals : Locals) (root : Word) (output : List Line) : Scan :=
  let pml4 := pteditReadPhysicalPage P (root / s.lib.pagesize) locals.pml4 s
  let scan : Scan :=
    { pdpt := locals.pdpt, pd := locals.pd, pt := locals.pt, memUsage := 0, output }
  (List.range (firstLevelEntries P.arch)).foldl (pml4Round P s locals pml4) scan

structure Outcome where
  status : Int
  output : List Line
  closed : List Int

/-- `main` of `memmap.c`; `fd`, `umem` and `getpagesize` are what `ptedit_init` gets. -/
def memmap (fd umem : Int) (getpagesize : Word) (pid : BitVec 32) (locals : Locals) : Outcome :=
  let init := pteditInit P fd umem getpagesize s
  let s := init.2
  if init.1 ≠ 0 then { status := 1, output := [.notInitialised], closed := [] }
  else
    let root := pteditGetPagingRoot P pid s
    let s := root.2
    let scan := scanRoot P s locals root.1 [.dumping (pid.signExtend 64)]
    { status := 0
      output := scan.output ++ [.usedMemory (scan.memUsage / 1024)]
      closed := pteditCleanup s }

end Program

/-! ## Pages -/

/-- A page the demo found, of 4 KiB or of 2 MiB. -/
structure Page where
  address : Word
  large : Bool
  deriving DecidableEq, Repr

namespace Page

def start (page : Page) : Nat := page.address.toNat

def size (page : Page) : Nat := if page.large then 2 ^ 21 else 2 ^ 12

theorem size_pos (page : Page) : 0 < page.size := by
  unfold size
  split
  · exact Nat.two_pow_pos 21
  · exact Nat.two_pow_pos 12

end Page

def pagesOf (output : List Line) : List Page :=
  output.filterMap fun
    | .page address => some ⟨address, false⟩
    | .largePage address => some ⟨address, true⟩
    | _ => none

@[simp] theorem pagesOf_append (output more : List Line) :
    pagesOf (output ++ more) = pagesOf output ++ pagesOf more :=
  List.filterMap_append

/-! ## What the tables say -/

section Tables

variable (arch : Arch) (mem : Mem)

def tableEntry (frame : Word) (i : Nat) : Word :=
  read64 mem (frame * 4096 + BitVec.ofNat 64 (8 * i))

/-- The page is mapped by a PT. -/
def PtMaps (frame : Word) (page : Page) : Prop :=
  page.large = false ∧ page.start % 2 ^ 12 = 0 ∧
    isPresent arch (tableEntry mem frame (page.start / 2 ^ 12 % 512)) = true

/-- The page is mapped through a PD, or by one of its entries. -/
def PdMaps (frame : Word) (page : Page) : Prop :=
  let pdEntry := tableEntry mem frame (page.start / 2 ^ 21 % 512)
  isPresent arch pdEntry = true ∧
    if isNormalPage arch pdEntry then PtMaps arch mem (pteditGetPfn arch pdEntry) page
    else page.large = true ∧ page.start % 2 ^ 21 = 0

def PdptMaps (frame : Word) (page : Page) : Prop :=
  let pdptEntry := tableEntry mem frame (page.start / 2 ^ 30 % 512)
  isPresent arch pdptEntry = true ∧ PdMaps arch mem (pteditGetPfn arch pdptEntry) page

def RootMaps (frame : Word) (page : Page) : Prop :=
  match arch with
  | .x86_64 =>
      let pml4Entry := tableEntry mem frame (page.start / 2 ^ 39 % 512)
      isPresent arch pml4Entry = true ∧ PdptMaps arch mem (pteditGetPfn arch pml4Entry) page
  | .aarch64 => PdptMaps arch mem frame page

/-- What the first level covers. -/
def addressLimit : Arch → Nat
  | .x86_64 => 2 ^ 47
  | .aarch64 => 2 ^ 39

end Tables

/-! ## The buffers -/

def Holds (mem : Mem) (buffer : Word → Byte) (frame : Word) : Prop :=
  ∀ i < 512, element buffer i = tableEntry mem frame i

theorem element_copyOut (mem : Mem) (base : Word) (buffer : Word → Byte) {i : Nat}
    (bound : i < 512) :
    element (copyOut mem base 4096 buffer) i = read64 mem (base + BitVec.ofNat 64 (8 * i)) := by
  have inside : ∀ k : Word, k.toNat < 8 →
      copyOut mem base 4096 buffer (BitVec.ofNat 64 (8 * i) + k) =
        mem (base + BitVec.ofNat 64 (8 * i) + k) := by
    intro k small
    have below : BitVec.ofNat 64 (8 * i) + k < 4096 := by
      have limit : (4096 : Word).toNat = 4096 := rfl
      rw [BitVec.lt_def, BitVec.toNat_add, BitVec.toNat_ofNat, limit]
      omega
    simp only [copyOut, below, if_true, BitVec.add_assoc]
  have start : ∀ x : Word, x + 0 = x := fun x => BitVec.add_zero x
  have first := inside 0 (by decide)
  rw [start, start] at first
  simp only [element, read64, inside 1 (by decide), inside 2 (by decide), inside 3 (by decide),
    inside 4 (by decide), inside 5 (by decide), inside 6 (by decide), inside 7 (by decide), first]

theorem holds_read {P : Platform} {s : System} (pages : PageSize s 4096) (frame : Word)
    (buffer : Word → Byte) :
    Holds s.kernel.mem (pteditReadPhysicalPage P frame buffer s) frame := by
  intro i bound
  rw [pteditReadPhysicalPage_eq pages, element_copyOut _ _ _ bound]
  rfl

/-! ## The addresses -/

/-- Fields above each other add up. -/
theorem toNat_or_shiftLeft {low high : Word} {k : Nat} (below : low.toNat < 2 ^ k)
    (fits : high.toNat * 2 ^ k < 2 ^ 64) :
    (low ||| high <<< k).toNat = low.toNat + high.toNat * 2 ^ k := by
  have shifted : (high <<< k).toNat = high.toNat * 2 ^ k := by
    rw [BitVec.toNat_shiftLeft, Nat.shiftLeft_eq, Nat.mod_eq_of_lt fits]
  rw [BitVec.toNat_or, shifted, Nat.or_comm, ← Nat.shiftLeft_eq,
    ← Nat.shiftLeft_add_eq_or_of_lt below, Nat.add_comm]

theorem toNat_shiftLeft_small {high : Word} {k : Nat} (fits : high.toNat * 2 ^ k < 2 ^ 64) :
    (high <<< k).toNat = high.toNat * 2 ^ k := by
  rw [BitVec.toNat_shiftLeft, Nat.shiftLeft_eq, Nat.mod_eq_of_lt fits]

theorem toNat_pageAddress_x86_64 {g u m t : Nat} (hg : g < 2 ^ 9) (hu : u < 2 ^ 9)
    (hm : m < 2 ^ 9) (ht : t < 2 ^ 9) :
    (pageAddress .x86_64 (BitVec.ofNat 64 g) (BitVec.ofNat 64 u) (BitVec.ofNat 64 m)
      (BitVec.ofNat 64 t)).toNat = g * 2 ^ 39 + u * 2 ^ 30 + m * 2 ^ 21 + t * 2 ^ 12 := by
  have value : ∀ {i : Nat}, i < 2 ^ 9 → (BitVec.ofNat 64 i).toNat = i := by
    intro i small
    rw [BitVec.toNat_ofNat, Nat.mod_eq_of_lt (by omega)]
  have pt : (BitVec.ofNat 64 t <<< 12).toNat = t * 2 ^ 12 := by
    rw [toNat_shiftLeft_small (by rw [value ht]; omega), value ht]
  have pd : (BitVec.ofNat 64 t <<< 12 ||| BitVec.ofNat 64 m <<< 21).toNat =
      t * 2 ^ 12 + m * 2 ^ 21 := by
    rw [toNat_or_shiftLeft (by omega) (by rw [value hm]; omega), pt, value hm]
  have pdpt : (BitVec.ofNat 64 t <<< 12 ||| BitVec.ofNat 64 m <<< 21 |||
      BitVec.ofNat 64 u <<< 30).toNat = t * 2 ^ 12 + m * 2 ^ 21 + u * 2 ^ 30 := by
    rw [toNat_or_shiftLeft (by omega) (by rw [value hu]; omega), pd, value hu]
  rw [pageAddress, toNat_or_shiftLeft (by omega) (by rw [value hg]; omega), pdpt, value hg]
  omega

theorem toNat_pageAddress_aarch64 {g m t : Nat} (pdpti : Word) (hg : g < 2 ^ 9) (hm : m < 2 ^ 9)
    (ht : t < 2 ^ 9) :
    (pageAddress .aarch64 (BitVec.ofNat 64 g) pdpti (BitVec.ofNat 64 m)
      (BitVec.ofNat 64 t)).toNat = g * 2 ^ 30 + m * 2 ^ 21 + t * 2 ^ 12 := by
  have same : pageAddress .aarch64 (BitVec.ofNat 64 g) pdpti (BitVec.ofNat 64 m)
      (BitVec.ofNat 64 t) = pageAddress .x86_64 (BitVec.ofNat 64 0) (BitVec.ofNat 64 g)
        (BitVec.ofNat 64 m) (BitVec.ofNat 64 t) := by
    simp [pageAddress]
  rw [same, toNat_pageAddress_x86_64 (by decide) hg hm ht, Nat.zero_mul, Nat.zero_add]

theorem largePageAddress_eq (pml4i pdpti pdi : Word) :
    largePageAddress pml4i pdpti pdi = pageAddress .x86_64 pml4i pdpti pdi 0 := by
  simp [largePageAddress, pageAddress]

/-! ## The loops -/

namespace Scan

def pages (scan : Scan) : List Page := pagesOf scan.output

/-- `mem_usage` is the sum of the sizes of the pages listed. -/
def Accounted (scan : Scan) : Prop :=
  scan.memUsage = BitVec.ofNat 64 (scan.pages.map Page.size).sum

@[simp] theorem pages_dump (scan : Scan) (entry : Word) (type : String) :
    (scan.dump entry type).pages = scan.pages := by
  simp [dump, print, pages, pagesOf]

@[simp] theorem pages_page (scan : Scan) (address : Word) :
    (scan.print (.page address)).pages = scan.pages ++ [⟨address, false⟩] := by
  simp [print, pages, pagesOf]

@[simp] theorem pages_largePage (scan : Scan) (address : Word) :
    (scan.print (.largePage address)).pages = scan.pages ++ [⟨address, true⟩] := by
  simp [print, pages, pagesOf]

@[simp] theorem pages_use (scan : Scan) (bytes : Word) : (scan.use bytes).pages = scan.pages := rfl

theorem Accounted.dump {scan : Scan} (accounted : scan.Accounted) (entry : Word) (type : String) :
    (scan.dump entry type).Accounted := by
  unfold Accounted
  rw [pages_dump]
  exact accounted

/-- Printing and counting leave the buffers alone. -/
@[simp] theorem dump_buffers (scan : Scan) (entry : Word) (type : String) :
    (scan.dump entry type).pdpt = scan.pdpt ∧ (scan.dump entry type).pd = scan.pd ∧
      (scan.dump entry type).pt = scan.pt :=
  ⟨rfl, rfl, rfl⟩

@[simp] theorem print_buffers (scan : Scan) (line : Line) :
    (scan.print line).pdpt = scan.pdpt ∧ (scan.print line).pd = scan.pd ∧
      (scan.print line).pt = scan.pt :=
  ⟨rfl, rfl, rfl⟩

@[simp] theorem use_buffers (scan : Scan) (bytes : Word) :
    (scan.use bytes).pdpt = scan.pdpt ∧ (scan.use bytes).pd = scan.pd ∧
      (scan.use bytes).pt = scan.pt :=
  ⟨rfl, rfl, rfl⟩

/-- A page that is listed and counted. -/
theorem Accounted.list {scan listed : Scan} (accounted : scan.Accounted) (page : Page)
    (pages : listed.pages = scan.pages ++ [page])
    (memUsage : listed.memUsage = scan.memUsage + BitVec.ofNat 64 page.size) :
    listed.Accounted := by
  unfold Accounted at accounted ⊢
  rw [memUsage, accounted, pages, List.map_append, List.sum_append, List.map_singleton,
    List.sum_singleton, BitVec.ofNat_add]

theorem Accounted.page {scan : Scan} (accounted : scan.Accounted) (address : Word) :
    ((scan.print (.page address)).use 4096).Accounted := by
  have size : BitVec.ofNat 64 (⟨address, false⟩ : Page).size = 4096 := by
    simp only [Page.size, Bool.false_eq_true, if_false]
    decide
  refine accounted.list ⟨address, false⟩ ?_ ?_
  · rw [pages_use, pages_page]
  · rw [size]
    rfl

theorem Accounted.largePage {scan : Scan} (accounted : scan.Accounted) (address : Word) :
    ((scan.print (.largePage address)).use (2 * 1024 * 1024)).Accounted := by
  have size : BitVec.ofNat 64 (⟨address, true⟩ : Page).size = 2 * 1024 * 1024 := by
    simp only [Page.size, if_true]
    decide
  refine accounted.list ⟨address, true⟩ ?_ ?_
  · rw [pages_use, pages_largePage]
  · rw [size]
    rfl

end Scan

section Loops

variable {P : Platform} {s : System}

/-- The answer for a range, among the pages that `maps` has. -/
abbrev Lists (maps : Page → Prop) (items : List Page) (low high : Nat) : Prop :=
  Enumerates Page.start Page.size maps items low high

/-- What the loop over the PDPT entries relies on: its buffer, and the account. -/
structure InPdpt (pdpt : Word → Byte) (scan : Scan) : Prop where
  pdpt : scan.pdpt = pdpt
  accounted : scan.Accounted

structure InPd (pdpt pd : Word → Byte) (scan : Scan) : Prop extends InPdpt pdpt scan where
  pd : scan.pd = pd

structure InPt (pdpt pd pt : Word → Byte) (scan : Scan) : Prop extends InPd pdpt pd scan where
  pt : scan.pt = pt

/-- A page that fills its range. -/
theorem lists_page {maps : Page → Prop} (page : Page) {low high : Nat} (starts : page.start = low)
    (ends : low + page.size = high) (aligned : low % page.size = 0)
    (only : ∀ other : Page, low ≤ other.start → other.start < high →
      (maps other ↔ other.large = page.large ∧ other.start % page.size = 0)) :
    Lists maps [page] low high := by
  refine enumerates_singleton page.size_pos starts.symm (by rw [starts, ends]) ?_
  intro other above below
  rw [only other above below]
  constructor
  · rintro ⟨kind, whole⟩
    obtain ⟨steps, first⟩ := Nat.dvd_of_mod_eq_zero aligned
    obtain ⟨steps', second⟩ := Nat.dvd_of_mod_eq_zero whole
    have same : steps' = steps := by
      have notBefore : steps ≤ steps' :=
        Nat.le_of_mul_le_mul_left (first ▸ second ▸ above) page.size_pos
      have notAfter : page.size * steps' < page.size * (steps + 1) := by
        rw [Nat.mul_add, ← first, ← second, Nat.mul_one, ends]
        exact below
      have := Nat.lt_of_mul_lt_mul_left notAfter
      omega
    have address : other.address = page.address := by
      apply BitVec.eq_of_toNat_eq
      have starts' : other.start = page.start := by rw [second, same, ← first, starts]
      exact starts'
    cases other
    cases page
    simp only [Page.mk.injEq]
    exact ⟨address, kind⟩
  · rintro rfl
    exact ⟨rfl, by rw [starts, aligned]⟩

/-- An entry that is not present answers for its part of the addresses with no page. -/
theorem lists_absent {arch : Arch} {mem : Mem} {frame : Word} {maps : Page → Prop}
    {width low high i : Nat}
    (index : ∀ page : Page, low ≤ page.start → page.start < high → page.start / width % 512 = i)
    (absent : ¬ isPresent arch (tableEntry mem frame i) = true)
    (needs : ∀ page, maps page →
      isPresent arch (tableEntry mem frame (page.start / width % 512)) = true) :
    Lists maps [] low high := by
  refine enumerates_nil ?_
  intro page above below mapped
  have present := needs page mapped
  rw [index page above below] at present
  exact absent present

theorem ptRound_lists {frame pml4i pdpti pdi : Word} {low : Nat} (aligned : low % 2 ^ 21 = 0)
    {pdpt pd pt : Word → Byte} (holds : Holds s.kernel.mem pt frame)
    (addresses : ∀ t < 512,
      (pageAddress P.arch pml4i pdpti pdi (BitVec.ofNat 64 t)).toNat = low + t * 2 ^ 12)
    {i : Nat} (bound : i < 512) {scan : Scan} (here : InPt pdpt pd pt scan) :
    InPt pdpt pd pt (ptRound P pml4i pdpti pdi scan i) ∧
      ∃ items, (ptRound P pml4i pdpti pdi scan i).pages = scan.pages ++ items ∧
        Lists (PtMaps P.arch s.kernel.mem frame) items (low + i * 2 ^ 12)
          (low + (i + 1) * 2 ^ 12) := by
  have entry : element scan.pt i = tableEntry s.kernel.mem frame i := by
    rw [here.pt]
    exact holds i bound
  have index : ∀ page : Page, low + i * 2 ^ 12 ≤ page.start →
      page.start < low + (i + 1) * 2 ^ 12 → page.start / 2 ^ 12 % 512 = i := by
    intro page above below
    omega
  simp only [ptRound, entry]
  split
  · rename_i present
    have address := addresses i bound
    generalize pageAddress P.arch pml4i pdpti pdi (BitVec.ofNat 64 i) = found at address
    refine ⟨⟨⟨⟨?_, ?_⟩, ?_⟩, ?_⟩, [⟨found, false⟩], ?_, ?_⟩
    · simpa using here.pdpt
    · exact (here.accounted.dump _ _).page found
    · simpa using here.pd
    · simpa using here.pt
    · simp
    · have size : (⟨found, false⟩ : Page).size = 2 ^ 12 := if_neg Bool.false_ne_true
      refine lists_page ⟨found, false⟩ address (by omega) (by rw [size]; omega) ?_
      intro page above below
      simp only [size, PtMaps, index page above below, present, and_true]
  · rename_i absent
    refine ⟨here, [], by simp, lists_absent index absent ?_⟩
    rintro page ⟨-, -, present⟩
    exact present

/-- The loop over the PT entries answers for the 2 MiB of its table. -/
theorem ptLoop_lists {frame pml4i pdpti pdi : Word} {low : Nat} (aligned : low % 2 ^ 21 = 0)
    {pdpt pd pt : Word → Byte} (holds : Holds s.kernel.mem pt frame)
    (addresses : ∀ t < 512,
      (pageAddress P.arch pml4i pdpti pdi (BitVec.ofNat 64 t)).toNat = low + t * 2 ^ 12)
    {scan : Scan} (here : InPt pdpt pd pt scan) :
    InPt pdpt pd pt ((List.range 512).foldl (ptRound P pml4i pdpti pdi) scan) ∧
      ∃ items, ((List.range 512).foldl (ptRound P pml4i pdpti pdi) scan).pages =
          scan.pages ++ items ∧
        Lists (PtMaps P.arch s.kernel.mem frame) items low (low + 512 * 2 ^ 12) :=
  enumerates_loop (InPt pdpt pd pt) Scan.pages 512
    (fun _ bound _ here => ptRound_lists aligned holds addresses bound here) scan here

theorem pdRound_lists (pages : PageSize s 4096) {frame pml4i pdpti : Word} {low : Nat}
    (aligned : low % 2 ^ 30 = 0) {pdpt pd : Word → Byte} (holds : Holds s.kernel.mem pd frame)
    (addresses : ∀ m < 512, ∀ t < 512,
      (pageAddress P.arch pml4i pdpti (BitVec.ofNat 64 m) (BitVec.ofNat 64 t)).toNat =
        low + m * 2 ^ 21 + t * 2 ^ 12)
    {i : Nat} (bound : i < 512) {scan : Scan} (here : InPd pdpt pd scan) :
    InPd pdpt pd (pdRound P s pml4i pdpti scan i) ∧
      ∃ items, (pdRound P s pml4i pdpti scan i).pages = scan.pages ++ items ∧
        Lists (PdMaps P.arch s.kernel.mem frame) items (low + i * 2 ^ 21)
          (low + (i + 1) * 2 ^ 21) := by
  have entry : element scan.pd i = tableEntry s.kernel.mem frame i := by
    rw [here.pd]
    exact holds i bound
  have index : ∀ page : Page, low + i * 2 ^ 21 ≤ page.start →
      page.start < low + (i + 1) * 2 ^ 21 → page.start / 2 ^ 21 % 512 = i := by
    intro page above below
    omega
  have next : low + i * 2 ^ 21 + 512 * 2 ^ 12 = low + (i + 1) * 2 ^ 21 := by omega
  simp only [pdRound, entry]
  split
  · rename_i present
    split
    · rename_i normal
      -- A table of PTEs: the inner loop answers for the block.
      have holdsPt := holds_read (P := P) pages
        (pteditGetPfn P.arch (tableEntry s.kernel.mem frame i))
        (scan.dump (tableEntry s.kernel.mem frame i) "    PD  ").pt
      generalize pteditReadPhysicalPage P (pteditGetPfn P.arch (tableEntry s.kernel.mem frame i))
        (scan.dump (tableEntry s.kernel.mem frame i) "    PD  ").pt s = pt at holdsPt ⊢
      have dumped : InPt pdpt pd pt
          { scan.dump (tableEntry s.kernel.mem frame i) "    PD  " with pt } :=
        ⟨⟨⟨here.pdpt, here.accounted.dump _ _⟩, here.pd⟩, rfl⟩
      have sofar : ({ scan.dump (tableEntry s.kernel.mem frame i) "    PD  " with pt } : Scan).pages =
          scan.pages := Scan.pages_dump scan _ _
      generalize ({ scan.dump (tableEntry s.kernel.mem frame i) "    PD  " with pt } : Scan) = inner
        at dumped sofar ⊢
      obtain ⟨kept, items, appended, found⟩ :=
        ptLoop_lists (by omega) holdsPt (addresses i bound) dumped
      rw [next] at found
      refine ⟨kept.toInPd, items, ?_, found.congr ?_⟩
      · rw [appended, sofar]
      · intro page above below
        simp only [PdMaps, index page above below, present, normal, if_true, true_and]
    · rename_i huge
      -- A large page, which x86-64 only has.
      have arch : P.arch = .x86_64 := by
        cases arch : P.arch with
        | x86_64 => rfl
        | aarch64 =>
            rw [arch] at huge
            exact absurd rfl huge
      have address : (largePageAddress pml4i pdpti (BitVec.ofNat 64 i)).toNat =
          low + i * 2 ^ 21 := by
        have first := addresses i bound 0 (by decide)
        rw [arch, Nat.zero_mul, Nat.add_zero] at first
        rw [largePageAddress_eq]
        exact first
      generalize largePageAddress pml4i pdpti (BitVec.ofNat 64 i) = found at address
      refine ⟨⟨⟨?_, ?_⟩, ?_⟩, [⟨found, true⟩], ?_, ?_⟩
      · rw [(Scan.use_buffers _ _).1, (Scan.print_buffers _ _).1, (Scan.dump_buffers _ _ _).1]
        exact here.pdpt
      · exact (here.accounted.dump _ _).largePage found
      · rw [(Scan.use_buffers _ _).2.1, (Scan.print_buffers _ _).2.1, (Scan.dump_buffers _ _ _).2.1]
        exact here.pd
      · rw [Scan.pages_use, Scan.pages_largePage, Scan.pages_dump]
      · have size : (⟨found, true⟩ : Page).size = 2 ^ 21 := if_pos rfl
        refine lists_page ⟨found, true⟩ address (by omega) (by rw [size]; omega) ?_
        intro page above below
        simp only [size, PdMaps, index page above below, present, huge, Bool.false_eq_true, if_false,
          true_and]
  · rename_i absent
    refine ⟨here, [], by simp, lists_absent index absent ?_⟩
    rintro page ⟨present, -⟩
    exact present

/-- `scanPd` answers for the 1 GiB of the PD. -/
theorem scanPd_lists (pages : PageSize s 4096) {pml4i pdpti : Word} (pdptEntry : Word) {low : Nat}
    (aligned : low % 2 ^ 30 = 0) {pdpt : Word → Byte}
    (addresses : ∀ m < 512, ∀ t < 512,
      (pageAddress P.arch pml4i pdpti (BitVec.ofNat 64 m) (BitVec.ofNat 64 t)).toNat =
        low + m * 2 ^ 21 + t * 2 ^ 12)
    {scan : Scan} (here : InPdpt pdpt scan) :
    InPdpt pdpt (scanPd P s pml4i pdpti pdptEntry scan) ∧
      ∃ items, (scanPd P s pml4i pdpti pdptEntry scan).pages = scan.pages ++ items ∧
        Lists (PdMaps P.arch s.kernel.mem (pteditGetPfn P.arch pdptEntry)) items low
          (low + 512 * 2 ^ 21) := by
  have holds := holds_read (P := P) pages (pteditGetPfn P.arch pdptEntry) scan.pd
  unfold scanPd
  generalize pteditReadPhysicalPage P (pteditGetPfn P.arch pdptEntry) scan.pd s = pd at holds ⊢
  have read : InPd pdpt pd { scan with pd } := ⟨⟨here.pdpt, here.accounted⟩, rfl⟩
  have looped := enumerates_loop (InPd pdpt pd) Scan.pages 512
    (fun _ bound _ here => pdRound_lists (P := P) pages aligned holds addresses bound here)
    { scan with pd } read
  obtain ⟨kept, items, appended, found⟩ := looped
  exact ⟨kept.toInPdpt, items, appended, found⟩

theorem pdptRound_lists (pages : PageSize s 4096) {frame pml4i : Word} {low : Nat}
    (aligned : low % 2 ^ 39 = 0) {pdpt : Word → Byte} (holds : Holds s.kernel.mem pdpt frame)
    (addresses : ∀ u < 512, ∀ m < 512, ∀ t < 512,
      (pageAddress P.arch pml4i (BitVec.ofNat 64 u) (BitVec.ofNat 64 m) (BitVec.ofNat 64 t)).toNat =
        low + u * 2 ^ 30 + m * 2 ^ 21 + t * 2 ^ 12)
    {i : Nat} (bound : i < 512) {scan : Scan} (here : InPdpt pdpt scan) :
    InPdpt pdpt (pdptRound P s pml4i scan i) ∧
      ∃ items, (pdptRound P s pml4i scan i).pages = scan.pages ++ items ∧
        Lists (PdptMaps P.arch s.kernel.mem frame) items (low + i * 2 ^ 30)
          (low + (i + 1) * 2 ^ 30) := by
  have entry : element scan.pdpt i = tableEntry s.kernel.mem frame i := by
    rw [here.pdpt]
    exact holds i bound
  have index : ∀ page : Page, low + i * 2 ^ 30 ≤ page.start →
      page.start < low + (i + 1) * 2 ^ 30 → page.start / 2 ^ 30 % 512 = i := by
    intro page above below
    omega
  have next : low + i * 2 ^ 30 + 512 * 2 ^ 21 = low + (i + 1) * 2 ^ 30 := by omega
  simp only [pdptRound, entry]
  split
  · rename_i present
    have dumped : InPdpt pdpt (scan.dump (tableEntry s.kernel.mem frame i) "PDPT") :=
      ⟨here.pdpt, here.accounted.dump _ _⟩
    obtain ⟨kept, items, appended, found⟩ :=
      scanPd_lists (P := P) pages (tableEntry s.kernel.mem frame i) (by omega)
        (addresses i bound) dumped
    rw [next] at found
    refine ⟨kept, items, ?_, found.congr ?_⟩
    · rw [appended, Scan.pages_dump]
    · intro page above below
      simp only [PdptMaps, index page above below, present, true_and]
  · rename_i absent
    refine ⟨here, [], by simp, lists_absent index absent ?_⟩
    rintro page ⟨present, -⟩
    exact present

/-- One round at the root answers for 512 GiB on x86-64. -/
theorem pml4Round_lists_x86_64 (arch : P.arch = .x86_64) (pages : PageSize s 4096) {frame : Word}
    (locals : Locals) {pml4 : Word → Byte} (holds : Holds s.kernel.mem pml4 frame) {i : Nat}
    (bound : i < 512) {scan : Scan} (accounted : scan.Accounted) :
    (pml4Round P s locals pml4 scan i).Accounted ∧
      ∃ items, (pml4Round P s locals pml4 scan i).pages = scan.pages ++ items ∧
        Lists (RootMaps P.arch s.kernel.mem frame) items (0 + i * 2 ^ 39) (0 + (i + 1) * 2 ^ 39) := by
  have index : ∀ page : Page, 0 + i * 2 ^ 39 ≤ page.start →
      page.start < 0 + (i + 1) * 2 ^ 39 → page.start / 2 ^ 39 % 512 = i := by
    intro page above below
    omega
  have next : 0 + i * 2 ^ 39 + 512 * 2 ^ 30 = 0 + (i + 1) * 2 ^ 39 := by omega
  simp only [pml4Round, holds i bound]
  split
  · rename_i present
    simp only [arch]
    have holdsPdpt := holds_read (P := P) pages
      (pteditGetPfn .x86_64 (tableEntry s.kernel.mem frame i))
      (scan.dump (tableEntry s.kernel.mem frame i) "").pdpt
    generalize pteditReadPhysicalPage P (pteditGetPfn .x86_64 (tableEntry s.kernel.mem frame i))
      (scan.dump (tableEntry s.kernel.mem frame i) "").pdpt s = pdpt at holdsPdpt ⊢
    have dumped : InPdpt pdpt { scan.dump (tableEntry s.kernel.mem frame i) "" with pdpt } :=
      ⟨rfl, accounted.dump _ _⟩
    have addresses : ∀ u < 512, ∀ m < 512, ∀ t < 512,
        (pageAddress P.arch (BitVec.ofNat 64 i) (BitVec.ofNat 64 u) (BitVec.ofNat 64 m)
          (BitVec.ofNat 64 t)).toNat = 0 + i * 2 ^ 39 + u * 2 ^ 30 + m * 2 ^ 21 + t * 2 ^ 12 := by
      intro u hu m hm t ht
      rw [arch, toNat_pageAddress_x86_64 bound hu hm ht, Nat.zero_add]
    have looped := enumerates_loop (InPdpt pdpt) Scan.pages 512
      (fun _ bound _ here => pdptRound_lists pages (by omega) holdsPdpt addresses bound here)
      _ dumped
    obtain ⟨kept, items, appended, found⟩ := looped
    rw [next] at found
    refine ⟨kept.accounted, items, ?_, found.congr ?_⟩
    · rw [appended]
      exact congrArg (· ++ items) (Scan.pages_dump scan _ _)
    · intro page above below
      rw [arch] at present ⊢
      simp only [RootMaps, index page above below, present, true_and]
  · rename_i absent
    rw [arch] at absent ⊢
    refine ⟨accounted, [], by simp, lists_absent index absent ?_⟩
    rintro page ⟨present, -⟩
    exact present

/-- One round at the root answers for 1 GiB on aarch64. -/
theorem pml4Round_lists_aarch64 (arch : P.arch = .aarch64) (pages : PageSize s 4096) {frame : Word}
    (locals : Locals) {pml4 : Word → Byte} (holds : Holds s.kernel.mem pml4 frame) {i : Nat}
    (bound : i < 512) {scan : Scan} (accounted : scan.Accounted) :
    (pml4Round P s locals pml4 scan i).Accounted ∧
      ∃ items, (pml4Round P s locals pml4 scan i).pages = scan.pages ++ items ∧
        Lists (RootMaps P.arch s.kernel.mem frame) items (0 + i * 2 ^ 30) (0 + (i + 1) * 2 ^ 30) := by
  have index : ∀ page : Page, 0 + i * 2 ^ 30 ≤ page.start →
      page.start < 0 + (i + 1) * 2 ^ 30 → page.start / 2 ^ 30 % 512 = i := by
    intro page above below
    omega
  have next : 0 + i * 2 ^ 30 + 512 * 2 ^ 21 = 0 + (i + 1) * 2 ^ 30 := by omega
  simp only [pml4Round, holds i bound]
  split
  · rename_i present
    simp only [arch]
    have dumped : InPdpt scan.pdpt (scan.dump (tableEntry s.kernel.mem frame i) "") :=
      ⟨rfl, accounted.dump _ _⟩
    have addresses : ∀ m < 512, ∀ t < 512,
        (pageAddress P.arch (BitVec.ofNat 64 i) locals.pdpti (BitVec.ofNat 64 m)
          (BitVec.ofNat 64 t)).toNat = 0 + i * 2 ^ 30 + m * 2 ^ 21 + t * 2 ^ 12 := by
      intro m hm t ht
      rw [arch, toNat_pageAddress_aarch64 _ bound hm ht, Nat.zero_add]
    obtain ⟨kept, items, appended, found⟩ :=
      scanPd_lists (P := P) pages (tableEntry s.kernel.mem frame i) (by omega)
        addresses dumped
    rw [next] at found
    refine ⟨kept.accounted, items, ?_, found.congr ?_⟩
    · rw [appended, Scan.pages_dump]
    · intro page above below
      rw [arch] at present ⊢
      simp only [RootMaps, PdptMaps, index page above below, present, true_and]
  · rename_i absent
    rw [arch] at absent ⊢
    refine ⟨accounted, [], by simp, lists_absent index absent ?_⟩
    rintro page ⟨present, -⟩
    exact present

/-- The whole scan. -/
theorem scanRoot_lists (pages : PageSize s 4096) (locals : Locals) (root : Word) (output : List Line)
    (nothing : pagesOf output = []) :
    (scanRoot P s locals root output).Accounted ∧
      Lists (RootMaps P.arch s.kernel.mem (root / 4096)) (scanRoot P s locals root output).pages 0
        (addressLimit P.arch) := by
  have holds := holds_read (P := P) pages (root / 4096) locals.pml4
  have start : Scan.Accounted
      { pdpt := locals.pdpt, pd := locals.pd, pt := locals.pt, memUsage := 0, output } := by
    simp [Scan.Accounted, Scan.pages, nothing]
  simp only [scanRoot, pages.pagesize]
  generalize pteditReadPhysicalPage P (root / 4096) locals.pml4 s = pml4 at holds ⊢
  cases arch : P.arch with
  | x86_64 =>
      have looped := enumerates_loop Scan.Accounted Scan.pages 256
        (fun _ bound _ accounted =>
          pml4Round_lists_x86_64 arch pages locals holds (by omega) accounted) _ start
      obtain ⟨kept, items, appended, found⟩ := looped
      rw [arch] at found
      refine ⟨kept, ?_⟩
      have limit : addressLimit .x86_64 = 0 + 256 * 2 ^ 39 := by
        simp only [addressLimit]
        omega
      rw [limit, firstLevelEntries, appended]
      simpa [Scan.pages, nothing] using found
  | aarch64 =>
      have looped := enumerates_loop Scan.Accounted Scan.pages 512
        (fun _ bound _ accounted =>
          pml4Round_lists_aarch64 arch pages locals holds (by omega) accounted) _ start
      obtain ⟨kept, items, appended, found⟩ := looped
      rw [arch] at found
      refine ⟨kept, ?_⟩
      have limit : addressLimit .aarch64 = 0 + 512 * 2 ^ 30 := by
        simp only [addressLimit]
        omega
      rw [limit, firstLevelEntries, appended]
      simpa [Scan.pages, nothing] using found

end Loops

/-! ## What the library finds -/

/-- The page is there for `ptedit_resolve`: a present PTE, or a present large PMD, at a multiple of
its size. -/
def Resolves (P : Platform) (pid : BitVec 32) (s : System) (page : Page) : Prop :=
  ∃ vm s', pteditResolve P page.address pid s = some (vm, s') ∧ page.start % page.size = 0 ∧
    if page.large then
      marks vm.valid .pmd = true ∧ Interface.isPresent P.arch vm.pmd = true ∧
        stopsAtPmd P.arch vm.pmd = true
    else marks vm.valid .pte = true ∧ Interface.isPresent P.arch vm.pte = true

/-- The tables on the walks of the library are where its `pfn` field, which is narrower than
`ptedit_get_pfn` on x86-64, can name them. -/
def NarrowTables (P : Platform) (pid : BitVec 32) (s : System) : Prop :=
  ∀ address vm s', address.toNat < addressLimit P.arch →
    pteditResolve P address pid s = some (vm, s') →
      ∀ level, level ≠ .pte → Interface.isPresent P.arch (vm.word level) = true →
        castPfn P.arch (vm.word level) = pteditGetPfn P.arch (vm.word level)

theorem isPresent_eq (arch : Arch) (entry : Word) :
    isPresent arch entry = Interface.isPresent arch entry := by
  cases arch with
  | x86_64 => rw [isPresent, and_bit_ne_zero entry 0 (by decide), isPresent_x86_64]
  | aarch64 =>
      have field : bitField entry 0 2 = entry &&& 3 := by
        apply BitVec.eq_of_toNat_eq
        rw [toNat_bitField entry 0 2 (by decide), BitVec.toNat_and]
        have mask : (3 : Word).toNat = 2 ^ 2 - 1 := rfl
        rw [mask, Nat.and_two_pow_sub_one_eq_mod, Nat.pow_zero, Nat.div_one]
      simp only [isPresent, Interface.isPresent, castPresent, pagePresent, field]

theorem isNormalPage_eq (arch : Arch) (entry : Word) :
    isNormalPage arch entry = !stopsAtPmd arch entry := by
  cases arch with
  | x86_64 =>
      have bit := and_bit_ne_zero entry 7 (by decide)
      rw [Agreement.stopsAtPmd_x86_64, ← bit, isNormalPage, bne, Bool.not_not]
  | aarch64 => rfl

section Walks

variable {arch : Arch} {d : PagingDefinition} (mem : Mem) (addr : Word)

theorem indexInt_mul_entrySize {level : Level} (nine : d.entries level = 9) :
    d.indexInt level addr * entrySize =
      BitVec.ofNat 64 (8 * (addr.toNat / 2 ^ d.shift level % 512)) := by
  have value := d.index_toNat level addr (by omega)
  have eight : entrySize.toNat = 8 := rfl
  have entries : 2 ^ 9 = 512 := rfl
  rw [nine, entries] at value
  rw [d.indexInt_eq level addr (by omega)]
  apply BitVec.eq_of_toNat_eq
  rw [BitVec.toNat_mul, value, BitVec.toNat_ofNat, eight, Nat.mul_comm]

theorem walkSlot_read {level : Level} (nine : d.entries level = 9) (parent : Word) :
    physReadPread mem (walkSlot arch d addr level parent) =
      some (tableEntry mem (castPfn arch parent) (addr.toNat / 2 ^ d.shift level % 512)) := by
  rw [walkSlot, indexInt_mul_entrySize addr nine]
  rfl

theorem rootSlot_read {root : Word} (aligned : PageAligned root) (nine : d.entries .pgd = 9) :
    physReadPread mem (root + d.indexInt .pgd addr * entrySize) =
      some (tableEntry mem (root / 4096) (addr.toNat / 2 ^ d.shift .pgd % 512)) := by
  have base : root / 4096 * 4096 = root := by
    unfold PageAligned at aligned
    have page : (4096 : Word).toNat = 4096 := rfl
    apply BitVec.eq_of_toNat_eq
    rw [BitVec.toNat_mul, BitVec.toNat_udiv, page]
    omega
  rw [indexInt_mul_entrySize addr nine, tableEntry, base]
  rfl

/-- The record of the four-level walk, from the tables. -/
theorem walk_x86_64 {root : Word} (good : GoodRoot root) (pid : BitVec 32) :
    let present := Interface.isPresent .x86_64
    let pgd := tableEntry mem (root / 4096) (addr.toNat / 2 ^ 39 % 512)
    let pud := tableEntry mem (castPfn .x86_64 pgd) (addr.toNat / 2 ^ 30 % 512)
    let pmd := tableEntry mem (castPfn .x86_64 pud) (addr.toNat / 2 ^ 21 % 512)
    let pte := tableEntry mem (castPfn .x86_64 pmd) (addr.toNat / 2 ^ 12 % 512)
    ∃ vm, resolveUserExt .x86_64 .x86_64 (physReadPread mem) addr root pid = some vm ∧
      (present pgd = true → vm.word .pgd = pgd ∧ vm.word .pud = pud ∧
        (present pud = true → vm.word .pmd = pmd ∧
          (present pmd = true → stopsAtPmd .x86_64 pmd = false → vm.word .pte = pte))) ∧
      marks vm.valid .pmd = (present pgd && present pud) ∧
      marks vm.valid .pte =
        (present pgd && present pud && present pmd && !stopsAtPmd .x86_64 pmd) := by
  intro present pgd pud pmd pte
  have root' := root_and_not_one good.aligned
  have readPgd : physReadPread mem (root + PagingDefinition.x86_64.indexInt .pgd addr * entrySize) =
      some pgd := rootSlot_read mem addr good.aligned rfl
  have readPud : physReadPread mem (walkSlot .x86_64 .x86_64 addr .pud pgd) = some pud :=
    walkSlot_read mem addr rfl pgd
  have readPmd : physReadPread mem (walkSlot .x86_64 .x86_64 addr .pmd pud) = some pmd :=
    walkSlot_read mem addr rfl pud
  have readPte : physReadPread mem (walkSlot .x86_64 .x86_64 addr .pte pmd) = some pte :=
    walkSlot_read mem addr rfl pmd
  simp only [resolveUserExt, root', good.nonzero, if_false, readPgd, Option.bind_some]
  cases pgdPresent : Interface.isPresent .x86_64 pgd with
  | false => simp [present, pgdPresent]
  | true =>
      cases pudPresent : Interface.isPresent .x86_64 pud with
      | false => simp [walkLevel, readPud, present, pgdPresent, pudPresent]
      | true =>
          cases pmdPresent : Interface.isPresent .x86_64 pmd with
          | false => simp [walkLevel, readPud, readPmd, present, pgdPresent, pudPresent, pmdPresent]
          | true =>
              cases large : stopsAtPmd .x86_64 pmd with
              | true =>
                  simp [walkLevel, walkPt, readPud, readPmd, present, pgdPresent, pudPresent,
                    pmdPresent, large]
              | false =>
                  simp [walkLevel, walkPt, readPud, readPmd, readPte, present, pgdPresent,
                    pudPresent, pmdPresent, large]

/-- The record of the three-level walk, from the tables. -/
theorem walk_aarch64 {root : Word} (good : GoodRoot root) (pid : BitVec 32) :
    let present := Interface.isPresent .aarch64
    let pgd := tableEntry mem (root / 4096) (addr.toNat / 2 ^ 30 % 512)
    let pmd := tableEntry mem (castPfn .aarch64 pgd) (addr.toNat / 2 ^ 21 % 512)
    let pte := tableEntry mem (castPfn .aarch64 pmd) (addr.toNat / 2 ^ 12 % 512)
    ∃ vm, resolveUserExt .aarch64 .aarch64Pages4k (physReadPread mem) addr root pid = some vm ∧
      (present pgd = true → vm.word .pgd = pgd ∧ vm.word .pmd = pmd ∧
        (present pmd = true → vm.word .pte = pte)) ∧
      marks vm.valid .pte = (present pgd && present pmd) := by
  intro present pgd pmd pte
  have root' := root_and_not_one good.aligned
  have readPgd : physReadPread mem
      (root + PagingDefinition.aarch64Pages4k.indexInt .pgd addr * entrySize) = some pgd :=
    rootSlot_read mem addr good.aligned rfl
  have readPmd : physReadPread mem (walkSlot .aarch64 .aarch64Pages4k addr .pmd pgd) = some pmd :=
    walkSlot_read mem addr rfl pgd
  have readPte : physReadPread mem (walkSlot .aarch64 .aarch64Pages4k addr .pte pmd) = some pte :=
    walkSlot_read mem addr rfl pmd
  have levels : PagingDefinition.aarch64Pages4k.has .p4d = false ∧
      PagingDefinition.aarch64Pages4k.has .pud = false ∧
      PagingDefinition.aarch64Pages4k.has .pmd = true := ⟨rfl, rfl, rfl⟩
  have never : stopsAtPmd .aarch64 pmd = false := rfl
  simp only [resolveUserExt, root', good.nonzero, if_false, readPgd, Option.bind_some]
  cases pgdPresent : Interface.isPresent .aarch64 pgd with
  | false => simp [present, pgdPresent]
  | true =>
      cases pmdPresent : Interface.isPresent .aarch64 pmd with
      | false => simp [walkLevel, levels, readPmd, present, pgdPresent, pmdPresent]
      | true =>
          simp [walkLevel, walkPt, never, levels, readPmd, readPte, present, pgdPresent, pmdPresent]

end Walks

section Agree

variable {P : Platform} {s : System} {pid : BitVec 32}

/-- `Resolves`, for the record that a resolve returns. -/
theorem resolves_iff {vm : Entry} {s' : System} {page : Page}
    (resolved : pteditResolve P page.address pid s = some (vm, s')) :
    Resolves P pid s page ↔ page.start % page.size = 0 ∧
      if page.large then
        marks vm.valid .pmd = true ∧ Interface.isPresent P.arch (vm.word .pmd) = true ∧
          stopsAtPmd P.arch (vm.word .pmd) = true
      else marks vm.valid .pte = true ∧ Interface.isPresent P.arch (vm.word .pte) = true := by
  constructor
  · rintro ⟨vm', s'', resolved', found⟩
    rw [resolved] at resolved'
    obtain ⟨rfl, rfl⟩ := Prod.mk.inj (Option.some.inj resolved')
    exact found
  · intro found
    exact ⟨vm, s', resolved, found⟩

theorem resolve_user {root : Word} (user : s.lib.resolve = some .user)
    (rooted : (walkRoot P pid s).1 = root) {address : Word} {vm : Entry}
    (walked : resolveUserExt P.arch s.lib.pagingDefinition (physReadPread s.kernel.mem) address root
      pid = some vm) :
    pteditResolve P address pid s = some (vm, (walkRoot P pid s).2) := by
  simp only [pteditResolve, user, pteditResolveUser, pteditResolveUserExt, rooted,
    (walkRoot_quiet P pid s).mem_eq, walked, Option.map_some]

/-- What the demo follows is what the library follows, on x86-64. -/
theorem rootMaps_iff_x86_64 {root : Word} (arch : P.arch = .x86_64)
    (definition : s.lib.pagingDefinition = .x86_64) (user : s.lib.resolve = some .user)
    (good : GoodRoot root) (rooted : (walkRoot P pid s).1 = root) (narrow : NarrowTables P pid s)
    {page : Page} (below : page.start < addressLimit P.arch) :
    RootMaps P.arch s.kernel.mem (root / 4096) page ↔ Resolves P pid s page := by
  have walk := walk_x86_64 s.kernel.mem page.address good pid
  simp only at walk
  obtain ⟨vm, walked, words, pmdMark, pteMark⟩ := walk
  have resolved := resolve_user (P := P) (s := s) user rooted (by rw [arch, definition]; exact walked)
  have narrowVm := narrow page.address vm _ below resolved
  rw [resolves_iff resolved]
  simp only [arch] at narrowVm ⊢
  simp only [RootMaps, PdptMaps, PdMaps, PtMaps, isPresent_eq, isNormalPage_eq, Page.start]
  rw [pmdMark, pteMark]
  generalize tableEntry s.kernel.mem (root / 4096) (page.address.toNat / 2 ^ 39 % 512) = pgd
    at words ⊢
  cases pgdPresent : Interface.isPresent .x86_64 pgd with
  | false => simp
  | true =>
      obtain ⟨pgdWord, pudWord, below⟩ := words pgdPresent
      have pgdPfn := narrowVm .pgd (by decide) (by rw [pgdWord, pgdPresent])
      rw [pgdWord] at pgdPfn
      simp only [pgdPfn] at pudWord below ⊢
      generalize tableEntry s.kernel.mem (pteditGetPfn .x86_64 pgd)
        (page.address.toNat / 2 ^ 30 % 512) = pud at pudWord below ⊢
      cases pudPresent : Interface.isPresent .x86_64 pud with
      | false => simp
      | true =>
          obtain ⟨pmdWord, leaf⟩ := below pudPresent
          have pudPfn := narrowVm .pud (by decide) (by rw [pudWord, pudPresent])
          rw [pudWord] at pudPfn
          simp only [pudPfn] at pmdWord leaf ⊢
          generalize tableEntry s.kernel.mem (pteditGetPfn .x86_64 pud)
            (page.address.toNat / 2 ^ 21 % 512) = pmd at pmdWord leaf ⊢
          rw [pmdWord]
          cases pmdPresent : Interface.isPresent .x86_64 pmd with
          | false => simp
          | true =>
              have pmdPfn := narrowVm .pmd (by decide) (by rw [pmdWord, pmdPresent])
              rw [pmdWord] at pmdPfn
              simp only [pmdPfn] at leaf ⊢
              cases large : stopsAtPmd .x86_64 pmd with
              | true =>
                  cases kind : page.large with
                  | false => simp
                  | true => simp [Page.size, kind]
              | false =>
                  rw [leaf pmdPresent large]
                  cases kind : page.large with
                  | false => simp [Page.size, kind]
                  | true => simp

/-- What the demo follows is what the library follows, on aarch64. -/
theorem rootMaps_iff_aarch64 {root : Word} (arch : P.arch = .aarch64)
    (definition : s.lib.pagingDefinition = .aarch64Pages4k) (user : s.lib.resolve = some .user)
    (good : GoodRoot root) (rooted : (walkRoot P pid s).1 = root) (page : Page) :
    RootMaps P.arch s.kernel.mem (root / 4096) page ↔ Resolves P pid s page := by
  have walk := walk_aarch64 s.kernel.mem page.address good pid
  simp only [PfnViews.castPfn_aarch64] at walk
  obtain ⟨vm, walked, words, pteMark⟩ := walk
  have resolved := resolve_user (P := P) (s := s) user rooted (by rw [arch, definition]; exact walked)
  have never : ∀ entry, stopsAtPmd .aarch64 entry = false := fun _ => rfl
  rw [resolves_iff resolved]
  simp only [arch, RootMaps, PdptMaps, PdMaps, PtMaps, isPresent_eq, isNormalPage_eq, never,
    Page.start]
  rw [pteMark]
  generalize tableEntry s.kernel.mem (root / 4096) (page.address.toNat / 2 ^ 30 % 512) = pgd
    at words ⊢
  cases pgdPresent : Interface.isPresent .aarch64 pgd with
  | false => simp
  | true =>
      obtain ⟨-, -, leaf⟩ := words pgdPresent
      generalize tableEntry s.kernel.mem (pteditGetPfn .aarch64 pgd)
        (page.address.toNat / 2 ^ 21 % 512) = pmd at leaf ⊢
      cases pmdPresent : Interface.isPresent .aarch64 pmd with
      | false => simp
      | true =>
          rw [leaf pmdPresent]
          cases kind : page.large with
          | false => simp [Page.size, kind]
          | true => simp

/-- A program that selects `PTEDIT_IMPL_USER_PREAD` right after `ptedit_init`. -/
def preadSystem (P : Platform) (fd umem : Int) (s : System) : System :=
  pteditUseImplementation P 1 false (pteditInit P fd umem 4096 s).2

/-- `ptedit_init` with an open device, on a machine with 4 KiB pages. -/
theorem pteditInit_pages4k {fd umem : Int} (opened : 0 ≤ fd)
    (small : s.kernel.realPageSize = 4096) :
    pteditInit P fd umem 4096 s =
      (0, { s with
        lib :=
          { s.lib with
            fd, umem
            pagesize := 4096
            pagingDefinition := initDefinition P 4096
            resolve := some .kernel
            update := some .kernel } }) := by
  have notLarge : initDefinition P 4096 ≠ .aarch64Pages16k := by
    unfold initDefinition
    cases P.arch with
    | x86_64 => decide
    | aarch64 => decide
  simp only [pteditInit, show ¬ fd < 0 by omega, if_false, pteditUseImplementation, if_true, small,
    notLarge]

theorem preadSystem_spec (pid : BitVec 32) {fd : Int} (umem : Int) (opened : 0 ≤ fd)
    (small : s.kernel.realPageSize = 4096) :
    (preadSystem P fd umem s).kernel.mem = s.kernel.mem ∧
      (preadSystem P fd umem s).lib.resolve = some .user ∧
      (preadSystem P fd umem s).lib.pagingDefinition = initDefinition P 4096 ∧
      (walkRoot P pid (preadSystem P fd umem s)).1 = (pteditGetPagingRoot P pid s).1 := by
  simp only [preadSystem, pteditInit_pages4k opened small, pteditUseImplementation]
  refine ⟨?_, rfl, rfl, ?_⟩
  · exact (getRoot_quiet P s.current _ 0 s.kernel).mem_eq
  · simp only [walkRoot]
    split
    · rename_i zero
      rw [zero]
      rfl
    · exact ioctlGetRoot_steady P (getRoot_quiet P s.current _ 0 s.kernel).steady s.current _ 0

theorem rootMaps_iff {fd : Int} (umem : Int) (opened : 0 ≤ fd) (small : s.kernel.realPageSize = 4096)
    (good : GoodRoot (pteditGetPagingRoot P pid s).1)
    (narrow : P.arch = .x86_64 → NarrowTables P pid (preadSystem P fd umem s)) {page : Page}
    (below : page.start < addressLimit P.arch) :
    RootMaps P.arch s.kernel.mem ((pteditGetPagingRoot P pid s).1 / 4096) page ↔
      Resolves P pid (preadSystem P fd umem s) page := by
  obtain ⟨mem, user, definition, rooted⟩ :=
    preadSystem_spec (P := P) pid umem opened small
  rw [← mem]
  cases arch : P.arch with
  | x86_64 =>
      have four : initDefinition P 4096 = .x86_64 := by
        simp only [initDefinition, arch]
      rw [← arch]
      exact rootMaps_iff_x86_64 arch (definition.trans four) user good rooted (narrow arch) below
  | aarch64 =>
      have three : initDefinition P 4096 = .aarch64Pages4k := by
        simp only [initDefinition, arch]
        rfl
      rw [← arch]
      exact rootMaps_iff_aarch64 arch (definition.trans three) user good rooted page

/-- The run of the demo, once `ptedit_init` found the device. -/
theorem memmap_run {fd : Int} (umem : Int) (opened : 0 ≤ fd) (small : s.kernel.realPageSize = 4096)
    (good : GoodRoot (pteditGetPagingRoot P pid s).1)
    (narrow : P.arch = .x86_64 → NarrowTables P pid (preadSystem P fd umem s)) (locals : Locals) :
    ∃ scan : Scan, scan.Accounted ∧
      Lists (Resolves P pid (preadSystem P fd umem s)) scan.pages 0 (addressLimit P.arch) ∧
      (memmap P s fd umem 4096 pid locals).status = 0 ∧
      (memmap P s fd umem 4096 pid locals).output =
        scan.output ++ [.usedMemory (scan.memUsage / 1024)] := by
  simp only [memmap, pteditInit_pages4k opened small, ne_eq, not_true_eq_false, if_false]
  generalize opened' : ({ s with
    lib :=
      { s.lib with
        fd, umem
        pagesize := 4096
        pagingDefinition := initDefinition P 4096
        resolve := some .kernel
        update := some .kernel } } : System) = s'
  have quiet := pteditGetPagingRoot_quiet P pid s'
  have root : (pteditGetPagingRoot P pid s').1 = (pteditGetPagingRoot P pid s).1 := by
    rw [← opened']
    rfl
  have mem : (pteditGetPagingRoot P pid s').2.kernel.mem = s.kernel.mem := by
    rw [quiet.mem_eq, ← opened']
  have pages : PageSize (pteditGetPagingRoot P pid s').2 4096 := by
    obtain ⟨_, ⟨_, rfl⟩, eq⟩ := quiet
    rw [eq, ← opened']
    exact ⟨rfl, small⟩
  obtain ⟨accounted, lists⟩ := scanRoot_lists (P := P) pages locals
    (pteditGetPagingRoot P pid s').1 [.dumping (pid.signExtend 64)] rfl
  refine ⟨_, accounted, lists.congr ?_, trivial, rfl⟩
  intro page _ below
  rw [mem, root]
  exact rootMaps_iff umem opened small good narrow below

end Agree

section Results

variable {P : Platform} {s : System} {pid : BitVec 32}

/-- **The demo lists the mapped pages.**  What `memmap` prints for a process are the pages of its
lower half that `ptedit_resolve` finds there, each once and in the order of their addresses,
although its loops never ask the library for an address. -/
theorem memmap_lists_resolved_pages {fd : Int} (umem : Int) (opened : 0 ≤ fd)
    (small : s.kernel.realPageSize = 4096) (good : GoodRoot (pteditGetPagingRoot P pid s).1)
    (narrow : P.arch = .x86_64 → NarrowTables P pid (preadSystem P fd umem s)) (locals : Locals) :
    (memmap P s fd umem 4096 pid locals).status = 0 ∧
      Enumerates Page.start Page.size (Resolves P pid (preadSystem P fd umem s))
        (pagesOf (memmap P s fd umem 4096 pid locals).output) 0 (addressLimit P.arch) := by
  obtain ⟨scan, -, lists, status, output⟩ := memmap_run umem opened small good narrow locals
  refine ⟨status, ?_⟩
  have same : pagesOf (memmap P s fd umem 4096 pid locals).output = scan.pages := by
    rw [output, pagesOf_append]
    simp [pagesOf, Scan.pages]
  rw [same]
  exact lists

theorem size_multiple (page : Page) : 1024 ∣ page.size := by
  unfold Page.size
  split
  · exact ⟨2048, by decide⟩
  · exact ⟨4, by decide⟩

theorem castPfn_onePageMem (frame : Frame) (i : Index) :
    castPfn .x86_64 (tables onePageMem frame i) = pteditGetPfn .x86_64 (tables onePageMem frame i) := by
  rw [tables_onePageMem]
  split
  · decide
  split
  · decide
  split
  · decide
  split
  · decide
  · decide

theorem onePage_goodRoot : GoodRoot (pteditGetPagingRoot fourLevelPlatform 0 onePageSystem).1 :=
  ⟨by decide, by decide⟩

theorem onePage_narrowTables :
    NarrowTables fourLevelPlatform 0 (preadSystem fourLevelPlatform 3 4 onePageSystem) := by
  intro address vm s' _ found level upper _
  obtain ⟨mem, user, -, rooted⟩ := preadSystem_spec (P := fourLevelPlatform)
    (s := onePageSystem) 0 4 (show (0 : Int) ≤ 3 by decide) rfl
  have walked := resolveUserExt_x86_64 onePageMem _ address 0 onePage_goodRoot.nonzero
    onePage_goodRoot.aligned
  have expected := resolve_user (P := fourLevelPlatform) user rooted (by rw [mem]; exact walked)
  rw [expected] at found
  obtain ⟨rfl, -⟩ := Prod.mk.inj (Option.some.inj found)
  have zero : castPfn .x86_64 0 = pteditGetPfn .x86_64 0 := by decide
  have entry : ∀ (path : List Index) (i : Index),
      castPfn .x86_64 ((entryAt follow (tables onePageMem) (rootFrame
        (pteditGetPagingRoot fourLevelPlatform 0 onePageSystem).1) path i).getD 0) =
      pteditGetPfn .x86_64 ((entryAt follow (tables onePageMem) (rootFrame
        (pteditGetPagingRoot fourLevelPlatform 0 onePageSystem).1) path i).getD 0) := by
    intro path i
    unfold entryAt
    cases frameAt follow (tables onePageMem) _ path with
    | none => exact zero
    | some frame => exact castPfn_onePageMem frame i
  cases level with
  | pgd =>
      simp only [resolved, Entry.word]
      split
      · exact castPfn_onePageMem _ _
      · exact zero
  | p4d =>
      simp only [resolved, Entry.word]
      split
      · exact castPfn_onePageMem _ _
      · exact zero
  | pud => exact entry _ _
  | pmd => exact entry _ _
  | pte => exact absurd rfl upper

theorem resolves_onePage :
    Resolves fourLevelPlatform 0 (preadSystem fourLevelPlatform 3 4 onePageSystem) ⟨0, false⟩ := by
  have found : (pteditResolve fourLevelPlatform 0 0
      (preadSystem fourLevelPlatform 3 4 onePageSystem)).map Prod.fst =
      some { pid := 0, vaddr := 0, pgd := 0x2007, p4d := 0x2007, pud := 0x3007, pmd := 0x4007,
             pte := 0x5007, valid := 0x1d } := by
    decide +kernel
  obtain ⟨⟨vm, s'⟩, resolves, rfl⟩ := Option.map_eq_some_iff.mp found
  exact ⟨_, s', resolves, by decide, by decide, by decide⟩

/-- The one page of the small machine is listed. -/
theorem memmap_lists_resolved_pages_onePage :
    (⟨0, false⟩ : Page) ∈
      pagesOf (memmap fourLevelPlatform onePageSystem 3 4 4096 0 zeroedLocals).output := by
  have lists := (memmap_lists_resolved_pages 4 (show (0 : Int) ≤ 3 by decide) rfl onePage_goodRoot
    (fun _ => onePage_narrowTables) zeroedLocals).2
  exact (lists.complete _).mpr ⟨resolves_onePage, by decide, by decide⟩

/-- **The last line is the memory that is mapped**: what it says, in KB, is the number of bytes of
the lower half in pages that `ptedit_resolve` finds; nothing is counted twice and the sum does
not overflow. -/
theorem memmap_used_memory {fd : Int} (umem : Int) (opened : 0 ≤ fd)
    (small : s.kernel.realPageSize = 4096) (good : GoodRoot (pteditGetPagingRoot P pid s).1)
    (narrow : P.arch = .x86_64 → NarrowTables P pid (preadSystem P fd umem s)) (locals : Locals) :
    ∃ kb, (memmap P s fd umem 4096 pid locals).output.getLast? = some (.usedMemory kb) ∧
      kb.toNat * 1024 = Set.ncard {x : Nat | ∃ page : Page, page.start < addressLimit P.arch ∧
        Resolves P pid (preadSystem P fd umem s) page ∧
        page.start ≤ x ∧ x < page.start + page.size} := by
  obtain ⟨scan, accounted, lists, -, output⟩ :=
    memmap_run umem opened small good narrow locals
  refine ⟨scan.memUsage / 1024, by rw [output, List.getLast?_concat], ?_⟩
  have set : {x : Nat | ∃ page : Page, page.start < addressLimit P.arch ∧
      Resolves P pid (preadSystem P fd umem s) page ∧
      page.start ≤ x ∧ x < page.start + page.size} =
        covered Page.start Page.size scan.pages 0 (addressLimit P.arch) := by
    ext x
    rw [Set.mem_ofPred_eq, Finset.mem_coe, lists.mem_covered]
    constructor
    · rintro ⟨page, below, resolves, first, last⟩
      exact ⟨page, resolves, Nat.zero_le _, first, last, below⟩
    · rintro ⟨page, resolves, -, first, last, below⟩
      exact ⟨page, below, resolves, first, last⟩
  have noOverflow : (scan.pages.map Page.size).sum < 2 ^ 64 := by
    have bound := lists.sum_le
    have limit : addressLimit P.arch ≤ 2 ^ 47 := by
      cases P.arch <;> simp only [addressLimit] <;> omega
    omega
  have total : scan.memUsage.toNat = (scan.pages.map Page.size).sum := by
    rw [accounted, BitVec.toNat_ofNat, Nat.mod_eq_of_lt noOverflow]
  have divides : 1024 ∣ (scan.pages.map Page.size).sum := by
    apply List.dvd_sum
    intro size member
    obtain ⟨page, -, rfl⟩ := List.mem_map.mp member
    exact size_multiple page
  have kb : (1024 : Word).toNat = 1024 := rfl
  rw [set, Set.ncard_coe_finset, lists.card_covered, BitVec.toNat_udiv, kb, total,
    Nat.div_mul_cancel divides]

theorem tableEntry_eq_tables (mem : Mem) (frame : Frame) {i : Nat} (bound : i < 512) :
    tableEntry mem (frame.setWidth 64) i = tables mem frame (BitVec.ofNat 9 i) := by
  apply congrArg (read64 mem)
  apply BitVec.eq_of_toNat_eq
  have inside := frame.isLt
  rw [slot_toNat]
  have size : (4096 : Word).toNat = 4096 := rfl
  simp only [BitVec.toNat_add, BitVec.toNat_mul, BitVec.toNat_setWidth, BitVec.toNat_ofNat, size]
  omega

/-- Each table of the small machine has its first entry only. -/
theorem first_of_present (frame : Frame) {i : Nat} (bound : i < 512)
    (present : isPresent .x86_64 (tableEntry onePageMem (frame.setWidth 64) i) = true) :
    i = 0 := by
  by_contra other
  have index : (BitVec.ofNat 9 i : Index) ≠ 0 := by
    intro zero
    have value := congrArg BitVec.toNat zero
    rw [BitVec.toNat_ofNat, Nat.mod_eq_of_lt bound] at value
    exact other value
  rw [tableEntry_eq_tables onePageMem frame bound, tables_onePageMem] at present
  simp only [index, and_false, if_false] at present
  exact absurd present (by decide)

/-- The machine with one page maps no other. -/
theorem rootMaps_onePageMem {page : Page} (below : page.start < 2 ^ 47)
    (maps : RootMaps .x86_64 onePageMem 1 page) : page = ⟨0, false⟩ := by
  have modulus : ∀ n, n % 512 < 512 := fun n => Nat.mod_lt n (by decide)
  obtain ⟨pml4, maps⟩ := maps
  have pml4 := first_of_present 1 (modulus _) pml4
  rw [pml4, show pteditGetPfn .x86_64 (tableEntry onePageMem 1 0) = 2 by decide +kernel] at maps
  obtain ⟨pdpt, maps⟩ := maps
  have pdpt := first_of_present 2 (modulus _) pdpt
  rw [pdpt, show pteditGetPfn .x86_64 (tableEntry onePageMem 2 0) = 3 by decide +kernel] at maps
  obtain ⟨pd, maps⟩ := maps
  have pd := first_of_present 3 (modulus _) pd
  rw [pd, if_pos (by decide +kernel),
    show pteditGetPfn .x86_64 (tableEntry onePageMem 3 0) = 4 by decide +kernel] at maps
  obtain ⟨small, aligned, pt⟩ := maps
  have pt := first_of_present 4 (modulus _) pt
  have start : page.start = 0 := by omega
  cases page
  simp only [Page.mk.injEq]
  exact ⟨BitVec.eq_of_toNat_eq start, small⟩

/-- Its one page is the 4 KB of the last line. -/
theorem memmap_used_memory_onePage :
    (memmap fourLevelPlatform onePageSystem 3 4 4096 0 zeroedLocals).output.getLast? =
      some (.usedMemory 4) := by
  have opened : (0 : Int) ≤ 3 := by decide
  obtain ⟨kb, last, count⟩ := memmap_used_memory 4 opened rfl onePage_goodRoot
    (fun _ => onePage_narrowTables) zeroedLocals
  have bytes : {x : Nat | ∃ page : Page, page.start < addressLimit fourLevelPlatform.arch ∧
      Resolves fourLevelPlatform 0 (preadSystem fourLevelPlatform 3 4 onePageSystem) page ∧
      page.start ≤ x ∧ x < page.start + page.size} = Finset.range 4096 := by
    ext x
    rw [Set.mem_ofPred_eq, Finset.coe_range, Set.mem_Iio]
    constructor
    · rintro ⟨page, below, resolves, first, last⟩
      have maps := (rootMaps_iff 4 opened rfl onePage_goodRoot (fun _ => onePage_narrowTables)
        below).mpr resolves
      obtain rfl := rootMaps_onePageMem below maps
      exact last
    · intro inside
      exact ⟨⟨0, false⟩, by decide, resolves_onePage, Nat.zero_le _, inside⟩
  rw [bytes, Set.ncard_coe_finset, Finset.card_range] at count
  have four : kb = 4 := by
    apply BitVec.eq_of_toNat_eq
    rw [show (4 : Word).toNat = 4 from rfl]
    omega
  rw [last, four]

end Results

end PTEditor.Demos.MemoryMap
