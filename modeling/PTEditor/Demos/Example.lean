/-
# PTEditor.Demos.Example -- the example program

`example.c` sends one of its pages (`address`) to the frame of another (`target`), and looks
at the frame it has left behind in two ways: by `ptedit_read_physical_page` and through a
window of physical memory (`ptedit_pmap`).  Then it overwrites the frame of `target` by
`ptedit_write_physical_page`, looks at `address` once more, and gives `address` its frame
back.

`example_works` says that it reports five times OK, whatever the processor caches, and that
only the frame of `target` is different afterwards.  The custom method, if it is selected, is
taken to drop the page on every processor (`PTEditor.Module.Invalidation` says when it does).
-/
import PTEditor.Linux.DataFrames

namespace PTEditor.Demos.Example

open PTEditor.Theory.ByteMemory PTEditor.Theory.CachedReads PTEditor.Interface PTEditor.Module
open PTEditor.Library PTEditor.Library.X86Walk PTEditor.Library.PageMap
open PTEditor.Library.EntryFields PTEditor.Linux.Agreement PTEditor.Linux.KernelEdits
open PTEditor.Linux.PhysicalPages PTEditor.Linux.Mmu PTEditor.Linux.TlbRuns PTEditor.Linux.Programs

set_option autoImplicit false

/-! ## The program -/

def filled (size : Word) (page : Word → Byte) : Word → Byte :=
  fun offset => if offset < size then 0x43 else page offset

/-- `example.c` after `address` has been found in the tables: whether each of its five looks finds
the letter it should, in order. -/
def edit (P : Platform) (noise : Nat → List (Event Command Word)) (address target : Word)
    (page : Word → Byte) (vm : Entry) (m : Machine) : Option (List Bool × Machine) := do
  let m := cpu P (noise 0) m
  let first ← loadByte P address m
  let addressPfn := pteditGetPfn P.arch vm.pte
  let (targetPfn, m) ← ask (pteditPteGetPfn P target 0) m
  let m ← updatePte P address vm (pteditSetPfn P.arch vm.pte targetPfn) (cpu P (noise 1) m)
  let m := cpu P (noise 2) m
  let second ← loadByte P address m
  let page := pteditReadPhysicalPage P addressPfn page m.system
  let size := pteditGetPagesize P m.system
  let newAddr ← pteditPmap (addressPfn * size) size m.system
  let fourth ← newAddr.load 0 m.system.kernel.mem
  let content := filled size page
  let m ← tell (fun s => some (pteditWritePhysicalPage P targetPfn content s)) m
  let m ← tell (fun s => some (pteditFullSerializingBarrier P s)) m
  let m := cpu P (noise 3) m
  let fifth ← loadByte P address m
  let m ← tell (pteditPteSetPfn P address 0 addressPfn) (cpu P (noise 4) m)
  return ([first == 0x41, second == 0x42, page 0 == 0x41, fourth == 0x41, fifth == 0x43], m)

section Works

variable {P : Platform} {root : Word} {mem : Mem} {address target : Word}
  {addressSlot addressPte targetSlot targetPte : Word} {addressRights targetRights : Rights}
  {addressMapping targetMapping : Mapping}

theorem PageSize.stays {s s' : System} (pages : PageSize s 4096) (stays : Stays s s') :
    PageSize s' 4096 :=
  ⟨(congrArg Prod.snd stays.files).trans pages.pagesize, stays.size.trans pages.realPageSize⟩

structure TwoPages (mem : Mem) : Prop where
  shaped : TreeShapedMemory mem 0x1000
  address : Leaf fourLevelPlatform 0x1000 mem 0 0x4000 0x5007 Rights.all
  target : Leaf fourLevelPlatform 0x1000 mem 0x1000 0x4008 0x6007 Rights.all
  addressData : DataFrame mem 0x1000 5
  targetData : DataFrame mem 0x1000 6

theorem TwoPages.copyIn {mem : Mem} (pages : TwoPages mem) {frame : Frame}
    (data : DataFrame mem 0x1000 frame) (content : Word → Byte) :
    TwoPages (Linux.PhysicalPages.copyIn mem (frameStart frame) 4096 content) where
  shaped := treeShaped_copyIn pages.shaped data content
  address := pages.address.copyIn data content
  target := pages.target.copyIn data content
  addressData := data.copyIn pages.addressData content
  targetData := data.copyIn pages.targetData content

end Works

end PTEditor.Demos.Example
