/-
# PTEditor.Linux.DataFrames -- frames that hold no table

The pages of a process lie in frames that no walk reaches.  Such a frame can be written by
anyone, in any way: the walks, their rights and the shape of the tables stay
(`Leaf.copyIn`, `Stage.copyIn`).  And storing PTEs does not touch what is in it
(`Leaf.write_data`).
-/
import PTEditor.Linux.PhysicalPages
import PTEditor.Linux.Programs

namespace PTEditor.Linux.Programs

open PTEditor.Theory.ByteMemory PTEditor.Theory.RadixTree PTEditor.Interface PTEditor.Module
open PTEditor.Library PTEditor.Library.X86Walk PTEditor.Library.PageMap
open PTEditor.Library.EntryFields PTEditor.Linux.Agreement PTEditor.Linux.KernelEdits
open PTEditor.Linux.PhysicalPages PTEditor.Linux.Mmu PTEditor.Linux.TlbRuns

set_option autoImplicit false

def frameStart (frame : Frame) : Word := frame ++ 0#12

/-- No walk from the root reaches the frame. -/
def DataFrame (mem : Mem) (root : Word) (frame : Frame) : Prop :=
  ∀ path : List Index, path.length ≤ 3 →
    frameAt follow (tables mem) (rootFrame root) path ≠ some frame

/-! ## Arithmetic -/

theorem toNat_frameStart (frame : Frame) : (frameStart frame).toNat = frame.toNat * 4096 := by
  rw [frameStart, BitVec.toNat_append, BitVec.toNat_ofNat, Nat.zero_mod, Nat.or_zero,
    Nat.shiftLeft_eq]

/-- The bytes of a frame are those with its number. -/
theorem sub_frameStart_lt_iff (frame : Frame) (x : Word) :
    x - frameStart frame < 4096 ↔ x.toNat / 4096 = frame.toNat := by
  have bound := x.isLt
  have frameBound := frame.isLt
  rw [BitVec.lt_def, BitVec.toNat_sub, toNat_frameStart]
  show _ < 4096 ↔ _
  omega

/-- The bytes of an entry lie in its frame. -/
theorem frame_of_slot {frame : Frame} {i : Index} {x : Word} (inside : x - slot frame i < 8#64) :
    x.toNat / 4096 = frame.toNat := by
  have bound := x.isLt
  have frameBound := frame.isLt
  have indexBound := i.isLt
  rw [BitVec.lt_def, BitVec.toNat_sub, slot_toNat] at inside
  change _ < 8 at inside
  omega

/-- The first byte of a mapped page. -/
theorem physical_start {addr : Word} (user : UserPage addr) (mapping : Mapping) :
    mapping.physical addr = frameStart mapping.frame := by
  have zero : addr.extractLsb' 0 12 = 0#12 := by
    apply BitVec.eq_of_toNat_eq
    rw [BitVec.extractLsb'_toNat, Nat.shiftRight_zero]
    exact user.aligned
  rw [Mapping.physical, zero, frameStart]

/-! ## Frame numbers -/

theorem frame_of_mapped {rights : Rights} {pte : Word} {mapping : Mapping}
    (mapped : mappingOf rights pte = some mapping) : mapping.frame = pointee pte := by
  rw [mappingOf] at mapped
  split at mapped
  · cases mapped
    rfl
  · cases mapped

/-- `ptedit_set_pfn` moves a mapping to another frame, and changes no right. -/
theorem mappingOf_setPfn {rights : Rights} {pte : Word} {mapping : Mapping}
    (mapped : mappingOf rights pte = some mapping) (w : Word) :
    mappingOf rights (pteditSetPfn .x86_64 pte (pteditGetPfn .x86_64 w)) =
      some { mapping with frame := pointee w } := by
  have low : ∀ i, i < 12 →
      (pteditSetPfn .x86_64 pte (pteditGetPfn .x86_64 w)).getLsbD i = pte.getLsbD i := by
    intro i bound
    rw [getLsbD_pteditSetPfn _ _ (by omega), if_neg (by omega), decide_eq_false (by omega),
      Bool.false_and, Bool.or_false]
  have high : (pteditSetPfn .x86_64 pte (pteditGetPfn .x86_64 w)).getLsbD 63 = pte.getLsbD 63 := by
    rw [getLsbD_pteditSetPfn _ _ (by omega), if_neg (by decide), getLsbD_pteditGetPfn]
    simp [pfnWidth]
  have frame : pointee (pteditSetPfn .x86_64 pte (pteditGetPfn .x86_64 w)) = pointee w := by
    unfold pointee
    refine congrArg _ (BitVec.eq_of_getLsbD_eq fun j bound => ?_)
    rw [BitVec.getLsbD_extractLsb', BitVec.getLsbD_extractLsb',
      getLsbD_pteditSetPfn _ _ (by omega), if_pos ⟨by omega, by simp only [pfnWidth]; omega⟩,
      getLsbD_pteditGetPfn]
    simp only [Nat.add_sub_cancel_left, pfnWidth, bound, decide_true, Bool.true_and]
  have rightsSame : rightsOf (pteditSetPfn .x86_64 pte (pteditGetPfn .x86_64 w)) = rightsOf pte := by
    simp only [rightsOf, low 1 (by decide), low 2 (by decide), high]
  simp only [mappingOf, low 0 (by decide), frame, rightsSame] at mapped ⊢
  cases set : pte.getLsbD 0 with
  | false =>
      rw [set] at mapped
      cases mapped
  | true =>
      rw [set] at mapped
      cases mapped
      rfl

theorem pteditGetPfn_eq_pointee (entry : Word) :
    pteditGetPfn .x86_64 entry = (pointee entry).setWidth 64 := by
  apply BitVec.eq_of_getLsbD_eq
  intro i bound
  rw [getLsbD_pteditGetPfn, pointee, BitVec.getLsbD_setWidth, BitVec.getLsbD_setWidth,
    BitVec.getLsbD_extractLsb']
  show (decide (i < 40) && _) = _
  by_cases inside : i < 40
  · simp [inside, bound, show i < 52 by omega]
  · simp [inside]

/-- The page that the calls copy for the PFN of an entry. -/
theorem getPfn_mul (entry : Word) :
    pteditGetPfn .x86_64 entry * 4096 = frameStart (pointee entry) := by
  have frameBound := (pointee entry).isLt
  have pfn : (pteditGetPfn .x86_64 entry).toNat = (pointee entry).toNat := by
    rw [pteditGetPfn_eq_pointee, BitVec.toNat_setWidth]
    omega
  apply BitVec.eq_of_toNat_eq
  rw [BitVec.toNat_mul, pfn, toNat_frameStart]
  show _ * 4096 % 2 ^ 64 = _
  omega

/-! ## Copies into a frame -/

section Copy

variable {P : Platform} {mem : Mem} {root : Word} {frame : Frame} {content : Word → Byte}

/-- A copy changes the bytes of its frame only. -/
theorem copyIn_outside {x : Word} (outside : x.toNat / 4096 ≠ frame.toNat) :
    copyIn mem (frameStart frame) 4096 content x = mem x :=
  if_neg fun inside => outside ((sub_frameStart_lt_iff frame x).mp inside)

theorem sameTables_copyIn (data : DataFrame mem root frame) (content : Word → Byte) :
    SameTables follow (tables mem) (tables (copyIn mem (frameStart frame) 4096 content))
      (rootFrame root) 3 := by
  intro path g bound reached
  have other : g ≠ frame := by
    rintro rfl
    exact data path bound reached
  funext i
  apply read64_congr
  intro x inside
  apply copyIn_outside
  rw [frame_of_slot inside]
  exact fun same => other (BitVec.eq_of_toNat_eq same)

theorem treeShaped_copyIn (shaped : TreeShapedMemory mem root) (data : DataFrame mem root frame)
    (content : Word → Byte) :
    TreeShapedMemory (copyIn mem (frameStart frame) 4096 content) root :=
  treeShaped_sameTables (sameTables_copyIn data content) shaped

/-- The frames without tables are the same. -/
theorem DataFrame.copyIn (data : DataFrame mem root frame) {other : Frame}
    (otherData : DataFrame mem root other) (content : Word → Byte) :
    DataFrame (copyIn mem (frameStart frame) 4096 content) root other := by
  intro path bound
  rw [frameAt_sameTables (sameTables_copyIn data content) path bound]
  exact otherData path bound

variable {addr slot pte : Word} {rights : Rights}

/-- **A copy into a frame without tables leaves every PTE as it is.** -/
theorem Leaf.copyIn (leaf : Leaf P root mem addr slot pte rights) (data : DataFrame mem root frame)
    (content : Word → Byte) :
    Leaf P root (copyIn mem (frameStart frame) 4096 content) addr slot pte rights := by
  have same := sameTables_copyIn data content
  have inner : ∀ path i, path.length < 3 →
      entryAt follow (tables (PhysicalPages.copyIn mem (frameStart frame) 4096 content))
        (rootFrame root) path i = entryAt follow (tables mem) (rootFrame root) path i :=
    fun path i bound => entryAt_sameTables same path (Nat.le_of_lt bound) i
  obtain ⟨table, reached, here⟩ := Option.map_eq_some_iff.mp leaf.ends
  refine ⟨orderlyWalk_of_inner leaf.orderly inner, ?_, ?_, ?_⟩
  · rw [← leaf.ends]
    simp only [PageMap.pteSlot]
    rw [frameAt_sameTables same (addressPath addr) (Nat.le_refl 3)]
  · rw [← leaf.holds, ← here]
    exact congrFun (same (addressPath addr) table (Nat.le_refl 3) reached) (addressIndex .pte addr)
  · rw [upperRights_of_inner leaf.orderly inner (by rw [leaf.leafAt]; rfl)]
    exact leaf.grants

theorem DataFrame.write (data : DataFrame mem root frame)
    (leaf : Leaf P root mem addr slot pte rights) (shaped : TreeShapedMemory mem root)
    (value : Word) : DataFrame (write64 mem slot value) root frame := by
  intro path bound
  rw [leaf.tables_write value, frameAt_editStep shaped _ rfl path bound]
  exact data path bound

end Copy

/-! ## What the program does with frames -/

section Steps

variable {P : Platform} {root : Word} {m : Machine} {owner : Mm} {mem : Mem} {frame : Frame}

/-- A page is read through its frame number. -/
theorem Stage.readPhysicalPage (arch : P.arch = .x86_64) (stage : Stage P owner root mem m)
    (pages : PageSize m.system 4096) (entry : Word) (buffer : Word → Byte) {i : Word}
    (inside : i < 4096) :
    pteditReadPhysicalPage P (pteditGetPfn P.arch entry) buffer m.system i =
      mem (frameStart (pointee entry) + i) := by
  rw [pteditReadPhysicalPage_eq pages, arch, getPfn_mul, stage.mem, copyOut, if_pos inside]

/-- **A page is overwritten** through its frame number. -/
theorem Stage.writePhysicalPage (arch : P.arch = .x86_64) (stage : Stage P owner root mem m)
    (pages : PageSize m.system 4096) (entry : Word) (data : DataFrame mem root (pointee entry))
    (content : Word → Byte) :
    ∃ m', tell (fun s => some (pteditWritePhysicalPage P (pteditGetPfn P.arch entry) content s)) m =
        some m' ∧
      Stage P owner root (copyIn mem (frameStart (pointee entry)) 4096 content) m' ∧
      Stays m.system m'.system ∧
      ∀ c slot pte rights, UserPage c → Leaf P root mem c slot pte rights →
        Fresh P owner (c >>> 12) m → Fresh P owner (c >>> 12) m' := by
  have shaped : TreeShapedMemory mem root := by
    rw [← stage.mem]
    exact stage.sound.shaped
  have onlyMem : pteditWritePhysicalPage P (pteditGetPfn P.arch entry) content m.system =
      (Programs.setMem (pteditWritePhysicalPage P (pteditGetPfn P.arch entry) content
        m.system).kernel.mem m).system := by
    unfold pteditWritePhysicalPage
    split <;> rfl
  rw [pteditWritePhysicalPage_mem pages, arch, getPfn_mul, stage.mem] at onlyMem
  obtain ⟨stage', stays⟩ := stage.setMem (treeShaped_copyIn shaped data content)
  refine ⟨_, by rw [tell, arch, Option.map_some, onlyMem]; rfl, stage', stays, ?_⟩
  intro c slot pte rights user leaf fresh
  apply stage.fresh_setMem _ fresh
  rw [(leaf.copyIn data content).pageWalk user.canonical, leaf.pageWalk user.canonical]

end Steps

end PTEditor.Linux.Programs
