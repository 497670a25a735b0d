/-
# PTEditor.Theory.RadixTree -- radix tables in a flat store, and edits of their leaves

A radix tree kept in a flat store of tables: a table is a frame, a slot of it
is a frame and an index, and the entry in a slot either names the next table
(`follow`, which may depend on the depth) or ends the walk.  Nothing forces such
a store to be a tree: two prefixes may reach one frame, and a frame may be
reached at two depths.  `TreeShaped` is the hypothesis that they do not.

Under it, writing a slot of a table at the last depth (`editStep`) is invisible
to every walk but the one that ends in that slot: no frame moves
(`frameAt_editStep`), no inner entry changes (`entryAt_editStep_inner`), and the
leaf entries change as a plain map from (prefix, index) to entries does
(`entryAt_editStep_leaf`).  `editRun_refines` is the same for runs of any
length; tree shape is the invariant that carries it.
-/
import Mathlib.Data.List.Induction

namespace PTEditor.Theory.RadixTree

set_option autoImplicit false

variable {Frame Index Entry : Type}

abbrev Tables (Frame Index Entry : Type) := Frame → Index → Entry

section Walk

variable (follow : Nat → Entry → Option Frame) (tables : Tables Frame Index Entry)

/-- The table reached from `frame`, itself at depth `depth`, along a prefix. -/
def descend : Nat → Frame → List Index → Option Frame
  | _, frame, [] => some frame
  | depth, frame, i :: path =>
      (follow depth (tables frame i)).bind fun next => descend (depth + 1) next path

def frameAt (root : Frame) (path : List Index) : Option Frame :=
  descend follow tables 0 root path

def entryAt (root : Frame) (path : List Index) (i : Index) : Option Entry :=
  (frameAt follow tables root path).map fun frame => tables frame i

/-- Up to `depth`, the tables reached along two different prefixes differ. -/
def TreeShaped (root : Frame) (depth : Nat) : Prop :=
  ∀ (p q : List Index) (frame : Frame), p.length ≤ depth → q.length ≤ depth →
    frameAt follow tables root p = some frame → frameAt follow tables root q = some frame → p = q

theorem descend_snoc (depth : Nat) (frame : Frame) (path : List Index) (i : Index) :
    descend follow tables depth frame (path ++ [i]) =
      (descend follow tables depth frame path).bind fun last =>
        follow (depth + path.length) (tables last i) := by
  induction path generalizing depth frame with
  | nil => simp [descend]
  | cons j path ih =>
      simp only [List.cons_append, descend, List.length_cons]
      cases follow depth (tables frame j) with
      | none => rfl
      | some next =>
          simp only [Option.bind_some]
          rw [ih (depth + 1) next, Nat.add_right_comm, Nat.add_assoc depth]

@[simp] theorem frameAt_nil (root : Frame) : frameAt follow tables root [] = some root := rfl

/-- One more index: read the slot, then follow it. -/
theorem frameAt_snoc (root : Frame) (path : List Index) (i : Index) :
    frameAt follow tables root (path ++ [i]) =
      (entryAt follow tables root path i).bind (follow path.length) := by
  unfold frameAt entryAt
  rw [descend_snoc, Nat.zero_add, Option.bind_map]
  rfl

/-! ### Stores that share the reached tables -/

variable {follow tables} {tables' : Tables Frame Index Entry} {root : Frame} {depth : Nat}

/-- Every table reached up to `depth` is the same in both stores. -/
def SameTables (follow : Nat → Entry → Option Frame) (tables tables' : Tables Frame Index Entry)
    (root : Frame) (depth : Nat) : Prop :=
  ∀ (path : List Index) (frame : Frame), path.length ≤ depth →
    frameAt follow tables root path = some frame → tables' frame = tables frame

/-- Then the same tables are reached. -/
theorem frameAt_sameTables (same : SameTables follow tables tables' root depth) (path : List Index)
    (bound : path.length ≤ depth) :
    frameAt follow tables' root path = frameAt follow tables root path := by
  induction path using List.reverseRecOn with
  | nil => rfl
  | append_singleton path i ih =>
      have shorter : path.length < depth := by
        simp only [List.length_append, List.length_singleton] at bound
        omega
      rw [frameAt_snoc, frameAt_snoc]
      unfold entryAt
      rw [ih (by omega)]
      cases reached : frameAt follow tables root path with
      | none => rfl
      | some frame => simp only [Option.map_some, same path frame (by omega) reached]

theorem entryAt_sameTables (same : SameTables follow tables tables' root depth) (path : List Index)
    (bound : path.length ≤ depth) (i : Index) :
    entryAt follow tables' root path i = entryAt follow tables root path i := by
  unfold entryAt
  rw [frameAt_sameTables same path bound]
  cases reached : frameAt follow tables root path with
  | none => rfl
  | some frame => simp only [Option.map_some, same path frame bound reached]

theorem treeShaped_sameTables (same : SameTables follow tables tables' root depth)
    (shaped : TreeShaped follow tables root depth) : TreeShaped follow tables' root depth := by
  intro p q frame hp hq atP atQ
  rw [frameAt_sameTables same p hp] at atP
  rw [frameAt_sameTables same q hq] at atQ
  exact shaped p q frame hp hq atP atQ

end Walk

section Edit

variable [DecidableEq Frame] [DecidableEq Index]

def store (tables : Tables Frame Index Entry) (frame : Frame) (i : Index) (entry : Entry) :
    Tables Frame Index Entry := fun g j =>
  if g = frame ∧ j = i then entry else tables g j

/-- An edit of the leaf slot at the end of a prefix. -/
structure Edit (Index Entry : Type) where
  path : List Index
  index : Index
  change : Entry → Entry

variable (follow : Nat → Entry → Option Frame)

/-- Walk to the edit's table in the present store and change the slot there; a
prefix that reaches no table leaves the store alone. -/
def editStep (root : Frame) (tables : Tables Frame Index Entry) (edit : Edit Index Entry) :
    Tables Frame Index Entry :=
  match frameAt follow tables root edit.path with
  | none => tables
  | some frame => store tables frame edit.index (edit.change (tables frame edit.index))

def editRun (root : Frame) (tables : Tables Frame Index Entry) (edits : List (Edit Index Entry)) :
    Tables Frame Index Entry :=
  edits.foldl (editStep follow root) tables

/-- The abstract meaning of an edit list at one page: the edits that name the
page, in order, as one function on its entry. -/
def changesAt (path : List Index) (i : Index) : List (Edit Index Entry) → Entry → Entry
  | [], entry => entry
  | edit :: rest, entry =>
      changesAt path i rest
        (if edit.path = path ∧ edit.index = i then edit.change entry else entry)

variable {follow} {tables : Tables Frame Index Entry} {root : Frame} {depth : Nat}

theorem store_other_frame {frame g : Frame} (i j : Index) (entry : Entry) (ne : g ≠ frame) :
    store tables frame i entry g j = tables g j :=
  if_neg fun same => ne same.1

/-- A frame reached at the last depth is reached by no shorter prefix, so
rewriting one of its slots moves no frame. -/
theorem frameAt_store (shaped : TreeShaped follow tables root depth) {leaf : List Index}
    {frame : Frame} (atLeaf : leaf.length = depth)
    (reached : frameAt follow tables root leaf = some frame) (i : Index) (entry : Entry)
    (path : List Index) (bound : path.length ≤ depth) :
    frameAt follow (store tables frame i entry) root path = frameAt follow tables root path := by
  induction path using List.reverseRecOn with
  | nil => rfl
  | append_singleton path j ih =>
      have shorter : path.length < depth := by
        simp only [List.length_append, List.length_singleton] at bound
        omega
      rw [frameAt_snoc, frameAt_snoc]
      unfold entryAt
      rw [ih (by omega)]
      cases inner : frameAt follow tables root path with
      | none => rfl
      | some g =>
          have ne : g ≠ frame := by
            rintro rfl
            have same := shaped path leaf g (by omega) (by omega) inner reached
            rw [same] at shorter
            omega
          simp only [Option.map_some, store_other_frame i j entry ne]

theorem frameAt_editStep (shaped : TreeShaped follow tables root depth) (edit : Edit Index Entry)
    (atLeaf : edit.path.length = depth) (path : List Index) (bound : path.length ≤ depth) :
    frameAt follow (editStep follow root tables edit) root path =
      frameAt follow tables root path := by
  unfold editStep
  cases reached : frameAt follow tables root edit.path with
  | none => rfl
  | some frame => exact frameAt_store shaped atLeaf reached _ _ path bound

theorem treeShaped_editStep (shaped : TreeShaped follow tables root depth)
    (edit : Edit Index Entry) (atLeaf : edit.path.length = depth) :
    TreeShaped follow (editStep follow root tables edit) root depth := by
  intro p q frame hp hq atP atQ
  rw [frameAt_editStep shaped edit atLeaf p hp] at atP
  rw [frameAt_editStep shaped edit atLeaf q hq] at atQ
  exact shaped p q frame hp hq atP atQ

/-- Entries above the leaves never change. -/
theorem entryAt_editStep_inner (shaped : TreeShaped follow tables root depth)
    (edit : Edit Index Entry) (atLeaf : edit.path.length = depth) (path : List Index)
    (bound : path.length < depth) (i : Index) :
    entryAt follow (editStep follow root tables edit) root path i =
      entryAt follow tables root path i := by
  unfold entryAt
  rw [frameAt_editStep shaped edit atLeaf path (by omega)]
  unfold editStep
  cases reached : frameAt follow tables root edit.path with
  | none => rfl
  | some frame =>
      cases inner : frameAt follow tables root path with
      | none => rfl
      | some g =>
          have ne : g ≠ frame := by
            rintro rfl
            have same := shaped path edit.path g (by omega) (by omega) inner reached
            rw [same] at bound
            omega
          simp only [Option.map_some, store_other_frame edit.index i _ ne]

/-- At the leaves an edit is a map update. -/
theorem entryAt_editStep_leaf (shaped : TreeShaped follow tables root depth)
    (edit : Edit Index Entry) (atLeaf : edit.path.length = depth) (path : List Index)
    (leaf : path.length = depth) (i : Index) :
    entryAt follow (editStep follow root tables edit) root path i =
      (entryAt follow tables root path i).map fun entry =>
        if edit.path = path ∧ edit.index = i then edit.change entry else entry := by
  unfold entryAt
  rw [frameAt_editStep shaped edit atLeaf path (by omega)]
  unfold editStep
  cases here : frameAt follow tables root path with
  | none => rfl
  | some g =>
      simp only [Option.map_some]
      cases reached : frameAt follow tables root edit.path with
      | none =>
          have ne : edit.path ≠ path := by
            intro same
            rw [same, here] at reached
            cases reached
          simp only [ne, false_and, if_false]
      | some frame =>
          by_cases samePath : edit.path = path
          · have sameFrame : frame = g := by
              rw [samePath, here] at reached
              exact (Option.some.inj reached).symm
            subst sameFrame
            by_cases sameIndex : edit.index = i
            · simp only [store, samePath, sameIndex, and_self, if_true]
            · simp only [store, sameIndex, Ne.symm sameIndex, and_false, if_false]
          · have ne : g ≠ frame := by
              rintro rfl
              exact samePath (shaped edit.path path g (by omega) (by omega) reached here)
            simp only [store_other_frame edit.index i _ ne, samePath, false_and, if_false]

/-- **Leaf edits refine a map.**  Over a run of any length the store stays tree
shaped, no frame moves, inner entries never change, and each leaf entry is its
initial value under exactly the edits that name it, in order. -/
theorem editRun_refines (shaped : TreeShaped follow tables root depth)
    (edits : List (Edit Index Entry)) (atLeaf : ∀ edit ∈ edits, edit.path.length = depth) :
    TreeShaped follow (editRun follow root tables edits) root depth ∧
      (∀ path, path.length ≤ depth →
        frameAt follow (editRun follow root tables edits) root path =
          frameAt follow tables root path) ∧
      (∀ path i, path.length < depth →
        entryAt follow (editRun follow root tables edits) root path i =
          entryAt follow tables root path i) ∧
      (∀ path i, path.length = depth →
        entryAt follow (editRun follow root tables edits) root path i =
          (entryAt follow tables root path i).map (changesAt path i edits)) := by
  induction edits generalizing tables with
  | nil =>
      refine ⟨shaped, fun _ _ => rfl, fun _ _ _ => rfl, ?_⟩
      intro path i _
      have identity : changesAt path i ([] : List (Edit Index Entry)) = id := rfl
      rw [identity, Option.map_id]
      rfl
  | cons edit rest ih =>
      have headLeaf := atLeaf edit List.mem_cons_self
      obtain ⟨shape, frames, inner, leaves⟩ :=
        ih (treeShaped_editStep shaped edit headLeaf)
          fun e he => atLeaf e (List.mem_cons_of_mem _ he)
      refine ⟨shape, ?_, ?_, ?_⟩
      · intro path bound
        exact (frames path bound).trans (frameAt_editStep shaped edit headLeaf path bound)
      · intro path i bound
        exact (inner path i bound).trans
          (entryAt_editStep_inner shaped edit headLeaf path bound i)
      · intro path i leaf
        calc entryAt follow (editRun follow root tables (edit :: rest)) root path i
            = (entryAt follow (editStep follow root tables edit) root path i).map
                (changesAt path i rest) := leaves path i leaf
          _ = ((entryAt follow tables root path i).map fun entry =>
                if edit.path = path ∧ edit.index = i then edit.change entry else entry).map
                  (changesAt path i rest) := by
              rw [entryAt_editStep_leaf shaped edit headLeaf path leaf i]
          _ = (entryAt follow tables root path i).map (changesAt path i (edit :: rest)) := by
              rw [Option.map_map]
              rfl

/-- A slot that no edit's walk ends in keeps its entry, in the tree or not. -/
theorem editRun_untouched (shaped : TreeShaped follow tables root depth)
    (edits : List (Edit Index Entry)) (atLeaf : ∀ edit ∈ edits, edit.path.length = depth)
    (g : Frame) (j : Index)
    (untouched : ∀ edit ∈ edits, frameAt follow tables root edit.path = some g → edit.index ≠ j) :
    editRun follow root tables edits g j = tables g j := by
  induction edits generalizing tables with
  | nil => rfl
  | cons edit rest ih =>
      have headLeaf := atLeaf edit List.mem_cons_self
      have restLeaf := fun e (he : e ∈ rest) => atLeaf e (List.mem_cons_of_mem _ he)
      have later := ih (treeShaped_editStep shaped edit headLeaf) restLeaf fun e he reached =>
        untouched e (List.mem_cons_of_mem _ he) <| by
          rwa [frameAt_editStep shaped edit headLeaf e.path (Nat.le_of_eq (restLeaf e he))] at reached
      refine later.trans ?_
      unfold editStep
      cases reached : frameAt follow tables root edit.path with
      | none => rfl
      | some frame =>
          by_cases here : g = frame ∧ j = edit.index
          · obtain ⟨rfl, rfl⟩ := here
            exact absurd rfl (untouched edit List.mem_cons_self reached)
          · exact if_neg here

end Edit

end PTEditor.Theory.RadixTree
