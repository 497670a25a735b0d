/-
# PTEditor.Interface.Layouts -- the bit-field structs of `ptedit.h`

`ptedit_cast(entry, T)` reads an entry through a packed struct of bit fields.  A
`Layout` lists the members of such a struct with their widths, lowest bit first, and
fills the 64 bits of an entry; a member is read from the sum of the widths before
it.  The table types are typedefs of `ptedit_pgd_t`, so an entry has two layouts,
one for tables and one for the PTE, and a third for a PMD that maps a large page.

`castPresent`, `castSize` and `castPfn`, which the walk uses, are these reads
(`castMember_present`, `castMember_size`, `castMember_pfn`).
-/
import PTEditor.Interface.Entry

namespace PTEditor.Interface

open PTEditor.Theory.ByteMemory

set_option autoImplicit false

inductive Member where
  | present
  | writeable
  | userAccess
  | writeThrough
  | cacheDisabled
  | accessed
  | dirty
  | size
  | global
  | pat
  | pfn
  | executionDisabled
  | memoryAttributesIndex
  | nonSecure
  | accessPermissions
  | shareabilityField
  | accessFlag
  | notGlobal
  | contiguous
  | privilegedExecuteNever
  | executeNever
  | pxnTable
  | xnTable
  | apTable
  | nsTable
  | reserved
  | reserved1
  | reserved2
  | ignored1
  | ignored2
  | ignored3
  deriving DecidableEq, Repr

/-- A struct of bit fields that fills an entry. -/
structure Layout where
  members : List (Member × Nat)
  full : members.foldr (fun m rest => m.2 + rest) 0 = 64

/-- The offset and the width of a member. -/
def placeOf : List (Member × Nat) → Member → Option (Nat × Nat)
  | [], _ => none
  | (first, width) :: rest, member =>
      if first = member then some (0, width)
      else (placeOf rest member).map fun place => (width + place.1, place.2)

namespace Layout

/-- A member the struct does not have has no bits. -/
def place (layout : Layout) (member : Member) : Nat × Nat :=
  (placeOf layout.members member).getD (0, 0)

def Covers (layout : Layout) (member : Member) (i : Nat) : Prop :=
  (layout.place member).1 ≤ i ∧ i < (layout.place member).1 + (layout.place member).2

instance (layout : Layout) (member : Member) (i : Nat) : Decidable (layout.Covers member i) :=
  inferInstanceAs (Decidable (_ ∧ _))

def castMember (layout : Layout) (member : Member) (entry : Word) : Word :=
  bitField entry (layout.place member).1 (layout.place member).2

/-- A member shows its own bits only. -/
theorem castMember_congr (layout : Layout) (member : Member) {entry entry' : Word}
    (same : ∀ i, layout.Covers member i → entry'.getLsbD i = entry.getLsbD i) :
    layout.castMember member entry' = layout.castMember member entry := by
  apply BitVec.eq_of_getLsbD_eq
  intro i _
  simp only [castMember, getLsbD_bitField]
  by_cases inside : i < (layout.place member).2
  · rw [same _ ⟨by omega, by omega⟩]
  · simp [inside]

end Layout

/-! ## The structs -/

/-- `ptedit_pgd_t` on x86-64. -/
def pgdX86 : Layout :=
  ⟨[(.present, 1), (.writeable, 1), (.userAccess, 1), (.writeThrough, 1), (.cacheDisabled, 1),
    (.accessed, 1), (.ignored3, 1), (.size, 1), (.ignored2, 4), (.pfn, 28), (.reserved1, 12),
    (.ignored1, 11), (.executionDisabled, 1)], rfl⟩

/-- `ptedit_pmd_large_t` on x86-64. -/
def pmdLargeX86 : Layout :=
  ⟨[(.present, 1), (.writeable, 1), (.userAccess, 1), (.writeThrough, 1), (.cacheDisabled, 1),
    (.accessed, 1), (.dirty, 1), (.size, 1), (.global, 1), (.ignored2, 3), (.pat, 1),
    (.reserved2, 8), (.pfn, 19), (.reserved1, 12), (.ignored1, 11), (.executionDisabled, 1)], rfl⟩

/-- `ptedit_pte_t` on x86-64. -/
def pteX86 : Layout :=
  ⟨[(.present, 1), (.writeable, 1), (.userAccess, 1), (.writeThrough, 1), (.cacheDisabled, 1),
    (.accessed, 1), (.dirty, 1), (.size, 1), (.global, 1), (.ignored2, 3), (.pfn, 28),
    (.reserved1, 12), (.ignored1, 11), (.executionDisabled, 1)], rfl⟩

/-- `ptedit_pgd_t` on aarch64. -/
def pgdAarch64 : Layout :=
  ⟨[(.present, 2), (.ignored1, 10), (.pfn, 36), (.reserved, 4), (.ignored2, 7), (.pxnTable, 1),
    (.xnTable, 1), (.apTable, 2), (.nsTable, 1)], rfl⟩

/-- `ptedit_pte_t` on aarch64. -/
def pteAarch64 : Layout :=
  ⟨[(.present, 2), (.memoryAttributesIndex, 3), (.nonSecure, 1), (.accessPermissions, 2),
    (.shareabilityField, 2), (.accessFlag, 1), (.notGlobal, 1), (.pfn, 36), (.reserved1, 4),
    (.contiguous, 1), (.privilegedExecuteNever, 1), (.executeNever, 1), (.ignored1, 4),
    (.ignored2, 5)], rfl⟩

/-- The struct of an entry of a level: `ptedit_pgd_t` and its typedefs, or
`ptedit_pte_t`. -/
def entryLayout : Arch → Level → Layout
  | .x86_64, .pte => pteX86
  | .x86_64, _ => pgdX86
  | .aarch64, .pte => pteAarch64
  | .aarch64, _ => pgdAarch64

theorem castMember_present (arch : Arch) (level : Level) (entry : Word) :
    (entryLayout arch level).castMember .present entry = castPresent arch entry := by
  cases arch <;> cases level <;> rfl

theorem castMember_size (level : Level) (entry : Word) :
    (entryLayout .x86_64 level).castMember .size entry = castSize entry := by
  cases level <;> rfl

theorem castMember_pfn (arch : Arch) (level : Level) (entry : Word) :
    (entryLayout arch level).castMember .pfn entry = castPfn arch entry := by
  cases arch <;> cases level <;> rfl

end PTEditor.Interface
