/-
# PTEditor.Library.AddressBits -- what the indices of a walk say about the address

A walk cuts the address into an index per level, each where the one below it ends, from
the page offset on; a level of width zero has index 0.  So the indices are the address
bits from the page offset up to the end of the PGD index (`indices_eq_iff`), and an index,
scaled by the entry size, names a word of the level's table and no other
(`slot_inside`, `slots_apart`).
-/
import PTEditor.Library.Slots
import PTEditor.Theory.WordFields

namespace PTEditor.Library.AddressBits

open PTEditor.Theory.ByteMemory PTEditor.Theory.WordFields PTEditor.Interface PTEditor.Module
open PTEditor.Library PTEditor.Library.Slots

set_option autoImplicit false

section Indices

variable {d : PagingDefinition} (regular : Regular d)

include regular

/-- An index is a slice of the address. -/
theorem index_eq_iff (level : Level) (a b : Word) :
    d.index level a = d.index level b ↔
      AgreeOn (d.shift level) (d.shift level + d.entries level) a b := by
  have narrow := regular.narrow level
  exact slice_eq_iff a b (d.shift level) (by omega)

/-- The slices of the levels follow each other, the PTE's first. -/
theorem indices_eq_iff (a b : Word) :
    (∀ level, d.index level a = d.index level b) ↔
      AgreeOn d.pageOffset
        (d.pageOffset + d.ptEntries + d.pmdEntries + d.pudEntries + d.p4dEntries + d.pgdEntries)
        a b := by
  have tile : ∀ level, AgreeOn d.pageOffset (d.shift level + d.entries level) a b ↔
      AgreeOn d.pageOffset (d.shift level) a b ∧
        AgreeOn (d.shift level) (d.shift level + d.entries level) a b := by
    intro level
    exact agreeOn_split (d.pageOffset_le_shift level) (Nat.le_add_right _ _) a b
  have pgd : d.shift .pgd = d.shift .p4d + d.entries .p4d := rfl
  have p4d : d.shift .p4d = d.shift .pud + d.entries .pud := rfl
  have pud : d.shift .pud = d.shift .pmd + d.entries .pmd := rfl
  have pmd : d.shift .pmd = d.shift .pte + d.entries .pte := rfl
  have whole : AgreeOn d.pageOffset (d.shift .pgd + d.entries .pgd) a b ↔
      ((((AgreeOn (d.shift .pte) (d.shift .pte + d.entries .pte) a b ∧
        AgreeOn (d.shift .pmd) (d.shift .pmd + d.entries .pmd) a b) ∧
        AgreeOn (d.shift .pud) (d.shift .pud + d.entries .pud) a b) ∧
        AgreeOn (d.shift .p4d) (d.shift .p4d + d.entries .p4d) a b) ∧
        AgreeOn (d.shift .pgd) (d.shift .pgd + d.entries .pgd) a b) := by
    rw [tile .pgd, pgd, tile .p4d, p4d, tile .pud, pud, tile .pmd, pmd]
    rfl
  simp only [index_eq_iff regular]
  refine Iff.trans ?_ whole.symm
  constructor
  · intro agree
    exact ⟨⟨⟨⟨agree .pte, agree .pmd⟩, agree .pud⟩, agree .p4d⟩, agree .pgd⟩
  · rintro ⟨⟨⟨⟨pte, pmd⟩, pud⟩, p4d⟩, pgd⟩ level
    cases level with
    | pgd => exact pgd
    | p4d => exact p4d
    | pud => exact pud
    | pmd => exact pmd
    | pte => exact pte

/-- An index is an entry of its table, and the table is small. -/
theorem index_inside (level : Level) (a : Word) :
    (d.index level a).toNat < 2 ^ d.entries level ∧ 2 ^ d.entries level ≤ 2 ^ 31 := by
  have narrow := regular.narrow level
  refine ⟨d.index_lt level a (by omega), ?_⟩
  exact Nat.pow_le_pow_right (by decide) (by omega)

/-- The offset of an entry in its table, without wrapping. -/
theorem offset_toNat (level : Level) (a : Word) :
    (d.index level a * entrySize).toNat = 8 * (d.index level a).toNat := by
  have inside := index_inside regular level a
  rw [entrySize, BitVec.toNat_mul, BitVec.toNat_ofNat]
  omega

theorem offset_lt (level : Level) (a : Word) :
    (d.index level a * entrySize).toNat < 8 * 2 ^ d.entries level := by
  have inside := index_inside regular level a
  rw [offset_toNat regular level a]
  omega

/-- Every byte of an entry lies in the table. -/
theorem slot_inside (level : Level) (a table x : Word)
    (near : x - (table + d.index level a * entrySize) < 8#64) :
    (x - table).toNat < 8 * 2 ^ d.entries level := by
  have inside := index_inside regular level a
  have offset := offset_toNat regular level a
  generalize d.index level a * entrySize = o at near offset
  have split : (x - table).toNat = (x - (table + o)).toNat + o.toNat := by bv_omega
  have byte : (x - (table + o)).toNat < 8 := by bv_omega
  omega

/-- Different entries of a table are different words. -/
theorem slots_apart (level : Level) (a b table : Word)
    (different : d.index level a ≠ d.index level b) :
    Apart (table + d.index level a * entrySize) (table + d.index level b * entrySize) := by
  have insideA := index_inside regular level a
  have insideB := index_inside regular level b
  have offsetA := offset_toNat regular level a
  have offsetB := offset_toNat regular level b
  have ne : (d.index level a).toNat ≠ (d.index level b).toNat := fun same =>
    different (BitVec.eq_of_toNat_eq same)
  generalize d.index level a * entrySize = oa at offsetA
  generalize d.index level b * entrySize = ob at offsetB
  constructor
  · bv_omega
  · bv_omega

end Indices

/-- The index arithmetic of a definition takes the address apart.  The indices of the walk
are the address bits of all levels; those of the update are the same; and scaled by the
entry size they stay in the level's table, different ones in different words. -/
structure Decomposes (d : PagingDefinition) : Prop where
  indices : ∀ a b, (∀ level, d.indexInt level a = d.indexInt level b) ↔
    AgreeOn d.pageOffset
      (d.pageOffset + (d.pgdEntries + d.p4dEntries + d.pudEntries + d.pmdEntries + d.ptEntries)) a b
  integers : ∀ level a, d.indexInt level a = d.index level a
  bounded : ∀ level a, (d.indexInt level a * entrySize).toNat < 8 * 2 ^ d.entries level
  apart : ∀ level a b table, d.indexInt level a ≠ d.indexInt level b →
    Apart (table + d.indexInt level a * entrySize) (table + d.indexInt level b * entrySize)
  inside : ∀ level a table x, x - (table + d.indexInt level a * entrySize) < 8#64 →
    (x - table).toNat < 8 * 2 ^ d.entries level

/-- **The indices decompose the address**, in every definition `ptedit_init` installs. -/
theorem initDefinition_decomposes (P : Platform) (realPageSize : Word) :
    Decomposes (initDefinition P realPageSize) := by
  have regular := initDefinition_regular P realPageSize
  generalize initDefinition P realPageSize = d at regular ⊢
  have integers : ∀ level a, d.indexInt level a = d.index level a := fun level a =>
    d.indexInt_eq level a (regular.narrow level)
  have width : d.pageOffset +
        (d.pgdEntries + d.p4dEntries + d.pudEntries + d.pmdEntries + d.ptEntries) =
      d.pageOffset + d.ptEntries + d.pmdEntries + d.pudEntries + d.p4dEntries + d.pgdEntries := by
    omega
  refine ⟨?_, integers, ?_, ?_, ?_⟩
  · intro a b
    simp only [integers, width]
    exact indices_eq_iff regular a b
  · intro level a
    rw [integers]
    exact offset_lt regular level a
  · intro level a b table different
    rw [integers, integers] at *
    exact slots_apart regular level a b table different
  · intro level a table x byte
    rw [integers] at byte
    exact slot_inside regular level a table x byte

end PTEditor.Library.AddressBits
