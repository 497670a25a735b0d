/-
# PTEditor.Theory.Enumeration -- nested loops that list intervals in order

A program that runs through a space block by block, each block again by smaller ones, and
lists what it finds.  An item is an interval of numbers, from `start` on and `size` long.
`Enumerates` says that a list is the right answer for a range: the wanted items that start
there and no others, in order, none reaching into the next or out of the range.

* `Enumerates.append`: answers for neighbouring ranges, one after the other, are the answer
  for both;
* `enumerates_loop`: a loop whose rounds answer block after block answers for all of them;
* `Enumerates.card_covered`: the sizes add up to the numbers that are covered.
-/
import Mathlib.Algebra.BigOperators.Group.List.Basic
import Mathlib.Algebra.Ring.Nat
import Mathlib.Order.Interval.Finset.Nat

namespace PTEditor.Theory.Enumeration

set_option autoImplicit false

variable {α : Type} (start size : α → Nat)

/-- The items are the wanted ones that start in the range, in order and apart. -/
structure Enumerates (wanted : α → Prop) (items : List α) (low high : Nat) : Prop where
  ordered : items.Pairwise fun a b => start a + size a ≤ start b
  positive : ∀ a ∈ items, 0 < size a
  inside : ∀ a ∈ items, start a + size a ≤ high
  complete : ∀ a, a ∈ items ↔ wanted a ∧ low ≤ start a ∧ start a < high

variable {start size} {wanted wanted' : α → Prop} {items : List α} {low high : Nat}

theorem Enumerates.low_le (found : Enumerates start size wanted items low high) {a : α}
    (member : a ∈ items) : low ≤ start a :=
  ((found.complete a).mp member).2.1

/-- Only what is wanted in the range matters. -/
theorem Enumerates.congr (found : Enumerates start size wanted items low high)
    (same : ∀ a, low ≤ start a → start a < high → (wanted a ↔ wanted' a)) :
    Enumerates start size wanted' items low high := by
  refine ⟨found.ordered, found.positive, found.inside, ?_⟩
  intro a
  rw [found.complete a]
  constructor
  · rintro ⟨want, above, below⟩
    exact ⟨(same a above below).mp want, above, below⟩
  · rintro ⟨want, above, below⟩
    exact ⟨(same a above below).mpr want, above, below⟩

theorem enumerates_nil (none : ∀ a, low ≤ start a → start a < high → ¬ wanted a) :
    Enumerates start size wanted [] low high := by
  refine ⟨List.Pairwise.nil, by simp, by simp, ?_⟩
  intro a
  constructor
  · intro member
    cases member
  · rintro ⟨want, above, below⟩
    exact absurd want (none a above below)

/-- One item that fills its range. -/
theorem enumerates_singleton {item : α} (fills : 0 < size item)
    (first : low = start item) (last : start item + size item = high)
    (only : ∀ a, low ≤ start a → start a < high → (wanted a ↔ a = item)) :
    Enumerates start size wanted [item] low high := by
  refine ⟨List.pairwise_singleton _ _, ?_, ?_, ?_⟩
  · intro a member
    rw [List.mem_singleton.mp member]
    exact fills
  · intro a member
    rw [List.mem_singleton.mp member]
    omega
  · intro a
    rw [List.mem_singleton]
    constructor
    · rintro rfl
      have above : low ≤ start a := by omega
      have below : start a < high := by omega
      exact ⟨(only a above below).mpr rfl, above, below⟩
    · rintro ⟨want, above, below⟩
      exact (only a above below).mp want

/-- Answers for neighbouring ranges, one after the other. -/
theorem Enumerates.append {middle : Nat} {more : List α}
    (first : Enumerates start size wanted items low middle)
    (second : Enumerates start size wanted more middle high) (below : low ≤ middle)
    (above : middle ≤ high) : Enumerates start size wanted (items ++ more) low high := by
  refine ⟨?_, ?_, ?_, ?_⟩
  · refine List.pairwise_append.mpr ⟨first.ordered, second.ordered, ?_⟩
    intro a aFirst b bSecond
    exact le_trans (first.inside a aFirst) (second.low_le bSecond)
  · intro a member
    rcases List.mem_append.mp member with here | there
    · exact first.positive a here
    · exact second.positive a there
  · intro a member
    rcases List.mem_append.mp member with here | there
    · exact le_trans (first.inside a here) above
    · exact second.inside a there
  · intro a
    rw [List.mem_append, first.complete a, second.complete a]
    constructor
    · rintro (⟨want, after, before⟩ | ⟨want, after, before⟩)
      · exact ⟨want, after, by omega⟩
      · exact ⟨want, by omega, before⟩
    · rintro ⟨want, after, before⟩
      by_cases early : start a < middle
      · exact .inl ⟨want, after, early⟩
      · exact .inr ⟨want, by omega, before⟩

/-! ## Loops -/

/-- **A loop over blocks.**  Each round appends the answer for its block to what is found, and
keeps what the later rounds rely on. -/
theorem enumerates_loop {σ : Type} (keeps : σ → Prop) (found : σ → List α) {body : σ → Nat → σ}
    {width : Nat} (count : Nat)
    (each : ∀ i < count, ∀ s, keeps s →
      keeps (body s i) ∧ ∃ items, found (body s i) = found s ++ items ∧
        Enumerates start size wanted items (low + i * width) (low + (i + 1) * width))
    (s : σ) (holds : keeps s) :
    keeps ((List.range count).foldl body s) ∧
      ∃ items, found ((List.range count).foldl body s) = found s ++ items ∧
        Enumerates start size wanted items low (low + count * width) := by
  induction count with
  | zero =>
      refine ⟨holds, [], ?_, ?_⟩
      · simp
      · exact enumerates_nil fun a above below => by omega
  | succ count ih =>
      obtain ⟨kept, items, sofar, found⟩ := ih fun i bound => each i (by omega)
      obtain ⟨kept', more, next, found'⟩ := each count (by omega) _ kept
      rw [List.range_succ, List.foldl_append]
      refine ⟨kept', items ++ more, ?_, ?_⟩
      · rw [List.foldl_cons, List.foldl_nil, next, sofar, List.append_assoc]
      · refine found.append found' (Nat.le_add_right _ _) ?_
        exact Nat.add_le_add_left (Nat.mul_le_mul_right width (Nat.le_succ count)) low

/-! ## Accounting -/

/-- The numbers of a range that lie in one of the items. -/
def covered (start size : α → Nat) (items : List α) (low high : Nat) : Finset Nat :=
  (Finset.Ico low high).filter fun x => ∃ a ∈ items, start a ≤ x ∧ x < start a + size a

theorem card_covered_of_ordered (ordered : items.Pairwise fun a b => start a + size a ≤ start b)
    (above : ∀ a ∈ items, low ≤ start a) (inside : ∀ a ∈ items, start a + size a ≤ high) :
    (covered start size items low high).card = (items.map size).sum := by
  induction items generalizing low with
  | nil => simp [covered]
  | cons a rest ih =>
      obtain ⟨first, restOrdered⟩ := List.pairwise_cons.mp ordered
      have counted : (covered start size rest (start a + size a) high).card =
          (rest.map size).sum :=
        ih restOrdered first fun b member => inside b (List.mem_cons_of_mem _ member)
      have aboveA := above a List.mem_cons_self
      have insideA := inside a List.mem_cons_self
      have split : covered start size (a :: rest) low high =
          Finset.Ico (start a) (start a + size a) ∪
            covered start size rest (start a + size a) high := by
        ext x
        simp only [covered, Finset.mem_filter, Finset.mem_Ico, Finset.mem_union,
          List.exists_mem_cons_iff]
        constructor
        · rintro ⟨⟨_, below⟩, here | ⟨b, member, later⟩⟩
          · exact .inl here
          · have := first b member
            exact .inr ⟨⟨by omega, below⟩, b, member, later⟩
        · rintro (here | ⟨⟨_, below⟩, later⟩)
          · exact ⟨⟨by omega, by omega⟩, .inl here⟩
          · exact ⟨⟨by omega, below⟩, .inr later⟩
      have apart : Disjoint (Finset.Ico (start a) (start a + size a))
          (covered start size rest (start a + size a) high) := by
        rw [Finset.disjoint_left]
        intro x here later
        simp only [covered, Finset.mem_filter, Finset.mem_Ico] at here later
        omega
      rw [split, Finset.card_union_of_disjoint apart, counted, Nat.card_Ico, List.map_cons,
        List.sum_cons, Nat.add_sub_cancel_left]

/-- The sizes of the items add up to what they cover. -/
theorem Enumerates.card_covered (found : Enumerates start size wanted items low high) :
    (covered start size items low high).card = (items.map size).sum :=
  card_covered_of_ordered found.ordered (fun _ member => found.low_le member) found.inside

theorem Enumerates.sum_le (found : Enumerates start size wanted items low high) :
    (items.map size).sum ≤ high - low := by
  rw [← found.card_covered, ← Nat.card_Ico]
  exact Finset.card_le_card (Finset.filter_subset _ _)

/-- What is covered, by what was wanted. -/
theorem Enumerates.mem_covered (found : Enumerates start size wanted items low high) (x : Nat) :
    x ∈ covered start size items low high ↔
      ∃ a, wanted a ∧ low ≤ start a ∧ start a ≤ x ∧ x < start a + size a ∧ start a < high := by
  simp only [covered, Finset.mem_filter, Finset.mem_Ico]
  constructor
  · rintro ⟨_, a, member, first, last⟩
    obtain ⟨want, above, below⟩ := (found.complete a).mp member
    exact ⟨a, want, above, first, last, below⟩
  · rintro ⟨a, want, above, first, last, below⟩
    have member := (found.complete a).mpr ⟨want, above, below⟩
    have := found.inside a member
    exact ⟨⟨by omega, by omega⟩, a, member, first, last⟩

end PTEditor.Theory.Enumeration
