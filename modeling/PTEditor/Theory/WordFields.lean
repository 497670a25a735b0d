/-
# PTEditor.Theory.WordFields -- fields of a machine word

A field of a word is a set of its bits, contiguous or scattered, together with a
codec for the values they stand for.  Writing a field splices the value's bits into
the word and leaves the others (`splice`); the three laws a field carries say that
it reads its own bits only, that a value survives encoding, and that encoding what
was read gives the bits back.

From these follow the laws of reading and writing one field (`get_put`, `put_get`,
`put_put`, `put_outside`) and of two fields that share no bit (`Apart.get_put`,
`Apart.put_comm`).  A range of bits is a field (`range`), a single bit is one (`bit`),
and two fields that share no bit make one together (`pair`).

Code that only reads a range of bits shifts the word and takes a remainder.  Two words
have the same such slice if they agree on its bits (`slice_eq_iff`), and slices that
follow each other tile a longer one (`agreeOn_split`).
-/
import Mathlib.Algebra.Group.Nat.Defs

namespace PTEditor.Theory.WordFields

set_option autoImplicit false

variable {w : Nat}

/-- The bits of `mask` from `value`, the others from `word`. -/
def splice (mask word value : BitVec w) : BitVec w := (word &&& ~~~mask) ||| (value &&& mask)

theorem getLsbD_splice (mask word value : BitVec w) (i : Nat) :
    (splice mask word value).getLsbD i =
      if mask.getLsbD i then value.getLsbD i else word.getLsbD i := by
  simp only [splice, BitVec.getLsbD_or, BitVec.getLsbD_and, BitVec.getLsbD_not]
  by_cases inside : i < w
  · cases mask.getLsbD i <;> simp [inside]
  · simp [inside, BitVec.getLsbD_of_ge _ _ (Nat.le_of_not_lt inside)]

/-- A field of a `w`-bit word with values in `α`. -/
structure Field (w : Nat) (α : Type) where
  mask : BitVec w
  get : BitVec w → α
  encode : α → BitVec w
  get_congr : ∀ {word word' : BitVec w},
    (∀ i, mask.getLsbD i = true → word'.getLsbD i = word.getLsbD i) → get word' = get word
  get_encode : ∀ value, get (encode value) = value
  encode_get : ∀ word i, mask.getLsbD i = true → (encode (get word)).getLsbD i = word.getLsbD i

namespace Field

variable {α β : Type} (field : Field w α)

def put (word : BitVec w) (value : α) : BitVec w := splice field.mask word (field.encode value)

theorem put_inside (word : BitVec w) (value : α) {i : Nat} (inside : field.mask.getLsbD i = true) :
    (field.put word value).getLsbD i = (field.encode value).getLsbD i := by
  rw [put, getLsbD_splice, if_pos inside]

/-- Writing a field changes no bit outside it. -/
theorem put_outside (word : BitVec w) (value : α) {i : Nat}
    (outside : field.mask.getLsbD i = false) :
    (field.put word value).getLsbD i = word.getLsbD i := by
  rw [put, getLsbD_splice, outside, if_neg Bool.false_ne_true]

theorem get_put (word : BitVec w) (value : α) : field.get (field.put word value) = value := by
  rw [field.get_congr fun i inside => field.put_inside word value inside, field.get_encode]

theorem put_get (word : BitVec w) : field.put word (field.get word) = word := by
  apply BitVec.eq_of_getLsbD_eq
  intro i _
  cases inside : field.mask.getLsbD i with
  | true => rw [field.put_inside _ _ inside, field.encode_get word i inside]
  | false => rw [field.put_outside _ _ inside]

/-- The last write of a field counts. -/
theorem put_put (word : BitVec w) (first second : α) :
    field.put (field.put word first) second = field.put word second := by
  apply BitVec.eq_of_getLsbD_eq
  intro i _
  cases inside : field.mask.getLsbD i with
  | true => rw [field.put_inside _ _ inside, field.put_inside _ _ inside]
  | false =>
      rw [field.put_outside _ _ inside, field.put_outside _ _ inside,
        field.put_outside _ _ inside]

/-- Two fields without a common bit. -/
def Apart (other : Field w β) : Prop :=
  ∀ i, field.mask.getLsbD i = true → other.mask.getLsbD i = false

variable {field} {other : Field w β}

theorem Apart.symm (apart : field.Apart other) : other.Apart field := by
  intro i inside
  cases here : field.mask.getLsbD i with
  | false => rfl
  | true =>
      rw [apart i here] at inside
      cases inside

/-- Writing one of them does not show in the other. -/
theorem Apart.get_put (apart : field.Apart other) (word : BitVec w) (value : β) :
    field.get (other.put word value) = field.get word :=
  field.get_congr fun i inside => other.put_outside word value (apart i inside)

/-- And the two can be written in any order. -/
theorem Apart.put_comm (apart : field.Apart other) (word : BitVec w) (value : α) (value' : β) :
    other.put (field.put word value) value' = field.put (other.put word value') value := by
  apply BitVec.eq_of_getLsbD_eq
  intro i _
  cases inside : field.mask.getLsbD i with
  | true =>
      rw [other.put_outside _ _ (apart i inside), field.put_inside _ _ inside,
        field.put_inside _ _ inside]
  | false =>
      rw [field.put_outside _ _ inside]
      cases there : other.mask.getLsbD i with
      | true => rw [other.put_inside _ _ there, other.put_inside _ _ there]
      | false =>
          rw [other.put_outside _ _ there, other.put_outside _ _ there,
            field.put_outside _ _ inside]

/-! ## Some fields -/

/-- The `width` bits from `offset` on. -/
def range (offset width : Nat) (fits : offset + width ≤ w) : Field w (BitVec width) where
  mask := (BitVec.allOnes width).setWidth w <<< offset
  get word := word.extractLsb' offset width
  encode value := value.setWidth w <<< offset
  get_congr := by
    intro word word' same
    apply BitVec.eq_of_getLsbD_eq
    intro i inside
    have bound : offset + i < w := by omega
    have here := same (offset + i) (by simp [bound, inside])
    simp only [BitVec.getLsbD_extractLsb', inside, decide_true, Bool.true_and, here]
  get_encode := by
    intro value
    apply BitVec.eq_of_getLsbD_eq
    intro i inside
    have bound : offset + i < w := by omega
    simp [inside, bound]
  encode_get := by
    intro word i inside
    simp only [BitVec.getLsbD_shiftLeft, BitVec.getLsbD_setWidth, BitVec.getLsbD_allOnes,
      Bool.and_eq_true, decide_eq_true_eq, Bool.not_eq_true', decide_eq_false_iff_not] at inside
    have position : offset + (i - offset) = i := by omega
    simp [inside, position]

theorem range_mask (offset width : Nat) (fits : offset + width ≤ w) (i : Nat) :
    (range offset width fits).mask.getLsbD i = decide (offset ≤ i ∧ i < offset + width) := by
  simp only [range, BitVec.getLsbD_shiftLeft, BitVec.getLsbD_setWidth, BitVec.getLsbD_allOnes]
  by_cases above : offset ≤ i
  · by_cases below : i < offset + width
    · have inside : i < w := by omega
      have rest : i - offset < width := by omega
      have restInside : i - offset < w := by omega
      simp [above, below, inside, rest, restInside]
    · have rest : ¬ i - offset < width := by omega
      simp [below, rest]
  · simp [above]

def bit (position : Nat) (inside : position < w) : Field w Bool where
  mask := BitVec.twoPow w position
  get word := word.getLsbD position
  encode value := if value then BitVec.twoPow w position else 0
  get_congr := by
    intro word word' same
    exact same position (by simp [inside])
  get_encode := by
    intro value
    cases value <;> simp [inside]
  encode_get := by
    intro word i here
    obtain ⟨-, rfl⟩ : position < w ∧ position = i := by simpa using here
    cases word.getLsbD position <;> simp [inside]

theorem bit_mask {position : Nat} (inside : position < w) (i : Nat) :
    (bit position inside).mask.getLsbD i = decide (i = position) := by
  simp only [bit, BitVec.getLsbD_twoPow]
  by_cases here : i = position
  · simp [here, inside]
  · simp [here, Ne.symm here]

def pair (field : Field w α) (other : Field w β) (apart : field.Apart other) :
    Field w (α × β) where
  mask := field.mask ||| other.mask
  get word := (field.get word, other.get word)
  encode value := field.put (other.put 0 value.2) value.1
  get_congr := by
    intro word word' same
    rw [field.get_congr fun i inside => same i (by simp [inside]),
      other.get_congr fun i inside => same i (by simp [inside])]
  get_encode := by
    rintro ⟨value, value'⟩
    rw [field.get_put, apart.symm.get_put, other.get_put]
  encode_get := by
    intro word i inside
    cases here : field.mask.getLsbD i with
    | true => rw [field.put_inside _ _ here, field.encode_get word i here]
    | false =>
        have there : other.mask.getLsbD i = true := by simpa [here] using inside
        rw [field.put_outside _ _ here, other.put_inside _ _ there, other.encode_get word i there]

theorem pair_mask (apart : field.Apart other) (i : Nat) :
    (pair field other apart).mask.getLsbD i = (field.mask.getLsbD i || other.mask.getLsbD i) := by
  simp [pair]

/-- Writing both is writing one after the other. -/
theorem pair_put (apart : field.Apart other) (word : BitVec w) (value : α × β) :
    (pair field other apart).put word value = field.put (other.put word value.2) value.1 := by
  apply BitVec.eq_of_getLsbD_eq
  intro i _
  rw [put, getLsbD_splice, pair_mask]
  cases here : field.mask.getLsbD i with
  | true =>
      simp only [Bool.true_or, if_true, pair]
      rw [field.put_inside _ _ here, field.put_inside _ _ here]
  | false =>
      rw [field.put_outside _ _ here, Bool.false_or]
      cases there : other.mask.getLsbD i with
      | true =>
          simp only [if_true, pair]
          rw [field.put_outside _ _ here, other.put_inside _ _ there, other.put_inside _ _ there]
      | false =>
          rw [other.put_outside _ _ there]
          simp

end Field

/-! ## Slices -/

/-- The words have the same bits from `low` on, up to but not including `high`. -/
def AgreeOn (low high : Nat) (word word' : BitVec w) : Prop :=
  ∀ i, low ≤ i → i < high → word.getLsbD i = word'.getLsbD i

theorem agreeOn_split {low mid high : Nat} (lower : low ≤ mid) (upper : mid ≤ high)
    (word word' : BitVec w) :
    AgreeOn low high word word' ↔ AgreeOn low mid word word' ∧ AgreeOn mid high word word' := by
  constructor
  · intro agree
    refine ⟨?_, ?_⟩
    · intro i above below
      exact agree i above (by omega)
    · intro i above below
      exact agree i (by omega) below
  · rintro ⟨first, second⟩ i above below
    by_cases here : i < mid
    · exact first i above here
    · exact second i (by omega) below

/-- The modulus of a slice. -/
theorem toNat_one_shiftLeft {width : Nat} (narrow : width < w) :
    (1#w <<< width).toNat = 2 ^ width := by
  rw [← BitVec.twoPow_eq, BitVec.toNat_twoPow]
  exact Nat.mod_eq_of_lt (Nat.pow_lt_pow_right (by decide) narrow)

/-- Shifting and taking the remainder cuts a slice out of a word. -/
theorem getLsbD_slice (word : BitVec w) (offset : Nat) {width : Nat} (narrow : width < w)
    (i : Nat) :
    ((word >>> offset) % (1#w <<< width)).getLsbD i =
      (decide (i < width) && word.getLsbD (offset + i)) := by
  rw [← BitVec.testBit_toNat, BitVec.toNat_umod, toNat_one_shiftLeft narrow,
    Nat.testBit_mod_two_pow, BitVec.testBit_toNat, BitVec.getLsbD_ushiftRight]

theorem slice_eq_iff (word word' : BitVec w) (offset : Nat) {width : Nat} (narrow : width < w) :
    (word >>> offset) % (1#w <<< width) = (word' >>> offset) % (1#w <<< width) ↔
      AgreeOn offset (offset + width) word word' := by
  constructor
  · intro same i above below
    have bit := congrArg (BitVec.getLsbD · (i - offset)) same
    have inside : i - offset < width := by omega
    have back : offset + (i - offset) = i := by omega
    simpa only [getLsbD_slice _ _ narrow, inside, back, decide_true, Bool.true_and] using bit
  · intro agree
    apply BitVec.eq_of_getLsbD_eq
    intro i _
    rw [getLsbD_slice _ _ narrow, getLsbD_slice _ _ narrow]
    by_cases inside : i < width
    · rw [agree (offset + i) (by omega) (by omega)]
    · simp [inside]

end PTEditor.Theory.WordFields
