/-
# PTEditor.Theory.ByteMemory -- byte-addressed memory with 64-bit word access

A memory is a total map from 64-bit byte addresses to bytes.  A word access
touches the eight bytes from its address on, little endian, and the address
arithmetic wraps.  Nothing is assumed about alignment: two accesses interfere
exactly when they share a byte, so the frame rules are stated over `Apart`
(no shared byte), which for aligned addresses is plain inequality
(`apart_of_aligned`).

* `read64_write64_self`, `read64_write64_apart`: a read sees the last write of
  its word and no write apart from it;
* `write64_read64`: writing back what was read is the identity, and
  `storeAll_restore`: in another memory it restores the bytes it writes;
* `storeAll_perm`: stores to pairwise apart words commute, so a list of them
  may be replayed in any order;
* `read64_storeAll_mem`, `read64_storeAll_apart`: what a replayed list leaves in
  its own words and everywhere else.
-/
import Mathlib.Data.List.Pairwise
import Mathlib.Data.List.Perm.Basic
import Mathlib.Tactic.IntervalCases

namespace PTEditor.Theory.ByteMemory

set_option autoImplicit false

abbrev Word := BitVec 64

abbrev Byte := BitVec 8

abbrev Mem := Word → Byte

/-- The little-endian word at `a`. -/
def read64 (m : Mem) (a : Word) : Word :=
  m (a + 7) ++ m (a + 6) ++ m (a + 5) ++ m (a + 4) ++
    m (a + 3) ++ m (a + 2) ++ m (a + 1) ++ m a

/-- Replace the eight bytes from `a` on by the bytes of `v`. -/
def write64 (m : Mem) (a v : Word) : Mem := fun x =>
  if x - a < 8#64 then v.extractLsb' (8 * (x - a).toNat) 8 else m x

/-- The words at `a` and `b` share no byte. -/
def Apart (a b : Word) : Prop := 8#64 ≤ a - b ∧ 8#64 ≤ b - a

instance (a b : Word) : Decidable (Apart a b) :=
  inferInstanceAs (Decidable (_ ∧ _))

def Aligned (a : Word) : Prop := a.toNat % 8 = 0

instance (a : Word) : Decidable (Aligned a) :=
  inferInstanceAs (Decidable (_ = _))

/-! ## Single accesses -/

theorem Apart.symm {a b : Word} (apart : Apart a b) : Apart b a :=
  ⟨apart.2, apart.1⟩

theorem Apart.ne {a b : Word} (apart : Apart a b) : a ≠ b := by
  rintro rfl
  have low := apart.1
  simp at low

theorem apart_of_aligned {a b : Word} (ha : Aligned a) (hb : Aligned b) (ne : a ≠ b) :
    Apart a b := by
  unfold Aligned at ha hb
  unfold Apart
  constructor <;> bv_omega

theorem getLsbD_read64 (m : Mem) (a : Word) (i : Nat) (bound : i < 64) :
    (read64 m a).getLsbD i = (m (a + BitVec.ofNat 64 (i / 8))).getLsbD (i % 8) := by
  unfold read64
  simp only [BitVec.getLsbD_append]
  interval_cases i <;> simp

/-- A word read depends on its own eight bytes only. -/
theorem read64_congr {m m' : Mem} {a : Word} (same : ∀ x, x - a < 8#64 → m' x = m x) :
    read64 m' a = read64 m a := by
  simp only [read64]
  rw [same (a + 7), same (a + 6), same (a + 5), same (a + 4), same (a + 3), same (a + 2),
    same (a + 1), same a] <;> bv_omega

/-- The words of two memories at `a` agree only if their bytes do. -/
theorem byte_eq_of_read64_eq {m m' : Mem} {a : Word} (same : read64 m' a = read64 m a) (x : Word)
    (inside : x - a < 8#64) : m' x = m x := by
  have offset : (x - a).toNat < 8 := by bv_omega
  have here : a + BitVec.ofNat 64 (x - a).toNat = x := by bv_omega
  apply BitVec.eq_of_getLsbD_eq
  intro i bound
  have byte : (8 * (x - a).toNat + i) / 8 = (x - a).toNat := by omega
  have bit : (8 * (x - a).toNat + i) % 8 = i := by omega
  have atBit : (read64 m' a).getLsbD (8 * (x - a).toNat + i) =
      (read64 m a).getLsbD (8 * (x - a).toNat + i) := by rw [same]
  rwa [getLsbD_read64 _ _ _ (by omega), getLsbD_read64 _ _ _ (by omega), byte, bit, here] at atBit

theorem write64_outside (m : Mem) (a v x : Word) (outside : 8#64 ≤ x - a) :
    write64 m a v x = m x := by
  have notInside : ¬ x - a < 8#64 := by bv_omega
  unfold write64
  rw [if_neg notInside]

theorem write64_inside (m : Mem) (a v : Word) (k : Nat) (bound : k < 8) :
    write64 m a v (a + BitVec.ofNat 64 k) = v.extractLsb' (8 * k) 8 := by
  have offset : a + BitVec.ofNat 64 k - a = BitVec.ofNat 64 k := by bv_omega
  have small : BitVec.ofNat 64 k < 8#64 := by bv_omega
  have toNat : (BitVec.ofNat 64 k).toNat = k := by simp; omega
  unfold write64
  rw [offset, if_pos small, toNat]

@[simp] theorem read64_write64_self (m : Mem) (a v : Word) :
    read64 (write64 m a v) a = v := by
  apply BitVec.eq_of_getLsbD_eq
  intro i bound
  rw [getLsbD_read64 _ _ _ bound, write64_inside _ _ _ _ (by omega),
    BitVec.getLsbD_extractLsb', Nat.div_add_mod]
  simp [Nat.mod_lt]

theorem read64_write64_apart (m : Mem) {a b : Word} (v : Word) (apart : Apart a b) :
    read64 (write64 m a v) b = read64 m b := by
  apply read64_congr
  intro x inside
  obtain ⟨left, right⟩ := apart
  exact write64_outside m a v x (by bv_omega)

/-- Writing back the word that is there changes nothing. -/
@[simp] theorem write64_read64 (m : Mem) (a : Word) : write64 m a (read64 m a) = m := by
  funext x
  by_cases inside : x - a < 8#64
  · exact byte_eq_of_read64_eq (read64_write64_self m a _) x inside
  · exact write64_outside m a _ x (by bv_omega)

/-- The later of two stores to a word remains. -/
theorem write64_write64 (m : Mem) (a v w : Word) : write64 (write64 m a v) a w = write64 m a w := by
  funext x
  simp only [write64]
  split <;> rfl

/-- The byte at `x` is its part of the word around it. -/
theorem byte_read64 (m : Mem) (a x : Word) (inside : x - a < 8#64) :
    m x = (read64 m a).extractLsb' (8 * (x - a).toNat) 8 := by
  have same : write64 m a (read64 m a) x = m x := by rw [write64_read64]
  rw [← same, write64, if_pos inside]

theorem write64_comm (m : Mem) {a b : Word} (v w : Word) (apart : Apart a b) :
    write64 (write64 m a v) b w = write64 (write64 m b w) a v := by
  funext x
  obtain ⟨left, right⟩ := apart
  by_cases atA : x - a < 8#64
  · have notB : ¬ x - b < 8#64 := by bv_omega
    simp only [write64, atA, notB, if_true, if_false]
  · simp only [write64, atA, if_false]

/-! ## Lists of stores -/

/-- Replay a list of word stores, first one first. -/
def storeAll (m : Mem) (stores : List (Word × Word)) : Mem :=
  stores.foldl (fun m s => write64 m s.1 s.2) m

@[simp] theorem storeAll_nil (m : Mem) : storeAll m [] = m := rfl

@[simp] theorem storeAll_cons (m : Mem) (s : Word × Word) (rest : List (Word × Word)) :
    storeAll m (s :: rest) = storeAll (write64 m s.1 s.2) rest := rfl

theorem storeAll_append (m : Mem) (first second : List (Word × Word)) :
    storeAll m (first ++ second) = storeAll (storeAll m first) second :=
  List.foldl_append

def PairwiseApart (stores : List (Word × Word)) : Prop :=
  stores.Pairwise fun s t => Apart s.1 t.1

instance : Std.Symm fun s t : Word × Word => Apart s.1 t.1 :=
  ⟨fun _ _ apart => apart.symm⟩

/-- Stores to pairwise apart words may be replayed in any order. -/
theorem storeAll_perm {first second : List (Word × Word)} (perm : first.Perm second)
    (apart : PairwiseApart first) (m : Mem) : storeAll m first = storeAll m second := by
  apply perm.foldl_eq'
  intro s hs t ht m
  by_cases same : s = t
  · rw [same]
  · exact write64_comm m s.2 t.2 (List.Pairwise.forall apart hs ht same)

theorem storeAll_reverse {stores : List (Word × Word)} (apart : PairwiseApart stores) (m : Mem) :
    storeAll m stores.reverse = storeAll m stores :=
  (storeAll_perm stores.reverse_perm.symm apart m).symm

theorem read64_storeAll_apart (m : Mem) (stores : List (Word × Word)) (a : Word)
    (apart : ∀ s ∈ stores, Apart s.1 a) : read64 (storeAll m stores) a = read64 m a := by
  induction stores generalizing m with
  | nil => rfl
  | cons s rest ih =>
      rw [storeAll_cons, ih _ fun t ht => apart t (List.mem_cons_of_mem _ ht)]
      exact read64_write64_apart m s.2 (apart s List.mem_cons_self)

/-- Stores leave every byte outside their words alone. -/
theorem storeAll_outside (m : Mem) (stores : List (Word × Word)) (x : Word)
    (outside : ∀ s ∈ stores, 8#64 ≤ x - s.1) : storeAll m stores x = m x := by
  induction stores generalizing m with
  | nil => rfl
  | cons s rest ih =>
      rw [storeAll_cons, ih _ fun t ht => outside t (List.mem_cons_of_mem _ ht)]
      exact write64_outside m s.1 s.2 x (outside s List.mem_cons_self)

theorem read64_storeAll_mem (m : Mem) {stores : List (Word × Word)} (apart : PairwiseApart stores)
    {a v : Word} (member : (a, v) ∈ stores) : read64 (storeAll m stores) a = v := by
  induction stores generalizing m with
  | nil => simp at member
  | cons s rest ih =>
      obtain ⟨headApart, restApart⟩ := List.pairwise_cons.1 apart
      rw [storeAll_cons]
      rcases List.mem_cons.1 member with rfl | inRest
      · rw [read64_storeAll_apart _ rest a fun t ht => (headApart t ht).symm]
        exact read64_write64_self m a v
      · exact ih _ restApart inRest

/-- Storing back words that are already there changes nothing, aliased or not. -/
theorem storeAll_of_present (m : Mem) (stores : List (Word × Word))
    (present : ∀ s ∈ stores, s.2 = read64 m s.1) : storeAll m stores = m := by
  induction stores with
  | nil => rfl
  | cons s rest ih =>
      rw [storeAll_cons, present s List.mem_cons_self, write64_read64]
      apply ih
      intro t member
      exact present t (List.mem_cons_of_mem _ member)

/-- Storing the words of `m` in another memory restores `m` in their bytes and leaves the
others, aliased or not. -/
theorem storeAll_restore (m m' : Mem) (stores : List (Word × Word))
    (present : ∀ s ∈ stores, s.2 = read64 m s.1) (x : Word) :
    storeAll m' stores x = if ∃ s ∈ stores, x - s.1 < 8#64 then m x else m' x := by
  induction stores generalizing m' with
  | nil => simp
  | cons s rest ih =>
      rw [storeAll_cons, ih _ fun t member => present t (List.mem_cons_of_mem _ member),
        present s List.mem_cons_self]
      simp only [List.exists_mem_cons_iff]
      by_cases later : ∃ t ∈ rest, x - t.1 < 8#64
      · rw [if_pos later, if_pos (.inr later)]
      · rw [if_neg later]
        by_cases inside : x - s.1 < 8#64
        · rw [if_pos (.inl inside), write64, if_pos inside, ← byte_read64 m s.1 x inside]
        · have missed : ¬ (x - s.1 < 8#64 ∨ ∃ t ∈ rest, x - t.1 < 8#64) := by
            rintro (here | there)
            · exact inside here
            · exact later there
          rw [if_neg missed, write64, if_neg inside]

/-! ## The last store to a word -/

/-- The value last stored at `a`, or the initial one. -/
def lastStore (stores : List (Word × Word)) (a initial : Word) : Word :=
  stores.foldl (fun w s => if s.1 = a then s.2 else w) initial

theorem lastStore_append (first second : List (Word × Word)) (a initial : Word) :
    lastStore (first ++ second) a initial = lastStore second a (lastStore first a initial) :=
  List.foldl_append

/-- Where every store hits the word or misses it, the word holds the last hit. -/
theorem read64_storeAll_eq_lastStore (m : Mem) (stores : List (Word × Word)) (a : Word)
    (words : ∀ s ∈ stores, s.1 = a ∨ Apart s.1 a) :
    read64 (storeAll m stores) a = lastStore stores a (read64 m a) := by
  induction stores generalizing m with
  | nil => rfl
  | cons s rest ih =>
      rw [storeAll_cons, ih _ fun t member => words t (List.mem_cons_of_mem _ member)]
      simp only [lastStore, List.foldl_cons]
      rcases words s List.mem_cons_self with rfl | apart
      · rw [read64_write64_self, if_pos rfl]
      · rw [read64_write64_apart m _ apart, if_neg apart.ne]

/-- The last store at a word has whatever all stores there and the initial value
have. -/
theorem lastStore_induction (fact : Word → Prop) {stores : List (Word × Word)} {a initial : Word}
    (hits : ∀ s ∈ stores, s.1 = a → fact s.2)
    (holds : fact initial ∨ ∃ s ∈ stores, s.1 = a) : fact (lastStore stores a initial) := by
  induction stores generalizing initial with
  | nil =>
      rcases holds with initially | ⟨s, member, _⟩
      · exact initially
      · cases member
  | cons s rest ih =>
      simp only [lastStore, List.foldl_cons]
      apply ih fun t member => hits t (List.mem_cons_of_mem _ member)
      by_cases here : s.1 = a
      · rw [if_pos here]
        exact .inl (hits s List.mem_cons_self here)
      · rw [if_neg here]
        rcases holds with initially | ⟨t, member, atA⟩
        · exact .inl initially
        · rcases List.mem_cons.mp member with rfl | later
          · exact absurd atA here
          · exact .inr ⟨t, later, atA⟩

end PTEditor.Theory.ByteMemory
