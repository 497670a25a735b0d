/-
# PTEditor.Theory.Columns -- what a printed row shows

Text is put together column by column, with nothing to say how long a column is.  `Shows`
says what can be read off a text even when more text follows: two values print alike, with
the same text after them, exactly if they are the same to the reader.  Texts that show
something can be put one after the other (`Shows.append`, `shows_flatMap`), and a column shows its value if
none of its texts begins another one (`shows_of_apart`).
-/
import Mathlib.Data.List.Basic

namespace PTEditor.Theory.Columns

set_option autoImplicit false

variable {α : Type}

abbrev Text := List Char

/-- Two values print alike, whatever follows, exactly if they are the same to the reader. -/
def Shows (text : α → Text) (same : α → α → Prop) : Prop :=
  ∀ a b rest rest', text a ++ rest = text b ++ rest' ↔ same a b ∧ rest = rest'

variable {text text' : α → Text} {same same' : α → α → Prop}

theorem shows_const (constant : Text) : Shows (fun _ : α => constant) fun _ _ => True := by
  intro a b rest rest'
  rw [List.append_cancel_left_eq, true_and]

theorem Shows.append (first : Shows text same) (second : Shows text' same') :
    Shows (fun a => text a ++ text' a) fun a b => same a b ∧ same' a b := by
  intro a b rest rest'
  rw [List.append_assoc, List.append_assoc, first, second, and_assoc]

theorem Shows.congr (shows' : Shows text same) (equal : ∀ a b, same a b ↔ same' a b) :
    Shows text same' := by
  intro a b rest rest'
  rw [shows' a b rest rest', equal]

/-- Column after column. -/
theorem shows_flatMap {Column : Type} (print : Column → α → Text)
    (equal : Column → α → α → Prop) (columns : List Column)
    (each : ∀ column ∈ columns, Shows (print column) (equal column)) :
    Shows (fun a => columns.flatMap fun column => print column a) fun a b =>
      ∀ column ∈ columns, equal column a b := by
  induction columns with
  | nil =>
      refine (shows_const []).congr fun a b => ?_
      simp
  | cons column rest ih =>
      have first := each column List.mem_cons_self
      have later := ih fun c member => each c (List.mem_cons_of_mem _ member)
      exact (first.append later).congr fun a b => by simp

/-- A column whose texts do not begin one another shows its value. -/
theorem shows_of_apart (value : α → Nat) (code : Nat → Text) {bound : Nat}
    (inside : ∀ a, value a < bound)
    (apart : ∀ m < bound, ∀ n < bound, code m <+: code n → m = n) :
    Shows (fun a => code (value a)) fun a b => value a = value b := by
  intro a b rest rest'
  constructor
  · intro printed
    have printed : code (value a) ++ rest = code (value b) ++ rest' := printed
    have begins : code (value a) <+: code (value b) ++ rest' := ⟨rest, printed⟩
    have equal : value a = value b := by
      rcases List.prefix_or_prefix_of_prefix begins (List.prefix_append _ rest') with here | there
      · exact apart _ (inside a) _ (inside b) here
      · exact (apart _ (inside b) _ (inside a) there).symm
    rw [equal] at printed
    exact ⟨equal, List.append_cancel_left printed⟩
  · rintro ⟨equal, rfl⟩
    have equal : value a = value b := equal
    show code (value a) ++ rest = code (value b) ++ rest
    rw [equal]

end PTEditor.Theory.Columns
