/-
# PTEditor.Theory.OwnedUpdates -- clients that update cells in two halves

Clients share a store of cells.  A client changes a cell by reading it in one turn and
writing the changed value in a later one, or overwrites it in a single turn; in between
the other clients take turns in any order.  A value read may be stale when it is written
back, and then another client's update is lost.

If every cell is worked on by one client only, nothing is lost: at any time, what the
client of a cell has still to do brings it to the value it would have had if the client
had been alone (`run_settles`).
-/
import PTEditor.Theory.Runs

namespace PTEditor.Theory.OwnedUpdates

open PTEditor.Theory.Runs

set_option autoImplicit false
set_option linter.unusedSectionVars false

variable {Client Key Value : Type} [DecidableEq Client] [DecidableEq Key]

/-- One piece of work at a cell. -/
inductive Work (Key Value : Type) where
  | modify (key : Key) (change : Value → Value)
  | put (key : Key) (value : Value)

namespace Work

def key : Work Key Value → Key
  | .modify key _ => key
  | .put key _ => key

/-- What the work means for the value of its cell. -/
def onValue : Work Key Value → Value → Value
  | .modify _ change, v => change v
  | .put _ value, _ => value

end Work

/-- What a client has still to do, and the value it has read for the first piece of it. -/
structure Desk (Key Value : Type) where
  todo : List (Work Key Value)
  held : Option Value

/-- A cell may be missing: work at it is dropped. -/
structure Shop (Client Key Value : Type) where
  store : Key → Option Value
  desk : Client → Desk Key Value

namespace Shop

variable (s : Shop Client Key Value)

def write (key : Key) (value : Value) : Shop Client Key Value :=
  { s with store := fun k => if k = key then (s.store k).map fun _ => value else s.store k }

def setDesk (c : Client) (desk : Desk Key Value) : Shop Client Key Value :=
  { s with desk := fun d => if d = c then desk else s.desk d }

end Shop

def turn (c : Client) (s : Shop Client Key Value) : Shop Client Key Value :=
  match (s.desk c).todo with
  | [] => s
  | .put key value :: rest => (s.write key value).setDesk c ⟨rest, none⟩
  | .modify key change :: rest =>
      match (s.desk c).held with
      | some v => (s.write key (change v)).setDesk c ⟨rest, none⟩
      | none =>
          match s.store key with
          | none => s.setDesk c ⟨rest, none⟩
          | some v => s.setDesk c ⟨.modify key change :: rest, some v⟩

/-- The work on a cell, in order, as one function. -/
def workOn (key : Key) (todo : List (Work Key Value)) (v : Value) : Value :=
  todo.foldl (fun v work => if work.key = key then work.onValue v else v) v

/-- No two clients work at one cell. -/
def Owned (s : Shop Client Key Value) : Prop :=
  ∀ c d, c ≠ d → ∀ work ∈ (s.desk c).todo, ∀ work' ∈ (s.desk d).todo, work.key ≠ work'.key

/-- A value held is the value of the cell. -/
def UpToDate (s : Shop Client Key Value) : Prop :=
  ∀ c v work rest, (s.desk c).held = some v → (s.desk c).todo = work :: rest →
    s.store work.key = some v

/-- What a client has still to do brings a cell to a value. -/
def Settles (c : Client) (key : Key) (final : Option Value) (s : Shop Client Key Value) : Prop :=
  (s.store key).map (workOn key (s.desk c).todo) = final

/-- No other client works at the cell. -/
def OnlyBy (c : Client) (key : Key) (s : Shop Client Key Value) : Prop :=
  ∀ d, d ≠ c → ∀ work ∈ (s.desk d).todo, work.key ≠ key

section Shop

variable (s : Shop Client Key Value) (c : Client) (desk : Desk Key Value)

@[simp] theorem setDesk_store : (s.setDesk c desk).store = s.store := rfl

@[simp] theorem setDesk_self : (s.setDesk c desk).desk c = desk := if_pos rfl

theorem setDesk_other {d : Client} (other : d ≠ c) : (s.setDesk c desk).desk d = s.desk d :=
  if_neg other

theorem write_here (key : Key) (value : Value) :
    (s.write key value).store key = (s.store key).map fun _ => value := if_pos rfl

theorem write_elsewhere {key k : Key} (value : Value) (other : k ≠ key) :
    (s.write key value).store k = s.store k := if_neg other

/-- Nothing is written to a missing cell. -/
theorem write_missing {key : Key} (value : Value) (missing : s.store key = none) :
    s.write key value = s := by
  have same : (s.write key value).store = s.store := by
    funext k
    by_cases here : k = key
    · rw [here, write_here, missing, Option.map_none]
    · exact write_elsewhere s value here
  calc s.write key value = { s with store := (s.write key value).store } := rfl
    _ = s := by rw [same]

theorem workOn_cons (key : Key) (work : Work Key Value) (rest : List (Work Key Value)) (v : Value) :
    workOn key (work :: rest) v =
      workOn key rest (if work.key = key then work.onValue v else v) := rfl

end Shop

section Turn

variable {s : Shop Client Key Value} {c : Client}

/-- A client that has nothing to do, or reads the first cell. -/
structure Reads (c : Client) (s : Shop Client Key Value) (key : Key) (v : Value) : Prop where
  here : s.store key = some v
  turned : ∃ change rest, (s.desk c).todo = .modify key change :: rest ∧
    turn c s = s.setDesk c ⟨.modify key change :: rest, some v⟩

/-- The first piece of work is done: with a value for its cell, if there is one. -/
structure Finishes (c : Client) (s : Shop Client Key Value) (work : Work Key Value)
    (rest : List (Work Key Value)) (v : Option Value) : Prop where
  todo : (s.desk c).todo = work :: rest
  cell : v.isSome = (s.store work.key).isSome
  turned : turn c s = (match v with
    | none => s
    | some v => s.write work.key v).setDesk c ⟨rest, none⟩
  value : UpToDate s → v = (s.store work.key).map work.onValue

/-- What a turn can do. -/
theorem turn_cases (c : Client) (s : Shop Client Key Value) :
    turn c s = s ∨ (∃ key v, Reads c s key v) ∨ ∃ work rest v, Finishes c s work rest v := by
  cases todo : (s.desk c).todo with
  | nil =>
      left
      simp only [turn, todo]
  | cons work rest =>
      right
      cases work with
      | put key value =>
          refine .inr ⟨.put key value, rest, (s.store key).map fun _ => value, todo, ?_, ?_, ?_⟩
          · exact Option.isSome_map
          · simp only [turn, todo]
            cases cell : s.store key with
            | none =>
                rw [write_missing s value cell]
                rfl
            | some w => rfl
          · exact fun _ => rfl
      | modify key change =>
          cases held : (s.desk c).held with
          | none =>
              cases cell : s.store key with
              | none =>
                  refine .inr ⟨.modify key change, rest, none, todo, ?_, ?_, ?_⟩
                  · simp only [Work.key, cell]
                  · simp only [turn, todo, held, cell]
                  · intro _
                    simp only [Work.key, cell, Option.map_none]
              | some v =>
                  refine .inl ⟨key, v, cell, change, rest, todo, ?_⟩
                  simp only [turn, todo, held, cell]
          | some v =>
              refine .inr ⟨.modify key change, rest, (s.store key).map fun _ => change v, todo, ?_, ?_,
                ?_⟩
              · exact Option.isSome_map
              · simp only [turn, todo, held]
                cases cell : s.store key with
                | none =>
                    rw [write_missing s _ cell]
                    rfl
                | some w => rfl
              · intro upToDate
                have here := upToDate c v _ rest held todo
                simp only [Work.key] at here ⊢
                rw [here]
                rfl

theorem Finishes.store_elsewhere {work : Work Key Value} {rest : List (Work Key Value)}
    {v : Option Value} (finishes : Finishes c s work rest v) {k : Key} (other : k ≠ work.key) :
    (turn c s).store k = s.store k := by
  rw [finishes.turned]
  cases v with
  | none => rfl
  | some v => exact write_elsewhere s v other

theorem Finishes.store_here {work : Work Key Value} {rest : List (Work Key Value)}
    {v : Option Value} (finishes : Finishes c s work rest v) :
    (turn c s).store work.key = v := by
  have cell := finishes.cell
  rw [finishes.turned]
  cases v with
  | none => exact Option.isNone_iff_eq_none.mp (by simpa using cell.symm)
  | some v =>
      obtain ⟨w, here⟩ := Option.isSome_iff_exists.mp cell.symm
      rw [setDesk_store, write_here, here]
      rfl

theorem Finishes.desk_self {work : Work Key Value} {rest : List (Work Key Value)}
    {v : Option Value} (finishes : Finishes c s work rest v) :
    (turn c s).desk c = ⟨rest, none⟩ := by
  rw [finishes.turned, setDesk_self]

/-- A turn leaves the other desks alone. -/
theorem turn_desk_other {d : Client} (other : d ≠ c) : (turn c s).desk d = s.desk d := by
  rcases turn_cases c s with same | ⟨key, v, reads⟩ | ⟨work, rest, v, finishes⟩
  · rw [same]
  · obtain ⟨change, rest, -, took⟩ := reads.turned
    rw [took, setDesk_other s c _ other]
  · rw [finishes.turned, setDesk_other _ c _ other]
    cases v <;> rfl

/-- No client gets new work. -/
theorem turn_todo_subset (c d : Client) (s : Shop Client Key Value) {work : Work Key Value}
    (member : work ∈ ((turn c s).desk d).todo) : work ∈ (s.desk d).todo := by
  by_cases other : d ≠ c
  · rwa [turn_desk_other other] at member
  obtain rfl := not_ne_iff.mp other
  rcases turn_cases d s with same | ⟨key, v, reads⟩ | ⟨first, rest, v, finishes⟩
  · rwa [same] at member
  · obtain ⟨change, rest, todo, took⟩ := reads.turned
    rw [took, setDesk_self] at member
    rw [todo]
    exact member
  · rw [finishes.desk_self] at member
    rw [finishes.todo]
    exact List.mem_cons_of_mem _ member

theorem Owned.kept (owned : Owned s) (c : Client) : Owned (turn c s) := by
  intro d e differ work member work' member'
  exact owned d e differ work (turn_todo_subset c d s member) work' (turn_todo_subset c e s member')

theorem OnlyBy.kept {d : Client} {key : Key} (only : OnlyBy d key s) (c : Client) :
    OnlyBy d key (turn c s) := by
  intro e other work member
  exact only e other work (turn_todo_subset c e s member)

/-- A held value stays up to date: the others write other cells. -/
theorem UpToDate.kept (upToDate : UpToDate s) (owned : Owned s) (c : Client) : UpToDate (turn c s) := by
  intro d v work rest held todo
  by_cases other : d ≠ c
  · rw [turn_desk_other other] at held todo
    have before := upToDate d v work rest held todo
    rcases turn_cases c s with same | ⟨key, w, reads⟩ | ⟨first, rest', w, finishes⟩
    · rw [same]
      exact before
    · obtain ⟨change, rest', -, took⟩ := reads.turned
      rw [took]
      exact before
    · rw [finishes.store_elsewhere]
      · exact before
      · refine owned d c other work ?_ first ?_
        · rw [todo]
          exact List.mem_cons_self
        · rw [finishes.todo]
          exact List.mem_cons_self
  obtain rfl := not_ne_iff.mp other
  rcases turn_cases d s with same | ⟨key, w, reads⟩ | ⟨first, rest', w, finishes⟩
  · rw [same] at held todo ⊢
    exact upToDate d v work rest held todo
  · obtain ⟨change, rest', -, took⟩ := reads.turned
    rw [took, setDesk_self] at held todo
    rw [took]
    obtain ⟨rfl, -⟩ := List.cons.inj todo
    rw [← held]
    exact reads.here
  · rw [finishes.desk_self] at held
    cases held

/-- One turn of any client keeps what a cell is on its way to. -/
theorem Settles.kept {d : Client} {key : Key} {final : Option Value}
    (settles : Settles d key final s) (upToDate : UpToDate s) (only : OnlyBy d key s) (c : Client) :
    Settles d key final (turn c s) := by
  unfold Settles at settles ⊢
  rw [← settles]
  by_cases other : d ≠ c
  · rw [turn_desk_other other]
    rcases turn_cases c s with same | ⟨k, w, reads⟩ | ⟨first, rest, w, finishes⟩
    · rw [same]
    · obtain ⟨change, rest, -, took⟩ := reads.turned
      rw [took, setDesk_store]
    · rw [finishes.store_elsewhere]
      refine (only c (Ne.symm other) first ?_).symm
      rw [finishes.todo]
      exact List.mem_cons_self
  obtain rfl := not_ne_iff.mp other
  rcases turn_cases d s with same | ⟨k, w, reads⟩ | ⟨first, rest, w, finishes⟩
  · rw [same]
  · obtain ⟨change, rest, todo, took⟩ := reads.turned
    rw [took, setDesk_store, setDesk_self, todo]
  · rw [finishes.desk_self, finishes.todo]
    by_cases here : first.key = key
    · subst here
      rw [finishes.store_here, finishes.value upToDate, Option.map_map]
      refine congrArg (Option.map · _) (funext fun v => ?_)
      rw [workOn_cons, if_pos rfl]
      rfl
    · rw [finishes.store_elsewhere (Ne.symm here)]
      refine congrArg (Option.map · _) (funext fun v => ?_)
      rw [workOn_cons, if_neg here]

end Turn

/-- What every turn keeps, for a cell and its client. -/
structure Underway (c : Client) (key : Key) (final : Option Value) (s : Shop Client Key Value) :
    Prop where
  owned : Owned s
  upToDate : UpToDate s
  only : OnlyBy c key s
  settles : Settles c key final s

theorem Underway.kept {s : Shop Client Key Value} {c : Client} {key : Key} {final : Option Value}
    (underway : Underway c key final s) (d : Client) : Underway c key final (turn d s) where
  owned := underway.owned.kept d
  upToDate := underway.upToDate.kept underway.owned d
  only := underway.only.kept d
  settles := underway.settles.kept underway.upToDate underway.only d

/-- **Nothing is lost.**  Whatever the order of the turns, what the only client of a cell has
still to do brings the cell to its value under all of the client's work. -/
theorem run_settles {s : Shop Client Key Value} (owned : Owned s) (upToDate : UpToDate s)
    (schedule : List Client) {c : Client} {key : Key} (only : OnlyBy c key s) :
    Settles c key ((s.store key).map (workOn key (s.desk c).todo)) (run turn schedule s) := by
  have always : Guarded turn (fun _ _ => True) schedule s :=
    guarded_of_states fun _ _ => trivial
  exact (run_induction _ (Underway c key _) (fun _ d underway _ => underway.kept d) always
    ⟨owned, upToDate, only, rfl⟩).settles

end PTEditor.Theory.OwnedUpdates
