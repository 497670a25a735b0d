/-
# PTEditor.Theory.CachedReads -- a cache in front of a store that others edit

A store has a value at some of its keys.  Actions edit the store, and each drops
some keys from a cache that sits in front of it.  The cache is not the actors': it
is filled from the store and loses entries whenever it likes.  A key is *coherent*
if what the cache holds for it is what the store has.

No single entry is ever repaired, so an action has to drop a key in the step in
which it changes the value there (`Timely`).  `coherentAt_iff` says that this is all:
over every schedule of fills and evictions around a list of actions the key is
coherent in every state exactly if the actions alone, without a cache, are timely.
-/
import PTEditor.Theory.Runs

namespace PTEditor.Theory.CachedReads

open PTEditor.Theory.Runs

set_option autoImplicit false

/-- A store that is read by key, and edited by actions that drop keys from the cache. -/
structure Scheme (Store Action Key Value : Type) where
  apply : Action → Store → Store
  value : Store → Key → Option Value
  drops : Action → Store → Key → Bool

structure Cached (Store Key Value : Type) where
  store : Store
  entries : Key → Option Value

/-- An action, or the cache's own doing. -/
inductive Event (Action Key : Type) where
  | act (action : Action)
  | fill (key : Key)
  | evict (key : Key)

section Cache

variable {Store Action Key Value : Type} [DecidableEq Key]

def actionsOf (events : List (Event Action Key)) : List Action :=
  events.filterMap fun
    | .act action => some action
    | _ => none

omit [DecidableEq Key] in
/-- The schedule in which the cache does nothing of its own. -/
theorem actionsOf_map_act (actions : List Action) :
    actionsOf (actions.map (Event.act : Action → Event Action Key)) = actions := by
  rw [actionsOf, List.filterMap_map]
  exact List.filterMap_some

variable (S : Scheme Store Action Key Value)

/-- A fill of a key without a value leaves the cache alone. -/
def step (event : Event Action Key) (c : Cached Store Key Value) : Cached Store Key Value :=
  match event with
  | .act action =>
      { store := S.apply action c.store
        entries := fun key => if S.drops action c.store key then none else c.entries key }
  | .fill key =>
      match S.value c.store key with
      | none => c
      | some value => { c with entries := fun k => if k = key then some value else c.entries k }
  | .evict key => { c with entries := fun k => if k = key then none else c.entries k }

/-- What the cache holds for the key is what the store has there. -/
def CoherentAt (key : Key) (c : Cached Store Key Value) : Prop :=
  ∀ value, c.entries key = some value → S.value c.store key = some value

/-- The action keeps the value of the key, or drops the key. -/
def Timely (key : Key) (s : Store) (action : Action) : Prop :=
  ∀ value, S.value s key = some value →
    S.value (S.apply action s) key = some value ∨ S.drops action s key = true

variable {S} {key : Key}

theorem coherentAt_fill {c : Cached Store Key Value} (coherent : CoherentAt S key c)
    (filled : Key) : CoherentAt S key (step S (.fill filled) c) := by
  intro value held
  simp only [step] at held ⊢
  split at held
  · exact coherent value held
  · rename_i present found
    simp only at held ⊢
    split at held
    · rename_i same
      rw [same, found]
      exact held
    · exact coherent value held

theorem coherentAt_evict {c : Cached Store Key Value} (coherent : CoherentAt S key c)
    (evicted : Key) : CoherentAt S key (step S (.evict evicted) c) := by
  intro value held
  simp only [step] at held
  split at held
  · cases held
  · exact coherent value held

/-- **One action.**  A timely action keeps the key coherent. -/
theorem coherentAt_act {c : Cached Store Key Value} (coherent : CoherentAt S key c)
    {action : Action} (timely : Timely S key c.store action) :
    CoherentAt S key (step S (.act action) c) := by
  intro value held
  simp only [step] at held ⊢
  split at held
  · cases held
  · rename_i kept
    rcases timely value (coherent value held) with same | dropped
    · exact same
    · exact absurd dropped kept

/-- An action that is not timely spoils a key that was filled just before it. -/
theorem timely_of_coherentAt {c : Cached Store Key Value} {action : Action}
    (coherent : CoherentAt S key (step S (.act action) (step S (.fill key) c))) :
    Timely S key c.store action := by
  intro value found
  cases dropped : S.drops action c.store key with
  | true => exact .inr rfl
  | false =>
      have held := coherent value
      simp only [step, found, dropped, if_true, Bool.false_eq_true, if_false, forall_const] at held
      exact .inl held

/-- The cache's own doing touches no store. -/
theorem step_fill_store (c : Cached Store Key Value) (filled : Key) :
    (step S (.fill filled) c).store = c.store := by
  simp only [step]
  split <;> rfl

/-- **A schedule around timely actions** keeps the key coherent in every state. -/
theorem coherentAt_of_timely {events : List (Event Action Key)} {c : Cached Store Key Value}
    (coherent : CoherentAt S key c)
    (timely : Guarded S.apply (Timely S key) (actionsOf events) c.store) :
    ∀ t ∈ states (step S) events c, CoherentAt S key t := by
  induction events generalizing c with
  | nil =>
      intro t member
      rw [states, List.mem_singleton] at member
      rw [member]
      exact coherent
  | cons event rest ih =>
      intro t member
      rw [states, List.mem_cons] at member
      rcases member with rfl | later
      · exact coherent
      cases event with
      | act action => exact ih (coherentAt_act coherent timely.1) timely.2 t later
      | fill filled =>
          refine ih (coherentAt_fill coherent filled) ?_ t later
          rw [step_fill_store]
          exact timely
      | evict evicted => exact ih (coherentAt_evict coherent evicted) timely t later

/-- **The cache never lies exactly if the actions are timely**: over every schedule of fills and
evictions around the actions the key is coherent in every state, if and only if each action, in
the run without a cache, keeps the value of the key or drops the key. -/
theorem coherentAt_iff {actions : List Action} {c : Cached Store Key Value}
    (coherent : CoherentAt S key c) :
    (∀ events, actionsOf events = actions →
        ∀ t ∈ states (step S) events c, CoherentAt S key t) ↔
      Guarded S.apply (Timely S key) actions c.store := by
  constructor
  · intro always
    induction actions generalizing c with
    | nil => trivial
    | cons action rest ih =>
        have silent : actionsOf (rest.map (Event.act : Action → Event Action Key)) = rest :=
          actionsOf_map_act rest
        constructor
        · -- the schedule that fills the key just before the first action
          apply timely_of_coherentAt
          refine always (.fill key :: .act action :: rest.map .act) ?_ _ ?_
          · exact congrArg (action :: ·) silent
          · exact .tail _ (.tail _ (first_mem_states _ _))
        · have after : CoherentAt S key (step S (.act action) c) := by
            refine always (.act action :: rest.map .act) ?_ _ (.tail _ (first_mem_states _ _))
            exact congrArg (action :: ·) silent
          apply ih after
          intro events same t member
          refine always (.act action :: events) ?_ t (.tail _ member)
          exact congrArg (action :: ·) same
  · rintro timely events rfl
    exact coherentAt_of_timely coherent timely

end Cache

end PTEditor.Theory.CachedReads
