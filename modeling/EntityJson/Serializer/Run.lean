import EntityJson.Serializer.Error
import EntityJson.Value.Basic

/-!
# Runs

A serialization reads attributes, works out deferred values and asks converters. A **run** is the list
of these events in their order together with the outcome. Runs are put one after the other by the
monad: an error ends the run and keeps the events up to it.
-/

namespace EntityJson

/-- What happens outside of the serializer while it works. -/
inductive Event where
  /-- An attribute of an entity is read. -/
  | read (typeName name : String)
  /-- A deferred value is worked out. -/
  | called (label : String)
  /-- A converter is asked; one for foreign values sees a payload and no kind of value. -/
  | converted (label : String) (kind : Option Kind)
  deriving DecidableEq, Repr

/-- The events of a serialization, or of a part of one, and what comes of it. -/
structure Run (α : Type) where
  events : List Event
  outcome : Except SerializeError α

namespace Run

variable {α β : Type}

def ok (value : α) : Run α := ⟨[], .ok value⟩

def fail (error : SerializeError) : Run α := ⟨[], .error error⟩

def ofExcept (outcome : Except SerializeError α) : Run α := ⟨[], outcome⟩

/-- A run that is one event. -/
def event (e : Event) : Run Unit := ⟨[e], .ok ()⟩

/-- Goes on with the outcome of a run. -/
def andThen (x : Run α) (f : α → Run β) : Run β :=
  match x.outcome with
  | .ok value =>
    let y := f value
    ⟨x.events ++ y.events, y.outcome⟩
  | .error error => ⟨x.events, .error error⟩

/-- The run that gives the outcome of another and does not fail itself. -/
def attempt (x : Run α) : Run (Except SerializeError α) := ⟨x.events, .ok x.outcome⟩

instance : Monad Run where
  pure := ok
  bind := andThen

theorem bind_eq (x : Run α) (f : α → Run β) : x >>= f = x.andThen f := rfl

theorem id_map_eq (x : Run α) : id <$> x = x := by
  obtain ⟨events, outcome⟩ := x
  cases outcome <;> simp [Functor.map, andThen, ok]

theorem bind_assoc_eq {γ : Type} (x : Run α) (f : α → Run β) (g : β → Run γ) :
    x >>= f >>= g = x >>= fun value => f value >>= g := by
  obtain ⟨events, outcome⟩ := x
  cases outcome with
  | error => rfl
  | ok value =>
    simp only [bind, andThen]
    cases (f value).outcome <;> simp

instance : LawfulMonad Run :=
  LawfulMonad.mk' _ id_map_eq (fun _ _ => rfl) bind_assoc_eq

end Run

end EntityJson
