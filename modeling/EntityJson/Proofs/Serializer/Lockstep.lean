import EntityJson.Proofs.Serializer.Gathered
import Mathlib.Data.List.Forall2

/-!
# Two serializations side by side

A graph serialized under two sets of options that differ in one point goes through the same calls in
the same order. What follows from the difference is settled where the options are looked at: at
converters, at the depth limit, at values to drop and at items that cannot be serialized. If these
steps keep a relation between the results of the two sides (`Lockstep`), so does the whole traversal
(`Traversal.entity_follows`, `Traversal.value_follows`).

The first run **follows** the second (`Run.Follows`): where the second succeeds the first does, with a
related result, and where the second fails the first fails for the same cause. A comparison may be
loose: then nothing is said where the second fails, and the first may leave out more than the second.
-/

namespace EntityJson

/-! ## Runs that follow others -/

namespace Run

variable {α β γ δ : Type}

/-- A run succeeds with a related result where another one does. Where that one fails it fails for the
same cause, unless the comparison is loose. -/
structure Follows (loose : Prop) (R : α → β → Prop) (x : Run α) (y : Run β) : Prop where
  ok : ∀ {b}, y.outcome = .ok b → ∃ a, x.outcome = .ok a ∧ R a b
  error : ∀ {e}, y.outcome = .error e → loose ∨ x.outcome = .error e

variable {loose : Prop} {R : α → β → Prop} {S : γ → δ → Prop} {x x' : Run α} {y y' : Run β}

/-- Related values follow each other, a failure follows itself, and so does an event. -/
theorem follows_pure {a : α} {b : β} (h : R a b) : (pure a : Run α).Follows loose R (pure b) :=
  ⟨fun same => ⟨a, rfl, Except.ok.inj same ▸ h⟩, nofun⟩

theorem follows_fail (e : SerializeError) : (fail e : Run α).Follows loose R (fail e : Run β) :=
  ⟨nofun, fun same => .inr (Except.error.inj same ▸ rfl)⟩

/-- A run follows itself if its result is related to itself. -/
theorem follows_self {R : α → α → Prop} (h : ∀ a, x.outcome = .ok a → R a a) :
    x.Follows loose R x :=
  ⟨fun {a} same => ⟨a, same, h a same⟩, .inr⟩

theorem follows_event (e : Event) : (event e).Follows loose (fun _ _ => True) (event e) :=
  follows_self fun _ _ => trivial

/-- A loose comparison says nothing where the second run fails. -/
theorem follows_of_loose (isLoose : loose) {e : SerializeError} (failed : y.outcome = .error e) :
    x.Follows loose R y := by
  refine ⟨fun same => ?_, fun _ => .inl isLoose⟩
  cases failed.symm.trans same

/-- Only the outcomes of the runs count. -/
theorem Follows.of_outcome_eq (h : x.Follows loose R y) (hx : x'.outcome = x.outcome)
    (hy : y'.outcome = y.outcome) : x'.Follows loose R y' :=
  ⟨fun same => hx ▸ h.ok (hy ▸ same), fun same => hx ▸ h.error (hy ▸ same)⟩

/-- What comes after two runs follows if it does for all related results. -/
theorem Follows.bind {f : α → Run γ} {f' : β → Run δ} (h : x.Follows loose R y)
    (after : ∀ a b, R a b → (f a).Follows loose S (f' b)) :
    (x >>= f).Follows loose S (y >>= f') := by
  cases hy : y.outcome with
  | ok b =>
    obtain ⟨a, hx, related⟩ := h.ok hy
    refine (after a b related).of_outcome_eq ?_ ?_
    · rw [outcome_bind, hx]
      rfl
    · rw [outcome_bind, hy]
      rfl
  | error e =>
    have failed : (y >>= f').outcome = .error e := by
      rw [outcome_bind, hy]
      rfl
    refine ⟨fun same => ?_, fun same => (h.error hy).imp_right fun hx => ?_⟩
    · cases failed.symm.trans same
    · cases failed.symm.trans same
      rw [outcome_bind, hx]
      rfl

/-- What follows still does when related functions are applied. -/
theorem Follows.map {f : α → γ} {f' : β → δ} (h : x.Follows loose R y)
    (related : ∀ a b, R a b → S (f a) (f' b)) : (f <$> x).Follows loose S (f' <$> y) :=
  h.bind fun a b ab => follows_pure (related a b ab)

/-- Followed strictly, the outcome of a run is that of the other one. -/
theorem Follows.outcome_eq {f : β → α} (h : x.Follows False (fun a b => a = f b) y) :
    x.outcome = y.outcome.map f := by
  cases hy : y.outcome with
  | ok b =>
    obtain ⟨a, hx, rfl⟩ := h.ok hy
    exact hx
  | error e => exact (h.error hy).resolve_left id

end Run

variable {ι : Type}

/-! ## Scopes and frames side by side -/

/-- Scopes that differ in their options alone, and in these as a relation says. -/
structure Scope.Alongside (O : Options ι → Options ι → Prop) (s s' : Scope ι) : Prop where
  inherited : s.inherited = s'.inherited
  options : O s.options s'.options
  depth : s.depth = s'.depth

/-- Frames that differ in their options alone. -/
structure Frame.Alongside (O : Options ι → Options ι → Prop) (f f' : Frame ι) : Prop where
  schema : f.schema = f'.schema
  options : O f.options f'.options
  depth : f.depth = f'.depth

/-- What becomes of the value under a name: both sides keep it, with related results, or both leave it
out, or the first leaves it out alone. -/
def KeptAlong (loose : Prop) (J : Json → Json → Prop) : Option Json → Option Json → Prop
  | some a, some b => J a b
  | none, none => True
  | none, some _ => loose
  | some _, none => False

open Traversal

/-- Two sets of options under which a graph is serialized side by side: `O` relates the options of the
two sides, `J` their results and `M` the members of their objects. -/
structure Lockstep (g : Graph ι) (loose : Prop) (O : Options ι → Options ι → Prop)
    (J : Json → Json → Prop) (M : List (String × Json) → List (String × Json) → Prop) : Prop where
  layer : ∀ {o o'} id, O o o' → O (o.layer (g.entity id).options) (o'.layer (g.entity id).options)
  forNested : ∀ {o o'}, O o o' → O o.forNested o'.forNested
  rules : ∀ {o o'}, O o o' → o.only = o'.only ∧ o.rules = o'.rules
  names : ∀ {o o'}, O o o' → o.keys = o'.keys ∧ o.includesProperties = o'.includesProperties
  byType : ∀ {o o'}, O o o' → ∀ name v,
    Option.Rel (Run.Follows loose J) (o.convertByType? name v) (o'.convertByType? name v)
  byName : ∀ {o o'}, O o o' → ∀ name v,
    Option.Rel (Run.Follows loose J) (o.convertByName? name v) (o'.convertByName? name v)
  cut : ∀ {f f' : Frame ι}, f.Alongside O f' → ∀ v,
    f.isCut g v = f'.isCut g v ∨ loose ∧ f'.isCut g v = false
  strict : ∀ {o o'}, O o o' → o.isStrictCollections = o'.isStrictCollections ∧
    (loose → o'.isStrictCollections)
  array : ∀ {xs ys}, List.Forall₂ J xs ys → J (.arr xs) (.arr ys)
  object : ∀ {ms ns}, M ms ns → J (.obj ms) (.obj ns)
  nil : M [] []
  entry : ∀ {o o'}, O o o' → ∀ {name a b}, KeptAlong loose J a b → ∀ {ms ns}, M ms ns →
    M (withEntry o name a ms) (withEntry o' name b ns)

namespace Traversal

variable {g : Graph ι} {loose : Prop} {O : Options ι → Options ι → Prop} {J : Json → Json → Prop}
  {M : List (String × Json) → List (String × Json) → Prop} {enter enter' : Scope ι → ι → Run Json}

/-! ## The steps of the traversal -/

/-- The same rules give both sides the same schema. -/
theorem enter_follows (step : Lockstep g loose O J M) {s s' : Scope ι} (along : s.Alongside O s')
    {o o' : Options ι} (options : O o o') (exact additive : List String) :
    (s.enter o exact additive).Follows loose (Frame.Alongside O) (s'.enter o' exact additive) := by
  have schema : s.schema o exact additive = s'.schema o' exact additive := by
    unfold Scope.schema
    rw [along.inherited, (step.rules options).1, (step.rules options).2]
  unfold Scope.enter
  rw [schema]
  refine (Run.follows_self (R := Eq) fun _ _ => rfl).bind ?_
  rintro t _ rfl
  exact Run.follows_pure ⟨rfl, options, along.depth⟩

/-- The scopes under a name go alongside if the frames do. -/
theorem under_alongside (step : Lockstep g loose O J M) {f f' : Frame ι} (along : f.Alongside O f')
    (name : String) : (f.under name).Alongside O (f'.under name) where
  inherited := by rw [Frame.under, Frame.under, along.schema]
  options := step.forNested along.options
  depth := congrArg (· + 1) along.depth

/-- A value has related forms in both runs, or is entered in both. -/
theorem converted_follows (step : Lockstep g loose O J M) {s s' : Scope ι} (along : s.Alongside O s')
    {v : Value ι} {entered entered' : Unit → Run Json}
    (h : (entered ()).Follows loose J (entered' ())) :
    (converted s v entered).Follows loose J (converted s' v entered') := by
  have forms := step.byType along.options none v
  unfold converted
  generalize s.options.convertByType? none v = form at forms ⊢
  generalize s'.options.convertByType? none v = form' at forms ⊢
  cases forms with
  | some follows => exact follows
  | none => exact h

/-- Under a name it may be left out in the one run and not in the other, if the runs are loose. -/
theorem convertedUnder_follows (step : Lockstep g loose O J M) {f f' : Frame ι}
    (along : f.Alongside O f') {name : String} {v : Value ι} {entered entered' : Unit → Run Json}
    (h : (entered ()).Follows loose J (entered' ())) :
    (convertedUnder g f name v entered).Follows loose (KeptAlong loose J)
      (convertedUnder g f' name v entered') := by
  have some_follows : ∀ {x y : Run Json}, x.Follows loose J y →
      (some <$> x).Follows loose (KeptAlong loose J) (some <$> y) :=
    fun follows => follows.map fun _ _ related => related
  have forms := step.byName along.options name v
  unfold convertedUnder
  generalize f.options.convertByName? name v = form at forms ⊢
  generalize f'.options.convertByName? name v = form' at forms ⊢
  cases forms with
  | some follows => exact some_follows follows
  | none =>
    by_cases cut' : f'.isCut g v
    · -- what the second side leaves out the first does too
      have cut : f.isCut g v :=
        (step.cut along v).elim (·.trans cut') fun h => absurd cut' (Bool.eq_false_iff.mp h.2)
      rw [if_pos cut, if_pos cut']
      exact Run.follows_pure trivial
    · rw [if_neg cut']
      by_cases cut : f.isCut g v
      · have isLoose : loose :=
          (step.cut along v).elim (fun same => absurd (same.symm.trans cut) cut') (·.1)
        rw [if_pos cut]
        refine ⟨fun {b} same => ⟨none, rfl, ?_⟩, fun _ => .inl isLoose⟩
        cases b with
        | none => trivial
        | some b => exact isLoose
      · rw [if_neg cut]
        exact some_follows h

/-- The members of a map follow if they do in all frames that go alongside. -/
theorem mapIn_follows (step : Lockstep g loose O J M) {s s' : Scope ι} (along : s.Alongside O s')
    {body body' : Frame ι → Run (List (String × Json))}
    (h : ∀ f f', f.Alongside O f' → (body f).Follows loose M (body' f')) :
    (mapIn s body).Follows loose J (mapIn s' body') :=
  (enter_follows step along along.options [] []).bind fun f f' alongside =>
    (h f f' alongside).map fun _ _ => step.object

/-- An item that cannot be serialized fails on both sides or is left out on both. -/
theorem item_follows (step : Lockstep g loose O J M) {s s' : Scope ι} (along : s.Alongside O s')
    {x y : Run Json} (h : x.Follows loose J y) :
    (x.attempt >>= itemOutcome s).Follows loose (Option.Rel J) (y.attempt >>= itemOutcome s') := by
  obtain ⟨same, strict⟩ := step.strict along.options
  have outcome : ∀ (s : Scope ι) (z : Run Json),
      (z.attempt >>= itemOutcome s).outcome = (itemOutcome s z.outcome).outcome :=
    fun s z => Run.outcome_bind _ _
  refine Run.Follows.of_outcome_eq ?_ (outcome s x) (outcome s' y)
  cases hy : y.outcome with
  | ok b =>
    obtain ⟨a, hx, related⟩ := h.ok hy
    rw [hx]
    exact Run.follows_pure (.some related)
  | error e =>
    rcases h.error hy with isLoose | hx
    · rw [itemOutcome, strict isLoose, Bool.not_true, Bool.and_false, if_neg Bool.false_ne_true]
      exact Run.follows_of_loose isLoose rfl
    · rw [hx, itemOutcome, itemOutcome, same]
      split
      · exact Run.follows_pure .none
      · exact Run.follows_fail e

theorem toList_append_forall₂ {a b : Option Json} (related : Option.Rel J a b) {xs ys : List Json}
    (rest : List.Forall₂ J xs ys) : List.Forall₂ J (a.toList ++ xs) (b.toList ++ ys) := by
  cases related with
  | some related => exact .cons related rest
  | none => exact rest

/-! ## The traversal -/

mutual

/-- A value follows if the entities that it leads to do. -/
theorem value_follows (step : Lockstep g loose O J M)
    (agree : ∀ {s s' : Scope ι}, s.Alongside O s' → ∀ id,
      (enter s id).Follows loose J (enter' s' id)) :
    (v : Value ι) → {s s' : Scope ι} → s.Alongside O s' → (place : String) →
      (value g enter place s v).Follows loose J (value g enter' place s' v)
  | .deferred _ (.ok v), _, _, along, place =>
    (Run.follows_event _).bind fun _ _ _ => value_follows step agree v along place
  | .deferred _ (.error _), _, _, _, _ =>
    (Run.follows_event _).bind fun _ _ _ => Run.follows_fail _
  | .map es, _, _, along, _ => converted_follows step along <|
    mapIn_follows step along fun _ _ along => entries_follows step agree es along
  | .seq vs, _, _, along, _ => converted_follows step along <|
    (items_follows step agree vs along 0).map fun _ _ => step.array
  | .entity id, _, _, along, _ => converted_follows step along (agree along id)
  | .scalar _, _, _, along, _ | .member _ _ _, _, _, along, _ | .foreign _ _, _, _, along, _ =>
    converted_follows step along (Run.follows_fail _)

/-- Under a name, in frames that go alongside. -/
theorem named_follows (step : Lockstep g loose O J M)
    (agree : ∀ {s s' : Scope ι}, s.Alongside O s' → ∀ id,
      (enter s id).Follows loose J (enter' s' id)) :
    (v : Value ι) → {f f' : Frame ι} → f.Alongside O f' → (name : String) →
      (named g enter f name v).Follows loose (KeptAlong loose J) (named g enter' f' name v)
  | .deferred _ (.ok v), _, _, along, name =>
    (Run.follows_event _).bind fun _ _ _ => named_follows step agree v along name
  | .deferred _ (.error _), _, _, _, _ =>
    (Run.follows_event _).bind fun _ _ _ => Run.follows_fail _
  | .map es, _, _, along, name => convertedUnder_follows step along <|
    mapIn_follows step (under_alongside step along name) fun _ _ along =>
      entries_follows step agree es along
  | .seq vs, _, _, along, name => convertedUnder_follows step along <|
    (items_follows step agree vs (under_alongside step along name) 0).map fun _ _ => step.array
  | .entity id, _, _, along, name => convertedUnder_follows step along <|
    agree (under_alongside step along name) id
  | .scalar _, _, _, along, _ | .member _ _ _, _, _, along, _ | .foreign _ _, _, _, along, _ =>
    convertedUnder_follows step along (Run.follows_fail _)

theorem entries_follows (step : Lockstep g loose O J M)
    (agree : ∀ {s s' : Scope ι}, s.Alongside O s' → ∀ id,
      (enter s id).Follows loose J (enter' s' id)) :
    (es : List (String × Value ι)) → {f f' : Frame ι} → f.Alongside O f' →
      (entries g enter f es).Follows loose M (entries g enter' f' es)
  | [], _, _, _ => Run.follows_pure step.nil
  | (key, v) :: rest, f, f', along => by
    rw [entries, entries, along.schema]
    split
    · exact (named_follows step agree v along key).bind fun _ _ kept =>
        (entries_follows step agree rest along).map fun _ _ => step.entry along.options kept
    · exact entries_follows step agree rest along

theorem items_follows (step : Lockstep g loose O J M)
    (agree : ∀ {s s' : Scope ι}, s.Alongside O s' → ∀ id,
      (enter s id).Follows loose J (enter' s' id)) :
    (vs : List (Value ι)) → {s s' : Scope ι} → s.Alongside O s' → (position : Nat) →
      (items g enter s position vs).Follows loose (List.Forall₂ J) (items g enter' s' position vs)
  | [], _, _, _, _ => Run.follows_pure .nil
  | v :: rest, s, s', along, position => by
    rw [items, items, ← bind_assoc, ← bind_assoc]
    exact (item_follows step along (value_follows step agree v along _)).bind fun _ _ related =>
      (items_follows step agree rest along (position + 1)).map fun _ _ =>
        toList_append_forall₂ related

end

/-- The attributes of an entity follow, each name taken once. -/
theorem gathered_follows (step : Lockstep g loose O J M)
    (agree : ∀ {s s' : Scope ι}, s.Alongside O s' → ∀ id,
      (enter s id).Follows loose J (enter' s' id))
    (e : Entity ι) {f f' : Frame ι} (along : f.Alongside O f') (names : List String) :
    (gathered g enter e f names).Follows loose M (gathered g enter' e f' names) := by
  induction names with
  | nil => exact Run.follows_pure step.nil
  | cons name names ih =>
    rw [gathered, gathered, along.schema]
    split
    · have read : (readNamed g enter e f name).Follows loose (KeptAlong loose J)
          (readNamed g enter' e f' name) := by
        refine (Run.follows_event _).bind fun _ _ _ => ?_
        refine (Run.follows_self (R := Eq) fun _ _ => rfl).bind ?_
        rintro raw _ rfl
        exact named_follows step agree raw along name
      exact read.bind fun _ _ kept => ih.map fun _ _ => step.entry along.options kept
    · exact ih

/-- An entity follows itself if the entities that it leads to do. -/
theorem entityWith_follows (step : Lockstep g loose O J M)
    (agree : ∀ {s s' : Scope ι}, s.Alongside O s' → ∀ id,
      (enter s id).Follows loose J (enter' s' id))
    {s s' : Scope ι} (along : s.Alongside O s') (id : ι) :
    (entityWith g enter s id).Follows loose J (entityWith g enter' s' id) := by
  refine (enter_follows step along (step.layer id along.options) _ _).bind fun f f' along => ?_
  have names : attributeNames (g.entity id) f = attributeNames (g.entity id) f' := by
    unfold attributeNames
    rw [along.schema, (step.names along.options).1, (step.names along.options).2]
  rw [names]
  have members := (gathered_follows step agree (g.entity id) along
    (attributeNames (g.entity id) f').eraseDups).of_outcome_eq (attributes_outcome _)
    (attributes_outcome _)
  exact members.map fun _ _ => step.object

/-- Entities follow, within any number of others. -/
theorem entity_follows (step : Lockstep g loose O J M) (hops : Nat) {s s' : Scope ι}
    (along : s.Alongside O s') (id : ι) :
    (entity g hops s id).Follows loose J (entity g hops s' id) := by
  induction hops generalizing s s' id with
  | zero => exact Run.follows_fail .nesting
  | succ hops ih => exact entityWith_follows step (fun along id => ih along id) along id

end Traversal

end EntityJson
