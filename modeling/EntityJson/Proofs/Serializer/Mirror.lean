import EntityJson.Proofs.Serializer.Calls

/-!
# Serializations that cannot be told apart

The traversal looks at a scope when it converts a value, when it enters a map or an entity and when it
meets an item that cannot be serialized. It looks at a frame when it asks which names are read and
which are included, when it converts a value under a name, and when a value may be cut or dropped. Two
graphs, with pairs of scopes and pairs of frames that answer alike in these places (`Mirror`), are
serialized alike: with the same events and the same result or failure (`Traversal.entity_mirror`).
Where the answers come from may differ.
-/

namespace EntityJson

variable {ι : Type}

namespace Run

variable {α β γ : Type}

/-- Two runs without events that give related results or fail for the same cause. -/
inductive Paired (R : α → β → Prop) : Run α → Run β → Prop where
  | ok {a : α} {b : β} : R a b → Paired R (pure a) (pure b)
  | fail (e : SerializeError) : Paired R (Run.fail e) (Run.fail e)

/-- What comes after paired runs is the same if it is for all related results. -/
theorem Paired.bind_eq {R : α → β → Prop} {x : Run α} {y : Run β} (paired : Paired R x y)
    {f : α → Run γ} {f' : β → Run γ} (after : ∀ a b, R a b → f a = f' b) :
    x >>= f = y >>= f' := by
  cases paired with
  | ok related =>
    simp only [pure_bind]
    exact after _ _ related
  | fail e => rfl

end Run

/-- Two graphs, with the pairs of scopes and the pairs of frames in which the traversal gets the same
answers from both. -/
structure Mirror (g g' : Graph ι) (S : Scope ι → Scope ι → Prop) (F : Frame ι → Frame ι → Prop) :
    Prop where
  typeName : ∀ id, g.typeName id = g'.typeName id
  read : ∀ id, (g.entity id).read = (g'.entity id).read
  byType : ∀ {s s'}, S s s' → s.options.convertByType? none = s'.options.convertByType? none
  strict : ∀ {s s'}, S s s' → s.options.isStrictCollections = s'.options.isStrictCollections
  enterMap : ∀ {s s'}, S s s' → Run.Paired F s.enterMap s'.enterMap
  enterEntity : ∀ {s s'}, S s s' → ∀ id,
    Run.Paired F (s.enterEntity g id) (s'.enterEntity g' id)
  included : ∀ {f f'}, F f f' → f.schema.isIncluded = f'.schema.isIncluded
  names : ∀ {f f'}, F f f' → ∀ id,
    Traversal.attributeNames (g.entity id) f = Traversal.attributeNames (g'.entity id) f'
  byName : ∀ {f f'}, F f f' → f.options.convertByName? = f'.options.convertByName?
  cut : ∀ {f f'}, F f f' → f.isCut g = f'.isCut g'
  drops : ∀ {f f'}, F f f' → f.options.drops = f'.options.drops
  under : ∀ {f f'}, F f f' → ∀ name, S (f.under name) (f'.under name)

namespace Traversal

variable {g g' : Graph ι} {S : Scope ι → Scope ι → Prop} {F : Frame ι → Frame ι → Prop}
  {enter enter' : Scope ι → ι → Run Json}

/-! ## The steps of the traversal -/

theorem unserializable_mirror (mirror : Mirror g g' S F) (v : Value ι) :
    unserializable g v = unserializable g' v := by
  have names : g.typeName = g'.typeName := funext mirror.typeName
  simp only [unserializable, names]

/-- In paired scopes a value has the same form, or is entered alike. -/
theorem converted_mirror (mirror : Mirror g g' S F) {s s' : Scope ι} (pair : S s s') (v : Value ι)
    {entered entered' : Unit → Run Json} (same : entered () = entered' ()) :
    converted s v entered = converted s' v entered' := by
  simp only [converted, mirror.byType pair, same]

/-- In paired frames a value is also cut alike under a name. -/
theorem convertedUnder_mirror (mirror : Mirror g g' S F) {f f' : Frame ι} (pair : F f f')
    (name : String) (v : Value ι) {entered entered' : Unit → Run Json}
    (same : entered () = entered' ()) :
    convertedUnder g f name v entered = convertedUnder g' f' name v entered' := by
  simp only [convertedUnder, mirror.byName pair, mirror.cut pair, same]

/-- Paired scopes fail to make their schemas alike, or make paired frames. -/
theorem mapIn_mirror (mirror : Mirror g g' S F) {s s' : Scope ι} (pair : S s s')
    {body body' : Frame ι → Run (List (String × Json))}
    (same : ∀ f f', F f f' → body f = body' f') : mapIn s body = mapIn s' body' := by
  apply (mirror.enterMap pair).bind_eq
  intro f f' pair
  rw [same f f' pair]

/-- Paired scopes pass over the same items. -/
theorem itemOutcome_mirror (mirror : Mirror g g' S F) {s s' : Scope ι} (pair : S s s') :
    itemOutcome s = itemOutcome s' := by
  funext outcome
  cases outcome with
  | ok j => rfl
  | error e => simp only [itemOutcome, mirror.strict pair]

theorem withEntry_mirror (mirror : Mirror g g' S F) {f f' : Frame ι} (pair : F f f') :
    withEntry f.options = withEntry f'.options := by
  funext name value entries
  cases value with
  | none => rfl
  | some j => simp only [withEntry, mirror.drops pair]

/-! ## The traversal -/

mutual

/-- A value is serialized alike if the entities that it leads to are. -/
theorem value_mirror (mirror : Mirror g g' S F)
    (agree : ∀ {s s'}, S s s' → ∀ id, enter s id = enter' s' id) :
    (v : Value ι) → {s s' : Scope ι} → S s s' → (place : String) →
      value g enter place s v = value g' enter' place s' v
  | .deferred label (.ok v), s, s', pair, place => by
    simp only [value, value_mirror mirror agree v pair place]
  | .deferred label (.error cause), _, _, _, _ => by simp only [value]
  | .map es, s, s', pair, place => by
    simp only [value]
    apply converted_mirror mirror pair
    apply mapIn_mirror mirror pair
    intro f f' pair
    exact entries_mirror mirror agree es pair
  | .seq vs, s, s', pair, place => by
    simp only [value]
    apply converted_mirror mirror pair
    rw [items_mirror mirror agree vs pair 0]
  | .entity id, s, s', pair, place => by
    simp only [value]
    exact converted_mirror mirror pair _ (agree pair id)
  | .scalar _, _, _, pair, _ | .member _ _ _, _, _, pair, _ | .foreign _ _, _, _, pair, _ => by
    simp only [value]
    exact converted_mirror mirror pair _ (unserializable_mirror mirror _)

/-- Under a name, in paired frames. -/
theorem named_mirror (mirror : Mirror g g' S F)
    (agree : ∀ {s s'}, S s s' → ∀ id, enter s id = enter' s' id) :
    (v : Value ι) → {f f' : Frame ι} → F f f' → (name : String) →
      named g enter f name v = named g' enter' f' name v
  | .deferred label (.ok v), f, f', pair, name => by
    simp only [named, named_mirror mirror agree v pair name]
  | .deferred label (.error cause), _, _, _, _ => by simp only [named]
  | .map es, f, f', pair, name => by
    simp only [named]
    apply convertedUnder_mirror mirror pair
    apply mapIn_mirror mirror (mirror.under pair name)
    intro f f' pair
    exact entries_mirror mirror agree es pair
  | .seq vs, f, f', pair, name => by
    simp only [named]
    apply convertedUnder_mirror mirror pair
    rw [items_mirror mirror agree vs (mirror.under pair name) 0]
  | .entity id, f, f', pair, name => by
    simp only [named]
    exact convertedUnder_mirror mirror pair _ _ (agree (mirror.under pair name) id)
  | .scalar _, _, _, pair, _ | .member _ _ _, _, _, pair, _ | .foreign _ _, _, _, pair, _ => by
    simp only [named]
    exact convertedUnder_mirror mirror pair _ _ (unserializable_mirror mirror _)

theorem entries_mirror (mirror : Mirror g g' S F)
    (agree : ∀ {s s'}, S s s' → ∀ id, enter s id = enter' s' id) :
    (es : List (String × Value ι)) → {f f' : Frame ι} → F f f' →
      entries g enter f es = entries g' enter' f' es
  | [], _, _, _ => by simp only [entries]
  | (key, v) :: rest, f, f', pair => by
    simp only [entries, mirror.included pair, named_mirror mirror agree v pair key,
      entries_mirror mirror agree rest pair, withEntry_mirror mirror pair]

theorem items_mirror (mirror : Mirror g g' S F)
    (agree : ∀ {s s'}, S s s' → ∀ id, enter s id = enter' s' id) :
    (vs : List (Value ι)) → {s s' : Scope ι} → S s s' → (position : Nat) →
      items g enter s position vs = items g' enter' s' position vs
  | [], _, _, _, _ => by simp only [items]
  | v :: rest, s, s', pair, position => by
    simp only [items, value_mirror mirror agree v pair, itemOutcome_mirror mirror pair,
      items_mirror mirror agree rest pair (position + 1)]

end

/-- The entities of the two graphs read the same values under the same names. -/
theorem attributes_mirror (mirror : Mirror g g' S F)
    (agree : ∀ {s s'}, S s s' → ∀ id, enter s id = enter' s' id) (id : ι) {f f' : Frame ι}
    (pair : F f f') (names : List String) (out : List (String × Json)) :
    attributes g enter (g.entity id) f names out
      = attributes g' enter' (g'.entity id) f' names out := by
  have typeName : (g.entity id).typeName = (g'.entity id).typeName := mirror.typeName id
  have value : ∀ v name, named g enter f name v = named g' enter' f' name v := by
    intro v name
    exact named_mirror mirror agree v pair name
  induction names generalizing out with
  | nil => simp only [attributes]
  | cons name names ih =>
    simp only [attributes, mirror.included pair, mirror.read id, mirror.drops pair, typeName, value, ih]

/-- Where entities are entered alike from an entity, it is entered alike itself; the induction on
the number of entities entered one within the other starts from this. -/
theorem entityWith_mirror (mirror : Mirror g g' S F)
    (agree : ∀ {s s'}, S s s' → ∀ id, enter s id = enter' s' id) {s s' : Scope ι} (pair : S s s')
    (id : ι) : entityWith g enter s id = entityWith g' enter' s' id := by
  apply (mirror.enterEntity pair id).bind_eq
  intro f f' pair
  rw [mirror.names pair id, attributes_mirror mirror agree id pair]

/-- Entities are serialized alike, within any number of others. -/
theorem entity_mirror (mirror : Mirror g g' S F) (hops : Nat) {s s' : Scope ι} (pair : S s s')
    (id : ι) : entity g hops s id = entity g' hops s' id := by
  induction hops generalizing s s' id with
  | zero => rfl
  | succ hops ih => exact entityWith_mirror mirror (fun pair id => ih pair id) pair id

end Traversal

end EntityJson
