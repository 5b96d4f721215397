import EntityJson.Proofs.Serializer.Calls
import EntityJson.Proofs.Serializer.Gathered

/-!
# What comes of a sequence

The items of a sequence are serialized in its own scope, so what comes of each is what comes of it
alone, except that an item which cannot be worked out is named by its position
(`Traversal.value_outcome_atPlace`). A lenient sequence is the array of these results without the ones
that say that a value cannot be serialized, a strict one is the array of all of them; the first failure
that is left ends it (`Traversal.items_outcome`). A strict sequence of entities is therefore what
serializing them one by one gives, with the same events (`Serializer.items_entities`).
-/

namespace EntityJson

variable {ι : Type}

namespace Traversal

variable {g : Graph ι} {enter : Scope ι → ι → Run Json} {scope : Scope ι}

/-! ## One item -/

/-- What comes of a value at a place, if `result` comes of it at another: a value that cannot be worked
out is named by the place. -/
def atPlace (place : String) (v : Value ι) (result : Except SerializeError Json) :
    Except SerializeError Json :=
  match v.resolve with
  | .ok _ => result
  | .error cause => .error (.unreadable place cause)

/-- The place counts for a value that cannot be worked out, and for nothing within a value. -/
theorem value_outcome_atPlace (place other : String) : (v : Value ι) →
    (value g enter place scope v).outcome = atPlace place v (value g enter other scope v).outcome
  | .deferred label (.ok v) => by
    have resolved := value_outcome_atPlace place other v
    simp only [value, Run.outcome_bind]
    exact resolved
  | .deferred label (.error cause) => rfl
  | .map _ | .seq _ | .entity _ | .scalar _ | .member _ _ _ | .foreign _ _ => rfl

/-- A value that cannot be worked out fails, and is named by the place. -/
theorem value_outcome_of_resolve_eq_error {v : Value ι} {cause : String}
    (h : v.resolve = .error cause) (place : String) :
    (value g enter place scope v).outcome = .error (.unreadable place cause) := by
  rw [value_outcome_atPlace place place v, atPlace, h]

/-! ## The items of a sequence -/

/-- What comes of each item of a sequence from a position on, if `result` tells what comes of it at
another place. -/
def itemResults (result : Value ι → Except SerializeError Json) (position : Nat)
    (vs : List (Value ι)) : List (Except SerializeError Json) :=
  (vs.zipIdx position).map fun (v, i) => atPlace s!"[{i}]" v (result v)

theorem itemResults_cons (result : Value ι → Except SerializeError Json) (position : Nat)
    (v : Value ι) (vs : List (Value ι)) :
    itemResults result position (v :: vs)
      = atPlace s!"[{position}]" v (result v) :: itemResults result (position + 1) vs := by
  simp only [itemResults, List.zipIdx_cons, List.map_cons]

/-- Whether a result says that a value cannot be serialized. -/
def isUnserializable : Except SerializeError Json → Bool
  | .ok _ => false
  | .error e => e.isUnserializable

/-- Of the results of the items a sequence keeps all or, if it is lenient, those that do not say that
the item cannot be serialized. -/
def keptResults (options : Options ι) (results : List (Except SerializeError Json)) :
    List (Except SerializeError Json) :=
  results.filter fun result => options.isStrictCollections || !isUnserializable result

theorem isUnserializable_eq_false_of_mem {options : Options ι}
    (lenient : options.isStrictCollections = false) {results : List (Except SerializeError Json)}
    {result : Except SerializeError Json} (kept : result ∈ keptResults options results) :
    isUnserializable result = false := by
  have keeps := (List.mem_filter.mp kept).2
  rw [lenient, Bool.false_or, Bool.not_eq_true'] at keeps
  exact keeps

/-- One more result is kept in front of the others, or left out. -/
theorem mapM_keptResults_cons (result : Except SerializeError Json)
    (results : List (Except SerializeError Json)) :
    (keptResults scope.options (result :: results)).mapM id
      = (itemOutcome scope result).outcome >>= fun item =>
          (item.toList ++ ·) <$> (keptResults scope.options results).mapM id := by
  have ofMap : ∀ {x : Except SerializeError (List Json)} {j : Json},
      (x >>= fun js => pure (j :: js)) = ([j] ++ ·) <$> x := by
    intro x j
    cases x <;> rfl
  have ofNone : ∀ {x : Except SerializeError (List Json)}, ([] ++ ·) <$> x = x := by
    intro x
    cases x <;> rfl
  cases result with
  | ok j =>
    have kept : keptResults scope.options (.ok j :: results)
        = .ok j :: keptResults scope.options results :=
      List.filter_cons_of_pos (by simp only [isUnserializable, Bool.not_false, Bool.or_true])
    rw [kept, List.mapM_cons]
    exact ofMap
  | error e =>
    have keeps : (scope.options.isStrictCollections || !isUnserializable (.error e))
        = !(e.isUnserializable && !scope.options.isStrictCollections) := by
      rw [isUnserializable, Bool.not_and, Bool.not_not, Bool.or_comm]
    by_cases left : (e.isUnserializable && !scope.options.isStrictCollections) = true
    · have dropped : keptResults scope.options (.error e :: results)
          = keptResults scope.options results := by
        apply List.filter_cons_of_neg
        rw [keeps, left]
        exact Bool.false_ne_true
      rw [dropped, itemOutcome, if_pos left]
      exact ofNone.symm
    · have kept : keptResults scope.options (.error e :: results)
          = .error e :: keptResults scope.options results := by
        apply List.filter_cons_of_pos
        rw [keeps, Bool.eq_false_iff.mpr left]
        rfl
      rw [kept, List.mapM_cons, itemOutcome, if_neg left]
      rfl

/-- What comes of the items of a sequence from a position on: the results that they have anywhere else,
if all that are kept are there, or the first failure among these. -/
theorem items_outcome (place : String) (position : Nat) (vs : List (Value ι)) :
    (items g enter scope position vs).outcome =
      (keptResults scope.options
        (itemResults (fun v => (value g enter place scope v).outcome) position vs)).mapM id := by
  induction vs generalizing position with
  | nil => rfl
  | cons v rest ih =>
    rw [itemResults_cons, mapM_keptResults_cons, ← ih, ← value_outcome_atPlace, items]
    have attempted : ((value g enter s!"[{position}]" scope v).attempt >>= itemOutcome scope).outcome
        = (itemOutcome scope (value g enter s!"[{position}]" scope v).outcome).outcome := by
      rw [Run.outcome_bind]
      rfl
    rw [← attempted, ← bind_assoc, Run.outcome_bind]
    congr 1
    funext item
    rw [← Run.outcome_map]
    rfl

/-- A failure among results that are put together is one of them. -/
theorem mem_of_mapM_eq_error {results : List (Except SerializeError Json)} {e : SerializeError}
    (h : results.mapM id = .error e) : .error e ∈ results := by
  induction results with
  | nil => cases h
  | cons result results ih =>
    rw [List.mapM_cons] at h
    cases result with
    | error first =>
      cases h
      exact List.mem_cons_self
    | ok j =>
      apply List.mem_cons_of_mem
      apply ih
      cases others : results.mapM id with
      | error other =>
        rw [others] at h
        cases h
        rfl
      | ok js =>
        rw [others] at h
        cases h

/-! ## Entities one by one -/

/-- A strict sequence goes on with what comes of an item and fails where the item does. -/
theorem attempt_itemOutcome_of_strict (strict : scope.options.isStrictCollections) (x : Run Json) :
    x.attempt >>= itemOutcome scope = some <$> x := by
  obtain ⟨events, outcome⟩ := x
  cases outcome with
  | ok j => rfl
  | error e =>
    have ends : itemOutcome scope (.error e) = Run.fail e := by
      rw [itemOutcome, strict, Bool.not_true, Bool.and_false, if_neg Bool.false_ne_true]
    show Run.mk (events ++ (itemOutcome scope (.error e)).events) _ = _
    rw [ends]
    exact congrArg (Run.mk · _) (List.append_nil events)

end Traversal

namespace Serializer

variable {s : Serializer ι}

open Traversal

/-- Entities in a strict sequence that no converter takes are serialized one after the other. -/
theorem items_entities (strict : s.options.isStrictCollections)
    (unmatched : ∀ c ∈ s.options.typeConverters, c.matcher ≠ .kind .entity) (position : Nat)
    (ids : List ι) :
    items s.graph (entity s.graph s.hops) (.root s.options) position (ids.map .entity)
      = s.serializeAll ids := by
  induction ids generalizing position with
  | nil => rfl
  | cons id ids ih =>
    have unconverted : (Scope.root s.options).options.convertByType? none (.entity id) = none :=
      Options.convertByType?_of_isNested rfl unmatched none
    have entered : value s.graph (entity s.graph s.hops) s!"[{position}]" (.root s.options) (.entity id)
        = s.serialize id := by
      simp only [value, converted, unconverted]
      rfl
    rw [List.map_cons, items, entered, ih, ← bind_assoc, attempt_itemOutcome_of_strict strict,
      bind_map_left]
    rfl

/-- A sequence that no converter takes comes to the array of what its items come to, each serialized
for itself, or fails with the first failure among them. A lenient sequence leaves out the items that
cannot be serialized and never fails for one; a strict one leaves out nothing. An item that cannot be
worked out fails at its position where it fails at the root by itself. A strict sequence of entities
that no converter takes is serialized as the entities are one by one. -/
theorem serializeValue_seq (s : Serializer ι)
    (unmatched : ∀ c ∈ s.options.typeConverters, c.matcher ≠ .kind .seq) :
    (∀ vs, (s.serializeValue (.seq vs)).outcome =
      Json.arr <$> (keptResults s.options
        (itemResults (fun v => (s.serializeValue v).outcome) 0 vs)).mapM id) ∧
    (∀ v cause, v.resolve = .error cause →
      (s.serializeValue v).outcome = .error (.unreadable "<root>" cause)) ∧
    (s.options.isStrictCollections = false → ∀ vs typeName,
      (s.serializeValue (.seq vs)).outcome ≠ .error (.unserializable typeName)) ∧
    (s.options.isStrictCollections → (∀ c ∈ s.options.typeConverters, c.matcher ≠ .kind .entity) →
      ∀ ids, s.serializeValue (.seq (ids.map .entity)) = Json.arr <$> s.serializeAll ids) := by
  have entered : ∀ vs, s.serializeValue (.seq vs) =
      Json.arr <$> items s.graph (entity s.graph s.hops) (.root s.options) 0 vs := by
    intro vs
    have unconverted : (Scope.root s.options).options.convertByType? none (.seq vs) = none :=
      Options.convertByType?_of_isNested rfl unmatched none
    simp only [serializeValue, value, converted, unconverted]
  have outcome : ∀ vs, (s.serializeValue (.seq vs)).outcome =
      Json.arr <$> (keptResults s.options
        (itemResults (fun v => (s.serializeValue v).outcome) 0 vs)).mapM id := by
    intro vs
    rw [entered, Run.outcome_map, items_outcome "<root>"]
    rfl
  refine ⟨outcome, ?_, ?_, ?_⟩
  · intro v cause h
    exact value_outcome_of_resolve_eq_error h "<root>"
  · intro lenient vs typeName fails
    rw [outcome] at fails
    cases results : (keptResults s.options
        (itemResults (fun v => (s.serializeValue v).outcome) 0 vs)).mapM id with
    | ok js =>
      rw [results] at fails
      cases fails
    | error e =>
      rw [results] at fails
      cases fails
      cases isUnserializable_eq_false_of_mem lenient (mem_of_mapM_eq_error results)
  · intro strict unmatchedEntity ids
    rw [entered, items_entities strict unmatchedEntity]

/-- An item that a strict sequence fails for is left out of a lenient one, unless it fails for another
cause; entities one by one are what a strict sequence makes of them. -/
theorem serializeValue_seq_lenient_strict :
    ∃ (g : Graph Bool) (lenient strict : Options Bool) (vs : List (Value Bool)),
      vs = [.entity true, .foreign "Tag" .null, .deferred "late" (.ok (.entity true)), .entity false,
        .deferred "late" (.error "offline")] ∧
      (∀ c ∈ lenient.typeConverters, c.matcher ≠ .kind .seq) ∧
      (∀ c ∈ strict.typeConverters, c.matcher ≠ .kind .seq) ∧
      lenient.isStrictCollections = false ∧ strict.isStrictCollections = true ∧
      (∀ c ∈ strict.typeConverters, c.matcher ≠ .kind .entity) ∧
      ((⟨g, lenient⟩ : Serializer Bool).serializeValue (.seq (vs.take 4))).outcome
        = .ok (.arr [.obj [("on", .str "yes")], .obj [("on", .str "yes")]]) ∧
      ((⟨g, lenient⟩ : Serializer Bool).serializeValue (.seq vs)).outcome
        = .error (.unreadable "[4]" "offline") ∧
      ((⟨g, strict⟩ : Serializer Bool).serializeValue (.seq vs)).outcome
        = .error (.unserializable "Tag") ∧
      (⟨g, strict⟩ : Serializer Bool).serializeValue (.seq ([true, false].map .entity))
        = Json.arr <$> (⟨g, strict⟩ : Serializer Bool).serializeAll [true, false] := by
  let g : Graph Bool := ⟨fun good => {
    typeName := "Lamp"
    fieldNames := ["on"]
    read := fun _ => .ok (if good then .scalar (.bool true) else .foreign "Switch" .null) }⟩
  let yes : TypeConverter Bool := .forKind .bool ⟨"yes", fun _ => .ok (.str "yes")⟩
  let lenient : Options Bool := { typeConverters := [yes], maxDepth := some 1 }
  let strict : Options Bool := { lenient with strictCollections := some true }
  have unmatched : ∀ kind, kind ≠ .bool → ∀ c ∈ [yes], c.matcher ≠ .kind kind := by
    intro kind other c mem same
    rw [List.mem_singleton.mp mem] at same
    cases same
    exact other rfl
  have sequences := unmatched .seq nofun
  have lenientLaw := serializeValue_seq ⟨g, lenient⟩ sequences
  have strictLaw := serializeValue_seq ⟨g, strict⟩ sequences
  have entities := strictLaw.2.2.2 rfl (unmatched .entity nofun) [true, false]
  exact ⟨g, lenient, strict, _, rfl, sequences, sequences, rfl, rfl, unmatched .entity nofun,
    lenientLaw.1 _, lenientLaw.1 _, strictLaw.1 _, entities⟩

end Serializer

end EntityJson
