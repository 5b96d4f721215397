import EntityJson.Proofs.Serializer.Filtered
import EntityJson.Proofs.Serializer.Lockstep

/-!
# Values that are dropped

The traversal leaves out the members whose value is to be dropped while it goes along: in the loop over
the attributes of an entity, in the loop over the entries of a map, and each time after the value has
been made, so that an object may become a value to be dropped only when its own members are gone.

Without converters this is the same as to serialize everything and to remove the members afterwards,
from the inside out (`Serializer.dropped_eq_prune`). Side by side the two runs never part: no value is
looked at again once it has been made, so a member that is still there on one side changes nothing else.
A converter of the caller's is the exception, since what it gives has members of its own that the
traversal does not go through.
-/

namespace EntityJson

/-! ## Members of JSON values -/

namespace Json

/-- An object at any level of a JSON value has a key with a value. -/
inductive HasMember : Json → String → Json → Prop where
  | here {ms : List (String × Json)} {key : String} {value : Json} :
      (key, value) ∈ ms → HasMember (.obj ms) key value
  | ofMember {ms : List (String × Json)} {other : String} {j : Json} {key : String} {value : Json} :
      (other, j) ∈ ms → HasMember j key value → HasMember (.obj ms) key value
  | ofItem {items : List Json} {j : Json} {key : String} {value : Json} :
      j ∈ items → HasMember j key value → HasMember (.arr items) key value

variable {drops : Json → Bool}

mutual

/-- What is left of a JSON value has no member that is to be dropped. -/
theorem not_drops_of_hasMember_prune {key : String} {value : Json} :
    (j : Json) → (j.prune drops).HasMember key value → drops value = false
  | arr items, .ofItem mem inner => not_drops_of_mem_pruneItems items mem inner
  | obj ms, .here mem => (not_drops_of_mem_pruneMembers ms mem).1
  | obj ms, .ofMember mem inner => (not_drops_of_mem_pruneMembers ms mem).2 inner
  | null, h | bool _, h | int _, h | float _, h | str _, h => nomatch h
termination_by structural j => j

/-- In the items of a sequence, as above. -/
theorem not_drops_of_mem_pruneItems {key : String} {value j : Json} :
    (items : List Json) → j ∈ prune.pruneItems drops items → j.HasMember key value →
      drops value = false
  | item :: items, mem, inner => by
    rcases List.mem_cons.mp mem with rfl | mem
    · exact not_drops_of_hasMember_prune item inner
    · exact not_drops_of_mem_pruneItems items mem inner
termination_by structural items => items

theorem not_drops_of_mem_pruneMembers {other : String} {j : Json} :
    (ms : List (String × Json)) → (other, j) ∈ prune.pruneMembers drops ms →
      drops j = false ∧ ∀ {key value}, j.HasMember key value → drops value = false
  | (name, x) :: ms, mem => by
    rw [prune.pruneMembers] at mem
    split at mem
    · exact not_drops_of_mem_pruneMembers ms mem
    next kept =>
      rcases List.mem_cons.mp mem with here | mem
      · cases here
        exact ⟨Bool.eq_false_iff.mpr kept, not_drops_of_hasMember_prune x⟩
      · exact not_drops_of_mem_pruneMembers ms mem
termination_by structural ms => ms

end

/-- Pruning a sequence prunes each of its items. -/
theorem pruneItems_of_forall₂ {xs ys : List Json}
    (h : List.Forall₂ (fun x y => x = y.prune drops) xs ys) : xs = prune.pruneItems drops ys := by
  induction h with
  | nil => rfl
  | cons same _ ih => rw [prune.pruneItems, ← same, ← ih]

end Json

/-- What a mapped outcome gives is made of what the outcome gives. -/
theorem exists_of_map_eq_ok {α β : Type} {x : Except SerializeError α} {f : α → β} {b : β}
    (h : x.map f = .ok b) : ∃ a, f a = b := by
  cases x with
  | ok a => exact ⟨a, Except.ok.inj h⟩
  | error e => cases h

variable {ι : Type}

/-! ## Built-in forms -/

/-- The form of a scalar has no members. -/
theorem Options.prune_of_convertScalar (drops : Json → Bool) (o : Options ι) {s : Scalar} {j : Json}
    (form : o.convertScalar s = .ok j) : j.prune drops = j := by
  have text : ∀ kind format write, convertScalar.written kind format write = .ok j →
      j.prune drops = j := by
    intro kind format write form
    unfold convertScalar.written at form
    split at form
    · cases form
      rfl
    · cases form
  cases s with
  | null | bool | int | uint | str | bytes | uuid =>
    cases form
    rfl
  | float x =>
    rw [convertScalar] at form
    split at form
    · cases form
      rfl
    · cases form
  | time t => exact text .time o.formats.timeFormat t.format? form
  | zonedDateTime x => exact text .dateTime o.formats.dateTimeFormat (x.format? · o.timeZone) form
  | dateTime x => exact text .dateTime o.formats.dateTimeFormat (x.format? · o.timeZone) form
  | date d => exact text .date o.formats.dateFormat d.format? form
  | decimal x => exact text .decimal o.formats.decimalFormat x.format? form

/-- The built-in form of a value has no members to be pruned. -/
theorem Options.prune_of_convertBuiltin? (drops : Json → Bool) (o : Options ι) {j : Json} :
    {v : Value ι} → o.convertBuiltin? v = some (.ok j) → j.prune drops = j
  | .scalar _, form => prune_of_convertScalar drops o (Option.some.inj form)
  | .member _ _ v, form => prune_of_convertBuiltin? drops o (v := v) form

/-! ## Options with values to drop and without -/

/-- The options with a list of values to drop. -/
def Options.dropping (o : Options ι) (values : List Json) : Options ι :=
  { o with dropValues := some values }

/-- Options without converters, once with values to drop and once with none. -/
inductive DropsDiffer (values : List Json) : Options ι → Options ι → Prop where
  | intro (o : Options ι) : o.typeConverters = [] → o.attributeConverters = [] →
      DropsDiffer values (o.dropping values) (o.dropping [])

variable {o : Options ι}

/-- Which values are dropped has no part in the form of a value. -/
theorem Options.convertBuiltin?_dropping (values : List Json) (v : Value ι) :
    (o.dropping values).convertBuiltin? v = o.convertBuiltin? v := by
  have formats : (o.dropping values).formats = o.formats := rfl
  exact convertBuiltin?_congr formats rfl v

theorem Options.convertByType?_dropping (types : o.typeConverters = []) (values : List Json)
    (name : Option String) (v : Value ι) :
    (o.dropping values).convertByType? name v = (o.convertBuiltin? v).map Run.ofExcept := by
  have types : (o.dropping values).typeConverters = [] := types
  rw [convertByType?_of_nil types, convertBuiltin?_dropping]

theorem Options.convertByName?_dropping (types : o.typeConverters = [])
    (attributes : o.attributeConverters = []) (values : List Json) (name : String) (v : Value ι) :
    (o.dropping values).convertByName? name v = (o.convertBuiltin? v).map Run.ofExcept := by
  have types : (o.dropping values).typeConverters = [] := types
  have attributes : (o.dropping values).attributeConverters = [] := attributes
  rw [convertByName?_of_nil types attributes, convertBuiltin?_dropping]

/-- A built-in form is the same on both sides, and nothing is removed from it. -/
theorem Options.convertBuiltin?_follows (drops : Json → Bool) (o : Options ι) (v : Value ι) :
    Option.Rel (Run.Follows False fun x y => x = y.prune drops)
      ((o.convertBuiltin? v).map Run.ofExcept) ((o.convertBuiltin? v).map Run.ofExcept) := by
  cases form : o.convertBuiltin? v with
  | none => exact .none
  | some result =>
    refine .some (Run.follows_self fun j same => ?_)
    have written : result = .ok j := same
    rw [written] at form
    exact (o.prune_of_convertBuiltin? drops form).symm

/-- Serializing with values to drop follows serializing without, with what is left as results. -/
theorem lockstep_of_dropping (g : Graph ι) (values : List Json)
    (declared : ∀ id, (g.entity id).options.typeConverters = [] ∧
      (g.entity id).options.attributeConverters = []) :
    Lockstep g False (DropsDiffer values)
      (fun x y => x = y.prune fun j => values.any (·.eq j))
      (fun ms ns => ms = Json.prune.pruneMembers (fun j => values.any (·.eq j)) ns) where
  layer id h := by
    obtain ⟨o, types, attributes⟩ := h
    obtain ⟨types', attributes'⟩ := declared id
    refine .intro (o.layer (g.entity id).options) ?_ ?_
    · show o.typeConverters ++ _ = []
      rw [types, types']
      rfl
    · show o.attributeConverters ++ _ = []
      rw [attributes, attributes']
      rfl
  forNested h := by
    obtain ⟨o, types, attributes⟩ := h
    exact .intro o.forNested types attributes
  rules h := by
    cases h
    exact ⟨rfl, rfl⟩
  names h := by
    cases h
    exact ⟨rfl, rfl⟩
  byType h name v := by
    obtain ⟨o, types, -⟩ := h
    rw [Options.convertByType?_dropping types, Options.convertByType?_dropping types]
    exact o.convertBuiltin?_follows _ v
  byName h name v := by
    obtain ⟨o, types, attributes⟩ := h
    rw [Options.convertByName?_dropping types attributes,
      Options.convertByName?_dropping types attributes]
    exact o.convertBuiltin?_follows _ v
  cut along v := by
    have limit := along.options
    left
    unfold Frame.isCut
    rw [along.depth]
    generalize Frame.options _ = o at limit ⊢
    generalize Frame.options _ = o' at limit ⊢
    cases limit
    rfl
  strict h := by
    cases h
    exact ⟨rfl, nofun⟩
  array items := congrArg Json.arr (Json.pruneItems_of_forall₂ items)
  object members := congrArg Json.obj members
  nil := rfl
  entry h name a b kept ms ns rest := by
    obtain ⟨o, -, -⟩ := h
    cases a with
    | some a =>
      cases b with
      | some b =>
        have same : a = b.prune fun j => values.any (·.eq j) := kept
        have all : Traversal.withEntry (o.dropping []) name (some b) ns = (name, b) :: ns := rfl
        rw [all, Json.prune.pruneMembers, ← same, ← rest]
        rfl
      | none => exact False.elim kept
    | none =>
      cases b with
      | some b => exact False.elim kept
      | none => exact rest

/-- Without converters, serializing with values to drop gives what serializing everything gives, with
the members removed from the inside out whose value is one of them. Both fail for the same cause, and
no member with such a value is left at any level. -/
theorem Serializer.dropped_eq_prune (g : Graph ι) (o : Options ι) (values : List Json)
    (types : o.typeConverters = []) (attributes : o.attributeConverters = [])
    (declared : ∀ id, (g.entity id).options.typeConverters = [] ∧
      (g.entity id).options.attributeConverters = []) :
    (∀ id, ((⟨g, { o with dropValues := some values }⟩ : Serializer ι).serialize id).outcome
      = ((⟨g, { o with dropValues := some [] }⟩ : Serializer ι).serialize id).outcome.map
          (Json.prune fun j => values.any (·.eq j))) ∧
    (∀ v, ((⟨g, { o with dropValues := some values }⟩ : Serializer ι).serializeValue v).outcome
      = ((⟨g, { o with dropValues := some [] }⟩ : Serializer ι).serializeValue v).outcome.map
          (Json.prune fun j => values.any (·.eq j))) ∧
    ∀ j,
      ((∃ id, ((⟨g, { o with dropValues := some values }⟩ : Serializer ι).serialize id).outcome
          = .ok j) ∨
        ∃ v, ((⟨g, { o with dropValues := some values }⟩ : Serializer ι).serializeValue v).outcome
          = .ok j) →
      ∀ key x, j.HasMember key x → ∀ value ∈ values, value.eq x = false := by
  have step := lockstep_of_dropping g values declared
  have roots : (Scope.root (o.dropping values)).Alongside (DropsDiffer values)
      (.root (o.dropping [])) := ⟨rfl, .intro o types attributes, rfl⟩
  have entities : ∀ id, ((⟨g, o.dropping values⟩ : Serializer ι).serialize id).outcome
      = ((⟨g, o.dropping []⟩ : Serializer ι).serialize id).outcome.map
          (Json.prune fun j => values.any (·.eq j)) :=
    fun id => (Traversal.entity_follows step _ roots id).outcome_eq
  have results : ∀ v, ((⟨g, o.dropping values⟩ : Serializer ι).serializeValue v).outcome
      = ((⟨g, o.dropping []⟩ : Serializer ι).serializeValue v).outcome.map
          (Json.prune fun j => values.any (·.eq j)) :=
    fun v => (Traversal.value_follows step
      (fun along => Traversal.entity_follows step _ along) v roots "<root>").outcome_eq
  refine ⟨entities, results, fun j made key x member value mem => ?_⟩
  have pruned : ∃ whole : Json, whole.prune (fun j => values.any (·.eq j)) = j := by
    rcases made with ⟨id, ok⟩ | ⟨v, ok⟩
    · exact exists_of_map_eq_ok ((entities id).symm.trans ok)
    · exact exists_of_map_eq_ok ((results v).symm.trans ok)
  obtain ⟨whole, rfl⟩ := pruned
  exact Bool.eq_false_iff.mpr
    (List.any_eq_false.mp (Json.not_drops_of_hasMember_prune whole member) value mem)

/-- An object that becomes empty by dropping is dropped in turn, though the entity declares other values
to drop, and items of a sequence stay. -/
theorem Serializer.dropped_eq_prune_of_emptied :
    ∃ (g : Graph Unit) (o : Options Unit) (values : List Json),
      o.typeConverters = [] ∧ o.attributeConverters = [] ∧
      (∀ id, (g.entity id).options.typeConverters = [] ∧
        (g.entity id).options.attributeConverters = []) ∧
      (g.entity ()).options.dropValues = some [.int 1] ∧ values = [.null, .obj []] ∧
      ((⟨g, { o with dropValues := some [] }⟩ : Serializer Unit).serialize ()).outcome
        = .ok (.obj [("a", .obj [("x", .null)]), ("b", .arr [.null, .obj [("x", .null)]]),
            ("c", .int 1)]) ∧
      ((⟨g, { o with dropValues := some values }⟩ : Serializer Unit).serialize ()).outcome
        = .ok (.obj [("b", .arr [.null, .obj []]), ("c", .int 1)]) := by
  let g : Graph Unit := ⟨fun _ => {
    typeName := "T"
    fieldNames := ["a", "b", "c"]
    options := { dropValues := some [.int 1] }
    read := fun name => .ok <|
      if name = "a" then .map [("x", .scalar .null)]
      else if name = "b" then .seq [.scalar .null, .map [("x", .scalar .null)]]
      else .scalar (.int 1) }⟩
  obtain ⟨entities, -, -⟩ := dropped_eq_prune g {} [.null, .obj []] rfl rfl fun _ => ⟨rfl, rfl⟩
  have whole : ((⟨g, { ({} : Options Unit) with dropValues := some [] }⟩ :
      Serializer Unit).serialize ()).outcome
        = .ok (.obj [("a", .obj [("x", .null)]), ("b", .arr [.null, .obj [("x", .null)]]),
            ("c", .int 1)]) := rfl
  refine ⟨g, {}, _, rfl, rfl, fun _ => ⟨rfl, rfl⟩, rfl, rfl, whole, (entities ()).trans ?_⟩
  rw [whole]
  rfl

end EntityJson
