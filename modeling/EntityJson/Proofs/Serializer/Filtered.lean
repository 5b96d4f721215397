import EntityJson.Proofs.Schema.Agreement
import EntityJson.Proofs.Schema.Layers
import EntityJson.Serializer.Basic

/-!
# Filtering a value

What the caller's rules make of a value in which no entity is reached can be said without scopes: the
schema of the rules is carried down the value, descended at each key of a map and left as it is at the
items of a sequence, and a key counts if the schema at that place includes it (`Value.filtered`).

Serializing does the same (`Serializer.serializeValue_eq_filtered`), though it makes a schema anew at
each map, hands down options without rules and looks at the depth on the way. What carries the proof
is that the schema a scope gives to a map answers as the one that has been carried down
(`Scope.Filters`).
-/

namespace EntityJson

variable {ι : Type}

/-! ## The filter -/

namespace Value

mutual

/-- The JSON form of a value of which the schema shows a part. A value that is neither a map nor a
sequence has its own form or none. -/
def filtered (g : Graph ι) (o : Options ι) (s : Schema) : Value ι → Except SerializeError Json
  | .map es => Json.obj <$> filteredEntries g o s es
  | .seq vs => Json.arr <$> filteredItems g o s vs
  | v => (o.convertBuiltin? v).getD (.error (.unserializable (v.typeName g.typeName)))

/-- The entries whose keys are included, each filtered by the schema below its key. -/
def filteredEntries (g : Graph ι) (o : Options ι) (s : Schema) :
    List (String × Value ι) → Except SerializeError (List (String × Json))
  | [] => .ok []
  | (key, v) :: rest =>
    if s.isIncluded key then do
      let j ← filtered g o (s.descend key) v
      let js ← filteredEntries g o s rest
      return (key, j) :: js
    else filteredEntries g o s rest

/-- The items, all filtered by one schema. One that cannot be serialized is left out unless the
options are strict about it. -/
def filteredItems (g : Graph ι) (o : Options ι) (s : Schema) :
    List (Value ι) → Except SerializeError (List Json)
  | [] => .ok []
  | v :: rest =>
    match filtered g o s v with
    | .ok j => (j :: ·) <$> filteredItems g o s rest
    | .error e =>
      if e.isUnserializable && !o.isStrictCollections then filteredItems g o s rest else .error e

end

end Value

/-! ## Runs without events -/

namespace Run

variable {α β : Type}

theorem ofExcept_map (f : α → β) (x : Except SerializeError α) :
    ofExcept (f <$> x) = f <$> ofExcept x := by
  cases x <;> rfl

theorem attempt_ofExcept (x : Except SerializeError α) : (ofExcept x).attempt = pure x := rfl

end Run

/-! ## Options that only format -/

namespace Options

/-- Options without converters and without values to drop. -/
structure PlainUndropped (o : Options ι) : Prop where
  typeConverters : o.typeConverters = []
  attributeConverters : o.attributeConverters = []
  dropValues : o.dropValues = none

theorem plainUndropped_forNested {o : Options ι} : o.forNested.PlainUndropped ↔ o.PlainUndropped :=
  ⟨fun ⟨types, attributes, drops⟩ => ⟨types, attributes, drops⟩,
    fun ⟨types, attributes, drops⟩ => ⟨types, attributes, drops⟩⟩

/-- Rules and keys have no part in the form of a value. -/
theorem convertBuiltin?_forNested (o : Options ι) (v : Value ι) :
    o.forNested.convertBuiltin? v = o.convertBuiltin? v := by
  have formats : o.forNested.formats = o.formats := rfl
  exact convertBuiltin?_congr formats rfl v

namespace PlainUndropped

variable {o : Options ι}

/-- Values have their built-in forms and no others. -/
theorem convertByType? (plain : o.PlainUndropped) (name : Option String) (v : Value ι) :
    o.convertByType? name v = (o.convertBuiltin? v).map Run.ofExcept :=
  convertByType?_of_nil plain.typeConverters name v

theorem convertByName? (plain : o.PlainUndropped) (name : String) (v : Value ι) :
    o.convertByName? name v = (o.convertBuiltin? v).map Run.ofExcept :=
  convertByName?_of_nil plain.typeConverters plain.attributeConverters name v

/-- No form is dropped. -/
theorem drops (plain : o.PlainUndropped) (j : Json) : o.drops j = false := by
  unfold Options.drops
  rw [plain.dropValues]
  rfl

end PlainUndropped

end Options

/-! ## The schema carried down -/

/-- A scope through which a map is filtered by a schema, under options that have the form of
others. -/
structure Scope.Filters (scope : Scope ι) (o : Options ι) (s : Schema) : Prop where
  options : scope.options.forNested = o.forNested
  schema : ∃ t, scope.schema scope.options [] [] = .ok t ∧ t.Agrees s

/-- A frame in which the entries of a map are filtered by a schema. -/
structure Frame.Filters (frame : Frame ι) (o : Options ι) (s : Schema) : Prop where
  options : frame.options.forNested = o.forNested
  schema : frame.schema.Agrees s

/-- What is nested under a key is filtered by the schema below the key. -/
theorem Frame.Filters.under {frame : Frame ι} {o : Options ι} {s : Schema} (h : frame.Filters o s)
    (key : String) : (frame.under key).Filters o (s.descend key) := by
  refine ⟨h.options, ⟨_, rfl, ?_⟩⟩
  rw [h.schema.descend key]
  exact Schema.agrees_keepAll_merge (s.descend key)

namespace Traversal

variable {g : Graph ι} {enter : Scope ι → ι → Run Json}

/-- Options of a scope or a frame are plain if those are whose form they have. -/
theorem plainUndropped_of_forNested_eq {o o' : Options ι} (plain : o.PlainUndropped)
    (same : o'.forNested = o.forNested) : o'.PlainUndropped := by
  rw [← Options.plainUndropped_forNested, same]
  exact Options.plainUndropped_forNested.mpr plain

theorem convertBuiltin?_of_forNested_eq {o o' : Options ι} (same : o'.forNested = o.forNested)
    (v : Value ι) : o'.convertBuiltin? v = o.convertBuiltin? v := by
  rw [← Options.convertBuiltin?_forNested o', same, Options.convertBuiltin?_forNested]

/-- Under plain options a value has its own form, or is entered. -/
theorem converted_eq {scope : Scope ι} {o : Options ι} (plain : o.PlainUndropped)
    (same : scope.options.forNested = o.forNested) (v : Value ι) (entered : Unit → Run Json) :
    converted scope v entered
      = ((o.convertBuiltin? v).map Run.ofExcept).getD (entered ()) := by
  unfold converted
  rw [(plainUndropped_of_forNested_eq plain same).convertByType?, convertBuiltin?_of_forNested_eq same]
  cases o.convertBuiltin? v <;> rfl

/-- What is neither a map nor a sequence nor an entity has its own form, or none. -/
theorem converted_unserializable {scope : Scope ι} {o : Options ι} (plain : o.PlainUndropped)
    (same : scope.options.forNested = o.forNested) (v : Value ι) :
    converted scope v (fun _ => unserializable g v)
      = Run.ofExcept ((o.convertBuiltin? v).getD
          (.error (.unserializable (v.typeName g.typeName)))) := by
  rw [converted_eq plain same]
  cases o.convertBuiltin? v <;> rfl

/-- A value under a name, in which no entity is reached, is serialized as in the scope under that name:
the depth limit leaves nothing out. -/
theorem named_eq_value {frame : Frame ι} (plain : frame.options.PlainUndropped) (place key : String)
    {v : Value ι} (plainValue : v.reachesEntity = false) :
    named g enter frame key v = some <$> value g enter place (frame.under key) v := by
  have uncut : frame.isCut g v = false := by
    unfold Frame.isCut
    rw [plainValue]
    split
    · exact Bool.and_false _
    · rfl
  have under : ∀ entered : Unit → Run Json,
      convertedUnder g frame key v entered = some <$> converted (frame.under key) v entered := by
    intro entered
    rw [converted_eq plain (o := frame.options) rfl]
    unfold convertedUnder
    rw [plain.convertByName?, uncut]
    cases frame.options.convertBuiltin? v <;> rfl
  cases v with
  | deferred label outcome => cases plainValue
  | map es => exact under _
  | seq vs => exact under _
  | entity id => cases plainValue
  | scalar x => exact under _
  | member t n v => exact under _
  | foreign t p => exact under _

/-- A map entered through a scope is what its entries are in a frame that filters as the scope
does. -/
theorem mapIn_eq {scope : Scope ι} {o : Options ι} {s : Schema} (filters : scope.Filters o s)
    {body : Frame ι → Run (List (String × Json))}
    {result : Except SerializeError (List (String × Json))}
    (h : ∀ frame : Frame ι, frame.Filters o s → body frame = Run.ofExcept result) :
    mapIn scope body = Run.ofExcept (Json.obj <$> result) := by
  obtain ⟨t, entered, agrees⟩ := filters.schema
  unfold mapIn Scope.enter
  rw [entered]
  show (Json.obj <$> body ⟨t, scope.options, scope.depth⟩ : Run Json) = _
  rw [h _ ⟨filters.options, agrees⟩, Run.ofExcept_map]

mutual

/-- A value in which no entity is reached is filtered in every scope that filters. -/
theorem value_eq_filtered {scope : Scope ι} {o : Options ι} {s : Schema} (plain : o.PlainUndropped)
    (filters : scope.Filters o s) (place : String) :
    (v : Value ι) → v.reachesEntity = false →
      value g enter place scope v = Run.ofExcept (v.filtered g o s)
  | .map es, h => by
    rw [value, converted_eq plain filters.options, Value.filtered]
    exact mapIn_eq filters fun frame filters => entries_eq_filtered plain filters es h
  | .seq vs, h => by
    rw [value, converted_eq plain filters.options, Value.filtered, Run.ofExcept_map]
    exact congrArg (Json.arr <$> ·) (items_eq_filtered plain filters 0 vs h)
  | .scalar x, _ => by
    rw [value, converted_unserializable plain filters.options]
    rfl
  | .member t n v, _ => by
    rw [value, converted_unserializable plain filters.options]
    rfl
  | .foreign t p, _ => by
    rw [value, converted_unserializable plain filters.options]
    rfl

/-- The entries of a map are filtered in every frame that filters. -/
theorem entries_eq_filtered {frame : Frame ι} {o : Options ι} {s : Schema} (plain : o.PlainUndropped)
    (filters : frame.Filters o s) :
    (es : List (String × Value ι)) → Value.reachesEntity.anyEntry es = false →
      entries g enter frame es = Run.ofExcept (Value.filteredEntries g o s es)
  | [], _ => rfl
  | (key, v) :: rest, h => by
    obtain ⟨here, others⟩ := Bool.or_eq_false_iff.mp h
    have framePlain := plainUndropped_of_forNested_eq plain filters.options
    rw [entries, Value.filteredEntries, filters.schema.isIncluded key]
    by_cases included : s.isIncluded key
    · rw [if_pos included, if_pos included, named_eq_value framePlain key key here,
        value_eq_filtered plain (filters.under key) key v here,
        entries_eq_filtered plain filters rest others]
      cases v.filtered g o (s.descend key) with
      | error e => rfl
      | ok j =>
        have kept : ∀ js, withEntry frame.options key (some j) js = (key, j) :: js := fun js =>
          if_neg (by rw [framePlain.drops j]; exact Bool.false_ne_true)
        cases Value.filteredEntries g o s rest with
        | error e => rfl
        | ok js => exact congrArg (fun js => Run.ofExcept (.ok js)) (kept js)
    · rw [if_neg included, if_neg included]
      exact entries_eq_filtered plain filters rest others

/-- The items of a sequence are filtered in every scope that filters. -/
theorem items_eq_filtered {scope : Scope ι} {o : Options ι} {s : Schema} (plain : o.PlainUndropped)
    (filters : scope.Filters o s) (position : Nat) :
    (vs : List (Value ι)) → Value.reachesEntity.anyItem vs = false →
      items g enter scope position vs = Run.ofExcept (Value.filteredItems g o s vs)
  | [], _ => rfl
  | v :: rest, h => by
    obtain ⟨here, others⟩ := Bool.or_eq_false_iff.mp h
    have strict : scope.options.isStrictCollections = o.isStrictCollections := by
      show scope.options.forNested.isStrictCollections = o.forNested.isStrictCollections
      rw [filters.options]
    rw [items, Value.filteredItems, value_eq_filtered plain filters _ v here,
      items_eq_filtered plain filters (position + 1) rest others, Run.attempt_ofExcept]
    cases v.filtered g o s with
    | ok j => cases Value.filteredItems g o s rest <;> rfl
    | error e =>
      have outcome : itemOutcome scope (.error e)
          = if e.isUnserializable && !o.isStrictCollections then pure none else Run.fail e := by
        rw [← strict]
        rfl
      show (itemOutcome scope (.error e) >>= _) = Run.ofExcept (if _ then _ else _)
      rw [outcome]
      by_cases forgiven : e.isUnserializable && !o.isStrictCollections
      · rw [if_pos forgiven, if_pos forgiven]
        cases Value.filteredItems g o s rest <;> rfl
      · rw [if_neg forgiven, if_neg forgiven]
        rfl

end

end Traversal

/-- A value in which no entity is reached is filtered by the schema of the caller's rules, under any
limit of depth and any formats: the serialization succeeds with the same JSON or fails for the same
cause, and has no events. -/
theorem Serializer.serializeValue_eq_filtered (g : Graph ι) (o : Options ι) (plain : o.PlainUndropped)
    {exact additive : List Rule} (ho : Rule.parseAll o.only = .ok exact)
    (hr : Rule.parseAll o.rules = .ok additive) :
    ∃ s, Schema.layered [] [] o.only o.rules = .ok s ∧
      ∀ v : Value ι, v.reachesEntity = false →
        (⟨g, o⟩ : Serializer ι).serializeValue v = Run.ofExcept (v.filtered g o s) := by
  have empty : Rule.parseAll [] = .ok [] := rfl
  have layered := Schema.layered_of_parseAll empty empty ho hr
  refine ⟨_, layered, fun v h => ?_⟩
  have filters : (Scope.root o).Filters o _ := ⟨rfl, _, layered, Schema.Agrees.refl _⟩
  exact Traversal.value_eq_filtered plain filters "<root>" v h

/-- Below a limit of depth maps are filtered all the same, and so are the maps of a sequence. -/
theorem Serializer.serializeValue_eq_filtered_below_limit :
    ∃ (o : Options Empty) (exact additive : List Rule) (v : Value Empty),
      o.maxDepth = some 0 ∧ o.PlainUndropped ∧ Rule.parseAll o.only = .ok exact ∧
        Rule.parseAll o.rules = .ok additive ∧ v.reachesEntity = false ∧
        (⟨⟨nofun⟩, o⟩ : Serializer Empty).serializeValue v
          = pure (.obj [("a", .arr [.obj [("c", .obj [("y", .null)])]])]) := by
  let o : Options Empty := { only := ["a.c", "d"], rules := ["-a.c.x"], maxDepth := some 0 }
  let inner : Value Empty := .map [("x", .scalar .null), ("y", .scalar .null)]
  let v : Value Empty :=
    .map [("a", .seq [.map [("b", .scalar .null), ("c", inner)], .foreign "Handle" .null])]
  let exact : List Rule :=
    [⟨.keep, ["a", "c"], nofun, by decide⟩, ⟨.keep, ["d"], nofun, by decide⟩]
  let additive : List Rule := [⟨.drop, ["a", "c", "x"], nofun, by decide⟩]
  have plain : o.PlainUndropped := ⟨rfl, rfl, rfl⟩
  have ho : Rule.parseAll o.only = .ok exact := rfl
  have hr : Rule.parseAll o.rules = .ok additive := rfl
  obtain ⟨s, layered, filters⟩ := serializeValue_eq_filtered ⟨nofun⟩ o plain ho hr
  refine ⟨o, exact, additive, v, rfl, plain, ho, hr, rfl, (filters v rfl).trans ?_⟩
  rw [Schema.layered_exact_of_parseAll (List.cons_ne_nil _ _) ho hr] at layered
  cases layered
  have shown : v.filtered ⟨nofun⟩ o ⟨RuleTree.strict.applyAll (exact ++ additive)⟩
      = .ok (.obj [("a", .arr [.obj [("c", .obj [("y", .null)])]])]) := rfl
  exact congrArg Run.ofExcept shown

end EntityJson
