import EntityJson.Proofs.Schema.Nested
import EntityJson.Proofs.Serializer.Gathered
import EntityJson.Proofs.Serializer.Mirror

/-!
# The root and what is nested

At the root the rules of the options lie over those that an entity declares; below it nothing is left
of the options' rules, and a schema that comes from above is laid over the declared ones instead. Where
these two ways give schemas that are the same inside, whatever is declared, the scopes are alike
(`Scope.Alike`), and everything in them is serialized alike, with the same events
(`Traversal.mirror_alike`): the depth is never looked at without a limit.

The place under the only key of a map is such a scope, beside the root under rules from which the key
has been taken away (`Scope.alike_root_under`, `Scope.alike_root_under_exact`). So a map of one entry
comes to what its value comes to at the root (`Serializer.serializeValue_singleton_iff`).
-/

namespace EntityJson

variable {ι : Type}

/-! ## Options -/

namespace Options

/-- Options that differ in their rules at most and set no limit of depth. -/
structure Alike (o o' : Options ι) : Prop where
  nested : o.forNested = o'.forNested
  keys : o.keys = o'.keys
  unlimited : o.maxDepth = none

variable {o o' : Options ι}

theorem Alike.unlimited_right (h : o.Alike o') : o'.maxDepth = none :=
  (congrArg Options.maxDepth h.nested).symm.trans h.unlimited

theorem Alike.layer (h : o.Alike o') {declared : Options ι} (unlimited : declared.maxDepth = none) :
    (o.layer declared).Alike (o'.layer declared) where
  nested := congrArg (fun o => (o.layer declared).forNested) h.nested
  keys := by
    show o.keys.or declared.keys = o'.keys.or declared.keys
    rw [h.keys]
  unlimited := by
    show o.maxDepth.or declared.maxDepth = none
    rw [h.unlimited, unlimited]
    rfl

theorem Alike.convertByType? (h : o.Alike o') : o.convertByType? = o'.convertByType? := by
  funext name v
  have types : o.typeConverters = o'.typeConverters := congrArg (fun o => o.typeConverters) h.nested
  have formats : o.formats = o'.formats := congrArg (fun o => o.formats) h.nested
  have timeZone : o.timeZone = o'.timeZone := congrArg (fun o => o.timeZone) h.nested
  exact convertByType?_congr types formats timeZone name v

theorem Alike.convertByName? (h : o.Alike o') : o.convertByName? = o'.convertByName? := by
  funext name v
  have attributes : o.attributeConverter? name = o'.attributeConverter? name :=
    congrArg (fun o => o.attributeConverter? name) h.nested
  rw [Options.convertByName?, Options.convertByName?, h.convertByType?, attributes]

end Options

/-! ## Scopes and frames -/

/-- Two scopes with options alike in which every declaration leads to schemas that are the same inside,
or else to the same failure to read it. -/
structure Scope.Alike (s s' : Scope ι) : Prop where
  options : s.options.Alike s'.options
  schema : ∃ laid laid' : Schema → Schema,
    (∀ exact additive, s.schema s.options exact additive
      = (Schema.layered exact additive [] []).map laid) ∧
    (∀ exact additive, s'.schema s'.options exact additive
      = (Schema.layered exact additive [] []).map laid') ∧
    ∀ t, (laid t).tree.SameInside (laid' t).tree

/-- Two frames with options alike and schemas that are the same inside. -/
structure Frame.Alike (f f' : Frame ι) : Prop where
  options : f.options.Alike f'.options
  schema : f.schema.tree.SameInside f'.schema.tree

/-- Declared options have no part in the schema. -/
theorem Scope.schema_layer (s : Scope ι) (o declared : Options ι) (exact additive : List String) :
    s.schema (o.layer declared) exact additive = s.schema o exact additive := by
  obtain ⟨inherited, options, depth⟩ := s
  cases inherited <;> rfl

/-- Scopes that are alike are entered into frames that are alike. -/
theorem Scope.Alike.paired_enter {s s' : Scope ι} (h : s.Alike s') {o o' : Options ι}
    (alike : o.Alike o') {exact additive : List String}
    (same : s.schema o exact additive = s.schema s.options exact additive)
    (same' : s'.schema o' exact additive = s'.schema s'.options exact additive) :
    Run.Paired Frame.Alike (s.enter o exact additive) (s'.enter o' exact additive) := by
  obtain ⟨laid, laid', schema, schema', inside⟩ := h.schema
  rw [Scope.enter, Scope.enter, same, same', schema, schema']
  cases Schema.layered exact additive [] [] with
  | error e => exact .fail (.rule e)
  | ok t => exact .ok ⟨alike, inside t⟩

/-- What is nested under a name in frames that are alike. -/
theorem Frame.Alike.under {f f' : Frame ι} (h : f.Alike f') (name : String) :
    (f.under name).Alike (f'.under name) := by
  have descended := (Schema.agrees_of_sameInside h.schema).descend name
  refine ⟨⟨?_, rfl, h.options.unlimited⟩, (·.merge (f.schema.descend name)),
    (·.merge (f'.schema.descend name)), fun _ _ => rfl, fun _ _ => rfl, fun t => ?_⟩
  · exact congrArg Options.forNested h.options.nested
  · rw [descended]
    exact .refl _

namespace Traversal

variable {g : Graph ι}

/-- Without a limit nothing is cut. -/
theorem isCut_eq_false (undeclared : ∀ id, (g.entity id).options.maxDepth = none) {f : Frame ι}
    (unlimited : f.options.maxDepth = none) (v : Value ι) : f.isCut g v = false := by
  have declared : g.declaredMaxDepth v = none := by
    cases v with
    | entity id => exact undeclared id
    | _ => rfl
  rw [Frame.isCut, unlimited, declared]
  rfl

/-- Where no entity declares a limit, scopes and frames that are alike cannot be told apart. -/
theorem mirror_alike (undeclared : ∀ id, (g.entity id).options.maxDepth = none) :
    Mirror g g Scope.Alike Frame.Alike where
  typeName _ := rfl
  read _ := rfl
  byType h := by rw [h.options.convertByType?]
  strict h := congrArg (fun o => o.isStrictCollections) h.options.nested
  enterMap h := h.paired_enter h.options rfl rfl
  enterEntity := by
    intro s s' h id
    exact h.paired_enter (h.options.layer (undeclared id)) (s.schema_layer _ _ _ _)
      (s'.schema_layer _ _ _ _)
  included := by
    intro f f' h
    exact funext (Schema.agrees_of_sameInside h.schema).isIncluded
  names := by
    intro f f' h id
    have properties : f.options.includesProperties = f'.options.includesProperties :=
      congrArg (fun o => o.includesProperties) h.options.nested
    rw [attributeNames, attributeNames, h.options.keys, properties,
      Schema.topLevelKeys_of_sameInside h.schema]
  byName h := h.options.convertByName?
  cut := by
    intro f f' h
    funext v
    rw [isCut_eq_false undeclared h.options.unlimited,
      isCut_eq_false undeclared h.options.unlimited_right]
  drops h := congrArg (fun o => o.drops) h.options.nested
  under h name := h.under name

end Traversal

/-! ## A map of one entry -/

/-- Options that do nothing to the entry of a map at the root: they set no keys, no limit of depth, no
values to drop and no converters for attributes, and no converter takes the map. -/
structure Options.Transparent (o : Options ι) : Prop where
  keys : o.keys = none
  maxDepth : o.maxDepth = none
  dropValues : o.dropValues = none
  attributeConverters : o.attributeConverters = []
  typeConverters : ∀ c ∈ o.typeConverters, c.matcher ≠ .kind .map

namespace Scope

variable {o : Options ι}

/-- Under the key of a map at the root, without rules. -/
theorem alike_root_under (transparent : o.Transparent) (only : o.only = []) (rules : o.rules = [])
    (name : String) :
    ((⟨.keepAll, o, 0⟩ : Frame ι).under name).Alike (.root o) := by
  refine ⟨⟨rfl, transparent.keys.symm, transparent.maxDepth⟩, (·.merge .keepAll), id,
    fun _ _ => rfl, ?_, ?_⟩
  · intro exact additive
    show Schema.layered exact additive o.only o.rules = _
    rw [only, rules]
    cases Schema.layered exact additive [] [] <;> rfl
  · intro t
    show (t.merge .keepAll).tree.SameInside t.tree
    rw [Schema.merge_of_keepAll]
    exact .refl _

/-- Under the key of a map at the root, where an exact list that is put under the key leads to what the
list itself leads to at the root. -/
theorem alike_root_under_exact (transparent : o.Transparent) (rules : o.rules = []) {name : String}
    {texts : List String} {exact : List Rule} (parsed : Rule.parseAll texts = .ok exact)
    (given : texts ≠ []) {s : Schema}
    (inside : (s.descend name).tree.SameInside (RuleTree.strict.applyAll exact))
    (moved : List String) :
    ((⟨s, { o with only := moved }, 0⟩ : Frame ι).under name).Alike
      (.root { o with only := texts }) := by
  have strict : (s.descend name).isGreedy = false :=
    inside.greedy.trans (RuleTree.root_applyAll RuleTree.strict exact).2.2
  refine ⟨⟨rfl, transparent.keys.symm, transparent.maxDepth⟩, (·.merge (s.descend name)),
    fun _ => ⟨RuleTree.strict.applyAll exact⟩, fun _ _ => rfl, ?_, ?_⟩
  · intro declaredExact declaredAdditive
    show Schema.layered declaredExact declaredAdditive texts o.rules = _
    rw [rules]
    exact Schema.layered_of_exact parsed given declaredExact declaredAdditive
  · intro t
    show (t.merge (s.descend name)).tree.SameInside _
    rw [Schema.merge, strict, if_neg Bool.false_ne_true]
    exact inside

end Scope

namespace Traversal

variable {g : Graph ι} {enter : Scope ι → ι → Run Json}

theorem toOption_map {α β : Type} (f : α → β) (x : Except SerializeError α) :
    (f <$> x).toOption = x.toOption.map f := by
  cases x <;> rfl

/-- A result that is another one with a function applied succeeds with the values of the function for
what that one succeeds with. -/
theorem ok_iff_of_toOption {x y : Except SerializeError Json} {f : Json → Json}
    (same : x.toOption = y.toOption.map f) (out : Json) :
    x = .ok out ↔ ∃ j, out = f j ∧ y = .ok j := by
  have succeeds : ∀ {x : Except SerializeError Json} {j : Json},
      x = .ok j ↔ x.toOption = some j := by
    intro x j
    cases x <;> simp [Except.toOption]
  rw [succeeds, same, Option.map_eq_some_iff]
  simp only [succeeds, and_comm, eq_comm]

/-- A converter answers the same whatever it is told of the name. -/
theorem toOption_run (c : TypeConverter ι) (name name' : Option String) (v : Value ι) :
    (c.run name v).outcome.toOption = (c.run name' v).outcome.toOption := by
  have asked : ∀ kind, (c.converter.run name kind v).outcome.toOption
      = (c.converter.run name' kind v).outcome.toOption := by
    intro kind
    rw [Converter.run, Converter.run, Run.outcome_bind, Run.outcome_bind]
    cases c.converter.convert v <;> rfl
  rw [TypeConverter.run, TypeConverter.run]
  cases c.matcher with
  | kind _ => exact asked (some v.kind)
  | foreign _ => exact asked none

/-- Where the name has no converter and nothing is cut, a value succeeds under the name as in the scope
under it. -/
theorem toOption_convertedUnder {f : Frame ι} (attributes : f.options.attributeConverters = [])
    (uncut : ∀ v, f.isCut g v = false) (name : String) (v : Value ι) (entered : Unit → Run Json) :
    (convertedUnder g f name v entered).outcome.toOption
      = (converted (f.under name) v entered).outcome.toOption.map some := by
  have byName : f.options.convertByName? name v = f.options.convertByType? (some name) v :=
    Options.convertByName?_eq_convertByType? attributes name v
  have builtin : (f.under name).options.convertBuiltin? v = f.options.convertBuiltin? v := by
    have formats : (f.under name).options.formats = f.options.formats := rfl
    exact Options.convertBuiltin?_congr formats rfl v
  have types : (f.under name).options.typeConverter? v = f.options.typeConverter? v := rfl
  simp only [convertedUnder, converted, byName, Options.convertByType?, builtin, types, uncut]
  cases f.options.typeConverter? v with
  | some c =>
    show (some <$> c.run (some name) v).outcome.toOption = (c.run none v).outcome.toOption.map some
    rw [Run.outcome_map, toOption_map, toOption_run]
  | none =>
    cases f.options.convertBuiltin? v with
    | some outcome =>
      show (some <$> Run.ofExcept outcome).outcome.toOption = outcome.toOption.map some
      rw [Run.outcome_map, toOption_map]
      rfl
    | none =>
      show (some <$> entered ()).outcome.toOption = (entered ()).outcome.toOption.map some
      rw [Run.outcome_map, toOption_map]

theorem toOption_named {f : Frame ι} (attributes : f.options.attributeConverters = [])
    (uncut : ∀ v, f.isCut g v = false) (name place : String) : (v : Value ι) →
    (named g enter f name v).outcome.toOption
      = (value g enter place (f.under name) v).outcome.toOption.map some
  | .deferred label (.ok v) => by
    simp only [named, value, Run.outcome_bind]
    exact toOption_named attributes uncut name place v
  | .deferred label (.error cause) => rfl
  | .map _ | .seq _ | .entity _ | .scalar _ | .member _ _ _ | .foreign _ _ => by
    simp only [named, value]
    exact toOption_convertedUnder attributes uncut name _ _

end Traversal

namespace Serializer

open Traversal

variable {g : Graph ι} {o o' : Options ι}

/-- A map at the root of which the options' schema includes the only key has an object with what comes of
the value under the key. -/
theorem serializeValue_singleton (transparent : o.Transparent) {name : String} {s : Schema}
    (schema : Schema.layered [] [] o.only o.rules = .ok s) (included : s.isIncluded name)
    (v : Value ι) :
    (⟨g, o⟩ : Serializer ι).serializeValue (.map [(name, v)])
      = (fun j? => .obj (withEntry o name j? [])) <$>
          named g (entity g (⟨g, o⟩ : Serializer ι).hops) ⟨s, o, 0⟩ name v := by
  let frame : Frame ι := ⟨s, o, 0⟩
  let enter := entity g (⟨g, o⟩ : Serializer ι).hops
  have unconverted : (Scope.root o).options.convertByType? none (.map [(name, v)]) = none :=
    Options.convertByType?_of_isNested rfl transparent.typeConverters none
  have entered : (Scope.root o).enter o [] [] = pure frame := by
    show Run.ofExcept ((Schema.layered [] [] o.only o.rules).mapError .rule) >>= _ = _
    rw [schema]
    rfl
  have entry : entries g enter frame [(name, v)]
      = (fun j? => withEntry o name j? []) <$> named g enter frame name v := by
    simp only [entries, frame, included, if_true]
    rfl
  show converted (.root o) (.map [(name, v)])
    (fun _ => mapIn (.root o) fun frame => entries g enter frame [(name, v)]) = _
  simp only [converted, unconverted]
  show ((Scope.root o).enter o [] [] >>= fun frame =>
    Json.obj <$> entries g enter frame [(name, v)]) = _
  rw [entered, pure_bind, entry, Functor.map_map]

/-- In a scope that is like a root a value is serialized as at the root. -/
theorem value_eq_serializeValue (undeclared : ∀ id, (g.entity id).options.maxDepth = none)
    {scope : Scope ι} (alike : scope.Alike (.root o)) (unlimited : o'.maxDepth = none)
    (v : Value ι) :
    value g (entity g (⟨g, o'⟩ : Serializer ι).hops) "<root>" scope v
      = (⟨g, o⟩ : Serializer ι).serializeValue v := by
  have hops : (⟨g, o'⟩ : Serializer ι).hops = (⟨g, o⟩ : Serializer ι).hops := by
    simp only [Serializer.hops, unlimited, show o.maxDepth = none from alike.options.unlimited_right]
  have mirror := mirror_alike undeclared
  rw [hops]
  apply value_mirror mirror _ v alike
  intro s s' pair id
  exact entity_mirror mirror _ pair id

/-- A map of one entry that the schema of the options includes succeeds as the value of the entry does at
a root that is like the place under its key. -/
theorem toOption_serializeValue_singleton (transparent : o.Transparent)
    (undeclared : ∀ id, (g.entity id).options.maxDepth = none) {name : String} {s : Schema}
    (schema : Schema.layered [] [] o.only o.rules = .ok s) (included : s.isIncluded name)
    (alike : ((⟨s, o, 0⟩ : Frame ι).under name).Alike (.root o')) (v : Value ι) :
    ((⟨g, o⟩ : Serializer ι).serializeValue (.map [(name, v)])).outcome.toOption
      = ((⟨g, o'⟩ : Serializer ι).serializeValue v).outcome.toOption.map
          fun j => .obj [(name, j)] := by
  have uncut : ∀ v, (⟨s, o, 0⟩ : Frame ι).isCut g v = false :=
    isCut_eq_false undeclared transparent.maxDepth
  have kept : ∀ j, o.drops j = false := by
    intro j
    rw [Options.drops, transparent.dropValues]
    rfl
  rw [serializeValue_singleton transparent schema included, Run.outcome_map, toOption_map,
    toOption_named transparent.attributeConverters uncut name "<root>",
    value_eq_serializeValue undeclared alike transparent.maxDepth, Option.map_map]
  congr 1
  funext j
  simp only [Function.comp, withEntry, kept, Bool.false_eq_true, if_false]

/-- A map of one entry succeeds with the object of its key and what its value comes to by itself, and
with nothing else, under options that do nothing to the entry and without limits of depth:

1. without rules, whatever the key is;
2. with any exact list for the value of which a rule keeps something, if the list is put under the key
   for the map, where the key is a segment of a rule. -/
theorem serializeValue_singleton_iff (g : Graph ι) (o : Options ι) (transparent : o.Transparent)
    (only : o.only = []) (rules : o.rules = [])
    (undeclared : ∀ id, (g.entity id).options.maxDepth = none) (name : String) (v : Value ι) :
    (∀ out, ((⟨g, o⟩ : Serializer ι).serializeValue (.map [(name, v)])).outcome = .ok out ↔
      ∃ j, out = .obj [(name, j)] ∧ ((⟨g, o⟩ : Serializer ι).serializeValue v).outcome = .ok j) ∧
    ((∃ r, Rule.parse name = .ok r ∧ r.polarity = .keep ∧ r.segments = [name]) →
      ∀ texts exact, Rule.parseAll texts = .ok exact → (∃ r ∈ exact, r.polarity = .keep) → ∀ out,
        ((⟨g, { o with only := texts.map (Rule.textUnder name) }⟩ : Serializer ι).serializeValue
            (.map [(name, v)])).outcome = .ok out ↔
          ∃ j, out = .obj [(name, j)] ∧
            ((⟨g, { o with only := texts }⟩ : Serializer ι).serializeValue v).outcome = .ok j) := by
  constructor
  · apply ok_iff_of_toOption
    apply toOption_serializeValue_singleton transparent undeclared
    · rw [only, rules]
      rfl
    · rfl
    · exact Scope.alike_root_under transparent only rules name
  · rintro ⟨r, -, -, segments⟩ texts exact parsed keeps
    have segment : IsSegment name.toList := by
      apply r.isSegment
      rw [segments]
      exact List.mem_singleton_self name
    have given : texts ≠ [] := by
      rintro rfl
      cases parsed
      obtain ⟨r, mem, -⟩ := keeps
      cases mem
    obtain ⟨s, schema, included, inside⟩ := Schema.exists_layered_textUnder segment parsed keeps
    have transparent' : { o with only := texts.map (Rule.textUnder name) : Options ι }.Transparent :=
      ⟨transparent.keys, transparent.maxDepth, transparent.dropValues, transparent.attributeConverters,
        transparent.typeConverters⟩
    apply ok_iff_of_toOption
    apply toOption_serializeValue_singleton transparent' undeclared
    · show Schema.layered [] [] (texts.map (Rule.textUnder name)) o.rules = _
      rw [rules]
      exact schema
    · exact included
    · exact Scope.alike_root_under_exact transparent rules parsed given inside _

/-- A sequence of a map and an entity that declares a list of its own and refers to another: the list of
the caller replaces it at the root and, put under a key, below the key. -/
theorem serializeValue_singleton_iff_over_declared :
    ∃ (g : Graph Bool) (o : Options Bool) (v : Value Bool),
      o.Transparent ∧ o.only = [] ∧ o.rules = [] ∧
      (∀ id, (g.entity id).options.maxDepth = none) ∧ (g.entity true).exactRules = ["id"] ∧
      v = .seq [.map [("id", .scalar .null), ("note", .scalar .null)], .entity true] ∧
      (∃ r, Rule.parse "books" = .ok r ∧ r.polarity = .keep ∧ r.segments = ["books"]) ∧
      ["note", "-author.id", "author.note"].map (Rule.textUnder "books")
        = ["books.note", "-books.author.id", "books.author.note"] ∧
      ((⟨g, { o with only := ["note", "-author.id", "author.note"] }⟩ : Serializer Bool).serializeValue
          v).outcome
        = .ok (.arr [.obj [("note", .null)],
            .obj [("note", .str "none"), ("author", .obj [("note", .str "none")])]]) ∧
      ((⟨g, { o with only := ["books.note", "-books.author.id", "books.author.note"] }⟩ :
          Serializer Bool).serializeValue (.map [("books", v)])).outcome
        = .ok (.obj [("books", .arr [.obj [("note", .null)],
            .obj [("note", .str "none"), ("author", .obj [("note", .str "none")])]])]) ∧
      ((⟨g, o⟩ : Serializer Bool).serializeValue (.map [("books", v)])).outcome
        = .ok (.obj [("books", .arr [.obj [("id", .null), ("note", .null)],
            .obj [("id", .str "none")]])]) := by
  let blank : TypeConverter Bool := .forKind .null ⟨"blank", fun _ => .ok (.str "none")⟩
  let g : Graph Bool := ⟨fun outer => {
    typeName := "Book"
    fieldNames := ["id", "note"]
    exactRules := ["id"]
    options := { typeConverters := [blank] }
    read := fun name => .ok (if outer && name = "author" then .entity false else .scalar .null) }⟩
  let o : Options Bool := {}
  let v : Value Bool := .seq [.map [("id", .scalar .null), ("note", .scalar .null)], .entity true]
  have transparent : o.Transparent := ⟨rfl, rfl, rfl, rfl, nofun⟩
  have key : ∃ r, Rule.parse "books" = .ok r ∧ r.polarity = .keep ∧ r.segments = ["books"] :=
    ⟨_, rfl, rfl, rfl⟩
  -- two entities are entered, so the number of those that may be is not worked out
  have atRoot : ∀ only result,
      (∀ more, (value g (entity g (more + 2)) "<root>" (.root { o with only := only }) v).outcome
        = .ok result) →
      ((⟨g, { o with only := only }⟩ : Serializer Bool).serializeValue v).outcome = .ok result := by
    intro only result evaluated
    have hops : (⟨g, { o with only := only }⟩ : Serializer Bool).hops = 999998 + 2 := rfl
    rw [serializeValue, hops]
    exact evaluated 999998
  obtain ⟨plain, exact⟩ := serializeValue_singleton_iff g o transparent rfl rfl (fun _ => rfl) "books" v
  have ruled := exact key ["note", "-author.id", "author.note"] _ rfl ⟨_, List.mem_cons_self, rfl⟩
  have byRules := atRoot ["note", "-author.id", "author.note"] _ fun _ => rfl
  have byNone := atRoot [] _ fun _ => rfl
  exact ⟨g, o, v, transparent, rfl, rfl, fun _ => rfl, rfl, rfl, key, rfl, byRules,
    (ruled _).mpr ⟨_, rfl, byRules⟩, (plain _).mpr ⟨_, rfl, byNone⟩⟩

end Serializer

end EntityJson
