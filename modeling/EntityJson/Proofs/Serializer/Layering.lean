import EntityJson.Proofs.Serializer.Mirror

/-!
# Options along a chain of entities

Each entity that is entered lays the options it is entered with over those that it declares, and hands
the outcome down without rules and keys. Layering and stripping take turns, so the options of an entity
come from the caller and from all entities around it. They can be read off the list of these options at
once (`Options.Layered`): what may be set is what the first of them sets that sets it, and converters
are kept in the order of the list. Explicit keys are the exception, since they stop where the first key
leads on (`Serializer.options_of_chain`).

One step of the traversal adds at most the options of one entity at the end of the list
(`Call.Makes.layered`), which carries the law along every chain of calls. The rules among the options
that an entity declares have no part in any of this, and what they are changes no serialization
(`Graph.mirror_ruled`).
-/

namespace EntityJson

variable {ι : Type}

/-! ## Options layered from a list -/

/-- Options that a list of options comes to: of what may be set they have what the first of the list
sets that sets it, of converters for types all of them, and of converters for an attribute that of the
first of the list that has one. -/
structure Options.Layered (os : List (Options ι)) (o : Options ι) : Prop where
  timeZone : o.timeZone = os.findSome? (·.timeZone)
  date : o.formats.date = os.findSome? (·.formats.date)
  time : o.formats.time = os.findSome? (·.formats.time)
  dateTime : o.formats.dateTime = os.findSome? (·.formats.dateTime)
  decimal : o.formats.decimal = os.findSome? (·.formats.decimal)
  includeProperties : o.includeProperties = os.findSome? (·.includeProperties)
  maxDepth : o.maxDepth = os.findSome? (·.maxDepth)
  dropValues : o.dropValues = os.findSome? (·.dropValues)
  strictCollections : o.strictCollections = os.findSome? (·.strictCollections)
  typeConverters : o.typeConverters = os.flatMap (·.typeConverters)
  attributeConverter? : ∀ name,
    o.attributeConverter? name = os.findSome? (·.attributeConverter? name)

namespace Options

variable {os : List (Options ι)} {o : Options ι}

/-- What the first of a list sets, or else the one behind it. -/
theorem findSome?_concat {α : Type} (os : List (Options ι)) (f : Options ι → Option α)
    (declared : Options ι) : (os ++ [declared]).findSome? f = (os.findSome? f).or (f declared) := by
  rw [List.findSome?_append]
  cases h : f declared <;> simp [h]

/-- Options by themselves. -/
theorem layered_singleton (o : Options ι) : Layered [o] o := by
  have single : ∀ {α : Type} (f : Options ι → Option α), f o = [o].findSome? f := by
    intro α f
    exact (findSome?_concat [] f o).symm
  constructor
  case typeConverters => simp
  case attributeConverter? =>
    intro name
    apply single
  all_goals apply single

/-- Options laid over declared ones come to the list with these behind it. -/
theorem Layered.layer (h : Layered os o) (declared : Options ι) :
    Layered (os ++ [declared]) (o.layer declared) where
  timeZone := by rw [findSome?_concat, ← h.timeZone]; rfl
  date := by rw [findSome?_concat, ← h.date]; rfl
  time := by rw [findSome?_concat, ← h.time]; rfl
  dateTime := by rw [findSome?_concat, ← h.dateTime]; rfl
  decimal := by rw [findSome?_concat, ← h.decimal]; rfl
  includeProperties := by rw [findSome?_concat, ← h.includeProperties]; rfl
  maxDepth := by rw [findSome?_concat, ← h.maxDepth]; rfl
  dropValues := by rw [findSome?_concat, ← h.dropValues]; rfl
  strictCollections := by rw [findSome?_concat, ← h.strictCollections]; rfl
  typeConverters := by
    simp only [List.flatMap_append, List.flatMap_singleton, ← h.typeConverters]
    rfl
  attributeConverter? := by
    intro name
    rw [findSome?_concat, ← h.attributeConverter? name]
    exact List.lookup_append

/-- What is handed down comes to the same list. -/
theorem Layered.forNested (h : Layered os o) : Layered os o.forNested :=
  ⟨h.timeZone, h.date, h.time, h.dateTime, h.decimal, h.includeProperties, h.maxDepth, h.dropValues,
    h.strictCollections, h.typeConverters, h.attributeConverter?⟩

end Options

/-! ## Chains of entities -/

namespace Call

variable {g : Graph ι} {o : Options ι} {start c c' : Call ι} {os : List (Options ι)}
  {ids : List ι} {path : List String}

/-- The options of the scope or the frame of a call. -/
def options : Call ι → Options ι
  | .shared scope _ | .entered scope _ => scope.options
  | .named frame _ _ => frame.options

/-- The entity that a step from one call to another leaves by one of its attributes. -/
def leaves : Call ι → Call ι → List ι
  | .entered _ (.entity id), .named _ _ _ => [id]
  | _, _ => []

/-- The calls that come of a call, with the entities that lead to them through their attributes, the
outermost first, and with the keys of attributes and maps on the way. -/
inductive Chain (g : Graph ι) (start : Call ι) : List ι → List String → Call ι → Prop where
  | start : Chain g start [] [] start
  | next {ids : List ι} {path : List String} {c c' : Call ι} :
      Chain g start ids path c → Makes g c c' →
      Chain g start (ids ++ c.leaves c') (path ++ c.keys c') c'

/-- A step adds the options of the entity that it leaves. -/
theorem Makes.layered (makes : Makes g c c') (h : c.options.Layered os) :
    c'.options.Layered (os ++ (c.leaves c').map fun id => (g.entity id).options) := by
  cases makes with
  | read entered _ _ _ =>
    have options := (Scope.of_enter_eq_pure entered).1
    simp only [Call.options, leaves, options]
    exact h.layer _
  | entry entered _ _ =>
    have options := (Scope.of_enter_eq_pure entered).1
    simp only [Call.options, leaves, options, List.map_nil, List.append_nil]
    exact h
  | named _ _ _ =>
    simp only [leaves, List.map_nil, List.append_nil]
    exact h.forNested
  | sharedDeferred | shared _ _ | namedDeferred | item _ =>
    simp only [leaves, List.map_nil, List.append_nil]
    exact h

theorem IsRoot.options_eq (root : IsRoot o start) : start.options = o := by
  cases root <;> rfl

/-- The options of a call come to those of the caller and of the entities that lead to it. -/
theorem Chain.layered (chain : Chain g start ids path c) (root : IsRoot o start) :
    c.options.Layered (o :: ids.map fun id => (g.entity id).options) := by
  induction chain with
  | start =>
    rw [root.options_eq]
    exact Options.layered_singleton o
  | next _ makes ih =>
    have next := makes.layered ih
    simpa using next

/-- Where explicit keys hold: the caller's as long as no key has led on, and none further down. -/
def KeysLeft (o : Options ι) (path : List String) : Call ι → Prop
  | .shared scope _ | .entered scope _ => scope.options.keys = if path = [] then o.keys else none
  | .named _ _ _ => True

theorem Chain.keysLeft (chain : Chain g start ids path c) (root : IsRoot o start) :
    c.KeysLeft o path := by
  induction chain with
  | start => cases root <;> rfl
  | next _ makes ih =>
    cases makes with
    | named _ _ _ => simp [KeysLeft, keys, Frame.under, Options.forNested]
    | read _ _ _ _ | entry _ _ _ | namedDeferred => trivial
    | sharedDeferred | shared _ _ | item _ => simpa [KeysLeft, keys] using ih

/-- Every call that comes of another is at the end of a chain. -/
theorem handedOn_chain : HandedOn g fun c => ∃ ids path, Chain g start ids path c := by
  rintro c c' makes ⟨ids, path, chain⟩
  exact ⟨_, _, chain.next makes⟩

end Call

/-! ## Rules among declared options -/

/-- Entering a map or an entity gives one frame, or fails. -/
theorem Scope.paired_enter (scope : Scope ι) (o : Options ι) (exact additive : List String) :
    Run.Paired Eq (scope.enter o exact additive) (scope.enter o exact additive) := by
  rcases scope.enter_cases o exact additive with ⟨schema, entered⟩ | ⟨e, failed⟩
  · rw [entered]
    exact .ok rfl
  · rw [failed]
    exact .fail _

/-- The graph whose entities have other rules among the options that they declare. -/
def Graph.ruled (g : Graph ι) (only rules : ι → List String) : Graph ι where
  entity id :=
    let e := g.entity id
    { e with options := { e.options with only := only id, rules := rules id } }

/-- The traversal does not look at rules among declared options. -/
theorem Graph.mirror_ruled (g : Graph ι) (only rules : ι → List String) :
    Mirror (g.ruled only rules) g Eq Eq where
  typeName _ := rfl
  read _ := rfl
  byType := by rintro s _ rfl; rfl
  strict := by rintro s _ rfl; rfl
  enterMap := by rintro s _ rfl; exact s.paired_enter _ _ _
  enterEntity := by rintro s _ rfl id; exact s.paired_enter _ _ _
  included := by rintro f _ rfl; rfl
  names := by rintro f _ rfl id; rfl
  byName := by rintro f _ rfl; rfl
  cut := by
    rintro f _ rfl
    funext v
    cases v <;> rfl
  drops := by rintro f _ rfl; rfl
  under := by rintro f _ rfl name; rfl

/-! ## What is entered -/

namespace Traversal

open Classical in
/-- Serializes an entity as `entity` does, but does something else where a property does not hold of the
call that enters one. -/
noncomputable def entityWhere (g : Graph ι) (P : Call ι → Prop) (beyond : Scope ι → ι → Run Json) :
    Nat → Scope ι → ι → Run Json
  | 0, _, _ => Run.fail .nesting
  | hops + 1, scope, id =>
    if P (.entered scope (.entity id)) then entityWith g (entityWhere g P beyond hops) scope id
    else beyond scope id

variable {g : Graph ι} {P : Call ι → Prop}

/-- Where the property is handed on from call to call, nothing else is ever done. -/
theorem entity_eq_entityWhere (handedOn : Call.HandedOn g P) (beyond : Scope ι → ι → Run Json)
    (hops : Nat) {scope : Scope ι} {id : ι} (h : P (.entered scope (.entity id))) :
    entityWhere g P beyond hops scope id = entity g hops scope id := by
  induction hops generalizing scope id with
  | zero => rfl
  | succ hops ih =>
    rw [entityWhere, if_pos h]
    apply entityWith_congr handedOn
    · intro scope id h
      exact ih h
    · intro c makes
      exact handedOn makes h

theorem value_eq_entityWhere (handedOn : Call.HandedOn g P) (beyond : Scope ι → ι → Run Json)
    (hops : Nat) {scope : Scope ι} {v : Value ι} (h : P (.shared scope v)) (place : String) :
    value g (entityWhere g P beyond hops) place scope v = value g (entity g hops) place scope v := by
  apply value_congr handedOn _ v h
  intro scope id h
  exact entity_eq_entityWhere handedOn beyond hops h

end Traversal

open Traversal

/-- The options under which the attributes of an entity are converted, in terms of the caller's options
and of those that the entities declare on the chain that leads to it:

1. they come to the list of all these, the caller's first, the entity's own last; and the explicit keys
   are the caller's, or else the entity's own, if no key of an attribute or a map leads to the entity,
   that is at the root and in sequences at the root, and the entity's own anywhere else;
2. all entities are entered along such chains: the run is the same whatever would be done elsewhere;
3. the rules among the declared options change no run. -/
theorem Serializer.options_of_chain (g : Graph ι) (o : Options ι) :
    (∀ start ids path scope id frame, Call.IsRoot o start →
      Call.Chain g start ids path (.entered scope (.entity id)) →
      scope.enterEntity g id = pure frame →
        frame.options.Layered (o :: (ids ++ [id]).map fun id => (g.entity id).options) ∧
        frame.options.keys = if path = [] then o.keys.or (g.entity id).options.keys
          else (g.entity id).options.keys) ∧
    (∀ beyond,
      (∀ id, entityWhere g
          (fun c => ∃ ids path, Call.Chain g (.entered (.root o) (.entity id)) ids path c) beyond
          (⟨g, o⟩ : Serializer ι).hops (.root o) id
        = (⟨g, o⟩ : Serializer ι).serialize id) ∧
      ∀ v, value g (entityWhere g
          (fun c => ∃ ids path, Call.Chain g (.shared (.root o) v) ids path c) beyond
          (⟨g, o⟩ : Serializer ι).hops) "<root>" (.root o) v
        = (⟨g, o⟩ : Serializer ι).serializeValue v) ∧
    ∀ only rules,
      (∀ id, (⟨g.ruled only rules, o⟩ : Serializer ι).serialize id
        = (⟨g, o⟩ : Serializer ι).serialize id) ∧
      ∀ v, (⟨g.ruled only rules, o⟩ : Serializer ι).serializeValue v
        = (⟨g, o⟩ : Serializer ι).serializeValue v := by
  refine ⟨?_, ?_, ?_⟩
  · intro start ids path scope id frame root chain entered
    have above : scope.options.Layered (o :: ids.map fun id => (g.entity id).options) :=
      chain.layered root
    have keys : scope.options.keys = if path = [] then o.keys else none := chain.keysLeft root
    rw [(Scope.of_enter_eq_pure entered).1]
    constructor
    · simpa using above.layer (g.entity id).options
    · show scope.options.keys.or _ = _
      rw [keys]
      split <;> simp
  · intro beyond
    constructor
    · intro id
      exact entity_eq_entityWhere Call.handedOn_chain beyond _ ⟨[], [], .start⟩
    · intro v
      exact value_eq_entityWhere Call.handedOn_chain beyond _ ⟨[], [], .start⟩ "<root>"
  · intro only rules
    have mirror := g.mirror_ruled only rules
    have entities : ∀ hops, entity (g.ruled only rules) hops = entity g hops := by
      intro hops
      funext scope id
      exact entity_mirror mirror hops rfl id
    constructor
    · intro id
      exact entity_mirror mirror _ rfl id
    · intro v
      apply value_mirror mirror _ v rfl
      rintro s _ rfl id
      exact congrFun (congrFun (entities _) s) id

/-- An entity in a sequence in a map of another: a format of the outer one counts before its own, its
own keys hold in place of the caller's, and an exact rule that it declares as an option is not used. -/
theorem Serializer.options_of_chain_through_map :
    ∃ (g : Graph Bool) (o : Options Bool) (scope : Scope Bool) (frame : Frame Bool),
      (Call.entered (.root o) (.entity true)).IsRoot o ∧
      Call.Chain g (.entered (.root o) (.entity true)) [true] ["next", "x"]
        (.entered scope (.entity false)) ∧
      scope.enterEntity g false = pure frame ∧
      o.keys = some ["next"] ∧ (g.entity false).options.only = ["other"] ∧
      frame.options.formats.date = some "%Y" ∧ frame.options.formats.time = some "%H" ∧
      frame.options.maxDepth = some 5 ∧ frame.options.keys = some ["id"] ∧
      ((⟨g, o⟩ : Serializer Bool).serialize true).outcome
        = .ok (.obj [("next", .obj [("x", .arr [.obj [("id", .null)]])])]) := by
  let outer : Entity Bool := {
    typeName := "Outer"
    fieldNames := ["id", "next"]
    options := { formats := { date := some "%Y" }, keys := some ["id"], maxDepth := some 7 }
    read := fun _ => .ok (.map [("x", .seq [.entity false])]) }
  let inner : Entity Bool := {
    typeName := "Inner"
    fieldNames := ["id", "other"]
    options := {
      only := ["other"]
      formats := { date := some "%d", time := some "%H" }
      keys := some ["id"] }
    read := fun _ => .ok (.scalar .null) }
  let g : Graph Bool := ⟨fun id => if id then outer else inner⟩
  let o : Options Bool := { keys := some ["next"], maxDepth := some 5 }
  let first : Frame Bool := ⟨.keepAll, o.layer outer.options, 0⟩
  let second : Frame Bool := ⟨.keepAll, first.options.forNested, 1⟩
  let scope : Scope Bool := second.under "x"
  let frame : Frame Bool := ⟨.keepAll, scope.options.layer inner.options, 2⟩
  have root : (Call.entered (.root o) (.entity true)).IsRoot o := .entity true
  have entered : scope.enterEntity g false = pure frame := rfl
  have toMap : Call.Chain g (.entered (.root o) (.entity true)) [true] ["next"]
      (.entered (first.under "next") (.map [("x", .seq [.entity false])])) :=
    (Call.Chain.start.next (.read rfl (List.mem_singleton_self _) rfl rfl)).next (.named rfl rfl rfl)
  have entry : Call.Makes g (.entered (first.under "next") (.map [("x", .seq [.entity false])]))
      (.named second "x" (.seq [.entity false])) :=
    .entry rfl (List.mem_singleton_self _) rfl
  have chain : Call.Chain g (.entered (.root o) (.entity true)) [true] ["next", "x"]
      (.entered scope (.entity false)) :=
    (((toMap.next entry).next (.named rfl rfl rfl)).next (.item (List.mem_singleton_self _))).next
      (.shared rfl rfl)
  obtain ⟨layered, keys⟩ := (options_of_chain g o).1 _ _ _ _ _ _ root chain entered
  exact ⟨g, o, scope, frame, root, chain, entered, rfl, rfl, layered.date, layered.time,
    layered.maxDepth, keys, rfl⟩

end EntityJson
