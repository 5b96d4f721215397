import EntityJson.Attributes
import EntityJson.Schema
import EntityJson.Serializer.Builtin
import EntityJson.Serializer.Run

/-!
# The traversal of a graph

A value is serialized in a **scope**: the schema that it inherits, the options, and its depth. An
entity or a map that is entered through a scope resolves the schema and becomes a **frame**, in which
its attributes or entries are serialized. What is nested under a name gets a scope of its own, one
level deeper, with the schema descended by that name; the items of a sequence share its scope.

A value is first offered to the converters: that of its attribute, those of its type, and the built-in
forms. Only then is it entered. The depth limit leaves out what would lead to an entity below it, and
nothing else.

The traversal of a value follows its structure. It leaves the value only through an entity, so how an
entity is entered is a parameter, and `Traversal.entity` closes the circle: its first argument says
how many entities may still be entered, one within the other.
-/

namespace EntityJson

variable {ι : Type}

/-- What a value is entered with. At the root no schema is inherited, and the rules are those of the
options. -/
structure Scope (ι : Type) where
  inherited : Option Schema
  options : Options ι
  depth : Nat

/-- An entity or a map that has been entered. -/
structure Frame (ι : Type) where
  schema : Schema
  options : Options ι
  depth : Nat

namespace Scope

def root (options : Options ι) : Scope ι := ⟨none, options, 0⟩

/-- The schema of an entity or a map that declares rules. At the root the rules of the options lie
over them, below it the inherited schema does. -/
def schema (s : Scope ι) (options : Options ι) (exact additive : List String) :
    Except RuleError Schema :=
  match s.inherited with
  | none => Schema.layered exact additive options.only options.rules
  | some inherited => (Schema.layered exact additive [] []).map (·.merge inherited)

/-- Enters an entity or a map that declares rules. -/
def enter (s : Scope ι) (options : Options ι) (exact additive : List String) : Run (Frame ι) := do
  let schema ← Run.ofExcept ((s.schema options exact additive).mapError .rule)
  return ⟨schema, options, s.depth⟩

end Scope

namespace Frame

/-- Whether the depth limit leaves a value out: the limit of the options, or else the one that the
entity declares which the value is. -/
def isCut (f : Frame ι) (g : Graph ι) (v : Value ι) : Bool :=
  match f.options.maxDepth.or (g.declaredMaxDepth v) with
  | some limit => limit ≤ f.depth && v.reachesEntity
  | none => false

/-- The scope of what is nested under a name. -/
def under (f : Frame ι) (name : String) : Scope ι :=
  ⟨some (f.schema.descend name), f.options.forNested, f.depth + 1⟩

end Frame

/-- Asks a converter for a value. -/
def Converter.run (c : Converter ι) (name : Option String) (kind : Option Kind) (v : Value ι) :
    Run Json := do
  Run.event (.converted c.label kind)
  Run.ofExcept ((c.convert v).mapError (.conversion name))

/-- Asks a converter for a type. -/
def TypeConverter.run (c : TypeConverter ι) (name : Option String) (v : Value ι) : Run Json :=
  match c.matcher with
  | .kind _ => c.converter.run name (some v.kind) v
  | .foreign _ => c.converter.run name none v

namespace Options

/-- The JSON form of a value by the first converter for a type that takes it, or its built-in form. -/
def convertByType? (o : Options ι) (name : Option String) (v : Value ι) : Option (Run Json) :=
  match o.typeConverter? v with
  | some c => some (c.run name v)
  | none => (o.convertBuiltin? v).map Run.ofExcept

/-- The JSON form of the value of an attribute by the converter of the attribute, or by its type. -/
def convertByName? (o : Options ι) (name : String) (v : Value ι) : Option (Run Json) :=
  match o.attributeConverter? name with
  | some c => some (c.run (some name) (some v.kind) v)
  | none => o.convertByType? (some name) v

variable {o o' : Options ι}

/-- Options with the same converters, formats and time zone give values the same forms. -/
theorem convertByType?_congr (converters : o.typeConverters = o'.typeConverters)
    (formats : o.formats = o'.formats) (timeZone : o.timeZone = o'.timeZone) (name : Option String)
    (v : Value ι) : o.convertByType? name v = o'.convertByType? name v := by
  unfold convertByType? typeConverter?
  rw [converters, convertBuiltin?_congr formats timeZone]

theorem convertByName?_congr (named : o.attributeConverters = o'.attributeConverters)
    (converters : o.typeConverters = o'.typeConverters) (formats : o.formats = o'.formats)
    (timeZone : o.timeZone = o'.timeZone) (name : String) (v : Value ι) :
    o.convertByName? name v = o'.convertByName? name v := by
  unfold convertByName? attributeConverter?
  rw [named, convertByType?_congr converters formats timeZone]

/-- Without converters a value has its built-in form or none. -/
theorem convertByType?_of_nil (types : o.typeConverters = []) (name : Option String) (v : Value ι) :
    o.convertByType? name v = (o.convertBuiltin? v).map Run.ofExcept := by
  unfold convertByType? typeConverter?
  rw [types]
  rfl

/-- Without converters of attributes the value of an attribute has the form that its type gives it. -/
theorem convertByName?_eq_convertByType? (attributes : o.attributeConverters = []) (name : String)
    (v : Value ι) : o.convertByName? name v = o.convertByType? (some name) v := by
  unfold convertByName? attributeConverter?
  rw [attributes]
  rfl

theorem convertByName?_of_nil (types : o.typeConverters = []) (attributes : o.attributeConverters = [])
    (name : String) (v : Value ι) :
    o.convertByName? name v = (o.convertBuiltin? v).map Run.ofExcept := by
  rw [convertByName?_eq_convertByType? attributes, convertByType?_of_nil types]

end Options

namespace Traversal

/-- A value without a form of its own. -/
def unserializable (g : Graph ι) (v : Value ι) : Run Json :=
  Run.fail (.unserializable (v.typeName g.typeName))

/-- A value in a scope: converted by its type, or entered. -/
def converted (scope : Scope ι) (v : Value ι) (entered : Unit → Run Json) : Run Json :=
  match scope.options.convertByType? none v with
  | some run => run
  | none => entered ()

/-- A value under a name: converted, left out for its depth, or entered. -/
def convertedUnder (g : Graph ι) (frame : Frame ι) (name : String) (v : Value ι)
    (entered : Unit → Run Json) : Run (Option Json) :=
  match frame.options.convertByName? name v with
  | some run => some <$> run
  | none => if frame.isCut g v then pure none else some <$> entered ()

/-- An object made of what is serialized in the frame of a map. -/
def mapIn (scope : Scope ι) (body : Frame ι → Run (List (String × Json))) : Run Json := do
  let frame ← scope.enter scope.options [] []
  return .obj (← body frame)

/-- What becomes of an item of a sequence: in a lenient one an item that cannot be serialized is left
out. -/
def itemOutcome (scope : Scope ι) : Except SerializeError Json → Run (Option Json)
  | .ok j => pure (some j)
  | .error e =>
    if e.isUnserializable && !scope.options.isStrictCollections then pure none else Run.fail e

/-- The entries of an object with one more, unless that is missing or to be dropped. -/
def withEntry (options : Options ι) (name : String) (value : Option Json)
    (entries : List (String × Json)) : List (String × Json) :=
  match value with
  | some j => if options.drops j then entries else (name, j) :: entries
  | none => entries

mutual

/-- Serializes a value in a scope that it shares with its surroundings: the root, or an item of a
sequence. The place stands for the name of an attribute where a deferred value fails. -/
def value (g : Graph ι) (enter : Scope ι → ι → Run Json) (place : String) (scope : Scope ι) :
    Value ι → Run Json
  | .deferred label (.ok v) => do
    Run.event (.called label)
    value g enter place scope v
  | .deferred label (.error cause) => do
    Run.event (.called label)
    Run.fail (.unreadable place cause)
  | .map es => converted scope (.map es) fun _ => mapIn scope fun frame => entries g enter frame es
  | .seq vs => converted scope (.seq vs) fun _ => Json.arr <$> items g enter scope 0 vs
  | .entity id => converted scope (.entity id) fun _ => enter scope id
  | .scalar s => converted scope (.scalar s) fun _ => unserializable g (.scalar s)
  | .member t n v => converted scope (.member t n v) fun _ => unserializable g (.member t n v)
  | .foreign t p => converted scope (.foreign t p) fun _ => unserializable g (.foreign t p)

/-- Serializes the value under a name of a frame. -/
def named (g : Graph ι) (enter : Scope ι → ι → Run Json) (frame : Frame ι) (name : String) :
    Value ι → Run (Option Json)
  | .deferred label (.ok v) => do
    Run.event (.called label)
    named g enter frame name v
  | .deferred label (.error cause) => do
    Run.event (.called label)
    Run.fail (.unreadable name cause)
  | .map es => convertedUnder g frame name (.map es) fun _ =>
    mapIn (frame.under name) fun frame => entries g enter frame es
  | .seq vs => convertedUnder g frame name (.seq vs) fun _ =>
    Json.arr <$> items g enter (frame.under name) 0 vs
  | .entity id => convertedUnder g frame name (.entity id) fun _ => enter (frame.under name) id
  | .scalar s => convertedUnder g frame name (.scalar s) fun _ => unserializable g (.scalar s)
  | .member t n v => convertedUnder g frame name (.member t n v) fun _ =>
    unserializable g (.member t n v)
  | .foreign t p => convertedUnder g frame name (.foreign t p) fun _ =>
    unserializable g (.foreign t p)

/-- Serializes the entries of a map that are included. -/
def entries (g : Graph ι) (enter : Scope ι → ι → Run Json) (frame : Frame ι) :
    List (String × Value ι) → Run (List (String × Json))
  | [] => pure []
  | (key, v) :: rest =>
    if frame.schema.isIncluded key then do
      let value ← named g enter frame key v
      return withEntry frame.options key value (← entries g enter frame rest)
    else entries g enter frame rest

/-- Serializes the items of a sequence from a position on. -/
def items (g : Graph ι) (enter : Scope ι → ι → Run Json) (scope : Scope ι) (position : Nat) :
    List (Value ι) → Run (List Json)
  | [] => pure []
  | v :: rest => do
    let outcome ← (value g enter s!"[{position}]" scope v).attempt
    let item ← itemOutcome scope outcome
    return item.toList ++ (← items g enter scope (position + 1) rest)

end

/-- The attributes of an entity in the order in which they are read: the keys of the options or else
those that are discovered, then those that a rule names and that are not among them. -/
def attributeNames (e : Entity ι) (frame : Frame ι) : List String :=
  let names := frame.options.keys.getD (e.discover frame.options.includesProperties)
  names ++ frame.schema.topLevelKeys.filter fun key => !names.contains key

/-- Reads and serializes those attributes of a list that are included. A name that comes again
replaces its first value and keeps its place. -/
def attributes (g : Graph ι) (enter : Scope ι → ι → Run Json) (e : Entity ι) (frame : Frame ι) :
    List String → List (String × Json) → Run (List (String × Json))
  | [], out => pure out
  | name :: names, out =>
    if frame.schema.isIncluded name then do
      Run.event (.read e.typeName name)
      let raw ← Run.ofExcept ((e.read name).mapError (.unreadable name))
      match ← named g enter frame name raw with
      | some j =>
        attributes g enter e frame names (if frame.options.drops j then out else Json.insert name j out)
      | none => attributes g enter e frame names out
    else attributes g enter e frame names out

/-- Serializes an entity, given how the entities within it are entered. -/
def entityWith (g : Graph ι) (enter : Scope ι → ι → Run Json) (scope : Scope ι) (id : ι) :
    Run Json := do
  let e := g.entity id
  let frame ← scope.enter (scope.options.layer e.options) e.exactRules e.additiveRules
  return .obj (← attributes g enter e frame (attributeNames e frame) [])

/-- Serializes an entity in which at most `hops - 1` others are entered one within the other. -/
def entity (g : Graph ι) : Nat → Scope ι → ι → Run Json
  | 0, _, _ => Run.fail .nesting
  | hops + 1, scope, id => entityWith g (entity g hops) scope id

end Traversal

end EntityJson
