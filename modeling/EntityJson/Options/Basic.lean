import EntityJson.Options.Converter
import EntityJson.Options.Formats

/-!
# Options

All that a caller can set for one serialization, and all that an entity can declare for itself. Every
option may be left unset, so that options can be **layered**: one that the caller sets counts, one
that is not set falls back to the entity's.
-/

namespace EntityJson

/-- The options of one serialization. -/
structure Options (ι : Type) where
  /-- Exact rules: only what they name is kept. -/
  only : List String := []
  /-- Additive rules, on top of all others. -/
  rules : List String := []
  /-- The zone that date-times are converted to before they are written. -/
  timeZone : Option Zone := none
  formats : Formats := {}
  /-- Converters for types, of which the first that takes a value is asked. -/
  typeConverters : List (TypeConverter ι) := []
  /-- Converters for attributes by their names, of which the first counts. -/
  attributeConverters : List (String × Converter ι) := []
  /-- The names of the attributes to read, in place of the ones that an entity lists. -/
  keys : Option (List String) := none
  /-- Whether computed attributes are read too. -/
  includeProperties : Option Bool := none
  /-- How deep entities may be nested. -/
  maxDepth : Option Nat := none
  /-- Values whose entries are left out of the output. -/
  dropValues : Option (List Json) := none
  /-- Whether a sequence fails on an item that cannot be serialized instead of leaving it out. -/
  strictCollections : Option Bool := none

namespace Options

variable {ι : Type}

def includesProperties (o : Options ι) : Bool :=
  o.includeProperties.getD false

def isStrictCollections (o : Options ι) : Bool :=
  o.strictCollections.getD false

/-- Whether entries of a value are left out of the output. -/
def drops (o : Options ι) (value : Json) : Bool :=
  (o.dropValues.getD []).any (·.eq value)

def attributeConverter? (o : Options ι) (name : String) : Option (Converter ι) :=
  o.attributeConverters.lookup name

def typeConverter? (o : Options ι) (value : Value ι) : Option (TypeConverter ι) :=
  o.typeConverters.find? (·.takes value)

/-- Lays options over those that an entity declares. Converters of both are kept, these first; rules
are these alone. -/
def layer (o declared : Options ι) : Options ι where
  only := o.only
  rules := o.rules
  timeZone := o.timeZone.or declared.timeZone
  formats := o.formats.layer declared.formats
  typeConverters := o.typeConverters ++ declared.typeConverters
  attributeConverters := o.attributeConverters ++ declared.attributeConverters
  keys := o.keys.or declared.keys
  includeProperties := o.includeProperties.or declared.includeProperties
  maxDepth := o.maxDepth.or declared.maxDepth
  dropValues := o.dropValues.or declared.dropValues
  strictCollections := o.strictCollections.or declared.strictCollections

/-- The options for nested values: rules reach them through the schema, and keys name the attributes
of one entity. -/
def forNested (o : Options ι) : Options ι :=
  { o with only := [], rules := [], keys := none }

/-- The names of the attributes that have a converter, in increasing order. -/
def convertedAttributes (o : Options ι) : List String :=
  ((o.attributeConverters.map (·.1)).eraseDups).mergeSort fun a b => a ≤ b

/-- Describes the options. -/
def inspect (o : Options ι) : String :=
  Inspect.record "Options"
    [("only", Inspect.strings o.only),
      ("rules", Inspect.strings o.rules),
      ("time_zone", Inspect.optional (·.name) o.timeZone),
      ("formats", o.formats.inspect),
      ("type_converters", Inspect.list (o.typeConverters.map (·.inspect))),
      ("attribute_converters", Inspect.strings o.convertedAttributes),
      ("keys", Inspect.optional Inspect.strings o.keys),
      ("include_properties", Inspect.optional toString o.includeProperties),
      ("max_depth", Inspect.optional toString o.maxDepth),
      ("drop_values", Inspect.optional (fun vs => Inspect.list (vs.map (·.inspect))) o.dropValues),
      ("strict_collections", Inspect.optional toString o.strictCollections)]

end Options

end EntityJson
