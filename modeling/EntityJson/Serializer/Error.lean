import EntityJson.Rule

/-!
# Failures of a serialization

A serialization fails for one of the causes below; the first one met ends it. Only the first of them,
that a value is of a type that cannot be serialized, may be forgiven, where the value is an item of a
sequence.
-/

namespace EntityJson

/-- The kinds of scalars that are written in a format. -/
inductive FormatKind where
  | date
  | time
  | dateTime
  | decimal
  deriving DecidableEq, Repr

namespace FormatKind

def name : FormatKind → String
  | date => "date"
  | time => "time"
  | dateTime => "datetime"
  | decimal => "decimal"

end FormatKind

/-- Why a serialization fails. -/
inductive SerializeError where
  /-- No converter takes a value of the type. -/
  | unserializable (typeName : String)
  /-- A list of rules holds a text that is no rule. -/
  | rule (error : RuleError)
  /-- A format is not valid, or asks for what the value lacks. -/
  | invalidFormat (kind : FormatKind) (format : String)
  /-- An attribute cannot be read, or a deferred value at its place fails. -/
  | unreadable (name : String) (cause : String)
  /-- A converter of the caller's or of an entity's fails; the name is that of the attribute whose value
  it was asked for, if it is one. -/
  | conversion (name : Option String) (cause : String)
  /-- Entities are nested more deeply than is ever allowed. -/
  | nesting
  deriving DecidableEq

namespace SerializeError

def isUnserializable : SerializeError → Bool
  | unserializable _ => true
  | _ => false

def message : SerializeError → String
  | unserializable typeName => s!"Value of type '{typeName}' is not serializable"
  | rule e => e.message
  | invalidFormat kind format => s!"Invalid {kind.name} format '{format}'"
  | unreadable name cause => s!"Failed to read attribute '{name}': {cause}"
  | conversion (some name) cause => s!"Converter failed for attribute '{name}': {cause}"
  | conversion none cause => s!"Converter failed: {cause}"
  | nesting => "Entities are nested too deeply"

end SerializeError

end EntityJson
