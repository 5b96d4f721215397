import EntityJson.Value.Basic

/-!
# Converters

A **converter** is a function of the caller's that turns a value into JSON or fails with a text. One
for an attribute is asked for every value of that attribute; one for a type says which values it
takes: those of a kind, or the foreign ones of a type.
-/

namespace EntityJson

/-- A function from values to JSON, with a label that tells it from others. -/
structure Converter (ι : Type) where
  label : String
  convert : Value ι → Except String Json

/-- Which values a converter takes. -/
inductive Matcher where
  | kind (kind : Kind)
  | foreign (typeName : String)
  deriving DecidableEq, Repr

/-- A converter for the values that a matcher tells. -/
structure TypeConverter (ι : Type) where
  matcher : Matcher
  converter : Converter ι

namespace Matcher

variable {ι : Type}

def takes : Matcher → Value ι → Bool
  | kind k, v => v.kind = k
  | foreign typeName, .foreign other _ => other = typeName
  | foreign _, _ => false

/-- The name of the kind or the type. -/
def name : Matcher → String
  | kind k => k.name
  | foreign typeName => typeName

end Matcher

namespace TypeConverter

variable {ι : Type}

/-- A converter for the values of a kind. -/
def forKind (kind : Kind) (converter : Converter ι) : TypeConverter ι :=
  ⟨.kind kind, converter⟩

/-- A converter for the payloads of the foreign values of a type. It fails on any other value, whose
type it names unless that is foreign too. -/
def forForeign (nameOf : ι → String) (typeName label : String)
    (convert : Json → Except String Json) : TypeConverter ι where
  matcher := .foreign typeName
  converter := {
    label
    convert := fun
      | .foreign other payload =>
        if other = typeName then convert payload
        else .error s!"expected a value of type '{typeName}'"
      | v => .error s!"expected a value of type '{typeName}', got '{v.typeName nameOf}'" }

def takes (c : TypeConverter ι) (v : Value ι) : Bool :=
  c.matcher.takes v

def inspect (c : TypeConverter ι) : String :=
  s!"TypeConverter({c.matcher.name})"

end TypeConverter

end EntityJson
