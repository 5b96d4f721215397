import EntityJson.Options.Basic

/-!
# Entities and their graphs

An **entity** lists the names of its attributes, gives one attribute on request, and may declare rules
and options that hold wherever it is serialized. How it stores its data is its own affair.

A **graph** says what each identifier stands for. Every identifier stands for an entity, and entities
may refer to each other in any way, themselves included.
-/

namespace EntityJson

/-- What is known of an entity. The names of its attributes depend on its type alone. -/
structure Entity (ι : Type) where
  typeName : String
  /-- The stored attributes, in the order of the output. -/
  fieldNames : List String
  /-- The computed attributes. -/
  propertyNames : List String := []
  /-- The attributes to serialize, in place of the fields and properties. -/
  serializableKeys : Option (List String) := none
  /-- Exact rules that hold wherever the entity is serialized. -/
  exactRules : List String := []
  /-- Additive rules that hold wherever the entity is serialized. -/
  additiveRules : List String := []
  /-- Options that hold unless the caller sets them. Their rules are not used. -/
  options : Options ι := {}
  /-- Reads an attribute. A name that the entity does not know should give an error. -/
  read : String → Except String (Value ι)

/-- What the identifiers of entities stand for. -/
structure Graph (ι : Type) where
  entity : ι → Entity ι

namespace Graph

variable {ι : Type}

def typeName (g : Graph ι) (id : ι) : String :=
  (g.entity id).typeName

/-- The limit of depth that an entity declares for itself. -/
def declaredMaxDepth (g : Graph ι) : Value ι → Option Nat
  | .entity id => (g.entity id).options.maxDepth
  | _ => none

end Graph

end EntityJson
