import EntityJson.Serializer.Traversal

/-!
# Serializing

A serializer has a graph and options, and serializes one entity, the entities of a list, or any value.
A depth limit in the options also bounds how many entities are entered one within the other, since
each lies deeper than the one around it; without a limit that number is bounded by
`Serializer.maxHops`.
-/

namespace EntityJson

/-- A graph of entities, and the options under which it is serialized. -/
structure Serializer (ι : Type) where
  graph : Graph ι
  options : Options ι

namespace Serializer

variable {ι : Type}

/-- How many entities may be entered one within the other where no depth limit is set. -/
def maxHops : Nat := 1000000

/-- How many entities may be entered one within the other. -/
def hops (s : Serializer ι) : Nat :=
  match s.options.maxDepth with
  | some limit => limit + 1
  | none => maxHops

/-- Serializes an entity to an object. -/
def serialize (s : Serializer ι) (id : ι) : Run Json :=
  Traversal.entity s.graph s.hops (.root s.options) id

/-- Serializes any value. The rules of the options hold for a map at the root. -/
def serializeValue (s : Serializer ι) (v : Value ι) : Run Json :=
  Traversal.value s.graph (Traversal.entity s.graph s.hops) "<root>" (.root s.options) v

/-- Serializes each entity of a list; the first failure ends it. -/
def serializeAll (s : Serializer ι) : List ι → Run (List Json)
  | [] => pure []
  | id :: ids => do
    let j ← s.serialize id
    return j :: (← s.serializeAll ids)

end Serializer

end EntityJson
