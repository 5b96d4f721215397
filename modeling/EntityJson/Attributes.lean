import EntityJson.Entity

/-!
# Discovering attributes

Which attributes of an entity can be serialized is found from its type: the names that it lists for
that purpose, or else its fields and, on request, its computed attributes, each name once.

An **attribute cache** remembers what was found, by type and by whether computed attributes were asked
for. As the names depend on the type alone the cache changes no answer; `getOrDiscover` always gives
what `introspect` gives.
-/

namespace EntityJson

namespace Entity

variable {ι : Type}

/-- Adds to a list the names that are not in it yet. -/
def appendNew (names : List String) : List String → List String
  | [] => names
  | name :: rest => appendNew (if names.contains name then names else names ++ [name]) rest

/-- The field names, then the property names if they are asked for, each at its first place. -/
def introspect (e : Entity ι) (includeProperties : Bool) : List String :=
  appendNew [] (e.fieldNames ++ if includeProperties then e.propertyNames else [])

/-- The names of the attributes to serialize, in the order of the output. A list of the entity's own
is taken as it is. -/
def discover (e : Entity ι) (includeProperties : Bool) : List String :=
  e.serializableKeys.getD (e.introspect includeProperties)

end Entity

/-- What was found for types of entities, which `τ` names, without and with computed attributes. -/
structure AttributeCache (τ : Type) where
  entries : List ((τ × Bool) × List String)

namespace AttributeCache

variable {τ ι : Type} [DecidableEq τ]

def empty : AttributeCache τ := ⟨[]⟩

/-- Forgets all that was found. -/
def clear (_ : AttributeCache τ) : AttributeCache τ := empty

def size (c : AttributeCache τ) : Nat :=
  c.entries.length

def isEmpty (c : AttributeCache τ) : Bool :=
  c.entries.isEmpty

/-- The names found before for a type. -/
def get? (c : AttributeCache τ) (type : τ) (includeProperties : Bool) : Option (List String) :=
  c.entries.lookup (type, includeProperties)

/-- The names for a type, found anew and remembered if they are not there, and the cache after it. -/
def getOrDiscover (c : AttributeCache τ) (type : τ) (e : Entity ι) (includeProperties : Bool) :
    List String × AttributeCache τ :=
  match c.get? type includeProperties with
  | some names => (names, c)
  | none =>
    let names := e.introspect includeProperties
    (names, ⟨((type, includeProperties), names) :: c.entries⟩)

/-- The names of the attributes to serialize. A list of the entity's own does not touch the cache. -/
def discover (c : AttributeCache τ) (type : τ) (e : Entity ι) (includeProperties : Bool) :
    List String × AttributeCache τ :=
  match e.serializableKeys with
  | some keys => (keys, c)
  | none => c.getOrDiscover type e includeProperties

end AttributeCache

end EntityJson
