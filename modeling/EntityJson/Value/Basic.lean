import EntityJson.Calendar.Format
import EntityJson.Decimal.Render
import EntityJson.Json.Basic
import EntityJson.Text.Uuid

/-!
# Attribute values

A **value** is what an entity gives for one of its attributes: a scalar, a member of an enumeration,
a map or a sequence of values, another entity, a deferred value that is worked out when it is needed,
or a foreign one, which only a converter of the caller's can render.

Entities are named by identifiers of a type `ι`; what an identifier stands for is a matter of the
graph they come from (`EntityJson.Entity`), so that entities may refer to each other in circles.
-/

namespace EntityJson

/-- A value that is one datum. -/
inductive Scalar where
  | null
  | bool (value : Bool)
  | int (value : Int64)
  | uint (value : UInt64)
  | float (value : Binary64)
  | str (value : String)
  | bytes (value : List UInt8)
  | uuid (value : Uuid)
  | time (value : TimeOfDay)
  | zonedDateTime (value : ZonedDateTime)
  | dateTime (value : DateTime)
  | date (value : Date)
  | decimal (value : Decimal)
  deriving DecidableEq

/-- An attribute value in a graph of entities named by `ι`. The entries of a map are in increasing
order of their keys. A deferred value has a label and yields a value or fails with a text. A foreign
value carries its type's name and a payload. -/
inductive Value (ι : Type) where
  | scalar (value : Scalar)
  | member (typeName name : String) (value : Value ι)
  | map (entries : List (String × Value ι))
  | seq (items : List (Value ι))
  | entity (id : ι)
  | deferred (label : String) (outcome : Except String (Value ι))
  | foreign (typeName : String) (payload : Json)

/-- The kinds of values. -/
inductive Kind where
  | null
  | bool
  | int
  | uint
  | float
  | str
  | bytes
  | uuid
  | time
  | zonedDateTime
  | dateTime
  | date
  | decimal
  | member
  | map
  | seq
  | entity
  | deferred
  | foreign
  deriving DecidableEq, Repr

namespace Kind

def all : List Kind :=
  [null, bool, int, uint, float, str, bytes, uuid, time, zonedDateTime, dateTime, date, decimal,
    member, map, seq, entity, deferred, foreign]

/-- The name of a kind in diagnostics. -/
def name : Kind → String
  | null => "null"
  | bool => "bool"
  | int => "int"
  | uint => "uint"
  | float => "float"
  | str => "str"
  | bytes => "bytes"
  | uuid => "uuid"
  | time => "time"
  | zonedDateTime => "datetime"
  | dateTime => "naive_datetime"
  | date => "date"
  | decimal => "decimal"
  | member => "enum"
  | map => "map"
  | seq => "seq"
  | entity => "entity"
  | deferred => "deferred"
  | foreign => "opaque"

def ofName? (name : String) : Option Kind :=
  all.find? (·.name = name)

end Kind

namespace Scalar

def kind : Scalar → Kind
  | null => .null
  | bool _ => .bool
  | int _ => .int
  | uint _ => .uint
  | float _ => .float
  | str _ => .str
  | bytes _ => .bytes
  | uuid _ => .uuid
  | time _ => .time
  | zonedDateTime _ => .zonedDateTime
  | dateTime _ => .dateTime
  | date _ => .date
  | decimal _ => .decimal

end Scalar

namespace Value

variable {ι : Type}

/-- A map of the entries of a list, of which no two have the same key. -/
def ofEntries (entries : List (String × Value ι)) : Value ι :=
  map (entries.mergeSort fun a b => a.1 ≤ b.1)

def kind : Value ι → Kind
  | scalar s => s.kind
  | member _ _ _ => .member
  | map _ => .map
  | seq _ => .seq
  | entity _ => .entity
  | deferred _ _ => .deferred
  | foreign _ _ => .foreign

/-- The name of a value's type in diagnostics; `nameOf` gives the names of the types of entities. -/
def typeName (nameOf : ι → String) : Value ι → String
  | entity id => nameOf id
  | member typeName _ _ => typeName
  | foreign typeName _ => typeName
  | other => other.kind.name

def isNull : Value ι → Bool
  | scalar .null => true
  | _ => false

/-- Whether a value opens a scope of its own. -/
def isNested : Value ι → Bool
  | map _ => true
  | seq _ => true
  | entity _ => true
  | _ => false

/-- Whether an entity can be reached from a value through maps and sequences. A deferred value counts,
since only working it out would tell. -/
def reachesEntity : Value ι → Bool
  | entity _ => true
  | deferred _ _ => true
  | map entries => anyEntry entries
  | seq items => anyItem items
  | _ => false
where
  anyEntry : List (String × Value ι) → Bool
    | [] => false
    | (_, v) :: rest => reachesEntity v || anyEntry rest
  anyItem : List (Value ι) → Bool
    | [] => false
    | v :: rest => reachesEntity v || anyItem rest

end Value

end EntityJson
