import EntityJson.Json.Printer
import EntityJson.Text.Quoted
import EntityJson.Value.Basic

/-!
# Descriptions of values

A description shows a value for diagnostics: the name of its kind and its content in brackets. Texts
are quoted, dates and times are in their standard form, and of entities, deferred and foreign values
only what they are is shown.
-/

namespace EntityJson

namespace Inspect

/-- A name and what it holds. -/
def tuple (name content : String) : String :=
  s!"{name}({content})"

def list (items : List String) : String :=
  let inner := String.intercalate ", " items
  s!"[{inner}]"

def object (members : List String) : String :=
  "\x7b" ++ String.intercalate ", " members ++ "\x7d"

/-- A name and the fields of a record. -/
def record (name : String) (fields : List (String × String)) : String :=
  let inner := String.intercalate ", " (fields.map fun (field, content) => s!"{field}: {content}")
  name ++ " \x7b " ++ inner ++ " \x7d"

def optional {α : Type} (f : α → String) : Option α → String
  | some x => tuple "Some" (f x)
  | none => "None"

def strings (xs : List String) : String :=
  list (xs.map Quoted.text)

end Inspect

open Inspect

/-- Describes a JSON value. -/
def Json.inspect : Json → String
  | null => "Null"
  | bool b => tuple "Bool" (toString b)
  | int n => tuple "Number" (toString n)
  | float x => tuple "Number" (Json.float x).text
  | str s => tuple "String" (Quoted.text s)
  | arr items => "Array " ++ list (inspectItems items)
  | obj ms => "Object " ++ object (inspectMembers ms)
where
  inspectItems : List Json → List String
    | [] => []
    | x :: xs => inspect x :: inspectItems xs
  inspectMembers : List (String × Json) → List String
    | [] => []
    | (key, x) :: ms => (Quoted.text key ++ ": " ++ inspect x) :: inspectMembers ms

def Scalar.inspect : Scalar → String
  | null => "Null"
  | bool b => tuple "Bool" (toString b)
  | int n => tuple "Int" (toString n.toInt)
  | uint n => tuple "UInt" (toString n.toNat)
  | float x => tuple "Float" (x.text .inspection)
  | str s => tuple "Str" (Quoted.text s)
  | bytes bs => tuple "Bytes" (list (bs.map fun b => toString b.toNat))
  | uuid id => tuple "Uuid" id.text
  | time t => tuple "Time" t.text
  | zonedDateTime x => tuple "DateTime" x.text
  | dateTime x => tuple "NaiveDateTime" x.text
  | date d => tuple "Date" d.text
  | decimal x => tuple "Decimal" x.text

namespace Value

variable {ι : Type}

/-- Describes a value; `nameOf` gives the names of the types of entities. -/
def inspect (nameOf : ι → String) : Value ι → String
  | scalar s => s.inspect
  | member typeName name value =>
    tuple "Enum" <| record "EnumMember"
      [("type_name", Quoted.text typeName), ("name", Quoted.text name),
        ("value", inspect nameOf value)]
  | map entries => tuple "Map" (object (inspectEntries nameOf entries))
  | seq items => tuple "Seq" (list (inspectItems nameOf items))
  | entity id => tuple "Entity" (nameOf id)
  | deferred _ _ => tuple "Accessor" ".."
  | foreign typeName _ => tuple "Opaque" typeName
where
  inspectEntries (nameOf : ι → String) : List (String × Value ι) → List String
    | [] => []
    | (key, v) :: rest => (Quoted.text key ++ ": " ++ inspect nameOf v) :: inspectEntries nameOf rest
  inspectItems (nameOf : ι → String) : List (Value ι) → List String
    | [] => []
    | v :: rest => inspect nameOf v :: inspectItems nameOf rest

end Value

end EntityJson
