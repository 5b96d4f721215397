import EntityJson.Number.Binary64

/-!
# JSON values

Objects are lists of members in the order in which they are written. `Json.insert` keeps that order:
a key that is already there keeps its place and gets the new value.

Equality of JSON values is a function of its own, `Json.eq`: integers are equal by value,
floating-point numbers as numbers, an integer never equals a floating-point number, and the order of
members does not matter.
-/

namespace EntityJson

/-- A JSON value, in which integers and other numbers are told apart. -/
inductive Json where
  | null
  | bool (value : Bool)
  | int (value : Int)
  | float (value : Binary64)
  | str (value : String)
  | arr (items : List Json)
  | obj (members : List (String × Json))
  deriving Inhabited, Repr

namespace Json

/-- Gives a key its value in a list of members. -/
def insert (key : String) (value : Json) : List (String × Json) → List (String × Json)
  | [] => [(key, value)]
  | (other, old) :: rest =>
    if other = key then (key, value) :: rest else (other, old) :: insert key value rest

/-- The members of a list of keys and values, in which a repeated key has its last value at its
first place. -/
def members (entries : List (String × Json)) : List (String × Json) :=
  entries.foldl (fun ms (key, value) => insert key value ms) []

/-- Equality of JSON values. -/
def eq : Json → Json → Bool
  | null, null => true
  | bool a, bool b => a == b
  | int a, int b => a == b
  | float a, float b => a.eq b
  | str a, str b => a == b
  | arr xs, arr ys => eqItems xs ys
  | obj ms, obj ns => ms.length == ns.length && eqMembers ms ns
  | _, _ => false
where
  eqItems : List Json → List Json → Bool
    | [], [] => true
    | x :: xs, y :: ys => eq x y && eqItems xs ys
    | _, _ => false
  /-- Whether each member is found with an equal value in another list. -/
  eqMembers : List (String × Json) → List (String × Json) → Bool
    | [], _ => true
    | (key, x) :: ms, ns =>
      (match ns.lookup key with
        | some y => eq x y
        | none => false) && eqMembers ms ns

/-- Removes, from the inside out, the members of objects whose value is to be dropped. Array items
stay. -/
def prune (drops : Json → Bool) : Json → Json
  | arr items => arr (pruneItems items)
  | obj ms => obj (pruneMembers ms)
  | scalar => scalar
where
  pruneItems : List Json → List Json
    | [] => []
    | x :: xs => prune drops x :: pruneItems xs
  pruneMembers : List (String × Json) → List (String × Json)
    | [] => []
    | (key, x) :: ms =>
      let pruned := prune drops x
      if drops pruned then pruneMembers ms else (key, pruned) :: pruneMembers ms

end Json

end EntityJson
