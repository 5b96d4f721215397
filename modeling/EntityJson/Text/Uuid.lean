import EntityJson.Text.Hex

/-!
# Unique identifiers

An identifier is sixteen bytes. It is written as 32 lower-case hexadecimal digits in groups of
8, 4, 4, 4 and 12 with hyphens between them, and read with or without the hyphens.
-/

namespace EntityJson

structure Uuid where
  bytes : List UInt8
  length_eq : bytes.length = 16
  deriving DecidableEq

namespace Uuid

/-- The lengths of the groups of digits that end in a hyphen. -/
def groups : List Nat := [8, 4, 4, 4]

/-- Puts a hyphen behind each of the leading groups. -/
def hyphenate : List Nat → List Char → List Char
  | [], cs => cs
  | n :: ns, cs => cs.take n ++ '-' :: hyphenate ns (cs.drop n)

/-- Takes away the hyphens behind the leading groups; none if one of them is missing. -/
def unhyphenate? : List Nat → List Char → Option (List Char)
  | [], cs => some cs
  | n :: ns, cs =>
    match cs.drop n with
    | '-' :: rest => (unhyphenate? ns rest).map (cs.take n ++ ·)
    | _ => none

def text (id : Uuid) : String :=
  String.ofList (hyphenate groups (id.bytes.flatMap Hex.byte))

def read? (s : String) : Option Uuid := do
  let cs := s.toList
  let digits ← if cs.length = 32 then some cs else unhyphenate? groups cs
  let bytes ← Hex.bytes? digits
  if h : bytes.length = 16 then return ⟨bytes, h⟩ else none

end Uuid

end EntityJson
