import EntityJson.Json.Basic
import EntityJson.Number.Text
import EntityJson.Text.Hex

/-!
# Compact JSON text

A value is written without blanks, members in their order. In strings only the quote, the backslash
and the characters below the blank are escaped. A floating-point number that is not finite has no
JSON form and is written as `null`.
-/

namespace EntityJson.Json

/-- A character between the quotes of a string. -/
def escaped (c : Char) : String :=
  match c with
  | '\"' => "\\\""
  | '\\' => "\\\\"
  | '\n' => "\\n"
  | '\r' => "\\r"
  | '\t' => "\\t"
  | '\x08' => "\\b"
  | '\x0c' => "\\f"
  | c =>
    if c.toNat < 32 then "\\u00" ++ String.ofList (Hex.byte (UInt8.ofNat c.toNat))
    else c.toString

def quoted (s : String) : String :=
  s.foldl (fun text c => text ++ escaped c) "\"" ++ "\""

/-- Writes a value. -/
def text : Json → String
  | null => "null"
  | bool b => if b then "true" else "false"
  | int n => toString n
  | float x => if x.isFinite then x.text .json else "null"
  | str s => quoted s
  | arr items => "[" ++ String.intercalate "," (itemTexts items) ++ "]"
  | obj ms => "\x7b" ++ String.intercalate "," (memberTexts ms) ++ "\x7d"
where
  itemTexts : List Json → List String
    | [] => []
    | x :: xs => text x :: itemTexts xs
  memberTexts : List (String × Json) → List String
    | [] => []
    | (key, x) :: ms => (quoted key ++ ":" ++ text x) :: memberTexts ms

end EntityJson.Json
