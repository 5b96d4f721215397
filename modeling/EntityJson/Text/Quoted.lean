import EntityJson.Text.Hex
import EntityJson.Text.Printable

/-!
# Quoted text

A text in quotes on one line, from which every character can be told: the quote and the backslash
are escaped, and so are the characters that do not show as themselves, the common ones by a letter
and the others by their code point.
-/

namespace EntityJson.Quoted

/-- A character between the quotes. -/
def escaped (c : Char) : String :=
  match c with
  | '\"' => "\\\""
  | '\\' => "\\\\"
  | '\n' => "\\n"
  | '\r' => "\\r"
  | '\t' => "\\t"
  | '\x00' => "\\0"
  | c => if isHidden c then "\\u\x7b" ++ Hex.natural c.toNat ++ "\x7d" else c.toString

def text (s : String) : String :=
  s.foldl (fun text c => text ++ escaped c) "\"" ++ "\""

end EntityJson.Quoted
