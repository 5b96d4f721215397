import EntityJson.Json.Basic
import EntityJson.Number.Numeral
import EntityJson.Text.Hex

/-!
# JSON text

A **document** is what a JSON text says before it is taken as a value: numbers are still spelled
out, repeated keys are all there, and a string may hold half of a surrogate pair, which has no
character. `Document.read?` reads a text, `Document.toJson?` takes a document as a value; the second
refuses strings without characters, numbers that are too large and values that are nested too
deeply. The two are kept apart because a reader may leave parts of a document aside, and what is
left aside only has to be well formed.

Reading is strict: no blanks but space, tab and line ends, no comments, no commas before a closing
bracket, no leading zeros, no control characters in strings, and nothing after the value.
-/

namespace EntityJson

/-- A JSON text as it is spelled. A string is missing where it has no characters to stand for it. -/
inductive Document where
  | null
  | bool (value : Bool)
  | number (value : Numeral)
  | text (value : Option String)
  | array (items : List Document)
  | object (members : List (Option String × Document))
  deriving Inhabited, Repr

namespace Numeral

/-- Appends digits to a significand as long as it fits a word. The exponent grows by `step` with
each digit that is taken and by `skipped` with each that is not. -/
def absorb (step skipped : Int) : List Char → Nat × Int → Nat × Int
  | [], state => state
  | c :: cs, (significand, exponent) =>
    let next := significand * 10 + (c.toNat - 48)
    if next < wordLimit then absorb step skipped cs (next, exponent + step)
    else (significand, exponent + skipped * (cs.length + 1))

/-- The number as a sign and a magnitude: digits that do not fit into a word are dropped, and the
significand is then scaled by a power of ten. -/
def toBinary64? (n : Numeral) : Option Binary64 := do
  let whole := absorb 0 1 n.whole (0, 0)
  let (significand, exponent) := absorb (-1) 0 n.fraction whole
  let start ← BinaryFormat.double.round significand 1
  let magnitude ← Binary64.scale start (exponent + n.exponent.getD 0)
  return .finite n.negative magnitude

/-- An integer that fits a signed or an unsigned word stays one; any other number, and negative
zero, is a floating-point number. -/
def toJson? (n : Numeral) : Option Json :=
  let value := natural n.whole
  if n.isWhole ∧ ¬ n.negative ∧ value < wordLimit then some (.int value)
  else if n.isWhole ∧ n.negative ∧ 0 < value ∧ 2 * value ≤ wordLimit then some (.int (-value))
  else n.toBinary64?.map .float

end Numeral

namespace Document

/-- Takes a document as a value with at most `levels` levels of arrays and objects. In an object the
last value of a key counts, at the place of the first. -/
def toJson? (levels : Nat) : Document → Option Json
  | null => some .null
  | bool b => some (.bool b)
  | number n => n.toJson?
  | text s => s.map .str
  | array items => if levels = 0 then none else (itemsToJson? (levels - 1) items).map .arr
  | object ms =>
    if levels = 0 then none else (membersToJson? (levels - 1) ms).map (.obj ∘ Json.members)
where
  itemsToJson? (levels : Nat) : List Document → Option (List Json)
    | [] => some []
    | d :: ds => do
      let x ← toJson? levels d
      return x :: (← itemsToJson? levels ds)
  membersToJson? (levels : Nat) : List (Option String × Document) → Option (List (String × Json))
    | [] => some []
    | (key, d) :: ms => do
      let key ← key
      let x ← toJson? levels d
      return (key, x) :: (← membersToJson? levels ms)

/-! ## Reading -/

def isBlank (c : Char) : Bool :=
  c = ' ' || c = '\t' || c = '\n' || c = '\r'

/-- The text behind the blanks that it starts with. -/
def skipBlanks (cs : List Char) : List Char :=
  cs.dropWhile isBlank

/-- The text behind a word that it starts with. -/
def expect (word : String) (cs : List Char) : Option (List Char) :=
  if word.toList.isPrefixOf cs then some (cs.drop word.length) else none

/-- Four hexadecimal digits, and the rest. -/
def readUnit? : List Char → Option (Nat × List Char)
  | a :: b :: c :: d :: rest => do
    let units ← [a, b, c, d].mapM Hex.digitValue?
    return (units.foldl (fun n v => 16 * n + v) 0, rest)
  | _ => none

/-- The character of two halves of a surrogate pair. -/
def joinSurrogates (high low : Nat) : Char :=
  Char.ofNat (0x10000 + (high - 0xD800) * 0x400 + (low - 0xDC00))

/-- What follows the letter `u` of an escape: a character, or nothing for half of a pair. -/
def readEscapedUnit? (cs : List Char) : Option (Option Char × List Char) := do
  let (unit, rest) ← readUnit? cs
  if 0xD800 ≤ unit ∧ unit < 0xDC00 then
    match rest with
    | '\\' :: 'u' :: more =>
      let (low, behind) ← readUnit? more
      if 0xDC00 ≤ low ∧ low < 0xE000 then return (some (joinSurrogates unit low), behind)
      else return (none, rest)
    | _ => return (none, rest)
  else if 0xDC00 ≤ unit ∧ unit < 0xE000 then return (none, rest)
  else return (some (Char.ofNat unit), rest)

/-- What follows a backslash. -/
def readEscape? : List Char → Option (Option Char × List Char)
  | '\"' :: rest => some (some '\"', rest)
  | '\\' :: rest => some (some '\\', rest)
  | '/' :: rest => some (some '/', rest)
  | 'b' :: rest => some (some '\x08', rest)
  | 'f' :: rest => some (some '\x0c', rest)
  | 'n' :: rest => some (some '\n', rest)
  | 'r' :: rest => some (some '\r', rest)
  | 't' :: rest => some (some '\t', rest)
  | 'u' :: rest => readEscapedUnit? rest
  | _ => none

/-- The rest of a string behind its opening quote. `read` holds the characters so far, the last one
first, and is missing once there was half of a pair. -/
def readText? : Nat → Option (List Char) → List Char → Option (Option String × List Char)
  | 0, _, _ => none
  | _ + 1, _, [] => none
  | fuel + 1, read, c :: cs =>
    if c = '\"' then some (read.map fun r => String.ofList r.reverse, cs)
    else if c = '\\' then do
      let (char, rest) ← readEscape? cs
      readText? fuel (do return (← char) :: (← read)) rest
    else if c.toNat < 32 then none
    else readText? fuel (read.map (c :: ·)) cs

/-- A number, and the rest. A zero in front of other digits is refused. -/
def readNumber? (cs : List Char) : Option (Numeral × List Char) := do
  let (n, rest) ← Numeral.scan? cs
  if n.whole.head? = some '0' ∧ n.whole.length ≠ 1 then none else return (n, rest)

mutual

/-- A value, and the rest; the first argument bounds the steps. -/
def readValue? : Nat → List Char → Option (Document × List Char)
  | 0, _ => none
  | fuel + 1, cs =>
    match skipBlanks cs with
    | 'n' :: rest => (expect "ull" rest).map (null, ·)
    | 't' :: rest => (expect "rue" rest).map (bool true, ·)
    | 'f' :: rest => (expect "alse" rest).map (bool false, ·)
    | '\"' :: rest => do
      let (s, rest) ← readText? (rest.length + 1) (some []) rest
      return (text s, rest)
    | '[' :: rest =>
      match skipBlanks rest with
      | ']' :: rest => some (array [], rest)
      | rest => do
        let (items, rest) ← readItems? fuel rest
        return (array items, rest)
    | '{' :: rest =>
      match skipBlanks rest with
      | '}' :: rest => some (object [], rest)
      | rest => do
        let (ms, rest) ← readMembers? fuel rest
        return (object ms, rest)
    | cs => do
      let (n, rest) ← readNumber? cs
      return (number n, rest)

/-- The items of an array up to its closing bracket. -/
def readItems? : Nat → List Char → Option (List Document × List Char)
  | 0, _ => none
  | fuel + 1, cs => do
    let (item, rest) ← readValue? fuel cs
    match skipBlanks rest with
    | ',' :: rest =>
      let (items, rest) ← readItems? fuel rest
      return (item :: items, rest)
    | ']' :: rest => return ([item], rest)
    | _ => none

/-- The members of an object up to its closing brace. -/
def readMembers? : Nat → List Char → Option (List (Option String × Document) × List Char)
  | 0, _ => none
  | fuel + 1, cs =>
    match skipBlanks cs with
    | '\"' :: rest => do
      let (key, rest) ← readText? (rest.length + 1) (some []) rest
      match skipBlanks rest with
      | ':' :: rest =>
        let (value, rest) ← readValue? fuel rest
        match skipBlanks rest with
        | ',' :: rest =>
          let (ms, rest) ← readMembers? fuel rest
          return ((key, value) :: ms, rest)
        | '}' :: rest => return ([(key, value)], rest)
        | _ => none
      | _ => none
    | _ => none

end

/-- Reads a text that holds one value and nothing else. Each step of the reading takes a character,
so the length of the text bounds their number. -/
def read? (source : String) : Option Document := do
  let cs := source.toList
  let (document, rest) ← readValue? (2 * cs.length + 2) cs
  if (skipBlanks rest).isEmpty then return document else none

end Document

/-- Reads a text as a value in which arrays and objects are nested at most `levels` deep. -/
def Json.read? (levels : Nat) (source : String) : Option Json :=
  (Document.read? source).bind (Document.toJson? levels)

end EntityJson
