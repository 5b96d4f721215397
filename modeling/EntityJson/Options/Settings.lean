import EntityJson.Json.Document
import EntityJson.Options.Basic

/-!
# Settings

Settings are the options that are data, that is all but the converters, read from JSON. They come as
an object with a member for each option, or as an array of the options in their order; what is missing
is not set. `Settings.ofJson?` reads a JSON value and `Settings.read?` a JSON text. A text may not give
an option twice, and what it says about a format that does not exist is passed over unread.
-/

namespace EntityJson

/-- The options that are data. -/
structure Settings where
  only : List String := []
  rules : List String := []
  timeZone : Option Zone := none
  formats : Formats := {}
  keys : Option (List String) := none
  includeProperties : Option Bool := none
  maxDepth : Option Nat := none
  dropValues : Option (List Json) := none
  strictCollections : Option Bool := none

namespace Settings

/-- The options with these settings and no converters. -/
def toOptions {ι : Type} (s : Settings) : Options ι :=
  { only := s.only
    rules := s.rules
    timeZone := s.timeZone
    formats := s.formats
    keys := s.keys
    includeProperties := s.includeProperties
    maxDepth := s.maxDepth
    dropValues := s.dropValues
    strictCollections := s.strictCollections }

/-- Whether nothing is set. -/
def isDefault (s : Settings) : Bool :=
  s.only.isEmpty && s.rules.isEmpty && s.timeZone.isNone && s.formats = {} && s.keys.isNone &&
    s.includeProperties.isNone && s.maxDepth.isNone && s.dropValues.isNone &&
    s.strictCollections.isNone

/-! ## Reading JSON values -/

def string? : Json → Option String
  | .str s => some s
  | _ => none

def bool? : Json → Option Bool
  | .bool b => some b
  | _ => none

/-- A natural number that fits a machine word and is spelled as an integer. -/
def word? : Json → Option Nat
  | .int n => if 0 ≤ n ∧ n < wordLimit then some n.toNat else none
  | _ => none

def list? : Json → Option (List Json)
  | .arr items => some items
  | _ => none

def strings? (j : Json) : Option (List String) := do
  (← list? j).mapM string?

def zone? (j : Json) : Option Zone := do
  Zone.ofName? (← string? j)

/-- What may be null, which leaves it unset. -/
def nullable? {α : Type} (read : Json → Option α) : Json → Option (Option α)
  | .null => some none
  | j => (read j).map some

/-- Sets a format; a name that is none is passed over. -/
def setFormat? (f : Formats) (entry : String × Json) : Option Formats := do
  match entry with
  | ("date", j) => return { f with date := ← nullable? string? j }
  | ("time", j) => return { f with time := ← nullable? string? j }
  | ("datetime", j) => return { f with dateTime := ← nullable? string? j }
  | ("decimal", j) => return { f with decimal := ← nullable? string? j }
  | _ => return f

/-- The names of the formats, in the order in which an array gives them. -/
def formatNames : List String := ["date", "time", "datetime", "decimal"]

/-- Pairs the items of an array with names; there may not be more items than names. -/
def withNames? {α : Type} (names : List String) (items : List α) : Option (List (String × α)) :=
  if names.length < items.length then none else some (names.zip items)

def formats? (j : Json) : Option Formats := do
  let entries ← match j with
    | .obj entries => some entries
    | .arr items => withNames? formatNames items
    | _ => none
  entries.foldlM setFormat? {}

/-- Sets an option; a name that is none is refused. -/
def set? (s : Settings) (entry : String × Json) : Option Settings := do
  match entry with
  | ("only", j) => return { s with only := ← strings? j }
  | ("rules", j) => return { s with rules := ← strings? j }
  | ("time_zone", j) => return { s with timeZone := ← nullable? zone? j }
  | ("formats", j) => return { s with formats := ← formats? j }
  | ("keys", j) => return { s with keys := ← nullable? strings? j }
  | ("include_properties", j) => return { s with includeProperties := ← nullable? bool? j }
  | ("max_depth", j) => return { s with maxDepth := ← nullable? word? j }
  | ("drop_values", j) => return { s with dropValues := ← nullable? list? j }
  | ("strict_collections", j) => return { s with strictCollections := ← nullable? bool? j }
  | _ => none

/-- The names of the options, in the order in which an array gives them. -/
def optionNames : List String :=
  ["only", "rules", "time_zone", "formats", "keys", "include_properties", "max_depth", "drop_values",
    "strict_collections"]

/-- Sets the options of a list of names and values. -/
def ofEntries? (entries : List (String × Json)) : Option Settings :=
  entries.foldlM set? {}

/-- Reads settings from a JSON value. -/
def ofJson? : Json → Option Settings
  | .obj entries => ofEntries? entries
  | .arr items => (withNames? optionNames items).bind ofEntries?
  | _ => none

/-! ## Reading JSON texts -/

/-- The members of an object in a text: all keys are proper strings, and no key of the list `known`
comes twice. -/
def distinct? (known : List String) (ms : List (Option String × Document)) :
    Option (List (String × Document)) := do
  let ms ← ms.mapM fun (key, d) => key.map (·, d)
  let named := (ms.map (·.1)).filter known.contains
  if named.eraseDups.length = named.length then return ms else none

/-- The value of the formats of a text, without the members that are no formats. -/
def formatsValue? (levels : Nat) : Document → Option Json
  | .object ms => do
    let formats := (← distinct? formatNames ms).filter fun (key, _) => formatNames.contains key
    let values ← formats.mapM fun (key, d) => (d.toJson? levels).map (key, ·)
    return .obj values
  | d => d.toJson? (levels + 1)

/-- The value of an option in a text. -/
def optionValue? (levels : Nat) (name : String) (d : Document) : Option Json :=
  if name = "formats" then formatsValue? (levels - 1) d else d.toJson? levels

/-- How deeply arrays and objects may be nested in the text of settings. -/
def maxNesting : Nat := 127

/-- Reads settings from what a JSON text says. -/
def ofDocument? (d : Document) : Option Settings := do
  let entries ← match d with
    | .object ms => distinct? optionNames ms
    | .array items => withNames? optionNames items
    | _ => none
  let values ← entries.mapM fun (name, d) =>
    (optionValue? (maxNesting - 1) name d).map (name, ·)
  ofEntries? values

/-- Reads settings from a JSON text. -/
def read? (source : String) : Option Settings :=
  (Document.read? source).bind ofDocument?

end Settings

end EntityJson
