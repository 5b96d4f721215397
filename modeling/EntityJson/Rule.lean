/-!
# Rules

A **rule** names an attribute by the dotted path that leads to it and says whether the attribute is
kept or dropped: `author.name` keeps, `-author.email` drops. A path is a non-empty list of
**segments**; a segment is non-empty text without a dot that does not start with the negation
marker, so the marker can only stand in front of the whole path and the dot only between segments.

`Rule.parse` reads a text and `Rule.text` writes one. What a segment has to be is part of the type,
so every rule that exists can be written and read back.
-/

namespace EntityJson

/-- Whether a rule keeps or drops the attribute it names. -/
inductive Polarity where
  | keep
  | drop
  deriving DecidableEq, Repr

/-- The characters of a path segment: at least one, none of them a dot, the first not the negation
marker. -/
def IsSegment (cs : List Char) : Prop :=
  cs ≠ [] ∧ cs.head? ≠ some '-' ∧ '.' ∉ cs

instance (cs : List Char) : Decidable (IsSegment cs) :=
  inferInstanceAs (Decidable (_ ∧ _ ∧ _))

/-- A polarity and the path of the attribute it is about. -/
structure Rule where
  polarity : Polarity
  segments : List String
  segments_ne_nil : segments ≠ []
  isSegment : ∀ s ∈ segments, IsSegment s.toList
  deriving DecidableEq

/-- What can be wrong with a rule text. -/
inductive RuleFlaw where
  | empty
  | missingPath
  | emptySegment
  | innerNegation
  deriving DecidableEq, Repr

/-- A text that is no rule, and the first thing wrong with it. -/
structure RuleError where
  rule : String
  flaw : RuleFlaw
  deriving DecidableEq, Repr

namespace RuleFlaw

def reason : RuleFlaw → String
  | .empty => "rule is empty"
  | .missingPath => "rule has no path after the negation marker"
  | .emptySegment => "rule contains an empty segment"
  | .innerNegation => "negation marker is only allowed at the start of a rule"

end RuleFlaw

namespace RuleError

def message (e : RuleError) : String :=
  s!"Malformed rule '{e.rule}': {e.flaw.reason}"

end RuleError

namespace Rule

/-- The pieces between the dots of a text. There is always at least one, and a dot at an end or
beside another dot gives an empty piece. -/
def pieces : List Char → List (List Char)
  | [] => [[]]
  | c :: cs =>
    if c = '.' then [] :: pieces cs
    else match pieces cs with
      | [] => [[c]]
      | piece :: rest => (c :: piece) :: rest

theorem pieces_ne_nil (cs : List Char) : pieces cs ≠ [] := by
  cases cs with
  | nil => simp [pieces]
  | cons c cs =>
    simp only [pieces]
    split
    · simp
    · split <;> simp

theorem dot_notMem_of_mem_pieces {cs piece : List Char} (h : piece ∈ pieces cs) :
    '.' ∉ piece := by
  induction cs generalizing piece with
  | nil => simp_all [pieces]
  | cons c cs ih =>
    simp only [pieces] at h
    split at h
    · rcases List.mem_cons.mp h with rfl | h
      · simp
      · exact ih h
    · next hc =>
      split at h
      · next h0 => exact absurd h0 (pieces_ne_nil cs)
      · next p rest hp =>
        rcases List.mem_cons.mp h with rfl | h
        · simp only [List.mem_cons, not_or]
          exact ⟨fun e => hc e.symm, ih (by simp [hp])⟩
        · exact ih (by simp [hp, h])

/-- The flaw of one piece of a path, if it has one. -/
def pieceFlaw? (piece : List Char) : Option RuleFlaw :=
  match piece with
  | [] => some .emptySegment
  | '-' :: _ => some .innerNegation
  | _ => none

theorem isSegment_of_pieceFlaw? {piece : List Char} (dotless : '.' ∉ piece)
    (h : pieceFlaw? piece = none) : IsSegment piece := by
  refine ⟨?_, ?_, dotless⟩
  · rintro rfl; simp [pieceFlaw?] at h
  · intro h'
    obtain ⟨rest, rfl⟩ : ∃ rest, piece = '-' :: rest := by
      cases piece with
      | nil => simp at h'
      | cons c rest => exact ⟨rest, by simp_all⟩
    simp [pieceFlaw?] at h

/-- Reads a path; the first piece that is no segment decides what is wrong with it. -/
def parsePath (polarity : Polarity) (path : List Char) : Except RuleFlaw Rule :=
  match h : (pieces path).findSome? pieceFlaw? with
  | some flaw => .error flaw
  | none => .ok {
      polarity
      segments := (pieces path).map String.ofList
      segments_ne_nil := by simpa using pieces_ne_nil path
      isSegment := by
        intro s hs
        obtain ⟨piece, hp, rfl⟩ := List.mem_map.mp hs
        rw [String.toList_ofList]
        exact isSegment_of_pieceFlaw? (dot_notMem_of_mem_pieces hp)
          (List.findSome?_eq_none_iff.mp h piece hp) }

/-- Reads a rule from its characters. -/
def ofList : List Char → Except RuleFlaw Rule
  | [] => .error .empty
  | ['-'] => .error .missingPath
  | '-' :: path => parsePath .drop path
  | path => parsePath .keep path

/-- Reads a rule; the error carries the text. -/
def parse (text : String) : Except RuleError Rule :=
  (ofList text.toList).mapError fun flaw => ⟨text, flaw⟩

/-- Reads every rule of a list, stopping at the first that is malformed. -/
def parseAll : List String → Except RuleError (List Rule)
  | [] => .ok []
  | text :: texts => do
    let rule ← parse text
    let rules ← parseAll texts
    return rule :: rules

def isNegative (r : Rule) : Bool :=
  r.polarity = .drop

/-- The top-level attribute that the rule starts from. -/
def head (r : Rule) : String :=
  r.segments.head r.segments_ne_nil

/-- Writes a path with a dot between its segments. -/
def pathText (segments : List String) : String :=
  String.intercalate "." segments

/-- Writes the rule: the marker of a dropping rule, then the path. -/
def text (r : Rule) : String :=
  match r.polarity with
  | .keep => pathText r.segments
  | .drop => "-" ++ pathText r.segments

end Rule

end EntityJson
