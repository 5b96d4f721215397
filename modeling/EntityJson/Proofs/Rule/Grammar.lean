import EntityJson.Rule
import Mathlib.Data.List.Basic

/-!
# The grammar of rules

A text spells a rule if it is a path, perhaps with the negation marker in front of it, and a path is
segments with a dot between each two (`Rule.Spells`). Reading accepts these texts and no others, and
what it finds in a text is what the text spells (`Rule.parse_iff_spells`).

No segment contains a dot, so the pieces between the dots of a path are its segments
(`Rule.pieces_intercalate`); any text is its pieces with dots between them
(`Rule.intercalate_pieces`). No segment starts with the marker, so a marker at the front of a text is
no part of its first segment. Hence a text is read as the rule that is written like it, if there is one
(`Rule.parse_eq_ok_iff`).
-/

namespace EntityJson.Rule

/-! ## Paths -/

theorem pieces_of_dotless {cs : List Char} (dotless : '.' ∉ cs) : pieces cs = [cs] := by
  induction cs with
  | nil => rfl
  | cons c cs ih =>
    rw [List.mem_cons, not_or] at dotless
    rw [pieces, if_neg (Ne.symm dotless.1), ih dotless.2]

theorem pieces_append_dot {cs : List Char} (dotless : '.' ∉ cs) (path : List Char) :
    pieces (cs ++ '.' :: path) = cs :: pieces path := by
  induction cs with
  | nil => rfl
  | cons c cs ih =>
    rw [List.mem_cons, not_or] at dotless
    rw [List.cons_append, pieces, if_neg (Ne.symm dotless.1), ih dotless.2]

/-- Texts without dots are found again between the dots that are put between them. -/
theorem pieces_intercalate {segments : List (List Char)} (nonempty : segments ≠ [])
    (dotless : ∀ s ∈ segments, '.' ∉ s) : pieces (List.intercalate ['.'] segments) = segments := by
  induction segments with
  | nil => exact absurd rfl nonempty
  | cons s rest ih =>
    have first : '.' ∉ s := dotless s List.mem_cons_self
    cases rest with
    | nil => rw [List.intercalate_singleton, pieces_of_dotless first]
    | cons next rest =>
      rw [List.intercalate_cons_cons, List.append_assoc, List.singleton_append,
        pieces_append_dot first,
        ih (List.cons_ne_nil next rest) fun s mem => dotless s (List.mem_cons_of_mem _ mem)]

/-- A text is its pieces with dots between them. -/
theorem intercalate_pieces (path : List Char) : List.intercalate ['.'] (pieces path) = path := by
  induction path with
  | nil => rfl
  | cons c path ih =>
    obtain ⟨piece, rest, same⟩ := List.exists_cons_of_ne_nil (pieces_ne_nil path)
    rw [same] at ih
    rw [pieces, same]
    by_cases dot : c = '.'
    · rw [if_pos dot, List.intercalate_cons_cons, ih, dot]
      rfl
    · rw [if_neg dot]
      -- the character goes to the front of the first piece
      cases rest with
      | nil => rw [List.intercalate_singleton] at ih ⊢; rw [ih]
      | cons next rest =>
        rw [List.intercalate_cons_cons] at ih ⊢
        rw [List.cons_append, List.cons_append, ih]

/-- A segment has no flaw. -/
theorem pieceFlaw?_of_isSegment {piece : List Char} (segment : IsSegment piece) :
    pieceFlaw? piece = none := by
  obtain ⟨nonempty, unmarked, -⟩ := segment
  unfold pieceFlaw?
  split
  · exact absurd rfl nonempty
  · exact absurd rfl unmarked
  · rfl

/-- A path is read as the list of its pieces, if none of them has a flaw. -/
theorem parsePath_eq_ok_iff {polarity : Polarity} {path : List Char} {r : Rule} :
    parsePath polarity path = .ok r ↔
      (pieces path).findSome? pieceFlaw? = none ∧ r.polarity = polarity ∧
        r.segments = (pieces path).map String.ofList := by
  unfold parsePath
  split
  · next flaw found =>
    rw [found]
    exact iff_of_false nofun nofun
  · next flawless =>
    obtain ⟨p, segments, nonempty, isSegment⟩ := r
    rw [and_iff_right flawless, Except.ok.injEq, Rule.mk.injEq]
    exact and_congr eq_comm eq_comm

/-- The characters of the path of a rule. -/
def pathChars (r : Rule) : List Char :=
  List.intercalate ['.'] (r.segments.map String.toList)

theorem pieces_pathChars (r : Rule) : pieces r.pathChars = r.segments.map String.toList := by
  refine pieces_intercalate (List.map_eq_nil_iff.not.mpr r.segments_ne_nil) fun s mem => ?_
  obtain ⟨segment, among, rfl⟩ := List.mem_map.mp mem
  exact (r.isSegment segment among).2.2

/-- A path is read as the rule whose segments it is made of. -/
theorem parsePath_eq_ok_iff_pathChars {polarity : Polarity} {path : List Char} {r : Rule} :
    parsePath polarity path = .ok r ↔ r.polarity = polarity ∧ r.pathChars = path := by
  rw [parsePath_eq_ok_iff]
  constructor
  · rintro ⟨-, same, segments⟩
    refine ⟨same, ?_⟩
    rw [pathChars, segments, List.map_map]
    have characters : String.toList ∘ String.ofList = id := funext fun _ => String.toList_ofList
    rw [characters, List.map_id, intercalate_pieces]
  · rintro ⟨same, rfl⟩
    rw [pieces_pathChars]
    refine ⟨List.findSome?_eq_none_iff.mpr fun piece mem => ?_, same, ?_⟩
    · obtain ⟨segment, among, rfl⟩ := List.mem_map.mp mem
      exact pieceFlaw?_of_isSegment (r.isSegment segment among)
    · rw [List.map_map]
      have texts : String.ofList ∘ String.toList = id := funext fun _ => String.ofList_toList
      rw [texts, List.map_id]

/-- The path of a rule starts with the first character of its first segment. -/
theorem exists_pathChars (r : Rule) : ∃ c rest, r.pathChars = c :: rest ∧ c ≠ '-' := by
  obtain ⟨first, rest, segments⟩ := List.exists_cons_of_ne_nil r.segments_ne_nil
  obtain ⟨nonempty, unmarked, -⟩ := r.isSegment first (segments ▸ List.mem_cons_self)
  obtain ⟨c, cs, characters⟩ := List.exists_cons_of_ne_nil nonempty
  rw [characters] at unmarked
  rw [pathChars, segments, List.map_cons, characters]
  refine ⟨c, ?_⟩
  cases rest with
  | nil => exact ⟨cs, by rw [List.map_nil, List.intercalate_singleton], fun same => unmarked (same ▸ rfl)⟩
  | cons next rest =>
    rw [List.map_cons, List.intercalate_cons_cons]
    exact ⟨_, rfl, fun same => unmarked (same ▸ rfl)⟩

/-! ## The marker -/

/-- What follows the negation marker is a path, and a text without the marker is one. -/
theorem ofList_eq_ok {cs : List Char} {r : Rule} (h : ofList cs = .ok r) :
    (∃ path, path ≠ [] ∧ cs = '-' :: path ∧ parsePath .drop path = .ok r) ∨
      cs.head? ≠ some '-' ∧ parsePath .keep cs = .ok r := by
  unfold ofList at h
  split at h
  · cases h
  · cases h
  · next path nonempty => exact .inl ⟨path, fun empty => nonempty (by rw [empty]), rfl, h⟩
  · next nonempty marker unmarked =>
    refine .inr ⟨fun first => ?_, h⟩
    obtain ⟨path, rfl⟩ := List.head?_eq_some_iff.mp first
    exact unmarked path rfl

theorem ofList_marked {path : List Char} (nonempty : path ≠ []) :
    ofList ('-' :: path) = parsePath .drop path := by
  obtain ⟨c, path, rfl⟩ := List.exists_cons_of_ne_nil nonempty
  rfl

theorem ofList_unmarked {cs : List Char} (nonempty : cs ≠ []) (unmarked : cs.head? ≠ some '-') :
    ofList cs = parsePath .keep cs := by
  unfold ofList
  split
  · exact absurd rfl nonempty
  · exact absurd rfl unmarked
  · exact absurd rfl unmarked
  · rfl

theorem toList_pathText (segments : List String) :
    (pathText segments).toList = List.intercalate ['.'] (segments.map String.toList) := by
  rw [pathText, String.toList_intercalate]
  rfl

/-- A rule is written as its path, with the marker in front of it if the rule drops. -/
theorem toList_text (r : Rule) :
    r.text.toList = (if r.isNegative then ['-'] else []) ++ r.pathChars := by
  unfold text isNegative
  cases r.polarity with
  | keep => exact toList_pathText r.segments
  | drop =>
    rw [String.toList_append, toList_pathText]
    rfl

theorem ofList_eq_ok_iff {cs : List Char} {r : Rule} :
    ofList cs = .ok r ↔ r.text.toList = cs := by
  obtain ⟨c, rest, path, unmarked⟩ := exists_pathChars r
  have nonempty : r.pathChars ≠ [] := by
    rw [path]
    exact List.cons_ne_nil c rest
  rw [toList_text]
  constructor
  · intro read
    rcases ofList_eq_ok read with ⟨path, -, rfl, parsed⟩ | ⟨-, parsed⟩
    · obtain ⟨drop, rfl⟩ := parsePath_eq_ok_iff_pathChars.mp parsed
      simp [isNegative, drop]
    · obtain ⟨keep, rfl⟩ := parsePath_eq_ok_iff_pathChars.mp parsed
      simp [isNegative, keep]
  · rintro rfl
    cases polarity : r.polarity with
    | drop =>
      have marked : r.isNegative = true := decide_eq_true polarity
      rw [if_pos marked, List.singleton_append, ofList_marked nonempty]
      exact parsePath_eq_ok_iff_pathChars.mpr ⟨polarity, rfl⟩
    | keep =>
      have plain : ¬ r.isNegative = true := by simp [isNegative, polarity]
      have first : r.pathChars.head? ≠ some '-' := by
        rw [path]
        exact fun same => unmarked (Option.some.inj same)
      rw [if_neg plain, List.nil_append, ofList_unmarked nonempty first]
      exact parsePath_eq_ok_iff_pathChars.mpr ⟨polarity, rfl⟩

/-! ## Texts -/

/-- A text is read as the rule that is written like it. -/
theorem parse_eq_ok_iff {text : String} {r : Rule} : parse text = .ok r ↔ r.text = text := by
  rw [← String.toList_inj, ← ofList_eq_ok_iff, parse]
  cases ofList text.toList with
  | error flaw => exact iff_of_false nofun nofun
  | ok read =>
    constructor
    · rintro ⟨⟩
      rfl
    · rintro ⟨⟩
      rfl

/-- What is written is read again. -/
theorem parse_text (r : Rule) : parse r.text = .ok r :=
  parse_eq_ok_iff.mpr rfl

theorem parseAll_map_text (rules : List Rule) : parseAll (rules.map text) = .ok rules := by
  induction rules with
  | nil => rfl
  | cons r rules ih =>
    rw [List.map_cons, parseAll, parse_text, ih]
    rfl

/-- A text that is no rule comes back with the error. -/
theorem exists_parse_eq_error_iff {text : String} :
    (∃ flaw, parse text = .error ⟨text, flaw⟩) ↔ ¬ ∃ r, parse text = .ok r := by
  unfold parse
  cases ofList text.toList with
  | ok r => exact iff_of_false nofun (not_not_intro ⟨r, rfl⟩)
  | error flaw => exact iff_of_true ⟨flaw, rfl⟩ nofun

/-- A text spells a path of segments with a dot between each two, behind the negation marker if it is
negative. -/
structure Spells (text : String) (negative : Bool) (segments : List String) : Prop where
  segments_ne_nil : segments ≠ []
  isSegment : ∀ s ∈ segments, s ≠ "" ∧ '.' ∉ s.toList ∧ s.toList.head? ≠ some '-'
  toList_eq : text.toList
    = (if negative then ['-'] else []) ++ List.intercalate ['.'] (segments.map String.toList)

theorem spells_text (r : Rule) : Spells r.text r.isNegative r.segments where
  segments_ne_nil := r.segments_ne_nil
  isSegment s mem := by
    obtain ⟨nonempty, unmarked, dotless⟩ := r.isSegment s mem
    exact ⟨fun empty => nonempty (empty ▸ rfl), dotless, unmarked⟩
  toList_eq := toList_text r

theorem Spells.exists_rule {text : String} {negative : Bool} {segments : List String}
    (spells : Spells text negative segments) :
    ∃ r : Rule, r.text = text ∧ r.isNegative = negative ∧ r.segments = segments := by
  have isSegment : ∀ s ∈ segments, IsSegment s.toList := by
    intro s mem
    obtain ⟨nonempty, dotless, unmarked⟩ := spells.isSegment s mem
    exact ⟨fun empty => nonempty (String.toList_eq_nil_iff.mp empty), unmarked, dotless⟩
  let r : Rule := ⟨if negative then .drop else .keep, segments, spells.segments_ne_nil, isSegment⟩
  have marked : r.isNegative = negative := by
    show decide ((if negative then Polarity.drop else .keep) = .drop) = negative
    cases negative <;> rfl
  refine ⟨r, String.toList_inj.mp ?_, marked, rfl⟩
  rw [toList_text, marked, spells.toList_eq]
  rfl

/-- A text can be read exactly if it spells a path, perhaps behind the negation marker. It is then read
as the rule with the segments of this path, which drops if the marker is there, and is written like the
text. Any other text is refused with an error that carries it. Every rule is read from the text that is
written of it. -/
theorem parse_iff_spells (text : String) :
    (∀ negative segments, Spells text negative segments ↔
      ∃ r, parse text = .ok r ∧ r.isNegative = negative ∧ r.segments = segments) ∧
    (∀ r, parse text = .ok r ↔ r.text = text) ∧
    ((∃ flaw, parse text = .error ⟨text, flaw⟩) ↔
      ¬ ∃ negative segments, Spells text negative segments) ∧
    ∀ r : Rule, parse r.text = .ok r := by
  have spelled : ∀ negative segments, Spells text negative segments ↔
      ∃ r, parse text = .ok r ∧ r.isNegative = negative ∧ r.segments = segments := by
    intro negative segments
    constructor
    · intro spells
      obtain ⟨r, written, marked, path⟩ := spells.exists_rule
      exact ⟨r, parse_eq_ok_iff.mpr written, marked, path⟩
    · rintro ⟨r, read, rfl, rfl⟩
      obtain rfl := parse_eq_ok_iff.mp read
      exact spells_text r
  refine ⟨spelled, fun r => parse_eq_ok_iff, ?_, parse_text⟩
  rw [exists_parse_eq_error_iff]
  simp only [spelled]
  exact not_congr ⟨fun ⟨r, read⟩ => ⟨_, _, r, read, rfl, rfl⟩, fun ⟨_, _, r, read, _⟩ => ⟨r, read⟩⟩

example : parse "-a.b" = .ok ⟨.drop, ["a", "b"], nofun, by decide⟩ := by decide

example : parse "a.-b" = .error ⟨"a.-b", .innerNegation⟩ := by decide

end EntityJson.Rule
