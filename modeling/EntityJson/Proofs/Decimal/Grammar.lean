import EntityJson.Decimal.FieldFormat
import Mathlib.Data.List.Basic

/-!
# The grammar of decimal formats

A format is spelled as a text, a field in braces and another text (`DecimalFormat.Spelling`). The texts
have their braces doubled; the field is empty or a colon with components
(`FieldSpec.Components`), each of which may be missing. Components and spellings are well-formed by
construction, and they know nothing of the readers. Reading accepts what is spelled and nothing else,
and finds what the spelling says (`DecimalFormat.parse?_iff_spelled`).

Each reader takes the component that stands at the front of a text, provided that what follows cannot
be taken for a part of it. What follows are later components, and the character at the front of a
component tells that it is none of the earlier ones (`FieldSpec.place`, `FieldSpec.StartsFrom`). So the
readers find every component again, and for the same reason a text has no more than one spelling. In
the other direction each reader leaves the text that it has read as a component and a rest.
-/

namespace EntityJson

/-! ## Characters -/

/-- The character that asks for an alignment. -/
def Alignment.char : Alignment → Char
  | left => '<'
  | right => '>'
  | center => '^'
  | afterSign => '='

/-- The character of an alignment is read as that alignment. -/
theorem Alignment.ofChar?_char (a : Alignment) : ofChar? a.char = some a := by
  cases a <;> rfl

/-- And no other character is. -/
theorem Alignment.char_of_ofChar? {c : Char} {a : Alignment} (h : ofChar? c = some a) :
    a.char = c := by
  unfold ofChar? at h
  split at h <;> cases h <;> rfl

/-- The character that asks for a sign. -/
def SignStyle.char : SignStyle → Char
  | none => '-'
  | plus => '+'
  | blank => ' '

/-- The letters of the types. -/
def NumberStyle.letters : List (Char × NumberStyle) :=
  [('f', fixed), ('F', fixed), ('e', scientific false), ('E', scientific true), ('%', percent),
    ('g', general false), ('G', general true)]

/-- The letters of a style are those in the list, two for some of them. -/
theorem NumberStyle.ofChar?_eq_some_iff {c : Char} {style : NumberStyle} :
    ofChar? c = some style ↔ (c, style) ∈ letters := by
  constructor
  · intro h
    unfold ofChar? at h
    split at h <;> cases h <;> decide
  · intro mem
    unfold letters at mem
    simp only [List.mem_cons, List.not_mem_nil, or_false, Prod.mk.injEq] at mem
    rcases mem with ⟨rfl, rfl⟩ | ⟨rfl, rfl⟩ | ⟨rfl, rfl⟩ | ⟨rfl, rfl⟩ | ⟨rfl, rfl⟩ | ⟨rfl, rfl⟩
      | ⟨rfl, rfl⟩ <;> rfl

/-- A run of digits ends at the first character that is none. -/
theorem takeWhile_isDigit_append {whole rest : List Char} (digits : ∀ c ∈ whole, c.isDigit)
    (ends : ∀ c ∈ rest.head?, ¬ c.isDigit) :
    (whole ++ rest).takeWhile Char.isDigit = whole ∧
      (whole ++ rest).dropWhile Char.isDigit = rest := by
  rw [List.takeWhile_append_of_pos digits, List.dropWhile_append_of_pos digits]
  cases rest with
  | nil => exact ⟨List.append_nil _, rfl⟩
  | cons c rest =>
    have stop : ¬ c.isDigit := ends c rfl
    rw [List.takeWhile_cons_of_neg stop, List.dropWhile_cons_of_neg stop]
    exact ⟨List.append_nil _, rfl⟩

namespace FieldSpec

open Numeral

/-! ## Components -/

/-- The components of a field as they are written; a component that may be missing is an option, a
flag or a run of digits that may be empty. -/
@[ext]
structure Components where
  alignment : Option (Option Char × Alignment)
  sign : Option SignStyle
  noNegativeZero : Bool
  alwaysPoint : Bool
  zeroFill : Bool
  width : List Char
  separator : Option Char
  precision : Option (List Char)
  style : Option (Char × NumberStyle)
  fill_ne : ∀ c a, alignment = some (some c, a) → c ≠ '}'
  alignment_of_zeroFill : zeroFill = true → alignment = none
  width_digits : ∀ c ∈ width, c.isDigit
  zeroFill_of_width : width.head? = some '0' → zeroFill = true
  separator_eq : ∀ c, separator = some c → c = ',' ∨ c = '_'
  precision_digits : ∀ digits, precision = some digits → digits ≠ [] ∧ ∀ c ∈ digits, c.isDigit
  precision_lt : ∀ digits, precision = some digits → natural digits < wordLimit
  style_mem : ∀ letter, style = some letter → letter ∈ NumberStyle.letters

def alignmentText : Option (Option Char × Alignment) → List Char
  | none => []
  | some (none, a) => [a.char]
  | some (some fill, a) => [fill, a.char]

def signText (sign : Option SignStyle) : List Char :=
  (sign.map SignStyle.char).toList

def flagText (flag : Char) (given : Bool) : List Char :=
  if given then [flag] else []

def precisionText : Option (List Char) → List Char
  | none => []
  | some digits => '.' :: digits

def styleText (style : Option (Char × NumberStyle)) : List Char :=
  (style.map Prod.fst).toList

namespace Components

/-! The components from one of them on. -/

def fromStyle (x : Components) : List Char :=
  styleText x.style

def fromPrecision (x : Components) : List Char :=
  precisionText x.precision ++ x.fromStyle

def fromSeparator (x : Components) : List Char :=
  x.separator.toList ++ x.fromPrecision

def fromWidth (x : Components) : List Char :=
  x.width ++ x.fromSeparator

def fromZeroFill (x : Components) : List Char :=
  flagText '0' x.zeroFill ++ x.fromWidth

def fromAlwaysPoint (x : Components) : List Char :=
  flagText '#' x.alwaysPoint ++ x.fromZeroFill

def fromNoNegativeZero (x : Components) : List Char :=
  flagText 'z' x.noNegativeZero ++ x.fromAlwaysPoint

def fromSign (x : Components) : List Char :=
  signText x.sign ++ x.fromNoNegativeZero

/-- All components, one behind the other. -/
def chars (x : Components) : List Char :=
  alignmentText x.alignment ++ x.fromSign

/-- The type of a field that names none is general. -/
def numberStyle (x : Components) : NumberStyle :=
  (x.style.map Prod.snd).getD (.general false)

/-- What the components ask for. -/
def spec (x : Components) : FieldSpec where
  fill := if x.zeroFill then '0' else (x.alignment.bind Prod.fst).getD ' '
  alignment := if x.zeroFill then .afterSign else (x.alignment.map Prod.snd).getD .right
  sign := x.sign.getD .none
  noNegativeZero := x.noNegativeZero
  alwaysPoint := x.alwaysPoint
  zeroFill := x.zeroFill
  width := if natural x.width < wordLimit then natural x.width else 0
  separator := x.separator
  precision := x.precision.map fun digits =>
    match x.numberStyle with
    | .general _ => max 1 (natural digits)
    | _ => natural digits
  style := x.numberStyle

end Components

/-! ## What a component starts with -/

/-- Which of the components a character starts, counted from the sign on; the types come last. -/
def place (c : Char) : Nat :=
  if c = '+' ∨ c = '-' ∨ c = ' ' then 1
  else if c = 'z' then 2
  else if c = '#' then 3
  else if c.isDigit then 4
  else if c = ',' ∨ c = '_' then 5
  else if c = '.' then 6
  else 7

/-- Whether a text starts with one of the components from the given one on, if it is not empty. -/
def StartsFrom (k : Nat) (cs : List Char) : Prop :=
  ∀ c ∈ cs.head?, k ≤ place c

/-- What starts from a later component starts from an earlier one. -/
theorem StartsFrom.mono {k l : Nat} {cs : List Char} (h : StartsFrom l cs) (le : k ≤ l) :
    StartsFrom k cs :=
  fun c mem => Nat.le_trans le (h c mem)

/-- Two texts start from a component if both do, since the first may be empty. -/
theorem StartsFrom.append {k : Nat} {cs ds : List Char} (first : StartsFrom k cs)
    (second : StartsFrom k ds) : StartsFrom k (cs ++ ds) := by
  cases cs with
  | nil => exact second
  | cons c cs => exact first

/-- A text does not start with a character that stands for an earlier component. -/
theorem StartsFrom.head?_ne {k : Nat} {c : Char} {cs : List Char} (h : StartsFrom k cs)
    (before : place c < k) : cs.head? ≠ some c :=
  fun same => absurd (h c same) (Nat.not_le.mpr before)

/-- Digits stand for the width. -/
theorem place_of_isDigit {c : Char} (digit : c.isDigit) : place c = 4 := by
  have other : ∀ d : Char, ¬ d.isDigit → c ≠ d := by
    rintro d none rfl
    exact none digit
  unfold place
  rw [if_neg, if_neg (other 'z' (by decide)), if_neg (other '#' (by decide)), if_pos digit]
  rintro (same | same | same)
  · exact other '+' (by decide) same
  · exact other '-' (by decide) same
  · exact other ' ' (by decide) same

/-- Behind the width a text does not start with a digit. -/
theorem StartsFrom.not_isDigit {k : Nat} {cs : List Char} (h : StartsFrom k cs) (behind : 4 < k) :
    ∀ c ∈ cs.head?, ¬ c.isDigit := by
  intro c mem digit
  have le := h c mem
  rw [place_of_isDigit digit] at le
  exact absurd behind (Nat.not_lt.mpr le)

theorem startsFrom_digits {digits : List Char} (all : ∀ c ∈ digits, c.isDigit) :
    StartsFrom 4 digits :=
  fun c mem => Nat.le_of_eq (place_of_isDigit (all c (List.mem_of_mem_head? mem))).symm

/-- A written sign is found at the place of signs. -/
theorem place_of_mem_signText {sign : Option SignStyle} {c : Char} (mem : c ∈ signText sign) :
    place c = 1 := by
  cases sign with
  | none => cases mem
  | some style =>
    cases List.mem_singleton.mp mem
    cases style <;> rfl

/-- A written flag is found at its place. -/
theorem place_of_mem_flagText {flag c : Char} {given : Bool} (mem : c ∈ flagText flag given) :
    place c = place flag := by
  cases given with
  | false => cases mem
  | true => rw [List.mem_singleton.mp mem]

theorem startsFrom_flagText (flag : Char) (given : Bool) :
    StartsFrom (place flag) (flagText flag given) :=
  fun _ mem => Nat.le_of_eq (place_of_mem_flagText (List.mem_of_mem_head? mem)).symm

/-- A precision starts with its point. -/
theorem startsFrom_precisionText (precision : Option (List Char)) :
    StartsFrom 6 (precisionText precision) := by
  cases precision with
  | none => nofun
  | some digits =>
    intro c mem
    cases mem
    decide

namespace Components

variable (x : Components)

/-- What is left of a field from a component on starts from that component, whichever are missing. -/
theorem startsFrom_fromStyle : StartsFrom 7 x.fromStyle := by
  unfold fromStyle styleText
  cases same : x.style with
  | none => nofun
  | some letter =>
    have all : ∀ letter ∈ NumberStyle.letters, 7 ≤ place letter.1 := by decide
    intro c mem
    cases mem
    exact all letter (x.style_mem letter same)

theorem startsFrom_fromPrecision : StartsFrom 6 x.fromPrecision :=
  (startsFrom_precisionText _).append (x.startsFrom_fromStyle.mono (by decide))

theorem startsFrom_fromSeparator : StartsFrom 5 x.fromSeparator := by
  refine StartsFrom.append ?_ (x.startsFrom_fromPrecision.mono (by decide))
  cases same : x.separator with
  | none => nofun
  | some separator =>
    intro c mem
    cases mem
    rcases x.separator_eq separator same with rfl | rfl <;> decide

theorem startsFrom_fromWidth : StartsFrom 4 x.fromWidth :=
  (startsFrom_digits x.width_digits).append (x.startsFrom_fromSeparator.mono (by decide))

theorem startsFrom_fromZeroFill : StartsFrom 4 x.fromZeroFill :=
  (startsFrom_flagText '0' _).append x.startsFrom_fromWidth

theorem startsFrom_fromAlwaysPoint : StartsFrom 3 x.fromAlwaysPoint :=
  (startsFrom_flagText '#' _).append (x.startsFrom_fromZeroFill.mono (by decide))

theorem startsFrom_fromNoNegativeZero : StartsFrom 2 x.fromNoNegativeZero :=
  (startsFrom_flagText 'z' _).append (x.startsFrom_fromAlwaysPoint.mono (by decide))

/-- A width without the flag in front of it does not start like the flag. -/
theorem head?_fromWidth (none : x.zeroFill = false) : x.fromWidth.head? ≠ some '0' := by
  unfold fromWidth
  cases same : x.width with
  | nil =>
    intro zero
    exact absurd rfl (x.startsFrom_fromSeparator.not_isDigit (by decide) '0' zero)
  | cons c cs =>
    intro zero
    have given : x.zeroFill = true := x.zeroFill_of_width (by rw [same]; exact zero)
    rw [none] at given
    cases given

end Components

/-! ## Reading what is written

Each reader finds a component at the front of a text and leaves the rest, if the rest starts later in
the order of the components. -/

section Readers

variable {rest : List Char}

/-- An alignment is read, and whether a fill character stands in front of it, if nothing behind can
be taken for one. -/
theorem readAlignment_append (alignment : Option (Option Char × Alignment))
    (later : ∀ c ∈ rest, Alignment.ofChar? c = none) :
    readAlignment (alignmentText alignment ++ rest) = (alignment, rest) := by
  rcases alignment with _ | ⟨_ | fill, a⟩
  · rcases rest with _ | ⟨c, _ | ⟨d, rest⟩⟩
    · rfl
    · simp [alignmentText, readAlignment, later c]
    · simp [alignmentText, readAlignment, later c, later d]
  · rcases rest with _ | ⟨d, rest⟩
    · simp [alignmentText, readAlignment, Alignment.ofChar?_char]
    · simp [alignmentText, readAlignment, Alignment.ofChar?_char, later d]
  · simp [alignmentText, readAlignment, Alignment.ofChar?_char]

/-- A sign is read if a later component follows. None is the same as a minus. -/
theorem readSign_append (sign : Option SignStyle) (later : StartsFrom 2 rest) :
    readSign (signText sign ++ rest) = (sign.getD .none, rest) := by
  rcases sign with _ | sign
  · show readSign rest = (.none, rest)
    unfold readSign
    split
    next rest => exact absurd rfl (later.head?_ne (c := '+') (by decide))
    next rest => exact absurd rfl (later.head?_ne (c := '-') (by decide))
    next rest => exact absurd rfl (later.head?_ne (c := ' ') (by decide))
    · rfl
  · cases sign <;> rfl

/-- A flag is read, or its absence, if the same character does not follow. -/
theorem readFlag_append {flag : Char} (given : Bool)
    (later : given = false → rest.head? ≠ some flag) :
    readFlag flag (flagText flag given ++ rest) = (given, rest) := by
  cases given with
  | true => exact if_pos rfl
  | false =>
    cases rest with
    | nil => rfl
    | cons c rest => exact if_neg fun same => later rfl (congrArg some same)

/-- A run of digits is read to its end. -/
theorem readWord_append {digits : List Char} (all : ∀ c ∈ digits, c.isDigit)
    (later : StartsFrom 5 rest) :
    readWord (digits ++ rest) = (wordOfDigits? digits, rest) := by
  obtain ⟨taken, dropped⟩ :=
    takeWhile_isDigit_append all (later.not_isDigit (by decide))
  unfold readWord
  rw [taken, dropped]

/-- A separator is read if a later component follows. -/
theorem readSeparator_append {separator : Option Char}
    (known : ∀ c, separator = some c → c = ',' ∨ c = '_') (later : StartsFrom 6 rest) :
    readSeparator (separator.toList ++ rest) = (separator, rest) := by
  cases separator with
  | none =>
    show readSeparator rest = (none, rest)
    unfold readSeparator
    split
    next rest => exact absurd rfl (later.head?_ne (c := ',') (by decide))
    next rest => exact absurd rfl (later.head?_ne (c := '_') (by decide))
    · rfl
  | some c => rcases known c rfl with rfl | rfl <;> rfl

/-- A precision that is a word is read if a style or nothing follows. -/
theorem readPrecision?_append {precision : Option (List Char)}
    (digits : ∀ ds, precision = some ds → ds ≠ [] ∧ ∀ c ∈ ds, c.isDigit)
    (fits : ∀ ds, precision = some ds → natural ds < wordLimit) (later : StartsFrom 7 rest) :
    readPrecision? (precisionText precision ++ rest) = some (precision.map natural, rest) := by
  cases precision with
  | none =>
    show readPrecision? rest = some (none, rest)
    unfold readPrecision?
    split
    next rest => exact absurd rfl (later.head?_ne (c := '.') (by decide))
    · rfl
  | some ds =>
    obtain ⟨nonempty, all⟩ := digits ds rfl
    have word : wordOfDigits? ds = some (natural ds) :=
      if_neg (not_or.mpr ⟨by simpa using nonempty, Nat.not_le.mpr (fits ds rfl)⟩)
    have read := readWord_append all (later.mono (by decide))
    rw [word] at read
    simp [precisionText, readPrecision?, read]

/-- At the end of a field a style is read; the general one is meant where it is missing. -/
theorem readStyle?_styleText {style : Option (Char × NumberStyle)}
    (known : ∀ letter, style = some letter → letter ∈ NumberStyle.letters) :
    readStyle? (styleText style) = some ((style.map Prod.snd).getD (.general false)) := by
  cases style with
  | none => rfl
  | some letter => exact NumberStyle.ofChar?_eq_some_iff.mpr (known letter rfl)

end Readers

namespace Components

variable {x y : Components}

/-- Behind the alignment only the type has a letter of the last place. -/
theorem place_of_mem_fromSign {c : Char} (mem : c ∈ x.fromSign) : place c < 7 ∨ c ∈ x.fromStyle := by
  unfold fromSign fromNoNegativeZero fromAlwaysPoint fromZeroFill fromWidth fromSeparator fromPrecision
    at mem
  simp only [List.mem_append] at mem
  have digit : ∀ {c : Char}, c.isDigit → place c < 7 := fun digit => by
    rw [place_of_isDigit digit]
    decide
  rcases mem with sign | zero | point | fill | width | separator | precision | style
  · exact .inl (place_of_mem_signText sign ▸ by decide)
  · exact .inl (place_of_mem_flagText zero ▸ by decide)
  · exact .inl (place_of_mem_flagText point ▸ by decide)
  · exact .inl (place_of_mem_flagText fill ▸ by decide)
  · exact .inl (digit (x.width_digits c width))
  · left
    rcases x.separator_eq c (Option.mem_toList.mp separator) with rfl | rfl <;> decide
  · left
    cases same : x.precision with
    | none =>
      rw [same] at precision
      cases precision
    | some digits =>
      rw [same] at precision
      rcases List.mem_cons.mp precision with rfl | mem
      · decide
      · exact digit ((x.precision_digits digits same).2 c mem)
  · exact .inr style

/-- Behind the alignment no character is an alignment or closes the field. -/
theorem inner_of_mem_fromSign {c : Char} (mem : c ∈ x.fromSign) :
    Alignment.ofChar? c = none ∧ c ≠ '}' := by
  have early : place c < 7 → Alignment.ofChar? c = none ∧ c ≠ '}' := by
    intro early
    constructor
    · rw [Option.eq_none_iff_forall_ne_some]
      intro a found
      rw [← Alignment.char_of_ofChar? found] at early
      cases a <;> exact absurd early (by decide)
    · rintro rfl
      exact absurd early (by decide)
  have letters : ∀ letter ∈ NumberStyle.letters,
      Alignment.ofChar? letter.1 = none ∧ letter.1 ≠ '}' := by decide
  rcases place_of_mem_fromSign mem with place | style
  · exact early place
  · obtain ⟨letter, found, rfl⟩ := Option.map_eq_some_iff.mp (Option.mem_toList.mp style)
    exact letters letter (x.style_mem letter found)

/-- No component closes the field. -/
theorem close_not_mem_chars (x : Components) : '}' ∉ x.chars := by
  intro mem
  rcases List.mem_append.mp mem with alignment | behind
  · cases same : x.alignment with
    | none =>
      rw [same] at alignment
      cases alignment
    | some aligned =>
      obtain ⟨fill, a⟩ := aligned
      rw [same] at alignment
      have other : a.char ≠ '}' := by cases a <;> decide
      cases fill with
      | none => exact other (List.mem_singleton.mp alignment).symm
      | some c =>
        rcases List.mem_pair.mp alignment with found | found
        · exact x.fill_ne c a same found.symm
        · exact other found.symm
  · exact (inner_of_mem_fromSign behind).2 rfl

/-! ### One component after the other -/

/-- Each reader takes its component off the front and leaves what starts from the next one. -/
theorem readAlignment_chars (x : Components) : readAlignment x.chars = (x.alignment, x.fromSign) :=
  readAlignment_append _ fun _ mem => (inner_of_mem_fromSign mem).1

theorem readSign_fromSign (x : Components) :
    readSign x.fromSign = (x.sign.getD .none, x.fromNoNegativeZero) :=
  readSign_append _ x.startsFrom_fromNoNegativeZero

theorem readFlag_fromNoNegativeZero (x : Components) :
    readFlag 'z' x.fromNoNegativeZero = (x.noNegativeZero, x.fromAlwaysPoint) :=
  readFlag_append _ fun _ => x.startsFrom_fromAlwaysPoint.head?_ne (by decide)

theorem readFlag_fromAlwaysPoint (x : Components) :
    readFlag '#' x.fromAlwaysPoint = (x.alwaysPoint, x.fromZeroFill) :=
  readFlag_append _ fun _ => x.startsFrom_fromZeroFill.head?_ne (by decide)

theorem readFlag_fromZeroFill (x : Components) :
    readFlag '0' x.fromZeroFill = (x.zeroFill, x.fromWidth) :=
  readFlag_append _ x.head?_fromWidth

theorem readWord_fromWidth (x : Components) :
    readWord x.fromWidth = (wordOfDigits? x.width, x.fromSeparator) :=
  readWord_append x.width_digits x.startsFrom_fromSeparator

theorem readSeparator_fromSeparator (x : Components) :
    readSeparator x.fromSeparator = (x.separator, x.fromPrecision) :=
  readSeparator_append x.separator_eq x.startsFrom_fromPrecision

/-- The precision of a field is a word, so the field is not invalid for it. -/
theorem readPrecision?_fromPrecision (x : Components) :
    readPrecision? x.fromPrecision = some (x.precision.map natural, x.fromStyle) :=
  readPrecision?_append x.precision_digits x.precision_lt x.startsFrom_fromStyle

theorem readStyle?_fromStyle (x : Components) : readStyle? x.fromStyle = some x.numberStyle :=
  readStyle?_styleText x.style_mem

/-- A width that is missing or fits no word counts as zero. -/
theorem wordOfDigits?_getD (digits : List Char) :
    (wordOfDigits? digits).getD 0
      = if natural digits < wordLimit then natural digits else 0 := by
  unfold wordOfDigits?
  simp only
  by_cases empty : digits.isEmpty
  · rw [if_pos (.inl empty), List.isEmpty_iff.mp empty]
    rfl
  · by_cases fits : natural digits < wordLimit
    · rw [if_neg (not_or.mpr ⟨empty, Nat.not_le.mpr fits⟩), if_pos fits]
      rfl
    · rw [if_pos (.inr (Nat.not_lt.mp fits)), if_neg fits]
      rfl

/-- The general style shows one digit at least. -/
theorem shownPrecision_map (style : NumberStyle) (precision : Option (List Char)) :
    shownPrecision style (precision.map natural) = precision.map fun digits =>
      match style with
      | .general _ => max 1 (natural digits)
      | _ => natural digits := by
  cases style <;> cases precision <;> rfl

/-- All components of a field are read as they were written. -/
theorem ofComponents?_chars (x : Components) : ofComponents? x.chars = some x.spec := by
  unfold ofComponents?
  simp only [readAlignment_chars, readSign_fromSign, readFlag_fromNoNegativeZero,
    readFlag_fromAlwaysPoint, readFlag_fromZeroFill, readWord_fromWidth, readSeparator_fromSeparator,
    readPrecision?_fromPrecision, readStyle?_fromStyle, Option.bind_eq_bind, Option.bind_some,
    wordOfDigits?_getD, shownPrecision_map]
  cases zeroFill : x.zeroFill with
  | true =>
    have alone := x.alignment_of_zeroFill zeroFill
    simp [alone, spec, zeroFill]
  | false =>
    rcases aligned : x.alignment with _ | ⟨fill, a⟩ <;> simp [spec, zeroFill, aligned]

/-! ### Components are told apart by their text -/

/-- Texts of a component differ if the components do; a missing sign is not a minus that is
written. -/
theorem signText_injective : Function.Injective signText := by
  intro sign other same
  rcases sign with _ | sign <;> rcases other with _ | other
  · rfl
  · cases same
  · cases same
  · have chars : sign.char = other.char := List.singleton_inj.mp same
    cases sign <;> cases other <;> first | rfl | exact absurd chars (by decide)

theorem precisionText_injective : Function.Injective precisionText := by
  intro precision other same
  cases precision <;> cases other <;> cases same <;> rfl

/-- The letter of a type tells the type. -/
theorem styleText_inj {style other : Option (Char × NumberStyle)}
    (known : ∀ letter, style = some letter → letter ∈ NumberStyle.letters)
    (known' : ∀ letter, other = some letter → letter ∈ NumberStyle.letters)
    (same : styleText style = styleText other) : style = other := by
  rcases style with _ | ⟨c, style⟩ <;> rcases other with _ | ⟨d, other⟩
  · rfl
  · cases same
  · cases same
  · obtain rfl : c = d := List.singleton_inj.mp same
    have found := NumberStyle.ofChar?_eq_some_iff.mpr (known _ rfl)
    rw [NumberStyle.ofChar?_eq_some_iff.mpr (known' _ rfl)] at found
    cases found
    rfl

/-- A text is written by one list of components at most: each reader leaves what is behind the
component that it takes, so both lists have the same text from there on. -/
theorem chars_injective : Function.Injective chars := by
  intro x y same
  -- What the readers of signs and digits give does not tell what was written, but what they leave
  -- does: the text in front of it is the same as well.
  have alignment := congrArg readAlignment same
  rw [readAlignment_chars, readAlignment_chars, Prod.mk.injEq] at alignment
  have noNegativeZero := congrArg (fun cs => (readSign cs).2) alignment.2
  simp only [readSign_fromSign] at noNegativeZero
  have sign := alignment.2
  unfold fromSign at sign
  rw [noNegativeZero] at sign
  have alwaysPoint := congrArg (readFlag 'z') noNegativeZero
  rw [readFlag_fromNoNegativeZero, readFlag_fromNoNegativeZero, Prod.mk.injEq] at alwaysPoint
  have zeroFill := congrArg (readFlag '#') alwaysPoint.2
  rw [readFlag_fromAlwaysPoint, readFlag_fromAlwaysPoint, Prod.mk.injEq] at zeroFill
  have width := congrArg (readFlag '0') zeroFill.2
  rw [readFlag_fromZeroFill, readFlag_fromZeroFill, Prod.mk.injEq] at width
  have separator := congrArg (fun cs => (readWord cs).2) width.2
  simp only [readWord_fromWidth] at separator
  have digits := width.2
  unfold fromWidth at digits
  rw [separator] at digits
  have precision := congrArg readSeparator separator
  rw [readSeparator_fromSeparator, readSeparator_fromSeparator, Prod.mk.injEq] at precision
  have style := congrArg readPrecision? precision.2
  rw [readPrecision?_fromPrecision, readPrecision?_fromPrecision, Option.some.injEq,
    Prod.mk.injEq] at style
  have places := precision.2
  unfold fromPrecision at places
  rw [style.2] at places
  exact Components.ext alignment.1 (signText_injective (List.append_cancel_right sign))
    alwaysPoint.1 zeroFill.1 width.1 (List.append_cancel_right digits) precision.1
    (precisionText_injective (List.append_cancel_right places))
    (styleText_inj x.style_mem y.style_mem style.2)

/-- A second character that is an alignment makes the first one the fill. -/
theorem alignment_of_second {first : Char} {a : Alignment} {rest : List Char}
    (written : x.chars = first :: a.char :: rest) : x.alignment = some (some first, a) := by
  have read := readAlignment_chars x
  rw [written] at read
  simp only [readAlignment, Alignment.ofChar?_char, Prod.mk.injEq] at read
  exact read.1.symm

end Components

/-! ## What is read has been written

Each reader splits a text into the component that it finds and the rest. -/

section Readers

variable {cs rest : List Char}

/-- What is read as an alignment was written as one. -/
theorem alignmentText_append {alignment : Option (Option Char × Alignment)}
    (read : readAlignment cs = (alignment, rest)) : alignmentText alignment ++ rest = cs := by
  rcases cs with _ | ⟨c, _ | ⟨d, cs⟩⟩
  · cases read
    rfl
  · cases found : Alignment.ofChar? c <;> simp only [readAlignment, found] at read <;> cases read
    · rfl
    · exact congrArg ([·]) (Alignment.char_of_ofChar? found)
  · cases second : Alignment.ofChar? d with
    | some a =>
      simp only [readAlignment, second] at read
      cases read
      exact congrArg (c :: · :: rest) (Alignment.char_of_ofChar? second)
    | none =>
      cases first : Alignment.ofChar? c <;> simp only [readAlignment, second, first] at read <;>
        cases read
      · rfl
      · exact congrArg (· :: d :: cs) (Alignment.char_of_ofChar? first)

/-- What is read as a sign, or as none, was written as one. -/
theorem exists_signText_append {style : SignStyle} (read : readSign cs = (style, rest)) :
    ∃ sign, signText sign ++ rest = cs := by
  unfold readSign at read
  split at read <;> cases read
  · exact ⟨some .plus, rfl⟩
  · exact ⟨some .none, rfl⟩
  · exact ⟨some .blank, rfl⟩
  · exact ⟨none, rfl⟩

/-- A flag that is not read is not there. -/
theorem flagText_append {flag : Char} {given : Bool} (read : readFlag flag cs = (given, rest)) :
    flagText flag given ++ rest = cs ∧ (given = false → rest.head? ≠ some flag) := by
  cases cs with
  | nil =>
    cases read
    simp [flagText]
  | cons c cs =>
    by_cases same : c = flag
    · rw [readFlag, if_pos same] at read
      cases read
      simp [flagText, same]
    · rw [readFlag, if_neg same] at read
      cases read
      exact ⟨rfl, fun _ head => same (Option.some.inj head)⟩

theorem isDigit_of_mem_takeWhile {c : Char} (mem : c ∈ cs.takeWhile Char.isDigit) : c.isDigit :=
  List.all_eq_true.mp List.all_takeWhile c mem

/-- What is read as a width was written in digits. -/
theorem digits_append {word : Option Nat} (read : readWord cs = (word, rest)) :
    cs.takeWhile Char.isDigit ++ rest = cs ∧ wordOfDigits? (cs.takeWhile Char.isDigit) = word := by
  cases read
  exact ⟨List.takeWhile_append_dropWhile, rfl⟩

/-- There are two separators. -/
theorem readSeparator_some {c : Char} (h : (readSeparator cs).1 = some c) :
    c = ',' ∨ c = '_' := by
  unfold readSeparator at h
  split at h
  · exact .inl (Option.some.inj h).symm
  · exact .inr (Option.some.inj h).symm
  · cases h

/-- What is read as a separator was written as one. -/
theorem separator_append {separator : Option Char} (read : readSeparator cs = (separator, rest)) :
    separator.toList ++ rest = cs := by
  unfold readSeparator at read
  split at read <;> cases read <;> rfl

/-- What is read as a precision was written as a point and digits, which are a word. -/
theorem exists_precisionText_append {precision : Option Nat}
    (read : readPrecision? cs = some (precision, rest)) :
    ∃ written, precisionText written ++ rest = cs ∧
      (∀ digits, written = some digits → digits ≠ [] ∧ ∀ c ∈ digits, c.isDigit) ∧
      ∀ digits, written = some digits → natural digits < wordLimit := by
  unfold readPrecision? at read
  split at read
  next cs =>
    obtain ⟨p, word, same⟩ := Option.map_eq_some_iff.mp read
    cases same
    obtain ⟨split, value⟩ := digits_append (Prod.ext word rfl)
    unfold wordOfDigits? at value
    simp only [Option.ite_none_left_eq_some, not_or, Nat.not_le] at value
    obtain ⟨⟨nonempty, fits⟩, -⟩ := value
    refine ⟨some (cs.takeWhile Char.isDigit), congrArg ('.' :: ·) split, ?_, ?_⟩
    · rintro _ ⟨⟩
      exact ⟨by simpa using nonempty, fun c => isDigit_of_mem_takeWhile⟩
    · rintro _ ⟨⟩
      exact fits
  · cases read
    exact ⟨none, rfl, nofun, nofun⟩

/-- What is read as a style was written as one of the letters. -/
theorem exists_styleText_eq {style : NumberStyle} (read : readStyle? cs = some style) :
    ∃ written, styleText written = cs ∧ ∀ letter, written = some letter →
      letter ∈ NumberStyle.letters := by
  unfold readStyle? at read
  split at read
  · exact ⟨none, rfl, nofun⟩
  next c =>
    refine ⟨some (c, style), rfl, ?_⟩
    rintro letter ⟨⟩
    exact NumberStyle.ofChar?_eq_some_iff.mp read
  · cases read

end Readers

/-- A text that is read consists of components. -/
theorem exists_chars_of_ofComponents? {cs : List Char} {field : FieldSpec}
    (closed : '}' ∉ cs) (read : ofComponents? cs = some field) :
    ∃ x : Components, x.chars = cs := by
  -- what each reader finds and leaves, in the order in which they are applied
  obtain ⟨alignment, fromSign, alignmentRead⟩ : ∃ a r, readAlignment cs = (a, r) := ⟨_, _, rfl⟩
  obtain ⟨style, fromNegative, signRead⟩ : ∃ s r, readSign fromSign = (s, r) := ⟨_, _, rfl⟩
  obtain ⟨noNegativeZero, fromPoint, negativeRead⟩ : ∃ b r, readFlag 'z' fromNegative = (b, r) :=
    ⟨_, _, rfl⟩
  obtain ⟨alwaysPoint, fromZeroFill, pointRead⟩ : ∃ b r, readFlag '#' fromPoint = (b, r) :=
    ⟨_, _, rfl⟩
  obtain ⟨zeroFill, fromWidth, zeroRead⟩ : ∃ b r, readFlag '0' fromZeroFill = (b, r) :=
    ⟨_, _, rfl⟩
  obtain ⟨word, fromSeparator, widthRead⟩ : ∃ w r, readWord fromWidth = (w, r) := ⟨_, _, rfl⟩
  obtain ⟨separator, fromPrecision, separatorRead⟩ : ∃ s r, readSeparator fromSeparator = (s, r) :=
    ⟨_, _, rfl⟩
  unfold ofComponents? at read
  simp only [alignmentRead, signRead, negativeRead, pointRead, zeroRead, widthRead, separatorRead,
    Option.bind_eq_bind, Option.bind_eq_some_iff, Option.ite_none_left_eq_some] at read
  obtain ⟨⟨precision, fromStyle⟩, precisionRead, style, styleRead, unfilled, -⟩ := read
  -- each of them as a component in front of what is left
  obtain ⟨sign, signWritten⟩ := exists_signText_append signRead
  obtain ⟨negativeWritten, -⟩ := flagText_append negativeRead
  obtain ⟨pointWritten, -⟩ := flagText_append pointRead
  obtain ⟨zeroWritten, unflagged⟩ := flagText_append zeroRead
  obtain ⟨widthWritten, -⟩ := digits_append widthRead
  obtain ⟨places, placesWritten, digits, fits⟩ := exists_precisionText_append precisionRead
  obtain ⟨letter, rfl, known⟩ := exists_styleText_eq styleRead
  have alignmentWritten := alignmentText_append alignmentRead
  refine ⟨{
    alignment, sign, noNegativeZero, alwaysPoint, zeroFill, separator
    width := fromWidth.takeWhile Char.isDigit
    precision := places
    style := letter
    fill_ne := ?_
    alignment_of_zeroFill := ?_
    width_digits := fun c => isDigit_of_mem_takeWhile
    zeroFill_of_width := ?_
    separator_eq := ?_
    precision_digits := digits
    precision_lt := fits
    style_mem := known }, ?_⟩
  · rintro c a rfl rfl
    apply closed
    rw [← alignmentWritten]
    exact List.mem_cons_self
  · intro filled
    exact Option.not_isSome_iff_eq_none.mp fun some => unfilled ⟨filled, some⟩
  · intro zero
    by_contra none
    apply unflagged (Bool.not_eq_true _ ▸ none)
    rw [← widthWritten, List.head?_append, zero]
    rfl
  · intro c found
    have read : (readSeparator fromSeparator).1 = some c := by rw [separatorRead, found]
    exact readSeparator_some read
  · show alignmentText alignment ++ (signText sign ++ (flagText 'z' noNegativeZero
      ++ (flagText '#' alwaysPoint ++ (flagText '0' zeroFill ++ (fromWidth.takeWhile Char.isDigit
      ++ (separator.toList ++ (precisionText places ++ styleText letter))))))) = cs
    rw [placesWritten, separator_append separatorRead, widthWritten, zeroWritten, pointWritten,
      negativeWritten, signWritten, alignmentWritten]

/-! ## Fields -/

/-- What stands between the braces of a field. Without components there is no colon either. -/
def bodyText : Option Components → List Char
  | none => []
  | some x => ':' :: x.chars

/-- The inside of a field does not close it. -/
theorem close_not_mem_bodyText (components : Option Components) : '}' ∉ bodyText components := by
  cases components with
  | none => exact List.not_mem_nil
  | some x =>
    intro mem
    rcases List.mem_cons.mp mem with colon | inside
    · cases colon
    · exact x.close_not_mem_chars inside

/-- Fields that are written alike are the same. -/
theorem bodyText_injective : Function.Injective bodyText := by
  intro components other same
  cases components with
  | none => cases other <;> cases same; rfl
  | some x =>
    cases other with
    | none => cases same
    | some y => exact congrArg some (Components.chars_injective (List.cons.inj same).2)

/-- A field without components is a plain one, and reading finds the components of any other. -/
theorem ofList?_bodyText (components : Option Components) :
    ofList? (bodyText components) = some ((components.map Components.spec).getD plain) := by
  cases components with
  | none => rfl
  | some x => exact x.ofComponents?_chars

/-- What is read as the inside of a field was written as one. -/
theorem exists_components_of_ofList? {body : List Char} {field : FieldSpec} (closed : '}' ∉ body)
    (read : ofList? body = some field) : ∃ components, bodyText components = body := by
  unfold ofList? at read
  split at read
  · exact ⟨none, rfl⟩
  next cs =>
    obtain ⟨x, rfl⟩ := exists_chars_of_ofComponents?
      (fun mem => closed (List.mem_cons_of_mem _ mem)) read
    exact ⟨some x, rfl⟩
  · cases read

end FieldSpec

/-! ## Formats -/

namespace DecimalFormat

open FieldSpec (bodyText)

/-- A text with each of its braces doubled. -/
def escaped : List Char → List Char
  | [] => []
  | c :: cs => if c = '{' ∨ c = '}' then c :: c :: escaped cs else c :: escaped cs

/-- A format as it is spelled. -/
@[ext]
structure Spelling where
  before : List Char
  components : Option FieldSpec.Components
  after : List Char

namespace Spelling

def chars (s : Spelling) : List Char :=
  escaped s.before ++ '{' :: (bodyText s.components ++ '}' :: escaped s.after)

/-- What the spelling says. -/
def format (s : Spelling) : DecimalFormat where
  before := s.before
  field := (s.components.map FieldSpec.Components.spec).getD .plain
  after := s.after

end Spelling

/-! ### Texts with doubled braces -/

/-- A character that is no brace stands for itself. -/
theorem readText?_cons {c : Char} (cs : List Char) (other : ¬ (c = '{' ∨ c = '}')) :
    readText? (c :: cs) = (readText? cs).map fun (text, rest) => (c :: text, rest) := by
  rw [not_or] at other
  rw [readText?.eq_def]
  split
  next same => cases same
  next same => exact absurd (List.cons.inj same).1 other.1
  next same => exact absurd (List.cons.inj same).1 other.2
  next same => exact absurd (List.cons.inj same).1 other.1
  next same => exact absurd (List.cons.inj same).1 other.2
  next same => cases same; rfl

/-- A single brace ends the text in front of a field. -/
theorem readText?_open {field : List Char} (single : field.head? ≠ some '{') :
    readText? ('{' :: field) = some ([], '{' :: field) := by
  cases field with
  | nil => rfl
  | cons c field =>
    rw [readText?.eq_4]
    rintro rest same
    exact single (congrArg List.head? same)

/-- Reading a text goes on to the end or to a brace that opens a field, and to no other place. -/
theorem readText?_eq_some_iff {cs text rest : List Char} :
    readText? cs = some (text, rest) ↔ cs = escaped text ++ rest ∧
      (rest = [] ∨ ∃ field, rest = '{' :: field ∧ field.head? ≠ some '{') := by
  constructor
  · intro read
    fun_induction readText? cs generalizing text rest with
    | case1 =>
      cases read
      exact ⟨rfl, .inl rfl⟩
    | case2 cs ih | case3 cs ih =>
      obtain ⟨⟨text, rest⟩, found, same⟩ := Option.map_eq_some_iff.mp read
      cases same
      obtain ⟨rfl, stop⟩ := ih found
      exact ⟨rfl, stop⟩
    | case4 field single =>
      cases read
      refine ⟨rfl, .inr ⟨field, rfl, fun double => ?_⟩⟩
      obtain ⟨rest, same⟩ := List.head?_eq_some_iff.mp double
      exact single rest same
    | case5 => cases read
    | case6 c cs _ _ notOpen notClose ih =>
      obtain ⟨⟨text, rest⟩, found, same⟩ := Option.map_eq_some_iff.mp read
      cases same
      obtain ⟨rfl, stop⟩ := ih found
      rw [escaped, if_neg (not_or.mpr ⟨notOpen, notClose⟩)]
      exact ⟨rfl, stop⟩
  · rintro ⟨rfl, stop⟩
    induction text with
    | nil =>
      rcases stop with rfl | ⟨field, rfl, single⟩
      · rfl
      · exact readText?_open single
    | cons c text ih =>
      by_cases brace : c = '{' ∨ c = '}'
      · rcases brace with rfl | rfl
        · exact congrArg (Option.map fun (text, rest) => ('{' :: text, rest)) ih
        · exact congrArg (Option.map fun (text, rest) => ('}' :: text, rest)) ih
      · rw [escaped, if_neg brace, List.cons_append, readText?_cons _ brace, ih]
        rfl

/-- A text with all braces doubled is read to its end. -/
theorem readText?_escaped (text : List Char) : readText? (escaped text) = some (text, []) :=
  readText?_eq_some_iff.mpr ⟨(List.append_nil _).symm, .inl rfl⟩

/-! ### The field between the texts -/

/-- The field ends at the first brace that closes. -/
theorem split_at_close {body : List Char} (closed : '}' ∉ body) (behind : List Char) :
    (body ++ '}' :: behind).takeWhile (· ≠ '}') = body ∧
      (body ++ '}' :: behind).dropWhile (· ≠ '}') = '}' :: behind := by
  have inside : ∀ c ∈ body, decide (c ≠ '}') = true := fun c mem =>
    decide_eq_true (ne_of_mem_of_not_mem mem closed)
  rw [List.takeWhile_append_of_pos inside, List.dropWhile_append_of_pos inside]
  exact ⟨List.append_nil _, rfl⟩

namespace Spelling

/-- In a spelling the text in front of the field is read up to its brace. -/
theorem readText?_chars (s : Spelling) : readText? s.chars
    = some (s.before, '{' :: (bodyText s.components ++ '}' :: escaped s.after)) := by
  refine readText?_eq_some_iff.mpr ⟨rfl, .inr ⟨_, rfl, ?_⟩⟩
  cases s.components <;> exact fun same => absurd (Option.some.inj same) (by decide)

/-- Reading finds what a spelling says. -/
theorem ofList?_chars (s : Spelling) : ofList? s.chars = some s.format := by
  obtain ⟨taken, dropped⟩ :=
    split_at_close (FieldSpec.close_not_mem_bodyText s.components) (escaped s.after)
  unfold ofList?
  simp only [s.readText?_chars, taken, dropped, FieldSpec.ofList?_bodyText, readText?_escaped,
    Option.bind_eq_bind, Option.bind_some]
  rfl

/-- A format has no two spellings. -/
theorem chars_injective : Function.Injective chars := by
  intro s t same
  have first := congrArg readText? same
  rw [s.readText?_chars, t.readText?_chars, Option.some.injEq, Prod.mk.injEq, List.cons.injEq]
    at first
  obtain ⟨before, -, inside⟩ := first
  obtain ⟨taken, dropped⟩ :=
    split_at_close (FieldSpec.close_not_mem_bodyText s.components) (escaped s.after)
  obtain ⟨taken', dropped'⟩ :=
    split_at_close (FieldSpec.close_not_mem_bodyText t.components) (escaped t.after)
  rw [inside] at taken dropped
  have after := congrArg readText? (List.cons.inj (dropped.symm.trans dropped')).2
  rw [readText?_escaped, readText?_escaped, Option.some.injEq, Prod.mk.injEq] at after
  exact Spelling.ext before (FieldSpec.bodyText_injective (taken.symm.trans taken')) after.1

end Spelling

/-- What is read has a spelling, and says the same as it. -/
theorem exists_spelling_of_ofList? {cs : List Char} {f : DecimalFormat} (read : ofList? cs = some f) :
    ∃ s : Spelling, s.chars = cs ∧ s.format = f := by
  -- Only the text has to be found: what it says is read from it.
  suffices written : ∃ s : Spelling, s.chars = cs by
    obtain ⟨s, rfl⟩ := written
    rw [s.ofList?_chars] at read
    exact ⟨s, rfl, Option.some.inj read⟩
  unfold ofList? at read
  obtain ⟨⟨before, behind⟩, beforeRead, read⟩ := Option.bind_eq_some_iff.mp read
  split at read
  next before inside same =>
    cases same
    split at read
    next behind dropped =>
      obtain ⟨field, fieldRead, read⟩ := Option.bind_eq_some_iff.mp read
      obtain ⟨⟨after, rest⟩, afterRead, read⟩ := Option.bind_eq_some_iff.mp read
      split at read
      next after same =>
        cases same
        have closed : '}' ∉ inside.takeWhile (· ≠ '}') := fun mem =>
          absurd (List.all_eq_true.mp List.all_takeWhile _ mem) (by decide)
        obtain ⟨components, body⟩ := FieldSpec.exists_components_of_ofList? closed fieldRead
        obtain ⟨rfl, -⟩ := readText?_eq_some_iff.mp beforeRead
        obtain ⟨rfl, -⟩ := readText?_eq_some_iff.mp afterRead
        rw [List.append_nil] at dropped
        refine ⟨⟨before, components, after⟩, congrArg (escaped before ++ '{' :: ·) ?_⟩
        show bodyText components ++ '}' :: escaped after = inside
        rw [body, ← dropped, List.takeWhile_append_dropWhile]
      · cases read
    · cases read
  · cases read

/-- The formats that are read are the ones that are spelled, and what is read is what the spelling
says. The field ends at the first brace that closes, no format has two spellings, and a second
character that is an alignment makes the first one the fill. -/
theorem parse?_iff_spelled :
    (∀ format f, parse? format = some f ↔
      ∃ s : Spelling, s.chars = format.toList ∧ s.format = f) ∧
    (∀ s : Spelling, '}' ∉ bodyText s.components) ∧
    (∀ s t : Spelling, s.chars = t.chars → s = t) ∧
    ∀ (x : FieldSpec.Components) (first : Char) (a : Alignment) (rest : List Char),
      x.chars = first :: a.char :: rest → x.alignment = some (some first, a) := by
  refine ⟨fun format f => ⟨exists_spelling_of_ofList?, ?_⟩,
    fun s => FieldSpec.close_not_mem_bodyText s.components,
    fun s t same => Spelling.chars_injective same,
    fun x first a rest written => FieldSpec.Components.alignment_of_second written⟩
  rintro ⟨s, written, rfl⟩
  unfold parse?
  rw [← written]
  exact s.ofList?_chars

/-- The components `<^8`, of which the first could be an alignment. -/
def fillLikeAlignment : FieldSpec.Components where
  alignment := some (some '<', .center)
  sign := none
  noNegativeZero := false
  alwaysPoint := false
  zeroFill := false
  width := ['8']
  separator := none
  precision := none
  style := none
  fill_ne := by
    rintro c a ⟨⟩
    decide
  alignment_of_zeroFill := nofun
  width_digits := by
    intro c mem
    rw [List.mem_singleton.mp mem]
    rfl
  zeroFill_of_width zero := absurd (Option.some.inj zero) (by decide)
  separator_eq := nofun
  precision_digits := nofun
  precision_lt := nofun
  style_mem := nofun

theorem parse?_fillLikeAlignment :
    parse? "$\x7b\x7b\x7b:<^8\x7d" = some {
      before := ['$', '{']
      field := { FieldSpec.plain with fill := '<', alignment := .center, width := 8 }
      after := [] } ∧
    fillLikeAlignment.alignment = some (some '<', .center) :=
  ⟨(parse?_iff_spelled.1 _ _).mpr ⟨⟨['$', '{'], some fillLikeAlignment, []⟩, by decide, by decide⟩,
    parse?_iff_spelled.2.2.2 fillLikeAlignment '<' .center ['8'] rfl⟩

end DecimalFormat

end EntityJson
