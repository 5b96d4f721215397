import EntityJson.Proofs.Decimal.Grouping

/-!
# The width of a field

Without a width a field is a sign, the digits in front of the point in groups, and the rest
(`Decimal.Parts`). If that reaches the width it is the field (`Decimal.render_width`). Otherwise it is
filled up: with fill characters where the alignment puts them (`Decimal.Padded`), or with zeros among
the digits (`Decimal.ZeroFilled`).

A field is filled up twice in a row: the digits with zeros, if the field asks for that, and then the
whole with fill characters. The second time nothing is left to do if the first time something was,
since the zeros reach the width by themselves (`Decimal.aligned_of_le`). So nothing is ever filled
twice, and nothing is cut off.
-/

namespace EntityJson

/-- The field with no width to reach. -/
def FieldSpec.withoutWidth (field : FieldSpec) : FieldSpec :=
  { field with width := 0 }

namespace Decimal

variable {field : FieldSpec} {value : Decimal} {sign body : List Char}

/-! ## Fill characters -/

/-- What becomes of a sign and what follows it if fill characters are added up to the width. An odd one
goes to the right of a text in the middle. -/
structure Padded (field : FieldSpec) (sign body text : List Char) : Prop where
  length_eq : text.length = field.width
  left : field.alignment = .left →
    text = sign ++ body ++ List.replicate (field.width - (sign ++ body).length) field.fill
  right : field.alignment = .right →
    text = List.replicate (field.width - (sign ++ body).length) field.fill ++ (sign ++ body)
  center : field.alignment = .center →
    text = List.replicate ((field.width - (sign ++ body).length) / 2) field.fill ++ (sign ++ body)
      ++ List.replicate (field.width - (sign ++ body).length
        - (field.width - (sign ++ body).length) / 2) field.fill
  afterSign : field.alignment = .afterSign →
    text = sign ++ List.replicate (field.width - (sign ++ body).length) field.fill ++ body

/-- Nothing is added to a text that reaches the width. -/
theorem aligned_of_le (reaches : field.width ≤ (sign ++ body).length) :
    aligned field sign body = sign ++ body := by
  rw [List.length_append] at reaches
  unfold aligned
  rw [Nat.sub_eq_zero_of_le reaches]
  cases field.alignment <;> simp

theorem padded_aligned (short : (sign ++ body).length < field.width) :
    Padded field sign body (aligned field sign body) := by
  rw [List.length_append] at short
  unfold aligned
  cases same : field.alignment with
  | left | right | center | afterSign =>
    constructor
    · simp
      omega
    all_goals simp [same]

/-! ## The parts of a field -/

/-- A text is a sign, digits in groups, and a rest that cannot be taken for more of them. -/
structure Parts (separator : Option Char) (sign whole rest text : List Char) : Prop where
  text_eq : text = sign ++ (inGroups separator whole ++ rest)
  sign_eq : sign = [] ∨ sign = ['-'] ∨ sign = ['+'] ∨ sign = [' ']
  whole_ne_nil : whole ≠ []
  isDigit_of_mem : ∀ c ∈ whole, c.isDigit
  rest_apart : ∀ c ∈ rest.head?, ¬ c.isDigit ∧ separator ≠ some c

theorem signText_eq (field : FieldSpec) (x : Digits) :
    signText field x = [] ∨ signText field x = ['-'] ∨ signText field x = ['+']
      ∨ signText field x = [' '] := by
  unfold signText
  split
  · simp
  · cases field.sign <;> simp

/-- The width that the digits in front of the point are to reach with zeros. -/
def roomIn (field : FieldSpec) (value : Decimal) : Nat :=
  if field.zeroFill then field.width - ((tailIn field value).length + (signIn field value).length)
  else 0

theorem roomIn_le (field : FieldSpec) (value : Decimal) : roomIn field value ≤ field.width := by
  unfold roomIn
  split <;> omega

theorem bodyIn_eq (field : FieldSpec) (value : Decimal) : bodyIn field value
    = grouped (partsIn field value).1 field.separator (roomIn field value) ++ tailIn field value :=
  rfl

/-- No zeros are added to digits that fill their room. -/
theorem bodyIn_of_le (fits : roomIn field value < twoPow 62)
    (reaches : roomIn field value ≤ (inGroups field.separator (partsIn field value).1).length) :
    bodyIn field value
      = inGroups field.separator (partsIn field value).1 ++ tailIn field value := by
  have whole := (split_partsIn field value).whole_ne_nil
  obtain ⟨zeros, filled⟩ := exists_filledWith_grouped field.separator whole fits
  rw [bodyIn_eq, filled.eq_inGroups whole reaches]

/-- A field without a width to reach has no zeros added, and no fill characters. -/
theorem render_withoutWidth (field : FieldSpec) (value : Decimal) :
    render field.withoutWidth value = signIn field value
      ++ (inGroups field.separator (partsIn field value).1 ++ tailIn field value) := by
  have none : roomIn field.withoutWidth value = 0 := by simp [roomIn, FieldSpec.withoutWidth]
  have fits : roomIn field.withoutWidth value < twoPow 62 := by
    rw [none]
    decide
  rw [render_eq_aligned, aligned_of_le (Nat.zero_le _), bodyIn_of_le fits (none ▸ Nat.zero_le _)]
  rfl

theorem parts_withoutWidth (accepted : field.Accepted) (value : Decimal) :
    Parts field.separator (signIn field value) (partsIn field value).1 (tailIn field value)
      (render field.withoutWidth value) where
  text_eq := render_withoutWidth field value
  sign_eq := signText_eq field _
  whole_ne_nil := (split_partsIn field value).whole_ne_nil
  isDigit_of_mem c mem := isDigit_of_mem_partsIn c (List.mem_append_left _ mem)
  rest_apart c mem := ⟨head?_tailText _ _ _ c mem, fun same =>
    have apart := not_separator_of_mem_tailIn (List.mem_of_mem_head? mem)
    (accepted.separator c same).elim apart.1 apart.2⟩

/-! ## Zeros -/

/-- What becomes of the parts of a field if zeros are added up to the width. The text is a character too
long if without its first zero the digits would start with a separator. -/
structure ZeroFilled (field : FieldSpec) (sign whole rest text : List Char) : Prop where
  text_eq : ∃ zeros, text
    = sign ++ (inGroups field.separator (List.replicate zeros '0' ++ whole) ++ rest)
  length_eq : text.length = field.width ∨ text.length = field.width + 1 ∧
    ∃ s more, field.separator = some s ∧ text = sign ++ '0' :: s :: more

/-! ## The field -/

/-- A field that reaches its width without being filled up is left as it is. -/
theorem render_of_le (fits : field.width < twoPow 62)
    (reaches : field.width ≤ (render field.withoutWidth value).length) :
    render field value = render field.withoutWidth value := by
  rw [render_withoutWidth] at reaches ⊢
  have room : roomIn field value ≤ (inGroups field.separator (partsIn field value).1).length := by
    simp only [List.length_append] at reaches
    unfold roomIn
    split <;> omega
  have body := bodyIn_of_le ((roomIn_le field value).trans_lt fits) room
  rw [render_eq_aligned, body, aligned_of_le reaches]

/-- Without zeros the whole is filled up with fill characters. -/
theorem padded_render (zeroFill : field.zeroFill = false)
    (short : (render field.withoutWidth value).length < field.width) :
    Padded field (signIn field value)
      (inGroups field.separator (partsIn field value).1 ++ tailIn field value)
      (render field value) := by
  have none : roomIn field value = 0 := by simp [roomIn, zeroFill]
  have fits : roomIn field value < twoPow 62 := by
    rw [none]
    decide
  rw [render_eq_aligned, bodyIn_of_le fits (none ▸ Nat.zero_le _)]
  rw [render_withoutWidth] at short
  exact padded_aligned short

/-- Zeros are put in front of the digits so that all parts together reach the width. -/
theorem zeroFilled_render (zeroFill : field.zeroFill = true) (fits : field.width < twoPow 62)
    (short : (render field.withoutWidth value).length < field.width) :
    ZeroFilled field (signIn field value) (partsIn field value).1 (tailIn field value)
      (render field value) := by
  have whole := (split_partsIn field value).whole_ne_nil
  have room : roomIn field value
      = field.width - ((tailIn field value).length + (signIn field value).length) := if_pos zeroFill
  obtain ⟨zeros, filled⟩ := exists_filledWith_grouped field.separator whole
    ((roomIn_le field value).trans_lt fits)
  rw [render_withoutWidth, List.length_append, List.length_append] at short
  have le := filled.le_length
  have length := filled.length_eq whole (by omega)
  have reaches : field.width ≤ (signIn field value ++ bodyIn field value).length := by
    rw [bodyIn_eq, List.length_append, List.length_append]
    omega
  rw [render_eq_aligned, aligned_of_le reaches, bodyIn_eq]
  refine ⟨⟨zeros, by rw [← filled.text_eq]⟩, ?_⟩
  simp only [List.length_append]
  rcases length with exact | ⟨longer, s, more, separator, text⟩
  · exact .inl (by omega)
  · exact .inr ⟨by omega, s, more ++ tailIn field value, separator, by rw [text]; rfl⟩

/-- A field is what it is without a width to reach if that is long enough. Otherwise it is filled up to
the width with fill characters or, if it asks for that, with zeros in front of the digits. -/
theorem render_width {format : String} {f : DecimalFormat}
    (accepted : DecimalFormat.parse? format = some f) (fits : f.field.width < twoPow 62)
    (value : Decimal) :
    ∃ sign whole rest,
      Parts f.field.separator sign whole rest (render f.field.withoutWidth value) ∧
      (f.field.width ≤ (render f.field.withoutWidth value).length →
        render f.field value = render f.field.withoutWidth value) ∧
      ((render f.field.withoutWidth value).length < f.field.width →
        (f.field.zeroFill = false →
          Padded f.field sign (inGroups f.field.separator whole ++ rest) (render f.field value)) ∧
        (f.field.zeroFill = true → ZeroFilled f.field sign whole rest (render f.field value))) :=
  ⟨signIn f.field value, (partsIn f.field value).1, tailIn f.field value,
    parts_withoutWidth (DecimalFormat.accepted_of_parse? accepted) value, render_of_le fits,
    fun short => ⟨fun none => padded_render none short,
      fun zeros => zeroFilled_render zeros fits short⟩⟩

/-- The format `{:08,}`, whose width no grouped digits have. -/
def zerosToEight : FieldSpec :=
  { FieldSpec.plain with
    fill := '0', alignment := .afterSign, zeroFill := true, width := 8, separator := some ',' }

theorem render_width_zerosToEight :
    DecimalFormat.parse? "\x7b:08,\x7d" = some ⟨[], zerosToEight, []⟩ ∧
    String.ofList (render zerosToEight ⟨false, 1234, 0, by decide, by decide⟩) = "0,001,234" ∧
    ∃ sign whole rest, ZeroFilled zerosToEight sign whole rest
      (render zerosToEight ⟨false, 1234, 0, by decide, by decide⟩) := by
  have accepted : DecimalFormat.parse? "\x7b:08,\x7d" = some ⟨[], zerosToEight, []⟩ := by decide
  obtain ⟨sign, whole, rest, -, -, filled⟩ :=
    render_width accepted (by decide) ⟨false, 1234, 0, by decide, by decide⟩
  exact ⟨accepted, by decide +kernel, sign, whole, rest, (filled (by decide +kernel)).2 rfl⟩

end Decimal

end EntityJson
