import EntityJson.Proofs.Decimal.Grouping

/-!
# Digits between separators

Digits in groups are a text that its separators split into pieces of three digits each, except for the
first one, which has one digit at least and three at most (`Decimal.InThrees`). The groups of a field are
of that kind whatever the width is that they are to reach (`Decimal.grouped_inThrees`): put together
they are the digits, with zeros in front if the width asks for them.

Counted from the last character on, every fourth one of such a text is a separator, and the first one
is none. So no such text has a number of characters that four divides, and a text that is to reach such
a width has one character more.
-/

namespace EntityJson.Decimal

/-- Groups of three digits, the first of which may be shorter but not empty. -/
structure InThrees (digits : List Char) (groups : List (List Char)) : Prop where
  flatten_eq : groups.flatten = digits
  ne_nil : groups ≠ []
  length_first : ∀ g ∈ groups.head?, 1 ≤ g.length ∧ g.length ≤ 3
  length_others : ∀ g ∈ groups.tail, g.length = 3

/-- The last of several pieces stands behind a separator. -/
theorem intercalate_append_singleton (separator : List Char) {groups : List (List Char)}
    (more : groups ≠ []) (last : List Char) :
    List.intercalate separator (groups ++ [last])
      = List.intercalate separator groups ++ (separator ++ last) := by
  induction groups with
  | nil => exact absurd rfl more
  | cons g groups ih =>
    cases groups with
    | nil =>
      rw [List.singleton_append, List.intercalate_cons_cons, List.intercalate_singleton,
        List.intercalate_singleton, List.append_assoc]
    | cons g' groups =>
      have behind := ih (List.cons_ne_nil g' groups)
      rw [List.cons_append, List.cons_append, List.intercalate_cons_cons, ← List.cons_append, behind,
        List.intercalate_cons_cons]
      simp only [List.append_assoc]

variable {s : Char} {digits : List Char} {groups : List (List Char)}

/-- One more group of three digits. -/
theorem InThrees.append (h : InThrees digits groups) {last : List Char} (three : last.length = 3) :
    InThrees (digits ++ last) (groups ++ [last]) := by
  obtain ⟨flat, nonempty, first, others⟩ := h
  obtain ⟨g, groups, rfl⟩ := List.exists_cons_of_ne_nil nonempty
  refine ⟨?_, List.append_ne_nil_of_left_ne_nil nonempty _, first, ?_⟩
  · rw [List.flatten_append, List.flatten_singleton, flat]
  · intro group mem
    rcases List.mem_append.mp mem with mem | mem
    · exact others group mem
    · rw [List.mem_singleton.mp mem, three]

/-- The separators of digits in groups stand between groups of three. -/
theorem exists_inThrees (s : Char) {digits : List Char} (nonempty : digits ≠ []) :
    ∃ groups, InThrees digits groups ∧ inGroups (some s) digits = List.intercalate [s] groups := by
  induction count : digits.length using Nat.strongRecOn generalizing digits with
  | ind n ih =>
    rcases Nat.lt_or_ge 3 digits.length with long | short
    · have last : (digits.drop (digits.length - 3)).length = 3 := by
        rw [List.length_drop]
        omega
      have front : (digits.take (digits.length - 3)).length = digits.length - 3 := by
        rw [List.length_take]
        omega
      have more : digits.take (digits.length - 3) ≠ [] := List.ne_nil_of_length_pos (by omega)
      obtain ⟨groups, threes, text⟩ := ih _ (by omega) more rfl
      have all := threes.append last
      have grouped : inGroups (some s) _ = _ := inGroups_append more last
      rw [List.take_append_drop] at all grouped
      refine ⟨_, all, ?_⟩
      rw [grouped, text, intercalate_append_singleton [s] threes.ne_nil]
      rfl
    · refine ⟨[digits], ⟨List.flatten_singleton, List.cons_ne_nil _ _, ?_, nofun⟩, ?_⟩
      · intro g mem
        cases mem
        exact ⟨List.length_pos_iff.mpr nonempty, short⟩
      · rw [inGroups_of_le short, List.intercalate_singleton]

/-- Four divides the number of characters of no digits in groups. -/
theorem length_inGroups_mod_four (s : Char) (nonempty : digits ≠ []) :
    (inGroups (some s) digits).length % 4 ≠ 0 := by
  have pos := List.length_pos_iff.mpr nonempty
  rw [length_inGroups, groupedLength]
  omega

/-- Where a text is a character longer than its width, no digits in groups have that width. -/
theorem FilledWith.length_inGroups_ne {zeros width : Nat} {text : List Char}
    (h : FilledWith zeros (some s) digits width text)
    (short : (inGroups (some s) digits).length < width) (longer : text.length = width + 1)
    {ds : List Char} (nonempty : ds ≠ []) : (inGroups (some s) ds).length ≠ width := by
  have apart := length_inGroups_mod_four s nonempty
  obtain ⟨rfl, -, -, close⟩ := h
  rcases close with none | exact | ⟨-, -, four⟩
  · rw [none, List.replicate_zero, List.nil_append] at longer
    omega
  · omega
  · omega

/-- A width of zero is reached without any zeros. -/
theorem grouped_zero (s : Char) (nonempty : digits ≠ []) :
    grouped digits (some s) 0 = inGroups (some s) digits := by
  obtain ⟨zeros, filled⟩ := exists_filledWith_grouped (some s) nonempty (twoPow_pos 62)
  exact filled.eq_inGroups nonempty (Nat.zero_le _)

/-- Digits are grouped by threes from the last one on, with zeros in front where the width asks for them.
A width that no digits in groups have is missed by one character: the zero without which the text would
start with a separator. -/
theorem grouped_inThrees (s : Char) {digits : List Char} (nonempty : digits ≠ []) {width : Nat}
    (fits : width < twoPow 62) :
    ∃ zeros groups,
      InThrees (List.replicate zeros '0' ++ digits) groups ∧
      grouped digits (some s) width = List.intercalate [s] groups ∧
      (s ≠ '0' → s ∉ digits →
        (grouped digits (some s) width).splitOn s = groups ∧
        withoutSeparators (some s) (grouped digits (some s) width)
          = List.replicate zeros '0' ++ digits) ∧
      width ≤ (grouped digits (some s) width).length ∧
      (width ≤ (grouped digits (some s) 0).length → zeros = 0) ∧
      ((grouped digits (some s) 0).length < width →
        (grouped digits (some s) width).length = width ∨
        (grouped digits (some s) width).length = width + 1 ∧
          (∀ ds, ds ≠ [] → (inGroups (some s) ds).length ≠ width) ∧
          ∃ more, grouped digits (some s) width = '0' :: s :: more) := by
  have pos := List.length_pos_iff.mpr nonempty
  obtain ⟨zeros, filled⟩ := exists_filledWith_grouped (some s) nonempty fits
  have all : List.replicate zeros '0' ++ digits ≠ [] :=
    List.append_ne_nil_of_right_ne_nil _ nonempty
  obtain ⟨groups, threes, text⟩ := exists_inThrees s all
  have joined := filled.text_eq.trans text
  have unfilled := grouped_zero s nonempty
  refine ⟨zeros, groups, threes, joined, ?_, Int.ofNat_le.mp filled.le_length, ?_, ?_⟩
  · intro notZero notDigit
    have apart : s ∉ groups.flatten := by
      rw [threes.flatten_eq, List.mem_append]
      exact fun mem => mem.elim (fun zero => notZero (List.eq_of_mem_replicate zero)) notDigit
    have notInGroup : ∀ g ∈ groups, s ∉ g := fun g mem inside =>
      apart (List.mem_flatten.mpr ⟨g, mem, inside⟩)
    have others : ∀ c ∈ groups.flatten, c ≠ s := fun c mem same => apart (same ▸ mem)
    rw [joined]
    exact ⟨List.splitOn_intercalate s notInGroup threes.ne_nil,
      (withoutSeparators_intercalate others).trans threes.flatten_eq⟩
  · intro reaches
    rw [unfilled] at reaches
    have same := filled.text_eq.symm.trans (filled.eq_inGroups nonempty reaches)
    have length := congrArg List.length same
    rw [length_inGroups, length_inGroups, List.length_append, List.length_replicate] at length
    unfold groupedLength at length
    omega
  · intro short
    rw [unfilled] at short
    rcases filled.length_eq nonempty short with exact | ⟨longer, s', more, same, start⟩
    · exact .inl exact
    · cases same
      exact .inr ⟨longer, fun ds some => filled.length_inGroups_ne short longer some, more, start⟩

/-- Four digits that are to reach eight characters get three zeros, and nine characters. -/
theorem grouped_inThrees_to_eight :
    ∃ zeros groups, InThrees (List.replicate zeros '0' ++ "1234".toList) groups ∧
      grouped "1234".toList (some ',') 8 = "0,001,234".toList ∧
      groups = ["0".toList, "001".toList, "234".toList] ∧ zeros = 3 ∧
      ∀ ds, ds ≠ [] → (inGroups (some ',') ds).length ≠ 8 := by
  have nonempty : "1234".toList ≠ [] := by decide
  have fits : 8 < twoPow 62 := by decide
  obtain ⟨zeros, groups, threes, -, pieces, -, -, long⟩ := grouped_inThrees ',' nonempty fits
  have text : grouped "1234".toList (some ',') 8 = "0,001,234".toList := by decide +kernel
  obtain ⟨split, digits⟩ := pieces (by decide) (by decide)
  rw [text] at split digits
  have none := (long (by decide +kernel)).resolve_left (by rw [text]; decide)
  have count := congrArg List.length digits
  rw [List.length_append, List.length_replicate] at count
  have zeros_eq : zeros = 3 := by
    have seven : (withoutSeparators (some ',') "0,001,234".toList).length = 7 := by decide
    have four : "1234".toList.length = 4 := rfl
    omega
  exact ⟨zeros, groups, threes, text, split.symm.trans (by decide), zeros_eq, none.2.1⟩

end EntityJson.Decimal
