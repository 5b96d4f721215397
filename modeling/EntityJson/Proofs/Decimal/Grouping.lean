import EntityJson.Proofs.Decimal.Denotation

/-!
# Digits in groups

A separator stands in front of every third digit, counted from the last one on (`Decimal.inGroups`).
The digits of a field are grouped last ones first, while the width that is left is counted down and may
be used up before the digits are. What comes out are the digits in groups, perhaps with zeros in front
of them (`Decimal.exists_filledWith_grouped`). They reach the width, and they miss it by one where a
text of that width would have to start with a separator (`Decimal.FilledWith`).

Three digits and their separator make four characters, and one to three digits are left in front of
them, so no grouped digits have a number of characters that four divides. Each step of the loop takes
four from the width, which keeps what it is modulo four; the loop ends with a character too many where
nothing of the width is left, but a group has been begun.
-/

namespace EntityJson.Decimal

/-! ## Groups -/

/-- Digits with the separator, if there is one, between groups of three: behind a digit if the number
of the digits that follow is a multiple of three, but not zero. -/
def inGroups (separator : Option Char) : List Char → List Char
  | [] => []
  | c :: cs =>
    c :: (if 0 < cs.length ∧ cs.length % 3 = 0 then separator.toList else [])
      ++ inGroups separator cs

section Groups

variable {separator : Option Char}

theorem inGroups_cons (c : Char) (cs : List Char) :
    inGroups separator (c :: cs)
      = c :: (if 0 < cs.length ∧ cs.length % 3 = 0 then separator.toList else [])
        ++ inGroups separator cs := rfl

@[simp]
theorem inGroups_none (digits : List Char) : inGroups none digits = digits := by
  induction digits with
  | nil => rfl
  | cons c cs ih => simp [inGroups, ih]

theorem inGroups_of_le {digits : List Char} (short : digits.length ≤ 3) :
    inGroups separator digits = digits := by
  induction digits with
  | nil => rfl
  | cons c cs ih =>
    rw [List.length_cons] at short
    have together : ¬ (0 < cs.length ∧ cs.length % 3 = 0) := by omega
    rw [inGroups, if_neg together, ih (by omega)]
    rfl

/-- Three more digits are a group of their own. -/
theorem inGroups_append {front last : List Char} (more : front ≠ []) (three : last.length = 3) :
    inGroups separator (front ++ last) = inGroups separator front ++ (separator.toList ++ last) := by
  induction front with
  | nil => exact absurd rfl more
  | cons c cs ih =>
    cases cs with
    | nil => simp [inGroups, three, inGroups_of_le three.le]
    | cons d cs =>
      have front := ih (List.cons_ne_nil d cs)
      by_cases boundary : (d :: cs).length % 3 = 0
      · have both : 0 < (d :: cs ++ last).length ∧ (d :: cs ++ last).length % 3 = 0 := by
          rw [List.length_append, three]
          omega
        rw [List.cons_append, inGroups_cons c, front, if_pos both, inGroups_cons c,
          if_pos ⟨Nat.zero_lt_succ _, boundary⟩]
        simp
      · have neither : ¬ (0 < (d :: cs ++ last).length ∧ (d :: cs ++ last).length % 3 = 0) := by
          rw [List.length_append, three]
          omega
        rw [List.cons_append, inGroups_cons c, front, if_neg neither, inGroups_cons c,
          if_neg fun both => boundary both.2]
        simp

/-- How many characters grouped digits have. -/
def groupedLength (digits : Nat) : Nat :=
  digits + (digits - 1) / 3

theorem length_inGroups (s : Char) (digits : List Char) :
    (inGroups (some s) digits).length = groupedLength digits.length := by
  unfold groupedLength
  induction digits with
  | nil => rfl
  | cons c cs ih =>
    by_cases boundary : 0 < cs.length ∧ cs.length % 3 = 0
    · simp [inGroups, boundary, ih]
      omega
    · simp [inGroups, boundary, ih]
      omega

end Groups

/-! ## Groups that are filled up -/

/-- A text of digits in groups, with so many zeros in front that it reaches the width, and no more than
the groups need. -/
structure FilledWith (zeros : Nat) (separator : Option Char) (digits : List Char) (width : Int)
    (text : List Char) : Prop where
  text_eq : text = inGroups separator (List.replicate zeros '0' ++ digits)
  nonempty : text ≠ []
  le_length : width ≤ text.length
  close : zeros = 0 ∨ text.length = width ∨
    separator.isSome ∧ text.length = width + 1 ∧ width % 4 = 0

/-- A group behind which more follow has three digits, and there is something to put into the next
one. -/
theorem size_of_more {count size : Nat} {width : Int}
    (size_eq : size = min (max count (max width 1).toNat) 3)
    (more : ¬ (count ≤ size ∧ width ≤ size)) :
    size = 3 ∧ (0 < count - size ∨ 0 ≤ width - size - 1) := by
  omega

/-- The last group to be taken has the digits that are left or reaches the width. -/
theorem size_of_done {count size : Nat} {width : Int}
    (size_eq : size = min (max count (max width 1).toNat) 3) (done : count ≤ size ∧ width ≤ size)
    (start : 0 < count ∨ 0 ≤ width) :
    0 < size ∧ size ≤ 3 ∧ (size = count ∨ size = width ∨ size = width + 1 ∧ width = 0) := by
  omega

theorem groupsBackward_ne_nil (digits : List Char) (width : Int) :
    groupsBackward digits width ≠ [] := by
  unfold groupsBackward
  simp only
  split <;> exact List.cons_ne_nil _ _

/-- One more group behind a text. It has three digits, zeros among them if only zeros stand in front of
it. -/
theorem FilledWith.append {s : Char} {zeros : Nat} {front text : List Char} {width : Int}
    (h : FilledWith zeros (some s) front (width - 3 - 1) text) {last : List Char}
    (short : last.length ≤ 3) (alone : last.length < 3 → front = []) :
    ∃ zeros, FilledWith zeros (some s) (front ++ last) width
      (text ++ s :: (List.replicate (3 - last.length) '0' ++ last)) := by
  obtain ⟨text_eq, more, le, close⟩ := h
  have three : (List.replicate (3 - last.length) '0' ++ last).length = 3 := by
    rw [List.length_append, List.length_replicate, Nat.sub_add_cancel short]
  have length : ((text ++ s :: (List.replicate (3 - last.length) '0' ++ last)).length : Int)
      = text.length + 4 := by
    rw [List.length_append, List.length_cons, three]
    rfl
  have nonempty : List.replicate zeros '0' ++ front ≠ [] := by
    rintro none
    rw [none] at text_eq
    exact more text_eq
  have grouped : text ++ s :: (List.replicate (3 - last.length) '0' ++ last)
      = inGroups (some s) (List.replicate zeros '0' ++ front
        ++ (List.replicate (3 - last.length) '0' ++ last)) := by
    rw [inGroups_append nonempty three, ← text_eq]
    rfl
  rcases Nat.lt_or_ge last.length 3 with few | many
  · -- the digits end in this group, so what stands in front of it are zeros, and there are some
    cases alone few
    have some : zeros ≠ 0 := by
      rintro rfl
      exact nonempty rfl
    refine ⟨zeros + (3 - last.length), ?_, List.append_ne_nil_of_left_ne_nil more _, ?_, ?_⟩
    · simpa [← List.replicate_append_replicate] using grouped
    · rw [length]
      omega
    · rw [length]
      have shifted := close.resolve_left some
      exact .inr (shifted.imp (by omega) fun ⟨given, one⟩ => ⟨given, by omega⟩)
  · refine ⟨zeros, ?_, List.append_ne_nil_of_left_ne_nil more _, ?_, ?_⟩
    · simpa [Nat.sub_eq_zero_of_le many] using grouped
    · rw [length]
      omega
    · rw [length]
      exact close.imp_right fun shifted =>
        shifted.imp (by omega) fun ⟨given, one⟩ => ⟨given, by omega⟩

/-- What is made of the digits and the width that are left. If no digits are left the width is not
negative, or the group before would have been the last one to be taken. -/
theorem exists_filledWith_groupsBackward (s : Char) (digits : List Char) (width : Int)
    (start : 0 < digits.length ∨ 0 ≤ width) :
    ∃ zeros, FilledWith zeros (some s) digits.reverse width
      (List.intercalate [s] (groupsBackward digits width)).reverse := by
  fun_induction groupsBackward digits width with
  | case1 digits width size group done =>
    obtain ⟨pos, short, reaches⟩ := size_of_done rfl done start
    have filled : group.reverse = List.replicate (size - digits.length) '0' ++ digits.reverse := by
      show (List.take size digits ++ _).reverse = _
      rw [List.take_of_length_le done.1, List.reverse_append, List.reverse_replicate]
    have length : group.reverse.length = size := by
      rw [filled, List.length_append, List.length_replicate, List.length_reverse,
        Nat.sub_add_cancel done.1]
    rw [List.intercalate_singleton]
    refine ⟨size - digits.length, ?_, List.ne_nil_of_length_pos (by rwa [length]), ?_, ?_⟩
    · rw [inGroups_of_le (by rw [← filled, length]; exact short)]
      exact filled
    · rw [length]
      exact done.2
    · rw [length]
      rcases reaches with all | exact | one
      · exact .inl (by omega)
      · exact .inr (.inl exact)
      · exact .inr (.inr ⟨rfl, one.1, by omega⟩)
  | case2 digits width size group more ih =>
    obtain ⟨three, next⟩ : size = 3 ∧ (0 < digits.length - size ∨ 0 ≤ width - size - 1) :=
      size_of_more rfl more
    have filled : group = digits.take size ++ List.replicate (size - digits.length) '0' := rfl
    clear_value group size
    subst three
    rw [← List.length_drop] at next
    obtain ⟨zeros, fills⟩ := ih next
    obtain ⟨g, gs, groups⟩ := List.exists_cons_of_ne_nil
      (groupsBackward_ne_nil (digits.drop 3) (width - (3 : Nat) - 1))
    rw [groups] at fills ⊢
    have missing : 3 - (digits.take 3).reverse.length = 3 - digits.length := by
      rw [List.length_reverse, List.length_take]
      omega
    have front : (digits.take 3).reverse.length < 3 → (digits.drop 3).reverse = [] := by
      rw [List.length_reverse, List.length_take, List.reverse_eq_nil_iff, List.drop_eq_nil_iff]
      omega
    obtain ⟨zeros, fills⟩ := fills.append (by simp) front
    refine ⟨zeros, ?_⟩
    rw [missing, ← List.reverse_append, List.take_append_drop] at fills
    simpa [List.intercalate_cons_cons, filled] using fills

section Filled

variable {separator : Option Char} {digits text : List Char} {zeros width : Nat}

/-- Digits are filled up to any width that is not taken for a negative number. -/
theorem exists_filledWith_grouped (separator : Option Char) (nonempty : digits ≠ [])
    (fits : width < twoPow 62) :
    ∃ zeros, FilledWith zeros separator digits width (grouped digits separator width) := by
  cases separator with
  | none =>
    refine ⟨width - digits.length, (inGroups_none _).symm,
      List.append_ne_nil_of_right_ne_nil _ nonempty, ?_, ?_⟩ <;>
    · simp [grouped]
      omega
  | some s =>
    have word : signedWord width = width := signedWord_of_lt (by omega) (by omega)
    have start : 0 < digits.reverse.length ∨ 0 ≤ (width : Int) := .inr (Int.natCast_nonneg _)
    obtain ⟨zeros, fills⟩ := exists_filledWith_groupsBackward s digits.reverse width start
    rw [List.reverse_reverse] at fills
    unfold grouped
    rw [word]
    exact ⟨zeros, fills⟩

/-- No zeros are put in front of digits that reach the width in groups. -/
theorem FilledWith.eq_inGroups (h : FilledWith zeros separator digits width text)
    (nonempty : digits ≠ []) (reaches : width ≤ (inGroups separator digits).length) :
    text = inGroups separator digits := by
  have pos := List.length_pos_iff.mpr nonempty
  obtain ⟨rfl, -, -, close⟩ := h
  suffices none : zeros = 0 by rw [none, List.replicate_zero, List.nil_append]
  cases separator with
  | none =>
    simp only [inGroups_none, List.length_append, List.length_replicate, Option.isSome_none,
      Bool.false_eq_true, false_and, or_false] at reaches close
    omega
  | some s =>
    simp only [length_inGroups, List.length_append, List.length_replicate, Option.isSome_some,
      true_and, groupedLength] at reaches close
    omega

/-- A text with zeros in front has the width, or one more character: a zero without which it would
start with a separator. -/
theorem FilledWith.length_eq (h : FilledWith zeros separator digits width text)
    (nonempty : digits ≠ []) (short : (inGroups separator digits).length < width) :
    text.length = width ∨ text.length = width + 1 ∧
      ∃ s rest, separator = some s ∧ text = '0' :: s :: rest := by
  have pos := List.length_pos_iff.mpr nonempty
  obtain ⟨rfl, -, le, close⟩ := h
  cases zeros with
  | zero =>
    rw [List.replicate_zero, List.nil_append] at le
    omega
  | succ zeros =>
    rcases close.resolve_left (Nat.succ_ne_zero zeros) with exact | ⟨given, longer, four⟩
    · exact .inl (Int.ofNat.inj exact)
    · obtain ⟨s, rfl⟩ := Option.isSome_iff_exists.mp given
      refine .inr ⟨by omega, s, inGroups (some s) (List.replicate zeros '0' ++ digits), rfl, ?_⟩
      rw [length_inGroups, List.length_append, List.length_replicate, groupedLength] at longer
      rw [List.replicate_succ, List.cons_append, inGroups_cons, if_pos]
      · rfl
      · rw [List.length_append, List.length_replicate]
        omega

end Filled

end EntityJson.Decimal
