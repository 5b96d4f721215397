import EntityJson.Proofs.Rule.Grammar
import EntityJson.Proofs.RuleTree.Merged
import EntityJson.Proofs.Schema.Agreement
import EntityJson.Proofs.Schema.Layers

/-!
# Rules under a name

A rule is put under a name by writing the name in front of its path, behind the negation marker; what
comes out is again a rule (`Rule.parse_textUnder`). Rules that are put under a name pass through the
place that the name leads to and go on from there as they would go on from the root, so below that
place they leave what they leave by themselves (`RuleTree.sameInside_under_applyAll`). Only the root of
it carries a mark, and no answer of a schema hangs on that (`Schema.agrees_of_sameInside`).

An exact list that is put under a name therefore gives a schema that includes the name, if one of its
rules keeps something, and that descends by the name to the schema of the list by itself
(`Schema.exists_layered_textUnder`).
-/

namespace EntityJson

/-! ## Texts -/

namespace Rule

/-- The text of a rule with a name in front of its path; the negation marker stays first. -/
def textUnder (name text : String) : String :=
  match text.toList with
  | '-' :: path => String.ofList ('-' :: (name.toList ++ '.' :: path))
  | path => String.ofList (name.toList ++ '.' :: path)

/-- The rule with a name in front of its path. -/
def under (name : String) (segment : IsSegment name.toList) (r : Rule) : Rule where
  polarity := r.polarity
  segments := name :: r.segments
  segments_ne_nil := List.cons_ne_nil name r.segments
  isSegment := List.forall_mem_cons.mpr ⟨segment, r.isSegment⟩

variable {name : String}

/-- A rule is written under a name by writing the name in front of its path. -/
theorem pathChars_under (segment : IsSegment name.toList) (r : Rule) :
    (r.under name segment).pathChars = name.toList ++ '.' :: r.pathChars := by
  obtain ⟨first, rest, segments⟩ := List.exists_cons_of_ne_nil r.segments_ne_nil
  show List.intercalate ['.'] (name.toList :: r.segments.map String.toList) = _
  rw [pathChars, segments, List.map_cons, List.intercalate_cons_cons, List.append_assoc,
    List.singleton_append]

/-- A rule that is put under a name can be read, and keeps its polarity. -/
theorem parse_textUnder (segment : IsSegment name.toList) {text : String} {r : Rule}
    (h : parse text = .ok r) : parse (textUnder name text) = .ok (r.under name segment) := by
  obtain rfl := parse_eq_ok_iff.mp h
  have polarity : (r.under name segment).isNegative = r.isNegative := rfl
  refine parse_eq_ok_iff.mpr (String.toList_inj.mp ?_)
  rw [toList_text, pathChars_under, polarity, textUnder, toList_text]
  by_cases marked : r.isNegative
  · rw [if_pos marked]
    exact String.toList_ofList.symm
  · obtain ⟨c, rest, path, unmarked⟩ := exists_pathChars r
    rw [if_neg marked, List.nil_append, List.nil_append]
    split
    next first =>
      rw [path] at first
      exact absurd (List.cons.inj first).1 unmarked
    · exact String.toList_ofList.symm

/-- Rules that are put under a name can be read. -/
theorem parseAll_textUnder (segment : IsSegment name.toList) {texts : List String}
    {rules : List Rule} (h : parseAll texts = .ok rules) :
    parseAll (texts.map (textUnder name)) = .ok (rules.map (under name segment)) := by
  induction texts generalizing rules with
  | nil =>
    cases h
    rfl
  | cons text texts ih =>
    obtain ⟨r, rest, first, others, rfl⟩ := exists_of_parseAll_cons h
    rw [List.map_cons, List.map_cons, parseAll, parse_textUnder segment first, ih others]
    rfl

end Rule

/-! ## Trees -/

namespace RuleTree

/-- Two trees have the same nodes below their roots, and roots of the same mode. -/
structure SameInside (s t : RuleTree) : Prop where
  children : s.node.children = t.node.children
  greedy : s.greedy = t.greedy

variable {s t u : RuleTree}

theorem SameInside.refl (t : RuleTree) : t.SameInside t :=
  ⟨rfl, rfl⟩

theorem SameInside.trans (h : s.SameInside t) (h' : t.SameInside u) : s.SameInside u :=
  ⟨h.children.trans h'.children, h.greedy.trans h'.greedy⟩

/-- A root that is only passed through changes in its marks alone. -/
theorem sameInside_mark_passed (t : RuleTree) (polarity : Polarity) :
    (t.mark polarity false).SameInside t := by
  obtain ⟨⟨i, e, g, cs⟩, _⟩ := t
  cases polarity <;> exact ⟨rfl, rfl⟩

/-- What a path leaves below the root hangs on what is below the root. -/
theorem SameInside.applyPath (h : s.SameInside t) (polarity : Polarity) (path : List String) :
    (s.applyPath polarity path).SameInside (t.applyPath polarity path) := by
  obtain ⟨⟨i, e, g, cs⟩, _⟩ := s
  obtain ⟨⟨i', e', g', cs'⟩, _⟩ := t
  obtain rfl : cs = cs' := h.children
  obtain rfl : g = g' := h.greedy
  cases path <;> exact ⟨rfl, rfl⟩

/-- Rules that are put under a name leave below it what they leave by themselves. -/
theorem sameInside_under_applyAll {name : String} (segment : IsSegment name.toList)
    (h : (t.under name).SameInside u) (rules : List Rule) :
    ((t.applyAll (rules.map (Rule.under name segment))).under name).SameInside
      (u.applyAll rules) := by
  induction rules generalizing t u with
  | nil => exact h
  | cons r rules ih =>
    rw [List.map_cons, applyAll_cons, applyAll_cons]
    apply ih
    have step : (t.apply (r.under name segment)).under name
        = ((t.under name).mark r.polarity false).applyPath r.polarity r.segments := by
      rw [← List.isEmpty_eq_false_iff.mpr r.segments_ne_nil]
      exact under_applyPath_self t r.polarity name r.segments
    rw [step, apply_eq_applyPath]
    exact ((sameInside_mark_passed _ r.polarity).trans h).applyPath r.polarity r.segments

end RuleTree

/-! ## Schemas -/

namespace Schema

variable {s t : Schema}

theorem agrees_of_sameInside (h : s.tree.SameInside t.tree) : s.Agrees t := by
  apply agrees_of_children
  · intro name
    exact RuleTree.child?_congr h.children name
  · exact h.greedy

theorem topLevelKeys_of_sameInside (h : s.tree.SameInside t.tree) :
    s.topLevelKeys = t.topLevelKeys := by
  rw [topLevelKeys, topLevelKeys, h.children]

/-- Laying the schema that keeps everything over another changes nothing. -/
theorem merge_of_keepAll (s : Schema) : s.merge keepAll = s := by
  obtain ⟨⟨⟨i, e, g, cs⟩, _⟩⟩ := s
  rfl

/-- An exact list of which a rule keeps something gives, put under a name, a schema that includes the
name and has below it what the list gives by itself. -/
theorem exists_layered_textUnder {name : String} (segment : IsSegment name.toList)
    {texts : List String} {rules : List Rule} (parsed : Rule.parseAll texts = .ok rules)
    (keeps : ∃ r ∈ rules, r.polarity = .keep) :
    ∃ s, layered [] [] (texts.map (Rule.textUnder name)) [] = .ok s ∧ s.isIncluded name ∧
      (s.descend name).tree.SameInside (RuleTree.strict.applyAll rules) := by
  have moved := Rule.parseAll_textUnder segment parsed
  have given : texts.map (Rule.textUnder name) ≠ [] := by
    obtain ⟨r, mem, -⟩ := keeps
    rintro empty
    rw [List.map_eq_nil_iff.mp empty] at parsed
    cases parsed
    cases mem
  refine ⟨_, layered_exact_of_parseAll given moved rfl, ?_, ?_⟩
  · apply RuleTree.isIncluded_iff.mpr
    left
    have marks := (RuleTree.marks_below_applyAll_fresh false
      (rules.map (Rule.under name segment)) (List.cons_ne_nil name [])).2.1
    rw [List.append_nil]
    apply marks.mpr
    obtain ⟨r, mem, keep⟩ := keeps
    exact ⟨r.under name segment, List.mem_map_of_mem mem, keep,
      List.cons_prefix_cons.mpr ⟨rfl, List.nil_prefix⟩⟩
  · rw [List.append_nil]
    exact RuleTree.sameInside_under_applyAll segment (RuleTree.SameInside.refl _) rules

end Schema

end EntityJson
