import EntityJson.Proofs.RuleTree.Applied
import EntityJson.Schema

/-!
# The layers of a schema

Four lists of well-formed rules always give a schema. An exact list of the caller puts everything that
is declared out of effect, so of the four lists only some rules count (`Rule.effective`), and the tree
of the schema is what these leave in a fresh tree, which is strict as soon as one of the exact lists is
given (`Schema.layered_of_parseAll`). The caller's lists are ingested by the schema of the declared ones
(`Schema.layered_eq_bind`), of which an exact list leaves nothing but a failure to read them.
-/

namespace EntityJson

namespace Rule

/-- The rules of four lists that count, in the order in which they are applied: the exact ones of the
caller or else all that are declared, then the additive ones of the caller. -/
def effective (declaredOnly declaredRules only rules : List Rule) : List Rule :=
  (if only.isEmpty then declaredOnly ++ declaredRules else only) ++ rules

/-- A list is read text by text. -/
theorem exists_of_parseAll_cons {text : String} {texts : List String} {rules : List Rule}
    (h : parseAll (text :: texts) = .ok rules) :
    ∃ r rest, parse text = .ok r ∧ parseAll texts = .ok rest ∧ rules = r :: rest := by
  rw [parseAll] at h
  cases first : parse text with
  | error e =>
    rw [first] at h
    cases h
  | ok r =>
    cases others : parseAll texts with
    | error e =>
      rw [first, others] at h
      cases h
    | ok rest =>
      rw [first, others] at h
      cases h
      exact ⟨r, rest, rfl, rfl, rfl⟩

/-- Reading a list gives as many rules as there are texts. -/
theorem length_of_parseAll {texts : List String} {rules : List Rule}
    (h : parseAll texts = .ok rules) : rules.length = texts.length := by
  induction texts generalizing rules with
  | nil =>
    cases h
    rfl
  | cons text texts ih =>
    obtain ⟨r, rest, -, others, rfl⟩ := exists_of_parseAll_cons h
    rw [List.length_cons, List.length_cons, ih others]

theorem isEmpty_of_parseAll {texts : List String} {rules : List Rule}
    (h : parseAll texts = .ok rules) : rules.isEmpty = texts.isEmpty := by
  have length := length_of_parseAll h
  cases rules <;> cases texts
  · rfl
  · cases length
  · cases length
  · rfl

end Rule

namespace Schema

/-- An exact list starts over from a strict tree, unless it is empty. -/
theorem ingestExact_of_parseAll (s : Schema) {texts : List String} {rules : List Rule}
    (h : Rule.parseAll texts = .ok rules) :
    s.ingestExact texts
      = .ok (if texts.isEmpty then s else ⟨RuleTree.strict.applyAll rules⟩) := by
  unfold ingestExact
  split
  · rfl
  · rw [h]
    rfl

/-- An additive list goes on from the tree that is there. -/
theorem ingestExtend_of_parseAll (s : Schema) {texts : List String} {rules : List Rule}
    (h : Rule.parseAll texts = .ok rules) :
    s.ingestExtend texts = .ok ⟨s.tree.applyAll rules⟩ := by
  unfold ingestExtend
  split
  · next empty =>
    have none : rules = [] := List.isEmpty_iff.mp ((Rule.isEmpty_of_parseAll h).trans empty)
    rw [none]
    rfl
  · rw [h]
    rfl

/-- The schema of four lists of well-formed rules holds what the effective ones leave in a fresh tree,
a greedy one only if neither exact list is given. -/
theorem layered_of_parseAll {declaredOnly declaredRules only rules : List String}
    {declaredExact declaredAdditive exact additive : List Rule}
    (hdo : Rule.parseAll declaredOnly = .ok declaredExact)
    (hdr : Rule.parseAll declaredRules = .ok declaredAdditive)
    (ho : Rule.parseAll only = .ok exact) (hr : Rule.parseAll rules = .ok additive) :
    layered declaredOnly declaredRules only rules
      = .ok ⟨(RuleTree.fresh (declaredOnly.isEmpty && only.isEmpty)).applyAll
          (Rule.effective declaredExact declaredAdditive exact additive)⟩ := by
  have steps : layered declaredOnly declaredRules only rules
      = .ok ⟨(if only.isEmpty then
            (⟨(if declaredOnly.isEmpty then keepAll
                else ⟨RuleTree.strict.applyAll declaredExact⟩ : Schema).tree.applyAll
              declaredAdditive⟩ : Schema)
          else ⟨RuleTree.strict.applyAll exact⟩).tree.applyAll additive⟩ := by
    unfold layered
    rw [ingestExact_of_parseAll _ hdo]
    show (Schema.ingestExtend _ declaredRules >>= _) = _
    rw [ingestExtend_of_parseAll _ hdr]
    show (Schema.ingestExact _ only >>= _) = _
    rw [ingestExact_of_parseAll _ ho]
    exact ingestExtend_of_parseAll _ hr
  rw [steps, Rule.effective, RuleTree.applyAll_append, Rule.isEmpty_of_parseAll ho]
  cases only with
  | cons text texts =>
    rw [List.isEmpty_cons, Bool.and_false]
    rfl
  | nil =>
    cases declaredOnly with
    | cons text texts =>
      rw [List.isEmpty_nil, List.isEmpty_cons, if_pos rfl, if_pos rfl, RuleTree.applyAll_append]
      rfl
    | nil =>
      cases hdo
      rfl

/-- The caller's lists alone, with an exact one among them, leave all their rules in a strict tree. -/
theorem layered_exact_of_parseAll {only rules : List String} {exact additive : List Rule}
    (given : only ≠ []) (ho : Rule.parseAll only = .ok exact)
    (hr : Rule.parseAll rules = .ok additive) :
    layered [] [] only rules = .ok ⟨RuleTree.strict.applyAll (exact ++ additive)⟩ := by
  have empty : Rule.parseAll [] = .ok [] := rfl
  have nonempty : only.isEmpty = false := List.isEmpty_eq_false_iff.mpr given
  rw [layered_of_parseAll empty empty ho hr, Rule.effective, Rule.isEmpty_of_parseAll ho, nonempty]
  rfl

/-- An exact list that is not empty leaves nothing of the schema it is ingested by. -/
theorem ingestExact_of_ne_nil (s t : Schema) {texts : List String} (given : texts ≠ []) :
    s.ingestExact texts = t.ingestExact texts := by
  have nonempty : texts.isEmpty = false := List.isEmpty_eq_false_iff.mpr given
  simp [ingestExact, nonempty]

/-- The caller's lists are ingested by the schema of the declared ones. -/
theorem layered_eq_bind (declaredOnly declaredRules only rules : List String) :
    layered declaredOnly declaredRules only rules =
      layered declaredOnly declaredRules [] [] >>= fun s =>
        s.ingestExact only >>= fun s => s.ingestExtend rules := by
  have plain : layered declaredOnly declaredRules [] [] =
      keepAll.ingestExact declaredOnly >>= fun s => s.ingestExtend declaredRules := by
    show (_ >>= fun s : Schema => s.ingestExtend declaredRules >>= pure) = _
    simp only [bind_pure]
  rw [plain, bind_assoc]
  rfl

/-- Declared rules that can be read leave nothing behind under an exact list of the caller. -/
theorem layered_of_ne_nil {declaredOnly declaredRules only : List String}
    {declaredExact declaredAdditive : List Rule}
    (hdo : Rule.parseAll declaredOnly = .ok declaredExact)
    (hdr : Rule.parseAll declaredRules = .ok declaredAdditive) (given : only ≠ [])
    (rules : List String) :
    layered declaredOnly declaredRules only rules = layered [] [] only rules := by
  have empty : Rule.parseAll [] = .ok [] := rfl
  rw [layered_eq_bind, layered_eq_bind [] [], layered_of_parseAll hdo hdr empty empty,
    layered_of_parseAll empty empty empty empty]
  show (Schema.ingestExact _ only >>= _) = (Schema.ingestExact _ only >>= _)
  rw [ingestExact_of_ne_nil _ _ given]

/-- An exact list leaves its schema in place of any that is declared. -/
theorem layered_of_exact {texts : List String} {rules : List Rule}
    (parsed : Rule.parseAll texts = .ok rules) (given : texts ≠ [])
    (exact additive : List String) :
    layered exact additive texts []
      = (layered exact additive [] []).map fun _ => ⟨RuleTree.strict.applyAll rules⟩ := by
  have nonempty : texts.isEmpty = false := List.isEmpty_eq_false_iff.mpr given
  have ingested : ∀ s : Schema, (s.ingestExact texts >>= fun s => s.ingestExtend [])
      = .ok ⟨RuleTree.strict.applyAll rules⟩ := by
    intro s
    rw [ingestExact_of_parseAll s parsed, nonempty]
    rfl
  rw [layered_eq_bind]
  simp only [ingested]
  rfl

end Schema

end EntityJson
