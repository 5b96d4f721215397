import EntityJson.Proofs.RuleTree.Merged
import EntityJson.Proofs.Schema.Visibility

/-!
# Inherited rules and added rules

A greedy schema that is laid over another was once made of rules in a greedy tree. Laying it over a
schema leaves the mode of the root and the marks that adding its rules would leave, but not the modes
of the places below the root: a place counts as selected as soon as a keeping rule passes through it,
or as soon as some rule makes it. So all that is visible when the rules are added is visible when they
are laid over, and in a strict schema more may be (`Schema.visible_merge_iff`). Where a schema keeps
everything that is not dropped there is no more to show, and the two come to the same
(`Schema.visible_merge_of_greedy`).
-/

namespace EntityJson

/-- A step is included if the place that it leads to has the mark, or if that place is not excluded and
the step starts from a greedy one. -/
theorem RuleTree.isIncluded_below_iff {t : RuleTree} {q : List String} {name : String} :
    (t.below q).isIncluded name
      ↔ (t.below (q ++ [name])).included ∨ ¬ (t.below (q ++ [name])).excluded ∧ (t.below q).greedy := by
  rw [isIncluded_iff, below_append, below_cons, below_nil]

namespace Schema

/-- Rules in the empty greedy tree leave it greedy throughout. -/
theorem greedy_below_keepAll (rules : List Rule) (p : List String) :
    ((RuleTree.keepAll.applyAll rules).below p).greedy :=
  (RuleTree.greedy_below_applyAll_fresh true rules p).mpr (.inl rfl)

/-- Laying over what rules leave in the empty greedy tree is a union of trees. -/
theorem merge_keepAll (s : Schema) (rules : List Rule) :
    s.merge ⟨RuleTree.keepAll.applyAll rules⟩ = ⟨s.tree.merge (RuleTree.keepAll.applyAll rules)⟩ := by
  have root := RuleTree.root_applyAll RuleTree.keepAll rules
  have greedy : (⟨RuleTree.keepAll.applyAll rules⟩ : Schema).isGreedy = true :=
    greedy_below_keepAll rules []
  unfold merge
  rw [if_pos greedy, RuleTree.mergeChildren_eq_merge s.tree root.1 root.2.1]

/-- The marks are the same whether rules are laid over a tree or added to it. -/
theorem marks_below_merge_keepAll (t : RuleTree) (rules : List Rule) {p : List String}
    (h : p ≠ []) :
    (((t.merge (RuleTree.keepAll.applyAll rules)).below p).included
        ↔ ((t.applyAll rules).below p).included) ∧
      (((t.merge (RuleTree.keepAll.applyAll rules)).below p).excluded
        ↔ ((t.applyAll rules).below p).excluded) := by
  have merged := RuleTree.marks_below_merge t (RuleTree.keepAll.applyAll rules) p
  have laid := (RuleTree.marks_below_applyAll_fresh true rules h).2
  constructor
  · rw [merged.1, Bool.or_eq_true]
    exact (or_congr_right laid.1).trans (RuleTree.included_below_applyAll h).symm
  · rw [merged.2, Bool.or_eq_true]
    exact (or_congr_right laid.2).trans (RuleTree.excluded_below_applyAll h).symm

/-- A place is greedy after rules have been laid over if it is when they are added, or if it is one of
those that they lie over. -/
theorem greedy_below_merge_keepAll {t : RuleTree} {rules : List Rule} {p : List String} :
    ((t.merge (RuleTree.keepAll.applyAll rules)).below p).greedy
      ↔ ((t.applyAll rules).below p).greedy ∨ t.LaidOver rules p := by
  rw [RuleTree.greedy_below_merge (greedy_below_keepAll rules), RuleTree.greedy_below_applyAll,
    or_assoc, or_iff_right_of_imp RuleTree.laidOver_of_selected]
  exact or_congr_right RuleTree.overlaid_applyAll_fresh

/-- Laying rules over a schema leaves its mode and shows all that adding them shows. A path is visible
exactly if each of its steps is included after adding the rules, or is not dropped and starts from a
place that the rules lie over. -/
theorem visible_merge_iff (s : Schema) {texts : List String} {rules : List Rule}
    (h : Rule.parseAll texts = .ok rules) :
    ∃ inherited extended, keepAll.ingestExtend texts = .ok inherited ∧
      s.ingestExtend texts = .ok extended ∧ (s.merge inherited).isGreedy = extended.isGreedy ∧
      ∀ p, (extended.visible p → (s.merge inherited).visible p) ∧
        ((s.merge inherited).visible p
          ↔ ∀ q name, q ++ [name] <+: p →
              (extended.tree.below q).isIncluded name ∨
                ¬ (extended.tree.below (q ++ [name])).excluded ∧ s.tree.LaidOver rules q) := by
  refine ⟨_, _, ingestExtend_of_parseAll keepAll h, ingestExtend_of_parseAll s h, ?_, fun p => ?_⟩
  · rw [show keepAll.tree = RuleTree.keepAll from rfl, merge_keepAll]
    show (s.tree.merge _).greedy = (s.tree.applyAll rules).greedy
    rw [(RuleTree.root_merge _ _).2.2, (RuleTree.root_applyAll RuleTree.keepAll rules).1,
      (RuleTree.root_applyAll s.tree rules).2.2]
    exact Bool.or_false _
  · rw [show keepAll.tree = RuleTree.keepAll from rfl, merge_keepAll]
    have steps : (⟨s.tree.merge (RuleTree.keepAll.applyAll rules)⟩ : Schema).visible p
        ↔ ∀ q name, q ++ [name] <+: p →
            ((s.tree.applyAll rules).below q).isIncluded name ∨
              ¬ ((s.tree.applyAll rules).below (q ++ [name])).excluded ∧
                s.tree.LaidOver rules q := by
      rw [visible_iff]
      refine forall_congr' fun q => forall_congr' fun name => imp_congr_right fun _ => ?_
      have marks := marks_below_merge_keepAll s.tree rules (List.concat_ne_nil name q)
      rw [RuleTree.isIncluded_below_iff, RuleTree.isIncluded_below_iff, marks.1, marks.2,
        greedy_below_merge_keepAll, and_or_left, or_assoc]
    refine ⟨fun visible => ?_, steps⟩
    exact steps.mpr fun q name hq => .inl (visible_iff.mp visible q name hq)

/-- An exact list, and a rule beside one of its own: laid over, the rule shows what neither names. -/
theorem visible_merge_iff_strict :
    ∃ (s inherited extended : Schema) (rules : List Rule),
      keepAll.ingestExact ["x.a"] = .ok s ∧ Rule.parseAll ["x.b"] = .ok rules ∧
        keepAll.ingestExtend ["x.b"] = .ok inherited ∧ s.ingestExtend ["x.b"] = .ok extended ∧
        (s.merge inherited).isGreedy = extended.isGreedy ∧
        ∀ p, (extended.visible p → (s.merge inherited).visible p) ∧
          ((s.merge inherited).visible p
            ↔ ∀ q name, q ++ [name] <+: p →
                (extended.tree.below q).isIncluded name ∨
                  ¬ (extended.tree.below (q ++ [name])).excluded ∧ s.tree.LaidOver rules q) := by
  let rules : List Rule := [⟨.keep, ["x", "b"], nofun, by decide⟩]
  let s : Schema := ⟨RuleTree.strict.applyAll [⟨.keep, ["x", "a"], nofun, by decide⟩]⟩
  have parsed : Rule.parseAll ["x.b"] = .ok rules := rfl
  obtain ⟨inherited, extended, hi, he, law⟩ := visible_merge_iff s parsed
  exact ⟨s, inherited, extended, rules, rfl, parsed, hi, he, law⟩

/-- Laying over is not adding: with `x.a` as the exact list, adding `x.b` leaves `x.c` hidden, and
laying `x.b` over shows it. -/
theorem visible_merge_not_added :
    ∃ s inherited extended, keepAll.ingestExact ["x.a"] = .ok s ∧
      keepAll.ingestExtend ["x.b"] = .ok inherited ∧ s.ingestExtend ["x.b"] = .ok extended ∧
      (s.merge inherited).visible ["x", "c"] = true ∧ extended.visible ["x", "c"] = false :=
  ⟨_, _, _, rfl, rfl, rfl, rfl, rfl⟩

/-- Over a schema that is greedy throughout, as additive rules alone leave it, laying rules over shows
what adding them shows. -/
theorem visible_merge_of_greedy {s : Schema} (greedy : ∀ q, (s.tree.below q).greedy)
    (rules : List Rule) (p : List String) :
    (s.merge ⟨RuleTree.keepAll.applyAll rules⟩).visible p
      ↔ (⟨s.tree.applyAll rules⟩ : Schema).visible p := by
  rw [merge_keepAll, visible_iff, visible_iff]
  refine forall_congr' fun q => forall_congr' fun name => imp_congr_right fun _ => ?_
  have marks := marks_below_merge_keepAll s.tree rules (List.concat_ne_nil name q)
  have mode : ((s.tree.applyAll rules).below q).greedy :=
    RuleTree.greedy_below_applyAll.mpr (.inl (greedy q))
  rw [RuleTree.isIncluded_below_iff, RuleTree.isIncluded_below_iff, marks.1, marks.2,
    greedy_below_merge_keepAll, or_iff_left_of_imp fun _ => mode]

end Schema

end EntityJson
