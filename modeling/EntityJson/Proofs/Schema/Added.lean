import EntityJson.Proofs.Schema.Overlay

/-!
# Adding one rule

A rule that is added to a schema moves what is visible in one direction only, whatever tree the schema
holds.

- A dropping rule hides the step to the end of its path and with it all that lies beyond, unless a
  keeping rule has named that place before. It hides nothing else and shows nothing new
  (`Schema.visible_apply_of_drop`).
- A keeping rule shows every step of its path, and what is not dropped below its end, as far as the tree
  has no nodes of its own there. It hides nothing, and it does not reach paths that start with another
  name (`Schema.visible_apply_of_keep`).

The nodes that a rule makes on its way say what the missing ones said: they have no mark but that of the
rule, and the mode of the node above them.
-/

namespace EntityJson

namespace Rule

theorem head?_segments (r : Rule) : r.segments.head? = some r.head :=
  List.head?_eq_some_head r.segments_ne_nil

/-- A path that shares a beginning with the path of a rule starts with the same name. -/
theorem head?_eq_of_shared {r : Rule} {p q : List String} (nonempty : q ≠ []) (hp : q <+: p)
    (hr : q <+: r.segments) : p.head? = some r.head := by
  obtain ⟨rest, rfl⟩ := hp
  obtain ⟨rest', path⟩ := hr
  obtain ⟨name, q, rfl⟩ := List.exists_cons_of_ne_nil nonempty
  rw [← r.head?_segments, ← path, List.cons_append, List.cons_append, List.head?_cons,
    List.head?_cons]

end Rule

namespace RuleTree

variable {t : RuleTree} {r : Rule}

/-- A dropping rule takes away the step to the end of its path, unless that place is included. -/
theorem isIncluded_below_apply_of_drop (drop : r.polarity = .drop) (q : List String)
    (name : String) :
    ((t.apply r).below q).isIncluded name
      ↔ (t.below q).isIncluded name ∧
        (r.segments = q ++ [name] → (t.below (q ++ [name])).included) := by
  rw [apply_eq_applyPath, isIncluded_below_iff, isIncluded_below_iff,
    included_below_applyPath r.segments_ne_nil (List.concat_ne_nil name q),
    excluded_below_applyPath r.segments_ne_nil (List.concat_ne_nil name q),
    greedy_below_applyPath r.segments_ne_nil, drop]
  simp only [reduceCtorEq, false_and, or_false, true_and]
  by_cases included : (t.below (q ++ [name])).included
  · simp only [included, true_or, implies_true, and_self]
  · simp only [included, Bool.false_eq_true, false_or, imp_false, not_or, and_right_comm]

/-- A keeping rule adds the steps of its path. Of those beyond its end it adds the ones that are not
excluded, as far as there were no nodes on the way down. -/
theorem isIncluded_below_apply_of_keep (keep : r.polarity = .keep) (q : List String)
    (name : String) :
    ((t.apply r).below q).isIncluded name
      ↔ (t.below q).isIncluded name ∨ q ++ [name] <+: r.segments ∨
        ¬ (t.below (q ++ [name])).excluded ∧ r.segments <+: q ∧
          ∀ next, r.segments ++ [next] <+: q → ¬ t.HasNode (r.segments ++ [next]) := by
  rw [apply_eq_applyPath, isIncluded_below_iff, isIncluded_below_iff,
    included_below_applyPath r.segments_ne_nil (List.concat_ne_nil name q),
    excluded_below_applyPath r.segments_ne_nil (List.concat_ne_nil name q),
    greedy_below_applyPath r.segments_ne_nil, keep]
  simp only [reduceCtorEq, false_and, or_false, true_and]
  rw [and_or_left, or_or_or_comm]

end RuleTree

namespace Schema

variable {r : Rule}

/-- After a dropping rule the paths are visible that were, except those that equal or extend the path of
the rule where that place is not included. -/
theorem visible_apply_of_drop (drop : r.polarity = .drop) (t : RuleTree) (p : List String) :
    (⟨t.apply r⟩ : Schema).visible p
      ↔ (⟨t⟩ : Schema).visible p ∧ (r.segments <+: p → (t.below r.segments).included) := by
  rw [visible_iff, visible_iff]
  simp only [RuleTree.isIncluded_below_apply_of_drop drop]
  constructor
  · intro steps
    refine ⟨fun q name hq => (steps q name hq).1, fun ends => ?_⟩
    obtain ⟨q, name, path⟩ := exists_step r.segments_ne_nil
    rw [path] at ends ⊢
    exact (steps q name ends).2 path
  · rintro ⟨steps, included⟩ q name hq
    refine ⟨steps q name hq, fun path => ?_⟩
    rw [← path] at hq ⊢
    exact included hq

/-- After a keeping rule the paths are visible of which each step was included, lies on the path of the
rule, or starts from a place that the rule selects and leads to one that is not excluded. -/
theorem visible_apply_of_keep (keep : r.polarity = .keep) (t : RuleTree) (p : List String) :
    (⟨t.apply r⟩ : Schema).visible p
      ↔ ∀ q name, q ++ [name] <+: p →
        (t.below q).isIncluded name ∨ q ++ [name] <+: r.segments ∨
          ¬ (t.below (q ++ [name])).excluded ∧ r.segments <+: q ∧
            ∀ next, r.segments ++ [next] <+: q → ¬ t.HasNode (r.segments ++ [next]) := by
  rw [visible_iff]
  simp only [RuleTree.isIncluded_below_apply_of_keep keep]

/-- A well-formed rule can always be added. A keeping rule hides nothing, shows its own path with all
that leads to it, and changes no path that starts with another name. A dropping rule shows nothing, and
changes no path but those that equal or extend its own. -/
theorem visible_ingestExtend_singleton (s : Schema) {text : String} {r : Rule}
    (h : Rule.parse text = .ok r) :
    ∃ s', s.ingestExtend [text] = .ok s' ∧
      (r.polarity = .keep →
        (∀ p, s.visible p → s'.visible p) ∧ (∀ p, p <+: r.segments → s'.visible p) ∧
          ∀ p, p.head? ≠ some r.head → s'.visible p = s.visible p) ∧
      (r.polarity = .drop →
        (∀ p, s'.visible p → s.visible p) ∧
          ∀ p, ¬ r.segments <+: p → s'.visible p = s.visible p) := by
  have parsed : Rule.parseAll [text] = .ok [r] := by
    rw [Rule.parseAll, h]
    rfl
  refine ⟨⟨s.tree.apply r⟩, ingestExtend_of_parseAll s parsed, fun keep => ?_, fun drop => ?_⟩
  · refine ⟨fun p visible => ?_, fun p path => ?_, fun p other => ?_⟩
    · rw [visible_apply_of_keep keep]
      exact fun q name hq => .inl (visible_iff.mp visible q name hq)
    · rw [visible_apply_of_keep keep]
      exact fun q name hq => .inr (.inl (hq.trans path))
    · rw [Bool.eq_iff_iff, visible_apply_of_keep keep, visible_iff]
      refine forall_congr' fun q => forall_congr' fun name => imp_congr_right fun hq => ?_
      -- what the rule would add to a step of this path has its first name
      refine or_iff_left ?_
      rintro (onPath | ⟨-, beyond, -⟩)
      · exact other (Rule.head?_eq_of_shared (List.concat_ne_nil name q) hq onPath)
      · have reached := beyond.trans ((List.prefix_append q [name]).trans hq)
        exact other (Rule.head?_eq_of_shared r.segments_ne_nil reached List.prefix_rfl)
  · refine ⟨fun p visible => ((visible_apply_of_drop drop s.tree p).mp visible).1,
      fun p apart => ?_⟩
    rw [Bool.eq_iff_iff, visible_apply_of_drop drop]
    exact and_iff_left fun ends => absurd ends apart

/-- In a strict schema with a node of its own below the end of the rule that is added, and a rule that
drops what another one has named. -/
theorem visible_ingestExtend_singleton_around_node :
    ∃ (s kept dropped : Schema) (a c : Rule),
      keepAll.ingestExact ["a.b", "c.d"] = .ok s ∧
      Rule.parse "a" = .ok a ∧ a.polarity = .keep ∧ s.ingestExtend ["a"] = .ok kept ∧
      s.visible ["a", "x"] = false ∧ kept.visible ["a", "x"] ∧ kept.visible ["a"] ∧
      ["c", "x"].head? ≠ some a.head ∧ kept.visible ["c", "x"] = s.visible ["c", "x"] ∧
      Rule.parse "-c.d.e" = .ok c ∧ c.polarity = .drop ∧
      s.ingestExtend ["-c.d.e"] = .ok dropped ∧
      s.visible ["c", "d", "e"] ∧ dropped.visible ["c", "d", "e"] = false ∧
      ¬ c.segments <+: ["c", "d", "f"] ∧
      dropped.visible ["c", "d", "f"] = s.visible ["c", "d", "f"] ∧ s.visible ["c", "d", "f"] := by
  let s : Schema := ⟨RuleTree.strict.applyAll
    [⟨.keep, ["a", "b"], nofun, by decide⟩, ⟨.keep, ["c", "d"], nofun, by decide⟩]⟩
  let a : Rule := ⟨.keep, ["a"], nofun, by decide⟩
  let c : Rule := ⟨.drop, ["c", "d", "e"], nofun, by decide⟩
  have parsedA : Rule.parse "a" = .ok a := rfl
  have parsedC : Rule.parse "-c.d.e" = .ok c := rfl
  have other : ["c", "x"].head? ≠ some a.head := by decide
  have apart : ¬ c.segments <+: ["c", "d", "f"] := by decide
  obtain ⟨kept, hkept, keeps, -⟩ := visible_ingestExtend_singleton s parsedA
  obtain ⟨dropped, hdropped, -, drops⟩ := visible_ingestExtend_singleton s parsedC
  obtain ⟨-, path, elsewhere⟩ := keeps rfl
  have shown : kept.visible ["a", "x"] := by
    cases hkept
    rfl
  have hidden : dropped.visible ["c", "d", "e"] = false := by
    cases hdropped
    rfl
  exact ⟨s, kept, dropped, a, c, rfl, parsedA, rfl, hkept, rfl, shown, path ["a"] List.prefix_rfl,
    other, elsewhere _ other, parsedC, rfl, hdropped, rfl, hidden, apart, (drops rfl).2 _ apart, rfl⟩

end Schema

end EntityJson
