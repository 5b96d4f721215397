import EntityJson.Proofs.Schema.Layers

/-!
# What a schema shows

A path is visible if each of its steps is included in the schema of the place where it is taken. For a
schema that comes from a list of rules this is settled by the rules alone: a step is included if a
keeping rule names it, or if no dropping rule ends at it and the place it starts from is greedy, for
which only an exact list needs a keeping rule that selects the place
(`Schema.visible_applyAll_fresh`). Three readings of that law follow.

- Of additive rules alone: a path is visible exactly if every dropping rule that ends on it is
  outdone by a keeping one that goes as far.
- Of rules with an exact list among them: what is visible has been named, from above or from below.
- Of a path beyond the end of a keeping rule in an exact list: selecting the end of the rule does not
  reach the nodes that earlier rules have made below it. Such a path is visible exactly if each of its
  further steps is named or starts from a place that is selected.
-/

namespace EntityJson

namespace Schema

/-- A path that is not empty has a last step. -/
theorem exists_step {p : List String} (h : p ≠ []) : ∃ q name, p = q ++ [name] :=
  ⟨p.dropLast, p.getLast h, (List.dropLast_concat_getLast h).symm⟩

theorem visible_cons {s : Schema} {name : String} {path : List String} :
    s.visible (name :: path) ↔ s.isIncluded name ∧ (s.descend name).visible path := by
  rw [visible, Bool.and_eq_true]

/-- A path is visible if each step is included where it is taken. -/
theorem visible_iff {s : Schema} {p : List String} :
    s.visible p ↔ ∀ q name, q ++ [name] <+: p → (s.tree.below q).isIncluded name := by
  induction p generalizing s with
  | nil =>
    refine iff_of_true rfl fun q name h => ?_
    exact absurd (List.prefix_nil.mp h) (List.concat_ne_nil name q)
  | cons first p ih =>
    rw [visible_cons, ih]
    constructor
    · rintro ⟨included, rest⟩ q name h
      cases q with
      | nil =>
        obtain ⟨rfl, -⟩ := List.cons_prefix_cons.mp h
        exact included
      | cons next q =>
        obtain ⟨rfl, hq⟩ := List.cons_prefix_cons.mp h
        exact rest q name hq
    · intro steps
      refine ⟨steps [] first (List.cons_prefix_cons.mpr ⟨rfl, List.nil_prefix⟩), ?_⟩
      exact fun q name h => steps (first :: q) name (List.cons_prefix_cons.mpr ⟨rfl, h⟩)

/-- What is visible in the schema that rules leave in a fresh tree, in terms of the rules. -/
theorem visible_applyAll_fresh {greedy : Bool} {rules : List Rule} {p : List String} :
    (⟨(RuleTree.fresh greedy).applyAll rules⟩ : Schema).visible p
      ↔ ∀ q name, q ++ [name] <+: p →
          Rule.Named rules (q ++ [name]) ∨
            ¬ Rule.Dropped rules (q ++ [name]) ∧ (greedy ∨ Rule.Selected rules q) := by
  rw [visible_iff]
  refine forall_congr' fun q => forall_congr' fun name => imp_congr_right fun _ => ?_
  have marks := RuleTree.marks_below_applyAll_fresh greedy rules (List.concat_ne_nil name q)
  rw [RuleTree.below_append] at marks
  rw [RuleTree.isIncluded_iff, RuleTree.greedy_below_applyAll_fresh]
  exact or_congr marks.2.1 (and_congr_left' (not_congr marks.2.2))

/-! ## Additive rules -/

/-- Additive rules always give a schema. It shows a path exactly if each beginning of the path is
either the end of no dropping rule or named by a keeping one. -/
theorem visible_additive_iff {texts : List String} {rules : List Rule}
    (h : Rule.parseAll texts = .ok rules) :
    ∃ s, keepAll.ingestExtend texts = .ok s ∧
      ∀ p, s.visible p ↔ ∀ q, q ≠ [] → q <+: p → ¬ Rule.Dropped rules q ∨ Rule.Named rules q := by
  refine ⟨_, ingestExtend_of_parseAll keepAll h, fun p => ?_⟩
  show (⟨(RuleTree.fresh true).applyAll rules⟩ : Schema).visible p ↔ _
  rw [visible_applyAll_fresh]
  constructor
  · intro steps q nonempty hq
    obtain ⟨q, name, rfl⟩ := exists_step nonempty
    rcases steps q name hq with named | ⟨kept, -⟩
    · exact .inr named
    · exact .inl kept
  · intro beginnings q name hq
    rcases beginnings (q ++ [name]) (List.concat_ne_nil name q) hq with kept | named
    · exact .inr ⟨kept, .inl rfl⟩
    · exact .inl named

/-- A dropping rule on the way to a kept path, and one that ends where no keeping rule goes. -/
theorem visible_additive_iff_outdone :
    ∃ rules, Rule.parseAll ["-a.b", "a.b.c", "-d", "-d"] = .ok rules ∧
      ∃ s, keepAll.ingestExtend ["-a.b", "a.b.c", "-d", "-d"] = .ok s ∧
        ∀ p, s.visible p
          ↔ ∀ q, q ≠ [] → q <+: p → ¬ Rule.Dropped rules q ∨ Rule.Named rules q :=
  ⟨[⟨.drop, ["a", "b"], nofun, by decide⟩, ⟨.keep, ["a", "b", "c"], nofun, by decide⟩,
      ⟨.drop, ["d"], nofun, by decide⟩, ⟨.drop, ["d"], nofun, by decide⟩], rfl,
    visible_additive_iff rfl⟩

/-! ## Exact rules -/

/-- Rules with an exact list among them always give a schema, and it shows no path that is not named:
a keeping rule that counts goes through the path or ends on it. -/
theorem named_of_visible {declaredOnly declaredRules only rules : List String}
    {declaredExact declaredAdditive exact additive : List Rule}
    (hdo : Rule.parseAll declaredOnly = .ok declaredExact)
    (hdr : Rule.parseAll declaredRules = .ok declaredAdditive)
    (ho : Rule.parseAll only = .ok exact) (hr : Rule.parseAll rules = .ok additive)
    (strict : only ≠ [] ∨ declaredOnly ≠ []) :
    ∃ s, layered declaredOnly declaredRules only rules = .ok s ∧
      ∀ p, p ≠ [] → s.visible p →
        ∃ r ∈ Rule.effective declaredExact declaredAdditive exact additive,
          r.polarity = .keep ∧ (r.segments <+: p ∨ p <+: r.segments) := by
  have mode : (declaredOnly.isEmpty && only.isEmpty) = false := by
    rcases strict with h | h
    · rw [List.isEmpty_eq_false_iff.mpr h, Bool.and_false]
    · rw [List.isEmpty_eq_false_iff.mpr h, Bool.false_and]
  refine ⟨_, layered_of_parseAll hdo hdr ho hr, fun p nonempty visible => ?_⟩
  rw [mode, visible_applyAll_fresh] at visible
  obtain ⟨q, name, rfl⟩ := exists_step nonempty
  -- the last step alone tells: it is named, or starts from a selected place
  rcases visible q name List.prefix_rfl with ⟨r, hr, keep, reaches⟩ | ⟨-, greedy | selected⟩
  · exact ⟨r, hr, keep, .inr reaches⟩
  · exact absurd greedy Bool.false_ne_true
  · obtain ⟨before, r, after, h, keep, above, -⟩ := selected
    refine ⟨r, ?_, keep, .inl (above.trans (List.prefix_append q [name]))⟩
    rw [h]
    exact List.mem_append_right before List.mem_cons_self

/-- A node that a dropping rule makes in a strict tree, below one that is selected, is greedy, and what
it shows has been named from above. -/
theorem named_of_visible_below_dropped :
    ∃ (exact additive : List Rule) (s : Schema),
      Rule.parseAll [] = .ok [] ∧ Rule.parseAll ["a"] = .ok exact ∧
        Rule.parseAll ["-a.b.c", "-d.e"] = .ok additive ∧ (([] : List String) ≠ [] ∨ ["a"] ≠ []) ∧
        layered ["a"] ["-a.b.c", "-d.e"] [] [] = .ok s ∧
        s.visible ["a", "b", "x"] ∧
        ∃ r ∈ Rule.effective exact additive [] [],
          r.polarity = .keep ∧ (r.segments <+: ["a", "b", "x"] ∨ ["a", "b", "x"] <+: r.segments) := by
  let exact : List Rule := [⟨.keep, ["a"], nofun, by decide⟩]
  let additive : List Rule :=
    [⟨.drop, ["a", "b", "c"], nofun, by decide⟩, ⟨.drop, ["d", "e"], nofun, by decide⟩]
  have empty : Rule.parseAll [] = .ok [] := rfl
  have hdo : Rule.parseAll ["a"] = .ok exact := rfl
  have hdr : Rule.parseAll ["-a.b.c", "-d.e"] = .ok additive := rfl
  have strict : ([] : List String) ≠ [] ∨ ["a"] ≠ [] := .inr nofun
  obtain ⟨s, hs, named⟩ := named_of_visible hdo hdr empty empty strict
  have shown : (layered ["a"] ["-a.b.c", "-d.e"] [] []).map (·.visible ["a", "b", "x"]) = .ok true :=
    rfl
  rw [hs] at shown
  have visible : s.visible ["a", "b", "x"] := Except.ok.inj shown
  exact ⟨exact, additive, s, empty, hdo, hdr, strict, hs, visible, named _ nofun visible⟩

/-! ## Beyond a selected path -/

/-- A path that goes on from the end of a keeping rule in an exact list, with no dropping rule in
between, is visible exactly if each step beyond that end is named or starts from a selected place. A
place that an earlier rule has made is not selected by the ones that end above it. -/
theorem visible_beyond_iff {only rules : List String} {exact additive : List Rule}
    (given : only ≠ []) (ho : Rule.parseAll only = .ok exact)
    (hr : Rule.parseAll rules = .ok additive) :
    ∃ s, layered [] [] only rules = .ok s ∧
      ∀ r ∈ exact ++ additive, r.polarity = .keep →
        ∀ p, r.segments <+: p → Rule.Undropped (exact ++ additive) r.segments p →
          (s.visible p
            ↔ ∀ q name, r.segments <+: q → q ++ [name] <+: p →
                Rule.Named (exact ++ additive) (q ++ [name]) ∨
                  Rule.Selected (exact ++ additive) q) := by
  refine ⟨_, layered_exact_of_parseAll given ho hr, fun r hr keep p beyond undropped => ?_⟩
  show (⟨(RuleTree.fresh false).applyAll (exact ++ additive)⟩ : Schema).visible p ↔ _
  rw [visible_applyAll_fresh]
  constructor
  · intro steps q name _ hq
    rcases steps q name hq with named | ⟨-, greedy | selected⟩
    · exact .inl named
    · exact absurd greedy Bool.false_ne_true
    · exact .inr selected
  · intro steps q name hq
    by_cases shorter : (q ++ [name]).length ≤ r.segments.length
    · -- up to its end the rule itself names each step
      exact .inl ⟨r, hr, keep, List.prefix_of_prefix_length_le hq beyond shorter⟩
    · rw [List.length_append, List.length_singleton] at shorter
      have from_end : r.segments <+: q :=
        List.prefix_of_prefix_length_le beyond ((List.prefix_append q [name]).trans hq) (by omega)
      rcases steps q name from_end hq with named | selected
      · exact .inl named
      · refine .inr ⟨?_, .inr selected⟩
        rintro ⟨d, hd, drop, ends⟩
        refine undropped d hd drop ?_ ?_ (ends ▸ hq)
        · exact ends ▸ from_end.trans (List.prefix_append q [name])
        · intro same
          rw [← same, ends, List.length_append, List.length_singleton] at shorter
          omega

/-- A rule that comes after one that goes on from it, and a path that is visible all the same: the step
into the node that is there is named, and from the node a later rule selects. -/
theorem visible_beyond_iff_reselected :
    ∃ (exact additive : List Rule) (r : Rule) (s : Schema),
      ["a.b.c", "a"] ≠ [] ∧ Rule.parseAll ["a.b.c", "a"] = .ok exact ∧
        Rule.parseAll ["a.b", "-a.c"] = .ok additive ∧
        layered [] [] ["a.b.c", "a"] ["a.b", "-a.c"] = .ok s ∧
        r ∈ exact ++ additive ∧ r.polarity = .keep ∧ r.segments <+: ["a", "b", "d"] ∧
        Rule.Undropped (exact ++ additive) r.segments ["a", "b", "d"] ∧
        s.visible ["a", "b", "d"] ∧
        ∀ q name, r.segments <+: q → q ++ [name] <+: ["a", "b", "d"] →
          Rule.Named (exact ++ additive) (q ++ [name]) ∨ Rule.Selected (exact ++ additive) q := by
  let r : Rule := ⟨.keep, ["a"], nofun, by decide⟩
  let exact : List Rule := [⟨.keep, ["a", "b", "c"], nofun, by decide⟩, r]
  let additive : List Rule :=
    [⟨.keep, ["a", "b"], nofun, by decide⟩, ⟨.drop, ["a", "c"], nofun, by decide⟩]
  have given : ["a.b.c", "a"] ≠ [] := nofun
  have ho : Rule.parseAll ["a.b.c", "a"] = .ok exact := rfl
  have hr : Rule.parseAll ["a.b", "-a.c"] = .ok additive := rfl
  obtain ⟨s, hs, steps⟩ := visible_beyond_iff given ho hr
  have mem : r ∈ exact ++ additive := List.mem_append_left _ (by simp [exact])
  have beyond : r.segments <+: ["a", "b", "d"] := ⟨["b", "d"], rfl⟩
  have undropped : Rule.Undropped (exact ++ additive) r.segments ["a", "b", "d"] := by
    unfold Rule.Undropped
    decide
  have shown : (layered [] [] ["a.b.c", "a"] ["a.b", "-a.c"]).map (·.visible ["a", "b", "d"])
      = .ok true := rfl
  rw [hs] at shown
  have visible : s.visible ["a", "b", "d"] := Except.ok.inj shown
  exact ⟨exact, additive, r, s, given, ho, hr, hs, mem, rfl, beyond, undropped, visible,
    (steps r mem rfl _ beyond undropped).mp visible⟩

/-- Naming a path in an exact list does not select its whole subtree in every order of the rules:
after `a.b.c` the rule `a` leaves `a.b.d` hidden, though nothing drops it. -/
theorem not_visible_beyond :
    ¬ ∀ (only rules : List String) (exact additive : List Rule), only ≠ [] →
        Rule.parseAll only = .ok exact → Rule.parseAll rules = .ok additive →
        ∃ s, layered [] [] only rules = .ok s ∧
          ∀ r ∈ exact ++ additive, r.polarity = .keep →
            ∀ p, r.segments <+: p → Rule.Undropped (exact ++ additive) r.segments p →
              s.visible p := by
  intro covers
  let longer : Rule := ⟨.keep, ["a", "b", "c"], nofun, by decide⟩
  let shorter : Rule := ⟨.keep, ["a"], nofun, by decide⟩
  obtain ⟨s, hs, shown⟩ := covers ["a.b.c", "a"] [] [longer, shorter] [] (by decide) rfl rfl
  have kept : ∀ r ∈ [longer, shorter] ++ [], r.polarity = .keep := by decide
  have undropped : Rule.Undropped ([longer, shorter] ++ []) shorter.segments ["a", "b", "d"] := by
    intro r hr drop
    cases (kept r hr).symm.trans drop
  have visible := shown shorter (by simp) rfl ["a", "b", "d"] ⟨["b", "d"], rfl⟩ undropped
  have hidden : (layered [] [] ["a.b.c", "a"] []).map (·.visible ["a", "b", "d"]) = .ok false := rfl
  rw [hs] at hidden
  exact Bool.false_ne_true ((Except.ok.inj hidden).symm.trans visible)

end Schema

end EntityJson
