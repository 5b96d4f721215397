import EntityJson.Proofs.RuleTree.Extensional

/-!
# The tree that a list of rules leaves

Of a list of rules in a fresh tree there is a closed form: which paths have a node, and what each node
says, can be read off the list (`RuleTree.nodes_of_applyAll`). Nodes and marks are those that some rule
of the list asks for, so they hang on which rules there are and on nothing else. The mode of a node hangs
on the order as well. A keeping rule selects what is below its end only where it comes before every rule
that goes on from there, and `Rule.firstMention` is the place in the list that this is measured by.

In a greedy tree every node is greedy. There the same rules leave the same tree, in any order and
however often each of them is given.
-/

namespace EntityJson

namespace Rule

/-- The index of the first rule that passes through the path or ends at it, or the number of all rules
if none does. -/
def firstMention (rules : List Rule) (path : List String) : Nat :=
  rules.findIdx fun r => path.isPrefixOf r.segments

/-- A rule comes before all that mention a path if neither the rules before it do nor the rule itself. -/
theorem length_lt_firstMention_iff {before after : List Rule} {r : Rule} {path : List String} :
    before.length < firstMention (before ++ r :: after) path
      ↔ ¬ Mentioned before path ∧ ¬ path <+: r.segments := by
  unfold firstMention
  rw [List.findIdx_append]
  by_cases mentioned : Mentioned before path
  · obtain ⟨s, mem, reaches⟩ := mentioned
    have earlier : before.findIdx (fun r => path.isPrefixOf r.segments) < before.length :=
      List.findIdx_lt_length_of_exists ⟨s, mem, List.isPrefixOf_iff_prefix.mpr reaches⟩
    rw [if_pos earlier]
    exact iff_of_false (Nat.lt_asymm earlier) fun both => both.1 ⟨s, mem, reaches⟩
  · have none : ¬ before.findIdx (fun r => path.isPrefixOf r.segments) < before.length := by
      rw [List.findIdx_lt_length]
      rintro ⟨s, mem, reaches⟩
      exact mentioned ⟨s, mem, List.isPrefixOf_iff_prefix.mp reaches⟩
    rw [if_neg none, and_iff_right mentioned, List.findIdx_cons]
    by_cases reaches : path <+: r.segments
    · rw [List.isPrefixOf_iff_prefix.mpr reaches, cond_true, Nat.zero_add]
      exact iff_of_false (Nat.lt_irrefl _) (not_not_intro reaches)
    · rw [Bool.eq_false_iff.mpr (mt List.isPrefixOf_iff_prefix.mp reaches), cond_false]
      exact iff_of_true (by omega) reaches

theorem exists_append_of_getElem? {rules : List Rule} {j : Nat} {r : Rule}
    (h : rules[j]? = some r) : ∃ before after, rules = before ++ r :: after ∧ before.length = j := by
  obtain ⟨inside, rfl⟩ := List.getElem?_eq_some_iff.mp h
  refine ⟨rules.take j, rules.drop (j + 1), ?_, List.length_take_of_le (Nat.le_of_lt inside)⟩
  rw [← List.drop_eq_getElem_cons inside, List.take_append_drop]

/-- A path is selected if a keeping rule ends at it, or if one ends above it and comes before every rule
that mentions the next place on the way down. -/
theorem selected_iff {rules : List Rule} {path : List String} :
    Selected rules path
      ↔ (∃ r ∈ rules, r.polarity = .keep ∧ r.segments = path) ∨
        ∃ j r name, rules[j]? = some r ∧ r.polarity = .keep ∧ r.segments ++ [name] <+: path ∧
          j < firstMention rules (r.segments ++ [name]) := by
  constructor
  · rintro ⟨before, r, after, rfl, keep, ⟨rest, rfl⟩, free⟩
    cases rest with
    | nil => exact .inl ⟨r, by simp, keep, (List.append_nil _).symm⟩
    | cons name rest =>
      have next : r.segments ++ [name] <+: r.segments ++ name :: rest := ⟨rest, by simp⟩
      refine .inr ⟨before.length, r, name, by simp, keep, next, ?_⟩
      exact length_lt_firstMention_iff.mpr
        ⟨free name next, not_prefix_of_longer r.segments name []⟩
  · rintro (⟨r, mem, keep, rfl⟩ | ⟨j, r, name, place, keep, next, first⟩)
    · obtain ⟨before, after, rfl⟩ := List.append_of_mem mem
      refine ⟨before, r, after, rfl, keep, List.prefix_rfl, fun name longer => ?_⟩
      exact absurd longer (not_prefix_of_longer r.segments name [])
    · obtain ⟨before, after, rfl, rfl⟩ := exists_append_of_getElem? place
      refine ⟨before, r, after, rfl, keep, (List.prefix_append _ [name]).trans next, ?_⟩
      intro other longer
      have same : r.segments ++ [other] = r.segments ++ [name] :=
        (List.prefix_of_prefix_length_le longer next (by simp)).eq_of_length (by simp)
      rw [same]
      exact (length_lt_firstMention_iff.mp first).1

end Rule

namespace RuleTree

/-- The same rules, in any order and however often, leave the same nodes and marks in a fresh tree. -/
theorem sameMarks_applyAll_fresh (greedy : Bool) {rules rules' : List Rule}
    (same : ∀ r, r ∈ rules' ↔ r ∈ rules) :
    ((fresh greedy).applyAll rules').SameMarks ((fresh greedy).applyAll rules) := by
  refine sameMarks_of_below (fun path => ?_) (fun path => ?_) fun path => ?_
  · rw [hasNode_applyAll, hasNode_applyAll, Rule.Mentioned, Rule.Mentioned]
    simp only [same]
  · by_cases root : path = []
    · subst root
      exact (root_applyAll _ rules').1.trans (root_applyAll _ rules).1.symm
    · rw [Bool.eq_iff_iff, included_below_applyAll root, included_below_applyAll root, Rule.Named,
        Rule.Named]
      simp only [same]
  · by_cases root : path = []
    · subst root
      exact (root_applyAll _ rules').2.1.trans (root_applyAll _ rules).2.1.symm
    · rw [Bool.eq_iff_iff, excluded_below_applyAll root, excluded_below_applyAll root, Rule.Dropped,
        Rule.Dropped]
      simp only [same]

/-- In a greedy tree nothing is left to the order of the rules. -/
theorem applyAll_keepAll_congr {rules rules' : List Rule} (same : ∀ r, r ∈ rules' ↔ r ∈ rules) :
    keepAll.applyAll rules' = keepAll.applyAll rules := by
  have greedy : ∀ (rules : List Rule) (path : List String) (c : RuleTree),
      (keepAll.applyAll rules).find? path = some c → c.greedy := by
    intro rules path c found
    obtain ⟨-, rfl⟩ := find?_eq_some_iff.mp found
    exact (greedy_below_applyAll_fresh true rules path).mpr (.inl rfl)
  refine eq_of_sameMarks (sameMarks_applyAll_fresh true same) fun path c d hc hd => ?_
  exact (greedy rules' path c hc).trans (greedy rules path d hd).symm

/-- What rules leave in a fresh tree. There is a node at each path that a rule mentions; it is included
if a keeping rule mentions it and excluded if a dropping rule ends at it. It is greedy if the tree is, if
a keeping rule ends at it, or if one ends above it and comes before the first rule that mentions the next
place on the way down. The root stays as it is. So nodes and marks hang only on which rules there are,
and in a greedy tree so does everything else. -/
theorem nodes_of_applyAll (greedy : Bool) (rules : List Rule) :
    (∀ path, path ≠ [] →
      (((fresh greedy).applyAll rules).HasNode path ↔ Rule.Mentioned rules path)) ∧
    (∀ path c, path ≠ [] → ((fresh greedy).applyAll rules).find? path = some c →
      (c.included ↔ Rule.Named rules path) ∧ (c.excluded ↔ Rule.Dropped rules path) ∧
      (c.greedy ↔ greedy ∨ (∃ r ∈ rules, r.polarity = .keep ∧ r.segments = path) ∨
        ∃ j r name, rules[j]? = some r ∧ r.polarity = .keep ∧ r.segments ++ [name] <+: path ∧
          j < Rule.firstMention rules (r.segments ++ [name]))) ∧
    (((fresh greedy).applyAll rules).included = false ∧
      ((fresh greedy).applyAll rules).excluded = false ∧
      ((fresh greedy).applyAll rules).greedy = greedy) ∧
    ∀ rules', (∀ r, r ∈ rules' ↔ r ∈ rules) →
      ((fresh greedy).applyAll rules').SameMarks ((fresh greedy).applyAll rules) ∧
        (greedy → (fresh greedy).applyAll rules' = (fresh greedy).applyAll rules) := by
  refine ⟨fun path nonempty => (marks_below_applyAll_fresh greedy rules nonempty).1,
    fun path c nonempty found => ?_, root_applyAll (fresh greedy) rules, fun rules' same => ?_⟩
  · obtain ⟨-, rfl⟩ := find?_eq_some_iff.mp found
    obtain ⟨-, included, excluded⟩ := marks_below_applyAll_fresh greedy rules nonempty
    refine ⟨included, excluded, ?_⟩
    rw [greedy_below_applyAll_fresh, Rule.selected_iff]
  · refine ⟨sameMarks_applyAll_fresh greedy same, ?_⟩
    rintro rfl
    exact applyAll_keepAll_congr same

/-- A keeping rule before and one after the rules that go on from its end: `a` selects what comes below
`a.b` later, `d` does not select `d.e`, which is there already. The same rules in reverse order, one of
them twice, leave another tree with the same marks. -/
theorem nodes_of_applyAll_in_order :
    ∃ (rules rules' : List Rule) (c d : RuleTree),
      rules.map Rule.text = ["a", "-a.b", "d.e.f", "d", "a.b.c.x"] ∧
      rules'.map Rule.text = ["d", "a.b.c.x", "d", "d.e.f", "-a.b", "a"] ∧
      ["a", "b", "c"] ≠ [] ∧ (strict.applyAll rules).find? ["a", "b", "c"] = some c ∧ c.greedy ∧
      (∃ j r name, rules[j]? = some r ∧ r.polarity = .keep ∧
        r.segments ++ [name] <+: ["a", "b", "c"] ∧
        j < Rule.firstMention rules (r.segments ++ [name])) ∧
      (strict.applyAll rules).find? ["d", "e"] = some d ∧ d.greedy = false ∧
      (∀ r, r ∈ rules' ↔ r ∈ rules) ∧
      (strict.applyAll rules').SameMarks (strict.applyAll rules) ∧
      strict.applyAll rules' ≠ strict.applyAll rules := by
  let a : Rule := ⟨.keep, ["a"], nofun, by decide⟩
  let b : Rule := ⟨.drop, ["a", "b"], nofun, by decide⟩
  let f : Rule := ⟨.keep, ["d", "e", "f"], nofun, by decide⟩
  let d : Rule := ⟨.keep, ["d"], nofun, by decide⟩
  let x : Rule := ⟨.keep, ["a", "b", "c", "x"], nofun, by decide⟩
  have twice : d ∈ [a, b, f, d, x] := List.mem_of_getElem? (i := 3) rfl
  have same : ∀ r, r ∈ d :: [a, b, f, d, x].reverse ↔ r ∈ [a, b, f, d, x] := by
    intro r
    rw [List.mem_cons, List.mem_reverse, or_iff_right_of_imp]
    rintro rfl
    exact twice
  obtain ⟨-, nodes, -, rest⟩ := nodes_of_applyAll false [a, b, f, d, x]
  have above : ∃ j r name, [a, b, f, d, x][j]? = some r ∧ r.polarity = .keep ∧
      r.segments ++ [name] <+: ["a", "b", "c"] ∧
      j < Rule.firstMention [a, b, f, d, x] (r.segments ++ [name]) :=
    ⟨0, a, "b", rfl, rfl, ⟨["c"], rfl⟩, by decide⟩
  have found : (strict.applyAll [a, b, f, d, x]).find? ["a", "b", "c"]
      = some ((strict.applyAll [a, b, f, d, x]).below ["a", "b", "c"]) := rfl
  obtain ⟨-, -, mode⟩ := nodes ["a", "b", "c"] _ nofun found
  have differs : (strict.applyAll (d :: [a, b, f, d, x].reverse)).below ["d", "e"]
      ≠ (strict.applyAll [a, b, f, d, x]).below ["d", "e"] := by
    intro equal
    cases (congrArg greedy equal : true = false)
  exact ⟨[a, b, f, d, x], d :: [a, b, f, d, x].reverse, _, _, rfl, rfl, nofun, found,
    mode.mpr (.inr (.inr above)), above, rfl, rfl, same, (rest _ same).1,
    fun equal => differs (congrArg (·.below ["d", "e"]) equal)⟩

end RuleTree

end EntityJson
