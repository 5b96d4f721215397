import EntityJson.Proofs.RuleTree.Applied

/-!
# What the union of two trees answers

The union has a child of a name if one of the two trees has it; where both have it the child is the
union of the two, otherwise it is the one there is (`RuleTree.child?_merge`). Marks add up at every
path. The mode does not: a node that only the second tree has comes with its own mode, and a node of
both becomes greedy if the second includes it and is greedy there.

In a tree that is greedy throughout every node that a keeping rule passes through is included and
greedy. Laid over another tree it makes all these places greedy, and the places that it adds
(`RuleTree.greedy_below_merge`), not only those that a keeping rule ends at.
-/

namespace EntityJson

namespace RuleNode

/-- A name is found in the union of two lists of children if it is found in one of them. -/
theorem lookup_mergeInto {into cs : List (String × RuleNode)} (hinto : Increasing into)
    (hcs : Increasing cs) (name : String) :
    lookup name (mergeInto into cs) =
      match lookup name into, lookup name cs with
      | some s, some t => some (s.merge t)
      | some s, none => some s
      | none, t => t := by
  induction cs generalizing into with
  | nil =>
    rw [mergeInto, lookup_nil]
    cases lookup name into <;> rfl
  | cons c rest ih =>
    obtain ⟨first, t⟩ := c
    obtain ⟨least, increasing⟩ := List.pairwise_cons.mp hcs
    rw [mergeInto, ih (hinto.alter first _) increasing, lookup_alter hinto, lookup_cons]
    by_cases h : name = first
    · subst h
      have absent : lookup name rest = none := lookup_eq_none_of_lt least
      rw [if_pos rfl, if_pos rfl, absent]
      cases lookup name into <;> rfl
    · rw [if_neg h, if_neg (Ne.symm h)]

end RuleNode

namespace RuleTree

/-! ## Children and marks -/

theorem child?_merge (t u : RuleTree) (name : String) :
    (t.merge u).child? name =
      match t.child? name, u.child? name with
      | some a, some b => some (a.merge b)
      | some a, none => some a
      | none, b => b := by
  have children : (t.merge u).node.children = RuleNode.mergeInto t.node.children u.node.children := by
    obtain ⟨⟨i, e, g, cs⟩, _⟩ := u
    rfl
  rw [child?_eq_iff, children,
    RuleNode.lookup_mergeInto t.ordered.children.1 u.ordered.children.1, ← map_node_child?,
    ← map_node_child?]
  cases t.child? name <;> cases u.child? name <;> rfl

theorem root_merge (t u : RuleTree) :
    (t.merge u).included = (t.included || u.included) ∧
      (t.merge u).excluded = (t.excluded || u.excluded) ∧
      (t.merge u).greedy = (t.greedy || (u.included && u.greedy)) := by
  obtain ⟨⟨i, e, g, cs⟩, _⟩ := u
  exact ⟨rfl, rfl, rfl⟩

/-- A tree without marks at its root is merged by merging what is below the root. -/
theorem mergeChildren_eq_merge (t : RuleTree) {u : RuleTree} (included : u.included = false)
    (excluded : u.excluded = false) : t.mergeChildren u = t.merge u := by
  obtain ⟨⟨i, e, g, cs⟩, hu⟩ := u
  obtain rfl : i = false := included
  obtain rfl : e = false := excluded
  refine node_injective ?_
  show RuleNode.mk _ _ _ _ = RuleNode.mk _ _ _ _
  rw [Bool.or_false, Bool.or_false, Bool.false_and, Bool.or_false]
  rfl

/-- What is nested in the union under a name: the union of two children, the child of the one tree that
has it, or nothing. -/
theorem under_merge_cases (t u : RuleTree) (name : String) :
    (∃ a b, t.child? name = some a ∧ u.child? name = some b ∧ (t.merge u).under name = a.merge b) ∨
      (∃ a, t.child? name = some a ∧ u.child? name = none ∧ (t.merge u).under name = a) ∨
      (∃ b, t.child? name = none ∧ u.child? name = some b ∧ (t.merge u).under name = b) ∨
      (t.child? name = none ∧ u.child? name = none ∧
        (t.merge u).under name = fresh (t.merge u).greedy) := by
  have child := child?_merge t u name
  cases ht : t.child? name with
  | none =>
    cases hu : u.child? name with
    | none =>
      rw [ht, hu] at child
      exact .inr (.inr (.inr ⟨rfl, rfl, under_of_child?_eq_none child⟩))
    | some b =>
      rw [ht, hu] at child
      exact .inr (.inr (.inl ⟨b, rfl, rfl, under_of_child? child⟩))
  | some a =>
    cases hu : u.child? name with
    | none =>
      rw [ht, hu] at child
      exact .inr (.inl ⟨a, rfl, rfl, under_of_child? child⟩)
    | some b =>
      rw [ht, hu] at child
      exact .inl ⟨a, b, rfl, rfl, under_of_child? child⟩

/-- Marks add up at every path. -/
theorem marks_below_merge (t u : RuleTree) (p : List String) :
    ((t.merge u).below p).included = ((t.below p).included || (u.below p).included) ∧
      ((t.merge u).below p).excluded = ((t.below p).excluded || (u.below p).excluded) := by
  induction p generalizing t u with
  | nil => exact ⟨(root_merge t u).1, (root_merge t u).2.1⟩
  | cons name p ih =>
    rw [below_cons, below_cons, below_cons]
    rcases under_merge_cases t u name with
      ⟨a, b, ht, hu, h⟩ | ⟨a, ht, hu, h⟩ | ⟨b, ht, hu, h⟩ | ⟨ht, hu, h⟩
    · rw [h, under_of_child? ht, under_of_child? hu]
      exact ih a b
    · rw [h, under_of_child? ht, under_of_child?_eq_none hu, below_fresh]
      exact ⟨(Bool.or_false _).symm, (Bool.or_false _).symm⟩
    · rw [h, under_of_child?_eq_none ht, under_of_child? hu, below_fresh]
      exact ⟨(Bool.false_or _).symm, (Bool.false_or _).symm⟩
    · rw [h, under_of_child?_eq_none ht, under_of_child?_eq_none hu, below_fresh, below_fresh,
        below_fresh]
      exact ⟨rfl, rfl⟩

/-! ## The mode under a greedy tree -/

/-- The second tree has a node at the path or above it which it includes or which the first tree does
not have, and the first tree has no node from there on the way down to the path. -/
def Overlaid (t u : RuleTree) (path : List String) : Prop :=
  ∃ q, q <+: path ∧ u.HasNode q ∧ ((u.below q).included ∨ ¬ t.HasNode q) ∧
    ∀ name, q ++ [name] <+: path → ¬ t.HasNode (q ++ [name])

theorem overlaid_nil {t u : RuleTree} : t.Overlaid u [] ↔ u.included := by
  constructor
  · rintro ⟨q, hq, -, reached, -⟩
    obtain rfl := List.prefix_nil.mp hq
    exact reached.resolve_right fun absent => absent (hasNode_nil t)
  · intro included
    refine ⟨[], List.prefix_rfl, hasNode_nil u, .inl included, fun name h => ?_⟩
    exact absurd (List.prefix_nil.mp h) (List.concat_ne_nil name [])

theorem hasNode_cons_of_child? {t a : RuleTree} {name : String} (h : t.child? name = some a)
    {path : List String} : t.HasNode (name :: path) ↔ a.HasNode path := by
  rw [hasNode_cons, h]
  simp only [Option.some.injEq, exists_eq_left']

theorem not_hasNode_cons_of_child?_eq_none {t : RuleTree} {name : String}
    (h : t.child? name = none) (path : List String) : ¬ t.HasNode (name :: path) := by
  rw [hasNode_cons, h]
  simp only [reduceCtorEq, false_and, exists_false, not_false_eq_true]

/-- The node in question is the root of the second tree, or it is found below the child that the path
goes through. -/
theorem overlaid_cons {t u : RuleTree} {name : String} {path : List String} :
    t.Overlaid u (name :: path)
      ↔ u.included ∧ t.child? name = none ∨
        ∃ b, u.child? name = some b ∧ ∀ a, t.child? name = some a → a.Overlaid b path := by
  constructor
  · rintro ⟨q, above, node, reached, free⟩
    cases q with
    | nil =>
      refine .inl ⟨reached.resolve_right fun absent => absent (hasNode_nil t), ?_⟩
      have none := free name (List.cons_prefix_cons.mpr ⟨rfl, List.nil_prefix⟩)
      exact Option.eq_none_iff_forall_ne_some.mpr fun a ha =>
        none ((hasNode_cons_of_child? ha).mpr (hasNode_nil a))
    | cons first q =>
      obtain ⟨rfl, further⟩ := List.cons_prefix_cons.mp above
      obtain ⟨b, hb, node⟩ := hasNode_cons.mp node
      rw [below_cons, under_of_child? hb] at reached
      refine .inr ⟨b, hb, fun a ha => ⟨q, further, node, ?_, fun next longer => ?_⟩⟩
      · rwa [hasNode_cons_of_child? ha] at reached
      · rw [← hasNode_cons_of_child? ha]
        exact free next (List.cons_prefix_cons.mpr ⟨rfl, longer⟩)
  · rintro (⟨included, absent⟩ | ⟨b, hb, nested⟩)
    · refine ⟨[], List.nil_prefix, hasNode_nil u, .inl included, fun next h => ?_⟩
      obtain ⟨rfl, -⟩ := List.cons_prefix_cons.mp h
      exact not_hasNode_cons_of_child?_eq_none absent []
    · cases ht : t.child? name with
      | none =>
        have absent := not_hasNode_cons_of_child?_eq_none ht
        exact ⟨[name], List.cons_prefix_cons.mpr ⟨rfl, List.nil_prefix⟩,
          (hasNode_cons_of_child? hb).mpr (hasNode_nil b), .inr (absent []),
          fun next _ => absent [next]⟩
      | some a =>
        obtain ⟨q, above, node, reached, free⟩ := nested a ht
        refine ⟨name :: q, List.cons_prefix_cons.mpr ⟨rfl, above⟩,
          (hasNode_cons_of_child? hb).mpr node, ?_, fun next longer => ?_⟩
        · rwa [below_cons, under_of_child? hb, hasNode_cons_of_child? ht]
        · rw [List.cons_append, hasNode_cons_of_child? ht]
          exact free next (List.cons_prefix_cons.mp longer).2

/-- A tree that is greedy throughout makes greedy what it lies over, and leaves all else as it is. -/
theorem greedy_below_merge {t u : RuleTree} (greedy : ∀ p, (u.below p).greedy) (p : List String) :
    ((t.merge u).below p).greedy ↔ (t.below p).greedy ∨ t.Overlaid u p := by
  induction p generalizing t u with
  | nil =>
    have root : u.greedy := greedy []
    rw [below_nil, below_nil, overlaid_nil, (root_merge t u).2.2, root, Bool.and_true, Bool.or_eq_true]
  | cons name p ih =>
    rw [below_cons, below_cons, overlaid_cons]
    rcases under_merge_cases t u name with
      ⟨a, b, ht, hu, h⟩ | ⟨a, ht, hu, h⟩ | ⟨b, ht, hu, h⟩ | ⟨ht, hu, h⟩
    · have nested : ∀ q, (b.below q).greedy := fun q => by
        have here := greedy (name :: q)
        rwa [below_cons, under_of_child? hu] at here
      rw [h, under_of_child? ht, ih nested, ht, hu]
      simp only [reduceCtorEq, and_false, false_or, Option.some.injEq, exists_eq_left', forall_eq']
    · rw [h, under_of_child? ht, ht, hu]
      simp only [reduceCtorEq, and_false, false_and, exists_false, or_false]
    · have here := greedy (name :: p)
      rw [below_cons, under_of_child? hu] at here
      refine iff_of_true (h ▸ here) (.inr (.inr ⟨b, hu, fun a ha => ?_⟩))
      cases ht.symm.trans ha
    · have root : u.greedy := greedy []
      rw [h, under_of_child?_eq_none ht, below_fresh, below_fresh, ht, hu]
      simp only [reduceCtorEq, false_and, exists_false, or_false, and_true]
      show (t.merge u).greedy ↔ t.greedy ∨ _
      rw [(root_merge t u).2.2, root, Bool.and_true, Bool.or_eq_true]

/-! ## Laying over what rules leave in a fresh tree -/

/-- Rules do not touch the root. -/
theorem root_applyAll (t : RuleTree) (rules : List Rule) :
    (t.applyAll rules).included = t.included ∧ (t.applyAll rules).excluded = t.excluded ∧
      (t.applyAll rules).greedy = t.greedy := by
  induction rules generalizing t with
  | nil => exact ⟨rfl, rfl, rfl⟩
  | cons r rules ih =>
    have first := root_applyPath t r.polarity r.segments
    have rest := ih (t.apply r)
    rw [applyAll_cons]
    exact ⟨rest.1.trans first.1, rest.2.1.trans first.2.1, rest.2.2.trans first.2.2⟩

/-- A rule of the list passes through the path or through a place above it; the tree has no node at
that place or a keeping rule passes through it; and the tree has no node from there on the way down to
the path. -/
def LaidOver (t : RuleTree) (rules : List Rule) (path : List String) : Prop :=
  ∃ q, q ≠ [] ∧ q <+: path ∧ Rule.Mentioned rules q ∧ (Rule.Named rules q ∨ ¬ t.HasNode q) ∧
    ∀ name, q ++ [name] <+: path → ¬ t.HasNode (q ++ [name])

theorem overlaid_applyAll_fresh {t : RuleTree} {greedy : Bool} {rules : List Rule}
    {path : List String} :
    t.Overlaid ((fresh greedy).applyAll rules) path ↔ t.LaidOver rules path := by
  constructor
  · rintro ⟨q, above, node, reached, free⟩
    have nonempty : q ≠ [] := by
      rintro rfl
      rcases reached with included | absent
      · rw [below_nil, (root_applyAll (fresh greedy) rules).1] at included
        exact Bool.false_ne_true included
      · exact absent (hasNode_nil t)
    have marks := marks_below_applyAll_fresh greedy rules nonempty
    exact ⟨q, nonempty, above, marks.1.mp node, reached.imp_left marks.2.1.mp, free⟩
  · rintro ⟨q, nonempty, above, mentioned, reached, free⟩
    have marks := marks_below_applyAll_fresh greedy rules nonempty
    exact ⟨q, above, marks.1.mpr mentioned, reached.imp_left marks.2.1.mpr, free⟩

/-- What a rule selects it also lies over. -/
theorem laidOver_of_selected {t : RuleTree} {rules : List Rule} {path : List String}
    (h : t.Selected rules path) : t.LaidOver rules path := by
  obtain ⟨before, r, after, rfl, keep, above, free⟩ := h
  have mem : r ∈ before ++ r :: after := List.mem_append_right before List.mem_cons_self
  refine ⟨r.segments, r.segments_ne_nil, above, ⟨r, mem, List.prefix_rfl⟩,
    .inl ⟨r, mem, keep, List.prefix_rfl⟩, fun name longer present => ?_⟩
  exact free name longer (hasNode_applyAll.mpr (.inl present))

end RuleTree

end EntityJson
