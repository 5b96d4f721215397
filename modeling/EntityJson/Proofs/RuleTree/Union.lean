import EntityJson.Proofs.RuleTree.Extensional

/-!
# The union of trees

At each path the union of two trees has the union of the two trees that are found there, or the one
that is found (`RuleTree.find?_merge`). So what one step does at the root is done at every node: marks
add up, and a node of the first tree becomes greedy where the second tree has it included and greedy. A
node of the second tree alone comes with its own marks and its own mode.

Marks that only add up do not tell in which order they came. However trees are merged two at a time
(`RuleTree.Merging`), the nodes and marks of the union are those of its trees. Modes do tell: a node
that one tree has strict and the other greedy without including it, such as the root, keeps the mode of
the tree that comes first.
-/

namespace EntityJson.RuleTree

/-! ## Two trees -/

/-- What is found in the union: the union of what both trees have at the path, or what one has. -/
theorem find?_merge (t u : RuleTree) (path : List String) :
    (t.merge u).find? path =
      match t.find? path, u.find? path with
      | some a, some b => some (a.merge b)
      | some a, none => some a
      | none, b => b := by
  induction path generalizing t u with
  | nil => rfl
  | cons name path ih =>
    rw [find?, find?, find?, child?_merge]
    cases t.child? name with
    | none => rfl
    | some a =>
      cases u.child? name with
      | none =>
        simp only [Option.bind_some, Option.bind_none]
        cases a.find? path <;> rfl
      | some b => exact ih a b

theorem find?_mergeChildren (t u : RuleTree) {path : List String} (nonempty : path ≠ []) :
    (t.mergeChildren u).find? path = (t.merge u).find? path := by
  obtain ⟨name, path, rfl⟩ := List.exists_cons_of_ne_nil nonempty
  rw [find?, find?, child?_mergeChildren]

theorem root_mergeChildren (t u : RuleTree) :
    (t.mergeChildren u).included = t.included ∧ (t.mergeChildren u).excluded = t.excluded ∧
      (t.mergeChildren u).greedy = t.greedy :=
  ⟨rfl, rfl, rfl⟩

/-- A tree adds nothing to one that has all its nodes and marks already, and is greedy where it selects
a node. -/
theorem merge_eq_left {t u : RuleTree} (kept : u.Keeps t)
    (modes : ∀ path a b, t.find? path = some a → u.find? path = some b →
      b.included → b.greedy → a.greedy) : t.merge u = t := by
  refine eq_of_sameMarks (sameMarks_of_below ?_ ?_ ?_) ?_
  · intro path
    rw [hasNode_merge, or_iff_left_of_imp kept.hasNode]
  · intro path
    rw [(marks_below_merge t u path).1, Bool.eq_iff_iff, Bool.or_eq_true,
      or_iff_left_of_imp kept.included]
  · intro path
    rw [(marks_below_merge t u path).2, Bool.eq_iff_iff, Bool.or_eq_true,
      or_iff_left_of_imp kept.excluded]
  · intro path c d found found'
    rw [find?_merge, found'] at found
    cases hu : u.find? path with
    | none =>
      rw [hu] at found
      cases found
      rfl
    | some b =>
      rw [hu] at found
      cases found
      rw [(root_merge d b).2.2, Bool.eq_iff_iff, Bool.or_eq_true, Bool.and_eq_true]
      exact or_iff_left_of_imp fun selects => modes path d b found' hu selects.1 selects.2

theorem keeps_merge_right (t u : RuleTree) : u.Keeps (t.merge u) where
  hasNode node := hasNode_merge.mpr (.inr node)
  included mark := by rw [(marks_below_merge t u _).1, mark, Bool.or_true]
  excluded mark := by rw [(marks_below_merge t u _).2, mark, Bool.or_true]

/-- A tree that is merged with itself stays as it is. -/
theorem merge_self (t : RuleTree) : t.merge t = t := by
  refine merge_eq_left ⟨id, id, id⟩ ?_
  intro path a b ha hb _ greedy
  cases ha.symm.trans hb
  exact greedy

/-- What has been merged into a tree adds nothing to it a second time. -/
theorem merge_merge_self (t u : RuleTree) : (t.merge u).merge u = t.merge u := by
  refine merge_eq_left (keeps_merge_right t u) ?_
  intro path a b found hu included greedy
  rw [find?_merge, hu] at found
  cases ht : t.find? path with
  | none =>
    rw [ht] at found
    cases found
    exact greedy
  | some x =>
    rw [ht] at found
    cases found
    rw [(root_merge x b).2.2, included, greedy, Bool.and_true, Bool.or_true]

/-! ## Any number of trees -/

/-- A way to merge trees two at a time. -/
inductive Merging where
  | one (t : RuleTree)
  | both (first second : Merging)

namespace Merging

/-- The trees that are merged, in their order. -/
def trees : Merging → List RuleTree
  | one t => [t]
  | both first second => first.trees ++ second.trees

/-- The tree that comes out. -/
def union : Merging → RuleTree
  | one t => t
  | both first second => first.union.merge second.union

/-- What a union has from either of two trees it has from any of the trees that are merged. -/
theorem union_iff {P : RuleTree → Prop} (step : ∀ t u : RuleTree, P (t.merge u) ↔ P t ∨ P u)
    (m : Merging) : P m.union ↔ ∃ t ∈ m.trees, P t := by
  induction m with
  | one t => simp only [union, trees, List.mem_singleton, exists_eq_left]
  | both first second ihf ihs =>
    rw [union, step, ihf, ihs, trees]
    simp only [List.mem_append, or_and_right, exists_or]

theorem hasNode_union (m : Merging) (path : List String) :
    m.union.HasNode path ↔ ∃ t ∈ m.trees, t.HasNode path :=
  union_iff (P := fun t => t.HasNode path) (fun _ _ => hasNode_merge) m

theorem included_below_union (m : Merging) (path : List String) :
    (m.union.below path).included ↔ ∃ t ∈ m.trees, (t.below path).included :=
  union_iff (P := fun t => (t.below path).included)
    (fun t u => by rw [(marks_below_merge t u path).1, Bool.or_eq_true]) m

theorem excluded_below_union (m : Merging) (path : List String) :
    (m.union.below path).excluded ↔ ∃ t ∈ m.trees, (t.below path).excluded :=
  union_iff (P := fun t => (t.below path).excluded)
    (fun t u => by rw [(marks_below_merge t u path).2, Bool.or_eq_true]) m

/-- The same trees leave the same nodes and marks, in whatever order they are merged, however they are
taken together and however often each of them comes. -/
theorem sameMarks_union {m n : Merging} (same : ∀ t, t ∈ m.trees ↔ t ∈ n.trees) :
    m.union.SameMarks n.union := by
  refine sameMarks_of_below (fun path => ?_) (fun path => ?_) fun path => ?_
  · rw [hasNode_union, hasNode_union]
    simp only [same]
  · rw [Bool.eq_iff_iff, included_below_union, included_below_union]
    simp only [same]
  · rw [Bool.eq_iff_iff, excluded_below_union, excluded_below_union]
    simp only [same]

end Merging

/-! ## The law of the union -/

/-- The union of two trees has the nodes of both. The marks of a node are set that are set in one of
the two. A node of the first tree is greedy if it was, or if the second tree has it included and greedy;
a node of the second tree alone keeps its mode. Merging below the root leaves the root and does the same
everywhere else. A tree merged with itself stays as it is, a second merge of the same tree does nothing,
and the nodes and marks of many trees hang on neither order nor grouping. -/
theorem nodes_of_merge (a b : RuleTree) :
    (∀ path, (a.merge b).HasNode path ↔ a.HasNode path ∨ b.HasNode path) ∧
    (∀ path c, (a.merge b).find? path = some c →
      c.included = ((a.find? path).any included || (b.find? path).any included) ∧
      c.excluded = ((a.find? path).any excluded || (b.find? path).any excluded) ∧
      (∀ x, a.find? path = some x →
        (c.greedy ↔ x.greedy ∨ ∃ y, b.find? path = some y ∧ y.included ∧ y.greedy)) ∧
      ∀ y, a.find? path = none → b.find? path = some y → c.greedy = y.greedy) ∧
    (∀ path, path ≠ [] → (a.mergeChildren b).find? path = (a.merge b).find? path) ∧
    ((a.mergeChildren b).included = a.included ∧ (a.mergeChildren b).excluded = a.excluded ∧
      (a.mergeChildren b).greedy = a.greedy) ∧
    a.merge a = a ∧ (a.merge b).merge b = a.merge b ∧
    ∀ m n : Merging, (∀ t, t ∈ m.trees ↔ t ∈ n.trees) → m.union.SameMarks n.union := by
  refine ⟨fun _ => hasNode_merge, fun path c found => ?_, fun _ => find?_mergeChildren a b,
    root_mergeChildren a b, merge_self a, merge_merge_self a b, fun _ _ => Merging.sameMarks_union⟩
  rw [find?_merge] at found
  cases ha : a.find? path with
  | none =>
    rw [ha] at found
    have second : b.find? path = some c := found
    rw [second]
    refine ⟨rfl, rfl, nofun, fun y _ hy => ?_⟩
    cases hy
    rfl
  | some x =>
    cases hb : b.find? path with
    | none =>
      rw [ha, hb] at found
      cases found
      simp
    | some y =>
      rw [ha, hb] at found
      cases found
      have root := root_merge x y
      refine ⟨root.1, root.2.1, fun x' hx => ?_, nofun⟩
      cases hx
      rw [root.2.2, Bool.or_eq_true, Bool.and_eq_true]
      simp only [Option.some.injEq, exists_eq_left']

/-- A strict tree and a greedy one that share an included node. Merged in either order they have the
same marks, but not the same mode at the root. -/
theorem nodes_of_merge_strict_greedy :
    ∃ (a b x y z c d : RuleTree) (m n : Merging),
      a.find? ["x"] = some x ∧ x.greedy = false ∧ b.find? ["x"] = some y ∧ y.included ∧ y.greedy ∧
      (a.merge b).find? ["x"] = some c ∧ c.greedy ∧
      a.find? ["x", "b"] = none ∧ b.find? ["x", "b"] = some z ∧
      (a.merge b).find? ["x", "b"] = some d ∧ d.greedy = z.greedy ∧
      ["x"] ≠ [] ∧ (a.mergeChildren b).find? ["x"] = some c ∧
      m = .both (.one a) (.one b) ∧ n = .both (.one b) (.both (.one a) (.one b)) ∧
      (∀ t, t ∈ m.trees ↔ t ∈ n.trees) ∧ m.union.SameMarks n.union ∧ m.union ≠ n.union := by
  let a : RuleTree := strict.apply ⟨.keep, ["x", "a"], nofun, by decide⟩
  let b : RuleTree := keepAll.apply ⟨.keep, ["x", "b"], nofun, by decide⟩
  let m : Merging := .both (.one a) (.one b)
  let n : Merging := .both (.one b) (.both (.one a) (.one b))
  have x : a.find? ["x"] = some (a.below ["x"]) := rfl
  have y : b.find? ["x"] = some (b.below ["x"]) := rfl
  have c : (a.merge b).find? ["x"] = some ((a.merge b).below ["x"]) := rfl
  have z : b.find? ["x", "b"] = some (b.below ["x", "b"]) := rfl
  have d : (a.merge b).find? ["x", "b"] = some ((a.merge b).below ["x", "b"]) := rfl
  have same : ∀ t, t ∈ m.trees ↔ t ∈ n.trees := by
    intro t
    simp only [m, n, Merging.trees, List.mem_append, List.mem_singleton]
    exact ⟨fun either => .inr either, fun any => any.elim .inr id⟩
  obtain ⟨-, nodes, children, -, -, -, merged⟩ := nodes_of_merge a b
  obtain ⟨-, -, mode, -⟩ := nodes ["x"] _ c
  obtain ⟨-, -, -, own⟩ := nodes ["x", "b"] _ d
  exact ⟨a, b, _, _, _, _, _, m, n, x, rfl, y, rfl, rfl, c, (mode _ x).mpr (.inr ⟨_, y, rfl, rfl⟩),
    rfl, z, d, own _ rfl z, nofun, (children ["x"] nofun).trans c, rfl, rfl, same,
    merged m n same, fun equal => Bool.false_ne_true (congrArg greedy equal)⟩

end EntityJson.RuleTree
