import EntityJson.Proofs.RuleTree.Children

/-!
# Descending into a tree of rules

A tree answers at every path, also where it has no node: there the answer is that of an unmarked node
in the mode of the last node on the way (`RuleTree.below`). What one rule does to a tree is said in
these terms. A path that the rule's path passes through gets marks; a path that goes on from the end
of the rule's path sees the mode that has changed there; a path that parts from the rule's path on the
way sees nothing of the rule.
-/

namespace EntityJson.RuleTree

/-! ## Paths -/

/-- The tree for what is nested under a name: the child of that name, or an unmarked tree in the mode
of this one. -/
def under (t : RuleTree) (name : String) : RuleTree :=
  (t.child? name).getD (fresh t.greedy)

/-- The tree for what is nested at a path. -/
def below (t : RuleTree) : List String → RuleTree
  | [] => t
  | name :: path => (t.under name).below path

/-- Whether there is a node at a path. -/
def HasNode (t : RuleTree) (path : List String) : Prop :=
  (t.find? path).isSome

@[simp] theorem below_nil (t : RuleTree) : t.below [] = t := rfl

@[simp] theorem below_cons (t : RuleTree) (name : String) (path : List String) :
    t.below (name :: path) = (t.under name).below path := rfl

/-- A place is found in two stretches as in one. -/
theorem below_append (t : RuleTree) (p q : List String) :
    t.below (p ++ q) = (t.below p).below q := by
  induction p generalizing t with
  | nil => rfl
  | cons name p ih => exact ih (t.under name)

/-- What lies under a name is the child of that name. -/
theorem under_of_child? {t c : RuleTree} {name : String} (h : t.child? name = some c) :
    t.under name = c := by
  rw [under, h, Option.getD_some]

/-- Without a child it is what a rule that comes by would make. -/
theorem under_of_child?_eq_none {t : RuleTree} {name : String} (h : t.child? name = none) :
    t.under name = fresh t.greedy := by
  rw [under, h, Option.getD_none]

@[simp] theorem child?_fresh (greedy : Bool) (name : String) :
    (fresh greedy).child? name = none := rfl

/-- Below a place without children all places are alike. -/
@[simp] theorem below_fresh (greedy : Bool) (path : List String) :
    (fresh greedy).below path = fresh greedy := by
  induction path with
  | nil => rfl
  | cons name path ih => exact ih

theorem hasNode_nil (t : RuleTree) : t.HasNode [] := rfl

/-- A node lies at the end of a path if its first name has a child from which the rest leads to
one. -/
theorem hasNode_cons {t : RuleTree} {name : String} {path : List String} :
    t.HasNode (name :: path) ↔ ∃ c, t.child? name = some c ∧ c.HasNode path := by
  cases h : t.child? name with
  | none => simp only [HasNode, find?, h, Option.bind_none, Option.isSome_none, reduceCtorEq,
      false_and, exists_false, Bool.false_eq_true]
  | some c => simp only [HasNode, find?, h, Option.bind_some, Option.some.injEq,
      exists_eq_left']

/-- A tree without children has its root and no other node. -/
theorem not_hasNode_fresh_cons (greedy : Bool) (name : String) (path : List String) :
    ¬ (fresh greedy).HasNode (name :: path) := by
  rw [hasNode_cons]
  rintro ⟨c, hc, -⟩
  cases hc

/-- A node one step below a path is a child of the tree at that path. -/
theorem hasNode_append_singleton {t : RuleTree} {path : List String} {name : String} :
    t.HasNode (path ++ [name]) ↔ ∃ c, (t.below path).child? name = some c := by
  induction path generalizing t with
  | nil =>
    rw [List.nil_append, hasNode_cons, below_nil]
    exact exists_congr fun c => and_iff_left (hasNode_nil c)
  | cons first path ih =>
    rw [List.cons_append, hasNode_cons, below_cons]
    cases h : t.child? first with
    | none =>
      rw [under_of_child?_eq_none h, below_fresh]
      constructor
      · rintro ⟨c, hc, -⟩
        cases hc
      · rintro ⟨c, hc⟩
        cases hc
    | some c =>
      rw [under_of_child? h, ← ih]
      constructor
      · rintro ⟨d, hd, node⟩
        exact Option.some.inj hd ▸ node
      · exact fun node => ⟨c, rfl, node⟩

/-- A child is included if it has the mark, or if it is not excluded in a greedy tree. -/
theorem isIncluded_iff {t : RuleTree} {name : String} :
    t.isIncluded name
      ↔ (t.under name).included ∨ ¬ (t.under name).excluded ∧ t.greedy := by
  unfold isIncluded
  cases h : t.child? name with
  | none =>
    rw [under_of_child?_eq_none h]
    show t.greedy = true ↔ false = true ∨ ¬ false = true ∧ t.greedy = true
    simp only [Bool.false_eq_true, false_or, not_false_eq_true, true_and]
  | some c =>
    rw [under_of_child? h]
    show (if c.included then true else if c.excluded then false else t.greedy) = true ↔ _
    by_cases included : c.included
    · rw [if_pos included]
      exact iff_of_true rfl (.inl included)
    · rw [if_neg included, or_iff_right included]
      by_cases excluded : c.excluded
      · rw [if_pos excluded]
        exact iff_of_false Bool.false_ne_true fun both => both.1 excluded
      · rw [if_neg excluded, and_iff_right excluded]

/-! ## Children of a changed tree -/

theorem node_injective {s t : RuleTree} (h : s.node = t.node) : s = t := by
  cases s; cases t; cases h; rfl

/-- A child is looked up among the nodes. -/
theorem map_node_child? (t : RuleTree) (name : String) :
    (t.child? name).map node = RuleNode.lookup name t.node.children := by
  unfold child?
  split
  · next c h => exact h.symm
  · next h => exact h.symm

/-- Children are told by what is found among the nodes. -/
theorem child?_eq_iff {t : RuleTree} {name : String} {c : Option RuleTree} :
    t.child? name = c ↔ RuleNode.lookup name t.node.children = c.map node := by
  rw [← map_node_child?]
  constructor
  · exact fun h => congrArg _ h
  · exact fun h => Option.map_injective (fun _ _ => node_injective) h

/-- Trees whose nodes have the same children have the same children. -/
theorem child?_congr {s t : RuleTree} (h : s.node.children = t.node.children) (name : String) :
    s.child? name = t.child? name := by
  rw [child?_eq_iff, h, map_node_child?]

/-! ## Marking one node -/

/-- Marks a tree as `RuleNode.mark` does. -/
def mark (t : RuleTree) (polarity : Polarity) (last : Bool) : RuleTree :=
  ⟨t.node.mark polarity last, t.ordered.mark polarity last⟩

/-- A rule that keeps marks each place on its path. -/
theorem included_mark (t : RuleTree) (polarity : Polarity) (last : Bool) :
    (t.mark polarity last).included = (t.included || polarity = .keep) := by
  obtain ⟨⟨i, e, g, cs⟩, _⟩ := t
  cases polarity <;> cases last <;> cases i <;> rfl

/-- A rule that drops marks the end of its path alone. -/
theorem excluded_mark (t : RuleTree) (polarity : Polarity) (last : Bool) :
    (t.mark polarity last).excluded = (t.excluded || (polarity = .drop && last)) := by
  obtain ⟨⟨i, e, g, cs⟩, _⟩ := t
  cases polarity <;> cases last <;> cases e <;> rfl

/-- A rule that keeps turns the end of its path greedy, and no place on the way. -/
theorem greedy_mark (t : RuleTree) (polarity : Polarity) (last : Bool) :
    (t.mark polarity last).greedy = (t.greedy || (polarity = .keep && last)) := by
  obtain ⟨⟨i, e, g, cs⟩, _⟩ := t
  cases polarity <;> cases last <;> cases g <;> rfl

@[simp] theorem child?_mark (t : RuleTree) (polarity : Polarity) (last : Bool) (name : String) :
    (t.mark polarity last).child? name = t.child? name := by
  refine child?_congr ?_ name
  obtain ⟨⟨i, e, g, cs⟩, _⟩ := t
  cases polarity <;> cases last <;> rfl

/-- A node that is only passed through keeps its mode, and with it all that is nested in it. -/
theorem under_mark_passed (t : RuleTree) (polarity : Polarity) (name : String) :
    (t.mark polarity false).under name = t.under name := by
  rw [under, child?_mark, greedy_mark, Bool.and_false, Bool.or_false, under]

/-! ## Marking a path -/

/-- Marks the nodes along a path as `RuleNode.applyPath` does. -/
def applyPath (t : RuleTree) (polarity : Polarity) (path : List String) : RuleTree :=
  ⟨t.node.applyPath polarity path, t.ordered.applyPath polarity path⟩

theorem apply_eq_applyPath (t : RuleTree) (r : Rule) :
    t.apply r = t.applyPath r.polarity r.segments := rfl

@[simp] theorem applyPath_nil (t : RuleTree) (polarity : Polarity) :
    t.applyPath polarity [] = t := rfl

/-- The root keeps its marks and its mode. -/
theorem root_applyPath (t : RuleTree) (polarity : Polarity) (path : List String) :
    (t.applyPath polarity path).included = t.included ∧
      (t.applyPath polarity path).excluded = t.excluded ∧
      (t.applyPath polarity path).greedy = t.greedy := by
  obtain ⟨⟨i, e, g, cs⟩, _⟩ := t
  cases path <;> exact ⟨rfl, rfl, rfl⟩

/-- No rule changes the mode of the root. -/
theorem greedy_applyPath (t : RuleTree) (polarity : Polarity) (path : List String) :
    (t.applyPath polarity path).greedy = t.greedy :=
  (root_applyPath t polarity path).2.2

/-- The first child on the path is marked and goes on with the rest of it, the others stay. -/
theorem child?_applyPath_cons (t : RuleTree) (polarity : Polarity) (name : String)
    (path : List String) (other : String) :
    (t.applyPath polarity (name :: path)).child? other
      = if other = name then some (((t.under name).mark polarity path.isEmpty).applyPath polarity path)
        else t.child? other := by
  have h := RuleNode.lookup_alter t.ordered.children.1 name other fun c =>
    RuleNode.applyPath polarity path
      (RuleNode.mark polarity path.isEmpty (c.getD (RuleNode.fresh t.greedy)))
  rw [child?_eq_iff]
  have children : (t.applyPath polarity (name :: path)).node.children
      = RuleNode.alter name (fun c => RuleNode.applyPath polarity path
          (RuleNode.mark polarity path.isEmpty (c.getD (RuleNode.fresh t.greedy))))
        t.node.children := by
    obtain ⟨⟨i, e, g, cs⟩, _⟩ := t
    rfl
  rw [children, h]
  by_cases same : other = name
  · have node : (t.under name).node
        = (RuleNode.lookup name t.node.children).getD (RuleNode.fresh t.greedy) := by
      rw [← map_node_child?, under]
      cases t.child? name <;> rfl
    rw [if_pos same, if_pos same, ← node]
    rfl
  · rw [if_neg same, if_neg same, map_node_child?]

/-- A rule leaves the children alone that are not on its path. -/
theorem child?_applyPath_of_ne (t : RuleTree) (polarity : Polarity) {name other : String}
    (path : List String) (h : other ≠ name) :
    (t.applyPath polarity (name :: path)).child? other = t.child? other := by
  rw [child?_applyPath_cons, if_neg h]

/-- On its path a rule marks the child and goes on below it. -/
theorem under_applyPath_self (t : RuleTree) (polarity : Polarity) (name : String)
    (path : List String) :
    (t.applyPath polarity (name :: path)).under name
      = ((t.under name).mark polarity path.isEmpty).applyPath polarity path := by
  rw [under, child?_applyPath_cons, if_pos rfl, Option.getD_some]

theorem under_applyPath_of_ne (t : RuleTree) (polarity : Polarity) {name other : String}
    (path : List String) (h : other ≠ name) :
    (t.applyPath polarity (name :: path)).under other = t.under other := by
  rw [under, child?_applyPath_of_ne t polarity path h, greedy_applyPath, under]

/-- A path that the rule's path passes through or ends at is marked there, and the rest of the rule's
path goes on from it. -/
theorem below_applyPath_append (t : RuleTree) (polarity : Polarity) {p : List String} (h : p ≠ [])
    (q : List String) :
    (t.applyPath polarity (p ++ q)).below p
      = ((t.below p).mark polarity q.isEmpty).applyPath polarity q := by
  induction p generalizing t with
  | nil => exact absurd rfl h
  | cons name p ih =>
    rw [List.cons_append, below_cons, under_applyPath_self, below_cons]
    cases p with
    | nil => rfl
    | cons next p =>
      rw [List.cons_append, List.isEmpty_cons, ← List.cons_append, ih _ (List.cons_ne_nil next p),
        below_cons, under_mark_passed, below_cons]

/-- A path that goes on from the end of the rule's path is seen from there. -/
theorem below_applyPath_beyond (t : RuleTree) (polarity : Polarity) {p : List String}
    (h : p ≠ []) (q : List String) :
    (t.applyPath polarity p).below (p ++ q) = ((t.below p).mark polarity true).below q := by
  have ends := below_applyPath_append t polarity h []
  rw [List.append_nil, List.isEmpty_nil, applyPath_nil] at ends
  rw [below_append, ends]

/-- A path that parts from the rule's path sees nothing of the rule. -/
theorem below_applyPath_of_parting (t : RuleTree) (polarity : Polarity) (p : List String)
    {name other : String} (h : other ≠ name) (q r : List String) :
    (t.applyPath polarity (p ++ name :: q)).below (p ++ other :: r) = t.below (p ++ other :: r) := by
  rw [below_append, below_append]
  cases p with
  | nil => rw [List.nil_append, below_nil, below_cons, under_applyPath_of_ne t polarity q h, below_nil,
      below_cons]
  | cons first p =>
    rw [below_applyPath_append t polarity (List.cons_ne_nil first p), List.isEmpty_cons]
    simp only [below_cons, under_applyPath_of_ne _ polarity q h, under_mark_passed]

end EntityJson.RuleTree
