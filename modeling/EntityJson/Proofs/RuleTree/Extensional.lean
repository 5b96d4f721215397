import EntityJson.Proofs.RuleTree.History

/-!
# Trees told by their nodes

Nothing is in a tree but its nodes. Two trees with nodes at the same paths, which carry the same marks,
differ at most in the modes of these nodes (`RuleTree.SameMarks`); where the modes agree as well, they
are the same tree (`RuleTree.eq_of_sameMarks`). This needs the order of the children: it makes a list of
children what can be looked up in it (`RuleNode.eq_of_lookup_eq`), whatever history has put them there.

The proof is by induction on the tree, in the form in which a tree is reached by its children
(`RuleTree.children_induction`).
-/

namespace EntityJson

namespace RuleNode

/-- A child that is found is one of the children. -/
theorem name_mem_of_lookup {name : String} {cs : List (String × RuleNode)} {t : RuleNode}
    (found : lookup name cs = some t) : (name, t) ∈ cs := by
  induction cs with
  | nil => cases found
  | cons c rest ih =>
    obtain ⟨other, s⟩ := c
    rw [lookup_cons] at found
    by_cases same : other = name
    · rw [if_pos same] at found
      cases found
      exact same ▸ List.mem_cons_self
    · rw [if_neg same] at found
      exact List.mem_cons_of_mem _ (ih found)

/-- Children in the order of their names are told by what is found among them. -/
theorem eq_of_lookup_eq {cs ds : List (String × RuleNode)} (hcs : Increasing cs)
    (hds : Increasing ds) (same : ∀ name, lookup name cs = lookup name ds) : cs = ds := by
  induction cs generalizing ds with
  | nil =>
    cases ds with
    | nil => rfl
    | cons d rest =>
      have found := same d.1
      rw [lookup_nil, lookup_cons, if_pos rfl] at found
      cases found
  | cons c cs ih =>
    obtain ⟨name, s⟩ := c
    obtain ⟨least, increasing⟩ := List.pairwise_cons.mp hcs
    cases ds with
    | nil =>
      have found := same name
      rw [lookup_nil, lookup_cons, if_pos rfl] at found
      cases found
    | cons d ds =>
      obtain ⟨name', s'⟩ := d
      obtain ⟨least', increasing'⟩ := List.pairwise_cons.mp hds
      have first := same name
      have first' := same name'
      rw [lookup_cons, if_pos rfl, lookup_cons] at first
      rw [lookup_cons, lookup_cons, if_pos rfl] at first'
      -- a first name that is found further back in the other list would come before itself
      have names : name' = name := by
        refine Decidable.byContradiction fun ne => ?_
        rw [if_neg ne] at first
        rw [if_neg (Ne.symm ne)] at first'
        have after : name' < name := least' _ (name_mem_of_lookup first.symm)
        have before : name < name' := least _ (name_mem_of_lookup first')
        exact String.lt_asymm after before
      subst names
      rw [if_pos rfl] at first
      cases first
      rw [ih increasing increasing' fun other => ?_]
      have further := same other
      rw [lookup_cons, lookup_cons] at further
      by_cases h : name' = other
      · subst h
        rw [lookup_eq_none_of_lt least, lookup_eq_none_of_lt least']
      · rwa [if_neg h, if_neg h] at further

/-- Children are smaller, so an induction may go down to them. -/
theorem sizeOf_lt_of_lookup {name : String} {cs : List (String × RuleNode)} {t : RuleNode}
    (found : lookup name cs = some t) : sizeOf t < sizeOf cs := by
  have inside := List.sizeOf_lt_of_mem (name_mem_of_lookup found)
  have pair : sizeOf (name, t) = 1 + sizeOf name + sizeOf t := rfl
  omega

end RuleNode

namespace RuleTree

theorem sizeOf_lt_of_child? {t c : RuleTree} {name : String} (h : t.child? name = some c) :
    sizeOf c.node < sizeOf t.node := by
  have inside := RuleNode.sizeOf_lt_of_lookup (child?_eq_iff.mp h)
  have below : sizeOf t.node.children < sizeOf t.node := by
    cases t.node with
    | mk i e g cs =>
      rw [RuleNode.mk.sizeOf_spec, RuleNode.children]
      omega
  omega

/-- What holds of each tree as soon as it holds of its children holds of every tree. -/
@[elab_as_elim]
theorem children_induction {motive : RuleTree → Prop}
    (step : ∀ t, (∀ name c, t.child? name = some c → motive c) → motive t) (t : RuleTree) :
    motive t :=
  step t fun _ c h =>
    have := sizeOf_lt_of_child? h
    children_induction step c
termination_by sizeOf t.node

/-- Trees with the same marks and mode at the root and the same children are the same. -/
theorem eq_of_child?_eq {t u : RuleTree} (included : t.included = u.included)
    (excluded : t.excluded = u.excluded) (greedy : t.greedy = u.greedy)
    (children : ∀ name, t.child? name = u.child? name) : t = u := by
  have nodes : t.node.children = u.node.children := by
    refine RuleNode.eq_of_lookup_eq t.ordered.children.1 u.ordered.children.1 fun name => ?_
    rw [← map_node_child?, ← map_node_child?, children]
  obtain ⟨⟨i, e, g, cs⟩, _⟩ := t
  obtain ⟨⟨i', e', g', cs'⟩, _⟩ := u
  obtain rfl : i = i' := included
  obtain rfl : e = e' := excluded
  obtain rfl : g = g' := greedy
  obtain rfl : cs = cs' := nodes
  rfl

/-! ## Trees that differ in modes at most -/

/-- The marks of the root. -/
def marks (t : RuleTree) : Bool × Bool :=
  (t.included, t.excluded)

/-- Two trees have nodes at the same paths, and the same marks there. -/
def SameMarks (t u : RuleTree) : Prop :=
  ∀ path, (t.find? path).map marks = (u.find? path).map marks

/-- Where there is a node, it is found, and it is what lies below the path. -/
theorem find?_of_hasNode {t : RuleTree} {path : List String} (node : t.HasNode path) :
    t.find? path = some (t.below path) :=
  find?_eq_some_iff.mpr ⟨node, rfl⟩

theorem find?_of_not_hasNode {t : RuleTree} {path : List String} (absent : ¬ t.HasNode path) :
    t.find? path = none := by
  rwa [HasNode, Bool.not_eq_true, Option.isSome_eq_false_iff, Option.isNone_iff_eq_none] at absent

/-- The marks at a path are the same if there is a node in both trees or in neither, and what lies
below bears the same marks. -/
theorem map_marks_find?_eq {t u : RuleTree} {path : List String}
    (nodes : t.HasNode path ↔ u.HasNode path)
    (included : (t.below path).included = (u.below path).included)
    (excluded : (t.below path).excluded = (u.below path).excluded) :
    (t.find? path).map marks = (u.find? path).map marks := by
  by_cases node : t.HasNode path
  · rw [find?_of_hasNode node, find?_of_hasNode (nodes.mp node), Option.map_some,
      Option.map_some, marks, marks, included, excluded]
  · rw [find?_of_not_hasNode node, find?_of_not_hasNode (mt nodes.mpr node)]

theorem sameMarks_of_below {t u : RuleTree}
    (nodes : ∀ path, t.HasNode path ↔ u.HasNode path)
    (included : ∀ path, (t.below path).included = (u.below path).included)
    (excluded : ∀ path, (t.below path).excluded = (u.below path).excluded) : t.SameMarks u := by
  intro path
  exact map_marks_find?_eq (nodes path) (included path) (excluded path)

/-- Two trees have nodes at the same paths below their roots, and the same marks there. -/
def SameMarksInside (t u : RuleTree) : Prop :=
  ∀ path, path ≠ [] → (t.find? path).map marks = (u.find? path).map marks

/-- Trees with the same marks have the same ones inside. -/
theorem SameMarks.inside {t u : RuleTree} (same : t.SameMarks u) : t.SameMarksInside u :=
  fun path _ => same path

/-- Children of the same name have the same marks again. -/
theorem SameMarksInside.child {t u c d : RuleTree} (same : t.SameMarksInside u) {name : String}
    (ht : t.child? name = some c) (hu : u.child? name = some d) : c.SameMarks d := by
  intro path
  have nested := same (name :: path) (List.cons_ne_nil name path)
  rwa [find?, find?, ht, hu, Option.bind_some, Option.bind_some] at nested

/-- Then they have children under the same names. -/
theorem SameMarksInside.child?_eq_none_iff {t u : RuleTree} (same : t.SameMarksInside u)
    (name : String) : t.child? name = none ↔ u.child? name = none := by
  have nested := congrArg Option.isNone (same [name] (List.cons_ne_nil name []))
  rw [Option.isNone_map, Option.isNone_map] at nested
  have single : ∀ s : RuleTree, s.find? [name] = s.child? name := fun s => Option.bind_fun_some _
  rw [single, single] at nested
  rw [← Option.isNone_iff_eq_none, ← Option.isNone_iff_eq_none, nested]

/-- Trees that differ in modes at most are the same if the modes of their nodes agree. -/
theorem eq_of_sameMarks {t u : RuleTree} (same : t.SameMarks u)
    (modes : ∀ path c d, t.find? path = some c → u.find? path = some d → c.greedy = d.greedy) :
    t = u := by
  induction t using children_induction generalizing u with
  | step t ih =>
    have root : t.marks = u.marks := Option.some.inj (same [])
    refine eq_of_child?_eq (congrArg Prod.fst root) (congrArg Prod.snd root) (modes [] t u rfl rfl)
      fun name => ?_
    cases ht : t.child? name with
    | none => exact ((same.inside.child?_eq_none_iff name).mp ht).symm
    | some c =>
      cases hu : u.child? name with
      | none => rw [(same.inside.child?_eq_none_iff name).mpr hu] at ht; cases ht
      | some d =>
        refine congrArg some (ih name c ht (same.inside.child ht hu) fun path x y hx hy => ?_)
        refine modes (name :: path) x y ?_ ?_
        · rw [find?, ht, Option.bind_some, hx]
        · rw [find?, hu, Option.bind_some, hy]

end RuleTree

end EntityJson
