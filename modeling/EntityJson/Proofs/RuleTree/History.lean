import EntityJson.Proofs.RuleTree.Merged
import Mathlib.Logic.Relation

/-!
# Trees over their history

A tree is made from an empty one by rules, by merging trees that are made in the same way, by making
it strict and by copying a child (`RuleTree.Built`). Whatever the history, an included node below the
first level has an included parent, and a node below the root without marks has a child. So a path
that a keeping rule names never ends at a node that hides it.

Both are properties of the nodes and marks along a path (`RuleTree.Sound`), and every operation only
adds nodes and marks (`RuleTree.Keeps`). What a rule adds is sound by itself, and what a merge adds is
the nodes and marks of a sound tree.
-/

namespace EntityJson

namespace RuleNode

/-- The same children are found after all nodes have been turned strict. -/
theorem lookup_forceStrictAll (name : String) (cs : List (String × RuleNode)) :
    lookup name (forceStrictAll cs) = (lookup name cs).map forceStrict := by
  induction cs with
  | nil => rfl
  | cons c rest ih =>
    obtain ⟨other, t⟩ := c
    rw [forceStrictAll, lookup_cons, lookup_cons, ih]
    split <;> rfl

end RuleNode

namespace RuleTree

/-- What is found at a path is the tree for that path, where there is a node. -/
theorem find?_eq_some_iff {t c : RuleTree} {path : List String} :
    t.find? path = some c ↔ t.HasNode path ∧ t.below path = c := by
  induction path generalizing t with
  | nil => exact ⟨fun h => ⟨rfl, Option.some.inj h⟩, fun h => congrArg some h.2⟩
  | cons name path ih =>
    cases h : t.child? name with
    | none =>
      rw [find?, h, Option.bind_none]
      exact iff_of_false (Option.some_ne_none c).symm fun both =>
        not_hasNode_cons_of_child?_eq_none h path both.1
    | some d => rw [find?, h, Option.bind_some, ih, hasNode_cons_of_child? h, below_cons,
        under_of_child? h]

/-! ## The operations along a path -/

/-- Nodes below the root are those of the children. -/
theorem hasNode_of_child?_eq {s t : RuleTree} (h : ∀ name, s.child? name = t.child? name)
    {p : List String} : s.HasNode p ↔ t.HasNode p := by
  cases p with
  | nil => exact iff_of_true (hasNode_nil s) (hasNode_nil t)
  | cons name p => rw [hasNode_cons, hasNode_cons, h]

/-- A merged tree has the nodes of both. -/
theorem hasNode_merge {t u : RuleTree} {p : List String} :
    (t.merge u).HasNode p ↔ t.HasNode p ∨ u.HasNode p := by
  induction p generalizing t u with
  | nil => exact iff_of_true (hasNode_nil _) (.inl (hasNode_nil t))
  | cons name p ih =>
    have child := child?_merge t u name
    rw [hasNode_cons, hasNode_cons, hasNode_cons, child]
    cases t.child? name <;> cases u.child? name <;>
      simp only [ih, Option.some.injEq, reduceCtorEq, exists_eq_left', false_and, exists_false,
        or_false, false_or]

/-- Below the root the union of children is the union of the trees. -/
theorem child?_mergeChildren (t u : RuleTree) (name : String) :
    (t.mergeChildren u).child? name = (t.merge u).child? name := by
  refine child?_congr ?_ name
  obtain ⟨⟨i, e, g, cs⟩, _⟩ := u
  rfl

theorem child?_forceStrict (t : RuleTree) (name : String) :
    t.forceStrict.child? name = (t.child? name).map forceStrict := by
  have children : t.forceStrict.node.children = RuleNode.forceStrictAll t.node.children := by
    obtain ⟨⟨i, e, g, cs⟩, _⟩ := t
    rfl
  rw [child?_eq_iff, children, RuleNode.lookup_forceStrictAll, ← map_node_child?]
  cases t.child? name <;> rfl

theorem hasNode_forceStrict {t : RuleTree} {p : List String} :
    t.forceStrict.HasNode p ↔ t.HasNode p := by
  induction p generalizing t with
  | nil => exact iff_of_true (hasNode_nil _) (hasNode_nil t)
  | cons name p ih =>
    rw [hasNode_cons, hasNode_cons, child?_forceStrict]
    cases t.child? name with
    | none => simp only [Option.map_none, reduceCtorEq, false_and, exists_false]
    | some c => simp only [Option.map_some, Option.some.injEq, exists_eq_left', ih]

/-- A tree that is made strict keeps its marks. -/
theorem marks_below_forceStrict (t : RuleTree) (p : List String) :
    (t.forceStrict.below p).included = (t.below p).included ∧
      (t.forceStrict.below p).excluded = (t.below p).excluded := by
  induction p generalizing t with
  | nil =>
    obtain ⟨⟨i, e, g, cs⟩, _⟩ := t
    exact ⟨rfl, rfl⟩
  | cons name p ih =>
    have child := child?_forceStrict t name
    rw [below_cons, below_cons]
    cases h : t.child? name with
    | none =>
      rw [h] at child
      rw [under_of_child?_eq_none child, under_of_child?_eq_none h, below_fresh, below_fresh]
      exact ⟨rfl, rfl⟩
    | some c =>
      rw [h] at child
      rw [under_of_child? child, under_of_child? h]
      exact ih c

/-! ## Nodes and marks that go together -/

/-- Below the first level the parent of an included node is included, and a node below the root that
has no mark has a child. -/
structure Sound (t : RuleTree) : Prop where
  included_above : ∀ {p name}, p ≠ [] → (t.below (p ++ [name])).included → (t.below p).included
  has_child : ∀ {p}, p ≠ [] → t.HasNode p → ¬ (t.below p).included → ¬ (t.below p).excluded →
    ∃ name, t.HasNode (p ++ [name])

/-- A tree without children is sound, since it has no place that could lack a mark. -/
theorem sound_fresh (greedy : Bool) : (fresh greedy).Sound where
  included_above _ h := by
    rw [below_fresh] at h
    exact absurd h Bool.false_ne_true
  has_child := by
    intro p nonempty node
    obtain ⟨name, path, rfl⟩ := List.exists_cons_of_ne_nil nonempty
    exact absurd node (not_hasNode_fresh_cons greedy name path)

/-- Whether a tree is sound is settled by its children. -/
theorem Sound.of_child?_eq {s t : RuleTree} (h : ∀ name, s.child? name = t.child? name)
    (sound : t.Sound) : s.Sound where
  included_above nonempty included := by
    rw [(marks_below_of_child?_eq h (by simp)).1] at included
    rw [(marks_below_of_child?_eq h nonempty).1]
    exact sound.included_above nonempty included
  has_child nonempty node := by
    rw [(marks_below_of_child?_eq h nonempty).1, (marks_below_of_child?_eq h nonempty).2]
    intro unincluded unexcluded
    obtain ⟨name, next⟩ :=
      sound.has_child nonempty ((hasNode_of_child?_eq h).mp node) unincluded unexcluded
    exact ⟨name, (hasNode_of_child?_eq h).mpr next⟩

/-- A keeping rule includes the whole of its path, and a node that a dropping rule passes through has
the next one below it. -/
theorem Sound.apply {t : RuleTree} (sound : t.Sound) (r : Rule) : (t.apply r).Sound where
  included_above := by
    intro p name nonempty included
    rw [apply_eq_applyPath] at included ⊢
    rw [included_below_applyPath r.segments_ne_nil (by simp)] at included
    rw [included_below_applyPath r.segments_ne_nil nonempty]
    rcases included with before | ⟨keep, on⟩
    · exact .inl (sound.included_above nonempty before)
    · exact .inr ⟨keep, (List.prefix_append p [name]).trans on⟩
  has_child := by
    intro p nonempty node unincluded unexcluded
    rw [apply_eq_applyPath] at node unincluded unexcluded ⊢
    rw [included_below_applyPath r.segments_ne_nil nonempty, not_or] at unincluded
    rw [excluded_below_applyPath r.segments_ne_nil nonempty, not_or] at unexcluded
    rcases hasNode_applyPath.mp node with before | ⟨rest, on⟩
    · obtain ⟨name, next⟩ := sound.has_child nonempty before unincluded.1 unexcluded.1
      exact ⟨name, hasNode_applyPath.mpr (.inl next)⟩
    · cases rest with
      | nil =>
        -- the path ends here, and the last node is marked
        rw [List.append_nil] at on
        cases polarity : r.polarity with
        | keep => exact absurd ⟨polarity, on ▸ List.prefix_rfl⟩ unincluded.2
        | drop => exact absurd ⟨polarity, on.symm⟩ unexcluded.2
      | cons name rest =>
        refine ⟨name, hasNode_applyPath.mpr (.inr ⟨rest, ?_⟩)⟩
        rw [List.append_assoc, List.singleton_append, on]

/-- Each node of the merged tree comes from one of the two, with its marks. -/
theorem Sound.merge {t u : RuleTree} (ht : t.Sound) (hu : u.Sound) : (t.merge u).Sound where
  included_above := by
    intro p name nonempty included
    rw [(marks_below_merge t u _).1, Bool.or_eq_true] at included ⊢
    exact included.imp (ht.included_above nonempty) (hu.included_above nonempty)
  has_child := by
    intro p nonempty node
    rw [(marks_below_merge t u p).1, (marks_below_merge t u p).2, Bool.or_eq_true, Bool.or_eq_true,
      not_or, not_or]
    intro unincluded unexcluded
    rcases hasNode_merge.mp node with node | node
    · obtain ⟨name, next⟩ := ht.has_child nonempty node unincluded.1 unexcluded.1
      exact ⟨name, hasNode_merge.mpr (.inl next)⟩
    · obtain ⟨name, next⟩ := hu.has_child nonempty node unincluded.2 unexcluded.2
      exact ⟨name, hasNode_merge.mpr (.inr next)⟩

/-- Soundness is about marks, which stay. -/
theorem Sound.forceStrict {t : RuleTree} (sound : t.Sound) : t.forceStrict.Sound where
  included_above nonempty := by
    rw [(marks_below_forceStrict t _).1, (marks_below_forceStrict t _).1]
    exact sound.included_above nonempty
  has_child nonempty := by
    simp only [(marks_below_forceStrict t _).1, (marks_below_forceStrict t _).2, hasNode_forceStrict]
    exact sound.has_child nonempty

/-- What lies below a child lies below the tree. -/
theorem Sound.child {t c : RuleTree} {name : String} (sound : t.Sound)
    (h : t.child? name = some c) : c.Sound where
  included_above := by
    intro p next _
    have above : (t.below (name :: p ++ [next])).included → (t.below (name :: p)).included :=
      sound.included_above (List.cons_ne_nil name p)
    rwa [List.cons_append, below_cons, below_cons, under_of_child? h] at above
  has_child := by
    intro p _
    have child := sound.has_child (p := name :: p) (List.cons_ne_nil name p)
    simp only [List.cons_append, hasNode_cons_of_child? h, below_cons, under_of_child? h] at child
    exact child

/-! ## Histories -/

/-- The trees that are made from an empty one. -/
inductive Built : RuleTree → Prop where
  | keepAll : Built keepAll
  | strict : Built strict
  | apply {t : RuleTree} (r : Rule) : Built t → Built (t.apply r)
  | merge {t u : RuleTree} : Built t → Built u → Built (t.merge u)
  | mergeChildren {t u : RuleTree} : Built t → Built u → Built (t.mergeChildren u)
  | forceStrict {t : RuleTree} : Built t → Built t.forceStrict
  | child {t c : RuleTree} {name : String} : Built t → t.child? name = some c → Built c

/-- By induction on how the tree was built. -/
theorem Built.sound {t : RuleTree} (built : t.Built) : t.Sound := by
  induction built with
  | keepAll => exact sound_fresh true
  | strict => exact sound_fresh false
  | apply r _ ih => exact ih.apply r
  | merge _ _ iht ihu => exact iht.merge ihu
  | mergeChildren _ _ iht ihu => exact (iht.merge ihu).of_child?_eq (child?_mergeChildren _ _)
  | forceStrict _ ih => exact ih.forceStrict
  | child _ h ih => exact ih.child h

/-- One operation that changes a tree. -/
inductive Change : RuleTree → RuleTree → Prop where
  | apply (t : RuleTree) (r : Rule) : Change t (t.apply r)
  | merge (t u : RuleTree) : Change t (t.merge u)
  | mergeChildren (t u : RuleTree) : Change t (t.mergeChildren u)
  | forceStrict (t : RuleTree) : Change t t.forceStrict

/-- The second tree has all nodes of the first, with all their marks. -/
structure Keeps (t t' : RuleTree) : Prop where
  hasNode : ∀ {p}, t.HasNode p → t'.HasNode p
  included : ∀ {p}, (t.below p).included → (t'.below p).included
  excluded : ∀ {p}, (t.below p).excluded → (t'.below p).excluded

theorem Keeps.trans {t t' t'' : RuleTree} (h : t.Keeps t') (h' : t'.Keeps t'') : t.Keeps t'' :=
  ⟨fun node => h'.hasNode (h.hasNode node), fun mark => h'.included (h.included mark),
    fun mark => h'.excluded (h.excluded mark)⟩

/-- No rule takes a node or a mark away. -/
theorem keeps_apply (t : RuleTree) (r : Rule) : t.Keeps (t.apply r) := by
  rw [apply_eq_applyPath]
  have root := root_applyPath t r.polarity r.segments
  refine ⟨fun node => hasNode_applyPath.mpr (.inl node), fun {p} mark => ?_, fun {p} mark => ?_⟩
  · by_cases h : p = []
    · subst h
      exact root.1.trans mark
    · exact (included_below_applyPath r.segments_ne_nil h).mpr (.inl mark)
  · by_cases h : p = []
    · subst h
      exact root.2.1.trans mark
    · exact (excluded_below_applyPath r.segments_ne_nil h).mpr (.inl mark)

/-- Nor does merging. -/
theorem keeps_merge (t u : RuleTree) : t.Keeps (t.merge u) where
  hasNode node := hasNode_merge.mpr (.inl node)
  included mark := by rw [(marks_below_merge t u _).1, mark, Bool.true_or]
  excluded mark := by rw [(marks_below_merge t u _).2, mark, Bool.true_or]

/-- Below the root this is the union of the trees, and the root does not change. -/
theorem keeps_mergeChildren (t u : RuleTree) : t.Keeps (t.mergeChildren u) := by
  have merged := keeps_merge t u
  have same := child?_mergeChildren t u
  refine ⟨fun node => (hasNode_of_child?_eq same).mpr (merged.hasNode node), fun {p} mark => ?_,
    fun {p} mark => ?_⟩
  · by_cases h : p = []
    · subst h
      exact mark
    · exact (marks_below_of_child?_eq same h).1.trans (merged.included mark)
  · by_cases h : p = []
    · subst h
      exact mark
    · exact (marks_below_of_child?_eq same h).2.trans (merged.excluded mark)

theorem keeps_forceStrict (t : RuleTree) : t.Keeps t.forceStrict where
  hasNode node := hasNode_forceStrict.mpr node
  included mark := (marks_below_forceStrict t _).1.trans mark
  excluded mark := (marks_below_forceStrict t _).2.trans mark

/-- Nor any other change in place. -/
theorem Change.keeps {t t' : RuleTree} (change : t.Change t') : t.Keeps t' := by
  cases change with
  | apply r => exact keeps_apply t r
  | merge u => exact keeps_merge t u
  | mergeChildren u => exact keeps_mergeChildren t u
  | forceStrict => exact keeps_forceStrict t

/-- What one operation keeps any number of them keep. -/
theorem keeps_of_changes {t t' : RuleTree} (changes : Relation.ReflTransGen Change t t') :
    t.Keeps t' := by
  induction changes with
  | refl => exact ⟨id, id, id⟩
  | tail _ change ih => exact ih.trans change.keeps

/-- In a tree that keeps what a keeping rule has left, each step of the rule's path finds a node and is
included there. -/
theorem exists_isIncluded_of_keeps {t t' : RuleTree} {r : Rule} (keep : r.polarity = .keep)
    (kept : (t.apply r).Keeps t') {before after : List String} {name : String}
    (path : r.segments = before ++ name :: after) :
    ∃ c, t'.find? before = some c ∧ c.isIncluded name := by
  have on : before ++ [name] <+: r.segments :=
    ⟨after, by rw [path, List.append_assoc, List.singleton_append]⟩
  have node : t'.HasNode before := kept.hasNode <| hasNode_applyPath.mpr <| .inr <|
    (List.prefix_append before [name]).trans on
  have mark : (t'.below (before ++ [name])).included := kept.included <|
    (included_below_applyPath r.segments_ne_nil (by simp)).mpr (.inr ⟨keep, on⟩)
  refine ⟨t'.below before, find?_eq_some_iff.mpr ⟨node, rfl⟩, isIncluded_iff.mpr (.inl ?_)⟩
  rwa [below_append] at mark

/-- Over every history of a tree

1. an included node below the first level has an included parent,
2. a node below the root without marks has a child,
3. no operation that changes the tree removes a node or clears a mark,
4. and so, however the tree changes after a keeping rule, each step of the rule's path is included at
   the node that the steps before it lead to. -/
theorem invariant_of_built {t : RuleTree} (built : t.Built) :
    (∀ path name c d, path ≠ [] → t.find? path = some c → c.child? name = some d →
      d.included → c.included) ∧
    (∀ path c, path ≠ [] → t.find? path = some c → c.included = false → c.excluded = false →
      ∃ name d, c.child? name = some d) ∧
    (∀ t', Change t t' → ∀ path c, t.find? path = some c → ∃ c', t'.find? path = some c' ∧
      (c.included → c'.included) ∧ (c.excluded → c'.excluded)) ∧
    ∀ r : Rule, r.polarity = .keep → ∀ t', Relation.ReflTransGen Change (t.apply r) t' →
      ∀ before name after, r.segments = before ++ name :: after →
        ∃ c, t'.find? before = some c ∧ c.isIncluded name := by
  have sound := built.sound
  refine ⟨?_, ?_, ?_, ?_⟩
  · intro path name c d nonempty found child included
    obtain ⟨-, rfl⟩ := find?_eq_some_iff.mp found
    have above : (t.below (path ++ [name])).included → (t.below path).included :=
      sound.included_above nonempty
    rw [below_append, below_cons, below_nil, under_of_child? child] at above
    exact above included
  · intro path c nonempty found unincluded unexcluded
    obtain ⟨node, rfl⟩ := find?_eq_some_iff.mp found
    obtain ⟨name, next⟩ := sound.has_child nonempty node (Bool.eq_false_iff.mp unincluded)
      (Bool.eq_false_iff.mp unexcluded)
    exact ⟨name, hasNode_append_singleton.mp next⟩
  · intro t' change path c found
    obtain ⟨node, rfl⟩ := find?_eq_some_iff.mp found
    have kept := change.keeps
    exact ⟨t'.below path, find?_eq_some_iff.mpr ⟨kept.hasNode node, rfl⟩, kept.included,
      kept.excluded⟩
  · intro r keep t' changes before name after path
    exact exists_isIncluded_of_keeps keep (keeps_of_changes changes) path

/-- A copied child, whose root is marked, is merged into a tree in which a dropping rule has passed
through the same node, and a keeping rule of two steps comes later. -/
theorem invariant_of_built_of_copied_child :
    ∃ (t t' x y a : RuleTree) (r : Rule), t.Built ∧
      t.find? ["x"] = some x ∧ (∃ w, x.child? "w" = some w ∧ w.included) ∧ x.included ∧
      t.find? ["x", "y"] = some y ∧ y.included = false ∧ y.excluded = false ∧
      (∃ name d, y.child? name = some d) ∧
      r.polarity = .keep ∧ r.segments = ["a", "b"] ∧
      Relation.ReflTransGen Change (t.apply r) t' ∧ t'.find? ["a"] = some a ∧ a.isIncluded "b" := by
  let kept : Rule := ⟨.keep, ["c", "x", "w"], nofun, by decide⟩
  let dropped : Rule := ⟨.drop, ["x", "y", "z"], nofun, by decide⟩
  let r : Rule := ⟨.keep, ["a", "b"], nofun, by decide⟩
  let copied : RuleTree := (keepAll.apply kept).under "c"
  let t : RuleTree := (strict.apply dropped).merge copied
  have child : (keepAll.apply kept).child? "c" = some copied := rfl
  have built : t.Built := .merge (.apply dropped .strict) (.child (.apply kept .keepAll) child)
  have changes : Relation.ReflTransGen Change (t.apply r) (t.apply r).forceStrict :=
    .single (.forceStrict _)
  obtain ⟨parent, below, -, named⟩ := invariant_of_built built
  obtain ⟨a, found, included⟩ := named r rfl _ changes ["a"] "b" [] rfl
  have x : t.find? ["x"] = some (t.below ["x"]) := rfl
  have y : t.find? ["x", "y"] = some (t.below ["x", "y"]) := rfl
  have w : (t.below ["x"]).child? "w" = some (t.below ["x", "w"]) := rfl
  exact ⟨t, _, _, _, a, r, built, x, ⟨_, w, rfl⟩, parent ["x"] _ _ _ nofun x w rfl, y, rfl,
    rfl, below ["x", "y"] _ nofun y rfl rfl, rfl, rfl, changes, found, included⟩

end RuleTree

end EntityJson
