import EntityJson.Proofs.RuleTree.Extensional
import Mathlib.Data.List.Sort

/-!
# The marks of a tree as a list

A **mark** is the path of a node below the root together with the kind of rule that leaves it. The
marks of a tree are listed by walking through it, each node before the nodes below it and the children
in the order of their names (`RuleTree.listed`). The list has exactly the marks that the tree has
(`RuleTree.mem_listed`), in the order of their paths, a keeping one before the dropping one at the same
node (`RuleTree.pairwise_listed`). So trees with the same nodes and marks below their roots have the
same list (`RuleTree.SameMarksInside.listed_eq`).

The list says nothing of the modes, and nothing of a node without marks. In a sound tree it tells these
nodes all the same: at or below each node there is one that has a mark
(`RuleTree.Sound.exists_marked`), and what lies above an included node is included
(`RuleTree.Sound.included_of_append`).
-/

namespace EntityJson

/-- The path of a node below the root, and the kind of rule that leaves a mark there. -/
structure RuleMark where
  polarity : Polarity
  path : List String
  deriving DecidableEq

namespace RuleMark

/-- The order of the paths, in which a keeping mark comes before the dropping one of the same path. -/
def Before (m n : RuleMark) : Prop :=
  m.path < n.path ∨ m.path = n.path ∧ m.polarity = .keep ∧ n.polarity = .drop

theorem Before.asymm {m n : RuleMark} (h : m.Before n) : ¬ n.Before m := by
  rintro (less | ⟨same, keep, -⟩)
  · rcases h with before | ⟨same, -⟩
    · exact List.lt_asymm before less
    · exact List.lt_irrefl _ (same ▸ less)
  · rcases h with before | ⟨-, -, drop⟩
    · exact List.lt_irrefl _ (same ▸ before)
    · rw [keep] at drop
      cases drop

instance : Std.Irrefl Before where
  irrefl _ h := h.asymm h

instance : Std.Antisymm Before where
  antisymm _ _ h h' := absurd h' h.asymm

/-- The same mark below a name. -/
def under (name : String) (m : RuleMark) : RuleMark :=
  ⟨m.polarity, name :: m.path⟩

/-- Below the same name marks come in the same order. -/
theorem Before.under {m n : RuleMark} (h : m.Before n) (name : String) :
    (m.under name).Before (n.under name) := by
  rcases h with before | ⟨same, kinds⟩
  · exact .inl (List.cons_lt_cons_iff.mpr (.inr ⟨rfl, before⟩))
  · exact .inr ⟨congrArg (name :: ·) same, kinds⟩

end RuleMark

namespace RuleNode

open RuleMark

/-- Whether a node has the mark that a rule of a kind leaves. -/
def marked (polarity : Polarity) (t : RuleNode) : Bool :=
  match polarity with
  | .keep => t.included
  | .drop => t.excluded

/-- The marks of one node, at the end of a path. -/
def marksAt (path : List String) (t : RuleNode) : List RuleMark :=
  (if t.included then [⟨.keep, path⟩] else []) ++ (if t.excluded then [⟨.drop, path⟩] else [])

/-- The marks at a node are those that it bears. -/
theorem mem_marksAt {path : List String} {t : RuleNode} {m : RuleMark} :
    m ∈ marksAt path t ↔ m.path = path ∧ t.marked m.polarity := by
  obtain ⟨polarity, p⟩ := m
  unfold marksAt marked
  cases polarity <;> cases t.included <;> cases t.excluded <;> simp

/-- At one place the mark that keeps comes first. -/
theorem pairwise_marksAt (path : List String) (t : RuleNode) :
    (marksAt path t).Pairwise Before := by
  unfold marksAt
  cases t.included <;> cases t.excluded <;> simp [Before]

mutual

/-- The marks of the nodes below a node. -/
def listed : RuleNode → List RuleMark
  | mk _ _ _ cs => listedAll cs

def listedAll : List (String × RuleNode) → List RuleMark
  | [] => []
  | (name, t) :: rest => marksAt [name] t ++ (listed t).map (under name) ++ listedAll rest

end

theorem listed_eq_listedAll (t : RuleNode) : t.listed = listedAll t.children := by
  cases t
  rfl

/-- A mark stands at a child or below one. -/
theorem exists_of_mem_listedAll {cs : List (String × RuleNode)} {m : RuleMark}
    (h : m ∈ listedAll cs) : ∃ c ∈ cs, ∃ path, m.path = c.1 :: path := by
  induction cs with
  | nil => cases h
  | cons c rest ih =>
    obtain ⟨name, t⟩ := c
    rw [listedAll, List.mem_append, List.mem_append] at h
    rcases h with (here | nested) | further
    · exact ⟨_, List.mem_cons_self, [], (mem_marksAt.mp here).1⟩
    · obtain ⟨n, -, rfl⟩ := List.mem_map.mp nested
      exact ⟨_, List.mem_cons_self, n.path, rfl⟩
    · obtain ⟨c, mem, first⟩ := ih further
      exact ⟨c, List.mem_cons_of_mem _ mem, first⟩

theorem path_ne_nil_of_mem_listed {t : RuleNode} {m : RuleMark} (h : m ∈ t.listed) :
    m.path ≠ [] := by
  rw [listed_eq_listedAll] at h
  obtain ⟨c, -, path, first⟩ := exists_of_mem_listedAll h
  rw [first]
  exact List.cons_ne_nil c.1 path

/-- The marks at a name and below it are those of the child of that name. -/
theorem mem_listedAll_cons {cs : List (String × RuleNode)} (increasing : Increasing cs)
    {polarity : Polarity} {name : String} {path : List String} :
    ⟨polarity, name :: path⟩ ∈ listedAll cs ↔ ∃ c, lookup name cs = some c ∧
      (path = [] ∧ c.marked polarity ∨ ⟨polarity, path⟩ ∈ c.listed) := by
  induction cs with
  | nil => exact iff_of_false List.not_mem_nil nofun
  | cons c rest ih =>
    obtain ⟨other, t⟩ := c
    obtain ⟨least, increasing⟩ := List.pairwise_cons.mp increasing
    rw [listedAll, List.mem_append, List.mem_append, ih increasing, lookup_cons, mem_marksAt,
      List.mem_map]
    by_cases same : other = name
    · subst same
      have nested : (∃ m ∈ t.listed, m.under other = ⟨polarity, other :: path⟩)
          ↔ ⟨polarity, path⟩ ∈ t.listed := by
        constructor
        · rintro ⟨m, mem, equal⟩
          cases equal
          exact mem
        · exact fun mem => ⟨_, mem, rfl⟩
      rw [if_pos rfl, lookup_eq_none_of_lt least, nested]
      simp
    · rw [if_neg same]
      refine or_iff_right ?_
      rintro (⟨equal, -⟩ | ⟨m, -, equal⟩)
      · exact same (List.cons.inj equal).1.symm
      · exact same (List.cons.inj (congrArg RuleMark.path equal)).1

mutual

/-- The marks come in the order of their paths. -/
theorem pairwise_listed : {t : RuleNode} → t.Ordered → t.listed.Pairwise Before
  | .mk _ _ _ _, ordered => pairwise_listedAll ordered.1 ordered.2

/-- The marks of a child come before those of the children behind it. -/
theorem pairwise_listedAll : {cs : List (String × RuleNode)} → Increasing cs → OrderedAll cs →
    (listedAll cs).Pairwise Before
  | [], _, _ => List.Pairwise.nil
  | (name, t) :: rest, increasing, ordered => by
    obtain ⟨least, increasing⟩ := List.pairwise_cons.mp increasing
    have nested := pairwise_listed ordered.1
    have further := pairwise_listedAll increasing ordered.2
    rw [listedAll, List.pairwise_append, List.pairwise_append]
    refine ⟨⟨pairwise_marksAt [name] t, ?_, ?_⟩, further, ?_⟩
    · exact List.pairwise_map.mpr (nested.imp fun before => before.under name)
    · -- the node itself comes before what is below it
      intro m here n mem
      obtain ⟨n, inside, rfl⟩ := List.mem_map.mp mem
      obtain ⟨next, path, longer⟩ :=
        List.exists_cons_of_ne_nil (path_ne_nil_of_mem_listed inside)
      left
      show m.path < name :: n.path
      rw [(mem_marksAt.mp here).1, longer]
      exact List.cons_lt_cons_iff.mpr (.inr ⟨rfl, List.nil_lt_cons next path⟩)
    · -- and both come before the children of later names
      intro m mem n later
      have start : ∃ path, m.path = name :: path := by
        rcases List.mem_append.mp mem with here | below
        · exact ⟨[], (mem_marksAt.mp here).1⟩
        · obtain ⟨m, -, rfl⟩ := List.mem_map.mp below
          exact ⟨m.path, rfl⟩
      obtain ⟨path, start⟩ := start
      obtain ⟨c, among, path', start'⟩ := exists_of_mem_listedAll later
      left
      rw [start, start']
      exact List.cons_lt_cons_iff.mpr (.inl (least c among))

end

end RuleNode

namespace RuleTree

open RuleMark

/-- The marks of the nodes below the root. -/
def listed (t : RuleTree) : List RuleMark :=
  t.node.listed

/-- Whether the root has the mark that a rule of a kind leaves. -/
def marked (polarity : Polarity) (t : RuleTree) : Bool :=
  t.node.marked polarity

theorem pairwise_listed (t : RuleTree) : t.listed.Pairwise Before :=
  RuleNode.pairwise_listed t.ordered

/-- A mark is listed if the node at its path has it. -/
theorem mem_listed {t : RuleTree} {m : RuleMark} :
    m ∈ t.listed ↔ m.path ≠ [] ∧ ∃ c, t.find? m.path = some c ∧ c.marked m.polarity := by
  obtain ⟨polarity, path⟩ := m
  induction path generalizing t with
  | nil =>
    exact iff_of_false (fun mem => RuleNode.path_ne_nil_of_mem_listed mem rfl) fun both => both.1 rfl
  | cons name path ih =>
    rw [listed, RuleNode.listed_eq_listedAll, RuleNode.mem_listedAll_cons t.ordered.children.1,
      ← map_node_child?, and_iff_right (List.cons_ne_nil name path), find?]
    cases t.child? name with
    | none =>
      simp only [Option.map_none, Option.bind_none, reduceCtorEq, false_and, exists_false]
    | some c =>
      have nested : ⟨polarity, path⟩ ∈ c.node.listed
          ↔ path ≠ [] ∧ ∃ d, c.find? path = some d ∧ d.marked polarity := ih
      simp only [Option.map_some, Option.some.injEq, exists_eq_left', Option.bind_some, nested]
      by_cases root : path = []
      · subst root
        simp [find?, marked]
      · simp [root]

/-- Trees with the same nodes and marks below their roots have the same list. -/
theorem SameMarksInside.listed_eq {t u : RuleTree} (same : t.SameMarksInside u) :
    t.listed = u.listed := by
  have here : ∀ {c d : RuleTree}, c.marks = d.marks → ∀ polarity,
      c.marked polarity = d.marked polarity := by
    intro c d equal polarity
    cases polarity with
    | keep => exact congrArg Prod.fst equal
    | drop => exact congrArg Prod.snd equal
  have within : ∀ {t u : RuleTree}, t.SameMarksInside u → ∀ m ∈ t.listed, m ∈ u.listed := by
    intro t u same m mem
    obtain ⟨nonempty, c, found, marked⟩ := mem_listed.mp mem
    have equal := same m.path nonempty
    rw [found, Option.map_some] at equal
    obtain ⟨d, found', marks⟩ := Option.map_eq_some_iff.mp equal.symm
    exact mem_listed.mpr ⟨nonempty, d, found', (here marks m.polarity).trans marked⟩
  exact (pairwise_listed t).eq_of_mem_iff (pairwise_listed u) fun m =>
    ⟨within same m, within (fun path nonempty => (same path nonempty).symm) m⟩

/-! ## Sound trees -/

/-- All places on the way to a node have one. -/
theorem hasNode_of_append {t : RuleTree} {p q : List String} (node : t.HasNode (p ++ q)) :
    t.HasNode p := by
  induction p generalizing t with
  | nil => exact hasNode_nil t
  | cons name p ih =>
    obtain ⟨c, child, further⟩ := hasNode_cons.mp node
    exact hasNode_cons.mpr ⟨c, child, ih further⟩

/-- What lies above an included node is included, the root apart. -/
theorem Sound.included_of_append {t : RuleTree} (sound : t.Sound) {p q : List String}
    (h : p ≠ []) (included : (t.below (p ++ q)).included) : (t.below p).included := by
  induction q generalizing p with
  | nil => rwa [List.append_nil] at included
  | cons name q ih =>
    rw [List.append_cons] at included
    exact sound.included_above h (ih (by simp) included)

/-- At or below each node below the root there is one that has a mark. -/
theorem Sound.exists_marked {t : RuleTree} (sound : t.Sound) {p : List String} {c : RuleTree}
    (h : p ≠ []) (found : t.find? p = some c) :
    ∃ q d polarity, p <+: q ∧ t.find? q = some d ∧ d.marked polarity := by
  induction c using children_induction generalizing p with
  | step c ih =>
    obtain ⟨node, rfl⟩ := find?_eq_some_iff.mp found
    by_cases included : (t.below p).included
    · exact ⟨p, _, .keep, List.prefix_rfl, found, included⟩
    by_cases excluded : (t.below p).excluded
    · exact ⟨p, _, .drop, List.prefix_rfl, found, excluded⟩
    obtain ⟨name, next⟩ := sound.has_child h node included excluded
    obtain ⟨d, child⟩ := hasNode_append_singleton.mp next
    have step : t.below (p ++ [name]) = d := by
      rw [below_append, below_cons, under_of_child? child, below_nil]
    obtain ⟨q, e, polarity, longer, found', marked⟩ :=
      ih name d child (p := p ++ [name]) (by simp) (find?_eq_some_iff.mpr ⟨next, step⟩)
    exact ⟨q, e, polarity, (List.prefix_append p [name]).trans longer, found', marked⟩

end RuleTree

end EntityJson
