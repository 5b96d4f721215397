import EntityJson.Schema
import EntityJson.Proofs.Rule.Grammar
import EntityJson.Proofs.RuleTree.Listed
import EntityJson.Proofs.RuleTree.Outcome

/-!
# Rules that say what a tree says

A schema lists its rules by writing the marks of its tree (`Schema.rules_eq_map_text`). The names in a
tree come from rules, whatever its history (`RuleTree.Built.isSegment`), so each of these texts is read
again as the rule with this mark (`RuleTree.Built.exists_rules`).

Applied to a fresh tree, the rules leave the nodes and marks of the tree they are listed from
(`RuleTree.sameMarksInside_applyAll`). No mark is lost, because each is listed, and no node without
marks is lost, because a marked one stands below it. No mark is invented either: a keeping rule includes
every node on its way, but those are included in the tree already. The modes are another matter. They
are not listed, and come back only where they can be told from the mode of the fresh tree
(`RuleTree.rules_rebuild`).
-/

namespace EntityJson

namespace Rule

/-- The mark that a rule leaves at the end of its path. -/
def toMark (r : Rule) : RuleMark :=
  ⟨r.polarity, r.segments⟩

end Rule

namespace RuleMark

/-- Writes the rule that leaves the mark. -/
def text (m : RuleMark) : String :=
  match m.polarity with
  | .keep => Rule.pathText m.path
  | .drop => "-" ++ Rule.pathText m.path

theorem text_toMark (r : Rule) : r.toMark.text = r.text := by
  unfold text Rule.text
  cases h : r.polarity <;> simp [Rule.toMark, h]

/-- Marks whose paths consist of segments are left by rules. -/
theorem exists_map_toMark {marks : List RuleMark}
    (h : ∀ m ∈ marks, m.path ≠ [] ∧ ∀ s ∈ m.path, IsSegment s.toList) :
    ∃ rules : List Rule, rules.map Rule.toMark = marks := by
  induction marks with
  | nil => exact ⟨[], rfl⟩
  | cons m marks ih =>
    obtain ⟨⟨nonempty, segments⟩, others⟩ := List.forall_mem_cons.mp h
    obtain ⟨rules, rfl⟩ := ih others
    exact ⟨⟨m.polarity, m.path, nonempty, segments⟩ :: rules, rfl⟩

end RuleMark

/-! ## Texts of marks -/

namespace Schema

theorem rulesBelow_eq_map_text (path : List String) (cs : List (String × RuleNode)) :
    rulesBelow path cs
      = (RuleNode.listedAll cs).map fun m => RuleMark.text ⟨m.polarity, path.reverse ++ m.path⟩ := by
  fun_induction rulesBelow path cs with
  | case1 path => rfl
  | case2 path name included excluded greedy below rest text nested further =>
    rw [nested, further, RuleNode.listedAll, List.map_append, List.map_append, List.map_map]
    have here : (if included then [text] else []) ++ (if excluded then ["-" ++ text] else [])
        = (RuleNode.marksAt [name] (.mk included excluded greedy below)).map
          fun m => RuleMark.text ⟨m.polarity, path.reverse ++ m.path⟩ := by
      have written : text = Rule.pathText (path.reverse ++ [name]) := by
        rw [← List.reverse_cons]
      rw [written]
      cases included <;> cases excluded <;> rfl
    have below_name : (RuleNode.listedAll below).map
          (fun m => RuleMark.text ⟨m.polarity, (name :: path).reverse ++ m.path⟩)
        = (RuleNode.listed (.mk included excluded greedy below)).map
          ((fun m => RuleMark.text ⟨m.polarity, path.reverse ++ m.path⟩) ∘ RuleMark.under name) := by
      refine List.map_congr_left fun m _ => ?_
      rw [List.reverse_cons, List.append_assoc]
      rfl
    rw [here, below_name]

/-- The rules of a schema are the marks of its tree. -/
theorem rules_eq_map_text (s : Schema) : s.rules = s.tree.listed.map RuleMark.text := by
  rw [rules, rulesBelow_eq_map_text, RuleTree.listed, RuleNode.listed_eq_listedAll]
  rfl

end Schema

namespace RuleTree

/-! ## Names -/

/-- The names of all nodes are segments. -/
theorem Built.isSegment {t : RuleTree} (built : t.Built) :
    ∀ path, t.HasNode path → ∀ s ∈ path, IsSegment s.toList := by
  induction built with
  | keepAll | strict =>
    intro path node
    cases path with
    | nil => exact nofun
    | cons name path => exact absurd node (not_hasNode_fresh_cons _ name path)
  | apply r _ ih =>
    intro path node s mem
    rw [apply_eq_applyPath] at node
    rcases hasNode_applyPath.mp node with before | on
    · exact ih path before s mem
    · exact r.isSegment s (on.subset mem)
  | merge _ _ iht ihu =>
    intro path node
    exact (hasNode_merge.mp node).elim (iht path) (ihu path)
  | mergeChildren _ _ iht ihu =>
    intro path node
    have merged := (hasNode_of_child?_eq (child?_mergeChildren _ _)).mp node
    exact (hasNode_merge.mp merged).elim (iht path) (ihu path)
  | forceStrict _ ih =>
    intro path node
    exact ih path (hasNode_forceStrict.mp node)
  | @child t c name _ child ih =>
    intro path node s mem
    exact ih (name :: path) ((hasNode_cons_of_child? child).mpr node) s (List.mem_cons_of_mem _ mem)

/-- The marks of a tree are left by rules. -/
theorem Built.exists_rules {t : RuleTree} (built : t.Built) :
    ∃ rules : List Rule, rules.map Rule.toMark = t.listed := by
  refine RuleMark.exists_map_toMark fun m mem => ?_
  obtain ⟨nonempty, c, found, -⟩ := mem_listed.mp mem
  exact ⟨nonempty, built.isSegment m.path (find?_eq_some_iff.mp found).1⟩

/-! ## Rebuilding -/

section Rebuilt

variable {t : RuleTree} {rules : List Rule} {path : List String}

/-- A rule of the list leaves a mark of the tree. -/
theorem find?_segments_of_mem (same : rules.map Rule.toMark = t.listed) {r : Rule} (mem : r ∈ rules) :
    ∃ c, t.find? r.segments = some c ∧ c.marked r.polarity := by
  have listed : r.toMark ∈ t.listed := same ▸ List.mem_map_of_mem mem
  exact (mem_listed.mp listed).2

/-- A mark of the tree is left by a rule of the list. -/
theorem exists_mem_of_find? (same : rules.map Rule.toMark = t.listed) (h : path ≠ []) {c : RuleTree}
    (found : t.find? path = some c) {polarity : Polarity} (marked : c.marked polarity) :
    ∃ r ∈ rules, r.polarity = polarity ∧ r.segments = path := by
  have listed : ⟨polarity, path⟩ ∈ t.listed := mem_listed.mpr ⟨h, c, found, marked⟩
  rw [← same] at listed
  obtain ⟨r, mem, equal⟩ := List.mem_map.mp listed
  exact ⟨r, mem, congrArg RuleMark.polarity equal, congrArg RuleMark.path equal⟩

theorem mentioned_iff_hasNode (sound : t.Sound) (same : rules.map Rule.toMark = t.listed)
    (h : path ≠ []) : Rule.Mentioned rules path ↔ t.HasNode path := by
  constructor
  · rintro ⟨r, mem, rest, segments⟩
    obtain ⟨c, found, -⟩ := find?_segments_of_mem same mem
    rw [← segments] at found
    exact hasNode_of_append (find?_eq_some_iff.mp found).1
  · intro node
    obtain ⟨q, d, polarity, longer, found, marked⟩ := sound.exists_marked h (find?_of_hasNode node)
    have further : q ≠ [] := fun empty => h (List.prefix_nil.mp (empty ▸ longer))
    obtain ⟨r, mem, -, rfl⟩ := exists_mem_of_find? same further found marked
    exact ⟨r, mem, longer⟩

theorem named_iff_included (sound : t.Sound) (same : rules.map Rule.toMark = t.listed)
    (h : path ≠ []) (node : t.HasNode path) :
    Rule.Named rules path ↔ (t.below path).included := by
  constructor
  · rintro ⟨r, mem, keep, rest, segments⟩
    obtain ⟨c, found, marked⟩ := find?_segments_of_mem same mem
    rw [keep] at marked
    obtain ⟨-, rfl⟩ := find?_eq_some_iff.mp found
    rw [← segments] at marked
    exact sound.included_of_append h marked
  · intro included
    have marked : (t.below path).marked .keep := included
    obtain ⟨r, mem, keep, rfl⟩ := exists_mem_of_find? same h (find?_of_hasNode node) marked
    exact ⟨r, mem, keep, List.prefix_rfl⟩

theorem dropped_iff_excluded (same : rules.map Rule.toMark = t.listed) (h : path ≠ [])
    (node : t.HasNode path) : Rule.Dropped rules path ↔ (t.below path).excluded := by
  constructor
  · rintro ⟨r, mem, drop, rfl⟩
    obtain ⟨c, found, marked⟩ := find?_segments_of_mem same mem
    rw [drop] at marked
    obtain ⟨-, rfl⟩ := find?_eq_some_iff.mp found
    exact marked
  · intro excluded
    have marked : (t.below path).marked .drop := excluded
    obtain ⟨r, mem, drop, rfl⟩ := exists_mem_of_find? same h (find?_of_hasNode node) marked
    exact ⟨r, mem, drop, rfl⟩

/-- The rules that leave the marks of a sound tree leave its nodes and marks in a fresh one. -/
theorem sameMarksInside_applyAll (sound : t.Sound) (same : rules.map Rule.toMark = t.listed)
    (greedy : Bool) : ((fresh greedy).applyAll rules).SameMarksInside t := by
  intro path h
  obtain ⟨nodes, included, excluded⟩ := marks_below_applyAll_fresh greedy rules h
  rw [mentioned_iff_hasNode sound same h] at nodes
  by_cases node : t.HasNode path
  · rw [named_iff_included sound same h node] at included
    rw [dropped_iff_excluded same h node] at excluded
    exact map_marks_find?_eq nodes (Bool.eq_iff_iff.mpr included) (Bool.eq_iff_iff.mpr excluded)
  · rw [find?_of_not_hasNode (mt nodes.mp node), find?_of_not_hasNode node]

/-- Trees with the same marks below their roots, all of whose nodes are greedy, have the same
children. -/
theorem SameMarksInside.child?_eq {u : RuleTree} (same : t.SameMarksInside u)
    (ht : ∀ path c, t.find? path = some c → c.greedy)
    (hu : ∀ path c, u.find? path = some c → c.greedy) (name : String) :
    t.child? name = u.child? name := by
  have nested : ∀ {s c : RuleTree}, s.child? name = some c → ∀ path,
      s.find? (name :: path) = c.find? path := by
    intro s c child path
    rw [find?, child, Option.bind_some]
  cases childt : t.child? name with
  | none => exact ((same.child?_eq_none_iff name).mp childt).symm
  | some c =>
    cases childu : u.child? name with
    | none =>
      rw [(same.child?_eq_none_iff name).mpr childu] at childt
      cases childt
    | some d =>
      refine congrArg some (eq_of_sameMarks (same.child childt childu) fun path x y hx hy => ?_)
      rw [← nested childt] at hx
      rw [← nested childu] at hy
      exact (ht _ x hx).trans (hu _ y hy).symm

end Rebuilt

/-- The rules of a schema, over whatever history its tree has, are read again, each text as the rule
that is written like it. They come in the order of their paths, a keeping rule before a dropping one of
the same path. In a fresh tree of either mode they leave the nodes of the tree below the root with the
same marks, and then the rules of that tree are the same again. Where all nodes of the tree are greedy,
they leave its children in the tree that keeps everything. -/
theorem rules_rebuild {t : RuleTree} (built : t.Built) :
    ∃ rules, Rule.parseAll (Schema.mk t).rules = .ok rules ∧
      rules.map Rule.text = (Schema.mk t).rules ∧
      rules.Pairwise (fun r s => r.segments < s.segments ∨
        r.segments = s.segments ∧ r.polarity = .keep ∧ s.polarity = .drop) ∧
      (∀ greedy, ((fresh greedy).applyAll rules).SameMarksInside t ∧
        (Schema.mk ((fresh greedy).applyAll rules)).rules = (Schema.mk t).rules) ∧
      ((∀ path c, t.find? path = some c → c.greedy) →
        ∀ name, (keepAll.applyAll rules).child? name = t.child? name) := by
  obtain ⟨rules, same⟩ := built.exists_rules
  have texts : rules.map Rule.text = (Schema.mk t).rules := by
    have written : RuleMark.text ∘ Rule.toMark = Rule.text := funext RuleMark.text_toMark
    rw [Schema.rules_eq_map_text, ← same, List.map_map, written]
  have rebuilt := sameMarksInside_applyAll built.sound same
  refine ⟨rules, ?_, texts, ?_, fun greedy => ⟨rebuilt greedy, ?_⟩, fun greedy => ?_⟩
  · rw [← texts, Rule.parseAll_map_text]
  · have ordered := t.pairwise_listed
    rw [← same] at ordered
    exact List.pairwise_map.mp ordered
  · rw [Schema.rules_eq_map_text, Schema.rules_eq_map_text]
    exact congrArg (List.map RuleMark.text) (rebuilt greedy).listed_eq
  · refine (rebuilt true).child?_eq (fun path c found => ?_) greedy
    obtain ⟨-, rfl⟩ := find?_eq_some_iff.mp found
    exact (greedy_below_applyAll_fresh true rules path).mpr (.inl rfl)

/-- A copied child, whose root is marked, is merged into a tree in which a dropping rule has passed
through a node without a mark. -/
theorem rules_rebuild_of_copied_child :
    ∃ (t : RuleTree) (rules : List Rule), t.Built ∧ t.included ∧
      (∀ path c, t.find? path = some c → c.greedy) ∧
      (Schema.mk t).rules = ["x", "x.w", "-x.y.z"] ∧
      Rule.parseAll ["x", "x.w", "-x.y.z"] = .ok rules ∧
      (strict.applyAll rules).SameMarksInside t ∧
      (Schema.mk (strict.applyAll rules)).rules = ["x", "x.w", "-x.y.z"] ∧
      (∀ name, (keepAll.applyAll rules).child? name = t.child? name) ∧
      keepAll.applyAll rules ≠ t := by
  let kept : Rule := ⟨.keep, ["c", "x", "w"], nofun, by decide⟩
  let dropped : Rule := ⟨.drop, ["x", "y", "z"], nofun, by decide⟩
  let copied : RuleTree := (keepAll.apply kept).under "c"
  let t : RuleTree := (keepAll.apply dropped).merge copied
  have child : (keepAll.apply kept).child? "c" = some copied := rfl
  have built : t.Built := .merge (.apply dropped .keepAll) (.child (.apply kept .keepAll) child)
  have greedy_apply : ∀ (r : Rule) path, ((keepAll.apply r).below path).greedy := fun r path =>
    (greedy_below_applyAll_fresh true [r] path).mpr (.inl rfl)
  have greedy : ∀ path c, t.find? path = some c → c.greedy := by
    intro path c found
    obtain ⟨-, rfl⟩ := find?_eq_some_iff.mp found
    have below_copied : ∀ p, (copied.below p).greedy := fun p => greedy_apply kept ("c" :: p)
    exact (greedy_below_merge below_copied path).mpr (.inl (greedy_apply dropped path))
  have texts : (Schema.mk t).rules = ["x", "x.w", "-x.y.z"] := by
    rw [Schema.rules_eq_map_text]
    decide
  obtain ⟨rules, read, -, -, rebuilt, children⟩ := rules_rebuild built
  obtain ⟨marks, again⟩ := rebuilt false
  rw [texts] at read again
  refine ⟨t, rules, built, rfl, greedy, texts, read, marks, again, children greedy, fun same => ?_⟩
  have root : (keepAll.applyAll rules).included = false := (root_applyAll keepAll rules).1
  rw [same] at root
  cases root

end RuleTree

end EntityJson
