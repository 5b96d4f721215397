import EntityJson.Proofs.RuleTree.Descent

/-!
# What rules leave in a tree

After a list of rules a tree has a node at each path that a rule passes through or ends at. A node is
included if a keeping rule passes through it or ends at it, and excluded if a dropping rule ends at it.
It is greedy if a keeping rule ends at it, or if one ends above it and came before the tree had a node
on the way down from there (`RuleTree.Selected`). A later selection does not reach the nodes that are
already there, so of these properties the mode alone depends on the order of the rules.

For each property there is one statement about a single rule and one about any list of rules. Nodes and
marks only ever add up, so their lists share one induction (`RuleTree.applyAll_iff`); for the mode the
induction keeps the rules that came before. Last come rules in a fresh tree, where the rules before a
selection decide which nodes it finds (`Rule.Selected`).
-/

namespace EntityJson

/-- Of two paths the second goes on from the first or the first from the second, or they part after a
common beginning. -/
theorem continues_or_parts (p q : List String) :
    (∃ r, q = p ++ r) ∨ (∃ a r, p = q ++ a :: r) ∨
      ∃ (c : List String) (a b : String) (r s : List String),
        a ≠ b ∧ p = c ++ a :: r ∧ q = c ++ b :: s := by
  induction p generalizing q with
  | nil => exact .inl ⟨q, rfl⟩
  | cons a p ih =>
    cases q with
    | nil => exact .inr (.inl ⟨a, p, rfl⟩)
    | cons b q =>
      by_cases h : a = b
      · subst h
        rcases ih q with ⟨r, rfl⟩ | ⟨b, r, rfl⟩ | ⟨c, a', b', r, s, ne, rfl, rfl⟩
        · exact .inl ⟨r, rfl⟩
        · exact .inr (.inl ⟨b, r, rfl⟩)
        · exact .inr (.inr ⟨a :: c, a', b', r, s, ne, rfl, rfl⟩)
      · exact .inr (.inr ⟨[], a, b, p, q, h, rfl, rfl⟩)

/-- Of two paths that part neither starts the other. -/
theorem not_prefix_of_parting {a b : String} (h : a ≠ b) (c r s : List String) :
    ¬ c ++ a :: r <+: c ++ b :: s := by
  rw [List.prefix_append_right_inj, List.cons_prefix_cons]
  exact fun both => h both.1

theorem not_prefix_of_longer (p : List String) (a : String) (r : List String) :
    ¬ p ++ a :: r <+: p := by
  intro h
  have shorter := h.length_le
  rw [List.length_append, List.length_cons] at shorter
  omega

namespace Rule

/-- A rule of the list passes through the path or ends at it. -/
def Mentioned (rules : List Rule) (path : List String) : Prop :=
  ∃ r ∈ rules, path <+: r.segments

/-- A keeping rule of the list passes through the path or ends at it. -/
def Named (rules : List Rule) (path : List String) : Prop :=
  ∃ r ∈ rules, r.polarity = .keep ∧ path <+: r.segments

/-- A dropping rule of the list ends at the path. -/
def Dropped (rules : List Rule) (path : List String) : Prop :=
  ∃ r ∈ rules, r.polarity = .drop ∧ r.segments = path

/-- No dropping rule of the list ends beyond the first path on the way to the second. -/
def Undropped (rules : List Rule) (first second : List String) : Prop :=
  ∀ r ∈ rules, r.polarity = .drop → first <+: r.segments → r.segments ≠ first →
    ¬ r.segments <+: second

/-- A keeping rule of the list ends at the path, or ends above it and no rule before it takes the next
step down to the path. -/
def Selected (rules : List Rule) (path : List String) : Prop :=
  ∃ before r after, rules = before ++ r :: after ∧ r.polarity = .keep ∧ r.segments <+: path ∧
    ∀ name, r.segments ++ [name] <+: path → ¬ Mentioned before (r.segments ++ [name])

end Rule

namespace RuleTree

/-! ## One rule -/

/-- Marks make no nodes. -/
@[simp] theorem hasNode_mark {t : RuleTree} {polarity : Polarity} {last : Bool}
    {path : List String} : (t.mark polarity last).HasNode path ↔ t.HasNode path := by
  cases path with
  | nil => exact Iff.rfl
  | cons name path => rw [hasNode_cons, hasNode_cons, child?_mark]

/-- What is nested in a tree is a child, or nothing but the root itself. -/
theorem hasNode_under {t : RuleTree} {name : String} {path : List String} :
    (t.under name).HasNode path ↔ t.HasNode (name :: path) ∨ path = [] := by
  rw [hasNode_cons]
  cases h : t.child? name with
  | none =>
    rw [under_of_child?_eq_none h]
    cases path with
    | nil => exact iff_of_true (hasNode_nil _) (.inr rfl)
    | cons next path =>
      refine iff_of_false (not_hasNode_fresh_cons _ next path) ?_
      rintro (⟨c, hc, -⟩ | h)
      · cases hc
      · cases h
  | some c =>
    rw [under_of_child? h]
    constructor
    · exact fun node => .inl ⟨c, rfl, node⟩
    · rintro (⟨d, hd, node⟩ | rfl)
      · exact Option.some.inj hd ▸ node
      · exact hasNode_nil c

/-- A rule adds the nodes of its path. -/
theorem hasNode_applyPath {t : RuleTree} {polarity : Polarity} {path p : List String} :
    (t.applyPath polarity path).HasNode p ↔ t.HasNode p ∨ p <+: path := by
  induction p generalizing t path with
  | nil => exact iff_of_true (hasNode_nil _) (.inl (hasNode_nil t))
  | cons other p ih =>
    cases path with
    | nil => rw [applyPath_nil, List.prefix_nil, or_iff_left (List.cons_ne_nil other p)]
    | cons name path =>
      rw [List.cons_prefix_cons]
      by_cases h : other = name
      · subst h
        have nested : ((t.applyPath polarity (other :: path)).under other).HasNode p
            ↔ (t.HasNode (other :: p) ∨ p = []) ∨ p <+: path := by
          rw [under_applyPath_self, ih, hasNode_mark, hasNode_under]
        rw [hasNode_under] at nested
        have node : (t.applyPath polarity (other :: path)).HasNode [other] := by
          rw [hasNode_cons, child?_applyPath_cons, if_pos rfl]
          exact ⟨_, rfl, hasNode_nil _⟩
        cases p with
        | nil => exact iff_of_true node (.inr ⟨rfl, List.nil_prefix⟩)
        | cons next p =>
          simp only [reduceCtorEq, or_false] at nested
          rw [nested, and_iff_right rfl]
      · rw [hasNode_cons, child?_applyPath_of_ne t polarity path h, ← hasNode_cons]
        exact (or_iff_left fun both => h both.1).symm

/-- Below the root the marks are those of the children, and where there is no child there are none. -/
theorem marks_below_of_child?_eq {s t : RuleTree} (h : ∀ name, s.child? name = t.child? name)
    {p : List String} (nonempty : p ≠ []) :
    (s.below p).included = (t.below p).included ∧ (s.below p).excluded = (t.below p).excluded := by
  obtain ⟨name, path, rfl⟩ := List.exists_cons_of_ne_nil nonempty
  rw [below_cons, below_cons]
  cases child : t.child? name with
  | none =>
    rw [under_of_child?_eq_none child, under_of_child?_eq_none (by rw [h, child]), below_fresh,
      below_fresh]
    exact ⟨rfl, rfl⟩
  | some c =>
    rw [under_of_child? child, under_of_child? (by rw [h, child])]
    exact ⟨rfl, rfl⟩

/-- A rule leaves the marks as they are that are not on its path. -/
theorem marks_below_applyPath_off {t : RuleTree} {polarity : Polarity} {path p : List String}
    (nonempty : path ≠ []) (off : ¬ p <+: path) :
    ((t.applyPath polarity path).below p).included = (t.below p).included ∧
      ((t.applyPath polarity path).below p).excluded = (t.below p).excluded := by
  rcases continues_or_parts p path with ⟨q, rfl⟩ | ⟨name, r, rfl⟩ | ⟨c, a, b, r, s, ne, rfl, rfl⟩
  · exact absurd (List.prefix_append p q) off
  · rw [below_applyPath_beyond t polarity nonempty, below_append]
    exact marks_below_of_child?_eq (child?_mark (t.below path) polarity true)
      (List.cons_ne_nil name r)
  · rw [below_applyPath_of_parting t polarity c ne]
    exact ⟨rfl, rfl⟩

/-- A keeping rule includes the nodes of its path. -/
theorem included_below_applyPath {t : RuleTree} {polarity : Polarity} {path p : List String}
    (nonempty : path ≠ []) (h : p ≠ []) :
    ((t.applyPath polarity path).below p).included
      ↔ (t.below p).included ∨ polarity = .keep ∧ p <+: path := by
  by_cases on : p <+: path
  · obtain ⟨q, rfl⟩ := on
    rw [below_applyPath_append t polarity h, (root_applyPath _ polarity q).1, included_mark]
    simp only [Bool.or_eq_true, decide_eq_true_eq, List.prefix_append, and_true]
  · rw [(marks_below_applyPath_off nonempty on).1]
    exact (or_iff_left fun both => on both.2).symm

/-- A dropping rule excludes the node at the end of its path. -/
theorem excluded_below_applyPath {t : RuleTree} {polarity : Polarity} {path p : List String}
    (nonempty : path ≠ []) (h : p ≠ []) :
    ((t.applyPath polarity path).below p).excluded
      ↔ (t.below p).excluded ∨ polarity = .drop ∧ path = p := by
  by_cases on : p <+: path
  · obtain ⟨q, rfl⟩ := on
    rw [below_applyPath_append t polarity h, (root_applyPath _ polarity q).2.1, excluded_mark]
    simp only [Bool.or_eq_true, Bool.and_eq_true, decide_eq_true_eq, List.isEmpty_iff,
      List.append_right_eq_self]
  · rw [(marks_below_applyPath_off nonempty on).2]
    refine (or_iff_left ?_).symm
    rintro ⟨-, rfl⟩
    exact on List.prefix_rfl

/-- A keeping rule makes the end of its path greedy, and with it whatever is nested there without
having a node. -/
theorem greedy_below_applyPath {t : RuleTree} {polarity : Polarity} {path : List String}
    (nonempty : path ≠ []) (p : List String) :
    ((t.applyPath polarity path).below p).greedy
      ↔ (t.below p).greedy ∨ polarity = .keep ∧ path <+: p ∧
          ∀ name, path ++ [name] <+: p → ¬ t.HasNode (path ++ [name]) := by
  rcases continues_or_parts p path with ⟨q, rfl⟩ | ⟨name, r, rfl⟩ | ⟨c, a, b, r, s, ne, rfl, rfl⟩
  · by_cases h : p = []
    · subst h
      rw [below_nil, below_nil, greedy_applyPath, List.prefix_nil]
      exact (or_iff_left fun both => nonempty both.2.1).symm
    · rw [below_applyPath_append t polarity h, greedy_applyPath, greedy_mark]
      cases q with
      | nil =>
        rw [List.append_nil]
        have last : ∀ name, p ++ [name] <+: p → ¬ t.HasNode (p ++ [name]) :=
          fun name longer => absurd longer (not_prefix_of_longer p name [])
        simp only [Bool.or_eq_true, Bool.and_eq_true, decide_eq_true_eq, List.isEmpty_nil, and_true,
          List.prefix_refl, and_iff_left last]
      | cons name q =>
        simp only [Bool.or_eq_true, Bool.and_eq_true, List.isEmpty_cons, Bool.false_eq_true, and_false,
          or_false, not_prefix_of_longer p name q, false_and]
  · rw [below_applyPath_beyond t polarity nonempty, below_cons, below_append, below_cons]
    have next : (∀ other, path ++ [other] <+: path ++ name :: r → ¬ t.HasNode (path ++ [other]))
        ↔ ¬ t.HasNode (path ++ [name]) := by
      simp only [List.prefix_append_right_inj, List.cons_prefix_cons, List.nil_prefix, and_true,
        forall_eq]
    rw [and_iff_right (List.prefix_append path (name :: r)), next, hasNode_append_singleton]
    cases h : (t.below path).child? name with
    | none =>
      rw [under_of_child?_eq_none h, under_of_child?_eq_none (by rw [child?_mark, h]), below_fresh,
        below_fresh]
      show ((t.below path).mark polarity true).greedy ↔ (t.below path).greedy ∨ _
      rw [greedy_mark]
      simp only [Bool.or_eq_true, Bool.and_true, decide_eq_true_eq, reduceCtorEq, exists_false,
        not_false_eq_true, and_true]
    | some c =>
      rw [under_of_child? h, under_of_child? (by rw [child?_mark, h])]
      exact (or_iff_left fun both => both.2 ⟨c, rfl⟩).symm
  · rw [below_applyPath_of_parting t polarity c ne]
    exact (or_iff_left fun both =>
      not_prefix_of_parting (Ne.symm ne) c s r both.2.1).symm

/-! ## A list of rules -/

@[simp] theorem applyAll_nil (t : RuleTree) : t.applyAll [] = t := rfl

@[simp] theorem applyAll_cons (t : RuleTree) (r : Rule) (rules : List Rule) :
    t.applyAll (r :: rules) = (t.apply r).applyAll rules := rfl

theorem applyAll_append (t : RuleTree) (first second : List Rule) :
    t.applyAll (first ++ second) = (t.applyAll first).applyAll second :=
  List.foldl_append

/-- What a rule adds to a tree whatever is in it already, a list of rules adds for each of them, in
any order. -/
theorem applyAll_iff {P : RuleTree → Prop} {Q : Rule → Prop}
    (step : ∀ (t : RuleTree) (r : Rule), P (t.apply r) ↔ P t ∨ Q r) (t : RuleTree)
    (rules : List Rule) : P (t.applyAll rules) ↔ P t ∨ ∃ r ∈ rules, Q r := by
  induction rules generalizing t with
  | nil => simp only [applyAll_nil, List.not_mem_nil, false_and, exists_false, or_false]
  | cons r rules ih =>
    rw [applyAll_cons, ih, step, or_assoc]
    simp only [List.mem_cons, exists_eq_or_imp]

/-- A list of rules adds nodes at the places that it mentions. -/
theorem hasNode_applyAll {t : RuleTree} {rules : List Rule} {p : List String} :
    (t.applyAll rules).HasNode p ↔ t.HasNode p ∨ Rule.Mentioned rules p := by
  refine applyAll_iff (P := fun t => t.HasNode p) (fun t r => ?_) t rules
  rw [apply_eq_applyPath]
  exact hasNode_applyPath

/-- It marks as included the places below the root that it names. -/
theorem included_below_applyAll {t : RuleTree} {rules : List Rule} {p : List String} (h : p ≠ []) :
    ((t.applyAll rules).below p).included ↔ (t.below p).included ∨ Rule.Named rules p := by
  refine applyAll_iff (P := fun t => (t.below p).included) (fun t r => ?_) t rules
  rw [apply_eq_applyPath]
  exact included_below_applyPath r.segments_ne_nil h

/-- It marks as excluded the places below the root that it drops. -/
theorem excluded_below_applyAll {t : RuleTree} {rules : List Rule} {p : List String} (h : p ≠ []) :
    ((t.applyAll rules).below p).excluded ↔ (t.below p).excluded ∨ Rule.Dropped rules p := by
  refine applyAll_iff (P := fun t => (t.below p).excluded) (fun t r => ?_) t rules
  rw [apply_eq_applyPath]
  exact excluded_below_applyPath r.segments_ne_nil h

/-- A keeping rule of the list ends at the path, or ends above it and found no node one step down from
there when it was applied. -/
def Selected (t : RuleTree) (rules : List Rule) (path : List String) : Prop :=
  ∃ before r after, rules = before ++ r :: after ∧ r.polarity = .keep ∧ r.segments <+: path ∧
    ∀ name, r.segments ++ [name] <+: path →
      ¬ (t.applyAll before).HasNode (r.segments ++ [name])

theorem selected_nil {t : RuleTree} {path : List String} : ¬ t.Selected [] path := by
  rintro ⟨before, r, after, h, -⟩
  exact absurd h.symm (List.append_ne_nil_of_right_ne_nil before (List.cons_ne_nil r after))

/-- The first rule selects a path or a later one does in the tree that the first leaves. -/
theorem selected_cons {t : RuleTree} {r : Rule} {rules : List Rule} {path : List String} :
    t.Selected (r :: rules) path
      ↔ (r.polarity = .keep ∧ r.segments <+: path ∧
          ∀ name, r.segments ++ [name] <+: path → ¬ t.HasNode (r.segments ++ [name]))
        ∨ (t.apply r).Selected rules path := by
  constructor
  · rintro ⟨before, s, after, h, selects⟩
    cases before with
    | nil =>
      obtain ⟨rfl, rfl⟩ := List.cons.inj h
      exact .inl selects
    | cons first before =>
      obtain ⟨rfl, rfl⟩ := List.cons.inj h
      exact .inr ⟨before, s, after, rfl, selects⟩
  · rintro (selects | ⟨before, s, after, rfl, selects⟩)
    · exact ⟨[], r, rules, rfl, selects⟩
    · exact ⟨r :: before, s, after, rfl, selects⟩

/-- It turns greedy the places that it selects. -/
theorem greedy_below_applyAll {t : RuleTree} {rules : List Rule} {p : List String} :
    ((t.applyAll rules).below p).greedy ↔ (t.below p).greedy ∨ t.Selected rules p := by
  induction rules generalizing t with
  | nil => rw [applyAll_nil, or_iff_left selected_nil]
  | cons r rules ih =>
    rw [applyAll_cons, ih, selected_cons, ← or_assoc]
    rw [apply_eq_applyPath, greedy_below_applyPath r.segments_ne_nil]

/-! ## Rules in a fresh tree -/

theorem selected_fresh {greedy : Bool} {rules : List Rule} {path : List String} :
    (fresh greedy).Selected rules path ↔ Rule.Selected rules path := by
  have mentioned : ∀ (before : List Rule) (p : List String) (name : String),
      ((fresh greedy).applyAll before).HasNode (p ++ [name])
        ↔ Rule.Mentioned before (p ++ [name]) := by
    intro before p name
    rw [hasNode_applyAll, hasNode_append_singleton, below_fresh, child?_fresh]
    simp only [reduceCtorEq, exists_false, false_or]
  simp only [Selected, Rule.Selected, mentioned]

/-- The nodes and marks that rules leave in a fresh tree. -/
theorem marks_below_applyAll_fresh (greedy : Bool) (rules : List Rule) {p : List String}
    (h : p ≠ []) :
    (((fresh greedy).applyAll rules).HasNode p ↔ Rule.Mentioned rules p) ∧
      ((((fresh greedy).applyAll rules).below p).included ↔ Rule.Named rules p) ∧
      ((((fresh greedy).applyAll rules).below p).excluded ↔ Rule.Dropped rules p) := by
  obtain ⟨name, path, rfl⟩ := List.exists_cons_of_ne_nil h
  refine ⟨?_, ?_, ?_⟩
  · rw [hasNode_applyAll, or_iff_right (not_hasNode_fresh_cons greedy name path)]
  · rw [included_below_applyAll h, below_fresh]
    exact or_iff_right Bool.false_ne_true
  · rw [excluded_below_applyAll h, below_fresh]
    exact or_iff_right Bool.false_ne_true

/-- The modes that rules leave in a fresh tree. -/
theorem greedy_below_applyAll_fresh (greedy : Bool) (rules : List Rule) (p : List String) :
    (((fresh greedy).applyAll rules).below p).greedy ↔ greedy ∨ Rule.Selected rules p := by
  rw [greedy_below_applyAll, below_fresh, selected_fresh]
  exact Iff.rfl

end RuleTree

end EntityJson
