import EntityJson.Rule

/-!
# Nodes of the tree of rules

A node records whether a keeping rule passes through it or ends at it (`included`), whether a
dropping rule ends at it (`excluded`), and what happens to the children that no rule mentions: a
**greedy** node keeps them, a strict one does not. Its children are listed by their names.

In an **ordered** node the names of the children increase, there and in every node below, so each name
occurs once. Every operation on ordered nodes gives an ordered node, and `EntityJson.RuleTree` holds
no others.
-/

namespace EntityJson

/-- A node with the nodes below it. -/
inductive RuleNode where
  | mk (included excluded greedy : Bool) (children : List (String × RuleNode))
  deriving Repr

namespace RuleNode

def included : RuleNode → Bool
  | mk included _ _ _ => included

def excluded : RuleNode → Bool
  | mk _ excluded _ _ => excluded

def greedy : RuleNode → Bool
  | mk _ _ greedy _ => greedy

def children : RuleNode → List (String × RuleNode)
  | mk _ _ _ children => children

/-- A node without marks and children. -/
def fresh (greedy : Bool) : RuleNode :=
  mk false false greedy []

mutual

def decEq : (s t : RuleNode) → Decidable (s = t)
  | mk i e g cs, mk i' e' g' cs' =>
    match decEqAll cs cs' with
    | isTrue h =>
      if h' : i = i' ∧ e = e' ∧ g = g' then isTrue (by rw [h, h'.1, h'.2.1, h'.2.2])
      else isFalse (by rintro ⟨⟩; exact h' ⟨rfl, rfl, rfl⟩)
    | isFalse h => isFalse (by rintro ⟨⟩; exact h rfl)

def decEqAll : (cs cs' : List (String × RuleNode)) → Decidable (cs = cs')
  | [], [] => isTrue rfl
  | [], _ :: _ => isFalse (by simp)
  | _ :: _, [] => isFalse (by simp)
  | (name, s) :: cs, (name', t) :: cs' =>
    match decEq s t, decEqAll cs cs' with
    | isTrue h, isTrue h' =>
      if h'' : name = name' then isTrue (by rw [h, h', h'']) else isFalse (by simp [h''])
    | isFalse h, _ => isFalse (by simp [h])
    | _, isFalse h => isFalse (by simp [h])

end

instance : DecidableEq RuleNode := decEq

/-! ## Children -/

/-- The child of a name. -/
def lookup (name : String) : List (String × RuleNode) → Option RuleNode
  | [] => none
  | (other, t) :: rest => if other = name then some t else lookup name rest

/-- Replaces the child of a name, or puts a new one in its place in the order of names. -/
def alter (name : String) (f : Option RuleNode → RuleNode) :
    List (String × RuleNode) → List (String × RuleNode)
  | [] => [(name, f none)]
  | (other, t) :: rest =>
    if other = name then (other, f (some t)) :: rest
    else if name < other then (name, f none) :: (other, t) :: rest
    else (other, t) :: alter name f rest

/-! ## Operations -/

/-- The marks that a rule leaves at a node of its path; `last` says whether the path ends there. A
keeping rule includes every node on its way and selects the whole of the last one; a dropping rule
excludes the last one and leaves the others alone. -/
def mark (polarity : Polarity) (last : Bool) : RuleNode → RuleNode
  | mk i e g cs =>
    match polarity, last with
    | .keep, true => mk true e true cs
    | .keep, false => mk true e g cs
    | .drop, true => mk i true g cs
    | .drop, false => mk i e g cs

/-- Marks the nodes along a path. A node that is missing is made with the mode of its parent. -/
def applyPath (polarity : Polarity) : List String → RuleNode → RuleNode
  | [], t => t
  | name :: path, mk i e g cs =>
    mk i e g <| alter name
      (fun c => applyPath polarity path (mark polarity path.isEmpty (c.getD (fresh g)))) cs

mutual

/-- Makes a node and every node below it strict. -/
def forceStrict : RuleNode → RuleNode
  | mk i e _ cs => mk i e false (forceStrictAll cs)

def forceStrictAll : List (String × RuleNode) → List (String × RuleNode)
  | [] => []
  | (name, t) :: rest => (name, forceStrict t) :: forceStrictAll rest

end

mutual

/-- The union of two nodes and of what is below them. Marks add up. A node keeps its mode, except that
one which the other node selects as a whole becomes greedy. -/
def merge (t : RuleNode) : RuleNode → RuleNode
  | mk i e g cs =>
    mk (t.included || i) (t.excluded || e) (t.greedy || (i && g)) (mergeInto t.children cs)

/-- Merges each child of a list into the child of the same name, or adds it as it is. -/
def mergeInto (into : List (String × RuleNode)) :
    List (String × RuleNode) → List (String × RuleNode)
  | [] => into
  | (name, t) :: rest =>
    mergeInto (alter name (fun | some c => merge c t | none => t) into) rest

end

/-- The union of what is below two nodes, with the marks and the mode of the first. -/
def mergeChildren (t other : RuleNode) : RuleNode :=
  mk t.included t.excluded t.greedy (mergeInto t.children other.children)

/-! ## Order -/

/-- Whether the names of a list of children increase. -/
def Increasing (cs : List (String × RuleNode)) : Prop :=
  cs.Pairwise (·.1 < ·.1)

mutual

/-- Whether the names of the children increase in a node and in every node below it. -/
def Ordered : RuleNode → Prop
  | mk _ _ _ cs => Increasing cs ∧ OrderedAll cs

def OrderedAll : List (String × RuleNode) → Prop
  | [] => True
  | (_, t) :: rest => Ordered t ∧ OrderedAll rest

end

theorem ordered_fresh (greedy : Bool) : Ordered (fresh greedy) :=
  ⟨List.Pairwise.nil, trivial⟩

/-- The children of an ordered node are in order, each with its own children. -/
theorem Ordered.children {t : RuleNode} (h : t.Ordered) :
    Increasing t.children ∧ OrderedAll t.children := by
  cases t; exact h

theorem OrderedAll.lookup {cs : List (String × RuleNode)} (h : OrderedAll cs) {name : String}
    {t : RuleNode} (found : lookup name cs = some t) : t.Ordered := by
  induction cs with
  | nil => simp [RuleNode.lookup] at found
  | cons c rest ih =>
    obtain ⟨other, s⟩ := c
    simp only [RuleNode.lookup] at found
    split at found
    · exact Option.some.inj found ▸ h.1
    · exact ih h.2 found

/-- The names after a change are those before it and the name changed. -/
theorem fst_of_mem_alter {name : String} {f : Option RuleNode → RuleNode}
    {cs : List (String × RuleNode)} {c : String × RuleNode} (h : c ∈ alter name f cs) :
    c.1 = name ∨ ∃ d ∈ cs, d.1 = c.1 := by
  induction cs with
  | nil => simp_all [alter]
  | cons d rest ih =>
    obtain ⟨other, t⟩ := d
    simp only [alter] at h
    split at h
    · grind
    · split at h
      · grind
      · rcases List.mem_cons.mp h with rfl | h
        · exact .inr ⟨_, List.mem_cons_self, rfl⟩
        · rcases ih h with e | ⟨d, hd, e⟩
          · exact .inl e
          · exact .inr ⟨d, List.mem_cons_of_mem _ hd, e⟩

/-- Changing or adding a child keeps the names in order. -/
theorem Increasing.alter {cs : List (String × RuleNode)} (h : Increasing cs) (name : String)
    (f : Option RuleNode → RuleNode) : Increasing (alter name f cs) := by
  induction cs with
  | nil => exact List.pairwise_singleton ..
  | cons c rest ih =>
    obtain ⟨other, t⟩ := c
    obtain ⟨first, increasing⟩ := List.pairwise_cons.mp h
    simp only [RuleNode.alter]
    split
    · exact List.pairwise_cons.mpr ⟨first, increasing⟩
    · next ne =>
      split
      · next lt =>
        refine List.pairwise_cons.mpr ⟨fun c hc => ?_, h⟩
        rcases List.mem_cons.mp hc with rfl | hc
        · exact lt
        · exact String.lt_trans lt (first c hc)
      · next nlt =>
        refine List.pairwise_cons.mpr ⟨fun c hc => ?_, ih increasing⟩
        rcases fst_of_mem_alter hc with e | ⟨d, hd, e⟩
        · show other < c.1
          grind
        · show other < c.1
          exact e ▸ first d hd

/-- And it keeps the order below the children, if the change does. -/
theorem OrderedAll.alter {cs : List (String × RuleNode)} (h : OrderedAll cs) (name : String)
    {f : Option RuleNode → RuleNode} (fresh : (f none).Ordered)
    (kept : ∀ t, t.Ordered → (f (some t)).Ordered) : OrderedAll (alter name f cs) := by
  induction cs with
  | nil => exact ⟨fresh, trivial⟩
  | cons c rest ih =>
    obtain ⟨other, t⟩ := c
    simp only [RuleNode.alter]
    split
    · exact ⟨kept t h.1, h.2⟩
    · split
      · exact ⟨fresh, h⟩
      · exact ⟨h.1, ih h.2⟩

/-- Marks have no part in the order. -/
theorem Ordered.mark {t : RuleNode} (h : t.Ordered) (polarity : Polarity) (last : Bool) :
    (t.mark polarity last).Ordered := by
  cases t; cases polarity <;> cases last <;> exact h

/-- A rule keeps the order: it goes down one path and adds a child where there is none. -/
theorem Ordered.applyPath {t : RuleNode} (h : t.Ordered) (polarity : Polarity)
    (path : List String) : (t.applyPath polarity path).Ordered := by
  induction path generalizing t with
  | nil => exact h
  | cons name path ih =>
    obtain ⟨i, e, g, cs⟩ := t
    exact ⟨h.1.alter name _, h.2.alter name (ih ((ordered_fresh g).mark ..))
      fun t ht => ih (ht.mark ..)⟩

mutual

/-- Turning all nodes strict leaves the names as they are. -/
theorem Ordered.forceStrict : {t : RuleNode} → t.Ordered → t.forceStrict.Ordered
  | .mk _ _ _ _, h => OrderedAll.forceStrictAll h.2 h.1

theorem OrderedAll.forceStrictAll : {cs : List (String × RuleNode)} → OrderedAll cs →
    Increasing cs → Increasing (forceStrictAll cs) ∧ OrderedAll (forceStrictAll cs)
  | [], _, _ => ⟨List.Pairwise.nil, trivial⟩
  | (_, t) :: rest, h, increasing => by
    obtain ⟨first, increasing⟩ := List.pairwise_cons.mp increasing
    obtain ⟨increasing', h'⟩ := OrderedAll.forceStrictAll h.2 increasing
    refine ⟨List.pairwise_cons.mpr ⟨?_, increasing'⟩, Ordered.forceStrict h.1, h'⟩
    exact fun c hc => first_lt_forceStrictAll first hc

theorem first_lt_forceStrictAll {name : String} : {cs : List (String × RuleNode)} →
    (∀ c ∈ cs, name < c.1) → {c : String × RuleNode} → c ∈ forceStrictAll cs → name < c.1
  | [], _, _, hc => by simp [RuleNode.forceStrictAll] at hc
  | (other, t) :: _, first, _, hc => by
    simp only [RuleNode.forceStrictAll, List.mem_cons] at hc
    rcases hc with rfl | hc
    · exact first (other, t) List.mem_cons_self
    · exact first_lt_forceStrictAll (fun c hc => first c (List.mem_cons_of_mem _ hc)) hc

end

mutual

/-- Merging puts each child of the other tree where it belongs. -/
theorem Ordered.merge {s : RuleNode} (hs : s.Ordered) : {t : RuleNode} → t.Ordered →
    (s.merge t).Ordered
  | .mk _ _ _ _, h => OrderedAll.mergeInto hs.children.1 hs.children.2 h.2

theorem OrderedAll.mergeInto {into : List (String × RuleNode)} (increasing : Increasing into)
    (ordered : OrderedAll into) : {cs : List (String × RuleNode)} → OrderedAll cs →
    Increasing (mergeInto into cs) ∧ OrderedAll (mergeInto into cs)
  | [], _ => ⟨increasing, ordered⟩
  | (name, _) :: _, h =>
    OrderedAll.mergeInto (increasing.alter name _)
      (ordered.alter name h.1 fun _ ht => Ordered.merge ht h.1) h.2

end

theorem Ordered.mergeChildren {s t : RuleNode} (hs : s.Ordered) (ht : t.Ordered) :
    (s.mergeChildren t).Ordered :=
  OrderedAll.mergeInto hs.children.1 hs.children.2 ht.children.2

end RuleNode

end EntityJson
