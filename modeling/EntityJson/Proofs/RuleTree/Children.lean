import EntityJson.RuleTree.Basic

/-!
# Children by name

In a list of children with increasing names a name is found where a change has put it, and all other
names are found as before (`RuleNode.lookup_alter`). A name behind all others is put at the end, so a
list of children that is merged into an empty one comes out as it is (`RuleNode.mergeInto_nil`).
-/

namespace EntityJson.RuleNode

theorem lookup_nil (name : String) : lookup name [] = none := rfl

theorem lookup_cons (name other : String) (t : RuleNode) (rest : List (String × RuleNode)) :
    lookup name ((other, t) :: rest) = if other = name then some t else lookup name rest := rfl

/-- No name is found in front of the first. -/
theorem lookup_eq_none_of_lt {name : String} {cs : List (String × RuleNode)}
    (before : ∀ c ∈ cs, name < c.1) : lookup name cs = none := by
  induction cs with
  | nil => rfl
  | cons c rest ih =>
    have ne : c.1 ≠ name := fun e => String.lt_irrefl name (e ▸ before c List.mem_cons_self)
    rw [lookup_cons, if_neg ne]
    exact ih fun d hd => before d (List.mem_cons_of_mem _ hd)

/-- After a change the changed name gives the change, and every other name gives what it gave. -/
theorem lookup_alter {cs : List (String × RuleNode)} (increasing : Increasing cs)
    (name other : String) (f : Option RuleNode → RuleNode) :
    lookup other (alter name f cs)
      = if other = name then some (f (lookup name cs)) else lookup other cs := by
  induction cs with
  | nil =>
    by_cases h : other = name
    · rw [alter, lookup_cons, if_pos h.symm, if_pos h, lookup_nil]
    · rw [alter, lookup_cons, if_neg (Ne.symm h), if_neg h]
  | cons c rest ih =>
    obtain ⟨first, t⟩ := c
    obtain ⟨least, increasing⟩ := List.pairwise_cons.mp increasing
    rw [alter]
    by_cases same : first = name
    · subst same
      rw [if_pos rfl, lookup_cons, lookup_cons, lookup_cons, if_pos rfl]
      by_cases h : other = first
      · rw [if_pos h, if_pos h.symm]
      · rw [if_neg h, if_neg (Ne.symm h), if_neg (Ne.symm h)]
    · rw [if_neg same]
      by_cases lt : name < first
      · -- the name stands in front of all others, so it was not there before
        have absent : lookup name ((first, t) :: rest) = none := by
          refine lookup_eq_none_of_lt fun c hc => ?_
          rcases List.mem_cons.mp hc with rfl | hc
          · exact lt
          · exact String.lt_trans lt (least c hc)
        rw [if_pos lt, absent, lookup_cons]
        by_cases h : other = name
        · rw [if_pos h, if_pos h.symm]
        · rw [if_neg h, if_neg (Ne.symm h)]
      · rw [if_neg lt, lookup_cons, lookup_cons, lookup_cons, ih increasing]
        by_cases h : other = name
        · subst h
          rw [if_neg same, if_pos rfl, if_pos rfl, if_neg same]
        · rw [if_neg h, if_neg h]

/-- A name behind all others is put at the end. -/
theorem alter_eq_append {name : String} (f : Option RuleNode → RuleNode)
    {cs : List (String × RuleNode)} (behind : ∀ c ∈ cs, c.1 < name) :
    alter name f cs = cs ++ [(name, f none)] := by
  induction cs with
  | nil => rfl
  | cons c rest ih =>
    have lt : c.1 < name := behind c List.mem_cons_self
    have ne : c.1 ≠ name := fun e => String.lt_irrefl name (e ▸ lt)
    rw [alter, if_neg ne, if_neg (String.lt_asymm lt),
      ih fun d hd => behind d (List.mem_cons_of_mem _ hd), List.cons_append]

/-- Children whose names all come later are merged by appending them. -/
theorem mergeInto_eq_append {into cs : List (String × RuleNode)}
    (increasing : Increasing (into ++ cs)) : mergeInto into cs = into ++ cs := by
  induction cs generalizing into with
  | nil => rw [mergeInto, List.append_nil]
  | cons c rest ih =>
    obtain ⟨name, t⟩ := c
    have behind : ∀ d ∈ into, d.1 < name := fun d hd =>
      (List.pairwise_append.mp increasing).2.2 d hd (name, t) List.mem_cons_self
    rw [mergeInto, alter_eq_append _ behind]
    have moved : into ++ (name, t) :: rest = into ++ [(name, t)] ++ rest := by
      rw [List.append_assoc, List.singleton_append]
    rw [moved] at increasing ⊢
    exact ih increasing

/-- Merging into no children gives the children that are merged. -/
theorem mergeInto_nil {cs : List (String × RuleNode)} (increasing : Increasing cs) :
    mergeInto [] cs = cs :=
  mergeInto_eq_append increasing

end EntityJson.RuleNode
