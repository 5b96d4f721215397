import EntityJson.Proofs.RuleTree.Descent
import EntityJson.Schema

/-!
# Schemas that answer alike

What a schema answers hangs on the children and the mode of its root alone; the marks of the root say
something about the scope around it. A schema that is inherited where nothing is declared therefore
answers as it does itself, though it is merged into an empty one on the way
(`Schema.agrees_keepAll_merge`).
-/

namespace EntityJson.Schema

/-- Two schemas give the same answer at every name, and the same schema below it. -/
structure Agrees (s t : Schema) : Prop where
  isIncluded : ∀ name, s.isIncluded name = t.isIncluded name
  descend : ∀ name, s.descend name = t.descend name

theorem Agrees.refl (s : Schema) : s.Agrees s :=
  ⟨fun _ => rfl, fun _ => rfl⟩

/-- Schemas agree when the children and the mode of their roots do. -/
theorem agrees_of_children {s t : Schema} (children : ∀ name, s.tree.child? name = t.tree.child? name)
    (mode : s.tree.greedy = t.tree.greedy) : s.Agrees t := by
  constructor
  · intro name
    unfold isIncluded RuleTree.isIncluded
    rw [children, mode]
  · intro name
    unfold descend isGreedy
    rw [children, mode]

/-- A schema merged into the empty greedy one answers as before. -/
theorem agrees_keepAll_merge (s : Schema) : (keepAll.merge s).Agrees s := by
  unfold merge
  by_cases greedy : s.isGreedy
  · rw [if_pos greedy]
    refine agrees_of_children (fun name => RuleTree.child?_congr ?_ name) greedy.symm
    exact RuleNode.mergeInto_nil s.tree.ordered.children.1
  · rw [if_neg greedy]
    exact Agrees.refl s

end EntityJson.Schema
