import EntityJson.RuleTree.Node

/-!
# The tree of rules

Rules are folded into a tree that branches by path segment (`EntityJson.RuleNode`). Where a node is
both included and excluded the inclusion wins, so the answer of `isIncluded` does not depend on the
order in which marks were set.
-/

namespace EntityJson

/-- A node of the tree of rules with all that is below it, in which children are in increasing order
of their names. -/
structure RuleTree where
  node : RuleNode
  ordered : node.Ordered

namespace RuleTree

instance : DecidableEq RuleTree := fun s t =>
  decidable_of_iff (s.node = t.node) <| by
    cases s; cases t; simp

/-- A tree without marks and children. -/
def fresh (greedy : Bool) : RuleTree :=
  ⟨.fresh greedy, RuleNode.ordered_fresh greedy⟩

/-- The tree that keeps everything. -/
def keepAll : RuleTree := fresh true

/-- The tree that keeps nothing. -/
def strict : RuleTree := fresh false

/-- Named by a keeping rule, or passed through by one. -/
def included (t : RuleTree) : Bool := t.node.included

/-- Named by a dropping rule. -/
def excluded (t : RuleTree) : Bool := t.node.excluded

/-- Whether children that no rule mentions are kept. -/
def greedy (t : RuleTree) : Bool := t.node.greedy

def isLeaf (t : RuleTree) : Bool := t.node.children.isEmpty

def child? (t : RuleTree) (name : String) : Option RuleTree :=
  match h : RuleNode.lookup name t.node.children with
  | some c => some ⟨c, t.ordered.children.2.lookup h⟩
  | none => none

/-- The tree at the end of a path. -/
def find? (t : RuleTree) : List String → Option RuleTree
  | [] => some t
  | name :: path => (t.child? name).bind (·.find? path)

/-- Whether the child `name` belongs to the output. -/
def isIncluded (t : RuleTree) (name : String) : Bool :=
  match t.child? name with
  | some c => if c.included then true else if c.excluded then false else t.greedy
  | none => t.greedy

/-- Folds one rule into the tree. -/
def apply (t : RuleTree) (r : Rule) : RuleTree :=
  ⟨t.node.applyPath r.polarity r.segments, t.ordered.applyPath r.polarity r.segments⟩

/-- Folds the rules of a list into the tree, the first one first. -/
def applyAll (t : RuleTree) (rules : List Rule) : RuleTree :=
  rules.foldl apply t

/-- Makes every node strict. -/
def forceStrict (t : RuleTree) : RuleTree :=
  ⟨t.node.forceStrict, t.ordered.forceStrict⟩

/-- The union of two trees, node by node. -/
def merge (t other : RuleTree) : RuleTree :=
  ⟨t.node.merge other.node, t.ordered.merge other.ordered⟩

/-- The union of the nodes below the roots; the root keeps its marks and its mode. -/
def mergeChildren (t other : RuleTree) : RuleTree :=
  ⟨t.node.mergeChildren other.node, t.ordered.mergeChildren other.ordered⟩

end RuleTree

end EntityJson
