import EntityJson.RuleTree.Basic

/-!
# Schemas

A **schema** is what the rules of one scope come to: a tree of rules and the questions asked of it.
It is layered from four lists of rule texts, later ones on top of earlier ones:

1. the exact rules that the entity declares,
2. the additive rules that the entity declares,
3. the exact rules of the caller, which replace the first two,
4. the additive rules of the caller.

An exact list makes the schema **strict**: only what is named is kept. Without one the schema is
**greedy**: all is kept that is not dropped. An empty list counts as not given.
-/

namespace EntityJson

/-- The rules of one scope. -/
structure Schema where
  tree : RuleTree
  deriving DecidableEq

namespace Schema

/-- The schema that keeps everything. -/
def keepAll : Schema := ⟨.keepAll⟩

/-- Replaces all rules by an exact list and makes the schema strict. -/
def ingestExact (s : Schema) (texts : List String) : Except RuleError Schema :=
  if texts.isEmpty then .ok s
  else do return ⟨RuleTree.keepAll.forceStrict.applyAll (← Rule.parseAll texts)⟩

/-- Adds rules to those of the schema; the mode stays. -/
def ingestExtend (s : Schema) (texts : List String) : Except RuleError Schema :=
  if texts.isEmpty then .ok s
  else do return ⟨s.tree.applyAll (← Rule.parseAll texts)⟩

/-- The schema of four lists of rules. All of them are read, also those that a later exact list
replaces. -/
def layered (declaredOnly declaredRules only rules : List String) : Except RuleError Schema := do
  let s ← keepAll.ingestExact declaredOnly
  let s ← s.ingestExtend declaredRules
  let s ← s.ingestExact only
  s.ingestExtend rules

/-! ## In place

A schema that is held somewhere is changed there. An operation that fails ends with the error and with
the schema as it then is, so a list is read to its end before the first of its rules is applied. -/

/-- An operation on a schema that is held somewhere. -/
abbrev InPlace := ExceptT RuleError (StateM Schema)

/-- Folds one rule into the tree of the schema. -/
def applyInPlace (r : Rule) : InPlace Unit :=
  modify fun s => ⟨s.tree.apply r⟩

/-- Replaces all rules by an exact list. -/
def ingestExactInPlace (texts : List String) : InPlace Unit := do
  unless texts.isEmpty do
    let rules ← ExceptT.mk (pure (Rule.parseAll texts))
    set (⟨RuleTree.keepAll.forceStrict.applyAll rules⟩ : Schema)

/-- Adds the rules of a list one by one. -/
def ingestExtendInPlace (texts : List String) : InPlace Unit := do
  unless texts.isEmpty do
    let rules ← ExceptT.mk (pure (Rule.parseAll texts))
    rules.forM applyInPlace

/-! ## Questions -/

def isGreedy (s : Schema) : Bool :=
  s.tree.greedy

/-- Lays an inherited schema over this one: a strict one replaces it like an exact list of the
caller, the rules of a greedy one are added and the mode stays. -/
def merge (s inherited : Schema) : Schema :=
  if inherited.isGreedy then ⟨s.tree.mergeChildren inherited.tree⟩ else inherited

/-- Whether the attribute `name` belongs to the output. -/
def isIncluded (s : Schema) (name : String) : Bool :=
  s.tree.isIncluded name

/-- The attributes that a keeping rule names or starts from, in order of their names. -/
def topLevelKeys (s : Schema) : List String :=
  (s.tree.node.children.filter (·.2.included)).map (·.1)

/-- The schema of the scope under the attribute `name`: the rules written for it, or none at all in
the mode of this schema. -/
def descend (s : Schema) (name : String) : Schema :=
  ⟨(s.tree.child? name).getD (.fresh s.isGreedy)⟩

/-- Whether every step of a path is included where it is taken. -/
def visible (s : Schema) : List String → Bool
  | [] => true
  | name :: path => s.isIncluded name && (s.descend name).visible path

/-- The rule texts of the nodes below a path, which comes with its segments reversed. -/
def rulesBelow (path : List String) : List (String × RuleNode) → List String
  | [] => []
  | (name, .mk included excluded _ below) :: rest =>
    let text := Rule.pathText (name :: path).reverse
    (if included then [text] else []) ++ (if excluded then ["-" ++ text] else [])
      ++ rulesBelow (name :: path) below ++ rulesBelow path rest

/-- The rules that say what the marks of the tree say, in the order of their paths. -/
def rules (s : Schema) : List String :=
  rulesBelow [] s.tree.node.children

def text (s : Schema) : String :=
  let rules := String.intercalate ", " s.rules
  s!"Schema(greedy={s.isGreedy}, rules=[{rules}])"

end Schema

end EntityJson
