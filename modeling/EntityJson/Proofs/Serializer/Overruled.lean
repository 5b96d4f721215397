import EntityJson.Proofs.Schema.Layers
import EntityJson.Serializer.Basic

/-!
# Declared rules that are overruled

What an entity declares is read first and layered first, and then replaced wherever an exact list comes
from above: at the root by that of the caller, below it by an inherited schema that is strict. In such a
scope (`Scope.Overrules`) rules that can be read have no part in the schema of the entity
(`Scope.schema_eq_of_overrules`), hence none in the attributes that are asked for, in what they come to
and in what is inherited further down.

So it does not matter there what the entity declares. Since the same entity may be met in other places
too, where its rules do count, rules are replaced place by place (`Traversal.entityDeclaring`), and no
serialization changes as long as they are replaced in overruling scopes alone
(`Serializer.serialize_eq_of_overruled`).
-/

namespace EntityJson

/-- The rules that an entity declares. -/
structure DeclaredRules where
  exact : List String
  additive : List String

/-- All texts of both lists are rules. -/
def DeclaredRules.WellFormed (rules : DeclaredRules) : Prop :=
  (∃ exact, Rule.parseAll rules.exact = .ok exact) ∧
    ∃ additive, Rule.parseAll rules.additive = .ok additive

variable {ι : Type}

namespace Entity

def rules (e : Entity ι) : DeclaredRules := ⟨e.exactRules, e.additiveRules⟩

/-- The entity with other rules in place of those that it declares. -/
def declaring (e : Entity ι) (rules : DeclaredRules) : Entity ι :=
  { e with exactRules := rules.exact, additiveRules := rules.additive }

end Entity

namespace Scope

/-- Whether exact rules from above leave nothing to those that an entity declares: at the root the caller
gives an exact list, below it the inherited schema is strict. -/
def Overrules (s : Scope ι) : Prop :=
  match s.inherited with
  | none => s.options.only ≠ []
  | some inherited => inherited.isGreedy = false

/-- In an overruling scope the schema of an entity is the one without any declared rules. -/
theorem schema_eq_of_overrules {s : Scope ι} (overrules : s.Overrules) (declared : Options ι)
    {rules : DeclaredRules} (wellFormed : rules.WellFormed) :
    s.schema (s.options.layer declared) rules.exact rules.additive
      = s.schema (s.options.layer declared) [] [] := by
  obtain ⟨⟨exact, hexact⟩, additive, hadditive⟩ := wellFormed
  obtain ⟨inherited, options, depth⟩ := s
  cases inherited with
  | none => exact Schema.layered_of_ne_nil hexact hadditive overrules _
  | some inherited =>
    have strict : inherited.isGreedy = false := overrules
    have empty : Rule.parseAll [] = .ok [] := rfl
    have merge : ∀ t : Schema, t.merge inherited = inherited := by
      intro t
      simp [Schema.merge, strict]
    simp only [schema, Schema.layered_of_parseAll hexact hadditive empty empty,
      Schema.layered_of_parseAll empty empty empty empty, Except.map, merge]

end Scope

namespace Traversal

/-- Serializes an entity as `entity` does, but with other rules in place of those that it declares. They
may differ from place to place: a place is the list of an entity and those around it, the innermost
first, each with the scope that it is entered through. -/
def entityDeclaring (g : Graph ι) (declared : List (Scope ι × ι) → DeclaredRules) :
    Nat → List (Scope ι × ι) → Scope ι → ι → Run Json
  | 0, _, _, _ => Run.fail .nesting
  | hops + 1, around, scope, id => do
    let place := (scope, id) :: around
    let e := (g.entity id).declaring (declared place)
    let frame ← scope.enter (scope.options.layer e.options) e.exactRules e.additiveRules
    return .obj (← attributes g (entityDeclaring g declared hops place) e frame
      (attributeNames e frame) [])

/-- Once an entity has been entered its rules are not looked at any more. -/
theorem attributes_declaring (g : Graph ι) (enter : Scope ι → ι → Run Json) (e : Entity ι)
    (rules : DeclaredRules) (frame : Frame ι) (names : List String) (out : List (String × Json)) :
    attributes g enter (e.declaring rules) frame names out = attributes g enter e frame names out := by
  induction names generalizing out with
  | nil => simp only [attributes]
  | cons name names ih =>
    simp only [attributes, ih]
    rfl

/-- Rules that are replaced in overruling scopes alone leave an entity as it is. -/
theorem entityDeclaring_eq_entity {g : Graph ι} {declared : List (Scope ι × ι) → DeclaredRules}
    (h : ∀ around scope id, declared ((scope, id) :: around) = (g.entity id).rules ∨
      scope.Overrules ∧ (g.entity id).rules.WellFormed ∧
        (declared ((scope, id) :: around)).WellFormed)
    (hops : Nat) (around : List (Scope ι × ι)) :
    entityDeclaring g declared hops around = entity g hops := by
  induction hops generalizing around with
  | zero => rfl
  | succ hops ih =>
    funext scope id
    let e := g.entity id
    let rules := declared ((scope, id) :: around)
    have schema : scope.schema (scope.options.layer e.options) rules.exact rules.additive
        = scope.schema (scope.options.layer e.options) e.exactRules e.additiveRules := by
      rcases h around scope id with same | ⟨overrules, own, other⟩
      · rw [show rules = e.rules from same]
        rfl
      · rw [Scope.schema_eq_of_overrules overrules _ other]
        exact (Scope.schema_eq_of_overrules overrules _ own).symm
    have frame : scope.enter (scope.options.layer e.options) rules.exact rules.additive
        = scope.enter (scope.options.layer e.options) e.exactRules e.additiveRules := by
      simp only [Scope.enter, schema]
    simp only [entityDeclaring, ih, attributes_declaring]
    show (scope.enter (scope.options.layer e.options) rules.exact rules.additive >>= _) = _
    rw [frame]
    rfl

end Traversal

open Traversal

/-- Replacing the rules that entities declare by any others changes no run, neither its events nor its
result or failure, if they are replaced only at places with exact rules from above, at the root those of
the caller, and only by rules that can be read where the declared ones can. -/
theorem Serializer.serialize_eq_of_overruled (g : Graph ι) (o : Options ι)
    (declared : List (Scope ι × ι) → DeclaredRules)
    (h : ∀ around scope id, declared ((scope, id) :: around) = (g.entity id).rules ∨
      scope.Overrules ∧ (g.entity id).rules.WellFormed ∧
        (declared ((scope, id) :: around)).WellFormed) :
    (∀ id, entityDeclaring g declared (⟨g, o⟩ : Serializer ι).hops [] (.root o) id
      = (⟨g, o⟩ : Serializer ι).serialize id) ∧
    ∀ v, value g (entityDeclaring g declared (⟨g, o⟩ : Serializer ι).hops []) "<root>" (.root o) v
      = (⟨g, o⟩ : Serializer ι).serializeValue v := by
  have entities := entityDeclaring_eq_entity h (⟨g, o⟩ : Serializer ι).hops []
  rw [entities]
  exact ⟨fun id => rfl, fun v => rfl⟩

/-- An entity that refers to itself and declares an exact list. At the root the list counts; below it
the same list is overruled by what comes down of it, and any other does as well in its place. -/
theorem Serializer.serialize_eq_of_overruled_below_itself :
    ∃ (g : Graph Unit) (o : Options Unit) (declared : List (Scope Unit × Unit) → DeclaredRules)
      (scope : Scope Unit),
      (g.entity ()).rules = ⟨["id", "next.id"], []⟩ ∧ ¬ (Scope.root o).Overrules ∧
      scope.Overrules ∧ declared [(scope, ()), (.root o, ())] = ⟨["next"], ["-id"]⟩ ∧
      (∀ around scope id, declared ((scope, id) :: around) = (g.entity id).rules ∨
        scope.Overrules ∧ (g.entity id).rules.WellFormed ∧
          (declared ((scope, id) :: around)).WellFormed) ∧
      entityDeclaring g declared (⟨g, o⟩ : Serializer Unit).hops [] (.root o) ()
        = (⟨g, o⟩ : Serializer Unit).serialize () ∧
      ((⟨g, o⟩ : Serializer Unit).serialize ()).outcome
        = .ok (.obj [("id", .null), ("next", .obj [("id", .null)])]) := by
  let g : Graph Unit := ⟨fun _ => {
    typeName := "T"
    fieldNames := ["id", "next"]
    exactRules := ["id", "next.id"]
    read := fun name => .ok (if name = "id" then .scalar .null else .entity ()) }⟩
  let o : Options Unit := { maxDepth := some 3 }
  let own : DeclaredRules := ⟨["id", "next.id"], []⟩
  let other : DeclaredRules := ⟨["next"], ["-id"]⟩
  -- the other rules hold wherever something strict is inherited
  let declared : List (Scope Unit × Unit) → DeclaredRules := fun place =>
    if (place.head?.bind (·.1.inherited)).any (!·.isGreedy) then other else own
  let scope : Scope Unit := ⟨some ⟨.strict⟩, o, 1⟩
  have ownWellFormed : own.WellFormed := ⟨⟨_, rfl⟩, ⟨_, rfl⟩⟩
  have otherWellFormed : other.WellFormed := ⟨⟨_, rfl⟩, ⟨_, rfl⟩⟩
  have admitted : ∀ around scope id, declared ((scope, id) :: around) = (g.entity id).rules ∨
      scope.Overrules ∧ (g.entity id).rules.WellFormed ∧
        (declared ((scope, id) :: around)).WellFormed := by
    rintro around ⟨inherited, options, depth⟩ id
    cases inherited with
    | none => exact .inl rfl
    | some inherited =>
      cases mode : inherited.isGreedy with
      | true =>
        have kept : declared ((⟨some inherited, options, depth⟩, id) :: around) = own := by
          simp [declared, mode]
        exact .inl kept
      | false =>
        have replaced : declared ((⟨some inherited, options, depth⟩, id) :: around) = other := by
          simp [declared, mode]
        rw [replaced]
        exact .inr ⟨mode, ownWellFormed, otherWellFormed⟩
  have atRoot : ¬ (Scope.root o).Overrules := fun given => given rfl
  exact ⟨g, o, declared, scope, rfl, atRoot, rfl, rfl, admitted,
    (serialize_eq_of_overruled g o declared admitted).1 (), rfl⟩

end EntityJson
