import EntityJson.Proofs.Serializer.DepthLimit
import EntityJson.Proofs.Serializer.Lockstep

/-!
# A smaller depth limit

Under a smaller depth limit a serialization that has succeeded succeeds again, and what it gives is a
part of what it gave: members of objects are left out at any level, and nothing else changes
(`Serializer.partOf_of_smaller_limit`).

Side by side the two runs part only where the smaller limit leaves a value out that the larger one
enters. Two options would let the difference spread. A lenient sequence leaves an item out that cannot
be serialized, which it may not do once the cause is cut away; and an object from which something is
cut may become a value that is to be dropped. So sequences are strict and nothing is dropped here.
-/

namespace EntityJson

/-! ## Parts of JSON values -/

mutual

/-- A JSON value from which members of objects have been left out, at any level. -/
inductive Json.PartOf : Json → Json → Prop where
  | null : PartOf .null .null
  | bool (b : Bool) : PartOf (.bool b) (.bool b)
  | int (n : Int) : PartOf (.int n) (.int n)
  | float (x : Binary64) : PartOf (.float x) (.float x)
  | str (s : String) : PartOf (.str s) (.str s)
  | arr {xs ys : List Json} : List.Forall₂ PartOf xs ys → PartOf (.arr xs) (.arr ys)
  | obj {ms ns : List (String × Json)} : MembersPartOf ms ns → PartOf (.obj ms) (.obj ns)

/-- Members in the same order with parts of the same values, of which some have been left out. -/
inductive Json.MembersPartOf : List (String × Json) → List (String × Json) → Prop where
  | nil : MembersPartOf [] []
  | kept {key : String} {a b : Json} {ms ns : List (String × Json)} :
      PartOf a b → MembersPartOf ms ns → MembersPartOf ((key, a) :: ms) ((key, b) :: ns)
  | leftOut {n : String × Json} {ms ns : List (String × Json)} :
      MembersPartOf ms ns → MembersPartOf ms (n :: ns)

end

namespace Json

mutual

/-- Everything is a part of itself. -/
theorem partOf_refl : (j : Json) → j.PartOf j
  | null => .null
  | bool b => .bool b
  | int n => .int n
  | float x => .float x
  | str s => .str s
  | arr items => .arr (itemsPartOf_refl items)
  | obj members => .obj (membersPartOf_refl members)

theorem itemsPartOf_refl : (xs : List Json) → List.Forall₂ PartOf xs xs
  | [] => .nil
  | x :: xs => .cons (partOf_refl x) (itemsPartOf_refl xs)

theorem membersPartOf_refl : (ms : List (String × Json)) → MembersPartOf ms ms
  | [] => .nil
  | (_, x) :: ms => .kept (partOf_refl x) (membersPartOf_refl ms)

end

end Json

/-! ## Options with one limit and with another -/

variable {ι : Type} {g : Graph ι} {d d' : Nat}

/-- The options with a depth limit. -/
def Options.limited (o : Options ι) (d : Nat) : Options ι :=
  { o with maxDepth := some d }

/-- Options that are strict about sequences and drop nothing, with two limits. -/
inductive LimitsDiffer (d d' : Nat) : Options ι → Options ι → Prop where
  | intro (o : Options ι) : o.strictCollections = some true → o.dropValues = some [] →
      LimitsDiffer d d' (o.limited d) (o.limited d')

/-- Under a limit values have the forms that they have without it. -/
theorem Options.convertByType?_limited (o : Options ι) (d : Nat) (name : Option String)
    (v : Value ι) : (o.limited d).convertByType? name v = o.convertByType? name v := by
  have converters : (o.limited d).typeConverters = o.typeConverters := rfl
  exact convertByType?_congr converters rfl rfl name v

theorem Options.convertByName?_limited (o : Options ι) (d : Nat) (name : String) (v : Value ι) :
    (o.limited d).convertByName? name v = o.convertByName? name v := by
  have named : (o.limited d).attributeConverters = o.attributeConverters := rfl
  exact convertByName?_congr named rfl rfl rfl name v

/-- Nothing is dropped, so what is left out is left out by the limit. -/
theorem Options.drops_limited {o : Options ι} (none : o.dropValues = some []) (d : Nat) (j : Json) :
    (o.limited d).drops j = false := by
  show (o.dropValues.getD []).any (·.eq j) = false
  rw [none]
  rfl

theorem LimitsDiffer.maxDepth {o o' : Options ι} (h : LimitsDiffer d d' o o') :
    o.maxDepth = some d ∧ o'.maxDepth = some d' := by
  cases h
  exact ⟨rfl, rfl⟩

/-- A form that a value has under both limits is the same, and part of itself. -/
theorem Option.rel_follows_self {loose : Prop} {J : Json → Json → Prop} (refl : ∀ j, J j j)
    (form : Option (Run Json)) : Option.Rel (Run.Follows loose J) form form := by
  cases form with
  | none => exact .none
  | some run => exact .some (Run.follows_self fun j _ => refl j)

open Traversal

/-- Under a smaller limit a serialization follows loosely, with parts as results. -/
theorem lockstep_of_le (g : Graph ι) (le : d ≤ d') :
    Lockstep g True (LimitsDiffer d d') Json.PartOf Json.MembersPartOf where
  layer id h := by
    obtain ⟨o, strict, drops⟩ := h
    refine .intro (o.layer (g.entity id).options) ?_ ?_
    · show o.strictCollections.or _ = some true
      rw [strict]
      rfl
    · show o.dropValues.or _ = some []
      rw [drops]
      rfl
  forNested h := by
    obtain ⟨o, strict, drops⟩ := h
    exact .intro o.forNested strict drops
  rules h := by
    cases h
    exact ⟨rfl, rfl⟩
  names h := by
    cases h
    exact ⟨rfl, rfl⟩
  byType h name v := by
    cases h
    rw [Options.convertByType?_limited, Options.convertByType?_limited]
    exact Option.rel_follows_self Json.partOf_refl _
  byName h name v := by
    cases h
    rw [Options.convertByName?_limited, Options.convertByName?_limited]
    exact Option.rel_follows_self Json.partOf_refl _
  cut along v := by
    obtain ⟨limit, limit'⟩ := along.options.maxDepth
    rcases Bool.eq_false_or_eq_true (Frame.isCut _ g v) with cut | uncut
    · obtain ⟨deep, reaches⟩ := (Frame.isCut_iff limit').mp cut
      rw [← along.depth] at deep
      exact .inl (((Frame.isCut_iff limit).mpr ⟨Nat.le_trans le deep, reaches⟩).trans cut.symm)
    · exact .inr ⟨trivial, uncut⟩
  strict h := by
    obtain ⟨o, strict, -⟩ := h
    refine ⟨rfl, fun _ => ?_⟩
    show o.strictCollections.getD false = true
    rw [strict]
    rfl
  array := .arr
  object := .obj
  nil := .nil
  entry h name a b kept ms ns rest := by
    obtain ⟨o, -, drops⟩ := h
    have written : ∀ d j es, withEntry (o.limited d) name (some j) es = (name, j) :: es := by
      intro d j es
      rw [withEntry, Options.drops_limited drops, if_neg Bool.false_ne_true]
    cases a with
    | some a =>
      cases b with
      | some b =>
        rw [written, written]
        exact .kept kept rest
      | none => exact False.elim kept
    | none =>
      cases b with
      | some b =>
        rw [written]
        exact .leftOut rest
      | none => exact rest

/-- Where sequences are strict and nothing is dropped, a serialization that succeeds under a depth limit
succeeds under a smaller one, with a part of the result. -/
theorem Serializer.partOf_of_smaller_limit (g : Graph ι) (o : Options ι) (le : d ≤ d')
    (strict : o.strictCollections = some true) (drops : o.dropValues = some []) :
    (∀ id j', ((⟨g, { o with maxDepth := some d' }⟩ : Serializer ι).serialize id).outcome = .ok j' →
      ∃ j, ((⟨g, { o with maxDepth := some d }⟩ : Serializer ι).serialize id).outcome = .ok j ∧
        j.PartOf j') ∧
    ∀ v j', ((⟨g, { o with maxDepth := some d' }⟩ : Serializer ι).serializeValue v).outcome = .ok j' →
      ∃ j, ((⟨g, { o with maxDepth := some d }⟩ : Serializer ι).serializeValue v).outcome = .ok j ∧
        j.PartOf j' := by
  have step := lockstep_of_le g le
  have roots : (Scope.root (o.limited d)).Alongside (LimitsDiffer d d') (.root (o.limited d')) :=
    ⟨rfl, .intro o strict drops, rfl⟩
  have limit : (o.limited d).maxDepth = some d := rfl
  have limit' : (o.limited d').maxDepth = some d' := rfl
  have enough : d < d' + 1 := Nat.lt_succ_of_le le
  refine ⟨fun id j' => ?_, fun v j' => ?_⟩
  · show ((⟨g, o.limited d'⟩ : Serializer ι).serialize id).outcome = .ok j' →
      ∃ j, ((⟨g, o.limited d⟩ : Serializer ι).serialize id).outcome = .ok j ∧ j.PartOf j'
    rw [serialize_eq_entity limit enough, serialize_eq_entity limit' (Nat.lt_succ_self d')]
    exact (entity_follows step (d' + 1) roots id).ok
  · show ((⟨g, o.limited d'⟩ : Serializer ι).serializeValue v).outcome = .ok j' →
      ∃ j, ((⟨g, o.limited d⟩ : Serializer ι).serializeValue v).outcome = .ok j ∧ j.PartOf j'
    rw [serializeValue_eq_entity limit enough, serializeValue_eq_entity limit' (Nat.lt_succ_self d')]
    exact (value_follows step (fun along => entity_follows step (d' + 1) along) v roots "<root>").ok

/-- Two entities that refer to each other through sequences and maps, one key further under the larger
limit. -/
theorem Serializer.partOf_of_smaller_limit_of_cycle :
    ∃ (g : Graph Bool) (o : Options Bool) (j j' : Json),
      o.strictCollections = some true ∧ o.dropValues = some [] ∧
      (∀ id, (g.entity id).read "others" = .ok (.seq [.map [("next", .entity !id)], .scalar .null])) ∧
      ((⟨g, { o with maxDepth := some 2 }⟩ : Serializer Bool).serializeValue
        (.seq [.entity true])).outcome = .ok j' ∧
      ((⟨g, { o with maxDepth := some 0 }⟩ : Serializer Bool).serializeValue
        (.seq [.entity true])).outcome = .ok j ∧
      j.PartOf j' ∧ j = .arr [.obj [("id", .bool true)]] ∧
      j' = .arr [.obj [("id", .bool true),
        ("others", .arr [.obj [("next", .obj [("id", .bool false)])], .null])]] := by
  let g : Graph Bool := ⟨fun id => {
    typeName := "T"
    fieldNames := ["id", "others"]
    read := fun name => .ok <| if name = "id" then .scalar (.bool id)
      else .seq [.map [("next", .entity !id)], .scalar .null] }⟩
  let o : Options Bool := { strictCollections := some true, dropValues := some [] }
  obtain ⟨-, values⟩ := partOf_of_smaller_limit g o (Nat.zero_le 2) rfl rfl
  obtain ⟨j, result, part⟩ := values (.seq [.entity true]) _ rfl
  have computed : ((⟨g, { o with maxDepth := some 0 }⟩ : Serializer Bool).serializeValue
      (.seq [.entity true])).outcome = .ok (.arr [.obj [("id", .bool true)]]) := rfl
  cases computed.symm.trans result
  exact ⟨g, o, _, _, rfl, rfl, fun _ => rfl, rfl, computed, part, rfl, rfl⟩

end EntityJson
