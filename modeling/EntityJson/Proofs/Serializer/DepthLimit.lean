import EntityJson.Proofs.Serializer.Calls

/-!
# The depth limit

Under a limit of the caller's no entity is entered below it, and a value under a name is left out for
its depth exactly if it is about to lead there: no converter takes it, an entity or a deferred value
lies in it, and the frame it is read in is at the limit already (`Serializer.depth_limit`).

The limit is looked at once for a value under a name, which is scanned as it stands, and not again
within it. What carries the bound is therefore an invariant between the scan and the depth
(`Call.Within`): a value serialized in a scope below the limit holds neither an entity nor a deferred
value, so that no call that comes of it enters an entity.
-/

namespace EntityJson

variable {ι : Type} {g : Graph ι} {o : Options ι} {d : Nat}

namespace Call

/-- How deep the scope or the frame of a call lies. -/
def depth : Call ι → Nat
  | .shared scope _ | .entered scope _ => scope.depth
  | .named frame _ _ => frame.depth

/-- How deep a call enters entities at least. -/
def level : Call ι → Nat
  | .shared scope _ | .entered scope _ => scope.depth
  | .named frame _ _ => frame.depth + 1

/-- A call under a limit of depth: what it serializes in a scope below the limit leads to no entity. -/
def Within (d : Nat) : Call ι → Prop
  | .shared scope v | .entered scope v =>
    scope.options.maxDepth = some d ∧ (v.reachesEntity → scope.depth ≤ d)
  | .named frame _ _ => frame.options.maxDepth = some d

/-- The limit of the caller counts before those that entities declare. -/
theorem maxDepth_layer {declared : Options ι} (limit : o.maxDepth = some d) :
    (o.layer declared).maxDepth = some d := by
  show o.maxDepth.or declared.maxDepth = some d
  rw [limit]
  rfl

/-- All calls that come of a call under a limit are under it. -/
theorem handedOn_within : HandedOn g (Within d) := by
  intro c c' makes within
  cases makes with
  | sharedDeferred => exact ⟨within.1, fun _ => within.2 rfl⟩
  | shared _ _ => exact within
  | namedDeferred => exact within
  | named _ _ uncut =>
    -- the one place where the limit is looked at: what passes holds nothing or lies above
    refine ⟨within, fun reaches => Nat.lt_of_not_le fun deep => ?_⟩
    rw [(Frame.isCut_iff within).mpr ⟨deep, reaches⟩] at uncut
    cases uncut
  | entry entered _ _ =>
    show Options.maxDepth (Frame.options _) = some d
    rw [(Scope.of_enter_eq_pure entered).1]
    exact within.1
  | item mem => exact ⟨within.1, fun reaches => within.2 (Value.anyItem_iff.mpr ⟨_, mem, reaches⟩)⟩
  | read entered _ _ _ =>
    show Options.maxDepth (Frame.options _) = some d
    rw [(Scope.of_enter_eq_pure entered).1]
    exact maxDepth_layer within.1

theorem IsRoot.within {c : Call ι} (root : c.IsRoot o) (limit : o.maxDepth = some d) :
    c.Within d := by
  cases root with
  | entity id => exact ⟨limit, fun _ => Nat.zero_le d⟩
  | value v => exact ⟨limit, fun _ => Nat.zero_le d⟩

/-- A step descends by the keys that it says. -/
theorem Makes.depth_eq {c c' : Call ι} (makes : Makes g c c') :
    c'.depth = c.depth + (c.keys c').length := by
  cases makes with
  | entry entered _ _ => exact (Scope.of_enter_eq_pure entered).2
  | read entered _ _ _ => exact (Scope.of_enter_eq_pure entered).2
  | _ => rfl

/-- The depth of a call is the number of keys that lead to it. -/
theorem Reaches.depth_eq {start c : Call ι} {path : List String} (h : Reaches g start path c) :
    c.depth = start.depth + path.length := by
  induction h with
  | start => rfl
  | next _ makes ih => rw [makes.depth_eq, ih, List.length_append, Nat.add_assoc]

theorem IsRoot.depth_eq {c : Call ι} (root : c.IsRoot o) : c.depth = 0 := by
  cases root <;> rfl

/-- No call enters entities less deep than the one that makes it. -/
theorem Makes.level_le {c c' : Call ι} (makes : Makes g c c') : c.level ≤ c'.level := by
  cases makes with
  | entry entered _ _ | read entered _ _ _ =>
    show _ ≤ Frame.depth _ + 1
    rw [(Scope.of_enter_eq_pure entered).2]
    exact Nat.le_succ _
  | _ => exact Nat.le_refl _

/-- What comes of an attribute of an entity lies deeper than the entity. -/
theorem Makes.lt_level {scope : Scope ι} {id : ι} {c : Call ι}
    (makes : Makes g (.entered scope (.entity id)) c) : scope.depth < c.level := by
  cases makes with
  | read entered _ _ _ =>
    show _ < Frame.depth _ + 1
    rw [(Scope.of_enter_eq_pure entered).2]
    exact Nat.lt_succ_self _

end Call

/-! ## What is left out -/

namespace Traversal

theorem map_some_outcome_ne {α : Type} (x : Run α) : (some <$> x).outcome ≠ .ok none := by
  obtain ⟨events, outcome⟩ := x
  cases outcome <;> exact nofun

theorem convertedUnder_outcome_eq_none_iff {frame : Frame ι} {name : String} {v : Value ι}
    {entered : Unit → Run Json} :
    (convertedUnder g frame name v entered).outcome = .ok none
      ↔ frame.options.convertByName? name v = none ∧ frame.isCut g v := by
  unfold convertedUnder
  cases frame.options.convertByName? name v with
  | some run => exact ⟨fun h => absurd h (map_some_outcome_ne run), nofun⟩
  | none =>
    by_cases cut : frame.isCut g v
    · rw [if_pos cut]
      exact ⟨fun _ => ⟨rfl, cut⟩, fun _ => rfl⟩
    · rw [if_neg cut]
      exact ⟨fun h => absurd h (map_some_outcome_ne _), fun h => absurd h.2 cut⟩

theorem convertByName?_eq_none_iff {name : String} {v : Value ι} :
    o.convertByName? name v = none
      ↔ o.attributeConverter? name = none ∧ o.typeConverter? v = none ∧
        o.convertBuiltin? v = none := by
  unfold Options.convertByName? Options.convertByType?
  cases o.attributeConverter? name with
  | some c => exact ⟨nofun, nofun⟩
  | none =>
    cases o.typeConverter? v with
    | some c => exact ⟨nofun, nofun⟩
    | none =>
      show (o.convertBuiltin? v).map Run.ofExcept = none ↔ _
      rw [Option.map_eq_none_iff]
      exact ⟨fun none => ⟨rfl, rfl, none⟩, fun none => none.2.2⟩

/-- What holds an entity or a deferred value has no form of its own. -/
theorem convertBuiltin?_of_holds {v : Value ι} (h : v.Holds) : o.convertBuiltin? v = none := by
  cases h <;> rfl

/-- A value under a name is left out if it is worked out to one that no converter takes and that is
cut. -/
theorem named_outcome_eq_none_iff_isCut {enter : Scope ι → ι → Run Json} {frame : Frame ι}
    {name : String} : (v : Value ι) →
      ((named g enter frame name v).outcome = .ok none
        ↔ ∃ w, v.resolve = .ok w ∧ frame.options.convertByName? name w = none ∧ frame.isCut g w)
  | .map _ | .seq _ | .entity _ | .scalar _ | .member _ _ _ | .foreign _ _ => by
    rw [named, convertedUnder_outcome_eq_none_iff]
    exact ⟨fun h => ⟨_, rfl, h⟩, fun ⟨_, same, h⟩ => Except.ok.inj same ▸ h⟩
  | .deferred label (.ok v) => by
    have later : (named g enter frame name (.deferred label (.ok v))).outcome
        = (named g enter frame name v).outcome := rfl
    rw [later]
    exact named_outcome_eq_none_iff_isCut v
  | .deferred _ (.error _) => ⟨nofun, nofun⟩

/-- A value under a name is left out exactly if no converter takes what it is worked out to, an entity
or a deferred value lies in that, and the frame is at the limit. -/
theorem named_outcome_eq_none_iff {enter : Scope ι → ι → Run Json} {frame : Frame ι} {name : String}
    (limit : frame.options.maxDepth = some d) (v : Value ι) {w : Value ι} (resolved : v.resolve = .ok w) :
    (named g enter frame name v).outcome = .ok none
      ↔ frame.options.attributeConverter? name = none ∧ frame.options.typeConverter? w = none ∧
        w.Holds ∧ d ≤ frame.depth := by
  rw [named_outcome_eq_none_iff_isCut]
  constructor
  · rintro ⟨w', resolved', unconverted, cut⟩
    obtain rfl : w = w' := Except.ok.inj (resolved.symm.trans resolved')
    rw [Frame.isCut_iff limit, Value.reachesEntity_iff] at cut
    obtain ⟨named, typed, -⟩ := convertByName?_eq_none_iff.mp unconverted
    exact ⟨named, typed, cut.2, cut.1⟩
  · rintro ⟨named, typed, holds, deep⟩
    refine ⟨w, resolved, convertByName?_eq_none_iff.mpr ⟨named, typed, convertBuiltin?_of_holds holds⟩, ?_⟩
    rw [Frame.isCut_iff limit, Value.reachesEntity_iff]
    exact ⟨deep, holds⟩

/-! ## What is entered -/

/-- Serializes an entity as `entity` does, but does something else where one is entered that lies
deeper than a limit, or within more others than are allowed. -/
def entityWithin (g : Graph ι) (d : Nat) (beyond : Scope ι → ι → Run Json) :
    Nat → Scope ι → ι → Run Json
  | 0, scope, id => beyond scope id
  | hops + 1, scope, id =>
    if scope.depth ≤ d then entityWith g (entityWithin g d beyond hops) scope id
    else beyond scope id

/-- Under a limit neither happens, if as many entities are allowed as there are depths left. -/
theorem entity_eq_entityWithin {beyond : Scope ι → ι → Run Json} {hops hops' : Nat}
    {scope : Scope ι} {id : ι} (within : (Call.entered scope (.entity id)).Within d)
    (enough : d < scope.depth + hops) (enough' : d < scope.depth + hops') :
    entity g hops scope id = entityWithin g d beyond hops' scope id := by
  have above : scope.depth ≤ d := within.2 rfl
  induction hops generalizing hops' scope id with
  | zero => omega
  | succ hops ih =>
    cases hops' with
    | zero => omega
    | succ hops' =>
      rw [entity, entityWithin, if_pos above]
      -- each entity within this one lies deeper, so one less is enough for it
      have handedOn : Call.HandedOn g fun c => c.Within d ∧ scope.depth < c.level :=
        fun makes ⟨within, deeper⟩ =>
          ⟨Call.handedOn_within makes within, Nat.lt_of_lt_of_le deeper makes.level_le⟩
      refine entityWith_congr handedOn (fun scope' id' ⟨within', deeper⟩ => ?_) fun makes =>
        ⟨Call.handedOn_within makes within, makes.lt_level⟩
      have deeper : scope.depth < scope'.depth := deeper
      exact ih within' (by omega) (by omega) (within'.2 rfl)

/-- The same holds of what is entered from any value. -/
theorem value_eq_entityWithin {beyond : Scope ι → ι → Run Json} {hops hops' : Nat}
    {scope : Scope ι} {v : Value ι} (within : (Call.shared scope v).Within d) (place : String)
    (enough : d < hops) (enough' : d < hops') :
    value g (entity g hops) place scope v
      = value g (entityWithin g d beyond hops') place scope v :=
  value_congr Call.handedOn_within (fun _ _ within' =>
    entity_eq_entityWithin within' (by omega) (by omega)) v within place

end Traversal

open Traversal

namespace Serializer

theorem hops_of_maxDepth (limit : o.maxDepth = some d) : (⟨g, o⟩ : Serializer ι).hops = d + 1 := by
  unfold Serializer.hops
  rw [limit]

/-- Serializing an entity under a limit enters none below it, and allows as many as are needed. -/
theorem serialize_eq_entityWithin (limit : o.maxDepth = some d) {beyond : Scope ι → ι → Run Json}
    {hops : Nat} (enough : d < hops) (id : ι) :
    (⟨g, o⟩ : Serializer ι).serialize id = entityWithin g d beyond hops (.root o) id := by
  have within := (Call.IsRoot.entity id).within limit
  unfold serialize
  rw [hops_of_maxDepth limit]
  exact entity_eq_entityWithin within (by omega) (by omega)

/-- So does serializing any value. -/
theorem serializeValue_eq_entityWithin (limit : o.maxDepth = some d)
    {beyond : Scope ι → ι → Run Json} {hops : Nat} (enough : d < hops) (v : Value ι) :
    (⟨g, o⟩ : Serializer ι).serializeValue v
      = value g (entityWithin g d beyond hops) "<root>" (.root o) v := by
  have within := (Call.IsRoot.value v).within limit
  unfold serializeValue
  rw [hops_of_maxDepth limit]
  exact value_eq_entityWithin within "<root>" (by omega) enough

/-- Any bound beyond the limit on how many entities are entered one within the other gives the same
run. -/
theorem serialize_eq_entity (limit : o.maxDepth = some d) {hops : Nat} (enough : d < hops) (id : ι) :
    (⟨g, o⟩ : Serializer ι).serialize id = entity g hops (.root o) id := by
  -- what would be done beyond the bounds does not matter
  let blank : Scope ι → ι → Run Json := fun _ _ => pure .null
  have within := (Call.IsRoot.entity id).within limit
  have bounded : entity g hops (.root o) id = entityWithin g d blank hops (.root o) id :=
    entity_eq_entityWithin within (by omega) (by omega)
  exact (serialize_eq_entityWithin limit enough id).trans bounded.symm

theorem serializeValue_eq_entity (limit : o.maxDepth = some d) {hops : Nat} (enough : d < hops)
    (v : Value ι) :
    (⟨g, o⟩ : Serializer ι).serializeValue v = value g (entity g hops) "<root>" (.root o) v := by
  let blank : Scope ι → ι → Run Json := fun _ _ => pure .null
  have within := (Call.IsRoot.value v).within limit
  have bounded : value g (entity g hops) "<root>" (.root o) v
      = value g (entityWithin g d blank hops) "<root>" (.root o) v :=
    value_eq_entityWithin within "<root>" enough enough
  exact (serializeValue_eq_entityWithin limit enough v).trans bounded.symm

end Serializer

/-- Under a limit of the caller's the depth of what is serialized is the number of keys that lead to
it, and

1. no entity is entered below the limit: the run is the same whatever would be done there, and of all
   calls that come of the root those that enter an entity lie at the limit or above;
2. a value under a name, worked out without error, is left out exactly if no converter takes it, an
   entity or a deferred value lies in it, and it is read at the limit or below. -/
theorem Serializer.depth_limit (g : Graph ι) (o : Options ι) (limit : o.maxDepth = some d) :
    (∀ beyond hops, d < hops →
      (∀ id, entityWithin g d beyond hops (.root o) id = (⟨g, o⟩ : Serializer ι).serialize id) ∧
      ∀ v, value g (entityWithin g d beyond hops) "<root>" (.root o) v
        = (⟨g, o⟩ : Serializer ι).serializeValue v) ∧
    ∀ start path, Call.IsRoot o start →
      (∀ scope id, Call.Reaches g start path (.entered scope (.entity id)) →
        scope.depth = path.length ∧ scope.depth ≤ d) ∧
      ∀ frame name v w, Call.Reaches g start path (.named frame name v) → v.resolve = .ok w →
        frame.depth = path.length ∧
        ∀ enter, (named g enter frame name v).outcome = .ok none
          ↔ frame.options.attributeConverter? name = none ∧
            frame.options.typeConverter? w = none ∧ w.Holds ∧ d ≤ frame.depth := by
  refine ⟨fun beyond hops enough => ⟨fun id => ?_, fun v => ?_⟩, fun start path root => ⟨?_, ?_⟩⟩
  · exact (serialize_eq_entityWithin limit enough id).symm
  · exact (serializeValue_eq_entityWithin limit enough v).symm
  · intro scope id reached
    have within := Call.handedOn_within.of_reaches reached (root.within limit)
    have depth := reached.depth_eq
    rw [root.depth_eq, Nat.zero_add] at depth
    exact ⟨depth, within.2 rfl⟩
  · intro frame name v w reached resolved
    have within := Call.handedOn_within.of_reaches reached (root.within limit)
    have depth := reached.depth_eq
    rw [root.depth_eq, Nat.zero_add] at depth
    exact ⟨depth, fun enter => named_outcome_eq_none_iff within v resolved⟩

/-- An entity that refers to itself is entered twice under a limit of one key, and the second time it
leaves itself out. -/
theorem Serializer.depth_limit_of_cycle :
    ∃ (g : Graph Unit) (o : Options Unit) (frame : Frame Unit),
      o.maxDepth = some 1 ∧ (Call.entered (.root o) (.entity ())).IsRoot o ∧
      (∀ beyond, entityWithin g 1 beyond 2 (.root o) () = (⟨g, o⟩ : Serializer Unit).serialize ()) ∧
      Call.Reaches g (.entered (.root o) (.entity ())) ["self"] (.named frame "self" (.entity ())) ∧
      frame.depth = 1 ∧ (∀ enter, (named g enter frame "self" (.entity ())).outcome = .ok none) ∧
      ((⟨g, o⟩ : Serializer Unit).serialize ()).outcome = .ok (.obj [("self", .obj [])]) := by
  let g : Graph Unit :=
    ⟨fun _ => { typeName := "T", fieldNames := ["self"], read := fun _ => .ok (.entity ()) }⟩
  let o : Options Unit := { maxDepth := some 1 }
  let outer : Frame Unit := ⟨.keepAll, o.layer {}, 0⟩
  let inner : Frame Unit := ⟨.keepAll, outer.options.forNested.layer {}, 1⟩
  let v : Value Unit := .entity ()
  have limit : o.maxDepth = some 1 := rfl
  have root : (Call.entered (.root o) v).IsRoot o := .entity ()
  obtain ⟨within, calls⟩ := depth_limit g o limit
  have first : Call.Makes g (.entered (.root o) v) (.named outer "self" v) :=
    .read rfl (List.mem_singleton_self _) rfl rfl
  have second : Call.Makes g (.named outer "self" v) (.entered (outer.under "self") v) :=
    .named rfl rfl rfl
  have third : Call.Makes g (.entered (outer.under "self") v) (.named inner "self" v) :=
    .read rfl (List.mem_singleton_self _) rfl rfl
  have reached : Call.Reaches g (.entered (.root o) v) ["self"] (.named inner "self" v) :=
    ((Call.Reaches.start.next first).next second).next third
  obtain ⟨depth, leftOut⟩ := (calls _ _ root).2 _ _ _ _ reached rfl
  refine ⟨g, o, inner, limit, root, fun beyond => (within beyond 2 (by decide)).1 (), reached, depth,
    fun enter => (leftOut enter).mpr ⟨rfl, rfl, .entity (), Nat.le_of_eq depth.symm⟩, rfl⟩

end EntityJson
