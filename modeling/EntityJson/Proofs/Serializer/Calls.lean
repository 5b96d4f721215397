import EntityJson.Serializer.Basic

/-!
# The calls of a traversal

Serializing comes down to **calls** of three kinds: a value is serialized in a scope that it shares
with its surroundings, the value under a name is serialized in a frame, and a map, a sequence or an
entity is entered through a scope. `Call.Makes` says which calls a call makes. It follows references
from entity to entity, so it may go in circles where the graph does.

What holds of a call and is handed on to all that it makes (`Call.HandedOn`) holds of every call of a
run. The traversal itself takes the way of entering an entity as a parameter, and it uses it for no
other calls than these: two ways of entering that agree wherever the property holds give the same run
(`Traversal.value_congr`, `Traversal.entityWith_congr`).
-/

namespace EntityJson

variable {ι : Type}

/-! ## Values that are worked out, and what is found in them -/

namespace Value

/-- Works a value out until it is not deferred. -/
def resolve : Value ι → Except String (Value ι)
  | .deferred _ (.ok v) => resolve v
  | .deferred _ (.error cause) => .error cause
  | v => .ok v

/-- A value is an entity or a deferred value, or holds one in maps and sequences. -/
inductive Holds : Value ι → Prop where
  | entity (id : ι) : Holds (.entity id)
  | deferred (label : String) (outcome : Except String (Value ι)) : Holds (.deferred label outcome)
  | entry {es : List (String × Value ι)} {key : String} {v : Value ι} :
      (key, v) ∈ es → Holds v → Holds (.map es)
  | item {vs : List (Value ι)} {v : Value ι} : v ∈ vs → Holds v → Holds (.seq vs)

/-- The search through entries and items, said with members. -/
theorem anyEntry_iff {es : List (String × Value ι)} :
    reachesEntity.anyEntry es ↔ ∃ e ∈ es, e.2.reachesEntity := by
  induction es with
  | nil => exact ⟨nofun, nofun⟩
  | cons e rest ih => simp [reachesEntity.anyEntry, ih]

theorem anyItem_iff {vs : List (Value ι)} :
    reachesEntity.anyItem vs ↔ ∃ v ∈ vs, v.reachesEntity := by
  induction vs with
  | nil => exact ⟨nofun, nofun⟩
  | cons v rest ih => simp [reachesEntity.anyItem, ih]

/-- An entity that a value holds is found in it. -/
theorem reachesEntity_of_holds {v : Value ι} (h : v.Holds) : v.reachesEntity := by
  induction h with
  | entity id => rfl
  | deferred label outcome => rfl
  | entry mem _ ih => exact anyEntry_iff.mpr ⟨_, mem, ih⟩
  | item mem _ ih => exact anyItem_iff.mpr ⟨_, mem, ih⟩

mutual

/-- What is found is held: the search does not go anywhere else. -/
theorem holds_of_reachesEntity : (v : Value ι) → v.reachesEntity → v.Holds
  | .entity id, _ => .entity id
  | .deferred label outcome, _ => .deferred label outcome
  | .map es, h =>
    let ⟨_, mem, holds⟩ := entry_of_anyEntry es h
    .entry mem holds
  | .seq vs, h =>
    let ⟨_, mem, holds⟩ := item_of_anyItem vs h
    .item mem holds

theorem entry_of_anyEntry :
    (es : List (String × Value ι)) → reachesEntity.anyEntry es →
      ∃ e : String × Value ι, e ∈ es ∧ e.2.Holds
  | (key, v) :: rest, h => by
    rcases Bool.or_eq_true_iff.mp h with here | later
    · exact ⟨_, List.mem_cons_self, holds_of_reachesEntity v here⟩
    · obtain ⟨e, mem, holds⟩ := entry_of_anyEntry rest later
      exact ⟨e, List.mem_cons_of_mem _ mem, holds⟩

theorem item_of_anyItem :
    (vs : List (Value ι)) → reachesEntity.anyItem vs → ∃ v ∈ vs, Holds v
  | v :: rest, h => by
    rcases Bool.or_eq_true_iff.mp h with here | later
    · exact ⟨v, List.mem_cons_self, holds_of_reachesEntity v here⟩
    · obtain ⟨w, mem, holds⟩ := item_of_anyItem rest later
      exact ⟨w, List.mem_cons_of_mem _ mem, holds⟩

end

/-- The scan of a raw value finds exactly what lies in its maps and sequences. -/
theorem reachesEntity_iff {v : Value ι} : v.reachesEntity ↔ v.Holds :=
  ⟨holds_of_reachesEntity v, reachesEntity_of_holds⟩

end Value

/-! ## Calls -/

/-- A value that opens a scope has no form of its own, so only a converter for its kind takes it. -/
theorem Options.convertByType?_of_isNested {o : Options ι} {v : Value ι} (nested : v.isNested)
    (unmatched : ∀ c ∈ o.typeConverters, c.matcher ≠ .kind v.kind) (name : Option String) :
    o.convertByType? name v = none := by
  have builtin : o.convertBuiltin? v = none := by
    cases v <;> first | rfl | cases nested
  have untaken : o.typeConverter? v = none := by
    apply List.find?_eq_none.mpr
    intro c mem taken
    have other := unmatched c mem
    simp only [TypeConverter.takes] at taken
    cases matcher : c.matcher with
    | kind kind =>
      simp only [matcher, Matcher.takes, decide_eq_true_eq] at taken
      exact other (by rw [matcher, taken])
    | foreign typeName =>
      rw [matcher] at taken
      cases v <;> simp [Value.isNested, Matcher.takes] at nested taken
  simp only [convertByType?, untaken, builtin, Option.map_none]

/-- Where the options set a limit, it counts for every value, and a declared one does not. -/
theorem Frame.isCut_iff {g : Graph ι} {frame : Frame ι} {v : Value ι} {limit : Nat}
    (h : frame.options.maxDepth = some limit) :
    frame.isCut g v ↔ limit ≤ frame.depth ∧ v.reachesEntity := by
  unfold Frame.isCut
  rw [h]
  show (decide (limit ≤ frame.depth) && v.reachesEntity) = true ↔ _
  rw [Bool.and_eq_true, decide_eq_true_iff]

/-- The frame of the entries of a map. -/
def Scope.enterMap (scope : Scope ι) : Run (Frame ι) :=
  scope.enter scope.options [] []

/-- The frame of the attributes of an entity. -/
def Scope.enterEntity (scope : Scope ι) (g : Graph ι) (id : ι) : Run (Frame ι) :=
  let e := g.entity id
  scope.enter (scope.options.layer e.options) e.exactRules e.additiveRules

/-- Entering fails, or gives a frame with the options it is given, at the depth of the scope. -/
theorem Scope.enter_cases (scope : Scope ι) (o : Options ι) (exact additive : List String) :
    (∃ schema, scope.enter o exact additive = pure ⟨schema, o, scope.depth⟩) ∨
      ∃ e : RuleError, scope.enter o exact additive = Run.fail (.rule e) := by
  unfold Scope.enter
  cases scope.schema o exact additive with
  | error e => exact .inr ⟨e, rfl⟩
  | ok s => exact .inl ⟨s, rfl⟩

/-- A frame has the options it was entered with, and the depth of its scope. -/
theorem Scope.of_enter_eq_pure {scope : Scope ι} {o : Options ι} {exact additive : List String}
    {frame : Frame ι} (h : scope.enter o exact additive = pure frame) :
    frame.options = o ∧ frame.depth = scope.depth := by
  rcases scope.enter_cases o exact additive with ⟨schema, entered⟩ | ⟨e, failed⟩
  · cases congrArg Run.outcome (h.symm.trans entered)
    exact ⟨rfl, rfl⟩
  · cases congrArg Run.outcome (h.symm.trans failed)

/-- A call of the traversal. -/
inductive Call (ι : Type) where
  /-- A value is serialized in a scope that it shares: the root, or an item of a sequence. -/
  | shared (scope : Scope ι) (v : Value ι)
  /-- The value under a name is serialized in a frame. -/
  | named (frame : Frame ι) (name : String) (v : Value ι)
  /-- A map, a sequence or an entity is entered. -/
  | entered (scope : Scope ι) (v : Value ι)

namespace Call

/-- One call makes another, if nothing fails before it. -/
inductive Makes (g : Graph ι) : Call ι → Call ι → Prop where
  | sharedDeferred {scope : Scope ι} {label : String} {v : Value ι} :
      Makes g (.shared scope (.deferred label (.ok v))) (.shared scope v)
  | shared {scope : Scope ι} {v : Value ι} :
      v.isNested → scope.options.convertByType? none v = none →
      Makes g (.shared scope v) (.entered scope v)
  | namedDeferred {frame : Frame ι} {name label : String} {v : Value ι} :
      Makes g (.named frame name (.deferred label (.ok v))) (.named frame name v)
  | named {frame : Frame ι} {name : String} {v : Value ι} :
      v.isNested → frame.options.convertByName? name v = none → frame.isCut g v = false →
      Makes g (.named frame name v) (.entered (frame.under name) v)
  | entry {scope : Scope ι} {frame : Frame ι} {es : List (String × Value ι)} {key : String}
      {v : Value ι} :
      scope.enterMap = pure frame → (key, v) ∈ es → frame.schema.isIncluded key →
      Makes g (.entered scope (.map es)) (.named frame key v)
  | item {scope : Scope ι} {vs : List (Value ι)} {v : Value ι} :
      v ∈ vs → Makes g (.entered scope (.seq vs)) (.shared scope v)
  | read {scope : Scope ι} {frame : Frame ι} {id : ι} {name : String} {v : Value ι} :
      scope.enterEntity g id = pure frame →
      name ∈ Traversal.attributeNames (g.entity id) frame → frame.schema.isIncluded name →
      (g.entity id).read name = .ok v →
      Makes g (.entered scope (.entity id)) (.named frame name v)

/-- The calls with which a serialization under options starts. -/
inductive IsRoot (o : Options ι) : Call ι → Prop where
  | entity (id : ι) : IsRoot o (.entered (.root o) (.entity id))
  | value (v : Value ι) : IsRoot o (.shared (.root o) v)

/-- The keys that a step from one call to another descends by. -/
def keys : Call ι → Call ι → List String
  | .named _ name _, .entered _ _ => [name]
  | _, _ => []

/-- The calls that come of a call, with the keys of attributes and maps that lead to them. -/
inductive Reaches (g : Graph ι) (start : Call ι) : List String → Call ι → Prop where
  | start : Reaches g start [] start
  | next {path : List String} {c c' : Call ι} :
      Reaches g start path c → Makes g c c' → Reaches g start (path ++ c.keys c') c'

/-- What a call that it is true of hands on to all that it makes. -/
def HandedOn (g : Graph ι) (P : Call ι → Prop) : Prop :=
  ∀ {c c'}, Makes g c c' → P c → P c'

/-- What is handed on from call to call holds of every call that is reached. -/
theorem HandedOn.of_reaches {g : Graph ι} {P : Call ι → Prop} (handedOn : HandedOn g P)
    {start c : Call ι} {path : List String} (h : Reaches g start path c) (initial : P start) :
    P c := by
  induction h with
  | start => exact initial
  | next _ makes ih => exact handedOn makes ih

end Call

/-! ## A run makes no other calls -/

namespace Traversal

variable {g : Graph ι} {enter enter' : Scope ι → ι → Run Json} {P : Call ι → Prop}

/-- A value is entered only where it has no form of its own. -/
theorem converted_congr {scope : Scope ι} {v : Value ι} {entered entered' : Unit → Run Json}
    (h : scope.options.convertByType? none v = none → entered () = entered' ()) :
    converted scope v entered = converted scope v entered' := by
  unfold converted
  split
  · rfl
  · next none => exact h none

/-- Under a name it has not to be cut either. -/
theorem convertedUnder_congr {frame : Frame ι} {name : String} {v : Value ι}
    {entered entered' : Unit → Run Json}
    (h : frame.options.convertByName? name v = none → frame.isCut g v = false →
      entered () = entered' ()) :
    convertedUnder g frame name v entered = convertedUnder g frame name v entered' := by
  unfold convertedUnder
  split
  · rfl
  · next none =>
    split
    · rfl
    · next uncut => rw [h none (Bool.eq_false_iff.mpr uncut)]

/-- What is done in a frame counts only if the frame is there. -/
theorem enter_bind_congr {α : Type} {scope : Scope ι} {o : Options ι} {exact additive : List String}
    {body body' : Frame ι → Run α}
    (h : ∀ frame, scope.enter o exact additive = pure frame → body frame = body' frame) :
    scope.enter o exact additive >>= body = scope.enter o exact additive >>= body' := by
  rcases scope.enter_cases o exact additive with ⟨schema, entered⟩ | ⟨e, failed⟩
  · rw [entered, pure_bind, pure_bind, h _ entered]
  · rw [failed]
    rfl

/-- The entries of a map are looked at only in the frame that the map is entered with. -/
theorem mapIn_congr_of_enterMap {scope : Scope ι} {body body' : Frame ι → Run (List (String × Json))}
    (h : ∀ frame, scope.enterMap = pure frame → body frame = body' frame) :
    mapIn scope body = mapIn scope body' :=
  enter_bind_congr fun frame entered => by rw [h frame entered]

mutual

/-- Two ways of entering that agree on all entities that a call may come to give the same run. -/
theorem value_congr (handedOn : Call.HandedOn g P)
    (agree : ∀ scope id, P (.entered scope (.entity id)) → enter scope id = enter' scope id) :
    (v : Value ι) → {scope : Scope ι} → P (.shared scope v) → (place : String) →
      value g enter place scope v = value g enter' place scope v
  | .deferred label (.ok v), scope, h, place => by
    rw [value, value, value_congr handedOn agree v (handedOn .sharedDeferred h) place]
  | .deferred _ (.error _), _, _, _ => rfl
  | .map es, scope, h, place => converted_congr fun unconverted =>
    mapIn_congr_of_enterMap fun frame entered =>
      entries_congr handedOn agree es fun e mem included =>
        handedOn (.entry entered mem included) (handedOn (.shared rfl unconverted) h)
  | .seq vs, scope, h, place => converted_congr fun unconverted =>
    congrArg (Json.arr <$> ·) <| items_congr handedOn agree vs (fun v mem =>
      handedOn (.item mem) (handedOn (.shared rfl unconverted) h)) 0
  | .entity id, scope, h, place => converted_congr fun unconverted =>
    agree scope id (handedOn (.shared rfl unconverted) h)
  | .scalar _, _, _, _ | .member _ _ _, _, _, _ | .foreign _ _, _, _, _ => rfl

/-- The traversal depends on how entities are entered at the calls it makes, and nowhere else. -/
theorem named_congr (handedOn : Call.HandedOn g P)
    (agree : ∀ scope id, P (.entered scope (.entity id)) → enter scope id = enter' scope id) :
    (v : Value ι) → {frame : Frame ι} → {name : String} → P (.named frame name v) →
      named g enter frame name v = named g enter' frame name v
  | .deferred label (.ok v), frame, name, h => by
    rw [named, named, named_congr handedOn agree v (handedOn .namedDeferred h)]
  | .deferred _ (.error _), _, _, _ => rfl
  | .map es, frame, name, h => convertedUnder_congr fun unconverted uncut =>
    mapIn_congr_of_enterMap fun frame' entered =>
      entries_congr handedOn agree es fun e mem included =>
        handedOn (.entry entered mem included) (handedOn (.named rfl unconverted uncut) h)
  | .seq vs, frame, name, h => convertedUnder_congr fun unconverted uncut =>
    congrArg (Json.arr <$> ·) <| items_congr handedOn agree vs (fun v mem =>
      handedOn (.item mem) (handedOn (.named rfl unconverted uncut) h)) 0
  | .entity id, frame, name, h => convertedUnder_congr fun unconverted uncut =>
    agree (frame.under name) id (handedOn (.named rfl unconverted uncut) h)
  | .scalar _, _, _, _ | .member _ _ _, _, _, _ | .foreign _ _, _, _, _ => rfl

theorem entries_congr (handedOn : Call.HandedOn g P)
    (agree : ∀ scope id, P (.entered scope (.entity id)) → enter scope id = enter' scope id) :
    (es : List (String × Value ι)) → {frame : Frame ι} →
      (∀ e ∈ es, frame.schema.isIncluded e.1 → P (.named frame e.1 e.2)) →
      entries g enter frame es = entries g enter' frame es
  | [], _, _ => rfl
  | (key, v) :: rest, frame, h => by
    obtain ⟨here, others⟩ := List.forall_mem_cons.mp h
    rw [entries, entries, entries_congr handedOn agree rest others]
    split
    · next included => rw [named_congr handedOn agree v (here included)]
    · rfl

theorem items_congr (handedOn : Call.HandedOn g P)
    (agree : ∀ scope id, P (.entered scope (.entity id)) → enter scope id = enter' scope id) :
    (vs : List (Value ι)) → {scope : Scope ι} → (∀ v ∈ vs, P (.shared scope v)) →
      (position : Nat) → items g enter scope position vs = items g enter' scope position vs
  | [], _, _, _ => rfl
  | v :: rest, scope, h, position => by
    obtain ⟨here, others⟩ := List.forall_mem_cons.mp h
    rw [items, items, value_congr handedOn agree v here,
      items_congr handedOn agree rest others (position + 1)]

end

/-- Of the attributes only those count that are included and can be read. -/
theorem attributes_congr (handedOn : Call.HandedOn g P)
    (agree : ∀ scope id, P (.entered scope (.entity id)) → enter scope id = enter' scope id)
    {e : Entity ι} {frame : Frame ι} {names : List String}
    (h : ∀ name ∈ names, frame.schema.isIncluded name → ∀ v, e.read name = .ok v →
      P (.named frame name v)) (out : List (String × Json)) :
    attributes g enter e frame names out = attributes g enter' e frame names out := by
  induction names generalizing out with
  | nil => rfl
  | cons name names ih =>
    obtain ⟨here, others⟩ := List.forall_mem_cons.mp h
    have later := funext fun out => ih others out
    rw [attributes, attributes, later]
    split
    · next included =>
      cases read : e.read name with
      | error cause => rfl
      | ok v =>
        show (Run.event _ >>= fun _ => named g enter frame name v >>= _)
          = (Run.event _ >>= fun _ => named g enter' frame name v >>= _)
        rw [named_congr handedOn agree v (here included v read)]
    · rfl

/-- An entity is entered, and its attributes make an object. -/
theorem entityWith_eq_bind (g : Graph ι) (enter : Scope ι → ι → Run Json) (scope : Scope ι) (id : ι) :
    entityWith g enter scope id = scope.enterEntity g id >>= fun frame =>
      Json.obj <$> attributes g enter (g.entity id) frame (attributeNames (g.entity id) frame) [] := rfl

/-- Two ways of entering that agree on all entities that the attributes of an entity may come to give
the same run of it. -/
theorem entityWith_congr (handedOn : Call.HandedOn g P)
    (agree : ∀ scope id, P (.entered scope (.entity id)) → enter scope id = enter' scope id)
    {scope : Scope ι} {id : ι} (h : ∀ {c}, Call.Makes g (.entered scope (.entity id)) c → P c) :
    entityWith g enter scope id = entityWith g enter' scope id :=
  enter_bind_congr fun frame entered => by
    rw [attributes_congr handedOn agree fun name mem included v read =>
      h (.read entered mem included read)]

end Traversal

end EntityJson
