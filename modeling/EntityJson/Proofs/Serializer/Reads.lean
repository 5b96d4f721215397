import EntityJson.Proofs.Serializer.DepthLimit
import EntityJson.Proofs.Serializer.Gathered

/-!
# The attributes that are read

An entity reads the attributes of a list in its order, as far as they are included, and stops behind
the first that fails. Each name is read and serialized before the next one is looked at, so the events
are those of the names that are read, one after the other, and the outcome is the failure of the last
of them or an object of what the names came to (`Traversal.attributes_reads`). Which names these are,
and which of them are keys of the object, hangs on the schema and the options in which the entity has
been entered (`Traversal.reads_of_entity`).

What happens under a name may enter other entities, which read attributes of their own, and the entity
itself among them. To tell its own reads from theirs, the entity is serialized once more with the
entities within it silenced: they give the outcomes that they have, but without their events. Such a run
has the outcome of the other one and reads nothing under any name (`Run.Quiets`), so what it reads is
what the entity reads itself.
-/

namespace EntityJson

namespace Run

variable {α β γ δ : Type}

/-- The attributes that are read in a run, each with the name of its entity's type. -/
def reads (x : Run α) : List (String × String) :=
  x.events.filterMap fun
    | .read typeName name => some (typeName, name)
    | _ => none

/-- What comes after a run happens unless the run fails. -/
theorem events_bind (x : Run α) (f : α → Run β) :
    (x >>= f).events = x.events ++ match x.outcome with
      | .ok a => (f a).events
      | .error _ => [] := by
  obtain ⟨events, outcome⟩ := x
  cases outcome with
  | ok a => rfl
  | error e => exact (List.append_nil events).symm

/-- After a failure nothing is read. -/
theorem reads_bind (x : Run α) (f : α → Run β) :
    (x >>= f).reads = x.reads ++ match x.outcome with
      | .ok a => (f a).reads
      | .error _ => [] := by
  unfold reads
  rw [events_bind, List.filterMap_append]
  cases x.outcome <;> rfl

theorem events_map (f : α → β) (x : Run α) : (f <$> x).events = x.events := by
  obtain ⟨events, outcome⟩ := x
  cases outcome with
  | ok a => exact List.append_nil events
  | error e => rfl

/-- A run has the outcome of another one and reads no attribute. -/
structure Quiets (x y : Run α) : Prop where
  outcome : x.outcome = y.outcome
  reads : x.reads = []

/-- What happens without events reads nothing. -/
theorem quiets_ofExcept (outcome : Except SerializeError α) :
    (ofExcept outcome).Quiets (ofExcept outcome) := ⟨rfl, rfl⟩

theorem quiets_pure (a : α) : (pure a : Run α).Quiets (pure a) := ⟨rfl, rfl⟩

theorem quiets_fail (e : SerializeError) : (fail e : Run α).Quiets (fail e) := ⟨rfl, rfl⟩

/-- A run is quietened part by part. -/
theorem Quiets.bind {x y : Run α} (h : x.Quiets y) {f f' : α → Run β}
    (after : ∀ a, (f a).Quiets (f' a)) : (x >>= f).Quiets (y >>= f') := by
  constructor
  · rw [outcome_bind, outcome_bind, h.outcome]
    congr 1
    funext a
    exact (after a).outcome
  · rw [reads_bind, h.reads]
    cases x.outcome with
    | ok a => exact (after a).reads
    | error e => rfl

theorem Quiets.map {x y : Run α} (h : x.Quiets y) (f : α → β) : (f <$> x).Quiets (f <$> y) :=
  h.bind fun a => quiets_pure (f a)

/-- An attempt is quietened as what is attempted. -/
theorem Quiets.attempt {x y : Run α} (h : x.Quiets y) : x.attempt.Quiets y.attempt :=
  ⟨congrArg Except.ok h.outcome, h.reads⟩

end Run

variable {ι : Type}

open Run

/-! ## What happens under a name -/

/-- A converter reads no attribute. -/
theorem Converter.quiets_run (c : Converter ι) (name : Option String) (kind : Option Kind)
    (v : Value ι) : (c.run name kind v).Quiets (c.run name kind v) :=
  Quiets.bind ⟨rfl, rfl⟩ fun _ => quiets_ofExcept _

namespace Options

variable {o : Options ι} {name : Option String} {v : Value ι} {run : Run Json}

/-- Converters read nothing. -/
theorem quiets_convertByType? (h : o.convertByType? name v = some run) : run.Quiets run := by
  unfold convertByType? at h
  cases taken : o.typeConverter? v with
  | some c =>
    rw [taken] at h
    cases h
    unfold TypeConverter.run
    split
    · exact c.converter.quiets_run ..
    · exact c.converter.quiets_run ..
  | none =>
    rw [taken] at h
    obtain ⟨outcome, -, rfl⟩ := Option.map_eq_some_iff.mp h
    exact quiets_ofExcept outcome

theorem quiets_convertByName? {name : String} (h : o.convertByName? name v = some run) :
    run.Quiets run := by
  unfold convertByName? at h
  cases bound : o.attributeConverter? name with
  | some c =>
    rw [bound] at h
    cases h
    exact c.quiets_run ..
  | none =>
    rw [bound] at h
    exact quiets_convertByType? h

end Options

namespace Traversal

variable {g : Graph ι} {quiet enter : Scope ι → ι → Run Json}

/-- A value that is entered reads what it reads there, and no other value reads anything. -/
theorem quiets_converted {scope : Scope ι} {v : Value ι} {entered entered' : Unit → Run Json}
    (h : (entered ()).Quiets (entered' ())) :
    (converted scope v entered).Quiets (converted scope v entered') := by
  unfold converted
  split
  · next form => exact Options.quiets_convertByType? form
  · exact h

theorem quiets_convertedUnder {frame : Frame ι} {name : String} {v : Value ι}
    {entered entered' : Unit → Run Json} (h : (entered ()).Quiets (entered' ())) :
    (convertedUnder g frame name v entered).Quiets (convertedUnder g frame name v entered') := by
  unfold convertedUnder
  split
  · next form => exact (Options.quiets_convertByName? form).map some
  · split
    · exact quiets_pure none
    · exact h.map some

/-- Making a schema reads nothing. -/
theorem quiets_mapIn {scope : Scope ι} {body body' : Frame ι → Run (List (String × Json))}
    (h : ∀ frame, (body frame).Quiets (body' frame)) :
    (mapIn scope body).Quiets (mapIn scope body') := by
  refine Quiets.bind ?_ fun frame => (h frame).map Json.obj
  rcases scope.enter_cases scope.options [] [] with ⟨schema, entered⟩ | ⟨e, failed⟩
  · rw [entered]
    exact quiets_pure _
  · rw [failed]
    exact quiets_fail _

theorem quiets_itemOutcome (scope : Scope ι) (outcome : Except SerializeError Json) :
    (itemOutcome scope outcome).Quiets (itemOutcome scope outcome) := by
  cases outcome with
  | ok j => exact quiets_pure _
  | error e =>
    rw [itemOutcome]
    split
    · exact quiets_pure none
    · exact quiets_fail e

mutual

/-- A value reads nothing but what the entities read that it leads to. -/
theorem quiets_value (h : ∀ scope id, (quiet scope id).Quiets (enter scope id)) (place : String)
    (scope : Scope ι) : (v : Value ι) →
      (value g quiet place scope v).Quiets (value g enter place scope v)
  | .deferred _ (.ok v) => Quiets.bind ⟨rfl, rfl⟩ fun _ => quiets_value h place scope v
  | .deferred _ (.error _) => Quiets.bind ⟨rfl, rfl⟩ fun _ => quiets_fail _
  | .entity id => quiets_converted (h scope id)
  | .map es => quiets_converted <| quiets_mapIn fun frame => quiets_entries h frame es
  | .seq vs => quiets_converted <| (quiets_items h scope 0 vs).map Json.arr
  | .scalar _ | .member _ _ _ | .foreign _ _ => quiets_converted (quiets_fail _)

/-- Quietening the entities quietens everything under a name. -/
theorem quiets_named (h : ∀ scope id, (quiet scope id).Quiets (enter scope id)) (frame : Frame ι)
    (name : String) : (v : Value ι) →
      (named g quiet frame name v).Quiets (named g enter frame name v)
  | .deferred _ (.ok v) => Quiets.bind ⟨rfl, rfl⟩ fun _ => quiets_named h frame name v
  | .deferred _ (.error _) => Quiets.bind ⟨rfl, rfl⟩ fun _ => quiets_fail _
  | .entity id => quiets_convertedUnder (h (frame.under name) id)
  | .map es => quiets_convertedUnder <| quiets_mapIn fun frame => quiets_entries h frame es
  | .seq vs => quiets_convertedUnder <| (quiets_items h (frame.under name) 0 vs).map Json.arr
  | .scalar _ | .member _ _ _ | .foreign _ _ => quiets_convertedUnder (quiets_fail _)

theorem quiets_entries (h : ∀ scope id, (quiet scope id).Quiets (enter scope id))
    (frame : Frame ι) : (es : List (String × Value ι)) →
      (entries g quiet frame es).Quiets (entries g enter frame es)
  | [] => quiets_pure []
  | (key, v) :: rest => by
    rw [entries, entries]
    split
    · exact (quiets_named h frame key v).bind fun _ => (quiets_entries h frame rest).map _
    · exact quiets_entries h frame rest

theorem quiets_items (h : ∀ scope id, (quiet scope id).Quiets (enter scope id)) (scope : Scope ι)
    (position : Nat) : (vs : List (Value ι)) →
      (items g quiet scope position vs).Quiets (items g enter scope position vs)
  | [] => quiets_pure []
  | v :: rest => by
    rw [items, items]
    exact (quiets_value h _ scope v).attempt.bind fun outcome =>
      (quiets_itemOutcome scope outcome).bind fun _ =>
        (quiets_items h scope (position + 1) rest).map _

end

/-! ## The attributes of an entity -/

variable {e : Entity ι} {frame : Frame ι}

/-- One attribute is read once, and has the outcome that it has among events of others. -/
theorem readNamed_quiets (h : ∀ scope id, (quiet scope id).Quiets (enter scope id)) (e : Entity ι)
    (frame : Frame ι) (name : String) :
    (readNamed g quiet e frame name).outcome = (readNamed g enter e frame name).outcome ∧
      (readNamed g quiet e frame name).reads = [(e.typeName, name)] := by
  have later : (Run.ofExcept ((e.read name).mapError (.unreadable name)) >>= named g quiet frame name).Quiets
      (Run.ofExcept ((e.read name).mapError (.unreadable name)) >>= named g enter frame name) :=
    (quiets_ofExcept _).bind fun v => quiets_named h frame name v
  constructor
  · exact later.outcome
  · show (e.typeName, name) :: (_ : Run (Option Json)).reads = _
    rw [later.reads]

/-- The names of a list up to the first that fails, that one included, with its failure; or all of them
if none fails. -/
inductive UpToFailure {α : Type} (outcome : String → Except SerializeError α) :
    List String → List String → Option SerializeError → Prop where
  | done : UpToFailure outcome [] [] none
  | fails {name : String} {names : List String} {error : SerializeError} :
      outcome name = .error error → UpToFailure outcome (name :: names) [name] (some error)
  | next {name : String} {names read : List String} {failure : Option SerializeError} {value : α} :
      outcome name = .ok value → UpToFailure outcome names read failure →
      UpToFailure outcome (name :: names) (name :: read) failure

/-- Where none fails, all names are read and each of them succeeds. -/
theorem UpToFailure.of_none {α : Type} {outcome : String → Except SerializeError α}
    {names read : List String} (h : UpToFailure outcome names read none) :
    read = names ∧ ∀ name ∈ names, ∃ value, outcome name = .ok value := by
  generalize none : Option.none = failure at h
  induction h with
  | done => exact ⟨rfl, nofun⟩
  | fails _ => cases none
  | next succeeds _ ih =>
    obtain ⟨same, others⟩ := ih none
    exact ⟨congrArg _ same, List.forall_mem_cons.mpr ⟨⟨_, succeeds⟩, others⟩⟩

/-- The included names of a list are read in its order up to the first that fails. The events are those
of the names that are read, one after the other; the entity itself reads these and nothing else; and if
one fails its failure is what the whole comes to. -/
theorem attributes_reads (h : ∀ scope id, (quiet scope id).Quiets (enter scope id)) (e : Entity ι)
    (frame : Frame ι) (names : List String) (out : List (String × Json)) :
    ∃ read failure,
      UpToFailure (fun name => (readNamed g enter e frame name).outcome)
        (names.filter (frame.schema.isIncluded ·)) read failure ∧
      (attributes g enter e frame names out).events
        = read.flatMap (fun name => (readNamed g enter e frame name).events) ∧
      (attributes g quiet e frame names out).reads = read.map ((e.typeName, ·)) ∧
      match failure with
        | none => ∃ members, (attributes g enter e frame names out).outcome = .ok members
        | some error => (attributes g enter e frame names out).outcome = .error error := by
  induction names generalizing out with
  | nil => exact ⟨[], none, .done, rfl, rfl, out, rfl⟩
  | cons name names ih =>
    rw [attributes_cons, attributes_cons]
    by_cases included : frame.schema.isIncluded name
    · rw [if_pos included, if_pos included, List.filter_cons_of_pos included]
      obtain ⟨outcome, reads⟩ := readNamed_quiets (g := g) h e frame name
      simp only [Run.outcome_bind, Run.events_bind, Run.reads_bind, outcome, reads]
      cases here : (readNamed g enter e frame name).outcome with
      | error error =>
        exact ⟨[name], some error, .fails here, by simp, rfl, rfl⟩
      | ok value =>
        obtain ⟨read, failure, upTo, events, quietReads, result⟩ :=
          ih (written frame.options name value out)
        refine ⟨name :: read, failure, .next here upTo, ?_, ?_, result⟩
        · exact congrArg (_ ++ ·) events
        · exact congrArg ((e.typeName, name) :: ·) quietReads
    · rw [if_neg included, if_neg included, List.filter_cons_of_neg included]
      exact ih out

/-! ## The keys of the object -/

/-- Whether what comes of an attribute is written. -/
def isWritten (options : Options ι) : Except SerializeError (Option Json) → Bool
  | .ok (some j) => !options.drops j
  | _ => false

/-- A value that is written adds its key in front, and no other changes the keys. -/
theorem keys_withEntry (options : Options ι) (name : String) (value : Option Json)
    (entries : List (String × Json)) :
    (withEntry options name value entries).map (·.1)
      = if isWritten options (.ok value) then name :: entries.map (·.1) else entries.map (·.1) := by
  cases value with
  | none => rfl
  | some j =>
    rw [withEntry, isWritten]
    by_cases dropped : options.drops j
    · rw [if_pos dropped, dropped]
      rfl
    · rw [if_neg dropped, Bool.eq_false_iff.mpr dropped]
      rfl

/-- The keys are the names that are included and written. -/
theorem keys_of_gathered {names : List String} {members : List (String × Json)}
    (h : (gathered g enter e frame names).outcome = .ok members) :
    members.map (·.1) = names.filter fun name => frame.schema.isIncluded name &&
      isWritten frame.options (readNamed g enter e frame name).outcome := by
  induction names generalizing members with
  | nil =>
    cases h
    rfl
  | cons name names ih =>
    rw [gathered] at h
    rw [List.filter_cons]
    by_cases included : frame.schema.isIncluded name
    · rw [if_pos included, Run.outcome_bind] at h
      rw [included, Bool.true_and]
      cases here : (readNamed g enter e frame name).outcome with
      | error error =>
        rw [here] at h
        cases h
      | ok value =>
        rw [here] at h
        change (withEntry frame.options name value <$> gathered g enter e frame names).outcome
          = .ok members at h
        rw [Run.outcome_map] at h
        cases others : (gathered g enter e frame names).outcome with
        | error error =>
          rw [others] at h
          cases h
        | ok rest =>
          rw [others] at h
          cases h
          rw [keys_withEntry, ih others]
    · rw [if_neg included] at h
      rw [Bool.eq_false_iff.mpr included]
      exact ih h

/-- The depth limit leaves an attribute out: its value is read and worked out, no converter takes it,
and it is cut in the frame of the entity. -/
def IsCutOff (g : Graph ι) (e : Entity ι) (frame : Frame ι) (name : String) : Prop :=
  ∃ v w, e.read name = .ok v ∧ v.resolve = .ok w ∧ frame.options.convertByName? name w = none ∧
    frame.isCut g w

/-- What comes of an attribute is among the values that are dropped. -/
def IsDropped (g : Graph ι) (enter : Scope ι → ι → Run Json) (e : Entity ι) (frame : Frame ι)
    (name : String) : Prop :=
  ∃ j, (readNamed g enter e frame name).outcome = .ok (some j) ∧ frame.options.drops j

/-- What comes of an attribute is what comes of its value, if it can be read. -/
theorem readNamed_outcome (name : String) :
    (readNamed g enter e frame name).outcome
      = (e.read name).mapError (.unreadable name) >>= fun v => (named g enter frame name v).outcome := by
  unfold readNamed
  rw [Run.outcome_bind]
  cases e.read name <;> rfl

/-- An attribute comes to nothing exactly if the depth limit leaves it out. -/
theorem readNamed_outcome_eq_none_iff {name : String} :
    (readNamed g enter e frame name).outcome = .ok none ↔ IsCutOff g e frame name := by
  rw [readNamed_outcome]
  unfold IsCutOff
  cases e.read name with
  | error cause => exact ⟨nofun, nofun⟩
  | ok v =>
    refine (named_outcome_eq_none_iff_isCut v).trans ⟨?_, ?_⟩
    · rintro ⟨w, h⟩
      exact ⟨v, w, rfl, h⟩
    · rintro ⟨_, w, ⟨⟩, h⟩
      exact ⟨w, h⟩

/-- An attribute that does not fail is written unless it is cut off or dropped. -/
theorem isWritten_iff {name : String} {value : Option Json}
    (read : (readNamed g enter e frame name).outcome = .ok value) :
    isWritten frame.options (readNamed g enter e frame name).outcome
      ↔ ¬ IsCutOff g e frame name ∧ ¬ IsDropped g enter e frame name := by
  rw [← @readNamed_outcome_eq_none_iff ι g enter e frame name]
  unfold IsDropped
  rw [read]
  cases value with
  | none => exact ⟨nofun, fun h => absurd rfl h.1⟩
  | some j =>
    show (!frame.options.drops j) = true ↔ _
    rw [Bool.not_eq_true', Bool.eq_false_iff]
    constructor
    · intro kept
      refine ⟨nofun, ?_⟩
      rintro ⟨_, ⟨⟩, dropped⟩
      exact kept dropped
    · intro h dropped
      exact h.2 ⟨j, rfl, dropped⟩

/-- The keys of an object are the names that are included and neither cut off nor dropped, in the order
in which they come first. -/
theorem keys_of_attributes {names : List String} {members : List (String × Json)}
    (h : (attributes g enter e frame names []).outcome = .ok members)
    (succeed : ∀ name ∈ names, frame.schema.isIncluded name →
      ∃ value, (readNamed g enter e frame name).outcome = .ok value) :
    (members.map (·.1)).Sublist names.eraseDups ∧
      ∀ name, name ∈ members.map (·.1) ↔ name ∈ names ∧ frame.schema.isIncluded name ∧
        ¬ IsCutOff g e frame name ∧ ¬ IsDropped g enter e frame name := by
  rw [attributes_outcome] at h
  rw [keys_of_gathered h]
  refine ⟨List.filter_sublist, fun name => ?_⟩
  rw [List.mem_filter, List.mem_eraseDups, Bool.and_eq_true]
  refine and_congr_right fun mem => and_congr_right fun included => ?_
  obtain ⟨value, read⟩ := succeed name mem included
  exact isWritten_iff read

end Traversal

/-- The attributes that keeping rules name come in increasing order, each once. -/
theorem Schema.topLevelKeys_increasing (s : Schema) : s.topLevelKeys.Pairwise (· < ·) := by
  apply List.pairwise_map.mpr
  exact s.tree.ordered.children.1.filter _

namespace Traversal

/-- In the frame that it is entered with an entity is the object of its attributes. -/
theorem entityWith_of_enter {g : Graph ι} {enter : Scope ι → ι → Run Json} {scope : Scope ι} {id : ι}
    {frame : Frame ι} (entered : scope.enterEntity g id = pure frame) :
    entityWith g enter scope id
      = Json.obj <$> attributes g enter (g.entity id) frame (attributeNames (g.entity id) frame) [] := by
  rw [entityWith_eq_bind, entered, pure_bind]

/-- An entity is serialized in a frame with its schema and its options, or fails before anything of it
is read. In the frame its names are the keys that are set, or else those that are discovered, and behind
them those that keeping rules name and that are not among them, in increasing order. Of these

1. the included ones are read in their order, up to the first that fails, that one included; the entity
   reads nothing else, and the events are those of the names that are read, one after the other;
2. if one fails the entity fails with it; if none does the entity comes to an object, whose keys are the
   included names that the depth limit does not cut off and whose values are not dropped, each where it
   comes first.

What the entity reads itself is what it reads if the entities within it come to the same without events.
-/
theorem reads_of_entity (g : Graph ι) (enter : Scope ι → ι → Run Json) (scope : Scope ι) (id : ι) :
    (∀ error, scope.enterEntity g id = Run.fail error →
      entityWith g enter scope id = Run.fail error) ∧
    ∀ frame, scope.enterEntity g id = pure frame →
      let e := g.entity id
      let names := frame.options.keys.getD (e.discover frame.options.includesProperties)
      ∃ requested read failure,
        frame.options = scope.options.layer e.options ∧
        requested.Pairwise (· < ·) ∧
        (∀ key, key ∈ requested ↔ key ∈ frame.schema.topLevelKeys ∧ key ∉ names) ∧
        UpToFailure (fun name => (readNamed g enter e frame name).outcome)
          ((names ++ requested).filter (frame.schema.isIncluded ·)) read failure ∧
        (entityWith g (fun s i => Run.ofExcept (enter s i).outcome) scope id).reads
          = read.map ((e.typeName, ·)) ∧
        (entityWith g enter scope id).events
          = read.flatMap (fun name => (readNamed g enter e frame name).events) ∧
        match failure with
        | some error => (entityWith g enter scope id).outcome = .error error
        | none => ∃ members,
          (entityWith g enter scope id).outcome = .ok (.obj members) ∧
          (members.map (·.1)).Sublist (names ++ requested).eraseDups ∧
          ∀ name, name ∈ members.map (·.1) ↔
            name ∈ names ++ requested ∧ frame.schema.isIncluded name ∧
              ¬ IsCutOff g e frame name ∧ ¬ IsDropped g enter e frame name := by
  constructor
  · intro error failed
    rw [entityWith_eq_bind, failed]
    rfl
  · intro frame entered e names
    let requested := frame.schema.topLevelKeys.filter fun key => !names.contains key
    have all : attributeNames e frame = names ++ requested := rfl
    -- the same outcomes without events, so that only the entity itself reads
    have quiets : ∀ (s : Scope ι) (i : ι), (Run.ofExcept (enter s i).outcome).Quiets (enter s i) :=
      fun _ _ => ⟨rfl, rfl⟩
    obtain ⟨read, failure, upTo, events, reads, outcome⟩ :=
      attributes_reads (g := g) quiets e frame (names ++ requested) []
    rw [entityWith_of_enter entered, entityWith_of_enter entered, all]
    refine ⟨requested, read, failure, (Scope.of_enter_eq_pure entered).1,
      frame.schema.topLevelKeys_increasing.filter _, fun key => ?_, upTo, ?_, ?_, ?_⟩
    · simp [requested]
    · rw [← reads, Run.reads, Run.events_map]
      rfl
    · rw [← events, Run.events_map]
    · rw [Run.outcome_map]
      cases failure with
      | some error =>
        have fails : (attributes g enter e frame (names ++ requested) []).outcome = .error error := outcome
        rw [fails]
        rfl
      | none =>
        obtain ⟨members, succeeds⟩ := outcome
        obtain ⟨-, each⟩ := upTo.of_none
        rw [succeeds]
        exact ⟨members, rfl, keys_of_attributes succeeds fun name mem included =>
          each name (List.mem_filter.mpr ⟨mem, included⟩)⟩

/-- Of an entity that refers to itself, a key is read twice and written once, a dropped one is not read,
a value that is dropped and one that is cut off are read and not written, and an attribute comes last
that only a rule asks for. -/
theorem reads_of_entity_repeated :
    ∃ (g : Graph Unit) (o : Options Unit) (frame : Frame Unit) (members : List (String × Json)),
      o.keys = some ["b", "a", "b", "gone", "self"] ∧ o.rules = ["-a", "extra"] ∧
      (Scope.root o).enterEntity g () = pure frame ∧
      (entity g 1 (.root o) ()).outcome = .ok (.obj members) ∧
      members.map (·.1) = ["b", "extra"] ∧
      (entity g 1 (.root o) ()).reads
        = ["b", "b", "gone", "self", "extra"].map (((g.entity ()).typeName, ·)) ∧
      IsCutOff g (g.entity ()) frame "self" ∧
      ∃ requested, (∀ key, key ∈ requested ↔ key ∈ frame.schema.topLevelKeys ∧
          key ∉ ["b", "a", "b", "gone", "self"]) ∧
        ∀ name, name ∈ members.map (·.1) ↔
          name ∈ ["b", "a", "b", "gone", "self"] ++ requested ∧ frame.schema.isIncluded name ∧
            ¬ IsCutOff g (g.entity ()) frame name ∧
            ¬ IsDropped g (entity g 0) (g.entity ()) frame name := by
  let g : Graph Unit := ⟨fun _ => {
    typeName := "Loop"
    fieldNames := []
    read := fun
      | "b" => .ok (.scalar (.bool true))
      | "gone" => .ok (.scalar .null)
      | "self" => .ok (.seq [.entity ()])
      | _ => .ok (.seq []) }⟩
  let o : Options Unit := {
    rules := ["-a", "extra"]
    keys := some ["b", "a", "b", "gone", "self"]
    maxDepth := some 0
    dropValues := some [.null] }
  let schema : Schema := ⟨RuleTree.keepAll.applyAll
    [⟨.drop, ["a"], by decide, by decide⟩, ⟨.keep, ["extra"], by decide, by decide⟩]⟩
  let frame : Frame Unit := ⟨schema, o.layer {}, 0⟩
  have entered : (Scope.root o).enterEntity g () = pure frame := rfl
  have cut : IsCutOff g (g.entity ()) frame "self" := ⟨_, _, rfl, rfl, rfl, rfl⟩
  have comes : (entity g 1 (.root o) ()).outcome
      = .ok (.obj [("b", .bool true), ("extra", .arr [])]) := rfl
  obtain ⟨requested, read, failure, -, -, rest, -, -, -, outcome⟩ :=
    (reads_of_entity g (entity g 0) (.root o) ()).2 frame entered
  cases failure with
  | some error => cases comes.symm.trans outcome
  | none =>
    obtain ⟨members, succeeds, -, keys⟩ := outcome
    cases comes.symm.trans succeeds
    exact ⟨g, o, frame, _, rfl, rfl, entered, comes, rfl, rfl, cut, requested, rest, keys⟩

end Traversal

end EntityJson
