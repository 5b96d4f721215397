import EntityJson.Proofs.Serializer.DepthLimit

/-!
# Serializing under a limit ends

A graph may lead from an entity back to itself, the items of a sequence do not count as deeper, and
maps and sequences go on below the limit. So neither the depth nor the size of the value goes down at
each call. They do together (`Call.Makes.measure_lt`): an entity is entered above the limit and leads
to deeper calls alone, and every other call leads to smaller values, or enters the one it has. Hence no
calls go on for ever under a limit of the caller's, whatever the graph is.

The traversal itself counts how many entities it enters one within the other and gives up at a bound.
Under a limit it never does (`Serializer.terminates_of_maxDepth`): one more than the limit is enough,
more change nothing, and no run ends for that cause.
-/

namespace EntityJson

variable {ι : Type} {g : Graph ι} {o : Options ι} {d : Nat}

/-! ## Calls come to an end -/

namespace Call

/-- The size of what a call is about. Having entered a value counts less than being about to. -/
noncomputable def size : Call ι → Nat
  | .shared _ v | .named _ _ v => 2 * sizeOf v + 1
  | .entered _ v => 2 * sizeOf v

/-- How many depths are left for entities under a limit, and then the size. -/
noncomputable def measure (d : Nat) (c : Call ι) : Nat × Nat :=
  (d + 1 - c.level, c.size)

/-- All calls but that of an entity lead to smaller ones. -/
theorem Makes.size_lt {c c' : Call ι} (makes : Makes g c c')
    (other : ∀ scope id, c ≠ .entered scope (.entity id)) : c'.size < c.size := by
  cases makes with
  | sharedDeferred => simp [size]; omega
  | namedDeferred => simp [size]; omega
  | shared _ _ | named _ _ _ => exact Nat.lt_succ_self _
  | entry _ mem _ =>
    have smaller := List.sizeOf_lt_of_mem mem
    simp [size] at smaller ⊢
    omega
  | item mem =>
    have smaller := List.sizeOf_lt_of_mem mem
    simp [size]
    omega
  | read _ _ _ _ => exact absurd rfl (other _ _)

/-- What a call makes under a limit leaves fewer depths, or as many and is smaller. -/
theorem Makes.measure_lt {c c' : Call ι} (makes : Makes g c c') (within : c.Within d) :
    Prod.Lex (· < ·) (· < ·) (c'.measure d) (c.measure d) := by
  rw [Prod.lex_def]
  by_cases entity : ∃ scope id, c = .entered scope (.entity id)
  · obtain ⟨scope, id, rfl⟩ := entity
    have above : scope.depth ≤ d := within.2 rfl
    have deeper := makes.lt_level
    left
    show d + 1 - c'.level < d + 1 - scope.depth
    omega
  · have smaller := makes.size_lt fun scope id same => entity ⟨scope, id, same⟩
    have deeper := makes.level_le
    show d + 1 - c'.level < d + 1 - c.level
      ∨ d + 1 - c'.level = d + 1 - c.level ∧ c'.size < c.size
    omega

/-- No calls go on for ever from a call under a limit. -/
theorem acc_of_within {c : Call ι} (within : c.Within d) : Acc (fun c' c => Makes g c c') c := by
  have wf := InvImage.wf (measure d : Call ι → Nat × Nat) (Prod.lex Nat.lt_wfRel Nat.lt_wfRel).wf
  induction c using wf.induction with
  | _ c ih =>
    exact .intro c fun c' makes => ih c' (makes.measure_lt within) (handedOn_within makes within)

end Call

/-! ## Runs that do not give up -/

namespace Run

variable {α β : Type}

/-- A run that does not fail for entities that are nested too deeply. -/
def NotTooDeep (x : Run α) : Prop :=
  x.outcome ≠ .error .nesting

/-- A run that ends with a value, or fails for another cause, has not given up. -/
theorem notTooDeep_pure (value : α) : (pure value : Run α).NotTooDeep := nofun

theorem notTooDeep_event (e : Event) : (event e).NotTooDeep := nofun

theorem notTooDeep_fail {e : SerializeError} (h : e ≠ .nesting) : (fail e : Run α).NotTooDeep :=
  fun same => h (Except.error.inj same)

/-- A failure that is told as another cause is not told as giving up. -/
theorem notTooDeep_mapError {ε : Type} (f : ε → SerializeError) (h : ∀ e, f e ≠ .nesting)
    (x : Except ε α) : (ofExcept (x.mapError f)).NotTooDeep := by
  cases x with
  | ok value => exact nofun
  | error e => exact notTooDeep_fail (h e)

/-- A run does not give up if no part of it does. -/
theorem NotTooDeep.bind {x : Run α} {f : α → Run β} (hx : x.NotTooDeep)
    (hf : ∀ value, (f value).NotTooDeep) : (x >>= f).NotTooDeep := by
  obtain ⟨events, outcome⟩ := x
  cases outcome with
  | ok value => exact hf value
  | error e => exact notTooDeep_fail fun same => hx (congrArg Except.error same)

theorem NotTooDeep.map {x : Run α} (hx : x.NotTooDeep) (f : α → β) : (f <$> x).NotTooDeep :=
  hx.bind fun value => notTooDeep_pure (f value)

/-- What goes on after an attempt may rely on the outcome of it. -/
theorem NotTooDeep.attempt_bind {x : Run α} {f : Except SerializeError α → Run β}
    (hx : x.NotTooDeep) (hf : ∀ outcome, outcome ≠ .error .nesting → (f outcome).NotTooDeep) :
    (x.attempt >>= f).NotTooDeep :=
  hf x.outcome hx

end Run

namespace Options

/-- The form of a scalar may be unknown or its format invalid, but nothing is entered for it. -/
theorem convertScalar_ne (o : Options ι) (s : Scalar) : o.convertScalar s ≠ .error .nesting := by
  have written : ∀ kind format write, convertScalar.written kind format write ≠ .error .nesting := by
    intro kind format write
    unfold convertScalar.written
    split <;> exact nofun
  cases s with
  | float x =>
    rw [convertScalar]
    split <;> exact nofun
  | time t => exact written .time o.formats.timeFormat t.format?
  | zonedDateTime x => exact written .dateTime o.formats.dateTimeFormat (x.format? · o.timeZone)
  | dateTime x => exact written .dateTime o.formats.dateTimeFormat (x.format? · o.timeZone)
  | date d => exact written .date o.formats.dateFormat d.format?
  | decimal x => exact written .decimal o.formats.decimalFormat x.format?
  | _ => exact nofun

/-- Only scalars have a built-in form, and members, which stand for their values. -/
theorem convertBuiltin?_ne (o : Options ι) :
    (v : Value ι) → {x : Except SerializeError Json} → o.convertBuiltin? v = some x →
      x ≠ .error .nesting
  | .scalar s, _, rfl => o.convertScalar_ne s
  | .member _ _ v, _, h => convertBuiltin?_ne o v h

/-- What a converter fails with is told as the failure of a conversion. -/
theorem notTooDeep_run (c : Converter ι) (name : Option String) (kind : Option Kind) (v : Value ι) :
    (c.run name kind v).NotTooDeep :=
  (Run.notTooDeep_event _).bind fun _ => Run.notTooDeep_mapError (.conversion name) (fun _ => nofun) _

/-- By whatever converter a value gets its form, nothing is entered for it. -/
theorem notTooDeep_convertByType? {name : Option String} {v : Value ι} {run : Run Json}
    (h : o.convertByType? name v = some run) : run.NotTooDeep := by
  unfold convertByType? at h
  split at h
  · next c _ =>
    cases h
    unfold TypeConverter.run
    split <;> exact notTooDeep_run c.converter _ _ v
  · obtain ⟨x, builtin, rfl⟩ := Option.map_eq_some_iff.mp h
    exact o.convertBuiltin?_ne v builtin

theorem notTooDeep_convertByName? {name : String} {v : Value ι} {run : Run Json}
    (h : o.convertByName? name v = some run) : run.NotTooDeep := by
  unfold convertByName? at h
  split at h
  · cases h
    exact notTooDeep_run _ _ _ v
  · exact notTooDeep_convertByType? h

end Options

namespace Traversal

open Run

variable {enter : Scope ι → ι → Run Json}

/-- A scope may fail to make its schema, but not by giving up. -/
theorem notTooDeep_enter (scope : Scope ι) (o : Options ι) (exact additive : List String) :
    (scope.enter o exact additive).NotTooDeep := by
  rcases scope.enter_cases o exact additive with ⟨schema, entered⟩ | ⟨e, failed⟩
  · rw [entered]
    exact notTooDeep_pure _
  · rw [failed]
    exact notTooDeep_fail nofun

/-- A value that has no form of its own is entered, and only that could give up. -/
theorem notTooDeep_converted {scope : Scope ι} {v : Value ι} {entered : Unit → Run Json}
    (h : (entered ()).NotTooDeep) : (converted scope v entered).NotTooDeep := by
  unfold converted
  split
  · next found => exact Options.notTooDeep_convertByType? found
  · exact h

/-- Under a name a value may be left out at the limit instead. -/
theorem notTooDeep_convertedUnder {frame : Frame ι} {name : String} {v : Value ι}
    {entered : Unit → Run Json} (h : (entered ()).NotTooDeep) :
    (convertedUnder g frame name v entered).NotTooDeep := by
  unfold convertedUnder
  split
  · next found => exact (Options.notTooDeep_convertByName? found).map some
  · split
    · exact notTooDeep_pure none
    · exact h.map some

/-- In a map only the entries could give up. -/
theorem notTooDeep_mapIn {scope : Scope ι} {body : Frame ι → Run (List (String × Json))}
    (h : ∀ frame, (body frame).NotTooDeep) : (mapIn scope body).NotTooDeep :=
  (notTooDeep_enter _ _ _ _).bind fun frame => (h frame).bind fun _ => notTooDeep_pure _

theorem notTooDeep_unserializable (v : Value ι) : (unserializable g v).NotTooDeep :=
  notTooDeep_fail nofun

/-- A sequence that passes over an item looks at what the item came to, which is no giving up. -/
theorem notTooDeep_itemOutcome {scope : Scope ι} {outcome : Except SerializeError Json}
    (h : outcome ≠ .error .nesting) : (itemOutcome scope outcome).NotTooDeep := by
  cases outcome with
  | ok j => exact notTooDeep_pure _
  | error e =>
    rw [itemOutcome]
    split
    · exact notTooDeep_pure none
    · exact notTooDeep_fail fun same => h (congrArg Except.error same)

mutual

/-- A value is not nested too deeply if the entities that it leads to are not. -/
theorem notTooDeep_value (h : ∀ scope id, (enter scope id).NotTooDeep) :
    (v : Value ι) → (place : String) → (scope : Scope ι) →
      (value g enter place scope v).NotTooDeep
  | .deferred _ (.ok v), place, scope =>
    (notTooDeep_event _).bind fun _ => notTooDeep_value h v place scope
  | .deferred _ (.error _), _, _ =>
    (notTooDeep_event _).bind fun _ => notTooDeep_fail nofun
  | .map es, _, _ =>
    notTooDeep_converted (notTooDeep_mapIn fun frame => notTooDeep_entries h es frame)
  | .seq vs, _, scope => notTooDeep_converted ((notTooDeep_items h vs scope 0).map _)
  | .entity id, _, scope => notTooDeep_converted (h scope id)
  | .scalar _, _, _ | .member _ _ _, _, _ | .foreign _ _, _, _ =>
    notTooDeep_converted (notTooDeep_unserializable _)

/-- A value under a name: as above, with its own frame. -/
theorem notTooDeep_named (h : ∀ scope id, (enter scope id).NotTooDeep) :
    (v : Value ι) → (frame : Frame ι) → (name : String) →
      (named g enter frame name v).NotTooDeep
  | .deferred _ (.ok v), frame, name =>
    (notTooDeep_event _).bind fun _ => notTooDeep_named h v frame name
  | .deferred _ (.error _), _, _ =>
    (notTooDeep_event _).bind fun _ => notTooDeep_fail nofun
  | .map es, _, _ =>
    notTooDeep_convertedUnder (notTooDeep_mapIn fun frame => notTooDeep_entries h es frame)
  | .seq vs, frame, name =>
    notTooDeep_convertedUnder ((notTooDeep_items h vs (frame.under name) 0).map _)
  | .entity id, frame, name => notTooDeep_convertedUnder (h (frame.under name) id)
  | .scalar _, _, _ | .member _ _ _, _, _ | .foreign _ _, _, _ =>
    notTooDeep_convertedUnder (notTooDeep_unserializable _)

theorem notTooDeep_entries (h : ∀ scope id, (enter scope id).NotTooDeep) :
    (es : List (String × Value ι)) → (frame : Frame ι) → (entries g enter frame es).NotTooDeep
  | [], _ => notTooDeep_pure _
  | (key, v) :: rest, frame => by
    rw [entries]
    split
    · exact (notTooDeep_named h v frame key).bind fun _ =>
        (notTooDeep_entries h rest frame).bind fun _ => notTooDeep_pure _
    · exact notTooDeep_entries h rest frame

theorem notTooDeep_items (h : ∀ scope id, (enter scope id).NotTooDeep) :
    (vs : List (Value ι)) → (scope : Scope ι) → (position : Nat) →
      (items g enter scope position vs).NotTooDeep
  | [], _, _ => notTooDeep_pure _
  | v :: rest, scope, position => by
    rw [items]
    exact (notTooDeep_value h v _ scope).attempt_bind fun _ met =>
      (notTooDeep_itemOutcome met).bind fun _ =>
        (notTooDeep_items h rest scope (position + 1)).bind fun _ => notTooDeep_pure _

end

theorem notTooDeep_read (e : Entity ι) (name : String) :
    (Run.ofExcept ((e.read name).mapError (.unreadable name))).NotTooDeep :=
  notTooDeep_mapError (.unreadable name) (fun _ same => SerializeError.noConfusion same) _

/-- The attributes are read one after the other, and what is read is traversed as a value. -/
theorem notTooDeep_attributes (h : ∀ scope id, (enter scope id).NotTooDeep) (e : Entity ι)
    (frame : Frame ι) (names : List String) (out : List (String × Json)) :
    (attributes g enter e frame names out).NotTooDeep := by
  induction names generalizing out with
  | nil => exact notTooDeep_pure out
  | cons name names ih =>
    rw [attributes]
    split
    · refine (notTooDeep_event _).bind fun _ => ?_
      refine (notTooDeep_read e name).bind fun raw => ?_
      refine (notTooDeep_named h raw frame name).bind fun found => ?_
      cases found <;> exact ih _
    · exact ih out

/-- An entity is traversed without giving up if the entities that it leads to are entered so. -/
theorem notTooDeep_entityWith (h : ∀ scope id, (enter scope id).NotTooDeep) (scope : Scope ι)
    (id : ι) : (entityWith g enter scope id).NotTooDeep :=
  (notTooDeep_enter _ _ _ _).bind fun frame =>
    (notTooDeep_attributes h _ frame _ _).bind fun _ => notTooDeep_pure _

/-- By induction on the bound: entities are entered at most so many times one within the other, and
beyond that in a way that does not give up either. -/
theorem notTooDeep_entityWithin {beyond : Scope ι → ι → Run Json}
    (h : ∀ scope id, (beyond scope id).NotTooDeep) (hops : Nat) (scope : Scope ι) (id : ι) :
    (entityWithin g d beyond hops scope id).NotTooDeep := by
  induction hops generalizing scope id with
  | zero => exact h scope id
  | succ hops ih =>
    rw [entityWithin]
    split
    · exact notTooDeep_entityWith ih scope id
    · exact h scope id

end Traversal

open Traversal

/-- Under a limit of the caller's every serialization ends with a result or a failure, whatever the
graph is: no calls that come of it go on for ever, and it never gives up for entities that are nested
too deeply, however large the bound on them is as long as it exceeds the limit. -/
theorem Serializer.terminates_of_maxDepth (g : Graph ι) (o : Options ι)
    (limit : o.maxDepth = some d) :
    (∀ start path c, Call.IsRoot o start → Call.Reaches g start path c →
      Acc (fun c' c => Call.Makes g c c') c) ∧
    (∀ hops, d < hops →
      (∀ id, entity g hops (.root o) id = (⟨g, o⟩ : Serializer ι).serialize id) ∧
      ∀ v, value g (entity g hops) "<root>" (.root o) v
        = (⟨g, o⟩ : Serializer ι).serializeValue v) ∧
    (∀ id, ((⟨g, o⟩ : Serializer ι).serialize id).outcome ≠ .error .nesting) ∧
    ∀ v, ((⟨g, o⟩ : Serializer ι).serializeValue v).outcome ≠ .error .nesting := by
  -- what would be done beyond the bounds does not matter, so it may as well be harmless
  let blank : Scope ι → ι → Run Json := fun _ _ => pure .null
  have blankEnds : ∀ scope id, (blank scope id).NotTooDeep := fun _ _ => Run.notTooDeep_pure Json.null
  refine ⟨fun start path c root reached => ?_, fun hops enough => ⟨fun id => ?_, fun v => ?_⟩,
    fun id => ?_, fun v => ?_⟩
  · exact Call.acc_of_within (Call.handedOn_within.of_reaches reached (root.within limit))
  · exact (serialize_eq_entity limit enough id).symm
  · exact (serializeValue_eq_entity limit enough v).symm
  · rw [serialize_eq_entityWithin limit (Nat.lt_succ_self d) id]
    exact notTooDeep_entityWithin blankEnds _ _ id
  · rw [serializeValue_eq_entityWithin limit (Nat.lt_succ_self d) v]
    exact notTooDeep_value (fun scope id => notTooDeep_entityWithin blankEnds _ scope id) v _ _

/-- Two entities that refer to each other through sequences, which do not count as deeper. -/
theorem Serializer.terminates_of_maxDepth_of_cycle :
    ∃ (g : Graph Bool) (o : Options Bool),
      o.maxDepth = some 1 ∧ (∀ id, (g.entity id).read "others" = .ok (.seq [.seq [.entity !id]])) ∧
      (∀ id, Acc (fun c' c => Call.Makes g c c') (.entered (.root o) (.entity id))) ∧
      (∀ hops, 1 < hops → ∀ id,
        entity g hops (.root o) id = (⟨g, o⟩ : Serializer Bool).serialize id) ∧
      ∀ id, ((⟨g, o⟩ : Serializer Bool).serialize id).outcome
        = .ok (.obj [("others", .arr [.arr [.obj []]])]) := by
  let g : Graph Bool := ⟨fun id =>
    { typeName := "T", fieldNames := ["others"], read := fun _ => .ok (.seq [.seq [.entity !id]]) }⟩
  let o : Options Bool := { maxDepth := some 1 }
  have limit : o.maxDepth = some 1 := rfl
  obtain ⟨ends, bounds, -, -⟩ := terminates_of_maxDepth g o limit
  refine ⟨g, o, limit, fun _ => rfl, fun id => ?_, fun hops enough => (bounds hops enough).1, ?_⟩
  · exact ends _ [] _ (.entity id) .start
  · intro id
    cases id <;> rfl

end EntityJson
