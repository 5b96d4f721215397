import EntityJson.Proofs.Serializer.Sequences
import Mathlib.Data.List.Forall2
import Mathlib.Logic.Relation

/-!
# Deferred values

A deferred value is worked out before anything else is asked of it: at the root, under a name and in a
sequence. A converter may still see one that lies deeper in a map or a sequence, and the depth limit
counts one as if an entity lay in it. Where there are no converters and no limits nobody can tell
whether a value is deferred.

What a value and a graph come to is therefore compared with a common third. Everything in a value that
is deferred and does not fail can be worked out at once (`Value.workedOut`), which leaves the same of a
value and of one in which parts have been deferred (`Value.Wraps.workedOut_eq`). The traversal of a graph
is that of the graph with all its values worked out, but for the events of working them out
(`Traversal.value_workedOut`, `Traversal.entity_workedOut`).
-/

namespace EntityJson

variable {ι : Type}

/-! ## Runs without calls -/

/-- Whether an event is that a deferred value is worked out. -/
def Event.isCall : Event → Bool
  | .called _ => true
  | _ => false

namespace Run

variable {α β : Type}

/-- A run that does not tell when deferred values are worked out. -/
def withoutCalls (x : Run α) : Run α :=
  ⟨x.events.filter (!·.isCall), x.outcome⟩

theorem fail_bind (e : SerializeError) (f : α → Run β) : fail e >>= f = fail e := rfl

/-- That a deferred value is worked out is all that is forgotten. -/
theorem withoutCalls_called (label : String) :
    (event (.called label)).withoutCalls = pure () := rfl

/-- The events of two runs, one after the other, are forgotten part by part. -/
theorem withoutCalls_bind (x : Run α) (f : α → Run β) :
    (x >>= f).withoutCalls = x.withoutCalls >>= fun a => (f a).withoutCalls := by
  obtain ⟨events, outcome⟩ := x
  cases outcome with
  | ok a => exact congrArg (Run.mk · _) (List.filter_append events (f a).events)
  | error e => rfl

theorem withoutCalls_map (f : α → β) (x : Run α) :
    (f <$> x).withoutCalls = f <$> x.withoutCalls :=
  withoutCalls_bind x fun a => pure (f a)

theorem withoutCalls_attempt (x : Run α) : x.attempt.withoutCalls = x.withoutCalls.attempt := rfl

/-- Forgetting events changes no outcome. -/
theorem outcome_eq_of_withoutCalls_eq {x y : Run α} (h : x.withoutCalls = y.withoutCalls) :
    x.outcome = y.outcome := by
  have outcome : ∀ z : Run α, z.outcome = z.withoutCalls.outcome := fun _ => rfl
  rw [outcome x, h, outcome y]

end Run

/-! ## Values that are wrapped and values that are worked out -/

namespace Value

/-- One part of a value is deferred once more: the value itself, an entry of a map, an item of a
sequence, or a part of what a deferred value yields. -/
inductive WrapsOnce : Value ι → Value ι → Prop where
  | here (label : String) (v : Value ι) : WrapsOnce v (.deferred label (.ok v))
  | yielded (label : String) {v w : Value ι} :
      WrapsOnce v w → WrapsOnce (.deferred label (.ok v)) (.deferred label (.ok w))
  | entry (es : List (String × Value ι)) (key : String) (rest : List (String × Value ι))
      {v w : Value ι} :
      WrapsOnce v w → WrapsOnce (.map (es ++ (key, v) :: rest)) (.map (es ++ (key, w) :: rest))
  | item (vs rest : List (Value ι)) {v w : Value ι} :
      WrapsOnce v w → WrapsOnce (.seq (vs ++ v :: rest)) (.seq (vs ++ w :: rest))

/-- Any parts of a value are deferred, each as often as one likes. -/
def Wraps : Value ι → Value ι → Prop :=
  Relation.ReflTransGen WrapsOnce

namespace Wraps

theorem refl (v : Value ι) : v.Wraps v := Relation.ReflTransGen.refl

/-- What is wrapped is deferred once more as a whole. -/
theorem deferred {v w : Value ι} (h : v.Wraps w) (label : String) :
    v.Wraps (.deferred label (.ok w)) :=
  h.tail (.here label w)

theorem trans {u v w : Value ι} (h : u.Wraps v) (h' : v.Wraps w) : u.Wraps w :=
  Relation.ReflTransGen.trans h h'

/-- What can be done to a part once can be done to it any number of times. -/
theorem within {f : Value ι → Value ι}
    (once : ∀ {v w}, WrapsOnce v w → WrapsOnce (f v) (f w)) {v w : Value ι} (h : v.Wraps w) :
    (f v).Wraps (f w) :=
  Relation.ReflTransGen.lift f (fun _ _ => once) v w h

/-- The entries of a map are wrapped, each as much as one likes, and keep their keys. -/
theorem map {es fs : List (String × Value ι)}
    (h : List.Forall₂ (fun e f => e.1 = f.1 ∧ e.2.Wraps f.2) es fs) : Wraps (.map es) (.map fs) := by
  -- the entries before those of the lists stand as they are
  suffices behind : ∀ before, Wraps (.map (before ++ es)) (.map (before ++ fs)) from behind []
  induction h with
  | nil => exact fun before => refl _
  | @cons e f es fs here _ ih =>
    intro before
    obtain ⟨key, v⟩ := e
    obtain ⟨_, w⟩ := f
    obtain ⟨rfl, wraps⟩ := here
    have first : Wraps (.map (before ++ (key, v) :: es)) (.map (before ++ (key, w) :: es)) :=
      wraps.within (.entry before key es)
    have others := ih (before ++ [(key, w)])
    simp only [List.append_assoc, List.singleton_append] at others
    exact first.trans others

/-- So are the items of a sequence. -/
theorem seq {vs ws : List (Value ι)} (h : List.Forall₂ Wraps vs ws) : Wraps (.seq vs) (.seq ws) := by
  suffices behind : ∀ before, Wraps (.seq (before ++ vs)) (.seq (before ++ ws)) from behind []
  induction h with
  | nil => exact fun before => refl _
  | @cons v w vs ws here _ ih =>
    intro before
    have first : Wraps (.seq (before ++ v :: vs)) (.seq (before ++ w :: vs)) :=
      here.within (.item before vs)
    have others := ih (before ++ [w])
    simp only [List.append_assoc, List.singleton_append] at others
    exact first.trans others

end Wraps

mutual

/-- A value in which everything is worked out that is deferred and does not fail. -/
def workedOut : Value ι → Value ι
  | .deferred _ (.ok v) => workedOut v
  | .map es => .map (entriesWorkedOut es)
  | .seq vs => .seq (itemsWorkedOut vs)
  | v => v

def entriesWorkedOut : List (String × Value ι) → List (String × Value ι)
  | [] => []
  | (key, v) :: rest => (key, workedOut v) :: entriesWorkedOut rest

def itemsWorkedOut : List (Value ι) → List (Value ι)
  | [] => []
  | v :: rest => workedOut v :: itemsWorkedOut rest

end

theorem entriesWorkedOut_eq_map (es : List (String × Value ι)) :
    entriesWorkedOut es = es.map fun e => (e.1, e.2.workedOut) := by
  induction es with
  | nil => rfl
  | cons e rest ih => rw [entriesWorkedOut, ih, List.map_cons]

theorem itemsWorkedOut_eq_map (vs : List (Value ι)) : itemsWorkedOut vs = vs.map workedOut := by
  induction vs with
  | nil => rfl
  | cons v rest ih => rw [itemsWorkedOut, ih, List.map_cons]

/-- What has been deferred is worked out again. -/
theorem WrapsOnce.workedOut_eq {v w : Value ι} (h : WrapsOnce v w) : v.workedOut = w.workedOut := by
  induction h with
  | here label v => rw [workedOut]
  | yielded label _ ih => rw [workedOut, workedOut, ih]
  | entry es key rest _ ih =>
    simp only [workedOut, entriesWorkedOut_eq_map, List.map_append, List.map_cons, ih]
  | item vs rest _ ih =>
    simp only [workedOut, itemsWorkedOut_eq_map, List.map_append, List.map_cons, ih]

/-- Worked out at once, nothing is left of what was deferred, so the two come to the same. -/
theorem Wraps.workedOut_eq {v w : Value ι} (h : v.Wraps w) : v.workedOut = w.workedOut := by
  induction h with
  | refl => rfl
  | tail _ once ih => rw [ih, once.workedOut_eq]

end Value

namespace Graph

/-- One graph is another in which parts of the attributes are deferred. -/
structure Wraps (g g' : Graph ι) : Prop where
  declares : ∀ id, g'.entity id = { g.entity id with read := (g'.entity id).read }
  yields : ∀ {id name v}, (g.entity id).read name = .ok v →
    ∃ w, (g'.entity id).read name = .ok w ∧ v.Wraps w
  fails : ∀ {id name cause}, (g.entity id).read name = .error cause →
    (g'.entity id).read name = .error cause

/-- A graph with the values of all its attributes worked out. -/
def workedOut (g : Graph ι) : Graph ι where
  entity id := { g.entity id with read := fun name => ((g.entity id).read name).map Value.workedOut }

theorem Wraps.workedOut_eq {g g' : Graph ι} (h : g.Wraps g') : g.workedOut = g'.workedOut := by
  refine congrArg Graph.mk (funext fun id => ?_)
  have reads : (fun name => ((g.entity id).read name).map Value.workedOut)
      = fun name => ((g'.entity id).read name).map Value.workedOut := by
    funext name
    cases read : (g.entity id).read name with
    | error cause => rw [h.fails read]
    | ok v =>
      obtain ⟨w, read', wraps⟩ := h.yields read
      rw [read', Except.map, Except.map, wraps.workedOut_eq]
  rw [reads, h.declares id]

end Graph

/-! ## Options without converters and without a limit -/

/-- Options that hold neither converters nor a limit of depth. -/
structure Options.PlainUnlimited (o : Options ι) : Prop where
  typeConverters : o.typeConverters = []
  attributeConverters : o.attributeConverters = []
  maxDepth : o.maxDepth = none

namespace Options.PlainUnlimited

variable {o : Options ι}

/-- Layering options without converters and limits leaves none. -/
theorem layer (plain : o.PlainUnlimited) {declared : Options ι} (also : declared.PlainUnlimited) :
    (o.layer declared).PlainUnlimited where
  typeConverters := by rw [Options.layer, plain.typeConverters, also.typeConverters, List.nil_append]
  attributeConverters := by
    rw [Options.layer, plain.attributeConverters, also.attributeConverters, List.nil_append]
  maxDepth := by rw [Options.layer, plain.maxDepth, also.maxDepth, Option.none_or]

theorem forNested (plain : o.PlainUnlimited) : o.forNested.PlainUnlimited :=
  ⟨plain.1, plain.2, plain.3⟩

/-- Values have their built-in forms and no others. -/
theorem convertByType? (plain : o.PlainUnlimited) (name : Option String) (v : Value ι) :
    o.convertByType? name v = (o.convertBuiltin? v).map Run.ofExcept :=
  convertByType?_of_nil plain.typeConverters name v

theorem convertByName? (plain : o.PlainUnlimited) (name : String) (v : Value ι) :
    o.convertByName? name v = (o.convertBuiltin? v).map Run.ofExcept :=
  convertByName?_of_nil plain.typeConverters plain.attributeConverters name v

end Options.PlainUnlimited

/-- No entity of a graph declares converters or a limit of depth. -/
def Graph.PlainUnlimited (g : Graph ι) : Prop :=
  ∀ id, (g.entity id).options.PlainUnlimited

/-- Deferring values changes no declared options. -/
theorem Graph.PlainUnlimited.of_wraps {g g' : Graph ι} (declared : g.PlainUnlimited)
    (wraps : g.Wraps g') : g'.PlainUnlimited := by
  intro id
  rw [wraps.declares id]
  exact declared id

/-- Without limits no value is cut. -/
theorem Frame.isCut_of_withoutLimit {g : Graph ι} (declared : g.PlainUnlimited) {frame : Frame ι}
    (plain : frame.options.PlainUnlimited) (v : Value ι) : frame.isCut g v = false := by
  have none : frame.options.maxDepth.or (g.declaredMaxDepth v) = none := by
    rw [plain.maxDepth, Option.none_or]
    cases v with
    | entity id => exact (declared id).maxDepth
    | _ => rfl
  rw [Frame.isCut, none]

namespace Traversal

variable {g : Graph ι} {enter enter' : Scope ι → ι → Run Json}

/-! ## The steps of the traversal -/

/-- Without converters a deferred value and the one it stands for have the same form, or are entered
alike. -/
theorem converted_withoutCalls {scope : Scope ι} (plain : scope.options.PlainUnlimited)
    {v w : Value ι} (forms : scope.options.convertBuiltin? v = scope.options.convertBuiltin? w)
    {entered entered' : Unit → Run Json}
    (same : (entered ()).withoutCalls = (entered' ()).withoutCalls) :
    (converted scope v entered).withoutCalls = (converted scope w entered').withoutCalls := by
  rw [converted, converted, plain.convertByType?, plain.convertByType?, forms]
  cases scope.options.convertBuiltin? w with
  | some form => rfl
  | none => exact same

/-- Without limits neither is cut under a name. -/
theorem convertedUnder_withoutCalls (declared : g.PlainUnlimited) {frame : Frame ι}
    (plain : frame.options.PlainUnlimited) {name : String} {v w : Value ι}
    (forms : frame.options.convertBuiltin? v = frame.options.convertBuiltin? w)
    {entered entered' : Unit → Run Json}
    (same : (entered ()).withoutCalls = (entered' ()).withoutCalls) :
    (convertedUnder g frame name v entered).withoutCalls
      = (convertedUnder g.workedOut frame name w entered').withoutCalls := by
  have declared' : g.workedOut.PlainUnlimited := declared
  rw [convertedUnder, convertedUnder, plain.convertByName?, plain.convertByName?, forms,
    Frame.isCut_of_withoutLimit declared plain, Frame.isCut_of_withoutLimit declared' plain]
  cases frame.options.convertBuiltin? w with
  | some form => rfl
  | none =>
    show (some <$> entered ()).withoutCalls = (some <$> entered' ()).withoutCalls
    rw [Run.withoutCalls_map, same, Run.withoutCalls_map]

/-- A map makes its schema before any entry is looked at. -/
theorem mapIn_withoutCalls {scope : Scope ι} (plain : scope.options.PlainUnlimited)
    {body body' : Frame ι → Run (List (String × Json))}
    (same : ∀ frame, frame.options.PlainUnlimited →
      (body frame).withoutCalls = (body' frame).withoutCalls) :
    (mapIn scope body).withoutCalls = (mapIn scope body').withoutCalls := by
  rw [mapIn, mapIn]
  rcases scope.enter_cases scope.options [] [] with ⟨schema, entered⟩ | ⟨e, failed⟩
  · rw [entered, pure_bind, pure_bind, bind_pure_comp, bind_pure_comp, Run.withoutCalls_map,
      same _ plain, Run.withoutCalls_map]
  · rw [failed, Run.fail_bind, Run.fail_bind]

/-! ## The traversal -/

/-- Two ways of entering cannot be told apart, without converters and limits, but by when they work
deferred values out. -/
def AgreeButCalls (enter enter' : Scope ι → ι → Run Json) : Prop :=
  ∀ scope id, scope.options.PlainUnlimited →
    (enter scope id).withoutCalls = (enter' scope id).withoutCalls

mutual

/-- A value is serialized as it is worked out, if the entities are that it leads to. -/
theorem value_workedOut (declared : g.PlainUnlimited) (agree : AgreeButCalls enter enter')
    (place : String) {scope : Scope ι} (plain : scope.options.PlainUnlimited) : (v : Value ι) →
      (value g enter place scope v).withoutCalls
        = (value g.workedOut enter' place scope v.workedOut).withoutCalls
  | .deferred label (.ok v) => by
    rw [value, Run.withoutCalls_bind, Run.withoutCalls_called, pure_bind, Value.workedOut]
    exact value_workedOut declared agree place plain v
  | .deferred label (.error cause) => by simp only [Value.workedOut, value]
  | .map es => by
    simp only [Value.workedOut, value]
    apply converted_withoutCalls plain
    · rfl
    · apply mapIn_withoutCalls plain
      intro frame plain
      exact entries_workedOut declared agree plain es
  | .seq vs => by
    simp only [Value.workedOut, value]
    apply converted_withoutCalls plain
    · rfl
    · rw [Run.withoutCalls_map, items_workedOut declared agree plain 0 vs, Run.withoutCalls_map]
  | .entity id => by
    simp only [Value.workedOut, value]
    exact converted_withoutCalls plain rfl (agree scope id plain)
  | .scalar _ | .member _ _ _ | .foreign _ _ => by
    simp only [Value.workedOut, value]
    exact converted_withoutCalls plain rfl rfl

/-- Under a name a deferred value is worked out before anything else is asked of it. -/
theorem named_workedOut (declared : g.PlainUnlimited) (agree : AgreeButCalls enter enter')
    {frame : Frame ι} (plain : frame.options.PlainUnlimited) (name : String) : (v : Value ι) →
      (named g enter frame name v).withoutCalls
        = (named g.workedOut enter' frame name v.workedOut).withoutCalls
  | .deferred label (.ok v) => by
    rw [named, Run.withoutCalls_bind, Run.withoutCalls_called, pure_bind, Value.workedOut]
    exact named_workedOut declared agree plain name v
  | .deferred label (.error cause) => by simp only [Value.workedOut, named]
  | .map es => by
    simp only [Value.workedOut, named]
    apply convertedUnder_withoutCalls declared plain
    · rfl
    · apply mapIn_withoutCalls plain.forNested
      intro frame plain
      exact entries_workedOut declared agree plain es
  | .seq vs => by
    simp only [Value.workedOut, named]
    have below : (frame.under name).options.PlainUnlimited := plain.forNested
    apply convertedUnder_withoutCalls declared plain
    · rfl
    · rw [Run.withoutCalls_map, items_workedOut declared agree below 0 vs, Run.withoutCalls_map]
  | .entity id => by
    simp only [Value.workedOut, named]
    exact convertedUnder_withoutCalls declared plain rfl (agree (frame.under name) id plain.forNested)
  | .scalar _ | .member _ _ _ | .foreign _ _ => by
    simp only [Value.workedOut, named]
    exact convertedUnder_withoutCalls declared plain rfl rfl

theorem entries_workedOut (declared : g.PlainUnlimited) (agree : AgreeButCalls enter enter')
    {frame : Frame ι} (plain : frame.options.PlainUnlimited) : (es : List (String × Value ι)) →
      (entries g enter frame es).withoutCalls
        = (entries g.workedOut enter' frame (Value.entriesWorkedOut es)).withoutCalls
  | [] => rfl
  | (key, v) :: rest => by
    rw [Value.entriesWorkedOut, entries, entries]
    split
    · simp only [Run.withoutCalls_bind, named_workedOut declared agree plain key v,
        entries_workedOut declared agree plain rest]
    · exact entries_workedOut declared agree plain rest

/-- The items of a sequence come to the same once they are worked out. -/
theorem items_workedOut (declared : g.PlainUnlimited) (agree : AgreeButCalls enter enter')
    {scope : Scope ι} (plain : scope.options.PlainUnlimited) (position : Nat) :
    (vs : List (Value ι)) →
      (items g enter scope position vs).withoutCalls
        = (items g.workedOut enter' scope position (Value.itemsWorkedOut vs)).withoutCalls
  | [] => rfl
  | v :: rest => by
    rw [Value.itemsWorkedOut, items, items]
    simp only [Run.withoutCalls_bind, Run.withoutCalls_attempt,
      value_workedOut declared agree _ plain v, items_workedOut declared agree plain (position + 1) rest]

end

/-- An attribute is serialized as it is worked out. -/
theorem readNamed_workedOut (declared : g.PlainUnlimited) (agree : AgreeButCalls enter enter')
    {frame : Frame ι} (plain : frame.options.PlainUnlimited) (id : ι) (name : String) :
    (readNamed g enter (g.entity id) frame name).withoutCalls
      = (readNamed g.workedOut enter' (g.workedOut.entity id) frame name).withoutCalls := by
  have read : (g.workedOut.entity id).read name
    = ((g.entity id).read name).map Value.workedOut := rfl
  rw [readNamed, readNamed, read]
  cases (g.entity id).read name with
  | error cause => rfl
  | ok v =>
    show (Run.event _ >>= fun _ => named g enter frame name v).withoutCalls
      = (Run.event _ >>= fun _ => named g.workedOut enter' frame name v.workedOut).withoutCalls
    rw [Run.withoutCalls_bind, named_workedOut declared agree plain name v, Run.withoutCalls_bind]
    rfl

/-- An attribute that is read gives a deferred value, or the value that it is worked out to. -/
theorem attributes_workedOut (declared : g.PlainUnlimited) (agree : AgreeButCalls enter enter')
    {frame : Frame ι} (plain : frame.options.PlainUnlimited) (id : ι) (names : List String)
    (out : List (String × Json)) :
    (attributes g enter (g.entity id) frame names out).withoutCalls
      = (attributes g.workedOut enter' (g.workedOut.entity id) frame names out).withoutCalls := by
  induction names generalizing out with
  | nil => rfl
  | cons name names ih =>
    rw [attributes_cons, attributes_cons]
    split
    · simp only [Run.withoutCalls_bind, readNamed_workedOut declared agree plain, ih]
    · exact ih out

/-- An entity is entered alike if the entities that it leads to are. -/
theorem entityWith_workedOut (declared : g.PlainUnlimited) (agree : AgreeButCalls enter enter')
    (scope : Scope ι) (id : ι) (plain : scope.options.PlainUnlimited) :
    (entityWith g enter scope id).withoutCalls
      = (entityWith g.workedOut enter' scope id).withoutCalls := by
  have names : ∀ frame, attributeNames (g.workedOut.entity id) frame
      = attributeNames (g.entity id) frame := fun _ => rfl
  have enters : scope.enterEntity g.workedOut id = scope.enterEntity g id := rfl
  rw [entityWith_eq_bind, entityWith_eq_bind, enters]
  rcases scope.enter_cases (scope.options.layer (g.entity id).options) (g.entity id).exactRules
    (g.entity id).additiveRules with ⟨schema, entered⟩ | ⟨error, failed⟩
  · have layered := plain.layer (declared id)
    rw [Scope.enterEntity, entered, pure_bind, pure_bind, Run.withoutCalls_map, names,
      attributes_workedOut declared agree layered, Run.withoutCalls_map]
  · rw [Scope.enterEntity, failed, Run.fail_bind, Run.fail_bind]

/-- An entity is serialized as its graph is worked out. -/
theorem entity_workedOut (declared : g.PlainUnlimited) (hops : Nat) (scope : Scope ι) (id : ι)
    (plain : scope.options.PlainUnlimited) :
    (entity g hops scope id).withoutCalls = (entity g.workedOut hops scope id).withoutCalls := by
  induction hops generalizing scope id with
  | zero => rfl
  | succ hops ih => exact entityWith_workedOut declared ih scope id plain

/-! ## Wrapped values -/

variable {g' : Graph ι}

/-- Two graphs of which one defers more are both alike to the one with all values worked out. -/
theorem entity_wraps (wraps : g.Wraps g') (declared : g.PlainUnlimited) (hops : Nat)
    (scope : Scope ι) (id : ι) (plain : scope.options.PlainUnlimited) :
    (entity g' hops scope id).withoutCalls = (entity g hops scope id).withoutCalls := by
  have declared' := declared.of_wraps wraps
  rw [entity_workedOut declared hops scope id plain, entity_workedOut declared' hops scope id plain,
    wraps.workedOut_eq]

theorem value_wraps (wraps : g.Wraps g') (declared : g.PlainUnlimited) (hops : Nat) (place : String)
    {scope : Scope ι} (plain : scope.options.PlainUnlimited) {v w : Value ι} (within : v.Wraps w) :
    (value g' (entity g' hops) place scope w).withoutCalls
      = (value g (entity g hops) place scope v).withoutCalls := by
  have declared' := declared.of_wraps wraps
  rw [value_workedOut declared (entity_workedOut declared hops) place plain v,
    value_workedOut declared' (entity_workedOut declared' hops) place plain w,
    wraps.workedOut_eq, within.workedOut_eq]

/-- What comes of the items of a sequence is the same at each position. -/
theorem itemResults_wraps (wraps : g.Wraps g') (declared : g.PlainUnlimited) (hops : Nat)
    (place : String) {scope : Scope ι} (plain : scope.options.PlainUnlimited) {vs ws : List (Value ι)}
    (within : List.Forall₂ Value.Wraps vs ws) (position : Nat) :
    itemResults (fun w => (value g' (entity g' hops) place scope w).outcome) position ws
      = itemResults (fun v => (value g (entity g hops) place scope v).outcome) position vs := by
  induction within generalizing position with
  | nil => simp only [itemResults, List.zipIdx_nil, List.map_nil]
  | cons here _ ih =>
    have same := Run.outcome_eq_of_withoutCalls_eq
      (value_wraps wraps declared hops s!"[{position}]" plain here)
    rw [itemResults_cons, itemResults_cons, ← value_outcome_atPlace, ← value_outcome_atPlace, same, ih]

end Traversal

open Traversal

/-- Deferred values are transparent where neither the caller nor an entity of the graph sets converters
or a limit of depth. If parts of the values of a graph, and of a value, are deferred once more or several
times, then

1. entities and the value are serialized with the same result or the same failure, and with the same
   events but for those of working out deferred values;
2. the same comes of each item of a sequence in any scope at its position, on which alone it hangs
   whether the sequence leaves the item out (`Traversal.items_outcome`). -/
theorem Serializer.deferred_transparent (g g' : Graph ι) (wraps : g.Wraps g')
    (declared : g.PlainUnlimited) (o : Options ι) (plain : o.PlainUnlimited) :
    (∀ id, ((⟨g', o⟩ : Serializer ι).serialize id).withoutCalls
      = ((⟨g, o⟩ : Serializer ι).serialize id).withoutCalls) ∧
    (∀ v w, v.Wraps w → ((⟨g', o⟩ : Serializer ι).serializeValue w).withoutCalls
      = ((⟨g, o⟩ : Serializer ι).serializeValue v).withoutCalls) ∧
    ∀ hops place scope, scope.options.PlainUnlimited → ∀ vs ws, List.Forall₂ Value.Wraps vs ws →
      ∀ position,
        itemResults (fun w => (value g' (entity g' hops) place scope w).outcome) position ws
          = itemResults (fun v => (value g (entity g hops) place scope v).outcome) position vs := by
  refine ⟨fun id => ?_, fun v w within => ?_, fun hops place scope plain vs ws within position => ?_⟩
  · exact entity_wraps wraps declared _ _ id plain
  · exact value_wraps wraps declared _ "<root>" plain within
  · exact itemResults_wraps wraps declared hops place plain within position

/-- A page is found in a map in a lenient sequence, behind an item that is left out. The sequence is
deferred twice; its items, the page and the attribute of the page are deferred once. -/
theorem Serializer.deferred_transparent_of_skipped :
    ∃ (g g' : Graph Unit) (o : Options Unit) (vs ws : List (Value Unit)) (w : Value Unit),
      g.Wraps g' ∧ g.PlainUnlimited ∧ o.PlainUnlimited ∧ List.Forall₂ Value.Wraps vs ws ∧
      w = .deferred "all" (.ok (.deferred "cached" (.ok (.seq ws)))) ∧
      ws = [.deferred "tag" (.ok (.foreign "Tag" .null)),
        .deferred "pages" (.ok (.map [("page", .deferred "page" (.ok (.entity ())))]))] ∧
      (g'.entity ()).read "title" = .ok (.deferred "title" (.ok (.scalar (.str "Home")))) ∧
      ((⟨g', o⟩ : Serializer Unit).serializeValue w).outcome
        = .ok (.arr [.obj [("page", .obj [("title", .str "Home")])]]) ∧
      itemResults (fun w => (value g' (entity g' 1) "<root>" (.root o) w).outcome) 0 ws
        = [.error (.unserializable "Tag"), .ok (.obj [("page", .obj [("title", .str "Home")])])] := by
  let page : Entity Unit := {
    typeName := "Page"
    fieldNames := ["title"]
    read := fun _ => .ok (.scalar (.str "Home")) }
  let g : Graph Unit := ⟨fun _ => page⟩
  let g' : Graph Unit := ⟨fun _ =>
    { page with read := fun _ => .ok (.deferred "title" (.ok (.scalar (.str "Home")))) }⟩
  let tag : Value Unit := .foreign "Tag" .null
  let home : Value Unit := .entity ()
  let vs : List (Value Unit) := [tag, .map [("page", home)]]
  let ws : List (Value Unit) := [.deferred "tag" (.ok tag),
    .deferred "pages" (.ok (.map [("page", .deferred "page" (.ok home))]))]
  have wraps : g.Wraps g' := by
    refine ⟨fun _ => rfl, ?_, nofun⟩
    rintro _ _ _ ⟨⟩
    exact ⟨_, rfl, (Value.Wraps.refl _).deferred "title"⟩
  have plain : ({} : Options Unit).PlainUnlimited := ⟨rfl, rfl, rfl⟩
  have first : tag.Wraps _ := (Value.Wraps.refl tag).deferred "tag"
  have entry : home.Wraps _ := (Value.Wraps.refl home).deferred "page"
  have pages : Value.Wraps (.map [("page", home)]) (.map [("page", .deferred "page" (.ok home))]) :=
    .map (.cons ⟨rfl, entry⟩ .nil)
  have items : List.Forall₂ Value.Wraps vs ws := .cons first (.cons (pages.deferred "pages") .nil)
  have all : Value.Wraps (.seq vs) _ := ((Value.Wraps.seq items).deferred "cached").deferred "all"
  obtain ⟨-, values, results⟩ := deferred_transparent g g' wraps (fun _ => plain) {} plain
  have same := Run.outcome_eq_of_withoutCalls_eq (values _ _ all)
  exact ⟨g, g', {}, vs, ws, _, wraps, fun _ => plain, plain, items, rfl, rfl, rfl, same,
    results 1 "<root>" (.root {}) plain vs ws items 0⟩

end EntityJson
