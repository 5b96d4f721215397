import EntityJson.Attributes
import Mathlib.Data.Set.Card

/-!
# The attribute cache

What is found for a type of entities depends on the type alone, so it does not matter whether it is
found anew or remembered. The entries of a cache are the types looked up since it was cleared last,
without or with computed attributes, each of them once and with the names that any entity of the type
has (`AttributeCache.Holds`). An empty cache is of this kind, every step of those who use a cache keeps
it so (`AttributeCache.Holds.after`), and every answer can be read off it
(`AttributeCache.transparent`).
-/

namespace EntityJson

variable {ι τ : Type}

namespace Entity

/-! ## Names that are found -/

/-- What is appended to a list are the first occurrences of the names that it does not have. -/
theorem appendNew_eq (names rest : List String) :
    appendNew names rest = names ++ (rest.removeAll names).eraseDups := by
  induction rest generalizing names with
  | nil => simp [appendNew]
  | cons name rest ih =>
    rw [appendNew, List.cons_removeAll]
    by_cases known : names.contains name
    · rw [if_pos known, ih, known]
      rfl
    · have others : rest.removeAll (names ++ [name])
          = (rest.removeAll names).filter fun other => !other == name := by
        simp only [List.removeAll, List.filter_filter]
        refine List.filter_congr fun other _ => ?_
        by_cases h : other = name <;> simp [h]
      rw [if_neg known, ih, others, Bool.eq_false_iff.mpr known]
      simp [List.eraseDups_cons]

/-- The names that are found are the field names and then the property names, each at its first
place. -/
theorem introspect_eq (e : Entity ι) (includeProperties : Bool) :
    e.introspect includeProperties
      = (e.fieldNames ++ if includeProperties then e.propertyNames else []).eraseDups := by
  simp [introspect, appendNew_eq, List.removeAll]

/-- No name is found twice. -/
theorem nodup_appendNew {names : List String} (distinct : names.Nodup) (rest : List String) :
    (appendNew names rest).Nodup := by
  induction rest generalizing names with
  | nil => exact distinct
  | cons name rest ih =>
    rw [appendNew]
    by_cases known : names.contains name
    · rw [if_pos known]
      exact ih distinct
    · have new : name ∉ names := fun mem => known (List.contains_iff_mem.mpr mem)
      rw [if_neg known]
      exact ih (List.nodup_append'.mpr ⟨distinct, List.nodup_singleton name,
        List.disjoint_singleton.mpr new⟩)

/-- The computed attributes come behind the fields. -/
theorem introspect_prefix (e : Entity ι) : e.introspect false <+: e.introspect true := by
  simp only [introspect_eq, if_true, Bool.false_eq_true, if_false, List.append_nil,
    List.eraseDups_append]
  exact List.prefix_append _ _

/-- The same names of fields and computed attributes are found alike. -/
theorem introspect_congr {e e' : Entity ι} (fields : e.fieldNames = e'.fieldNames)
    (properties : e.propertyNames = e'.propertyNames) (includeProperties : Bool) :
    e.introspect includeProperties = e'.introspect includeProperties := by
  rw [introspect, introspect, fields, properties]

end Entity

/-! ## Histories -/

/-- A step of those who use a cache for the entities of a graph. -/
inductive CacheStep (ι : Type) where
  | get (id : ι) (includeProperties : Bool)
  | getOrDiscover (id : ι) (includeProperties : Bool)
  | clear

namespace CacheStep

/-- A type has been looked up in a history, without or with computed attributes, and the cache has not
been cleared since. -/
def Discovered (type : ι → τ) (steps : List (CacheStep ι)) (key : τ × Bool) : Prop :=
  ∃ before id after, steps = before ++ getOrDiscover id key.2 :: after ∧ type id = key.1 ∧
    clear ∉ after

variable {type : ι → τ} {steps : List (CacheStep ι)} {key : τ × Bool}

theorem not_discovered_nil : ¬ Discovered type [] key := by
  rintro ⟨before, id, after, history, -⟩
  cases before <;> cases history

/-- What has been discovered after one more step: what the step looks up, and what had been before
unless the step clears the cache. -/
theorem discovered_concat {step : CacheStep ι} :
    Discovered type (steps ++ [step]) key
      ↔ (∃ id, step = getOrDiscover id key.2 ∧ type id = key.1) ∨
        step ≠ clear ∧ Discovered type steps key := by
  constructor
  · rintro ⟨before, id, after, history, ofType, kept⟩
    rcases List.eq_nil_or_concat after with rfl | ⟨later, last, rfl⟩
    · obtain ⟨-, same⟩ := List.append_inj' history rfl
      exact .inl ⟨id, List.singleton_inj.mp same, ofType⟩
    · have history : steps ++ [step] = (before ++ getOrDiscover id key.2 :: later) ++ [last] := by
        simpa using history
      obtain ⟨rfl, same⟩ := List.append_inj' history rfl
      obtain rfl : step = last := List.singleton_inj.mp same
      rw [List.concat_eq_append, List.mem_append, not_or, List.mem_singleton] at kept
      exact .inr ⟨Ne.symm kept.2, before, id, later, rfl, ofType, kept.1⟩
  · rintro (⟨id, rfl, ofType⟩ | ⟨keeps, before, id, after, rfl, ofType, kept⟩)
    · exact ⟨steps, id, [], rfl, ofType, List.not_mem_nil⟩
    · refine ⟨before, id, after ++ [step], by simp, ofType, ?_⟩
      rw [List.mem_append, not_or, List.mem_singleton]
      exact ⟨kept, Ne.symm keeps⟩

/-- A look-up adds its type. -/
theorem discovered_concat_getOrDiscover {id : ι} {includeProperties : Bool} :
    Discovered type (steps ++ [getOrDiscover id includeProperties]) key
      ↔ key = (type id, includeProperties) ∨ Discovered type steps key := by
  rw [discovered_concat]
  refine or_congr ⟨?_, ?_⟩ ⟨And.right, fun h => ⟨nofun, h⟩⟩
  · rintro ⟨other, same, ofType⟩
    cases same
    rw [ofType]
  · rintro rfl
    exact ⟨id, rfl, rfl⟩

/-- Looking into the cache adds nothing. -/
theorem discovered_concat_get {id : ι} {includeProperties : Bool} :
    Discovered type (steps ++ [get id includeProperties]) key ↔ Discovered type steps key := by
  rw [discovered_concat]
  refine ⟨?_, fun h => .inr ⟨nofun, h⟩⟩
  rintro (⟨_, same, _⟩ | ⟨_, h⟩)
  · cases same
  · exact h

theorem not_discovered_concat_clear : ¬ Discovered type (steps ++ [clear]) key := by
  rw [discovered_concat]
  rintro (⟨_, same, _⟩ | ⟨keeps, _⟩)
  · cases same
  · exact keeps rfl

end CacheStep

namespace AttributeCache

/-- Entities of one type have the same fields and computed attributes. -/
def NamesByType (g : Graph ι) (type : ι → τ) : Prop :=
  ∀ id id', type id = type id' → (g.entity id).fieldNames = (g.entity id').fieldNames ∧
    (g.entity id).propertyNames = (g.entity id').propertyNames

/-- A cache holds what has been discovered in a history, each type once and with the names that its
entities have. -/
structure Holds (g : Graph ι) (type : ι → τ) (steps : List (CacheStep ι)) (c : AttributeCache τ) :
    Prop where
  distinct : (c.entries.map (·.1)).Nodup
  discovered : ∀ key, key ∈ c.entries.map (·.1) ↔ CacheStep.Discovered type steps key
  names : ∀ entry ∈ c.entries, ∀ id, type id = entry.1.1 →
    entry.2 = (g.entity id).introspect entry.1.2

variable {g : Graph ι} {type : ι → τ} {steps : List (CacheStep ι)} {c : AttributeCache τ}

/-- It holds as many entries as there are types discovered, without and with computed attributes. -/
theorem Holds.size_eq (holds : Holds g type steps c) :
    c.entries.length = {key | CacheStep.Discovered type steps key}.ncard := by
  classical
  have keys : {key | CacheStep.Discovered type steps key}
      = ((c.entries.map (·.1)).toFinset : Set (τ × Bool)) := by
    ext key
    rw [Finset.mem_coe, List.mem_toFinset]
    exact (holds.discovered key).symm
  rw [keys, Set.ncard_coe_finset, List.toFinset_card_of_nodup holds.distinct, List.length_map]

theorem holds_empty : Holds g type [] empty where
  distinct := List.nodup_nil
  discovered _ := ⟨nofun, fun h => (CacheStep.not_discovered_nil h).elim⟩
  names := nofun

variable [DecidableEq τ]

/-- A cache after a step. -/
def after (g : Graph ι) (type : ι → τ) (c : AttributeCache τ) : CacheStep ι → AttributeCache τ
  | .get _ _ => c
  | .getOrDiscover id includeProperties =>
    (c.getOrDiscover (type id) (g.entity id) includeProperties).2
  | .clear => c.clear

/-- An empty cache after a history. -/
def afterAll (g : Graph ι) (type : ι → τ) (steps : List (CacheStep ι)) : AttributeCache τ :=
  steps.foldl (after g type) empty

/-- What is not held has not been discovered. -/
theorem get?_eq_none_iff {t : τ} {includeProperties : Bool} :
    c.get? t includeProperties = none ↔ (t, includeProperties) ∉ c.entries.map (·.1) := by
  rw [get?, List.lookup_eq_none_iff, List.mem_map]
  constructor
  · rintro h ⟨entry, mem, same⟩
    simpa [same] using h entry mem
  · intro h entry mem
    rw [bne_iff_ne]
    exact fun same => h ⟨entry, mem, same.symm⟩

/-- What is held for the type of an entity are its names. -/
theorem Holds.eq_of_get? (holds : Holds g type steps c) {id : ι} {includeProperties : Bool}
    {names : List String} (found : c.get? (type id) includeProperties = some names) :
    names = (g.entity id).introspect includeProperties := by
  obtain ⟨before, after, entries, -⟩ := List.lookup_eq_some_iff.mp found
  have mem : ((type id, includeProperties), names) ∈ c.entries := by
    rw [entries]
    exact List.mem_append_right _ List.mem_cons_self
  exact holds.names _ mem id rfl

/-- A type is found in the cache if it has been discovered, with the names of its entities. -/
theorem Holds.get?_eq_some (holds : Holds g type steps c) {id : ι} {includeProperties : Bool}
    (discovered : CacheStep.Discovered type steps (type id, includeProperties)) :
    c.get? (type id) includeProperties = some ((g.entity id).introspect includeProperties) := by
  cases found : c.get? (type id) includeProperties with
  | none => exact absurd ((holds.discovered _).mpr discovered) (get?_eq_none_iff.mp found)
  | some names => rw [holds.eq_of_get? found]

theorem Holds.get?_eq_none (holds : Holds g type steps c) {id : ι} {includeProperties : Bool}
    (new : ¬ CacheStep.Discovered type steps (type id, includeProperties)) :
    c.get? (type id) includeProperties = none :=
  get?_eq_none_iff.mpr fun mem => new ((holds.discovered _).mp mem)

/-- A look-up gives what is found anew. -/
theorem Holds.getOrDiscover_fst (holds : Holds g type steps c) (id : ι) (includeProperties : Bool) :
    (c.getOrDiscover (type id) (g.entity id) includeProperties).1
      = (g.entity id).introspect includeProperties := by
  rw [getOrDiscover]
  cases found : c.get? (type id) includeProperties with
  | none => rfl
  | some names => exact holds.eq_of_get? found

/-- A step more is a step more of the history. -/
theorem Holds.after (byType : NamesByType g type) (holds : Holds g type steps c)
    (step : CacheStep ι) : Holds g type (steps ++ [step]) (c.after g type step) := by
  cases step with
  | get id includeProperties =>
    refine ⟨holds.distinct, fun key => ?_, holds.names⟩
    rw [CacheStep.discovered_concat_get]
    exact holds.discovered key
  | clear =>
    refine ⟨List.nodup_nil, fun key => ?_, nofun⟩
    exact ⟨nofun, fun h => (CacheStep.not_discovered_concat_clear h).elim⟩
  | getOrDiscover id includeProperties =>
    rw [AttributeCache.after, getOrDiscover]
    cases found : c.get? (type id) includeProperties with
    | some names =>
      -- the type is held already, so its look-up adds nothing to what has been discovered
      have known : CacheStep.Discovered type steps (type id, includeProperties) := by
        by_contra new
        cases found.symm.trans (holds.get?_eq_none new)
      refine ⟨holds.distinct, fun key => ?_, holds.names⟩
      rw [CacheStep.discovered_concat_getOrDiscover, holds.discovered]
      refine ⟨.inr, ?_⟩
      rintro (rfl | before)
      · exact known
      · exact before
    | none =>
      refine ⟨?_, fun key => ?_, ?_⟩
      · exact List.nodup_cons.mpr ⟨get?_eq_none_iff.mp found, holds.distinct⟩
      · rw [CacheStep.discovered_concat_getOrDiscover, ← holds.discovered]
        exact List.mem_cons
      · intro entry mem other ofType
        rcases List.mem_cons.mp mem with rfl | mem
        · obtain ⟨fields, properties⟩ := byType id other ofType.symm
          exact Entity.introspect_congr fields properties includeProperties
        · exact holds.names entry mem other ofType

/-- After any history an empty cache holds what has been discovered in it. -/
theorem holds_afterAll (byType : NamesByType g type) (steps : List (CacheStep ι)) :
    Holds g type steps (afterAll g type steps) := by
  induction steps using List.reverseRecOn with
  | nil => exact holds_empty
  | append_singleton steps step holds =>
    rw [afterAll, List.foldl_append]
    exact holds.after byType step

/-- Where the names of fields and computed attributes depend on the type, a cache that starts empty
changes no answer. After any history

1. a look-up gives what is found anew; the cache itself has that if the type has been looked up in the
   same way since it was cleared last, and has nothing otherwise; and its size is the number of types
   looked up since then, counted apart without and with computed attributes;
2. with any cache a list of the entity's own is taken as it is and the cache is left alone, and without
   one the cache is looked up; after any history this gives what is found without a cache;
3. what is found without computed attributes is the front of what is found with them, no name is found
   twice, and the names are the first occurrences of those of the fields and then of those of the
   computed attributes. -/
theorem transparent (g : Graph ι) (type : ι → τ) (byType : NamesByType g type) :
    (∀ steps,
      (∀ id includeProperties,
        ((afterAll g type steps).getOrDiscover (type id) (g.entity id) includeProperties).1
          = (g.entity id).introspect includeProperties ∧
        (CacheStep.Discovered type steps (type id, includeProperties) →
          (afterAll g type steps).get? (type id) includeProperties
            = some ((g.entity id).introspect includeProperties)) ∧
        (¬ CacheStep.Discovered type steps (type id, includeProperties) →
          (afterAll g type steps).get? (type id) includeProperties = none)) ∧
      (afterAll g type steps).size = {key | CacheStep.Discovered type steps key}.ncard) ∧
    (∀ id includeProperties,
      (∀ (c : AttributeCache τ) keys, (g.entity id).serializableKeys = some keys →
        c.discover (type id) (g.entity id) includeProperties = (keys, c)) ∧
      (∀ c : AttributeCache τ, (g.entity id).serializableKeys = none →
        c.discover (type id) (g.entity id) includeProperties
          = c.getOrDiscover (type id) (g.entity id) includeProperties) ∧
      ∀ steps, ((afterAll g type steps).discover (type id) (g.entity id) includeProperties).1
        = (g.entity id).discover includeProperties) ∧
    ∀ e : Entity ι, e.introspect false <+: e.introspect true ∧
      ∀ includeProperties, (e.introspect includeProperties).Nodup ∧
        e.introspect includeProperties
          = (e.fieldNames ++ if includeProperties then e.propertyNames else []).eraseDups := by
  refine ⟨fun steps => ⟨fun id includeProperties => ?_, ?_⟩, fun id includeProperties => ?_, fun e => ?_⟩
  · have holds := holds_afterAll byType steps
    exact ⟨holds.getOrDiscover_fst id includeProperties, holds.get?_eq_some, holds.get?_eq_none⟩
  · exact (holds_afterAll byType steps).size_eq
  · refine ⟨fun c keys own => ?_, fun c none => ?_, fun steps => ?_⟩
    · rw [discover, own]
    · rw [discover, none]
    · rw [discover, Entity.discover]
      cases (g.entity id).serializableKeys with
      | some keys => rfl
      | none => exact (holds_afterAll byType steps).getOrDiscover_fst id includeProperties
  · exact ⟨e.introspect_prefix, fun includeProperties =>
      ⟨Entity.nodup_appendNew List.nodup_nil _, e.introspect_eq includeProperties⟩⟩

/-- Two entities of one type and one of another. After the cache has been cleared, looking up one of the
first two is enough to find the other, but not without computed attributes. -/
theorem transparent_of_cleared :
    ∃ (g : Graph (Fin 3)) (type : Fin 3 → Bool) (steps : List (CacheStep (Fin 3))),
      type 0 = type 1 ∧ NamesByType g type ∧
      steps = [.getOrDiscover 0 false, .clear, .getOrDiscover 1 true, .get 0 false,
        .getOrDiscover 0 true, .getOrDiscover 2 true] ∧
      CacheStep.Discovered type steps (type 0, true) ∧
      ¬ CacheStep.Discovered type steps (type 0, false) ∧
      (afterAll g type steps).get? (type 0) true = some ["id", "title", "words"] ∧
      (afterAll g type steps).get? (type 0) false = none ∧
      {key | CacheStep.Discovered type steps key}.ncard = 2 := by
  let article : Entity (Fin 3) := {
    typeName := "Article"
    fieldNames := ["id", "title", "id"]
    propertyNames := ["title", "words"]
    read := fun _ => .ok (.scalar .null) }
  let pinned : Entity (Fin 3) := { article with serializableKeys := some ["title"] }
  let g : Graph (Fin 3) := ⟨fun id => if id = 2 then pinned else article⟩
  let type : Fin 3 → Bool := fun id => id = 2
  let steps : List (CacheStep (Fin 3)) := [.getOrDiscover 0 false, .clear, .getOrDiscover 1 true,
    .get 0 false, .getOrDiscover 0 true, .getOrDiscover 2 true]
  have byType : NamesByType g type := by
    intro id id' _
    have names : ∀ id, (g.entity id).fieldNames = article.fieldNames ∧
        (g.entity id).propertyNames = article.propertyNames := by
      decide
    rw [(names id).1, (names id').1, (names id).2, (names id').2]
    exact ⟨rfl, rfl⟩
  obtain ⟨answers, size⟩ := (transparent g type byType).1 steps
  have discovered : CacheStep.Discovered type steps (type 0, true) :=
    ⟨steps.take 4, 0, [.getOrDiscover 2 true], rfl, rfl, by simp⟩
  have new : ¬ CacheStep.Discovered type steps (type 0, false) := by
    intro h
    cases (((answers 0 false).2.1 h).symm : _ = Option.none)
  exact ⟨g, type, steps, rfl, byType, rfl, discovered, new, (answers 0 true).2.1 discovered,
    (answers 0 false).2.2 new, size.symm⟩

end AttributeCache

end EntityJson
