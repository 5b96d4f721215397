import EntityJson.Proofs.Serializer.Calls
import EntityJson.Proofs.Serializer.Filtered

/-!
# What hidden entries decide

The entries of a map that the caller's rules hide are not read, so one would expect a value and the
part of it that is shown (`Value.shown`), which has the places along visible paths and no others
(`Value.hasPath_shown`), to be serialized alike. The depth limit is the exception. It looks at a value
before the rules are applied to its inside: an entry that is read at the limit is left out if an entity
is found anywhere in its value, in hidden entries too. So two values with the same shown part are
serialized alike if they agree about that, entry by entry (`Value.crossings`,
`Serializer.serializeValue_eq_of_shown_eq`), and where no limit is set they always are
(`Serializer.serializeValue_eq_of_shown_eq_without_limit`).

Entities within a value are the same in both, and so is what becomes of them. The proof goes through
both values at once, with the keys that are left down to the limit. Below the limit nothing is left of
a value in which an entity is found, and any other value is filtered by the rules alone.
-/

namespace EntityJson

variable {ι : Type}

namespace Value

mutual

/-- The part of a value that a schema shows: the entries of maps whose keys are hidden are removed. -/
def shown (s : Schema) : Value ι → Value ι
  | .map es => .map (shownEntries s es)
  | .seq vs => .seq (shownItems s vs)
  | .deferred label (.ok v) => .deferred label (.ok (shown s v))
  | v => v

def shownEntries (s : Schema) : List (String × Value ι) → List (String × Value ι)
  | [] => []
  | (key, v) :: rest =>
    if s.isIncluded key then (key, shown (s.descend key) v) :: shownEntries s rest
    else shownEntries s rest

def shownItems (s : Schema) : List (Value ι) → List (Value ι)
  | [] => []
  | v :: rest => shown s v :: shownItems s rest

end

/-- A value has a place at the end of a path of keys; the positions in a sequence are skipped. -/
inductive HasPath : Value ι → List String → Prop where
  | here (v : Value ι) : HasPath v []
  | entry {es : List (String × Value ι)} {key : String} {v : Value ι} {p : List String} :
      (key, v) ∈ es → HasPath v p → HasPath (.map es) (key :: p)
  | item {vs : List (Value ι)} {v : Value ι} {p : List String} :
      v ∈ vs → HasPath v p → HasPath (.seq vs) p
  | deferred {label : String} {v : Value ι} {p : List String} :
      HasPath v p → HasPath (.deferred label (.ok v)) p

/-- Whether an entity is found in a value once it has been worked out. -/
def leads : Value ι → Bool
  | .deferred _ (.ok v) => leads v
  | .deferred _ (.error _) => false
  | v => v.reachesEntity

mutual

/-- For each entry that is shown and is read at the depth limit, whether an entity is found in its
value, hidden entries included. The second argument is the number of keys left down to the limit, if
there is one. -/
def crossings (s : Schema) (left : Option Nat) : Value ι → List Bool
  | .map es => crossingsOfEntries s left es
  | .seq vs => crossingsOfItems s left vs
  | .deferred _ (.ok v) => crossings s left v
  | _ => []

def crossingsOfEntries (s : Schema) (left : Option Nat) : List (String × Value ι) → List Bool
  | [] => []
  | (key, v) :: rest =>
    if s.isIncluded key then
      (if left = some 0 then [v.leads] else crossings (s.descend key) (left.map (· - 1)) v)
        ++ crossingsOfEntries s left rest
    else crossingsOfEntries s left rest

def crossingsOfItems (s : Schema) (left : Option Nat) : List (Value ι) → List Bool
  | [] => []
  | v :: rest => crossings s left v ++ crossingsOfItems s left rest

end

mutual

/-- Without a limit no entry is read at it. -/
theorem crossings_none (s : Schema) : (v : Value ι) → v.crossings s none = []
  | .map es => crossingsOfEntries_none s es
  | .seq vs => crossingsOfItems_none s vs
  | .deferred _ (.ok v) => crossings_none s v
  | .deferred _ (.error _) => rfl
  | .scalar _ => rfl
  | .member .. => rfl
  | .entity _ => rfl
  | .foreign .. => rfl

theorem crossingsOfEntries_none (s : Schema) :
    (es : List (String × Value ι)) → crossingsOfEntries s none es = []
  | [] => rfl
  | (key, v) :: rest => by
    have others := crossingsOfEntries_none s rest
    unfold crossingsOfEntries
    split
    · rw [if_neg nofun, Option.map_none, crossings_none (s.descend key) v, others, List.append_nil]
    · exact others

theorem crossingsOfItems_none (s : Schema) :
    (vs : List (Value ι)) → crossingsOfItems s none vs = []
  | [] => rfl
  | v :: rest => by
    rw [crossingsOfItems, crossings_none s v, crossingsOfItems_none s rest, List.append_nil]

end

/-! ## Values with the same shown part -/

theorem exists_map_of_shown {s : Schema} {w : Value ι} {es : List (String × Value ι)}
    (h : w.shown s = .map es) : ∃ fs, w = .map fs ∧ shownEntries s fs = es := by
  cases w with
  | map fs => exact ⟨fs, rfl, Value.map.inj h⟩
  | deferred label outcome => cases outcome <;> cases h
  | _ => cases h

theorem exists_seq_of_shown {s : Schema} {w : Value ι} {vs : List (Value ι)}
    (h : w.shown s = .seq vs) : ∃ ws, w = .seq ws ∧ shownItems s ws = vs := by
  cases w with
  | seq ws => exact ⟨ws, rfl, Value.seq.inj h⟩
  | deferred label outcome => cases outcome <;> cases h
  | _ => cases h

theorem exists_deferred_of_shown {s : Schema} {w v : Value ι} {label : String}
    (h : w.shown s = .deferred label (.ok v)) :
    ∃ w', w = .deferred label (.ok w') ∧ w'.shown s = v := by
  cases w with
  | deferred other outcome =>
    cases outcome with
    | error cause => cases h
    | ok w' =>
      cases h
      exact ⟨w', rfl, rfl⟩
  | _ => cases h

theorem mem_shownEntries {s : Schema} {es : List (String × Value ι)} {key : String} {w : Value ι} :
    (key, w) ∈ shownEntries s es
      ↔ s.isIncluded key ∧ ∃ v, (key, v) ∈ es ∧ v.shown (s.descend key) = w := by
  induction es with
  | nil => simp [shownEntries]
  | cons e rest ih =>
    rw [shownEntries]
    split <;> grind

theorem mem_shownItems {s : Schema} {vs : List (Value ι)} {w : Value ι} :
    w ∈ shownItems s vs ↔ ∃ v ∈ vs, v.shown s = w := by
  induction vs with
  | nil => simp [shownItems]
  | cons v rest ih => simp [shownItems, ih, eq_comm]

/-- Of the places in a value those are shown that are reached along a visible path. -/
theorem hasPath_shown {s : Schema} {v : Value ι} {p : List String} :
    (v.shown s).HasPath p ↔ v.HasPath p ∧ s.visible p := by
  constructor
  · intro h
    generalize part : v.shown s = u at h
    induction h generalizing v s with
    | here u => exact ⟨.here v, rfl⟩
    | entry mem _ ih =>
      obtain ⟨es, rfl, rfl⟩ := exists_map_of_shown part
      obtain ⟨included, x, mem, below⟩ := mem_shownEntries.mp mem
      obtain ⟨path, visible⟩ := ih below
      exact ⟨.entry mem path, Bool.and_eq_true_iff.mpr ⟨included, visible⟩⟩
    | item mem _ ih =>
      obtain ⟨vs, rfl, rfl⟩ := exists_seq_of_shown part
      obtain ⟨x, mem, same⟩ := mem_shownItems.mp mem
      obtain ⟨path, visible⟩ := ih same
      exact ⟨.item mem path, visible⟩
    | deferred _ ih =>
      obtain ⟨x, rfl, same⟩ := exists_deferred_of_shown part
      obtain ⟨path, visible⟩ := ih same
      exact ⟨.deferred path, visible⟩
  · rintro ⟨path, visible⟩
    induction path generalizing s with
    | here v => exact .here _
    | entry mem _ ih =>
      obtain ⟨included, below⟩ := Bool.and_eq_true_iff.mp visible
      exact .entry (mem_shownEntries.mpr ⟨included, _, mem, rfl⟩) (ih below)
    | item mem _ ih => exact .item (mem_shownItems.mpr ⟨_, mem, rfl⟩) (ih visible)
    | deferred _ ih => exact .deferred (ih visible)

/-- What has no parts is shown as it is, and by nothing else. -/
theorem eq_of_shown {s : Schema} {w v : Value ι} (h : w.shown s = v) (map : ∀ es, v ≠ .map es)
    (seq : ∀ vs, v ≠ .seq vs) (deferred : ∀ label x, v ≠ .deferred label (.ok x)) : w = v := by
  cases w with
  | map es => exact absurd h.symm (map _)
  | seq vs => exact absurd h.symm (seq _)
  | deferred label outcome =>
    cases outcome with
    | ok x => exact absurd h.symm (deferred _ _)
    | error cause => exact h
  | _ => exact h

theorem hidden_of_shownEntries_eq_nil {s : Schema} {fs : List (String × Value ι)}
    (h : shownEntries s fs = []) : ∀ e ∈ fs, s.isIncluded e.1 = false := by
  induction fs with
  | nil => exact nofun
  | cons e rest ih =>
    rw [shownEntries] at h
    split at h
    · cases h
    · next hidden =>
      exact List.forall_mem_cons.mpr ⟨Bool.eq_false_iff.mpr hidden, ih h⟩

/-- An entry that is shown first may have hidden ones in front of it. -/
theorem exists_of_shownEntries_eq_cons {s : Schema} {fs es : List (String × Value ι)} {key : String}
    {v : Value ι} (h : shownEntries s fs = (key, v) :: es) :
    ∃ hidden w rest, fs = hidden ++ (key, w) :: rest ∧ (∀ e ∈ hidden, s.isIncluded e.1 = false) ∧
      s.isIncluded key = true ∧ w.shown (s.descend key) = v ∧ shownEntries s rest = es := by
  induction fs with
  | nil => cases h
  | cons e rest ih =>
    rw [shownEntries] at h
    split at h
    · next included =>
      cases h
      exact ⟨[], e.2, rest, rfl, nofun, included, rfl, rfl⟩
    · next hidden =>
      obtain ⟨before, w, after, rfl, all, found⟩ := ih h
      refine ⟨e :: before, w, after, rfl, ?_, found⟩
      exact List.forall_mem_cons.mpr ⟨Bool.eq_false_iff.mpr hidden, all⟩

theorem crossingsOfEntries_append {s : Schema} {left : Option Nat}
    {hidden : List (String × Value ι)} (h : ∀ e ∈ hidden, s.isIncluded e.1 = false)
    (es : List (String × Value ι)) :
    crossingsOfEntries s left (hidden ++ es) = crossingsOfEntries s left es := by
  induction hidden with
  | nil => rfl
  | cons e hidden ih =>
    obtain ⟨here, others⟩ := List.forall_mem_cons.mp h
    rw [List.cons_append, crossingsOfEntries, here, if_neg Bool.false_ne_true]
    exact ih others

mutual

/-- The filter does not look at what is hidden. -/
theorem filtered_shown (g : Graph ι) (o : Options ι) (s : Schema) :
    (v : Value ι) → (v.shown s).filtered g o s = v.filtered g o s
  | .map es => congrArg (Json.obj <$> ·) (filteredEntries_shown g o s es)
  | .seq vs => congrArg (Json.arr <$> ·) (filteredItems_shown g o s vs)
  | .deferred _ (.ok _) | .deferred _ (.error _) => rfl
  | .scalar _ | .member _ _ _ | .entity _ | .foreign _ _ => rfl

theorem filteredEntries_shown (g : Graph ι) (o : Options ι) (s : Schema) :
    (es : List (String × Value ι)) →
      filteredEntries g o s (shownEntries s es) = filteredEntries g o s es
  | [] => rfl
  | (key, v) :: rest => by
    rw [shownEntries]
    by_cases included : s.isIncluded key
    · rw [if_pos included, filteredEntries, filteredEntries, if_pos included, if_pos included,
        filtered_shown g o (s.descend key) v, filteredEntries_shown g o s rest]
    · rw [if_neg included, filteredEntries, if_neg included]
      exact filteredEntries_shown g o s rest

theorem filteredItems_shown (g : Graph ι) (o : Options ι) (s : Schema) :
    (vs : List (Value ι)) → filteredItems g o s (shownItems s vs) = filteredItems g o s vs
  | [] => rfl
  | v :: rest => by
    rw [shownItems, filteredItems, filteredItems, filtered_shown g o s v,
      filteredItems_shown g o s rest]

end

end Value

namespace Traversal

variable {g : Graph ι} {enter : Scope ι → ι → Run Json} {o : Options ι}

/-- Hidden entries in front of a list are passed over. -/
theorem entries_append {frame : Frame ι} {hidden : List (String × Value ι)}
    (h : ∀ e ∈ hidden, frame.schema.isIncluded e.1 = false) (es : List (String × Value ι)) :
    entries g enter frame (hidden ++ es) = entries g enter frame es := by
  induction hidden with
  | nil => rfl
  | cons e hidden ih =>
    obtain ⟨here, others⟩ := List.forall_mem_cons.mp h
    rw [List.cons_append, entries, here, if_neg Bool.false_ne_true]
    exact ih others

/-- Maps entered through one scope are alike if their entries are in the frame that is entered. -/
theorem mapIn_congr {scope : Scope ι} {s : Schema} (filters : scope.Filters o s)
    {body body' : Frame ι → Run (List (String × Json))}
    (h : ∀ frame : Frame ι, frame.Filters o s → frame.depth = scope.depth → body frame = body' frame) :
    mapIn scope body = mapIn scope body' := by
  obtain ⟨t, entered, agrees⟩ := filters.schema
  unfold mapIn Scope.enter
  rw [entered]
  show (Json.obj <$> body ⟨t, scope.options, scope.depth⟩ : Run Json)
    = Json.obj <$> body' ⟨t, scope.options, scope.depth⟩
  rw [h _ ⟨filters.options, agrees⟩ rfl]

/-- A map or a sequence under a name is left out or entered. -/
theorem convertedUnder_eq {frame : Frame ι} (plain : frame.options.PlainUndropped) {v : Value ι}
    (formless : frame.options.convertBuiltin? v = none) (key : String)
    (entered : Unit → Run Json) :
    convertedUnder g frame key v entered
      = if frame.isCut g v then pure none else some <$> entered () := by
  unfold convertedUnder
  rw [plain.convertByName?, formless]
  rfl

/-- Above the limit of the options nothing is left out but entities that ask for it. -/
theorem isCut_above {frame : Frame ι} {left : Option Nat}
    (limit : frame.options.maxDepth = left.map (· + frame.depth)) (above : left ≠ some 0)
    {v : Value ι} (undeclared : g.declaredMaxDepth v = none) : frame.isCut g v = false := by
  cases left with
  | none =>
    unfold Frame.isCut
    rw [limit, undeclared]
    rfl
  | some n =>
    refine Bool.eq_false_iff.mpr fun cut => above ?_
    have deep : n + frame.depth ≤ frame.depth := ((Frame.isCut_iff limit).mp cut).1
    have none : n = 0 := by omega
    rw [none]

/-- One key further there is one key less left. -/
theorem limit_under {limit left : Option Nat} {depth : Nat} (h : limit = left.map (· + depth))
    (above : left ≠ some 0) : limit = (left.map (· - 1)).map (· + (depth + 1)) := by
  cases left with
  | none => exact h
  | some n =>
    have : n ≠ 0 := fun h => above (congrArg some h)
    rw [h]
    show some (n + depth) = some (n - 1 + (depth + 1))
    congr 1
    omega

/-- At the limit a map or a sequence is left out if an entity is found in it, and filtered if not. -/
theorem named_at_limit (plain : o.PlainUndropped) {s : Schema} {frame : Frame ι} {key : String}
    (nested : frame.options.forNested = o.forNested) (filters : (frame.under key).Filters o s)
    (limit : o.maxDepth = some frame.depth) {v : Value ι}
    (parts : (∃ es, v = .map es) ∨ ∃ vs, v = .seq vs) :
    named g enter frame key v
      = if v.reachesEntity then pure none else some <$> Run.ofExcept (v.filtered g o s) := by
  have framePlain := plainUndropped_of_forNested_eq plain nested
  have frameLimit : frame.options.maxDepth = some frame.depth :=
    (congrArg Options.maxDepth nested).trans limit
  by_cases reaches : v.reachesEntity
  · have cut : frame.isCut g v = true := by
      unfold Frame.isCut
      rw [frameLimit, reaches]
      exact Bool.and_eq_true_iff.mpr ⟨decide_eq_true (Nat.le_refl _), rfl⟩
    rw [if_pos reaches]
    rcases parts with ⟨es, rfl⟩ | ⟨vs, rfl⟩
    · rw [named, convertedUnder_eq framePlain rfl, cut]
      rfl
    · rw [named, convertedUnder_eq framePlain rfl, cut]
      rfl
  · have plainValue := Bool.eq_false_iff.mpr reaches
    rw [if_neg reaches, named_eq_value framePlain key key plainValue,
      value_eq_filtered plain filters key v plainValue]

/-- Two maps or sequences with the same shown part are alike at the limit if an entity is found in both
or in neither. -/
theorem named_eq_at_limit (plain : o.PlainUndropped) {s : Schema} {v w : Value ι}
    (h : v.shown s = w.shown s) (leads : v.leads = w.leads)
    (hv : (∃ es, v = .map es) ∨ ∃ vs, v = .seq vs) (hw : (∃ es, w = .map es) ∨ ∃ vs, w = .seq vs)
    (frame : Frame ι) (key : String) (nested : frame.options.forNested = o.forNested)
    (filters : (frame.under key).Filters o s)
    (limit : o.maxDepth = (some 0).map (· + frame.depth)) :
    named g enter frame key v = named g enter frame key w := by
  have atLimit : o.maxDepth = some frame.depth :=
    limit.trans (congrArg some (Nat.zero_add frame.depth))
  have filtered : v.filtered g o s = w.filtered g o s := by
    rw [← Value.filtered_shown, h, Value.filtered_shown]
  have reaches : v.reachesEntity = w.reachesEntity := by
    rcases hv with ⟨es, rfl⟩ | ⟨vs, rfl⟩ <;> rcases hw with ⟨fs, rfl⟩ | ⟨ws, rfl⟩ <;> exact leads
  rw [named_at_limit plain nested filters atLimit hv,
    named_at_limit plain nested filters atLimit hw, filtered, reaches]

mutual

/-- Two values with the same shown part that agree about what is found in them at the limit are
serialized alike, in every scope that filters by the schema. -/
theorem value_eq_of_shown (plain : o.PlainUndropped) {s : Schema} {left : Option Nat} :
    (v : Value ι) → {w : Value ι} → {xs ys : List Bool} → v.shown s = w.shown s →
      v.crossings s left ++ xs = w.crossings s left ++ ys →
      xs = ys ∧ ∀ (place : String) (scope : Scope ι), scope.Filters o s →
        o.maxDepth = left.map (· + scope.depth) →
          value g enter place scope v = value g enter place scope w
  | .map es, _, _, _, h, crossings => by
    obtain ⟨fs, rfl, parts⟩ := Value.exists_map_of_shown h.symm
    obtain ⟨tails, bodies⟩ := entries_eq_of_shown plain es parts.symm crossings
    refine ⟨tails, fun place scope filters limit => ?_⟩
    rw [value, value, converted_eq plain filters.options, converted_eq plain filters.options]
    exact mapIn_congr filters fun frame filters' depth => bodies frame filters' (depth ▸ limit)
  | .seq vs, _, _, _, h, crossings => by
    obtain ⟨ws, rfl, parts⟩ := Value.exists_seq_of_shown h.symm
    obtain ⟨tails, bodies⟩ := items_eq_of_shown plain vs parts.symm crossings
    refine ⟨tails, fun place scope filters limit => ?_⟩
    rw [value, value, converted_eq plain filters.options, converted_eq plain filters.options]
    exact congrArg (Json.arr <$> ·) (bodies 0 scope filters limit)
  | .deferred label (.ok v), _, _, _, h, crossings => by
    obtain ⟨w, rfl, part⟩ := Value.exists_deferred_of_shown h.symm
    obtain ⟨tails, bodies⟩ := value_eq_of_shown plain v part.symm crossings
    refine ⟨tails, fun place scope filters limit => ?_⟩
    rw [value, value, bodies place scope filters limit]
  | .deferred _ (.error _), _, _, _, h, crossings | .scalar _, _, _, _, h, crossings
  | .member _ _ _, _, _, _, h, crossings | .entity _, _, _, _, h, crossings
  | .foreign _ _, _, _, _, h, crossings => by
    obtain rfl := Value.eq_of_shown h.symm nofun nofun nofun
    exact ⟨List.append_cancel_left crossings, fun _ _ _ _ => rfl⟩

theorem named_eq_of_shown (plain : o.PlainUndropped) {s : Schema} {left : Option Nat} :
    (v : Value ι) → {w : Value ι} → {xs ys : List Bool} → v.shown s = w.shown s →
      (if left = some 0 then [v.leads] else v.crossings s (left.map (· - 1))) ++ xs
        = (if left = some 0 then [w.leads] else w.crossings s (left.map (· - 1))) ++ ys →
      xs = ys ∧ ∀ (frame : Frame ι) (key : String), frame.options.forNested = o.forNested →
        (frame.under key).Filters o s → o.maxDepth = left.map (· + frame.depth) →
          named g enter frame key v = named g enter frame key w
  | .map es, _, _, _, h, crossings => by
    obtain ⟨fs, rfl, parts⟩ := Value.exists_map_of_shown h.symm
    by_cases here : left = some 0
    · subst here
      obtain ⟨leads, tails⟩ := List.cons.inj crossings
      exact ⟨tails, named_eq_at_limit plain h leads (.inl ⟨es, rfl⟩) (.inl ⟨fs, rfl⟩)⟩
    · rw [if_neg here, if_neg here] at crossings
      obtain ⟨tails, bodies⟩ := entries_eq_of_shown plain es parts.symm crossings
      refine ⟨tails, fun frame key nested filters limit => ?_⟩
      have framePlain := plainUndropped_of_forNested_eq plain nested
      have frameLimit := (congrArg Options.maxDepth nested).trans limit
      rw [named, named, convertedUnder_eq framePlain rfl, convertedUnder_eq framePlain rfl,
        isCut_above frameLimit here rfl, isCut_above frameLimit here rfl]
      exact congrArg (some <$> ·) (mapIn_congr filters fun frame' filters' depth =>
        bodies frame' filters' (depth ▸ limit_under limit here))
  | .seq vs, _, _, _, h, crossings => by
    obtain ⟨ws, rfl, parts⟩ := Value.exists_seq_of_shown h.symm
    by_cases here : left = some 0
    · subst here
      obtain ⟨leads, tails⟩ := List.cons.inj crossings
      exact ⟨tails, named_eq_at_limit plain h leads (.inr ⟨vs, rfl⟩) (.inr ⟨ws, rfl⟩)⟩
    · rw [if_neg here, if_neg here] at crossings
      obtain ⟨tails, bodies⟩ := items_eq_of_shown plain vs parts.symm crossings
      refine ⟨tails, fun frame key nested filters limit => ?_⟩
      have framePlain := plainUndropped_of_forNested_eq plain nested
      have frameLimit := (congrArg Options.maxDepth nested).trans limit
      rw [named, named, convertedUnder_eq framePlain rfl, convertedUnder_eq framePlain rfl,
        isCut_above frameLimit here rfl, isCut_above frameLimit here rfl]
      exact congrArg (fun run => some <$> Json.arr <$> run)
        (bodies 0 (frame.under key) filters (limit_under limit here))
  | .deferred label (.ok v), _, _, _, h, crossings => by
    obtain ⟨w, rfl, part⟩ := Value.exists_deferred_of_shown h.symm
    obtain ⟨tails, bodies⟩ := named_eq_of_shown plain v part.symm crossings
    refine ⟨tails, fun frame key nested filters limit => ?_⟩
    rw [named, named, bodies frame key nested filters limit]
  | .deferred _ (.error _), _, _, _, h, crossings | .scalar _, _, _, _, h, crossings
  | .member _ _ _, _, _, _, h, crossings | .entity _, _, _, _, h, crossings
  | .foreign _ _, _, _, _, h, crossings => by
    obtain rfl := Value.eq_of_shown h.symm nofun nofun nofun
    exact ⟨List.append_cancel_left crossings, fun _ _ _ _ _ => rfl⟩

theorem entries_eq_of_shown (plain : o.PlainUndropped) {s : Schema} {left : Option Nat} :
    (es : List (String × Value ι)) → {fs : List (String × Value ι)} → {xs ys : List Bool} →
      Value.shownEntries s es = Value.shownEntries s fs →
      Value.crossingsOfEntries s left es ++ xs = Value.crossingsOfEntries s left fs ++ ys →
      xs = ys ∧ ∀ frame : Frame ι, frame.Filters o s → o.maxDepth = left.map (· + frame.depth) →
        entries g enter frame es = entries g enter frame fs
  | [], fs, _, _, h, crossings => by
    have hidden := Value.hidden_of_shownEntries_eq_nil h.symm
    have none : Value.crossingsOfEntries s left fs = [] := by
      rw [← List.append_nil fs, Value.crossingsOfEntries_append hidden, Value.crossingsOfEntries]
    rw [none] at crossings
    refine ⟨crossings, fun frame filters _ => ?_⟩
    rw [← List.append_nil fs,
      entries_append fun e he => (filters.schema.isIncluded e.1).trans (hidden e he)]
  | (key, v) :: rest, _, _, _, h, crossings => by
    by_cases included : s.isIncluded key
    · rw [Value.shownEntries, if_pos included] at h
      obtain ⟨hidden, w, after, rfl, all, -, part, others⟩ :=
        Value.exists_of_shownEntries_eq_cons h.symm
      rw [Value.crossingsOfEntries_append all, Value.crossingsOfEntries, Value.crossingsOfEntries,
        if_pos included, if_pos included, List.append_assoc, List.append_assoc] at crossings
      obtain ⟨tails, here⟩ := named_eq_of_shown plain v part.symm crossings
      obtain ⟨tails, bodies⟩ := entries_eq_of_shown plain rest others.symm tails
      refine ⟨tails, fun frame filters limit => ?_⟩
      rw [entries_append fun e he => (filters.schema.isIncluded e.1).trans (all e he), entries,
        entries, here frame key filters.options (filters.under key) limit, bodies frame filters limit]
    · rw [Value.shownEntries, if_neg included] at h
      rw [Value.crossingsOfEntries, if_neg included] at crossings
      obtain ⟨tails, bodies⟩ := entries_eq_of_shown plain rest h crossings
      refine ⟨tails, fun frame filters limit => ?_⟩
      rw [entries, filters.schema.isIncluded key, if_neg included]
      exact bodies frame filters limit

theorem items_eq_of_shown (plain : o.PlainUndropped) {s : Schema} {left : Option Nat} :
    (vs : List (Value ι)) → {ws : List (Value ι)} → {xs ys : List Bool} →
      Value.shownItems s vs = Value.shownItems s ws →
      Value.crossingsOfItems s left vs ++ xs = Value.crossingsOfItems s left ws ++ ys →
      xs = ys ∧ ∀ (position : Nat) (scope : Scope ι), scope.Filters o s →
        o.maxDepth = left.map (· + scope.depth) →
          items g enter scope position vs = items g enter scope position ws
  | [], [], _, _, _, crossings => ⟨crossings, fun _ _ _ _ => rfl⟩
  | v :: rest, w :: others, _, _, h, crossings => by
    obtain ⟨part, parts⟩ := List.cons.inj h
    rw [Value.crossingsOfItems, Value.crossingsOfItems, List.append_assoc,
      List.append_assoc] at crossings
    obtain ⟨tails, here⟩ := value_eq_of_shown plain v part crossings
    obtain ⟨tails, bodies⟩ := items_eq_of_shown plain rest parts tails
    refine ⟨tails, fun position scope filters limit => ?_⟩
    rw [items, items, here _ scope filters limit, bodies (position + 1) scope filters limit]

end

end Traversal

/-- The schema that the caller's rules make filters a value at the root. -/
theorem Traversal.serializeValue_eq_of_shown {o : Options ι} (plain : o.PlainUndropped) {s : Schema}
    (layered : Schema.layered [] [] o.only o.rules = .ok s) {v w : Value ι}
    (shown : v.shown s = w.shown s)
    (crossings : v.crossings s o.maxDepth = w.crossings s o.maxDepth) (g : Graph ι) :
    (⟨g, o⟩ : Serializer ι).serializeValue v = (⟨g, o⟩ : Serializer ι).serializeValue w := by
  have filters : (Scope.root o).Filters o s := ⟨rfl, _, layered, Schema.Agrees.refl _⟩
  have limit : o.maxDepth = o.maxDepth.map (· + (Scope.root o).depth) := by
    cases o.maxDepth <;> rfl
  have same : v.crossings s o.maxDepth ++ [] = w.crossings s o.maxDepth ++ [] :=
    congrArg (· ++ []) crossings
  exact (Traversal.value_eq_of_shown plain v shown same).2 "<root>" (.root o) filters limit

/-- Without a limit values with the same shown part are serialized alike. -/
theorem Serializer.serializeValue_eq_of_shown_eq_without_limit (g : Graph ι) (o : Options ι)
    (plain : o.PlainUndropped) (unlimited : o.maxDepth = none) {s : Schema}
    (layered : Schema.layered [] [] o.only o.rules = .ok s) {v w : Value ι}
    (shown : v.shown s = w.shown s) :
    (⟨g, o⟩ : Serializer ι).serializeValue v = (⟨g, o⟩ : Serializer ι).serializeValue w := by
  refine Traversal.serializeValue_eq_of_shown plain layered shown ?_ g
  rw [unlimited, v.crossings_none, w.crossings_none]

/-- Values with the same shown part are serialized alike, to the same JSON or the same error and with
the same events, if at each entry that is shown and is read at the depth limit an entity is found in
the value of both or of neither. Without a limit the condition is empty (`Value.crossings_none`). -/
theorem Serializer.serializeValue_eq_of_shown_eq (g : Graph ι) (o : Options ι)
    (plain : o.PlainUndropped) {exact additive : List Rule} (ho : Rule.parseAll o.only = .ok exact)
    (hr : Rule.parseAll o.rules = .ok additive) :
    ∃ s, Schema.layered [] [] o.only o.rules = .ok s ∧
      ∀ v w : Value ι, v.shown s = w.shown s →
        v.crossings s o.maxDepth = w.crossings s o.maxDepth →
        (⟨g, o⟩ : Serializer ι).serializeValue v = (⟨g, o⟩ : Serializer ι).serializeValue w := by
  have empty : Rule.parseAll [] = .ok [] := rfl
  have layered := Schema.layered_of_parseAll empty empty ho hr
  refine ⟨_, layered, fun v w shown crossings => ?_⟩
  exact Traversal.serializeValue_eq_of_shown plain layered shown crossings g

/-- A hidden entity above the limit has no part in it, nor what is beside it at the limit: `y` is left
out for the entity that it shows. -/
theorem Serializer.serializeValue_eq_of_shown_eq_above_limit :
    ∃ (g : Graph Unit) (o : Options Unit) (exact additive : List Rule) (v w : Value Unit),
      o.maxDepth = some 1 ∧ o.PlainUndropped ∧ Rule.parseAll o.only = .ok exact ∧
        Rule.parseAll o.rules = .ok additive ∧ v ≠ w ∧
        (⟨g, o⟩ : Serializer Unit).serializeValue v = (⟨g, o⟩ : Serializer Unit).serializeValue w ∧
        (⟨g, o⟩ : Serializer Unit).serializeValue v = pure (.obj [("a", .obj [])]) := by
  let g : Graph Unit := ⟨fun _ => { typeName := "T", fieldNames := [], read := fun _ => .error "" }⟩
  let o : Options Unit := { rules := ["-a.x"], maxDepth := some 1 }
  let additive : List Rule := [⟨.drop, ["a", "x"], nofun, by decide⟩]
  let v : Value Unit := .map [("a", .map [("x", .entity ()), ("y", .seq [.entity ()])])]
  let w : Value Unit := .map [("a", .map [("x", .scalar .null), ("y", .seq [.entity ()])])]
  have plain : o.PlainUndropped := ⟨rfl, rfl, rfl⟩
  have ho : Rule.parseAll o.only = .ok [] := rfl
  have hr : Rule.parseAll o.rules = .ok additive := rfl
  have empty : Rule.parseAll [] = .ok [] := rfl
  obtain ⟨s, layered, same⟩ := serializeValue_eq_of_shown_eq g o plain ho hr
  rw [Schema.layered_of_parseAll empty empty ho hr] at layered
  cases layered
  have different : v ≠ w := by simp [v, w]
  exact ⟨g, o, [], additive, v, w, rfl, plain, ho, hr, different, same v w rfl rfl, rfl⟩

/-- At the limit what is hidden counts: of two maps that show the same, the one with a hidden entity
loses the entry around it. -/
theorem Serializer.serializeValue_ne_of_shown_eq :
    ∃ (g : Graph Unit) (o : Options Unit) (s : Schema) (v w : Value Unit),
      o.PlainUndropped ∧ o.keys = none ∧ Schema.layered [] [] o.only o.rules = .ok s ∧
        v.shown s = w.shown s ∧
        ((⟨g, o⟩ : Serializer Unit).serializeValue v).outcome = .ok (.obj []) ∧
        ((⟨g, o⟩ : Serializer Unit).serializeValue w).outcome
          = .ok (.obj [("a", .obj [("y", .null)])]) := by
  let g : Graph Unit := ⟨fun _ => { typeName := "T", fieldNames := [], read := fun _ => .error "" }⟩
  let o : Options Unit := { rules := ["-a.x"], maxDepth := some 0 }
  let v : Value Unit := .map [("a", .map [("x", .entity ()), ("y", .scalar .null)])]
  let w : Value Unit := .map [("a", .map [("y", .scalar .null)])]
  have plain : o.PlainUndropped := ⟨rfl, rfl, rfl⟩
  exact ⟨g, o, _, v, w, plain, rfl, rfl, rfl, rfl, rfl⟩

end EntityJson
