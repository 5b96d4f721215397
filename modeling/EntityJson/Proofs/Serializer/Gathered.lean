import EntityJson.Serializer.Basic

/-!
# Attributes that are named again

The attributes of an entity are written in the order of their names, and a name that comes again
replaces its first value and keeps its place. Reading an attribute gives the same value each time, so
nothing is replaced by anything else, and what comes of the names is what comes of each of them once,
put together like the entries of a map (`Traversal.attributes_outcome`). Only the events tell how often
a name was read.
-/

namespace EntityJson

/-! ## Members that are inserted again -/

namespace Json

/-- A new key comes last. -/
theorem insert_eq_append {key : String} {ms : List (String × Json)} (absent : ∀ m ∈ ms, m.1 ≠ key)
    (value : Json) : insert key value ms = ms ++ [(key, value)] := by
  induction ms with
  | nil => rfl
  | cons m rest ih =>
    obtain ⟨here, others⟩ := List.forall_mem_cons.mp absent
    rw [insert, if_neg here, ih others, List.cons_append]

/-- A member that is there stays there when others come behind it. -/
theorem insert_append_of_eq_self {key : String} {value : Json} {ms : List (String × Json)}
    (same : insert key value ms = ms) (ns : List (String × Json)) :
    insert key value (ms ++ ns) = ms ++ ns := by
  induction ms with
  | nil => cases same
  | cons m rest ih =>
    obtain ⟨other, old⟩ := m
    rw [insert] at same
    rw [List.cons_append, insert]
    split
    · next found =>
      rw [if_pos found] at same
      rw [(List.cons.inj same).1]
    · next further =>
      rw [if_neg further] at same
      rw [ih (List.cons.inj same).2]

/-- A member that has just come last is found there. -/
theorem insert_append_singleton {key : String} {ms : List (String × Json)}
    (absent : ∀ m ∈ ms, m.1 ≠ key) (value : Json) :
    insert key value (ms ++ [(key, value)]) = ms ++ [(key, value)] := by
  induction ms with
  | nil => rw [List.nil_append, insert, if_pos rfl]
  | cons m rest ih =>
    obtain ⟨here, others⟩ := List.forall_mem_cons.mp absent
    rw [List.cons_append, insert, if_neg here, ih others]

end Json

/-! ## Outcomes -/

namespace Run

variable {α β : Type}

/-- What comes of two runs one after the other hangs on what comes of each. -/
theorem outcome_bind (x : Run α) (f : α → Run β) :
    (x >>= f).outcome = x.outcome >>= fun a => (f a).outcome := by
  obtain ⟨events, outcome⟩ := x
  cases outcome <;> rfl

theorem outcome_map (f : α → β) (x : Run α) : (f <$> x).outcome = f <$> x.outcome := by
  obtain ⟨events, outcome⟩ := x
  cases outcome <;> rfl

end Run

namespace Traversal

variable {ι : Type} {g : Graph ι} {enter : Scope ι → ι → Run Json} {e : Entity ι} {frame : Frame ι}

/-- Reads one attribute and serializes its value. -/
def readNamed (g : Graph ι) (enter : Scope ι → ι → Run Json) (e : Entity ι) (frame : Frame ι)
    (name : String) : Run (Option Json) := do
  Run.event (.read e.typeName name)
  let raw ← Run.ofExcept ((e.read name).mapError (.unreadable name))
  named g enter frame name raw

/-- Reads and serializes the attributes of a list that are included, as if no name came again. -/
def gathered (g : Graph ι) (enter : Scope ι → ι → Run Json) (e : Entity ι) (frame : Frame ι) :
    List String → Run (List (String × Json))
  | [] => pure []
  | name :: names =>
    if frame.schema.isIncluded name then do
      let value ← readNamed g enter e frame name
      return withEntry frame.options name value (← gathered g enter e frame names)
    else gathered g enter e frame names

/-- The members of an object after an attribute has been written. -/
def written (options : Options ι) (name : String) (value : Option Json)
    (out : List (String × Json)) : List (String × Json) :=
  match value with
  | some j => if options.drops j then out else Json.insert name j out
  | none => out

theorem attributes_cons (name : String) (names : List String) (out : List (String × Json)) :
    attributes g enter e frame (name :: names) out =
      if frame.schema.isIncluded name then
        readNamed g enter e frame name >>= fun value =>
          attributes g enter e frame names (written frame.options name value out)
      else attributes g enter e frame names out := by
  rw [attributes]
  split
  · simp only [readNamed, bind_assoc]
    congr 1
    funext _
    congr 1
    funext raw
    congr 1
    funext value
    cases value <;> rfl
  · rfl

/-- A name that is new is written behind the others, like an entry of a map. -/
theorem written_append {name : String} {out : List (String × Json)}
    (absent : ∀ m ∈ out, m.1 ≠ name) (value : Option Json) (rest : List (String × Json)) :
    written frame.options name value out ++ rest
      = out ++ withEntry frame.options name value rest := by
  cases value with
  | none => rfl
  | some j =>
    rw [written, withEntry]
    split
    · rfl
    · rw [Json.insert_eq_append absent, List.append_assoc, List.singleton_append]

/-- The members so far are those of the names seen so far: each of these that is included has been read
without failure, writing its value once more would change nothing, and no other name is there. -/
structure Seen (g : Graph ι) (enter : Scope ι → ι → Run Json) (e : Entity ι) (frame : Frame ι)
    (seen : List String) (out : List (String × Json)) : Prop where
  settled : ∀ name ∈ seen, frame.schema.isIncluded name → ∃ value,
    (readNamed g enter e frame name).outcome = .ok value ∧ written frame.options name value out = out
  absent : ∀ name, name ∉ seen → ∀ m ∈ out, m.1 ≠ name

theorem seen_nil : Seen g enter e frame [] [] :=
  ⟨nofun, fun _ _ => nofun⟩

/-- A name that is not included is passed over. -/
theorem Seen.passOver {seen : List String} {out : List (String × Json)} {name : String}
    (h : Seen g enter e frame seen out) (hidden : ¬ frame.schema.isIncluded name) :
    Seen g enter e frame (name :: seen) out where
  settled other mem included := by
    rcases List.mem_cons.mp mem with rfl | mem
    · exact absurd included hidden
    · exact h.settled other mem included
  absent other new := h.absent other fun mem => new (List.mem_cons_of_mem name mem)

/-- A new name is written, and what has been written before stays. -/
theorem Seen.write {seen : List String} {out : List (String × Json)} {name : String}
    (h : Seen g enter e frame seen out) (new : name ∉ seen) {value : Option Json}
    (read : (readNamed g enter e frame name).outcome = .ok value) :
    Seen g enter e frame (name :: seen) (written frame.options name value out) := by
  have absent := h.absent name new
  cases value with
  | none =>
    refine ⟨fun other mem included => ?_, fun other unseen => ?_⟩
    · rcases List.mem_cons.mp mem with rfl | mem
      · exact ⟨none, read, rfl⟩
      · exact h.settled other mem included
    · exact h.absent other fun mem => unseen (List.mem_cons_of_mem name mem)
  | some j =>
    by_cases dropped : frame.options.drops j
    · rw [written, if_pos dropped]
      refine ⟨fun other mem included => ?_, fun other unseen => ?_⟩
      · rcases List.mem_cons.mp mem with rfl | mem
        · exact ⟨some j, read, if_pos dropped⟩
        · exact h.settled other mem included
      · exact h.absent other fun mem => unseen (List.mem_cons_of_mem name mem)
    · rw [written, if_neg dropped, Json.insert_eq_append absent]
      refine ⟨fun other mem included => ?_, fun other unseen m mem => ?_⟩
      · rcases List.mem_cons.mp mem with rfl | mem
        · exact ⟨some j, read, (if_neg dropped).trans (Json.insert_append_singleton absent j)⟩
        · obtain ⟨value, read, same⟩ := h.settled other mem included
          refine ⟨value, read, ?_⟩
          cases value with
          | none => rfl
          | some k =>
            rw [written] at same ⊢
            split
            · rfl
            · next kept =>
              rw [if_neg kept] at same
              exact Json.insert_append_of_eq_self same _
      · rw [List.mem_cons, not_or] at unseen
        rcases List.mem_append.mp mem with before | last
        · exact h.absent other unseen.2 m before
        · rw [List.mem_singleton.mp last]
          exact Ne.symm unseen.1

/-- From names seen on, the others are gathered each once. -/
theorem attributes_outcome_of_seen {seen : List String} {out : List (String × Json)}
    (h : Seen g enter e frame seen out) (names : List String) :
    (attributes g enter e frame names out).outcome
      = (out ++ ·) <$> (gathered g enter e frame (names.filter (· ∉ seen)).eraseDups).outcome := by
  induction names generalizing seen out with
  | nil =>
    rw [List.filter_nil, List.eraseDups_nil, gathered]
    show Except.ok out = .ok (out ++ [])
    rw [List.append_nil]
  | cons name names ih =>
    -- what is left of the names once this one has been seen too
    have rest : (names.filter (· ∉ seen)).filter (fun other => !other == name)
        = names.filter (· ∉ name :: seen) := by
      rw [List.filter_filter]
      refine List.filter_congr fun other _ => ?_
      by_cases h : other = name <;> simp [h]
    rw [attributes_cons]
    by_cases mem : name ∈ seen
    · rw [List.filter_cons_of_neg (by simpa using mem)]
      split
      · next included =>
        obtain ⟨value, read, same⟩ := h.settled name mem included
        rw [Run.outcome_bind, read]
        show (attributes g enter e frame names (written frame.options name value out)).outcome = _
        rw [same, ih h]
      · exact ih h
    · rw [List.filter_cons_of_pos (by simpa using mem), List.eraseDups_cons, rest, gathered]
      split
      · next included =>
        rw [Run.outcome_bind, Run.outcome_bind]
        cases read : (readNamed g enter e frame name).outcome with
        | error e => rfl
        | ok value =>
          show (attributes g enter e frame names (written frame.options name value out)).outcome
            = (out ++ ·) <$> (withEntry frame.options name value <$> gathered g enter e frame _).outcome
          rw [ih (h.write mem read), Run.outcome_map]
          cases (gathered g enter e frame (names.filter (· ∉ name :: seen)).eraseDups).outcome with
          | error e => rfl
          | ok members => exact congrArg Except.ok (written_append (h.absent name mem) value members)
      · next hidden => exact ih (h.passOver hidden)

/-- What comes of a list of names is what comes of each of them once, at its first place. -/
theorem attributes_outcome (names : List String) :
    (attributes g enter e frame names []).outcome
      = (gathered g enter e frame names.eraseDups).outcome := by
  rw [attributes_outcome_of_seen seen_nil, List.filter_eq_self.mpr (by simp)]
  cases (gathered g enter e frame names.eraseDups).outcome <;> rfl

end Traversal

end EntityJson
