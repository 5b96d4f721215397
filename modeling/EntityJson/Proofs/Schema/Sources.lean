import EntityJson.Proofs.Schema.Layers

/-!
# Sources that cannot be read

A list of texts is read text by text, so it cannot be read if one of its texts is no rule, and the
first of these says why (`Rule.parseAll_eq_error_iff`). A schema reads its four sources one after the
other, also a declared one that an exact list of the caller then replaces. It therefore exists if the
four lists can be read as a single one, and fails as that list does
(`Schema.layered_eq_error_of_parseAll`).

A schema that is changed in place reads a source to its end before it applies the first rule. So an
operation in place either does what `Schema.ingestExact` and `Schema.ingestExtend` do or does nothing
(`Schema.ingestExactInPlace_eq`, `Schema.ingestExtendInPlace_eq`).
-/

namespace EntityJson

namespace Rule

/-- Texts can be read together if each of them can. -/
theorem exists_parseAll_iff {texts : List String} :
    (∃ rules, parseAll texts = .ok rules) ↔ ∀ text ∈ texts, ∃ r, parse text = .ok r := by
  induction texts with
  | nil => exact ⟨fun _ => nofun, fun _ => ⟨[], rfl⟩⟩
  | cons text texts ih =>
    rw [List.forall_mem_cons, ← ih]
    constructor
    · rintro ⟨rules, h⟩
      obtain ⟨r, rest, first, others, -⟩ := exists_of_parseAll_cons h
      exact ⟨⟨r, first⟩, rest, others⟩
    · rintro ⟨⟨r, first⟩, rest, others⟩
      refine ⟨r :: rest, ?_⟩
      rw [parseAll, first, others]
      rfl

/-- A text that can be read leaves it to the others whether the list can be. -/
theorem parseAll_cons_eq_error_iff {text : String} {r : Rule} (first : parse text = .ok r)
    {texts : List String} {e : RuleError} :
    parseAll (text :: texts) = .error e ↔ parseAll texts = .error e := by
  rw [parseAll, first]
  cases parseAll texts with
  | ok rest =>
    constructor
    · intro h
      cases h
    · intro h
      cases h
  | error other =>
    constructor
    · rintro ⟨⟩
      rfl
    · rintro ⟨⟩
      rfl

/-- A list fails with the error of its first text that is no rule. -/
theorem parseAll_eq_error_iff {texts : List String} {e : RuleError} :
    parseAll texts = .error e ↔ ∃ before text after, texts = before ++ text :: after ∧
      (∀ t ∈ before, ∃ r, parse t = .ok r) ∧ parse text = .error e := by
  induction texts with
  | nil =>
    constructor
    · intro h
      cases h
    · rintro ⟨before, text, after, split, -⟩
      cases before <;> cases split
  | cons text texts ih =>
    cases first : parse text with
    | error here =>
      have fails : parseAll (text :: texts) = .error here := by
        rw [parseAll, first]
        rfl
      rw [fails]
      constructor
      · rintro ⟨⟩
        exact ⟨[], text, texts, rfl, List.forall_mem_nil _, first⟩
      · rintro ⟨before, other, after, split, readable, failed⟩
        cases before with
        | nil =>
          obtain ⟨rfl, -⟩ := List.cons.inj split
          cases first.symm.trans failed
          rfl
        | cons t before =>
          obtain ⟨rfl, -⟩ := List.cons.inj split
          obtain ⟨r, read⟩ := readable _ List.mem_cons_self
          cases first.symm.trans read
    | ok r =>
      rw [parseAll_cons_eq_error_iff first, ih]
      constructor
      · rintro ⟨before, other, after, rfl, readable, failed⟩
        exact ⟨text :: before, other, after, rfl, List.forall_mem_cons.mpr ⟨⟨r, first⟩, readable⟩,
          failed⟩
      · rintro ⟨before, other, after, split, readable, failed⟩
        cases before with
        | nil =>
          obtain ⟨rfl, -⟩ := List.cons.inj split
          cases first.symm.trans failed
        | cons t before =>
          obtain ⟨rfl, rfl⟩ := List.cons.inj split
          exact ⟨before, other, after, rfl, (List.forall_mem_cons.mp readable).2, failed⟩

/-- Two lists one after the other are read one after the other. -/
theorem parseAll_append (texts others : List String) :
    parseAll (texts ++ others) = parseAll texts >>= fun rules =>
      parseAll others >>= fun rest => pure (rules ++ rest) := by
  induction texts with
  | nil => exact (bind_pure _).symm
  | cons text texts ih =>
    rw [List.cons_append, parseAll, ih, parseAll]
    simp only [bind_assoc, pure_bind, List.cons_append]

end Rule

/-- Computations that go on from the same one fail alike if they go on alike. -/
theorem bind_eq_error_iff {ε α β γ : Type} {x : Except ε α} {f : α → Except ε β}
    {f' : α → Except ε γ} {e : ε} (alike : ∀ a, f a = .error e ↔ f' a = .error e) :
    (x >>= f) = .error e ↔ (x >>= f') = .error e := by
  cases x with
  | ok a => exact alike a
  | error other =>
    constructor
    · rintro ⟨⟩
      rfl
    · rintro ⟨⟩
      rfl

namespace Schema

/-! ## All four sources -/

/-- An exact list is read in any case, and starts over from a strict tree unless it is empty. -/
theorem ingestExact_eq_bind (s : Schema) (texts : List String) :
    s.ingestExact texts = Rule.parseAll texts >>= fun rules =>
      pure (if texts.isEmpty then s else ⟨RuleTree.strict.applyAll rules⟩) := by
  cases texts <;> rfl

/-- An additive list is read in any case, and goes on from the tree that is there. -/
theorem ingestExtend_eq_bind (s : Schema) (texts : List String) :
    s.ingestExtend texts = Rule.parseAll texts >>= fun rules => pure ⟨s.tree.applyAll rules⟩ := by
  cases texts <;> rfl

/-- The four lists fail as one that is made of them. -/
theorem layered_eq_error_iff {declaredOnly declaredRules only rules : List String} {e : RuleError} :
    layered declaredOnly declaredRules only rules = .error e
      ↔ Rule.parseAll (declaredOnly ++ declaredRules ++ only ++ rules) = .error e := by
  simp only [layered, ingestExact_eq_bind, ingestExtend_eq_bind, Rule.parseAll_append, bind_assoc,
    pure_bind]
  apply bind_eq_error_iff
  intro declaredExact
  apply bind_eq_error_iff
  intro declaredAdditive
  apply bind_eq_error_iff
  intro exact
  apply bind_eq_error_iff
  intro additive
  exact ⟨nofun, nofun⟩

/-- The four lists give a schema if the one that is made of them can be read. -/
theorem exists_layered_iff {declaredOnly declaredRules only rules : List String} :
    (∃ s, layered declaredOnly declaredRules only rules = .ok s)
      ↔ ∃ all, Rule.parseAll (declaredOnly ++ declaredRules ++ only ++ rules) = .ok all := by
  cases given : layered declaredOnly declaredRules only rules with
  | error e =>
    rw [layered_eq_error_iff.mp given]
    exact ⟨nofun, nofun⟩
  | ok s =>
    cases parsed : Rule.parseAll (declaredOnly ++ declaredRules ++ only ++ rules) with
    | error e => cases given.symm.trans (layered_eq_error_iff.mpr parsed)
    | ok all => exact ⟨fun _ => ⟨all, rfl⟩, fun _ => ⟨s, rfl⟩⟩

/-! ## In place -/

/-- Rules that are applied one by one in place leave what they leave in the tree. -/
theorem forM_applyInPlace (rules : List Rule) (s : Schema) :
    (rules.forM applyInPlace).run.run s = (.ok (), ⟨s.tree.applyAll rules⟩) := by
  induction rules generalizing s with
  | nil => rfl
  | cons r rules ih => exact ih ⟨s.tree.apply r⟩

/-- What a place holds after an operation on its schema, and whether that has failed: the schema that
the operation gives, or the one from before. -/
def afterwards (s : Schema) : Except RuleError Schema → Except RuleError Unit × Schema
  | .ok t => (.ok (), t)
  | .error e => (.error e, s)

theorem eq_of_afterwards_eq_error {s t : Schema} {outcome : Except RuleError Schema} {e : RuleError}
    (failed : s.afterwards outcome = (.error e, t)) : t = s := by
  cases outcome with
  | ok u => cases failed
  | error other =>
    cases failed
    rfl

/-- An exact list in place gives what it gives anywhere, or fails and leaves the schema as it was. -/
theorem ingestExactInPlace_eq (s : Schema) (texts : List String) :
    (ingestExactInPlace texts).run.run s = s.afterwards (s.ingestExact texts) := by
  unfold ingestExactInPlace ingestExact
  cases texts.isEmpty with
  | true => rfl
  | false => cases Rule.parseAll texts <;> rfl

/-- So does an additive list, whose rules are applied after the last of them has been read. -/
theorem ingestExtendInPlace_eq (s : Schema) (texts : List String) :
    (ingestExtendInPlace texts).run.run s = s.afterwards (s.ingestExtend texts) := by
  unfold ingestExtendInPlace ingestExtend
  cases texts.isEmpty with
  | true => rfl
  | false =>
    cases Rule.parseAll texts with
    | error e => rfl
    | ok rules => exact forM_applyInPlace rules s

/-! ## The layers -/

/-- Four lists of texts give a schema if all their texts are rules. If not, they fail with the error of
the first text that is none, also where a later list replaces its own.

The tree of the schema is what the exact rules of the caller leave in a strict tree, if there are any;
or else what the declared ones leave in it, exact and additive, if there are exact ones; or else what
the declared additive ones leave in a tree that keeps everything. The additive rules of the caller come
last.

A list that fails in place leaves the schema as it was, whatever rules have gone into that before. -/
theorem layered_of_sources (declaredOnly declaredRules only rules : List String) :
    ((∃ s, layered declaredOnly declaredRules only rules = .ok s)
      ↔ ∀ text ∈ declaredOnly ++ declaredRules ++ only ++ rules, ∃ r, Rule.parse text = .ok r) ∧
    (∀ e, layered declaredOnly declaredRules only rules = .error e
      ↔ ∃ before text after, declaredOnly ++ declaredRules ++ only ++ rules = before ++ text :: after ∧
        (∀ t ∈ before, ∃ r, Rule.parse t = .ok r) ∧ Rule.parse text = .error e) ∧
    (∀ declaredExact declaredAdditive exact additive,
      Rule.parseAll declaredOnly = .ok declaredExact →
      Rule.parseAll declaredRules = .ok declaredAdditive →
      Rule.parseAll only = .ok exact → Rule.parseAll rules = .ok additive →
      layered declaredOnly declaredRules only rules = .ok ⟨
        if only ≠ [] then (RuleTree.strict.applyAll exact).applyAll additive
        else if declaredOnly ≠ [] then
          ((RuleTree.strict.applyAll declaredExact).applyAll declaredAdditive).applyAll additive
        else (RuleTree.keepAll.applyAll declaredAdditive).applyAll additive⟩) ∧
    ∀ (s t : Schema) (texts : List String) (e : RuleError),
      ((ingestExactInPlace texts).run.run s = (.error e, t) → t = s) ∧
      ((ingestExtendInPlace texts).run.run s = (.error e, t) → t = s) := by
  refine ⟨?_, ?_, ?_, ?_⟩
  · rw [exists_layered_iff, Rule.exists_parseAll_iff]
  · intro e
    rw [layered_eq_error_iff, Rule.parseAll_eq_error_iff]
  · intro declaredExact declaredAdditive exact additive hdo hdr ho hr
    simp only [layered, ingestExact_eq_bind, ingestExtend_eq_bind, hdo, hdr, ho, hr]
    cases only with
    | cons text texts => rfl
    | nil =>
      cases declaredOnly with
      | cons text texts =>
        cases ho
        rfl
      | nil =>
        cases ho
        rfl
  · intro s t texts e
    rw [ingestExactInPlace_eq, ingestExtendInPlace_eq]
    exact ⟨eq_of_afterwards_eq_error, eq_of_afterwards_eq_error⟩

/-- A declared rule that is none is found although the exact list of the caller replaces it. Without it
the schema holds what the caller's lists leave in a strict tree; and a list with a text that is no rule
behind one that is adds neither to it. -/
theorem layered_of_sources_overruled :
    layered ["id"] ["-a", "b..c", "-"] ["x.y"] ["-x.z"] = .error ⟨"b..c", .emptySegment⟩ ∧
    (∃ r s exact additive, Rule.parse "-a" = .ok r ∧ Rule.parse "id" = .ok s ∧
      Rule.parseAll ["x.y"] = .ok exact ∧ Rule.parseAll ["-x.z"] = .ok additive ∧
      layered ["id"] ["-a"] ["x.y"] ["-x.z"]
        = .ok ⟨(RuleTree.strict.applyAll exact).applyAll additive⟩ ∧
      ∃ t, (ingestExtendInPlace ["w", "v.-u"]).run.run ⟨RuleTree.strict.applyAll exact⟩
        = (.error ⟨"v.-u", .innerNegation⟩, t) ∧ t = ⟨RuleTree.strict.applyAll exact⟩) := by
  have broken := (layered_of_sources ["id"] ["-a", "b..c", "-"] ["x.y"] ["-x.z"]).2.1
    ⟨"b..c", .emptySegment⟩
  obtain ⟨-, -, given, inPlace⟩ := layered_of_sources ["id"] ["-a"] ["x.y"] ["-x.z"]
  have readable : ∀ t ∈ ["id", "-a"], ∃ r, Rule.parse t = .ok r := by
    intro t mem
    rcases List.mem_cons.mp mem with rfl | mem
    · exact ⟨_, rfl⟩
    · rw [List.mem_singleton.mp mem]
      exact ⟨_, rfl⟩
  refine ⟨broken.mpr ⟨["id", "-a"], "b..c", ["-", "x.y", "-x.z"], rfl, readable, rfl⟩, ?_⟩
  refine ⟨_, _, _, _, rfl, rfl, rfl, rfl, given _ _ _ _ rfl rfl rfl rfl, _, rfl, ?_⟩
  exact (inPlace _ _ ["w", "v.-u"] _).2 rfl

end Schema

end EntityJson
