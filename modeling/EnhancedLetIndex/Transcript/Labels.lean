import EnhancedLetIndex.Transcript.Channel

/-!
# The labels a transcript may carry

The documented label is `QClass` and digits.  The pattern of the source ends with `$`, which
also matches before a final line feed, so `validate_transcript` accepts a little more than the
documented transcripts: exactly those payloads, and no others, are the ones on which it and the
documented form differ.
-/

namespace EnhancedLetIndex

open Json

/-- A documented label: `QClass` and one or more digits. -/
def IsClassLabel (label : String) : Prop :=
  ∃ digits : String, digits ≠ "" ∧ (∀ c ∈ digits.toList, c.isDigit) ∧ label = "QClass" ++ digits

/-- A documented label with a line feed after it. -/
def IsFedLabel (label : String) : Prop := ∃ body, IsClassLabel body ∧ label = body ++ "\n"

theorem IsFedLabel.not_isClassLabel {label : String} (h : IsFedLabel label) :
    ¬IsClassLabel label := by
  rintro ⟨digits, hne, hdigits, rfl⟩
  obtain ⟨body, -, hbody⟩ := h
  have hlast : ("QClass" ++ digits).toList.getLast? = some '\n' := by
    rw [hbody, String.toList_append]
    simp
  rw [String.toList_append, List.getLast?_append] at hlast
  have hdigits' : digits.toList ≠ [] := fun h ↦ hne (by simpa using h)
  rw [List.getLast?_eq_some_getLast hdigits', Option.some_or, Option.some.injEq] at hlast
  have := hdigits _ (List.getLast_mem hdigits')
  rw [hlast] at this
  cases this

theorem takeWhile_append {α : Type*} {p : α → Bool} {l m : List α} (hl : ∀ a ∈ l, p a = true)
    (hm : m.takeWhile p = []) :
    (l ++ m).takeWhile p = l ∧ (l ++ m).dropWhile p = m := by
  have hdrop : m.dropWhile p = m := by
    have := m.takeWhile_append_dropWhile (p := p)
    rwa [hm, List.nil_append] at this
  rw [List.takeWhile_append_of_pos hl, hm, List.append_nil, List.dropWhile_append_of_pos hl]
  exact ⟨rfl, hdrop⟩

/-- The pattern matches the documented labels and those with a line feed after them. -/
theorem matchesClassPattern_iff {label : String} :
    matchesClassPattern label ↔ IsClassLabel label ∨ IsFedLabel label := by
  have hsix : ∀ rest : List Char, ("QClass".toList ++ rest).drop 6 = rest :=
    fun rest ↦ List.drop_left' (by decide)
  have hof : ∀ {digits : String} {tail : List Char}, digits ≠ "" →
      (∀ c ∈ digits.toList, c.isDigit) → (tail = [] ∨ tail = ['\n']) →
      label.toList = "QClass".toList ++ digits.toList ++ tail → matchesClassPattern label := by
    intro digits tail hne hdigits htail hlabel
    have hstart : "QClass".toList.isPrefixOf label.toList = true :=
      List.isPrefixOf_iff_prefix.mpr ⟨digits.toList ++ tail, by rw [hlabel, List.append_assoc]⟩
    have hdrop : label.toList.drop 6 = digits.toList ++ tail := by
      rw [hlabel, List.append_assoc, hsix]
    have hstop : tail.takeWhile Char.isDigit = [] := by
      rcases htail with rfl | rfl <;> rfl
    obtain ⟨htake, hrest⟩ := takeWhile_append hdigits hstop
    unfold matchesClassPattern
    rw [hstart, hdrop]
    simp only [htake, hrest, decide_eq_true_eq]
    exact ⟨fun h ↦ hne (by simpa using h), htail⟩
  constructor
  · intro h
    unfold matchesClassPattern at h
    cases hstart : "QClass".toList.isPrefixOf label.toList with
    | false =>
      rw [hstart] at h
      cases h
    | true =>
      rw [hstart] at h
      obtain ⟨rest, hrest⟩ := List.isPrefixOf_iff_prefix.mp hstart
      have hdrop : label.toList.drop 6 = rest := by
        rw [← hrest, hsix]
      rw [hdrop] at h
      obtain ⟨hne, htail⟩ := of_decide_eq_true h
      have hdigits : ∀ c ∈ rest.takeWhile Char.isDigit, c.isDigit := fun c hc ↦
        List.all_eq_true.mp List.all_takeWhile c hc
      have hbody : IsClassLabel ("QClass" ++ String.ofList (rest.takeWhile Char.isDigit)) :=
        ⟨_, fun h ↦ hne (by simpa using congrArg String.toList h), by simpa using hdigits, rfl⟩
      rw [← rest.takeWhile_append_dropWhile (p := Char.isDigit)] at hrest
      have hlist : ("QClass" ++ String.ofList (rest.takeWhile Char.isDigit)).toList =
          "QClass".toList ++ rest.takeWhile Char.isDigit := by
        rw [String.toList_append, String.toList_ofList (l := rest.takeWhile Char.isDigit)]
      rcases htail with htail | htail
      · rw [htail, List.append_nil, ← hlist] at hrest
        exact .inl (String.toList_inj.mp hrest ▸ hbody)
      · rw [htail, ← List.append_assoc, ← hlist] at hrest
        refine .inr ⟨_, hbody, String.toList_inj.mp ?_⟩
        rw [← hrest, String.toList_append (t := "\n")]
        rfl
  · rintro (⟨digits, hne, hdigits, rfl⟩ | ⟨_, ⟨digits, hne, hdigits, rfl⟩, rfl⟩)
    · exact hof hne hdigits (.inl rfl) (by simp)
    · exact hof hne hdigits (.inr rfl) (by simp)

/-! ## Acceptance -/

/-- A payload that is well formed but for a line feed after some label. -/
def HasFedLabel (p : Json) : Prop :=
  ∃ t : AdversaryTranscript, t.WellFormed (fun l ↦ IsClassLabel l ∨ IsFedLabel l) ∧
    p.Same t.toDict ∧ ∃ o ∈ t.operations, ∃ l ∈ o.queryEqualityClass, IsFedLabel l

theorem AdversaryTranscript.WellFormed.imp {label label' : String → Prop}
    {t : AdversaryTranscript} (h : t.WellFormed label)
    (hlabel : ∀ o ∈ t.operations, o.Labelled label → o.Labelled label') : t.WellFormed label' :=
  { h with labelled := fun o ho ↦ hlabel o ho (h.labelled o ho) }

theorem wellFormed_iff {t : AdversaryTranscript} : t.WellFormed (matchesClassPattern ·) ↔
    t.WellFormed (fun l ↦ IsClassLabel l ∨ IsFedLabel l) := by
  constructor
  · intro h
    exact h.imp fun _ _ ho l hl ↦ matchesClassPattern_iff.mp (ho l hl)
  · intro h
    exact h.imp fun _ _ ho l hl ↦ matchesClassPattern_iff.mpr (ho l hl)

/-- What the documentation says of a payload and of the produced transcripts holds exactly when
the payload has no label with a line feed after it. -/
theorem validateTranscript_documented_iff (p : Json) :
    ((validateTranscript p = .ok () ↔
          ∃ t : AdversaryTranscript, t.WellFormed IsClassLabel ∧ p.Same t.toDict) ∧
        (validateTranscript p = .ok () →
          ∃ t, AdversaryTranscript.fromDict p = .ok t ∧ p.Same t.toDict) ∧
        ∀ t, Produced t → AdversaryTranscript.fromDict t.toDict = .ok t) ↔
      ¬HasFedLabel p := by
  have hround : validateTranscript p = .ok () →
      ∃ t, AdversaryTranscript.fromDict p = .ok t ∧ p.Same t.toDict := by
    intro h
    obtain ⟨t, ht, hp⟩ := validateTranscript_eq_ok.mp h
    exact ⟨t, AdversaryTranscript.fromDict_eq_ok.mpr ⟨ht, hp⟩, hp⟩
  constructor
  · rintro ⟨hiff, -, -⟩ ⟨t, ht, hp, o, ho, l, hl, hfed⟩
    have ht := wellFormed_iff.mpr ht
    obtain ⟨t', ht', hp'⟩ := hiff.mp (validateTranscript_eq_ok.mpr ⟨t, ht, hp⟩)
    -- a payload encodes one transcript only
    have hdecode := AdversaryTranscript.fromDict_eq_ok.mpr ⟨ht, hp⟩
    have hdecode' := AdversaryTranscript.fromDict_eq_ok.mpr
      ⟨wellFormed_iff.mpr (ht'.imp fun _ _ ho l hl ↦ .inl (ho l hl)), hp'⟩
    obtain rfl := Except.ok.inj (hdecode.symm.trans hdecode')
    exact hfed.not_isClassLabel (ht'.labelled o ho l hl)
  · intro hfed
    refine ⟨⟨fun h ↦ ?_, ?_⟩, hround, fun t ht ↦ ht.wellFormed.fromDict_toDict⟩
    · obtain ⟨t, ht, hp⟩ := validateTranscript_eq_ok.mp h
      have ht := wellFormed_iff.mp ht
      refine ⟨t, ht.imp fun o ho hlabel l hl ↦ (hlabel l hl).resolve_right fun h ↦ ?_, hp⟩
      exact hfed ⟨t, ht, hp, o, ho, l, hl, h⟩
    · rintro ⟨t, ht, hp⟩
      exact validateTranscript_eq_ok.mpr
        ⟨t, wellFormed_iff.mpr (ht.imp fun _ _ ho l hl ↦ .inl (ho l hl)), hp⟩

/-- A transcript of one query without events, labelled by a text that ends with a line feed. -/
def fedTranscript : AdversaryTranscript where
  schemaVersion := Leakage.schemaVersion
  sourceSchemaVersion := Leakage.sourceSchemaVersion
  runMetadata := ⟨"uniform", 7, 4, 1, by decide⟩
  operations := [⟨0, .query, [], 0, 0, some "QClass0\n"⟩]
  summary := ⟨1, 1, 0, 0, 0, 0⟩
  equalityChannel := "M1"

/-- The validator accepts a payload that no documented transcript has. -/
theorem validateTranscript_lineFeed : validateTranscript fedTranscript.toDict = .ok () ∧
    ¬∃ t : AdversaryTranscript, t.WellFormed IsClassLabel ∧ fedTranscript.toDict.Same t.toDict := by
  have hlabel : IsFedLabel "QClass0\n" :=
    ⟨"QClass0", ⟨"0", by simp, by simp, rfl⟩, rfl⟩
  have ht : fedTranscript.WellFormed (matchesClassPattern ·) :=
    { schemaVersion := rfl
      sourceSchemaVersion := rfl
      channel := by decide
      positioned := rfl
      integral := fun o ho ↦ by
        obtain rfl := List.mem_singleton.mp ho
        exact ⟨rfl, rfl, rfl⟩
      labelled := fun o ho l hl ↦ by
        obtain rfl := List.mem_singleton.mp ho
        cases hl
        exact matchesClassPattern_iff.mpr (.inr hlabel)
      labels := by
        refine ⟨fun h ↦ absurd h (by decide), fun _ o ho ↦ ?_⟩
        obtain rfl := List.mem_singleton.mp ho
        exact ⟨fun _ ↦ rfl, fun _ ↦ rfl⟩
      summary := rfl }
  refine ⟨validateTranscript_eq_ok.mpr ⟨_, ht, Same.refl _⟩, ?_⟩
  rintro ⟨t, ht', hsame⟩
  have hdecode := AdversaryTranscript.fromDict_eq_ok.mpr
    ⟨wellFormed_iff.mpr (ht'.imp fun _ _ ho l hl ↦ .inl (ho l hl)), hsame⟩
  obtain rfl := Except.ok.inj (hdecode.symm.trans ht.fromDict_toDict)
  exact hlabel.not_isClassLabel
    (ht'.labelled ⟨0, .query, [], 0, 0, some "QClass0\n"⟩ List.mem_cons_self _ rfl)

end EnhancedLetIndex
