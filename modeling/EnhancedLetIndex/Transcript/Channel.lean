import EnhancedLetIndex.Transcript.Observe

/-!
# Produced transcripts

The transcripts that extraction and the equality channel return are well formed, so that they
come back from their JSON form.  The pattern of the labels accepts one more kind of text than
the documented labels: one with a line feed at its end.
-/

namespace EnhancedLetIndex

open Json

/-! ## Labels -/

namespace ObservedOperation

/-- The operation without its label. -/
def unlabelled (o : ObservedOperation) : ObservedOperation := { o with queryEqualityClass := none }

variable {o o' : ObservedOperation}

theorem integral_unlabelled : o.unlabelled.Integral ↔ o.Integral :=
  ⟨fun ⟨h₁, h₂, h₃⟩ ↦ ⟨h₁, h₂, h₃⟩, fun ⟨h₁, h₂, h₃⟩ ↦ ⟨h₁, h₂, h₃⟩⟩

theorem Integral.of_unlabelled (h : o.Integral) (ho : o'.unlabelled = o.unlabelled) :
    o'.Integral :=
  integral_unlabelled.mp (ho ▸ integral_unlabelled.mpr h)

end ObservedOperation

theorem summarize_unlabelled (operations : List ObservedOperation) :
    summarize (operations.map (·.unlabelled)) = summarize operations := by
  simp only [summarize, List.length_map, List.countP_map, List.map_map, List.flatMap_map]
  rfl

theorem positioned_unlabelled {start : Nat} {operations : List ObservedOperation} :
    Positioned start (operations.map (·.unlabelled)) ↔ Positioned start operations := by
  rw [Positioned, Positioned, List.map_map, List.length_map]
  rfl

/-- A query gets its label, and any other operation stays as it is. -/
theorem annotate_eq_ok {labels : List (Int × Json)} {o o' : ObservedOperation} :
    annotate labels o = .ok o' ↔
      (o.operationClass = .query ∧ ∃ l, labels.lookup o.index = some (.str l) ∧
        matchesClassPattern l ∧ o' = { o with queryEqualityClass := some l }) ∨
      (o.operationClass ≠ .query ∧ o' = o) := by
  unfold annotate
  split_ifs with hquery
  · simp only [bind_eq_ok, requireOpaqueClass_eq_ok, pure_eq_ok, Except.ok.injEq, hquery,
      ne_eq, not_true_eq_false, false_and, or_false, true_and]
    constructor
    · rintro ⟨l, ⟨hl, hmatch⟩, rfl⟩
      refine ⟨l, ?_, hmatch, rfl⟩
      cases hlookup : labels.lookup o.index with
      | none => simp [hlookup] at hl
      | some v => simpa [hlookup] using hl
    · rintro ⟨l, hl, hmatch, rfl⟩
      exact ⟨l, ⟨by rw [hl]; rfl, hmatch⟩, rfl⟩
  · simp only [pure_eq_ok, Except.ok.injEq, hquery, false_and, false_or, ne_eq,
      not_false_eq_true, true_and]
    exact eq_comm

theorem unlabelled_of_annotate {labels : List (Int × Json)} {o o' : ObservedOperation}
    (h : annotate labels o = .ok o') : o'.unlabelled = o.unlabelled := by
  rcases annotate_eq_ok.mp h with ⟨-, l, -, -, rfl⟩ | ⟨-, rfl⟩
  · rfl
  · rfl

/-- The annotated operations, when the labels are those of the queries. -/
theorem AdversaryTranscript.withEqualityChannel_eq_ok {t t' : AdversaryTranscript}
    {labels : List (Int × Json)} {channel : String} :
    t.withEqualityChannel labels channel = .ok t' ↔
      channel = "M1" ∧ (∀ i, i ∈ labels.map Prod.fst ↔
        i ∈ (t.operations.filter (·.operationClass = .query)).map (·.index)) ∧
      List.Forall₂ (fun o o' ↦ annotate labels o = .ok o') t.operations t'.operations ∧
      t' = { t with equalityChannel := "M1", operations := t'.operations } := by
  simp only [withEqualityChannel, bind_eq_ok, mapM_eq_ok_iff, pure_eq_ok, Except.ok.injEq]
  simp only [require_eq_ok]
  constructor
  · rintro ⟨-, rfl, -, -, -, -, -, ⟨hpq, hqp⟩, operations, hannotate, rfl⟩
    exact ⟨rfl, fun i ↦ ⟨hpq i, hqp i⟩, hannotate, rfl⟩
  · rintro ⟨rfl, hlabels, hannotate, ht⟩
    have hknown : ∀ i ∈ (t.operations.filter (·.operationClass = .query)).map (·.index),
        i ∈ t.operations.map (·.index) := by
      intro i hi
      obtain ⟨o, ho, rfl⟩ := List.mem_map.mp hi
      exact List.mem_map_of_mem (List.mem_of_mem_filter ho)
    refine ⟨⟨⟩, rfl, ⟨⟩, ?_, ⟨⟩, ?_, ⟨⟩, ⟨fun i ↦ (hlabels i).mp, fun i ↦ (hlabels i).mpr⟩, _,
      hannotate, ht.symm⟩
    · exact List.filter_eq_nil_iff.mpr fun i hi ↦ by
        simpa using hknown i ((hlabels i).mp hi)
    · exact List.filter_eq_nil_iff.mpr fun i hi ↦ by
        simpa using fun _ _ _ ↦ by simpa [and_assoc] using (hlabels i).mp hi

theorem map_unlabelled_of_annotate {labels : List (Int × Json)}
    {operations annotated : List ObservedOperation}
    (h : List.Forall₂ (fun o o' ↦ annotate labels o = .ok o') operations annotated) :
    annotated.map (·.unlabelled) = operations.map (·.unlabelled) := by
  induction h with
  | nil => rfl
  | cons ho _ ih => rw [List.map_cons, List.map_cons, ih, unlabelled_of_annotate ho]

/-! ## Produced transcripts -/

/-- The transcripts that extraction and the equality channel return. -/
inductive Produced : AdversaryTranscript → Prop
  | extract {a : Json} {t : AdversaryTranscript} (h : extractTranscript a = .ok t) : Produced t
  | channel {t t' : AdversaryTranscript} {labels : List (Int × Json)} {channel : String}
      (ht : Produced t) (h : t.withEqualityChannel labels channel = .ok t') : Produced t'

/-- A transcript is well formed when it is extracted. -/
theorem wellFormed_extract {a : Json} {t : AdversaryTranscript}
    (h : extractTranscript a = .ok t) : t.WellFormed (matchesClassPattern ·) := by
  obtain ⟨hvalid, ⟨records, hrecords, hobserve⟩, -, -, -, -, ht⟩ := extractTranscript_eq_ok.mp h
  obtain ⟨-, -, records', operations, hrecords', -, hobserve', hpos, hintegral⟩ :=
    validateG1eArtifact_eq_ok.mp hvalid
  obtain rfl : records = records' := Json.arr.inj (Option.some.inj (hrecords.symm.trans hrecords'))
  have hoperations : t.operations = operations := by
    have h₁ := mapM_eq_ok_iff.mpr hobserve
    have h₂ := mapM_eq_ok_iff.mpr hobserve'
    exact Except.ok.inj (h₁.symm.trans h₂)
  have hnone : ∀ o ∈ t.operations, o.queryEqualityClass = none := by
    intro o ho
    obtain ⟨r, -, hr⟩ := exists_of_mem_mapM (mapM_eq_ok_iff.mpr hobserve) ho
    exact (observeRecord_eq_ok.mp hr).2.2.2.2.2
  rw [ht]
  refine ⟨rfl, rfl, by simp, hoperations ▸ hpos, hoperations ▸ hintegral, fun o ho l hl ↦ ?_,
    ⟨fun _ ↦ hnone, fun h ↦ absurd h (by simp)⟩, rfl⟩
  rw [hnone o ho] at hl
  cases hl

/-- The equality channel keeps transcripts well formed. -/
theorem AdversaryTranscript.WellFormed.withEqualityChannel {t t' : AdversaryTranscript}
    {labels : List (Int × Json)} {channel : String} (ht : t.WellFormed (matchesClassPattern ·))
    (h : t.withEqualityChannel labels channel = .ok t') :
    t'.WellFormed (matchesClassPattern ·) := by
  obtain ⟨rfl, hlabels, hannotate, ht'⟩ := withEqualityChannel_eq_ok.mp h
  have hunlabelled := map_unlabelled_of_annotate hannotate
  have hmem : ∀ o' ∈ t'.operations, ∃ o ∈ t.operations, annotate labels o = .ok o' :=
    fun o' ho' ↦ exists_of_mem_mapM (mapM_eq_ok_iff.mpr hannotate) ho'
  have hother : ∀ o ∈ t.operations, o.operationClass ≠ .query → o.queryEqualityClass = none := by
    intro o ho hclass
    have hchannel := ht.channel
    simp only [List.mem_cons, List.not_mem_nil, or_false] at hchannel
    rcases hchannel with hchannel | hchannel
    · exact ht.labels.1 hchannel o ho
    · have := mt (ht.labels.2 hchannel o ho).mp hclass
      exact Option.not_isSome_iff_eq_none.mp this
  rw [ht']
  refine ⟨ht.schemaVersion, ht.sourceSchemaVersion, by simp, ?_, ?_, ?_,
    ⟨fun h ↦ absurd h (by simp), fun _ ↦ ?_⟩, ?_⟩
  · exact positioned_unlabelled.mp (hunlabelled ▸ positioned_unlabelled.mpr ht.positioned)
  · intro o' ho'
    obtain ⟨o, ho, hoo'⟩ := hmem o' ho'
    exact (ht.integral o ho).of_unlabelled (unlabelled_of_annotate hoo')
  · intro o' ho' l hl
    obtain ⟨o, ho, hoo'⟩ := hmem o' ho'
    rcases annotate_eq_ok.mp hoo' with ⟨-, l', -, hmatch, rfl⟩ | ⟨-, rfl⟩
    · cases hl
      exact hmatch
    · exact ht.labelled _ ho l hl
  · intro o' ho'
    obtain ⟨o, ho, hoo'⟩ := hmem o' ho'
    rcases annotate_eq_ok.mp hoo' with ⟨hclass, l', -, -, rfl⟩ | ⟨hclass, rfl⟩
    · exact ⟨fun _ ↦ hclass, fun _ ↦ rfl⟩
    · have hnone := hother _ ho hclass
      exact ⟨fun h ↦ by simp [hnone] at h, fun h ↦ absurd h hclass⟩
  · show t.summary = _
    rw [ht.summary, ← summarize_unlabelled, ← hunlabelled, summarize_unlabelled]

/-- Every produced transcript is well formed. -/
theorem Produced.wellFormed {t : AdversaryTranscript} (h : Produced t) :
    t.WellFormed (matchesClassPattern ·) := by
  induction h with
  | extract h => exact wellFormed_extract h
  | channel _ h ih => exact ih.withEqualityChannel h

/-- A well-formed transcript comes back from its JSON form. -/
theorem AdversaryTranscript.WellFormed.fromDict_toDict {t : AdversaryTranscript}
    (h : t.WellFormed (matchesClassPattern ·)) : fromDict t.toDict = .ok t :=
  fromDict_eq_ok.mpr ⟨h, Same.refl _⟩

end EnhancedLetIndex
