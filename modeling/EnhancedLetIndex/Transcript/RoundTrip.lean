import EnhancedLetIndex.Transcript.Strict

/-!
# Transcripts and their JSON form

`validate_transcript` accepts exactly the encodings of well-formed transcripts, and `from_dict`
returns the transcript a payload encodes (`validateTranscript_eq_ok`, `fromDict_eq_ok`).  What a
label may be is the one point where the pattern of the source and the documented form differ:
`$` also matches before a final line feed.
-/

namespace EnhancedLetIndex

open Json

/-- The rules on labels of a channel: none in `M0`, one on each query and nowhere else in
`M1`. -/
def LabelsFor (channel : String) (operations : List ObservedOperation) : Prop :=
  (channel = "M0" → ∀ o ∈ operations, o.queryEqualityClass = none) ∧
    (channel = "M1" → ∀ o ∈ operations,
      (o.queryEqualityClass.isSome ↔ o.operationClass = .query))

/-- A well-formed transcript, where a label is a text with `label`. -/
structure AdversaryTranscript.WellFormed (label : String → Prop) (t : AdversaryTranscript) :
    Prop where
  schemaVersion : t.schemaVersion = Leakage.schemaVersion
  sourceSchemaVersion : t.sourceSchemaVersion = Leakage.sourceSchemaVersion
  channel : t.equalityChannel ∈ ["M0", "M1"]
  positioned : Positioned 0 t.operations
  integral : ∀ o ∈ t.operations, o.Integral
  labelled : ∀ o ∈ t.operations, o.Labelled label
  labels : LabelsFor t.equalityChannel t.operations
  summary : t.summary = summarize t.operations

theorem Positioned.nodup {start : Nat} {operations : List ObservedOperation}
    (h : Positioned start operations) : (operations.map (·.index)).Nodup := by
  rw [h]
  exact (List.nodup_range').map Int.ofNat_injective

/-- The positions of some operations of a transcript. -/
theorem mem_indices_iff {operations : List ObservedOperation}
    {q : ObservedOperation × Bool → Bool} {i : Int} :
    i ∈ ((operations.map fun o ↦ (o, o.queryEqualityClass.isSome)).filter q).map (·.1.index) ↔
      ∃ o ∈ operations, q (o, o.queryEqualityClass.isSome) = true ∧ o.index = i := by
  rw [List.mem_map]
  constructor
  · rintro ⟨x, hx, rfl⟩
    obtain ⟨hx, hq⟩ := List.mem_filter.mp hx
    obtain ⟨o, ho, rfl⟩ := List.mem_map.mp hx
    exact ⟨o, ho, hq, rfl⟩
  · rintro ⟨o, ho, hq, rfl⟩
    exact ⟨_, List.mem_filter.mpr ⟨List.mem_map_of_mem ho, hq⟩, rfl⟩

/-- Positions tell operations apart. -/
theorem indices_subset_iff {operations : List ObservedOperation} (hpos : Positioned 0 operations)
    {q q' : ObservedOperation × Bool → Bool} :
    (∀ i ∈ ((operations.map fun o ↦ (o, o.queryEqualityClass.isSome)).filter q).map (·.1.index),
        i ∈ ((operations.map fun o ↦ (o, o.queryEqualityClass.isSome)).filter q').map
          (·.1.index)) ↔
      ∀ o ∈ operations, q (o, o.queryEqualityClass.isSome) = true →
        q' (o, o.queryEqualityClass.isSome) = true := by
  simp only [mem_indices_iff]
  constructor
  · intro h o ho hq
    obtain ⟨o', ho', hq', hindex⟩ := h o.index ⟨o, ho, hq, rfl⟩
    exact List.inj_on_of_nodup_map hpos.nodup ho' ho hindex ▸ hq'
  · rintro h i ⟨o, ho, hq, rfl⟩
    exact ⟨o, ho, h o ho hq, rfl⟩

/-- The checks on the presence of labels are the rules of the channel. -/
theorem checkLabels_eq_ok {channel : String} (hchannel : channel ∈ ["M0", "M1"])
    {operations : List ObservedOperation} (hpos : Positioned 0 operations) {u : Unit} :
    checkLabels channel (operations.map fun o ↦ (o, o.queryEqualityClass.isSome)) = .ok u ↔
      LabelsFor channel operations := by
  have hnone : ((operations.map fun o ↦ (o, o.queryEqualityClass.isSome)).filter
      (·.2)).map (·.1.index) = [] ↔ ∀ o ∈ operations, o.queryEqualityClass = none := by
    rw [List.map_eq_nil_iff, List.filter_eq_nil_iff, List.forall_mem_map]
    simp only [Option.not_isSome_iff_eq_none]
  have hiff : ((∀ i ∈ ((operations.map fun o ↦ (o, o.queryEqualityClass.isSome)).filter
        (·.2)).map (·.1.index), i ∈ ((operations.map fun o ↦
          (o, o.queryEqualityClass.isSome)).filter (·.1.operationClass = .query)).map
            (·.1.index)) ∧
      ∀ i ∈ ((operations.map fun o ↦ (o, o.queryEqualityClass.isSome)).filter
        (·.1.operationClass = .query)).map (·.1.index), i ∈ ((operations.map fun o ↦
          (o, o.queryEqualityClass.isSome)).filter (·.2)).map (·.1.index)) ↔
      ∀ o ∈ operations, (o.queryEqualityClass.isSome ↔ o.operationClass = .query) := by
    simp only [indices_subset_iff hpos, decide_eq_true_eq]
    exact ⟨fun h o ho ↦ ⟨h.1 o ho, h.2 o ho⟩, fun h ↦
      ⟨fun o ho ↦ (h o ho).mp, fun o ho ↦ (h o ho).mpr⟩⟩
  unfold checkLabels
  generalize ((operations.map fun o ↦ (o, o.queryEqualityClass.isSome)).filter
    (·.2)).map (·.1.index) = present at hnone hiff
  generalize ((operations.map fun o ↦ (o, o.queryEqualityClass.isSome)).filter
    (·.1.operationClass = .query)).map (·.1.index) = queries at hiff
  have hmisplaced : (present.filter fun i ↦ decide (i ∉ queries)) = [] ↔
      ∀ i ∈ present, i ∈ queries := by
    simp [List.filter_eq_nil_iff]
  rw [bind_eq_ok]
  simp only [require_eq_ok, hmisplaced, LabelsFor, exists_and_left]
  simp only [List.mem_cons, List.not_mem_nil, or_false] at hchannel
  rcases hchannel with rfl | rfl
  · simp only [if_true, require_eq_ok, hnone]
    refine ⟨fun ⟨_, _, h⟩ ↦ ⟨fun _ ↦ h, fun h ↦ absurd h (by decide)⟩, fun ⟨h, _⟩ ↦
      ⟨?_, ⟨⟩, h trivial⟩⟩
    rw [hnone.mpr (h trivial)]
    simp
  · rw [if_neg (by decide)]
    simp only [require_eq_ok, hiff]
    refine ⟨fun ⟨_, _, h⟩ ↦ ⟨fun h ↦ absurd h (by decide), fun _ ↦ h⟩, fun ⟨_, h⟩ ↦
      ⟨(hiff.mpr (h trivial)).1, ⟨⟩, h trivial⟩⟩

/-! ## Acceptance -/

theorem AdversaryTranscript.same_toDict {p : Json} {t : AdversaryTranscript} :
    p.Same t.toDict ↔ ∃ fs m records s, p = .obj fs ∧ (∀ f ∈ fs, f.1 ∈ transcriptKeys) ∧
      fs.lookup "schema_version" = some (.str t.schemaVersion) ∧
      fs.lookup "source_schema_version" = some (.str t.sourceSchemaVersion) ∧
      fs.lookup "equality_channel" = some (.str t.equalityChannel) ∧
      fs.lookup "run_metadata" = some m ∧ m.Same t.runMetadata.toDict ∧
      fs.lookup "operations" = some (.arr records) ∧
      List.Forall₂ (fun r o ↦ r.Same o.toDict) records t.operations ∧
      fs.lookup "summary" = some s ∧ s.Same t.summary.toDict := by
  rw [toDict, same_obj_iff (by simp)]
  simp only [List.forall_mem_cons, List.map_cons, List.map_nil, same_str_iff, same_arr_map_iff]
  constructor
  · rintro ⟨fs, rfl, hkeys, ⟨_, h₁, rfl⟩, ⟨_, h₂, rfl⟩, ⟨_, h₃, rfl⟩, ⟨m, h₄, hm⟩,
      ⟨_, h₅, records, rfl, hrecords⟩, ⟨s, h₆, hs⟩, -⟩
    exact ⟨fs, m, records, s, rfl, hkeys, h₁, h₂, h₃, h₄, hm, h₅, hrecords, h₆, hs⟩
  · rintro ⟨fs, m, records, s, rfl, hkeys, h₁, h₂, h₃, h₄, hm, h₅, hrecords, h₆, hs⟩
    exact ⟨fs, rfl, hkeys, ⟨_, h₁, rfl⟩, ⟨_, h₂, rfl⟩, ⟨_, h₃, rfl⟩, ⟨m, h₄, hm⟩,
      ⟨_, h₅, records, rfl, hrecords⟩, ⟨s, h₆, hs⟩, by simp⟩

/-- The records of a transcript decode to well-formed operations that they encode. -/
theorem forall₂_fromDict_iff {records : List Json} {operations : List ObservedOperation} :
    List.Forall₂ (fun r o ↦ ObservedOperation.fromDict r = .ok o) records operations ↔
      (∀ o ∈ operations, o.Integral) ∧ (∀ o ∈ operations, o.Labelled (matchesClassPattern ·)) ∧
        List.Forall₂ (fun r o ↦ r.Same o.toDict) records operations := by
  simp only [ObservedOperation.fromDict_eq_ok]
  induction operations generalizing records with
  | nil => simp
  | cons o operations ih =>
    simp only [List.forall₂_cons_right_iff, ih, List.forall_mem_cons]
    constructor
    · rintro ⟨r, rs, ⟨hi, hl, hs⟩, ⟨his, hls, hss⟩, rfl⟩
      exact ⟨⟨hi, his⟩, ⟨hl, hls⟩, r, rs, hs, hss, rfl⟩
    · rintro ⟨⟨hi, his⟩, ⟨hl, hls⟩, r, rs, hs, hss, rfl⟩
      exact ⟨r, rs, ⟨hi, hl, hs⟩, ⟨his, hls, hss⟩, rfl⟩

/-- The validator accepts exactly the encodings of well-formed transcripts. -/
theorem validateTranscript_eq_ok {p : Json} {u : Unit} : validateTranscript p = .ok u ↔
    ∃ t : AdversaryTranscript, t.WellFormed (matchesClassPattern ·) ∧ p.Same t.toDict := by
  simp only [AdversaryTranscript.same_toDict, validateTranscript, bind_eq_ok, requireObject_eq_ok,
    rejectExtraFields_eq_ok, require_eq_ok, isText_iff, requireChannel_eq_ok, checkMetadata_eq_ok,
    requireList_eq_ok, parseOperations_eq_ok, forall₂_fromDict_iff, checkSummary_eq_ok]
  constructor
  · rintro ⟨fs, rfl, -, hkeys, -, hversion, -, hsource, channel, ⟨hchannel, hmem⟩, m,
      ⟨metadata, hmetadata, hm⟩, records, hrecords, _, ⟨operations, rfl, ⟨hintegral, hlabelled,
      hsame⟩, hpos⟩, _, hlabels, s, hs, hsummary⟩
    rw [List.map_map] at hsummary
    have hmap : operations.map (Prod.fst ∘ fun o ↦ (o, o.queryEqualityClass.isSome)) =
        operations := List.map_id _
    rw [hmap] at hsummary
    exact ⟨⟨_, _, m, operations, summarize operations, channel⟩,
      ⟨rfl, rfl, hmem, hpos, hintegral, hlabelled, (checkLabels_eq_ok hmem hpos).mp hlabels, rfl⟩,
      fs, metadata, records, s, rfl, hkeys, hversion, hsource, hchannel, hmetadata, hm, hrecords,
      hsame, hs, hsummary⟩
  · rintro ⟨t, ⟨hv, hsv, hmem, hpos, hintegral, hlabelled, hlabels, hsum⟩, fs, metadata, records,
      s, rfl, hkeys, hversion, hsource, hchannel, hmetadata, hm, hrecords, hsame, hs, hsummary⟩
    refine ⟨fs, rfl, ⟨⟩, hkeys, ⟨⟩, hv ▸ hversion, ⟨⟩, hsv ▸ hsource, _, ⟨hchannel, hmem⟩, _,
      ⟨metadata, hmetadata, hm⟩, records, hrecords, _, ⟨t.operations, rfl, ⟨hintegral, hlabelled,
      hsame⟩, hpos⟩, ⟨⟩, (checkLabels_eq_ok hmem hpos).mpr hlabels, s, hs, ?_⟩
    have hmap : t.operations.map (Prod.fst ∘ fun o ↦ (o, o.queryEqualityClass.isSome)) =
        t.operations := List.map_id _
    rw [List.map_map, hmap, ← hsum]
    exact hsummary

/-- The decoder returns exactly the well-formed transcript that a payload encodes. -/
theorem AdversaryTranscript.fromDict_eq_ok {p : Json} {t : AdversaryTranscript} :
    fromDict p = .ok t ↔ t.WellFormed (matchesClassPattern ·) ∧ p.Same t.toDict := by
  have hdecode : ∀ {t : AdversaryTranscript}, t.WellFormed (matchesClassPattern ·) →
      p.Same t.toDict → fromDict p = .ok t := by
    intro t ht hp
    obtain ⟨fs, metadata, records, s, rfl, -, -, -, hchannel, hmetadata, hm, hrecords, hsame, hs,
      hsummary⟩ := same_toDict.mp hp
    obtain ⟨fs', hfs', -, hfields⟩ := Summary.same_toDict.mp hsummary
    have hoperations := forall₂_fromDict_iff.mpr ⟨ht.integral, ht.labelled, hsame⟩
    simp only [fromDict, bind_eq_ok, requireObject_eq_ok, requireList_eq_ok, mapM_eq_ok_iff,
      requireChannel_eq_ok, checkMetadata_eq_ok, Summary.fromDict_eq_ok, pure_eq_ok]
    refine ⟨⟨⟩, validateTranscript_eq_ok.mpr ⟨t, ht, hp⟩, fs, rfl, records, hrecords, _,
      hoperations, _, ⟨hchannel, ht.channel⟩, _, ⟨metadata, hmetadata, hm⟩, _,
      ⟨fs', hs.trans (congrArg some hfs'), hfields⟩, ?_⟩
    rw [← ht.schemaVersion, ← ht.sourceSchemaVersion]
  refine ⟨fun h ↦ ?_, fun h ↦ hdecode h.1 h.2⟩
  obtain ⟨_, hvalid, -⟩ := bind_eq_ok.mp h
  obtain ⟨t', ht', hp'⟩ := validateTranscript_eq_ok.mp hvalid
  rw [hdecode ht' hp'] at h
  cases h
  exact ⟨ht', hp'⟩

end EnhancedLetIndex
