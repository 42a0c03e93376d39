import EnhancedLetIndex.Reference.Adversary
import EnhancedLetIndex.Reference.Truth

/-!
# Every reference run has an attack-facing view

The producer of the transcript, its strict validator and the scan of field names are three
descriptions of one payload.  A run of an accepted experiment meets all three, so that its
artifact has a view (`ReferenceTraceBuilder.Complete.view`).
-/

namespace EnhancedLetIndex

open Json

/-! ## The validator accepts what a run records -/

theorem requireExactly_of {place : String} {data : Fields} {keys : List String}
    (h : data.map Prod.fst = keys) : requireExactly place data keys = .ok () := by
  apply require_of
  refine ⟨fun f hf ↦ h ▸ List.mem_map_of_mem hf, fun k hk ↦ h ▸ hk⟩

theorem referenceEvents_toDict {start : Nat} {events : List ObservedEvent}
    (h : events.map (·.seq) = (List.range' start events.length).map Int.ofNat) :
    referenceEvents start (events.map ObservedEvent.toDict) = .ok events := by
  induction events generalizing start with
  | nil => rfl
  | cons e events ih =>
    rw [List.map_cons, List.length_cons, List.range'_succ, List.map_cons, List.cons.injEq] at h
    have hevent : referenceEvent start e.toDict = .ok e := by
      have hoperation : requireEventOperation [("seq", .int e.seq),
          ("operation", .str e.operation.text), ("slot_id", .int e.slotId)] = .ok e.operation :=
        requireEventOperation_eq_ok.mpr rfl
      have hseq : e.seq = (start : Int) := h.1
      have hexactly : requireExactly "reference event" [("seq", .int e.seq),
          ("operation", .str e.operation.text), ("slot_id", .int e.slotId)] eventKeys = .ok () :=
        requireExactly_of rfl
      rw [referenceEvent, ObservedEvent.toDict, requireObject_eq_ok.mpr rfl, ok_bind,
        hexactly, ok_bind, hoperation, ok_bind, requireInt_eq_ok.mpr rfl, ok_bind,
        requireInt_eq_ok.mpr rfl, ok_bind, require_of hseq]
      rfl
    rw [List.map_cons, referenceEvents, hevent, ok_bind, ih h.2]
    rfl

/-- The fields of an operation without a label. -/
theorem toDict_of_unlabelled {o : ObservedOperation} (h : o.queryEqualityClass = none) :
    ∃ fs, o.toDict = .obj fs ∧ fs.map Prod.fst = operationKeys ∧
      fs.lookup "index" = some (.int o.index) ∧
      fs.lookup "class" = some (.str o.operationClass.text) ∧
      fs.lookup "events" = some (.arr (o.events.map ObservedEvent.toDict)) ∧
      fs.lookup "read_count" = some (.int o.readCount) ∧
      fs.lookup "write_count" = some (.int o.writeCount) := by
  rw [ObservedOperation.toDict, ObservedOperation.labelFields, h]
  exact ⟨_, rfl, rfl, rfl, rfl, rfl, rfl, rfl⟩

/-- The validator reads a recorded operation back. -/
theorem referenceRecord_toDict {position : Nat} {o : ObservedOperation}
    (hindex : o.index = position) (hintegral : o.Integral) (hlabel : o.queryEqualityClass = none)
    (hclass : o.operationClass ∈ operationClassesUsed) :
    referenceRecord position o.toDict = .ok o := by
  obtain ⟨fs, hfs, hkeys, h₁, h₂, h₃, h₄, h₅⟩ := toDict_of_unlabelled hlabel
  have hevents : referenceEvents 0 (o.events.map ObservedEvent.toDict) = .ok o.events := by
    apply referenceEvents_toDict
    rw [← List.range_eq_range']
    exact hintegral.sequenced
  have hcounts : checkEventIntegrity o "" = .ok () := checkEventIntegrity_eq_ok.mpr hintegral
  obtain ⟨hcounts, -⟩ := require_bind_eq_ok.mp hcounts
  have hposition : (fs.lookup "index").any (equalsInt · position) = true := by
    rw [h₁]
    exact decide_eq_true hindex
  have heq : (⟨position, o.operationClass, o.events, o.readCount, o.writeCount, none⟩ :
      ObservedOperation) = o := by
    rw [← hindex, ← hlabel]
  rw [referenceRecord, hfs, requireObject_eq_ok.mpr rfl, ok_bind, requireExactly_of hkeys, ok_bind,
    requireTranscriptClass, requireClass_eq_ok.mpr h₂, ok_bind, require_of hclass, ok_bind,
    requireIndex, require_of hposition, ok_bind, requireList_eq_ok.mpr h₃, ok_bind, hevents,
    ok_bind, requireInt_eq_ok.mpr h₄, ok_bind, requireInt_eq_ok.mpr h₅, ok_bind]
  simp only [heq, require_of hcounts, ok_bind, pure_eq_ok]

theorem referenceRecords_toDict {start : Nat} {operations : List ObservedOperation}
    (h : Recorded start operations)
    (hclass : ∀ o ∈ operations, o.operationClass ∈ operationClassesUsed) :
    referenceRecords start (operations.map ObservedOperation.toDict) = .ok operations := by
  induction operations generalizing start with
  | nil => rfl
  | cons o operations ih =>
    obtain ⟨hindex, hpos⟩ := positioned_cons.mp h.positioned
    obtain ⟨hintegral, hintegrals⟩ := List.forall_mem_cons.mp h.integral
    obtain ⟨hlabel, hlabels⟩ := List.forall_mem_cons.mp h.unlabelled
    obtain ⟨hclass, hclasses⟩ := List.forall_mem_cons.mp hclass
    rw [List.map_cons, referenceRecords, referenceRecord_toDict hindex hintegral hlabel hclass,
      ok_bind, ih ⟨hpos, hintegrals, hlabels⟩ hclasses]
    rfl

/-! ## Public names -/

/-- Every name in a payload is public. -/
def IsPublic (p : Json) : Prop := ∀ name ∈ collectKeys p, isPublicName name = true

theorem mem_collectFieldKeys {name : String} {fields : List (String × Json)} :
    name ∈ collectFieldKeys fields ↔ ∃ f ∈ fields, name = f.1 ∨ name ∈ collectKeys f.2 := by
  induction fields with
  | nil => simp [collectFieldKeys]
  | cons f fields ih =>
    rw [collectFieldKeys, List.mem_append, List.mem_cons, ih]
    simp

theorem mem_collectItemKeys {name : String} {items : List Json} :
    name ∈ collectItemKeys items ↔ ∃ x ∈ items, name ∈ collectKeys x := by
  induction items with
  | nil => simp [collectItemKeys]
  | cons x items ih =>
    rw [collectItemKeys, List.mem_append, ih]
    simp

theorem isPublic_obj {fields : List (String × Json)} :
    IsPublic (.obj fields) ↔ ∀ f ∈ fields, isPublicName f.1 = true ∧ IsPublic f.2 := by
  simp only [IsPublic, collectKeys, mem_collectFieldKeys]
  constructor
  · intro h f hf
    exact ⟨h f.1 ⟨f, hf, .inl rfl⟩, fun name hname ↦ h name ⟨f, hf, .inr hname⟩⟩
  · rintro h name ⟨f, hf, rfl | hname⟩
    · exact (h f hf).1
    · exact (h f hf).2 name hname

theorem isPublic_arr {items : List Json} : IsPublic (.arr items) ↔ ∀ x ∈ items, IsPublic x := by
  simp only [IsPublic, collectKeys, mem_collectItemKeys]
  constructor
  · intro h x hx name hname
    exact h name ⟨x, hx, hname⟩
  · rintro h name ⟨x, hx, hname⟩
    exact h x hx name hname

theorem isPublic_int (n : Int) : IsPublic (.int n) := by simp [IsPublic, collectKeys]

theorem isPublic_str (s : String) : IsPublic (.str s) := by simp [IsPublic, collectKeys]

theorem isPublic_bool (b : Bool) : IsPublic (.bool b) := by simp [IsPublic, collectKeys]

theorem isPublic_null : IsPublic .null := by simp [IsPublic, collectKeys]

/-- A record of public names whose values are public. -/
theorem isPublic_record {fields : List (String × Json)} (names : List String)
    (hfields : fields.map Prod.fst = names) (hnames : names.all isPublicName = true)
    (hvalues : ∀ v ∈ fields.map Prod.snd, IsPublic v) : IsPublic (.obj fields) := by
  apply isPublic_obj.mpr
  intro f hf
  refine ⟨?_, hvalues f.2 (List.mem_map_of_mem hf)⟩
  apply List.all_eq_true.mp hnames
  rw [← hfields]
  exact List.mem_map_of_mem hf

theorem scanForbiddenFields_eq_nil {p : Json} (h : IsPublic p) : scanForbiddenFields p = [] := by
  have hnone : (collectKeys p).dedup.filter (fun name ↦ ¬isPublicName name) = [] :=
    List.filter_eq_nil_iff.mpr fun name hname ↦ by simpa using h name (List.mem_dedup.mp hname)
  rw [scanForbiddenFields, hnone]
  rfl

theorem isPublic_event (e : ObservedEvent) : IsPublic e.toDict := by
  apply isPublic_record eventKeys rfl (by decide)
  simp [isPublic_int, isPublic_str]

theorem isPublic_operation (o : ObservedOperation) : IsPublic o.toDict := by
  have hevents : IsPublic (.arr (o.events.map ObservedEvent.toDict)) := by
    apply isPublic_arr.mpr
    intro x hx
    obtain ⟨e, -, rfl⟩ := List.mem_map.mp hx
    exact isPublic_event e
  apply isPublic_obj.mpr
  intro f hf
  rcases List.mem_append.mp hf with hf | hf
  · simp only [List.mem_cons, List.not_mem_nil, or_false] at hf
    rcases hf with rfl | rfl | rfl | rfl | rfl
    · exact ⟨rfl, isPublic_int _⟩
    · exact ⟨rfl, isPublic_str _⟩
    · exact ⟨rfl, hevents⟩
    · exact ⟨rfl, isPublic_int _⟩
    · exact ⟨rfl, isPublic_int _⟩
  · unfold ObservedOperation.labelFields at hf
    cases hlabel : o.queryEqualityClass with
    | none => simp [hlabel] at hf
    | some label =>
      obtain rfl : f = ("query_equality_class", .str label) := by simpa [hlabel] using hf
      exact ⟨rfl, isPublic_str _⟩

theorem isPublic_metadata (m : RunMetadata) : IsPublic m.toDict := by
  have hconfig : IsPublic (.obj [("block_capacity", .int m.blockCapacity),
      ("pgm_epsilon", .int m.pgmEpsilon)]) := by
    apply isPublic_record ["block_capacity", "pgm_epsilon"] rfl (by decide)
    simp [isPublic_int]
  apply isPublic_record ["family", "seed", "config"] rfl (by decide)
  simp [isPublic_int, isPublic_str, hconfig]

theorem isPublic_summary (s : Summary) : IsPublic s.toDict := by
  apply isPublic_record summaryKeys rfl (by decide)
  simp [isPublic_int]

/-- The metadata of a level: all of it but the placement. -/
theorem filter_toDict (l : ReferenceLevel) :
    (l.toDict.filter fun f ↦ f.1 ≠ "placement") = [("level", .int l.level),
      ("item_count", .int l.itemCount), ("block_count", .int l.blockCount),
      ("backing", .str l.backing), ("has_pgm", .bool l.hasPgm),
      ("items_per_block", .int l.itemsPerBlock)] := rfl

theorem isPublic_level (l : ReferenceLevel) :
    IsPublic (.obj (l.toDict.filter fun f ↦ f.1 ≠ "placement")) := by
  apply isPublic_record levelMetadataKeys rfl (by decide)
  rw [filter_toDict]
  simp [isPublic_int, isPublic_str, isPublic_bool]

/-! ## The view of a run -/

namespace ReferenceTraceBuilder

/-- A run with a family and at least one operation. -/
structure Complete (b : ReferenceTraceBuilder) : Prop where
  family_ne : b.experiment.family ≠ ""
  recorded : Recorded 0 b.operations
  ne_nil : b.operations ≠ []
  classes : ∀ o ∈ b.operations, o.operationClass ∈ operationClassesUsed

/-- The attack-facing view of a run. -/
def view (b : ReferenceTraceBuilder) : AdversaryInput where
  transcript :=
    { schemaVersion := Leakage.schemaVersion
      sourceSchemaVersion := referenceSchemaVersion
      runMetadata := b.runMetadata
      operations := b.operations
      summary := (summarizeOperations b.operations).fields.map fun f ↦ (f.1, .int f.2)
      equalityChannel := "M0" }
  publicConfig := b.publicConfig
  equalityChannel := "M0"
  sourceProfile := profileName

variable {b : ReferenceTraceBuilder}

/-- The metadata of a run with a family is accepted. -/
theorem copyRunMetadata_runMetadata (hfamily : b.experiment.family ≠ "") :
    copyRunMetadata (.obj b.runMetadata) = .ok ⟨b.experiment.family, b.experiment.profile.seed,
      b.experiment.profile.itemsPerBlock, b.experiment.profile.epsilon, hfamily⟩ :=
  copyRunMetadata_eq_ok.mpr ⟨_, _, rfl, rfl, rfl, rfl, rfl, rfl⟩

theorem checkReferenceMetadata_runMetadata (hfamily : b.experiment.family ≠ "") :
    checkReferenceMetadata (some (.obj b.runMetadata)) = .ok ⟨b.experiment.family,
      b.experiment.profile.seed, b.experiment.profile.itemsPerBlock,
      b.experiment.profile.epsilon, hfamily⟩ := by
  have hfields : requireExactly "run_metadata" b.runMetadata ["family", "seed", "config"] =
      .ok () := requireExactly_of rfl
  have hconfig : checkReferenceConfig (b.runMetadata.lookup "config") = .ok () :=
    requireExactly_of rfl
  simp only [checkReferenceMetadata, hfields, ok_bind, hconfig,
    copyRunMetadata_runMetadata hfamily]

/-- The transcript of a run passes its validation. -/
theorem Complete.validate (h : b.Complete) :
    validateReferenceTranscript b.transcriptDict = .ok () := by
  obtain ⟨fs, hfs, hkeys, h₁, h₂, h₃, h₄, h₅, h₆⟩ : ∃ fs, b.transcriptDict = .obj fs ∧
      fs.map Prod.fst = transcriptKeys ∧
      fs.lookup "schema_version" = some (.str Leakage.schemaVersion) ∧
      fs.lookup "source_schema_version" = some (.str referenceSchemaVersion) ∧
      fs.lookup "equality_channel" = some (.str "M0") ∧
      fs.lookup "run_metadata" = some (.obj b.runMetadata) ∧
      fs.lookup "operations" = some (.arr (b.operations.map ObservedOperation.toDict)) ∧
      fs.lookup "summary" = some (summarizeOperations b.operations).toDict :=
    ⟨_, rfl, rfl, rfl, rfl, rfl, rfl, rfl, rfl⟩
  have hne : b.operations.map ObservedOperation.toDict ≠ [] := by
    simpa using h.ne_nil
  have hsummary : checkSummary (fs.lookup "summary") (summarizeOperations b.operations) = .ok () :=
    checkSummary_eq_ok.mpr ⟨_, h₆, Same.refl _⟩
  rw [validateReferenceTranscript, hfs, requireObject_eq_ok.mpr rfl, ok_bind,
    requireExactly_of hkeys, ok_bind, require_of (isText_iff.mpr h₁),
    ok_bind, require_of (isText_iff.mpr h₂), ok_bind, require_of (isText_iff.mpr h₃), ok_bind, h₄,
    checkReferenceMetadata_runMetadata h.family_ne, ok_bind, requireList_eq_ok.mpr h₅, ok_bind,
    require_of hne, ok_bind, referenceRecords_toDict h.recorded h.classes, ok_bind, hsummary]

theorem Complete.transcriptPayload (h : b.Complete) :
    b.transcriptPayload = .ok b.transcriptDict := by
  rw [ReferenceTraceBuilder.transcriptPayload, h.validate]
  rfl

theorem isPublic_publicConfig (b : ReferenceTraceBuilder) : IsPublic (.obj b.publicConfig) := by
  have hlevels : IsPublic (.arr b.levelMetadata) := by
    apply isPublic_arr.mpr
    intro x hx
    obtain ⟨fs, hfs, rfl⟩ := List.mem_map.mp hx
    obtain ⟨l, -, rfl⟩ := List.mem_map.mp hfs
    exact isPublic_level l
  have hscanned : IsPublic (.arr (b.index.scannedLevels.map .int)) := by
    apply isPublic_arr.mpr
    intro x hx
    obtain ⟨n, -, rfl⟩ := List.mem_map.mp hx
    exact isPublic_int n
  have hlabel : IsPublic (orNull .str b.experiment.profile.variantLabel) := by
    cases b.experiment.profile.variantLabel with
    | none => exact isPublic_null
    | some s => exact isPublic_str s
  apply isPublic_record publicConfigKeys rfl (by decide)
  intro v hv
  have hv : v ∈ [Json.str profileName, .int b.experiment.profile.base,
      .int b.experiment.profile.minLevel, .int b.experiment.profile.minIndexLevel,
      .int b.experiment.profile.minDiskLevel, .int b.experiment.profile.blockSize,
      .int b.experiment.profile.itemSize, .int b.experiment.profile.itemsPerBlock,
      .int b.experiment.profile.epsilon, .str b.experiment.profile.layout.text,
      orNull .str b.experiment.profile.variantLabel, .int b.index.usedLevels,
      .arr (b.index.scannedLevels.map .int), .arr b.levelMetadata] := hv
  simp only [List.mem_cons, List.not_mem_nil, or_false] at hv
  rcases hv with rfl | rfl | rfl | rfl | rfl | rfl | rfl | rfl | rfl | rfl | rfl | rfl | rfl | rfl
  all_goals first
    | exact isPublic_int _
    | exact isPublic_str _
    | assumption

/-- The view of a run passes the check of its constructor. -/
theorem Complete.postInit_view (h : b.Complete) : b.view.postInit = .ok () := by
  have hkeys : ∀ f ∈ b.view.publicConfig, f.1 ∈ publicConfigKeys := by
    have hnames : b.publicConfig.map Prod.fst = publicConfigKeys := rfl
    exact fun f hf ↦ hnames ▸ List.mem_map_of_mem hf
  obtain ⟨dict, hdict, hpublic⟩ : ∃ dict, b.view.toDict = .ok dict ∧ IsPublic dict := by
    rw [AdversaryInput.toDict, SectionTranscript.toDict]
    simp only [view, copyRunMetadata_runMetadata h.family_ne, ok_bind, pure_eq_ok]
    refine ⟨_, rfl, ?_⟩
    have hoperations : IsPublic (.arr (b.operations.map ObservedOperation.toDict)) := by
      apply isPublic_arr.mpr
      intro x hx
      obtain ⟨o, -, rfl⟩ := List.mem_map.mp hx
      exact isPublic_operation o
    have hsummary : IsPublic (.obj ((summarizeOperations b.operations).fields.map
        fun f ↦ (f.1, .int f.2))) := isPublic_summary _
    have htranscript : IsPublic (.obj [("schema_version", .str Leakage.schemaVersion),
        ("source_schema_version", .str referenceSchemaVersion), ("equality_channel", .str "M0"),
        ("run_metadata", RunMetadata.toDict ⟨b.experiment.family, b.experiment.profile.seed,
          b.experiment.profile.itemsPerBlock, b.experiment.profile.epsilon, h.family_ne⟩),
        ("operations", .arr (b.operations.map ObservedOperation.toDict)),
        ("summary", .obj ((summarizeOperations b.operations).fields.map
          fun f ↦ (f.1, .int f.2)))]) := by
      apply isPublic_record transcriptKeys rfl (by decide)
      simp [isPublic_str, isPublic_metadata, hoperations, hsummary]
    apply isPublic_record ["equality_channel", "public_config", "transcript"] rfl (by decide)
    simp [isPublic_str, isPublic_publicConfig, htranscript]
  rw [AdversaryInput.postInit, require_of hkeys, ok_bind, hdict]
  show require (scanForbiddenFields dict = []) _ = .ok ()
  exact require_of (scanForbiddenFields_eq_nil hpublic)

/-- The transcript in the artifact of a run is read as it was recorded. -/
theorem Complete.readTranscript (h : b.Complete) {fs : Fields} (hfs : b.transcriptDict = .obj fs) :
    AdversaryInput.readTranscript fs = .ok b.view.transcript := by
  obtain rfl := Json.obj.inj hfs.symm
  have hoperations : (b.operations.map ObservedOperation.toDict).mapM ObservedOperation.fromDict =
      .ok b.operations := by
    apply mapM_eq_ok_iff.mpr
    refine List.forall₂_map_left_iff.mpr (List.forall₂_same.mpr fun o ho ↦ ?_)
    refine ObservedOperation.fromDict_eq_ok.mpr ⟨h.recorded.integral o ho, ?_, Same.refl _⟩
    intro l hl
    rw [h.recorded.unlabelled o ho] at hl
    cases hl
  have hread : ((b.operations.map ObservedOperation.toDict).mapM
      ObservedOperation.fromDict).mapError AdversaryInputError.leakage = .ok b.operations := by
    rw [hoperations]
    rfl
  rw [AdversaryInput.readTranscript]
  show (((b.operations.map ObservedOperation.toDict).mapM
    ObservedOperation.fromDict).mapError AdversaryInputError.leakage >>= fun operations ↦ _) = _
  rw [hread]
  rfl

/-- The artifact of a run has a view, which is the view of the run. -/
theorem Complete.fromReferenceArtifact (h : b.Complete) : ∃ artifact, b.artifact = .ok artifact ∧
    AdversaryInput.fromReferenceArtifact artifact = .ok b.view := by
  rw [artifact, h.transcriptPayload]
  refine ⟨_, rfl, ?_⟩
  have hview : (⟨b.view.transcript, b.publicConfig, b.view.transcript.equalityChannel,
      profileName⟩ : AdversaryInput) = b.view := rfl
  rw [AdversaryInput.fromReferenceArtifact]
  show (AdversaryInput.readTranscript _ >>= fun transcript ↦ _) = _
  rw [h.readTranscript rfl]
  show (AdversaryInput.postInit _ >>= fun _ ↦ _) = _
  rw [hview, h.postInit_view]
  rfl

end ReferenceTraceBuilder

end EnhancedLetIndex
