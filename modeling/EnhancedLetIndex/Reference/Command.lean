import EnhancedLetIndex.Reference.Passive
import EnhancedLetIndex.Reference.TruthArtifact
import EnhancedLetIndex.Reference.TwoRuns

/-!
# The command of the reference run

The default scenario and `main` of `letindex_ref.py`.  The command refuses, raises or writes
according to its options alone (`referenceMain_spec`): what it writes is the run of the scenario,
which finds every key that it queries, and the adversary reads it but not the truth that is written
beside it.  Of the workloads that the parser offers, only the records are ever written.
-/

namespace EnhancedLetIndex

/-! ## The scenario -/

/-- What `main` raises, by the part that raises it. -/
inductive ReferenceMainError where
  | profile (e : ReferenceError)
  | workload (e : PassiveWorkloadError)
  | leakage (e : LeakageError)
deriving DecidableEq, Repr

/-- `DEFAULT_LEVEL_SIZES`. -/
def defaultLevelSizes : List (Int × Nat) := [(3, 120), (4, 600), (5, 700), (6, 900)]

/-- The items of a level of the scenario. -/
def scenarioItems (level : Int) (count : Nat) : List (Int × String) :=
  (List.range count).map fun index : Nat ↦
    (level * 1000000 + 3 * (index : Int), s!"L{level}:{3 * index}")

/-- The levels of the scenario. -/
def scenarioLevels (levelSizes : List (Int × Nat)) : List (Int × List (Int × String)) :=
  levelSizes.map fun size ↦ (size.1, scenarioItems size.1 size.2)

/-- The keys of the scenario. -/
def scenarioKeys (levelSizes : List (Int × Nat)) : List Int :=
  ((scenarioLevels levelSizes).flatMap fun level ↦ level.2.map Prod.fst).insertionSort (· ≤ ·)

section Main

variable {K σ : Type} [Field K] [LinearOrder K]

/-- `default_scenario`. -/
def defaultScenario (source : PassiveSource K σ) (layout : Layout) (seed : Int)
    (prpKey : Option Int) (queryCount : Int) (workloadMode : String)
    (profile : Option ReferenceProfile) (levelSizes : List (Int × Nat)) :
    Except ReferenceMainError ReferenceExperiment := do
  let profile ← match profile with
    | some profile => pure profile
    | none => (ReferenceProfile.reference layout seed prpKey).mapError .profile
  let workload ← (generatePassiveWorkload source
    { mode := workloadMode
      seed
      records := scenarioKeys levelSizes
      count := queryCount }).mapError .workload
  pure {
    profile
    levels := scenarioLevels levelSizes
    queryKeys := workload.queries
    workload := some workload.publicDict }

/-! ## The command -/

/-- `transcript` of a builder. -/
def ReferenceTraceBuilder.transcript (b : ReferenceTraceBuilder) :
    Except LeakageError SectionTranscript := do
  let _ ← b.transcriptPayload
  pure
    { schemaVersion := Leakage.schemaVersion
      sourceSchemaVersion := referenceSchemaVersion
      runMetadata := b.runMetadata
      operations := b.operations
      summary := (summarizeOperations b.operations).fields.map fun f ↦ (f.1, .int f.2)
      equalityChannel := "M0" }

/-- The options of the command, with the defaults of its parser. -/
structure ReferenceArgs where
  layout : Layout := .ordered
  seed : Int := 0
  prpKey : Option Int := none
  queries : Int := 8
  workload : String := "record_uniform"
  variantLabel : Option String := none
  itemsPerBlock : Option Int := none
  epsilon : Option Int := none
  transcriptOut : Option String := none
  truthOut : Option String := none

/-- What the command does: it prints a refusal, or it writes its files. -/
inductive ReferenceMainResult where
  | refused (message : String)
  | wrote (artifact : Json) (transcript truth : Option Json)

/-- The exit code. -/
def ReferenceMainResult.code : ReferenceMainResult → Nat
  | .refused _ => 2
  | .wrote _ _ _ => 0

/-- What is written to `--transcript-out`. -/
def transcriptFile (args : ReferenceArgs) (b : ReferenceTraceBuilder) :
    Except ReferenceMainError (Option Json) :=
  if given args.transcriptOut then
    ((b.transcript >>= SectionTranscript.toDict).mapError .leakage).map some
  else pure none

/-- What is written to `--truth-out`. -/
def truthFile (args : ReferenceArgs) (b : ReferenceTraceBuilder) :
    Except ReferenceMainError (Option Json) :=
  if given args.truthOut then
    ((b.index.truthArtifact []).mapError .profile).map fun t ↦ some t.toDict
  else pure none

/-- `main` after the profile: the run of the scenario and what is written of it. -/
def writeReference (source : PassiveSource K σ) (shuffle : Shuffle) (args : ReferenceArgs)
    (p : ReferenceProfile) : Except ReferenceMainError ReferenceMainResult := do
  let e ← defaultScenario source p.layout p.seed none args.queries args.workload (some p)
    defaultLevelSizes
  let b ← (e.run shuffle).mapError .profile
  let artifact ← b.artifact.mapError .leakage
  let transcript ← transcriptFile args b
  let truth ← truthFile args b
  pure (.wrote artifact transcript truth)

/-- `main`; the parser, the files and the printing are left out. -/
def referenceMain (source : PassiveSource K σ) (shuffle : Shuffle) (args : ReferenceArgs) :
    Except ReferenceMainError ReferenceMainResult :=
  if args.layout = .staticPrp ∧ args.prpKey = none then
    pure (.refused ("error: --layout static_prp requires --prp-key (evaluator-side layout key; " ++
      "it is never part of the attack-facing configuration)"))
  else if args.layout = .ordered ∧ args.prpKey.isSome then
    pure (.refused "error: --prp-key is only meaningful with --layout static_prp")
  else if given args.variantLabel then do
    let p ← (ReferenceProfile.experimentalVariant (args.variantLabel.getD "") args.layout args.seed
      args.prpKey { itemsPerBlock := args.itemsPerBlock, epsilon := args.epsilon }).mapError
        ReferenceMainError.profile
    writeReference source shuffle args p
  else if args.itemsPerBlock.isSome ∨ args.epsilon.isSome then
    pure (.refused
      "error: deviating from the frozen upstream defaults requires --variant-label")
  else do
    let p ← (ReferenceProfile.reference args.layout args.seed args.prpKey).mapError
      ReferenceMainError.profile
    writeReference source shuffle args p

end Main

/-! ## The scenario is built -/

theorem map_fst_scenarioItems (level : Int) (count : Nat) :
    (scenarioItems level count).map Prod.fst =
      (List.range count).map fun index : Nat ↦ level * 1000000 + 3 * (index : Int) := by
  rw [scenarioItems, List.map_map]
  rfl

/-- The levels of the scenario fit the geometry of the defaults. -/
theorem buildable_scenario {p : ReferenceProfile} (hbase : p.base = 8) (hmin : p.minLevel = 3) :
    ∀ entry ∈ scenarioLevels defaultLevelSizes, ReferenceIndex.Buildable p entry := by
  intro entry hentry
  obtain ⟨size, hsize, rfl⟩ := List.mem_map.mp hentry
  have hfits : 3 ≤ size.1 ∧ (size.2 : Int) ≤ 8 ^ size.1.toNat := by
    simp only [defaultLevelSizes, List.mem_cons, List.not_mem_nil, or_false] at hsize
    rcases hsize with rfl | rfl | rfl | rfl <;> simp
  refine ⟨hmin.trans_le hfits.1, le_trans (by decide) hfits.1, ?_, ?_⟩
  · rw [map_fst_scenarioItems]
    refine List.nodup_range.map fun i j hij ↦ ?_
    have hij : size.1 * 1000000 + 3 * (i : Int) = size.1 * 1000000 + 3 * (j : Int) := hij
    omega
  · rw [hbase, scenarioItems, List.length_map, List.length_range]
    exact hfits.2

/-! ## What is written -/

namespace ReferenceArgs

variable (args : ReferenceArgs)

/-- The options that are refused: a layout without its key, a key without its layout, or a
deviation without a label. -/
def Refused : Prop :=
  args.layout = .staticPrp ∧ args.prpKey = none ∨
    args.layout = .ordered ∧ args.prpKey.isSome ∨
    given args.variantLabel = false ∧ (args.itemsPerBlock.isSome ∨ args.epsilon.isSome)

/-- The profile of options that are not refused. -/
def profile : Except ReferenceError ReferenceProfile :=
  if given args.variantLabel then
    ReferenceProfile.experimentalVariant (args.variantLabel.getD "") args.layout args.seed
      args.prpKey { itemsPerBlock := args.itemsPerBlock, epsilon := args.epsilon }
  else ReferenceProfile.reference args.layout args.seed args.prpKey

/-- The options whose profile is constructed. -/
structure Profiled : Prop where
  prpKey_ne : args.prpKey ≠ some args.seed
  label : given args.variantLabel → ¬ProfileFields.blank (args.variantLabel.getD "")
  itemsPerBlock_pos : ∀ n ∈ args.itemsPerBlock, 0 < n
  epsilon_nonneg : ∀ n ∈ args.epsilon, 0 ≤ n

/-- The options with which the command writes its files. -/
structure Runnable : Prop extends Profiled args where
  not_refused : ¬args.Refused
  workload : args.workload = "record_uniform"
  queries_nonneg : 0 ≤ args.queries

/-- The files are those of a run of the scenario that finds every key it queries. -/
structure Writes (shuffle : Shuffle) (b : ReferenceTraceBuilder) (artifact : Json)
    (transcript truth : Option Json) : Prop where
  profile : args.profile = .ok b.experiment.profile
  levels : b.experiment.levels = scenarioLevels defaultLevelSizes
  run : b.experiment.run shuffle = .ok b
  queries : (b.outcomes.length : Int) = args.queries
  found : ∀ out ∈ b.outcomes, out.found = true
  artifact_eq : b.artifact = .ok artifact
  view : AdversaryInput.fromReferenceArtifact artifact = .ok b.view
  valid : validateReferenceTranscript b.transcriptDict = .ok ()
  transcript : transcript = if given args.transcriptOut then some b.transcriptDict else none
  truth_given : truth.isSome ↔ given args.truthOut
  truth_hidden : ∀ t ∈ truth, AdversaryInput.fromReferenceArtifact t = .error .schemaVersion

variable {args} {K σ : Type} [Field K] [LinearOrder K] {source : PassiveSource K σ}
  {shuffle : Shuffle}

theorem not_refused_iff : ¬args.Refused ↔ ¬(args.layout = .staticPrp ∧ args.prpKey = none) ∧
    ¬(args.layout = .ordered ∧ args.prpKey.isSome) ∧ ¬(given args.variantLabel = false ∧
      (args.itemsPerBlock.isSome ∨ args.epsilon.isSome)) := by
  rw [Refused, not_or, not_or]

/-- Refused options print a message. -/
theorem Refused.main (source : PassiveSource K σ) (shuffle : Shuffle) (h : args.Refused) :
    ∃ message, referenceMain source shuffle args = .ok (.refused message) := by
  rw [referenceMain]
  split_ifs with hkey hordered hlabel hdeviates
  · exact ⟨_, rfl⟩
  · exact ⟨_, rfl⟩
  · rcases h with h | h | h
    · exact absurd h hkey
    · exact absurd h hordered
    · rw [h.1] at hlabel
      cases hlabel
  · exact ⟨_, rfl⟩
  · rcases h with h | h | h
    · exact absurd h hkey
    · exact absurd h hordered
    · exact absurd h.2 hdeviates

/-- Other options are run with their profile. -/
theorem main_of_not_refused (h : ¬args.Refused) : referenceMain source shuffle args =
    (args.profile.mapError .profile >>= writeReference source shuffle args) := by
  obtain ⟨hkey, hordered, hdeviates⟩ := not_refused_iff.mp h
  rw [referenceMain, if_neg hkey, if_neg hordered, profile]
  by_cases hlabel : given args.variantLabel = true
  · rw [if_pos hlabel, if_pos hlabel]
  · rw [if_neg hlabel, if_neg fun h ↦ hdeviates ⟨Bool.eq_false_iff.mpr hlabel, h⟩, if_neg hlabel]

/-- A profile is constructed of the options that are not refused exactly when the key is not the
seed, the label is not blank and the overrides are in range. -/
theorem exists_profile_iff (h : ¬args.Refused) :
    (∃ p, args.profile = .ok p) ↔ args.Profiled := by
  obtain ⟨hkey, hordered, hdeviates⟩ := not_refused_iff.mp h
  rw [profile]
  by_cases hlabel : given args.variantLabel = true
  · obtain ⟨label, hsome, hne⟩ := given_iff.mp hlabel
    have hlabelled (o : ReferenceProfile.Overrides) : (ReferenceProfile.variantFields label
        args.layout args.seed args.prpKey o).firstDeviation = none :=
      ProfileFields.firstDeviation_eq_none.mpr (.inl (decide_eq_true hne))
    rw [if_pos hlabel, hsome, Option.getD_some]
    simp only [ReferenceProfile.experimentalVariant, require_bind_eq_ok, exists_and_left,
      ReferenceProfile.exists_ofFields_iff, ProfileFields.postInit_eq_ok, hlabelled]
    constructor
    · rintro ⟨hblank, -, ⟨-, hitems⟩, hepsilon, hseed, -, -, -⟩
      refine ⟨hseed, fun _ ↦ ?_, fun n hn ↦ ?_, fun n hn ↦ ?_⟩
      · rw [hsome, Option.getD_some]
        exact fun h ↦ hblank (.inr h)
      · rwa [ReferenceProfile.variantFields, hn] at hitems
      · rwa [ReferenceProfile.variantFields, hn] at hepsilon
    · rintro ⟨hseed, hblank, hitems, hepsilon⟩
      replace hblank := hblank hlabel
      rw [hsome, Option.getD_some] at hblank
      refine ⟨not_or.mpr ⟨hne, hblank⟩, trivial, ⟨Int.natCast_pos.mpr (Nat.succ_pos 15), ?_⟩, ?_,
        hseed, hkey, hordered, hblank⟩
      · show 0 < args.itemsPerBlock.getD 256
        cases hn : args.itemsPerBlock with
        | none => decide
        | some n => exact hitems n hn
      · show 0 ≤ args.epsilon.getD 64
        cases hn : args.epsilon with
        | none => decide
        | some n => exact hepsilon n hn
  · have hdefaults : ({ layout := args.layout, seed := args.seed, prpKey := args.prpKey } :
        ProfileFields).firstDeviation = none :=
      ProfileFields.firstDeviation_eq_none.mpr (.inr (by simp [ProfileFields.geometry]))
    obtain ⟨hitems, hepsilon⟩ := not_or.mp fun h ↦ hdeviates ⟨Bool.eq_false_iff.mpr hlabel, h⟩
    rw [Option.not_isSome_iff_eq_none] at hitems hepsilon
    rw [if_neg hlabel]
    simp only [ReferenceProfile.reference, ReferenceProfile.exists_ofFields_iff,
      ProfileFields.postInit_eq_ok, hdefaults]
    constructor
    · rintro ⟨-, -, -, hseed, -⟩
      refine ⟨hseed, fun hlabel' ↦ absurd hlabel' hlabel, ?_, ?_⟩
      · rw [hitems]
        exact fun n hn ↦ absurd hn (Option.not_mem_none n)
      · rw [hepsilon]
        exact fun n hn ↦ absurd hn (Option.not_mem_none n)
    · rintro ⟨hseed, -, -, -⟩
      exact ⟨trivial, by decide, by decide, hseed, hkey, hordered, by decide⟩

/-- The profile keeps the base and the first level. -/
theorem profile_eq_ok {p : ReferenceProfile} (h : args.profile = .ok p) :
    p.base = 8 ∧ p.minLevel = 3 := by
  rw [profile] at h
  split_ifs at h
  · obtain ⟨-, h⟩ := require_bind_eq_ok.mp h
    rw [ReferenceProfile.ofFields_eq_ok.mp h]
    exact ⟨rfl, rfl⟩
  · rw [ReferenceProfile.ofFields_eq_ok.mp h]
    exact ⟨rfl, rfl⟩

/-! ## The run of the scenario -/

/-- The run of the scenario under a profile with the geometry of the defaults. -/
theorem exists_run (shuffle : Shuffle) {p : ReferenceProfile} (hbase : p.base = 8)
    (hmin : p.minLevel = 3) {e : ReferenceExperiment} (hprofile : e.profile = p)
    (hlevels : e.levels = scenarioLevels defaultLevelSizes)
    (hkeys : ∀ key ∈ e.queryKeys, key ∈ scenarioKeys defaultLevelSizes)
    (hfamily : e.family ≠ "") :
    ∃ b, e.run shuffle = .ok b ∧ b.experiment = e ∧ b.Complete ∧
      b.outcomes.length = e.queryKeys.length ∧ (∀ out ∈ b.outcomes, out.found = true) ∧
      ∃ t, b.index.truthArtifact [] = .ok t := by
  subst hprofile
  have hentries : e.levelMap.entries = scenarioLevels defaultLevelSizes := by
    rw [e.levelMap_entries, hlevels]
    rw [hlevels, scenarioLevels, List.map_map]
    exact List.nodup_map_iff_inj_on (by decide) |>.mpr (by decide)
  obtain ⟨idx, hidx⟩ := ReferenceIndex.exists_build_iff.mpr
    (hentries ▸ buildable_scenario hbase hmin)
  have h := ReferenceIndex.build_eq_ok hidx
  obtain ⟨new, outs, -, hnew, houts, hrun⟩ := ReferenceTraceBuilder.run_spec hidx
  obtain ⟨t, ht, -⟩ := h.truthArtifact_spec []
  refine ⟨_, hrun, rfl, ReferenceTraceBuilder.complete_of_loaded rfl hnew hfamily fun hnil ↦ ?_,
    houts.length_eq.symm, fun out hout ↦ ?_, t, ht⟩
  · have hslots := hnew.slots_eq
    rw [(List.append_eq_nil_iff.mp hnil).1, ← h.flatMap_levelSlots] at hslots
    have hentry : ((3 : Int), scenarioItems 3 120) ∈ e.levelMap.entries := by
      rw [hentries]
      exact List.mem_cons_self
    exact h.flatMap_levelSlots_ne hentry (List.cons_ne_nil _ _) hslots.symm
  · obtain ⟨key, hkey, hquery⟩ := exists_mem_left houts hout
    obtain ⟨-, -, -, out', -, hquery', -, hanswers⟩ := h.query_spec key
    obtain rfl : out = out' := Except.ok.inj (hquery.symm.trans hquery')
    rw [hanswers.found_iff, hentries]
    have hmem := hkeys key hkey
    rw [scenarioKeys, List.mem_insertionSort, List.mem_flatMap] at hmem
    exact hmem

/-- A request that only has records admits those. -/
theorem admits_records {mode : String} {seed count key : Int} {records : List Int}
    (h : ({ mode, seed, count, records } : PassiveRequest K).Admits key) :
    mode = "record_uniform" ∧ key ∈ records := by
  rcases h with h | ⟨-, domain, hdomain, -⟩ | ⟨-, weights, hweights, -⟩
  · exact h
  · cases hdomain
  · cases hweights

theorem answered_records_iff {mode : String} {seed count : Int} {records : List Int}
    (hrecords : records ≠ []) : ({ mode, seed, count, records } : PassiveRequest K).Answered ↔
      mode = "record_uniform" ∧ 0 ≤ count := by
  constructor
  · rintro ⟨hcount, ⟨key, hkey⟩, -⟩
    exact ⟨(admits_records hkey).1, hcount⟩
  · rintro ⟨rfl, hcount⟩
    obtain ⟨key, hkey⟩ := List.exists_mem_of_ne_nil records hrecords
    have hother : "record_uniform" ≠ "data_empirical" := by decide
    exact ⟨hcount, ⟨key, .inl ⟨rfl, hkey⟩⟩, fun hmode ↦ absurd hmode hother⟩

theorem scenarioKeys_ne : scenarioKeys defaultLevelSizes ≠ [] := by
  have hmem : (3000000 : Int) ∈ scenarioKeys defaultLevelSizes := by
    rw [scenarioKeys, List.mem_insertionSort]
    exact List.mem_cons_self
  exact List.ne_nil_of_mem hmem

/-- What the transcript of a complete run is written as. -/
theorem transcript_toDict {b : ReferenceTraceBuilder} (h : b.Complete) :
    (b.transcript >>= SectionTranscript.toDict) = .ok b.transcriptDict := by
  rw [ReferenceTraceBuilder.transcript, h.transcriptPayload]
  show (copyRunMetadata (.obj b.runMetadata) >>= fun _ ↦ _) = _
  rw [ReferenceTraceBuilder.copyRunMetadata_runMetadata h.family_ne]
  rfl

variable [IsStrictOrderedRing K]

/-- The scenario of a request for records, and its workload. -/
theorem defaultScenario_eq_ok {p : ReferenceProfile} {layout : Layout} {seed count : Int}
    {prpKey : Option Int} {mode : String} {e : ReferenceExperiment}
    (h : defaultScenario source layout seed prpKey count mode (some p) defaultLevelSizes = .ok e) :
    (mode = "record_uniform" ∧ 0 ≤ count) ∧ e.profile = p ∧
      e.levels = scenarioLevels defaultLevelSizes ∧ e.family = "LETINDEX-REF-V1" ∧
      (e.queryKeys.length : Int) = count ∧
      ∀ key ∈ e.queryKeys, key ∈ scenarioKeys defaultLevelSizes := by
  obtain ⟨p', hp', h⟩ := bind_eq_ok.mp h
  cases hp'
  obtain ⟨w, hw, h⟩ := bind_eq_ok.mp h
  rw [mapError_eq_ok] at hw
  cases h
  obtain ⟨hcount, hall⟩ := queries_admitted hw
  have hanswered := (exists_generatePassiveWorkload_iff source).mp ⟨w, hw⟩
  exact ⟨(answered_records_iff scenarioKeys_ne).mp hanswered, rfl, rfl, rfl, hcount,
    fun key hkey ↦ (admits_records (hall key hkey)).2⟩

theorem exists_defaultScenario (source : PassiveSource K σ) (p : ReferenceProfile)
    (layout : Layout) (seed : Int) {count : Int} (prpKey : Option Int) {mode : String}
    (hmode : mode = "record_uniform") (hcount : 0 ≤ count) : ∃ e,
      defaultScenario source layout seed prpKey count mode (some p) defaultLevelSizes = .ok e := by
  obtain ⟨w, hw⟩ := (exists_generatePassiveWorkload_iff source).mpr
    ((answered_records_iff scenarioKeys_ne).mpr ⟨hmode, hcount⟩)
  exact ⟨_, bind_eq_ok.mpr ⟨p, rfl, bind_eq_ok.mpr ⟨w, mapError_eq_ok.mpr hw, rfl⟩⟩⟩

/-- The files of a scenario are written. -/
theorem exists_writeReference (shuffle : Shuffle) {p : ReferenceProfile}
    (hp : args.profile = .ok p) {e : ReferenceExperiment}
    (he : defaultScenario source p.layout p.seed none args.queries args.workload (some p)
      defaultLevelSizes = .ok e) : ∃ b artifact transcript truth,
      writeReference source shuffle args p = .ok (.wrote artifact transcript truth) ∧
        args.Writes shuffle b artifact transcript truth := by
  obtain ⟨hbase, hmin⟩ := profile_eq_ok hp
  obtain ⟨-, hprofile, hlevels, hfamily, hcount, hkeys⟩ := defaultScenario_eq_ok he
  obtain ⟨b, hrun, hexperiment, hcomplete, hlength, hfound, t, ht⟩ :=
    exists_run shuffle hbase hmin hprofile hlevels hkeys (by rw [hfamily]; decide)
  obtain ⟨artifact, hartifact, hview⟩ := hcomplete.fromReferenceArtifact
  have htranscript : transcriptFile args b =
      .ok (if given args.transcriptOut then some b.transcriptDict else none) := by
    rw [transcriptFile, transcript_toDict hcomplete]
    split_ifs <;> rfl
  have htruth : truthFile args b =
      .ok (if given args.truthOut then some t.toDict else none) := by
    rw [truthFile, ht]
    split_ifs <;> rfl
  refine ⟨b, artifact, _, _, bind_eq_ok.mpr ⟨e, he, bind_eq_ok.mpr ⟨b, mapError_eq_ok.mpr hrun,
    bind_eq_ok.mpr ⟨artifact, mapError_eq_ok.mpr hartifact, bind_eq_ok.mpr ⟨_, htranscript,
      bind_eq_ok.mpr ⟨_, htruth, rfl⟩⟩⟩⟩⟩, ?_⟩
  refine ⟨by rw [hexperiment, hprofile, hp], by rw [hexperiment, hlevels],
    by rw [hexperiment, hrun], by rw [hlength, hcount], hfound, hartifact, hview, hcomplete.validate, rfl, ?_, ?_⟩
  · split_ifs with hgiven
    · exact iff_of_true rfl hgiven
    · exact iff_of_false Bool.false_ne_true hgiven
  · intro u hu
    split_ifs at hu
    · cases hu
      exact ReferenceIndex.fromReferenceArtifact_truth t
    · cases hu

variable (source) in
/-- Options that are not refused are run exactly when they are runnable. -/
theorem runnable_iff (h : ¬args.Refused) :
    (∃ p e, args.profile = .ok p ∧ defaultScenario source p.layout p.seed none args.queries
      args.workload (some p) defaultLevelSizes = .ok e) ↔ args.Runnable := by
  constructor
  · rintro ⟨p, e, hp, he⟩
    obtain ⟨⟨hworkload, hqueries⟩, -⟩ := defaultScenario_eq_ok he
    exact ⟨(exists_profile_iff h).mp ⟨p, hp⟩, h, hworkload, hqueries⟩
  · intro hrunnable
    obtain ⟨p, hp⟩ := (exists_profile_iff h).mpr hrunnable.toProfiled
    obtain ⟨e, he⟩ := exists_defaultScenario source p p.layout p.seed none hrunnable.workload
      hrunnable.queries_nonneg
    exact ⟨p, e, hp, he⟩

/-- What is not refused and returned is written. -/
theorem writes_of_main (h : ¬args.Refused) {r : ReferenceMainResult}
    (hr : referenceMain source shuffle args = .ok r) : args.Runnable ∧
      ∃ b artifact transcript truth, r = .wrote artifact transcript truth ∧
        args.Writes shuffle b artifact transcript truth := by
  rw [main_of_not_refused h] at hr
  obtain ⟨p, hp, hr⟩ := bind_eq_ok.mp hr
  rw [mapError_eq_ok] at hp
  obtain ⟨e, he, -⟩ := bind_eq_ok.mp hr
  obtain ⟨b, artifact, transcript, truth, hwrite, hwrites⟩ := exists_writeReference shuffle hp he
  rw [hwrite] at hr
  cases hr
  exact ⟨(runnable_iff source h).mp ⟨p, e, hp, he⟩, b, artifact, transcript, truth, rfl, hwrites⟩

theorem Runnable.exists_wrote (source : PassiveSource K σ) (shuffle : Shuffle)
    (h : args.Runnable) : ∃ artifact transcript truth,
    referenceMain source shuffle args = .ok (.wrote artifact transcript truth) := by
  obtain ⟨p, e, hp, he⟩ := (runnable_iff source h.not_refused).mpr h
  obtain ⟨b, artifact, transcript, truth, hwrite, -⟩ := exists_writeReference shuffle hp he
  refine ⟨artifact, transcript, truth, ?_⟩
  rw [main_of_not_refused h.not_refused]
  exact bind_eq_ok.mpr ⟨p, mapError_eq_ok.mpr hp, hwrite⟩

end ReferenceArgs

/-- Whatever is drawn and however the blocks are permuted, the command exits with 2 or with 0
according to its options alone, and what it writes is the run of the scenario: every query finds its
key, the adversary reads the artifact, the transcript is valid and the truth is not readable to the
adversary. -/
theorem referenceMain_spec {K σ : Type} [Field K] [LinearOrder K] [IsStrictOrderedRing K]
    (source : PassiveSource K σ) (shuffle : Shuffle) (args : ReferenceArgs) :
    ((∃ r, referenceMain source shuffle args = .ok r ∧ r.code = 2) ↔ args.Refused) ∧
    ((∃ r, referenceMain source shuffle args = .ok r ∧ r.code = 0) ↔ args.Runnable) ∧
    ∀ artifact transcript truth,
      referenceMain source shuffle args = .ok (.wrote artifact transcript truth) →
        ∃ b, args.Writes shuffle b artifact transcript truth := by
  by_cases h : args.Refused
  · obtain ⟨message, hmessage⟩ := h.main source shuffle
    rw [hmessage]
    refine ⟨iff_of_true ⟨_, rfl, rfl⟩ h, iff_of_false ?_ fun hrunnable ↦ hrunnable.not_refused h, ?_⟩
    · rintro ⟨r, hr, hcode⟩
      cases hr
      cases hcode
    · intro artifact transcript truth hr
      cases hr
  · have hwrites (r : ReferenceMainResult) (hr : referenceMain source shuffle args = .ok r) :=
      ReferenceArgs.writes_of_main h hr
    refine ⟨iff_of_false ?_ h, ⟨?_, fun hrunnable ↦ ?_⟩, ?_⟩
    · rintro ⟨r, hr, hcode⟩
      obtain ⟨-, b, artifact, transcript, truth, rfl, -⟩ := hwrites r hr
      cases hcode
    · rintro ⟨r, hr, -⟩
      exact (hwrites r hr).1
    · obtain ⟨artifact, transcript, truth, hr⟩ := hrunnable.exists_wrote source shuffle
      exact ⟨_, hr, rfl⟩
    · intro artifact transcript truth hr
      obtain ⟨-, b, _, _, _, heq, hb⟩ := hwrites _ hr
      cases heq
      exact ⟨b, hb⟩

theorem ReferenceArgs.runnable_defaults : ReferenceArgs.Runnable {} where
  prpKey_ne := by decide
  label hgiven := absurd hgiven (by decide)
  itemsPerBlock_pos n hn := absurd hn (Option.not_mem_none n)
  epsilon_nonneg n hn := absurd hn (Option.not_mem_none n)
  not_refused := by simp [Refused]
  workload := rfl
  queries_nonneg := by decide

theorem referenceMain_spec_defaults : ∃ r,
    referenceMain (PassiveSource.ofDraws ([] : List ℚ)) ReferenceIndex.reversal {} = .ok r ∧
      r.code = 0 :=
  (referenceMain_spec (PassiveSource.ofDraws ([] : List ℚ)) ReferenceIndex.reversal {}).2.1.mpr
    ReferenceArgs.runnable_defaults

end EnhancedLetIndex
