import EnhancedLetIndex.Reference.Trace

/-!
# The artifact of a reference run

The payload of the transcript, its strict validator `validate_reference_transcript`, and the
whole artifact of `letindex_ref.py`.  The validator is a second description of the frozen fields,
written without the decoders of `leakage.py`.
-/

namespace EnhancedLetIndex

open Json

/-! ## The validator -/

/-- A set of fields is exactly some names. -/
def HasExactly (data : Fields) (keys : List String) : Prop :=
  (∀ f ∈ data, f.1 ∈ keys) ∧ ∀ k ∈ keys, k ∈ data.map Prod.fst

instance (data : Fields) (keys : List String) : Decidable (HasExactly data keys) :=
  inferInstanceAs (Decidable (_ ∧ _))

/-- The check that a set of fields is exactly some names. -/
def requireExactly (place : String) (data : Fields) (keys : List String) :
    Except LeakageError Unit :=
  require (HasExactly data keys) (.extraFields place (data.map Prod.fst))

/-- `value == n` for an integer `n`: booleans and other numbers compare too. -/
def equalsInt (value : Json) (n : Int) : Bool :=
  match value with
  | .int m => m = n
  | .bool b => (if b then 1 else 0) = n
  | .float q => q = n
  | _ => false

/-- `REFERENCE_TRANSCRIPT_SOURCE`, which is `REFERENCE_ARTIFACT_SCHEMA_VERSION`. -/
def referenceSchemaVersion : String := "g2b0-ref-1"

/-- `PROFILE_NAME`. -/
def profileName : String := "LETINDEX-REF-V1"

/-- `OPERATION_CLASSES_USED`. -/
def operationClassesUsed : List OperationClass := [.buildInitial, .buildPgm, .query]

/-- `OPERATION_KEYS`. -/
def operationKeys : List String := ["index", "class", "events", "read_count", "write_count"]

/-- `_summarize_operations`. -/
def summarizeOperations (operations : List ObservedOperation) : Summary :=
  { summarize operations with mergeCount := 0 }

/-- An event at a position. -/
def referenceEvent (seq : Nat) (event : Json) : Except LeakageError ObservedEvent := do
  let data ← requireObject "reference event" event
  requireExactly "reference event" data eventKeys
  let operation ← requireEventOperation data
  let s ← requireInt data "seq" "event"
  let slotId ← requireInt data "slot_id" "event"
  require (s = seq) (.sequence "reference transcript" s)
  pure ⟨s, operation, slotId⟩

/-- The loop over the events of a record, from a position on. -/
def referenceEvents : Nat → List Json → Except LeakageError (List ObservedEvent)
  | _, [] => pure []
  | seq, event :: events => do
    let e ← referenceEvent seq event
    let rest ← referenceEvents (seq + 1) events
    pure (e :: rest)

/-- The index of a record is its position, however it is written. -/
def requireIndex (data : Fields) (position : Nat) : Except LeakageError Unit :=
  require ((data.lookup "index").any (equalsInt · position))
    (.index "reference transcript" position)

/-- A record at a position. -/
def referenceRecord (position : Nat) (record : Json) : Except LeakageError ObservedOperation := do
  let data ← requireObject "operations" record
  requireExactly "operations" data operationKeys
  let operationClass ← requireTranscriptClass data "operations"
  require (operationClass ∈ operationClassesUsed) (.badClass "operations" "class")
  requireIndex data position
  let events ← requireList "operations events" (data.lookup "events")
  let observed ← referenceEvents 0 events
  let readCount ← requireInt data "read_count" "operations"
  let writeCount ← requireInt data "write_count" "operations"
  let operation : ObservedOperation :=
    ⟨position, operationClass, observed, readCount, writeCount, none⟩
  let reads := operation.eventCount .read
  let writes := operation.events.length - reads
  require ((reads : Int) = readCount ∧ (writes : Int) = writeCount) (.counts "operations" position)
  pure operation

/-- The loop over the records, from a position on. -/
def referenceRecords : Nat → List Json → Except LeakageError (List ObservedOperation)
  | _, [] => pure []
  | position, record :: records => do
    let operation ← referenceRecord position record
    let rest ← referenceRecords (position + 1) records
    pure (operation :: rest)

/-- The fields of `config`. -/
def checkReferenceConfig (config : Option Json) : Except LeakageError Unit :=
  match config with
  | some (.obj data) =>
    requireExactly "run_metadata.config" data ["block_capacity", "pgm_epsilon"]
  | _ => .error (.notObject "run_metadata.config")

/-- The frozen fields of the metadata, with their values. -/
def checkReferenceMetadata (metadata : Option Json) : Except LeakageError RunMetadata :=
  match metadata with
  | some (.obj data) => do
    requireExactly "run_metadata" data ["family", "seed", "config"]
    checkReferenceConfig (data.lookup "config")
    copyRunMetadata (.obj data)
  | _ => .error (.notObject "run_metadata")

/-- `validate_reference_transcript`. -/
def validateReferenceTranscript (payload : Json) : Except LeakageError Unit := do
  let data ← requireObject "reference transcript" payload
  requireExactly "reference transcript" data transcriptKeys
  require (isText (data.lookup "schema_version") Leakage.schemaVersion) .schemaVersion
  require (isText (data.lookup "source_schema_version") referenceSchemaVersion)
    .sourceSchemaVersion
  require (isText (data.lookup "equality_channel") "M0") .equalityChannel
  let _ ← checkReferenceMetadata (data.lookup "run_metadata")
  let operations ← requireList "reference transcript operations" (data.lookup "operations")
  require (operations ≠ []) .emptyOperations
  let parsed ← referenceRecords 0 operations
  checkSummary (data.lookup "summary") (summarizeOperations parsed)

/-! ## The profile and the levels -/

/-- `is_reference_defaults`. -/
def ProfileFields.isReferenceDefaults (p : ProfileFields) : Bool :=
  p.geometry.all fun g ↦ g.2.1 = g.2.2

/-- `is_upstream_faithful_layout`. -/
def ProfileFields.isUpstreamFaithfulLayout (p : ProfileFields) : Bool := p.layout = .ordered

/-- `UPSTREAM_FAITHFUL` where it holds, and `EXPERIMENTAL_EXTENSION` elsewhere. -/
def faithful (holds : Bool) : Json :=
  .str (if holds then "UPSTREAM-FAITHFUL" else "EXPERIMENTAL EXTENSION")

/-- `classification` of a profile. -/
def ProfileFields.classification (p : ProfileFields) : Fields :=
  [("profile", faithful (p.isReferenceDefaults && p.isUpstreamFaithfulLayout)),
    ("geometry", faithful p.isReferenceDefaults), ("layout", faithful p.isUpstreamFaithfulLayout),
    ("lookup_semantics", faithful true)]

/-- An optional value, with null for none. -/
def orNull {α : Type} (f : α → Json) : Option α → Json
  | some a => f a
  | none => .null

/-- `to_dict` of a profile. -/
def ProfileFields.toDict (p : ProfileFields) : Fields :=
  [("profile", .str profileName), ("classification", .obj p.classification),
    ("base", .int p.base), ("min_level", .int p.minLevel),
    ("min_index_level", .int p.minIndexLevel), ("min_disk_level", .int p.minDiskLevel),
    ("block_size", .int p.blockSize), ("item_size", .int p.itemSize),
    ("items_per_block", .int p.itemsPerBlock), ("epsilon", .int p.epsilon),
    ("layout", .str p.layout.text), ("seed", .int p.seed), ("prp_key", orNull .int p.prpKey),
    ("variant_label", orNull .str p.variantLabel),
    ("is_reference_defaults", .bool p.isReferenceDefaults),
    ("is_upstream_faithful", .bool (p.isReferenceDefaults && p.isUpstreamFaithfulLayout))]

/-- `PUBLIC_PROFILE_KEYS`. -/
def publicProfileKeys : List String :=
  ["profile", "base", "min_level", "min_index_level", "min_disk_level", "block_size", "item_size",
    "items_per_block", "epsilon", "layout", "variant_label"]

/-- `public_dict`. -/
def ProfileFields.publicDict (p : ProfileFields) : Fields :=
  publicProfileKeys.map fun key ↦ (key, (p.toDict.lookup key).getD .null)

/-- `to_dict` of a level. -/
def ReferenceLevel.toDict (l : ReferenceLevel) : Fields :=
  [("level", .int l.level), ("item_count", .int l.itemCount), ("block_count", .int l.blockCount),
    ("backing", .str l.backing), ("has_pgm", .bool l.hasPgm),
    ("items_per_block", .int l.itemsPerBlock),
    ("placement", .arr (l.placement.map fun physical ↦ .int physical))]

/-! ## The artifact -/

namespace ReferenceTraceBuilder

variable (b : ReferenceTraceBuilder)

/-- The metadata of the run. -/
def runMetadata : Fields :=
  [("family", .str b.experiment.family), ("seed", .int b.experiment.profile.seed),
    ("config", .obj [("block_capacity", .int b.experiment.profile.itemsPerBlock),
      ("pgm_epsilon", .int b.experiment.profile.epsilon)])]

/-- The transcript of the run, before it is validated. -/
def transcriptDict : Json :=
  .obj [("schema_version", .str Leakage.schemaVersion),
    ("source_schema_version", .str referenceSchemaVersion), ("equality_channel", .str "M0"),
    ("run_metadata", .obj b.runMetadata),
    ("operations", .arr (b.operations.map ObservedOperation.toDict)),
    ("summary", (summarizeOperations b.operations).toDict)]

/-- `transcript_payload`. -/
def transcriptPayload : Except LeakageError Json := do
  validateReferenceTranscript b.transcriptDict
  pure b.transcriptDict

/-- The metadata of the levels that are not empty, without their placement. -/
def levelMetadata : List Json :=
  ((b.index.declared.filterMap b.index.occupied).map fun l ↦
    l.toDict.filter fun f ↦ f.1 ≠ "placement").map .obj

/-- `public_config` of the artifact. -/
def publicConfig : Fields :=
  b.experiment.profile.publicDict ++
    [("used_levels", .int b.index.usedLevels),
      ("scanned_levels", .arr (b.index.scannedLevels.map .int)),
      ("levels", .arr b.levelMetadata)]

/-- `classification` of the artifact. -/
def classification : Fields :=
  b.experiment.profile.classification ++
    [("slot_projection", faithful false), ("loader", faithful false),
      ("workload", faithful false),
      ("legacy_simulator_settings", .arr (["ratio=4", "[4,16,64,...]", "fixed 3-block last mile",
        "hit±1"].map .str))]

/-- `reproducibility` of the artifact. -/
def reproducibility : Fields :=
  [("scenario", .str "default-scenario-v1"), ("analysis_seed", .int b.experiment.profile.seed),
    ("prp_key", orNull .int b.experiment.profile.prpKey),
    ("layout", .str b.experiment.profile.layout.text),
    ("note", .str ("evaluator-side reproducibility record.  analysis_seed is the value " ++
      "already published in the frozen g2a-1 run metadata (run_metadata.seed); " ++
      "prp_key and the workload draw seed are NOT part of the attack-facing " ++
      "configuration and must not be handed to an adversary-facing consumer"))]

/-- `workload` of the artifact: none and an empty one are left unspecified. -/
def workloadDict : Fields :=
  match b.experiment.workload with
  | some (f :: fields) => f :: fields
  | _ => [("mode", .null), ("provenance", .str "unspecified")]

/-- `artifact`. -/
def artifact : Except LeakageError Json := do
  let transcript ← b.transcriptPayload
  pure (.obj [("schema_version", .str referenceSchemaVersion), ("profile", .str profileName),
    ("upstream", .obj [("repo", .str "https://github.com/chiiips/LETIndex"),
      ("commit", .str "9b28fce03638a3cd97402d43c10bca644d0a95a5"), ("pinned", .bool true)]),
    ("classification", .obj b.classification), ("public_config", .obj b.publicConfig),
    ("reproducibility", .obj b.reproducibility), ("workload", .obj b.workloadDict),
    ("transcript", transcript)])

end ReferenceTraceBuilder

end EnhancedLetIndex
