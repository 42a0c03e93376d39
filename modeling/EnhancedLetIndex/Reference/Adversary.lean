import EnhancedLetIndex.Reference.Artifact

/-!
# The attack-facing view of a reference artifact

`ref_adversary.py`: the names a payload may contain, the scan of a payload for other names, and
the view that is taken from two sections of an artifact.
-/

namespace EnhancedLetIndex

open Json

/-! ## The field universe -/

/-- `PUBLIC_CONFIG_KEYS`. -/
def publicConfigKeys : List String :=
  ["profile", "base", "min_level", "min_index_level", "min_disk_level", "block_size", "item_size",
    "items_per_block", "epsilon", "layout", "variant_label", "used_levels", "scanned_levels",
    "levels"]

/-- `LEVEL_METADATA_KEYS`. -/
def levelMetadataKeys : List String :=
  ["level", "item_count", "block_count", "backing", "has_pgm", "items_per_block"]

/-- `ADVERSARY_INPUT_KEYS`. -/
def adversaryInputKeys : List String := ["transcript", "public_config", "equality_channel"]

/-- `ARTIFACT_METADATA_KEYS`. -/
def artifactMetadataKeys : List String :=
  ["profile", "upstream", "repo", "commit", "pinned", "classification", "lookup_semantics",
    "slot_projection", "layout", "geometry", "loader", "workload", "legacy_simulator_settings",
    "reproducibility", "scenario", "query_count", "note", "truth", "analysis_seed", "prp_key"]

/-- `WORKLOAD_PUBLIC_KEYS`. -/
def workloadPublicKeys : List String :=
  ["mode", "seed", "count", "distinct_count", "record_count", "domain", "provenance",
    "classification"]

/-- `SUMMARY_KEYS`. -/
def summaryKeys : List String :=
  ["operation_count", "query_count", "merge_count", "total_reads", "total_writes",
    "distinct_slots"]

/-- `ALLOWED_FIELD_UNIVERSE`. -/
def allowedFieldUniverse : List String :=
  transcriptKeys ++ operationAllKeys ++ eventKeys ++ summaryKeys ++ ["family", "seed", "config"] ++
    ["block_capacity", "pgm_epsilon"] ++ publicConfigKeys ++ levelMetadataKeys ++
    adversaryInputKeys ++ artifactMetadataKeys ++ workloadPublicKeys ++
    ["schema_version", "source_schema_version"]

/-- `FORBIDDEN_FIELD_NAMES`. -/
def forbiddenFieldNames : List String :=
  ["keys", "values", "key", "value", "item_rank", "hit_item_rank", "hit_block_rank", "block_rank",
    "physical_block_offset", "placement", "permutation", "prp", "slot_of", "locate", "probe",
    "probes", "target", "oracle", "truth", "script", "result", "verification", "region_start",
    "backing_store", "level_keys"]

mutual

/-- `_collect_keys`: the names of the fields of a payload, at every depth. -/
def collectKeys : Json → List String
  | .obj fields => collectFieldKeys fields
  | .arr items => collectItemKeys items
  | _ => []

/-- The names of some fields and those in their values. -/
def collectFieldKeys : List (String × Json) → List String
  | [] => []
  | (name, value) :: fields => name :: collectKeys value ++ collectFieldKeys fields

/-- The names in some items. -/
def collectItemKeys : List Json → List String
  | [] => []
  | item :: items => collectKeys item ++ collectItemKeys items

end

/-- Whether a name may be in an attack-facing payload. -/
def isPublicName (name : String) : Bool :=
  name ∈ allowedFieldUniverse ∧ name ∉ forbiddenFieldNames

/-- `scan_forbidden_fields`. -/
def scanForbiddenFields (payload : Json) : List String :=
  ((collectKeys payload).dedup.filter fun name ↦ ¬isPublicName name).insertionSort (· ≤ ·)

/-! ## The view -/

/-- `AdversaryInputError`, by the check that raises it, and the errors of what it calls. -/
inductive AdversaryInputError where
  | notObject
  | schemaVersion
  | sections
  | missingField (key : String)
  | notText
  | notIterable
  | undeclared (names : List String)
  | forbidden (names : List String)
  | leakage (error : LeakageError)
deriving DecidableEq, Repr

/-- An `AdversaryTranscript` as it is read from a section, with its metadata and its summary as
they are there. -/
structure SectionTranscript where
  schemaVersion : String
  sourceSchemaVersion : String
  runMetadata : Fields
  operations : List ObservedOperation
  summary : Fields
  equalityChannel : String

/-- `to_dict` of a transcript: the metadata is copied. -/
def SectionTranscript.toDict (t : SectionTranscript) : Except LeakageError Json := do
  let metadata ← copyRunMetadata (.obj t.runMetadata)
  pure (.obj [("schema_version", .str t.schemaVersion),
    ("source_schema_version", .str t.sourceSchemaVersion),
    ("equality_channel", .str t.equalityChannel), ("run_metadata", metadata.toDict),
    ("operations", .arr (t.operations.map ObservedOperation.toDict)),
    ("summary", .obj t.summary)])

/-- `AdversaryInput`, before its constructor has checked it. -/
structure AdversaryInput where
  transcript : SectionTranscript
  publicConfig : Fields
  equalityChannel : String
  sourceProfile : String

namespace AdversaryInput

/-- `to_dict`. -/
def toDict (v : AdversaryInput) : Except LeakageError Json := do
  let transcript ← v.transcript.toDict
  pure (.obj [("equality_channel", .str v.equalityChannel),
    ("public_config", .obj v.publicConfig), ("transcript", transcript)])

/-- `__post_init__`. -/
def postInit (v : AdversaryInput) : Except AdversaryInputError Unit := do
  require (∀ f ∈ v.publicConfig, f.1 ∈ publicConfigKeys)
    (.undeclared ((v.publicConfig.map Prod.fst).filter fun k ↦ k ∉ publicConfigKeys))
  let dict ← v.toDict.mapError .leakage
  require (scanForbiddenFields dict = []) (.forbidden (scanForbiddenFields dict))

/-- `section[key]`. -/
def requireField (data : Fields) (key : String) : Except AdversaryInputError Json :=
  match data.lookup key with
  | some value => .ok value
  | none => .error (.missingField key)

/-- `str(section[key])` of a text. -/
def requireText (data : Fields) (key : String) : Except AdversaryInputError String := do
  match ← requireField data key with
  | .str s => pure s
  | _ => throw .notText

/-- An object among the sections. -/
def requireSection (value : Option Json) : Except AdversaryInputError Fields :=
  match value with
  | some (.obj fields) => .ok fields
  | _ => .error .sections

/-- The items an iteration over a value goes through. -/
def iterate : Json → Except AdversaryInputError (List Json)
  | .arr items => .ok items
  | .obj fields => .ok (fields.map fun f ↦ .str f.1)
  | .str s => .ok (s.toList.map fun c ↦ .str c.toString)
  | _ => .error .notIterable

/-- The summary, field by field. -/
def copySummary (summary : Fields) : Except AdversaryInputError Fields :=
  summaryKeys.mapM fun key ↦ do
    let value ← requireField summary key
    pure (key, value)

/-- The transcript in the section of an artifact. -/
def readTranscript (data : Fields) : Except AdversaryInputError SectionTranscript := do
  let schemaVersion ← requireText data "schema_version"
  let sourceSchemaVersion ← requireText data "source_schema_version"
  let runMetadata ← requireField data "run_metadata"
  let runMetadata ← requireSection (some runMetadata)
  let records ← requireField data "operations"
  let records ← iterate records
  let operations ← (records.mapM ObservedOperation.fromDict).mapError .leakage
  let summary ← requireField data "summary"
  let summary ← requireSection (some summary)
  let summary ← copySummary summary
  let equalityChannel ← requireText data "equality_channel"
  pure ⟨schemaVersion, sourceSchemaVersion, runMetadata, operations, summary, equalityChannel⟩

/-- The profile an artifact names, with its default. -/
def sourceProfileOf (data : Fields) : Except AdversaryInputError String :=
  match data.lookup "profile" with
  | none => .ok profileName
  | some (.str s) => .ok s
  | some _ => .error .notText

/-- `from_reference_artifact`, without equality labels. -/
def fromReferenceArtifact (artifact : Json) : Except AdversaryInputError AdversaryInput := do
  let data ← (requireObject "reference artifact" artifact).mapError fun _ ↦ .notObject
  require (isText (data.lookup "schema_version") referenceSchemaVersion) .schemaVersion
  let transcriptSection ← requireSection (data.lookup "transcript")
  let publicConfig ← requireSection (data.lookup "public_config")
  let transcript ← readTranscript transcriptSection
  let sourceProfile ← sourceProfileOf data
  let v : AdversaryInput :=
    ⟨transcript, publicConfig, transcript.equalityChannel, sourceProfile⟩
  v.postInit
  pure v

end AdversaryInput

end EnhancedLetIndex
