import EnhancedLetIndex.Transcript.Schema

/-!
# Strict validation of transcripts

The decoders and the validator of `leakage.py`.  Each decoder accepts exactly the values that
are the encoding of a well-formed part, up to the order of fields.
-/

namespace EnhancedLetIndex

open Json

/-- `LeakageError`, by the check that raises it. -/
inductive LeakageError where
  | notObject (place : String)
  | notList (place : String)
  | extraFields (place : String) (fields : List String)
  | missingField (place field : String)
  | notInteger (place field : String)
  | eventOperation
  | badClass (place field : String)
  | eventFields
  | nullLabel
  | labelNotText
  | labelNotOpaque (label : String)
  | counts (place : String) (index : Int)
  | sequence (place : String) (index : Int)
  | family
  | schemaVersion
  | sourceSchemaVersion
  | equalityChannel
  | index (place : String) (index : Int)
  | misplacedLabels (indices : List Int)
  | labelsInM0 (indices : List Int)
  | incompleteLabels
  | summaryFields
  | summary (field : String)
  | channel (channel : String)
  | unknownIndices (indices : List Int)
  | correctness
  | script
  | scriptLength
  | scriptKind (position : Nat)
  | queryKeys (position : Nat)
  | queryKey
  | emptyOperations
deriving DecidableEq, Repr

/-- The fields of an object. -/
abbrev Fields := List (String × Json)

/-! ## The helpers -/

/-- `isinstance(value, dict)`. -/
def requireObject (place : String) : Json → Except LeakageError Fields
  | .obj fields => .ok fields
  | _ => .error (.notObject place)

/-- `isinstance(value, list)`. -/
def requireList (place : String) : Option Json → Except LeakageError (List Json)
  | some (.arr items) => .ok items
  | _ => .error (.notList place)

/-- `_require_int`. -/
def requireInt (data : Fields) (key place : String) : Except LeakageError Int :=
  match data.lookup key with
  | none => .error (.missingField place key)
  | some (.int n) => .ok n
  | some _ => .error (.notInteger place key)

/-- `_require_event_operation`. -/
def requireEventOperation (data : Fields) : Except LeakageError EventOperation :=
  match data.lookup "operation" with
  | some (.str s) =>
    match EventOperation.ofText s with
    | some operation => .ok operation
    | none => .error .eventOperation
  | _ => .error .eventOperation

/-- The operation class under the field of either schema. -/
def requireClass (field : String) (data : Fields) (place : String) :
    Except LeakageError OperationClass :=
  match data.lookup field with
  | none => .error (.missingField place field)
  | some (.str s) =>
    match OperationClass.ofText s with
    | some operationClass => .ok operationClass
    | none => .error (.badClass place field)
  | some _ => .error (.badClass place field)

/-- `_require_source_kind`. -/
def requireSourceKind : Fields → String → Except LeakageError OperationClass :=
  requireClass "kind"

/-- `_require_transcript_class`. -/
def requireTranscriptClass : Fields → String → Except LeakageError OperationClass :=
  requireClass "class"

/-- `_reject_extra_fields`. -/
def rejectExtraFields (data : Fields) (allowed : List String) (place : String) :
    Except LeakageError Unit :=
  require (∀ f ∈ data, f.1 ∈ allowed)
    (.extraFields place ((data.map Prod.fst).filter fun k ↦ k ∉ allowed))

/-- `EQUALITY_CLASS_PATTERN.match`: `^QClass[0-9]+$`, where `$` also matches right before a
line feed that ends the text. -/
def matchesClassPattern (label : String) : Bool :=
  match "QClass".toList.isPrefixOf label.toList, label.toList.drop 6 with
  | true, rest =>
    rest.takeWhile Char.isDigit ≠ [] ∧
      (rest.dropWhile Char.isDigit = [] ∨ rest.dropWhile Char.isDigit = ['\n'])
  | false, _ => false

/-- `_require_opaque_class`. -/
def requireOpaqueClass : Json → Except LeakageError String
  | .str label => do
    require (matchesClassPattern label) (.labelNotOpaque label)
    pure label
  | _ => .error .labelNotText

/-- `ObservedEvent.from_dict`. -/
def ObservedEvent.fromDict (data : Fields) : Except LeakageError ObservedEvent := do
  let seq ← requireInt data "seq" "event"
  let operation ← requireEventOperation data
  let slotId ← requireInt data "slot_id" "event"
  pure ⟨seq, operation, slotId⟩

/-- `EVENT_KEYS`. -/
def eventKeys : List String := ["seq", "operation", "slot_id"]

/-- `_require_event`. -/
def requireEvent (event : Json) : Except LeakageError ObservedEvent := do
  let data ← requireObject "event" event
  require ((∀ f ∈ data, f.1 ∈ eventKeys) ∧ ∀ k ∈ eventKeys, k ∈ data.map Prod.fst) .eventFields
  ObservedEvent.fromDict data

/-- `_check_event_integrity`. -/
def checkEventIntegrity (operation : ObservedOperation) (place : String) :
    Except LeakageError Unit := do
  let reads := operation.eventCount .read
  let writes := operation.events.length - reads
  require ((reads : Int) = operation.readCount ∧ (writes : Int) = operation.writeCount)
    (.counts place operation.index)
  require operation.Sequenced (.sequence place operation.index)

/-- `_copy_run_metadata`. -/
def copyRunMetadata (metadata : Json) : Except LeakageError RunMetadata := do
  let data ← requireObject "run_metadata" metadata
  match data.lookup "family" with
  | some (.str family) =>
    if hfamily : family = "" then throw .family
    else do
      let seed ← requireInt data "seed" "run_metadata"
      match data.lookup "config" with
      | some (.obj config) => do
        let blockCapacity ← requireInt config "block_capacity" "run_metadata.config"
        let pgmEpsilon ← requireInt config "pgm_epsilon" "run_metadata.config"
        pure ⟨family, seed, blockCapacity, pgmEpsilon, hfamily⟩
      | _ => throw (.notObject "run_metadata.config")
  | _ => throw .family

/-! ## Operations -/

/-- `OPERATION_ALL_KEYS`. -/
def operationAllKeys : List String :=
  ["index", "class", "events", "read_count", "write_count", "query_equality_class"]

/-- The label of an operation: an absent field and a null are different. -/
def requireLabel (data : Fields) : Except LeakageError (Option String) :=
  match data.lookup "query_equality_class" with
  | none => pure none
  | some .null => throw .nullLabel
  | some label => do
    let label ← requireOpaqueClass label
    pure (some label)

/-- `ObservedOperation.from_dict`. -/
def ObservedOperation.fromDict (record : Json) : Except LeakageError ObservedOperation := do
  let data ← requireObject "transcript operation" record
  rejectExtraFields data operationAllKeys "transcript operation"
  let events ← requireList "transcript events" (data.lookup "events")
  let label ← requireLabel data
  let index ← requireInt data "index" "operation"
  let operationClass ← requireTranscriptClass data "transcript operation"
  let events ← events.mapM requireEvent
  let readCount ← requireInt data "read_count" "operation"
  let writeCount ← requireInt data "write_count" "operation"
  let operation : ObservedOperation :=
    ⟨index, operationClass, events, readCount, writeCount, label⟩
  checkEventIntegrity operation "transcript"
  pure operation

/-! ## Transcripts -/

/-- The loop over the operations of `validate_transcript`, from a position on.  An operation
comes with whether its record has the label field. -/
def parseOperations : Nat → List Json → Except LeakageError (List (ObservedOperation × Bool))
  | _, [] => pure []
  | position, record :: records => do
    let data ← requireObject "transcript operations" record
    let operation ← ObservedOperation.fromDict record
    require (operation.index = position) (.index "transcript operations" operation.index)
    let rest ← parseOperations (position + 1) records
    pure ((operation, (data.lookup "query_equality_class").isSome) :: rest)

/-- The rules on the presence of labels. -/
def checkLabels (channel : String) (parsed : List (ObservedOperation × Bool)) :
    Except LeakageError Unit := do
  let presentLabelIndices := (parsed.filter (·.2)).map (·.1.index)
  let queryIndices := (parsed.filter (·.1.operationClass = .query)).map (·.1.index)
  let misplaced := presentLabelIndices.filter fun i ↦ i ∉ queryIndices
  require (misplaced = []) (.misplacedLabels misplaced)
  if channel = "M0" then require (presentLabelIndices = []) (.labelsInM0 presentLabelIndices)
  else require ((∀ i ∈ presentLabelIndices, i ∈ queryIndices) ∧
    ∀ i ∈ queryIndices, i ∈ presentLabelIndices) .incompleteLabels

/-- The summary fields, in the order of `SUMMARY_KEYS`. -/
def Summary.fields (s : Summary) : List (String × Int) :=
  [("operation_count", s.operationCount), ("query_count", s.queryCount),
    ("merge_count", s.mergeCount), ("total_reads", s.totalReads),
    ("total_writes", s.totalWrites), ("distinct_slots", s.distinctSlots)]

/-- A count of the summary is an integer. -/
def requireCount (data : Fields) (field : String × Int) : Except LeakageError Unit := do
  let _ ← requireInt data field.1 "transcript summary"
  pure ()

/-- A count of the summary is the recomputed one. -/
def checkCount (data : Fields) (field : String × Int) : Except LeakageError Unit := do
  let n ← requireInt data field.1 "transcript summary"
  require (n = field.2) (.summary field.1)

/-- The check of a summary against the one recomputed from the operations. -/
def checkSummary (summary : Option Json) (expected : Summary) : Except LeakageError Unit :=
  match summary with
  | some (.obj data) => do
    require ((∀ f ∈ data, f.1 ∈ expected.fields.map Prod.fst) ∧
      ∀ k ∈ expected.fields.map Prod.fst, k ∈ data.map Prod.fst) .summaryFields
    expected.fields.forM (requireCount data)
    expected.fields.forM (checkCount data)
  | _ => .error (.notObject "transcript summary")

/-- `TRANSCRIPT_KEYS`. -/
def transcriptKeys : List String :=
  ["schema_version", "source_schema_version", "equality_channel", "run_metadata", "operations",
    "summary"]

/-- Whether a value is a given text. -/
def isText (value : Option Json) (text : String) : Bool :=
  match value with
  | some (.str s) => s = text
  | _ => false

/-- The equality channel: one of `EQUALITY_CHANNELS`. -/
def requireChannel (data : Fields) : Except LeakageError String :=
  match data.lookup "equality_channel" with
  | none => .error (.missingField "transcript" "equality_channel")
  | some (.str channel) => do
    require (channel ∈ ["M0", "M1"]) .equalityChannel
    pure channel
  | some _ => .error .equalityChannel

/-- The strict check of the fields of `config`. -/
def checkConfig (config : Option Json) : Except LeakageError Unit :=
  match config with
  | some (.obj config) =>
    rejectExtraFields config ["block_capacity", "pgm_epsilon"] "transcript run_metadata.config"
  | _ => .error (.notObject "transcript run_metadata.config")

/-- The strict check of the metadata: its fields, those of its `config`, and its values. -/
def checkMetadata (metadata : Option Json) : Except LeakageError RunMetadata :=
  match metadata with
  | some (.obj data) => do
    rejectExtraFields data ["family", "seed", "config"] "transcript run_metadata"
    checkConfig (data.lookup "config")
    copyRunMetadata (.obj data)
  | _ => .error (.notObject "transcript run_metadata")

/-- `validate_transcript`. -/
def validateTranscript (payload : Json) : Except LeakageError Unit := do
  let data ← requireObject "transcript" payload
  rejectExtraFields data transcriptKeys "transcript"
  require (isText (data.lookup "schema_version") Leakage.schemaVersion) .schemaVersion
  require (isText (data.lookup "source_schema_version") Leakage.sourceSchemaVersion)
    .sourceSchemaVersion
  let channel ← requireChannel data
  let _ ← checkMetadata (data.lookup "run_metadata")
  let operations ← requireList "transcript operations" (data.lookup "operations")
  let parsed ← parseOperations 0 operations
  checkLabels channel parsed
  checkSummary (data.lookup "summary") (summarize (parsed.map Prod.fst))

/-- The summary `from_dict` copies. -/
def Summary.fromDict (summary : Option Json) : Except LeakageError Summary :=
  match summary with
  | some (.obj data) => do
    let operationCount ← requireInt data "operation_count" "transcript summary"
    let queryCount ← requireInt data "query_count" "transcript summary"
    let mergeCount ← requireInt data "merge_count" "transcript summary"
    let totalReads ← requireInt data "total_reads" "transcript summary"
    let totalWrites ← requireInt data "total_writes" "transcript summary"
    let distinctSlots ← requireInt data "distinct_slots" "transcript summary"
    pure ⟨operationCount, queryCount, mergeCount, totalReads, totalWrites, distinctSlots⟩
  | _ => .error (.notObject "transcript summary")

/-- `AdversaryTranscript.from_dict`. -/
def AdversaryTranscript.fromDict (payload : Json) : Except LeakageError AdversaryTranscript := do
  validateTranscript payload
  let data ← requireObject "transcript" payload
  let operations ← requireList "transcript operations" (data.lookup "operations")
  let operations ← operations.mapM ObservedOperation.fromDict
  let channel ← requireChannel data
  let runMetadata ← checkMetadata (data.lookup "run_metadata")
  let summary ← Summary.fromDict (data.lookup "summary")
  pure ⟨Leakage.schemaVersion, Leakage.sourceSchemaVersion, runMetadata, operations, summary,
    channel⟩

end EnhancedLetIndex
