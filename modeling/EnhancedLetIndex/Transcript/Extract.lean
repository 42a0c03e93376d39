import EnhancedLetIndex.Basic.FirstOccurrence
import EnhancedLetIndex.Transcript.RoundTrip

/-!
# The extraction of transcripts

The whitelist of `leakage.py` from the artifact of a run to the transcript of it, and the
separate equality channel: opaque labels, one class for each key that is queried.
-/

namespace EnhancedLetIndex

open Json

/-! ## The artifact -/

/-- `final` of an artifact: present, with `correctness_ok` exactly true. -/
def requireCorrectness (final : Option Json) : Except LeakageError Unit :=
  match final with
  | some (.obj data) =>
    match data.lookup "correctness_ok" with
    | some (.bool true) => .ok ()
    | none => .error (.missingField "final" "correctness_ok")
    | some _ => .error .correctness
  | _ => .error (.notObject "final")

/-- A record of an artifact, as the operation that is observed of it. -/
def observeRecord (record : Json) : Except LeakageError ObservedOperation := do
  let data ← requireObject "operations" record
  let index ← requireInt data "index" "operations"
  let operationClass ← requireSourceKind data "operations"
  let events ← requireList "operations events" (data.lookup "events")
  let events ← events.mapM requireEvent
  let readCount ← requireInt data "read_count" "operations"
  let writeCount ← requireInt data "write_count" "operations"
  pure ⟨index, operationClass, events, readCount, writeCount, none⟩

/-- The check of the record at a position. -/
def checkRecord (position : Nat) (record : Json) : Except LeakageError Unit := do
  let data ← requireObject "operations" record
  let index ← requireInt data "index" "operations"
  require (index = position) (.index "operations" index)
  let operation ← observeRecord record
  checkEventIntegrity operation "G1-E artifact"

/-- The loop over the records of an artifact, from a position on. -/
def checkRecords : Nat → List Json → Except LeakageError Unit
  | _, [] => pure ()
  | position, record :: records => do
    checkRecord position record
    checkRecords (position + 1) records

/-- `validate_g1e_artifact`. -/
def validateG1eArtifact (payload : Json) : Except LeakageError Unit := do
  let data ← requireObject "G1-E artifact" payload
  require (isText (data.lookup "schema_version") Leakage.sourceSchemaVersion) .schemaVersion
  requireCorrectness (data.lookup "final")
  let operations ← requireList "G1-E artifact operations" (data.lookup "operations")
  require (operations ≠ []) .emptyOperations
  checkRecords 0 operations

/-- `artifact.get(key)`. -/
def getField (data : Fields) (key : String) : Json := (data.lookup key).getD .null

/-- The metadata an artifact carries, in the shape of a transcript's. -/
def sourceMetadata (data : Fields) : Json :=
  .obj [("family", getField data "family"), ("seed", getField data "seed"),
    ("config", (data.lookup "config").getD (.obj []))]

/-- `extract_transcript`. -/
def extractTranscript (artifact : Json) : Except LeakageError AdversaryTranscript := do
  validateG1eArtifact artifact
  let data ← requireObject "G1-E artifact" artifact
  let records ← requireList "G1-E artifact operations" (data.lookup "operations")
  let operations ← records.mapM observeRecord
  let metadata ← copyRunMetadata (sourceMetadata data)
  pure ⟨Leakage.schemaVersion, Leakage.sourceSchemaVersion, metadata, operations,
    summarize operations, "M0"⟩

/-! ## The equality channel -/

/-- An operation with its label, if it is a query. -/
def annotate (labels : List (Int × Json)) (o : ObservedOperation) :
    Except LeakageError ObservedOperation :=
  if o.operationClass = .query then do
    let label ← requireOpaqueClass ((labels.lookup o.index).getD .null)
    pure { o with queryEqualityClass := some label }
  else pure o

/-- `with_equality_channel`.  A label is any value, and the labels are a dictionary by index. -/
def AdversaryTranscript.withEqualityChannel (t : AdversaryTranscript) (labels : List (Int × Json))
    (channel : String) : Except LeakageError AdversaryTranscript := do
  require (channel = "M1") (.channel channel)
  let known := t.operations.map (·.index)
  let provided := labels.map Prod.fst
  let unknown := provided.filter fun i ↦ i ∉ known
  require (unknown = []) (.unknownIndices unknown)
  let queryIndices := (t.operations.filter (·.operationClass = .query)).map (·.index)
  let misplaced := provided.filter fun i ↦ i ∈ known ∧ i ∉ queryIndices
  require (misplaced = []) (.misplacedLabels misplaced)
  require ((∀ i ∈ provided, i ∈ queryIndices) ∧ ∀ i ∈ queryIndices, i ∈ provided)
    .incompleteLabels
  let annotated ← t.operations.mapM (annotate labels)
  pure { t with equalityChannel := channel, operations := annotated }

/-- Whether two values are the same text. -/
def sameText : Option Json → Option Json → Bool
  | some (.str s), some (.str t) => s = t
  | _, _ => false

/-- The key of a query of the script: exactly one integer. -/
def requireQueryKey (position : Nat) (data : Fields) : Except LeakageError Int :=
  match data.lookup "keys" with
  | some (.arr [.int key]) => .ok key
  | some (.arr [_]) => .error .queryKey
  | _ => .error (.queryKeys position)

/-- The label of the class with a number. -/
def classLabel (n : Nat) : String := "QClass" ++ Nat.repr n

/-- The loop over the records and the script, with the classes of the keys seen so far. -/
def equalityClasses : Nat → List (Json × Json) → List (Int × String) →
    Except LeakageError (List (Int × String))
  | _, [], _ => pure []
  | position, (record, scriptOperation) :: rest, classOfKey => do
    let record ← requireObject "operations" record
    let data ← requireObject "script.operations" scriptOperation
    require (sameText (data.lookup "kind") (record.lookup "kind")) (.scriptKind position)
    if isText (record.lookup "kind") OperationClass.query.text then do
      let key ← requireQueryKey position data
      let index ← requireInt record "index" "operations"
      let labelled := FirstOccurrence.setdefault classOfKey key (classLabel classOfKey.length)
      let labels ← equalityClasses (position + 1) rest labelled.2
      pure ((index, labelled.1) :: labels)
    else equalityClasses (position + 1) rest classOfKey

/-- The operations of the script of an artifact. -/
def scriptOperations (data : Fields) : Except LeakageError (List Json) :=
  match data.lookup "script" with
  | some (.obj script) =>
    match script.lookup "operations" with
    | some (.arr operations) => .ok operations
    | _ => .error .script
  | _ => .error .script

/-- `m1_equality_classes`. -/
def m1EqualityClasses (artifact : Json) : Except LeakageError (List (Int × String)) := do
  validateG1eArtifact artifact
  let data ← requireObject "G1-E artifact" artifact
  let script ← scriptOperations data
  let operations ← requireList "G1-E artifact operations" (data.lookup "operations")
  require (script.length = operations.length) .scriptLength
  equalityClasses 0 (operations.zip script) []

/-- `m1_equality_transcript`. -/
def m1EqualityTranscript (artifact : Json) : Except LeakageError AdversaryTranscript := do
  let transcript ← extractTranscript artifact
  let labels ← m1EqualityClasses artifact
  transcript.withEqualityChannel (labels.map fun l ↦ (l.1, .str l.2)) "M1"

end EnhancedLetIndex
