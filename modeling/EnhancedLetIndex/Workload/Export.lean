import EnhancedLetIndex.Transcript.Extract
import EnhancedLetIndex.Workload.Runner

/-!
# The artifact of a run

`export_dict` of `workload.py`: the script, a record for each operation with the events of its
own window, and the summary of the run.  It is what `leakage.py` reads.
-/

namespace EnhancedLetIndex

open Json

/-! ## Parts -/

/-- The value of a `TraceOperation`. -/
def TraceOperation.text : TraceOperation → String
  | .read => "READ"
  | .write => "WRITE"

/-- `_event_to_dict`. -/
def TraceEvent.toDict (e : TraceEvent) : Json :=
  .obj [("seq", .int e.seq), ("operation", .str e.operation.text), ("slot_id", .int e.slotId.value)]

/-- A list of texts. -/
def texts (values : List String) : Json := .arr (values.map .str)

open WorkloadOperation (optional)

def QueryOutcome.toDict (o : QueryOutcome) : Json :=
  .obj [("key", .int o.key), ("found", .bool o.found), ("value", optional o.value),
    ("hit_ref", optional o.hitRef), ("searched_refs", texts o.searchedRefs),
    ("expected_found", .bool o.expectedFound), ("expected_value", optional o.expectedValue),
    ("expected_searched_refs", texts o.expectedSearchedRefs),
    ("matches_oracle", .bool o.matchesOracle)]

def MergeSummary.toDict (s : MergeSummary) : Json :=
  .obj [("newer_ref", .str s.newerRef), ("older_ref", .str s.olderRef),
    ("output_ref", .str s.outputRef),
    ("expected_newer_record_count", .int s.expectedNewerRecordCount),
    ("actual_newer_record_count", .int s.actualNewerRecordCount),
    ("expected_older_record_count", .int s.expectedOlderRecordCount),
    ("actual_older_record_count", .int s.actualOlderRecordCount),
    ("expected_output_record_count", .int s.expectedOutputRecordCount),
    ("actual_output_record_count", .int s.actualOutputRecordCount),
    ("expected_discarded_older_record_count", .int s.expectedDiscardedOlderRecordCount),
    ("actual_discarded_older_record_count", .int s.actualDiscardedOlderRecordCount),
    ("expected_output_key_count", .int s.expectedOutputKeyCount),
    ("actual_output_key_count", .int s.actualOutputKeyCount),
    ("output_contents_match", .bool s.outputContentsMatch),
    ("matches_oracle", .bool s.matchesOracle)]

def OracleSummary.toDict : OracleSummary → Json
  | .query outcome => outcome.toDict
  | .merge summary => summary.toDict

/-- The primitive part of a result. -/
def OperationResult.toDict : OperationResult → Json
  | .level levelRef levelId recordCount blockCount =>
    .obj [("level_ref", .str levelRef), ("level_id", .int levelId.value),
      ("record_count", .int recordCount), ("block_count", .int blockCount)]
  | .merge outputRef newerRef olderRef result blockCount =>
    .obj [("level_ref", .str outputRef), ("level_id", .int result.outputLevelId.value),
      ("newer_ref", .str newerRef), ("older_ref", .str olderRef),
      ("newer_record_count", .int result.newerRecordCount),
      ("older_record_count", .int result.olderRecordCount),
      ("output_record_count", .int result.outputRecordCount),
      ("discarded_older_record_count", .int result.discardedOlderRecordCount),
      ("record_count", .int result.outputRecordCount), ("block_count", .int blockCount)]
  | .query outcome =>
    .obj [("key", .int outcome.key), ("searched_level_refs", texts outcome.searchedRefs),
      ("hit_ref", optional outcome.hitRef), ("found", .bool outcome.found)]

def Verification.toDict (v : Verification) : Json :=
  .obj [("active_levels", texts v.activeLevels),
    ("active_level_ids", .arr (v.activeLevelIds.map .int)),
    ("unexpected_active_levels", .arr (v.unexpectedActiveLevels.map .int)),
    ("missing_active_levels", .arr (v.missingActiveLevels.map .int)),
    ("active_levels_match_oracle", .bool v.activeLevelsMatchOracle),
    ("retired_levels", texts v.retiredLevels),
    ("retired_levels_inactive", .bool v.retiredLevelsInactive),
    ("mapping_bijection", .bool v.mappingBijection), ("mapping_size", .int v.mappingSize),
    ("canonical_levels_validated", .int v.canonicalLevelsValidated),
    ("queryability_matches", .bool v.queryabilityMatches),
    ("oracle_record_count", .int v.oracleRecordCount)]

namespace OperationRecord

/-- The events with an operation: `read_count` and `write_count`. -/
def eventCount (r : OperationRecord) (operation : TraceOperation) : Nat :=
  r.events.countP (·.operation = operation)

def toDict (r : OperationRecord) : Json :=
  .obj [("index", .int r.index), ("kind", .str r.kind), ("operation", r.operation.toDict),
    ("events", .arr (r.events.map (·.toDict))), ("read_count", .int (r.eventCount .read)),
    ("write_count", .int (r.eventCount .write)), ("result", r.result.toDict),
    ("verification", r.verification.toDict),
    ("oracle", (r.oracle.map (·.toDict)).getD .null)]

end OperationRecord

/-! ## The artifact -/

/-- `SCHEMA_VERSION` of `workload.py`. -/
def Workload.schemaVersion : String := "g1e-1"

/-- `OPERATION_KINDS`. -/
def operationKinds : List OperationClass := [.buildInitial, .query, .upsert, .buildPgm, .merge]

/-- `_config_dict`: the seed and the ratio have their defaults. -/
def Config.toDict (config : Config) : Json :=
  .obj [("block_capacity", .int config.blockCapacity),
    ("pgm_epsilon", (config.pgmEpsilon.map fun ε ↦ Json.int ε).getD .null),
    ("random_seed", .int 0), ("lsm_level_ratio", .float 10)]

namespace BaselineWorkloadRunner

variable (w : BaselineWorkloadRunner)

/-- An entry of `final.active_levels`. -/
def finalLevel (ref : String) : Except WorkloadError Json := do
  let levelId ← w.levelId (some ref)
  let l ← (outcome ((Engine.level levelId).run w.engine)).mapError .engine
  let contents ← w.oracle.contents ref
  pure (.obj [("ref", .str ref), ("level_id", .int levelId.value),
    ("record_count", .int contents.keys.card), ("block_count", .int l.blockIds.length),
    ("queryable", .bool (levelId ∈ w.queryable))])

/-- The records of a kind that were compared with the oracle have matched it. -/
def matched (kind : OperationClass) : Bool :=
  (w.records.filter (·.kind = kind.text)).all (·.oracle.all (·.matchesOracle))

/-- `detailed_checks`. -/
def detailedChecks : List (String × Bool) :=
  [("active_levels_match_oracle", w.records.all (·.verification.activeLevelsMatchOracle)),
    ("retired_levels_inactive", w.records.all (·.verification.retiredLevelsInactive)),
    ("mapping_bijection", w.records.all (·.verification.mappingBijection)),
    ("queryability_matches", w.records.all (·.verification.queryabilityMatches)),
    ("query_oracle_matches", w.matched .query), ("merge_oracle_matches", w.matched .merge)]

/-- `correctness_ok` of the artifact. -/
def exportedCorrectness : Bool := w.mismatches = 0 ∧ ∀ check ∈ w.detailedChecks, check.2 = true

/-- The events with an operation, over all records. -/
def totalEvents (operation : TraceOperation) : Nat := (w.records.map (·.eventCount operation)).sum

/-- `final` of the artifact. -/
def final (script : WorkloadScript) (levels : List Json) : Json :=
  .obj [("active_levels", .arr levels), ("retired_levels", texts w.oracle.retired),
    ("oracle_record_count", .int w.oracle.recordCount), ("operation_count", .int w.records.length),
    ("operation_counts",
      .obj (operationKinds.map fun kind ↦ (kind.text, .int (script.operationCount kind)))),
    ("total_read_events", .int (w.totalEvents .read)),
    ("total_write_events", .int (w.totalEvents .write)), ("oracle_mismatches", .int w.mismatches),
    ("query_mismatches", .int w.queryMismatches), ("merge_mismatches", .int w.mergeMismatches),
    ("verification_failures", .int w.verificationFailures),
    ("correctness_ok", .bool w.exportedCorrectness),
    ("detailed_checks", .obj (w.detailedChecks.map fun check ↦ (check.1, .bool check.2)))]

/-- The artifact of a run, `levels` being the entries of its final levels. -/
def artifact (script : WorkloadScript) (levels : List Json) : Json :=
  .obj [("schema_version", .str Workload.schemaVersion), ("family", .str script.family),
    ("seed", .int script.seed), ("config", w.engine.config.toDict), ("script", script.toDict),
    ("operations", .arr (w.records.map (·.toDict))), ("final", w.final script levels)]

end BaselineWorkloadRunner

/-- `export_dict`. -/
def exportDict (script : WorkloadScript) (w : BaselineWorkloadRunner) :
    Except WorkloadError Json := do
  let levels ← w.oracle.refs.mapM w.finalLevel
  pure (w.artifact script levels)

end EnhancedLetIndex
