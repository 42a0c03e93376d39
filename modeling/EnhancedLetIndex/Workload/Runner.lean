import EnhancedLetIndex.Workload.Script

/-!
# Running a script

`BaselineWorkloadRunner` and `run_script` of `workload.py`.  Every operation has a trace window
of its own: the trace is cleared before it and again once its events have been taken.  What the
runner reads afterwards, to compare the engine with the oracle, falls into windows that are
thrown away.
-/

namespace EnhancedLetIndex

/-- `is_active_level`. -/
def Engine.isActiveLevel {V : Type} (e : Engine V) (l : LevelId) : Bool := l ∈ e.levels

/-- `sorted` of a set. -/
def sortedList {α : Type} [LinearOrder α] (s : Finset α) : List α := s.sort

/-! ## Records -/

/-- `QueryOutcome`. -/
structure QueryOutcome where
  key : Int
  found : Bool
  value : Option String
  hitRef : Option String
  searchedRefs : List String
  expectedValue : Option String
  expectedSearchedRefs : List String
deriving DecidableEq, Repr

namespace QueryOutcome

def expectedFound (o : QueryOutcome) : Bool := o.expectedValue.isSome

/-- The query returned what the oracle expects. -/
def matchesOracle (o : QueryOutcome) : Bool :=
  o.found = o.expectedFound ∧ o.value = o.expectedValue ∧ o.searchedRefs = o.expectedSearchedRefs

end QueryOutcome

/-- What a merge is to be compared with, taken from the oracle before the engine runs
(`_pending_merge`). -/
structure PendingMerge where
  result : Engine.MergeResult
  newerRef : String
  olderRef : String
  outputRef : String
  newerCount : Nat
  olderCount : Nat
  expectedUnion : FinDict Int String
  expectedDiscarded : Nat

/-- The summary of a merge that `_finish_merge` returns. -/
structure MergeSummary where
  newerRef : String
  olderRef : String
  outputRef : String
  expectedNewerRecordCount : Nat
  actualNewerRecordCount : Nat
  expectedOlderRecordCount : Nat
  actualOlderRecordCount : Nat
  expectedOutputRecordCount : Nat
  actualOutputRecordCount : Nat
  expectedDiscardedOlderRecordCount : Nat
  actualDiscardedOlderRecordCount : Nat
  expectedOutputKeyCount : Nat
  actualOutputKeyCount : Nat
  outputContentsMatch : Bool
deriving DecidableEq, Repr

namespace MergeSummary

/-- The counts of the engine are those of the oracle. -/
def countsMatch (s : MergeSummary) : Bool :=
  s.actualOutputRecordCount = s.expectedOutputRecordCount ∧
    s.actualDiscardedOlderRecordCount = s.expectedDiscardedOlderRecordCount ∧
    s.actualNewerRecordCount = s.expectedNewerRecordCount ∧
    s.actualOlderRecordCount = s.expectedOlderRecordCount

def matchesOracle (s : MergeSummary) : Bool := s.countsMatch && s.outputContentsMatch

end MergeSummary

/-- The comparison of a merge with the oracle, `contents` being those of the output. -/
def PendingMerge.summary (pending : PendingMerge)
    (contents : FinDict Int String) : MergeSummary where
  newerRef := pending.newerRef
  olderRef := pending.olderRef
  outputRef := pending.outputRef
  expectedNewerRecordCount := pending.newerCount
  actualNewerRecordCount := pending.result.newerRecordCount
  expectedOlderRecordCount := pending.olderCount
  actualOlderRecordCount := pending.result.olderRecordCount
  expectedOutputRecordCount := pending.expectedUnion.keys.card
  actualOutputRecordCount := pending.result.outputRecordCount
  expectedDiscardedOlderRecordCount := pending.expectedDiscarded
  actualDiscardedOlderRecordCount := pending.result.discardedOlderRecordCount
  expectedOutputKeyCount := pending.expectedUnion.keys.card
  actualOutputKeyCount := contents.keys.card
  outputContentsMatch := contents = pending.expectedUnion

/-- The summary of the comparison of an operation with the oracle. -/
inductive OracleSummary where
  | query (outcome : QueryOutcome)
  | merge (summary : MergeSummary)
deriving DecidableEq, Repr

def OracleSummary.matchesOracle : OracleSummary → Bool
  | .query outcome => outcome.matchesOracle
  | .merge summary => summary.matchesOracle

/-- What an operation returns, by the fields of its result. -/
inductive OperationResult where
  | level (levelRef : String) (levelId : LevelId) (recordCount blockCount : Nat)
  | merge (outputRef newerRef olderRef : String) (result : Engine.MergeResult) (blockCount : Nat)
  | query (outcome : QueryOutcome)
deriving DecidableEq, Repr

/-- The oracle's part of a result (`payload.pop("_oracle", None)`). -/
def OperationResult.oracle : OperationResult → Option OracleSummary
  | .query outcome => some (.query outcome)
  | _ => none

/-- What `_verify_state` returns. -/
structure Verification where
  activeLevels : List String
  activeLevelIds : List Int
  unexpectedActiveLevels : List Int
  missingActiveLevels : List Int
  retiredLevels : List String
  retiredLevelsInactive : Bool
  mappingBijection : Bool
  mappingSize : Nat
  canonicalLevelsValidated : Nat
  queryabilityMatches : Bool
  oracleRecordCount : Nat
deriving DecidableEq, Repr

namespace Verification

def activeLevelsMatchOracle (v : Verification) : Bool :=
  v.missingActiveLevels = [] ∧ v.unexpectedActiveLevels = []

/-- `_verification_ok`. -/
def ok (v : Verification) : Bool :=
  v.activeLevelsMatchOracle && v.retiredLevelsInactive && v.mappingBijection &&
    v.queryabilityMatches

end Verification

/-- `OperationRecord`. -/
structure OperationRecord where
  index : Nat
  kind : String
  operation : WorkloadOperation
  events : List TraceEvent
  result : OperationResult
  verification : Verification
  oracle : Option OracleSummary
deriving DecidableEq, Repr

/-! ## The runner -/

/-- `BaselineWorkloadRunner`. -/
structure BaselineWorkloadRunner where
  engine : Engine String
  seed : Int
  family : String
  oracle : LogicalOracle
  refs : FinDict String LevelId
  refOf : FinDict LevelId String
  queryable : Finset LevelId
  records : List OperationRecord
  nextRef : Nat
  pendingMerge : Option PendingMerge
  queryMismatches : Nat
  mergeMismatches : Nat
  verificationFailures : Nat

/-- A program of the runner. -/
abbrev RunnerM := EStateM WorkloadError BaselineWorkloadRunner

/-- An operation of a script with the arguments that its references stand for (`kwargs`). -/
inductive Call where
  | buildInitial (records : List (Record String))
  | upsert (records : List (Record String))
  | buildPgm (levelId : LevelId)
  | merge (newerLevelId olderLevelId : LevelId)
  | query
  /-- A kind that is none of `OPERATION_KINDS`. -/
  | unknown

namespace BaselineWorkloadRunner

/-- `__init__`. -/
def init (engine : Engine String) (seed : Int) (family : String) : BaselineWorkloadRunner where
  engine := engine
  seed := seed
  family := family
  oracle := LogicalOracle.empty
  refs := ∅
  refOf := ∅
  queryable := ∅
  records := []
  nextRef := 0
  pendingMerge := none
  queryMismatches := 0
  mergeMismatches := 0
  verificationFailures := 0

section Fields

variable (w : BaselineWorkloadRunner)

/-- `mismatches`. -/
def mismatches : Nat := w.queryMismatches + w.mergeMismatches + w.verificationFailures

/-- `correctness_ok`. -/
def correctnessOk : Bool := w.mismatches = 0

/-- `level_id`. -/
def levelId (ref : Option String) : Except WorkloadError LevelId :=
  match ref.bind w.refs.lookup with
  | some l => .ok l
  | none => .error (.noLevelRef ref)

/-- `_refs[ref]`. -/
def refLevel (ref : String) : Except WorkloadError LevelId :=
  match w.refs.lookup ref with
  | some l => .ok l
  | none => .error .key

/-- `_ref_of[level_id]`. -/
def levelRef (l : LevelId) : Except WorkloadError String :=
  match w.refOf.lookup l with
  | some ref => .ok ref
  | none => .error .key

/-- A new level under a reference. -/
def bind (ref : String) (l : LevelId) : BaselineWorkloadRunner :=
  { w with refs := w.refs.insert ref l, refOf := w.refOf.insert l ref, nextRef := w.nextRef + 1 }

/-- The values of some level ids, in order. -/
def sortedValues (levels : Finset LevelId) : List Int := sortedList (levels.image (·.value))

/-- A PGM is built for the level (`pgm_index` does not raise). -/
def hasPgm (l : LevelId) : Bool := (outcome ((Engine.pgmIndex l).run w.engine)).isOk

/-- The result of `_verify_state`, `active` and `retired` being the levels of the oracle's
references. -/
def verification (active retired : List LevelId) (retiredFailLoudly : Bool) : Verification :=
  let actual := w.engine.levels.keys
  let live := ((w.oracle.refs.zip active).filter (w.engine.isActiveLevel ·.2)).map Prod.fst
  { activeLevels := live
    activeLevelIds := sortedValues actual
    unexpectedActiveLevels := sortedValues (actual \ active.toFinset)
    missingActiveLevels := sortedValues (active.toFinset \ actual)
    retiredLevels := w.oracle.retired
    retiredLevelsInactive := retired.all (! w.engine.isActiveLevel ·) && retiredFailLoudly
    mappingBijection := true
    mappingSize := w.engine.mapping.logicalToPhysical.keys.card
    canonicalLevelsValidated := live.length
    queryabilityMatches := ∀ l ∈ actual, decide (l ∈ w.queryable) = w.hasPgm l
    oracleRecordCount := w.oracle.recordCount }

/-- The runner with one more record, its failures counted. -/
def addRecord (record : OperationRecord) : BaselineWorkloadRunner :=
  let mismatch := record.oracle.any (! ·.matchesOracle)
  let merged := record.kind = OperationClass.merge.text
  { w with
    records := w.records ++ [record]
    verificationFailures := w.verificationFailures + if record.verification.ok then 0 else 1
    mergeMismatches := w.mergeMismatches + if mismatch ∧ merged then 1 else 0
    queryMismatches := w.queryMismatches + if mismatch ∧ ¬ merged then 1 else 0 }

end Fields

/-! ## Programs -/

def onEngine {α : Type} (x : EngineM String α) : RunnerM α :=
  zoom (·.engine) (fun e w ↦ { w with engine := e }) .engine x

def onValidation {α : Type} (x : Engine.ValidateM String α) : RunnerM α :=
  zoom (·.engine) (fun e w ↦ { w with engine := e }) .validation x

/-- A step of the oracle. -/
def onOracle (f : LogicalOracle → Except WorkloadError LogicalOracle) : RunnerM Unit := do
  let w ← get
  let oracle ← liftExcept id (f w.oracle)
  set { w with oracle := oracle }

/-- `engine.trace.clear`. -/
def clearTrace : RunnerM Unit := modify fun w ↦ { w with engine := w.engine.clearTrace }

/-- `_bind_new_level`. -/
def bindNewLevel (op : WorkloadOperation) (l : LevelId) : RunnerM String := do
  let w ← get
  let ref := op.boundRef w.nextRef
  set (w.bind ref l)
  pure ref

/-- `_do_build_initial` and `_do_upsert`, which differ in how the engine publishes the batch. -/
def publish (publication : EngineM String LevelId) (op : WorkloadOperation)
    (records : List (Record String)) : RunnerM OperationResult := do
  let levelId ← onEngine publication
  let ref ← bindNewLevel op levelId
  onOracle (·.addNewest ref (contentsOf records))
  let l ← onEngine (Engine.level levelId)
  pure (.level ref levelId (contentsOf records).keys.card l.blockIds.length)

/-- `_do_build_initial`. -/
def doBuildInitial (op : WorkloadOperation) (records : List (Record String)) :
    RunnerM OperationResult := publish (Engine.buildLevel records none) op records

/-- `_do_upsert`. -/
def doUpsert (op : WorkloadOperation) (records : List (Record String)) :
    RunnerM OperationResult := publish (Engine.createUpdateLevel records) op records

/-- `_do_build_pgm`. -/
def doBuildPgm (levelId : LevelId) : RunnerM OperationResult := do
  let index ← onEngine (Engine.buildLevelPgm levelId)
  modify fun w ↦ { w with queryable := insert levelId w.queryable }
  let w ← get
  let ref ← liftExcept id (w.levelRef levelId)
  let l ← onEngine (Engine.level levelId)
  pure (.level ref levelId index.recordCount l.blockIds.length)

/-- The checks of `_do_merge` before it touches the engine: the references of the inputs. -/
def checkMerge (w : BaselineWorkloadRunner) (newer older : LevelId) :
    Except WorkloadError (String × String) :=
  match w.refOf.lookup newer, w.refOf.lookup older with
  | some newerRef, some olderRef => do
    let live := w.oracle.refs
    require (newerRef ∈ live ∧ olderRef ∈ live) (.mergeNotLive newerRef olderRef)
    require (newer ≠ older) .mergeSame
    require (live.idxOf olderRef = live.idxOf newerRef + 1)
      (.mergeNotAdjacent newerRef olderRef (live.idxOf newerRef) (live.idxOf olderRef))
    pure (newerRef, olderRef)
  | _, _ => .error .mergeUntracked

/-- `_do_merge`. -/
def doMerge (op : WorkloadOperation) (newer older : LevelId) : RunnerM OperationResult := do
  let w ← get
  let inputs ← liftExcept id (w.checkMerge newer older)
  let newerMap ← liftExcept id (w.oracle.contents inputs.1)
  let olderMap ← liftExcept id (w.oracle.contents inputs.2)
  let result ← onEngine (Engine.mergeLevelsBlocking newer older)
  let outputRef ← bindNewLevel op result.outputLevelId
  let pending : PendingMerge := {
    result := result
    newerRef := inputs.1
    olderRef := inputs.2
    outputRef := outputRef
    newerCount := newerMap.keys.card
    olderCount := olderMap.keys.card
    expectedUnion := newerMap ∪ olderMap
    expectedDiscarded := (newerMap.keys ∩ olderMap.keys).card }
  modify fun w ↦ { w with
    queryable := insert result.outputLevelId w.queryable
    pendingMerge := some pending }
  let l ← onEngine (Engine.level result.outputLevelId)
  pure (.merge outputRef inputs.1 inputs.2 result l.blockIds.length)

/-- `_read_level_contents`. -/
def readLevelContents (levelId : LevelId) : RunnerM (FinDict Int String) := do
  clearTrace
  let l ← onEngine (Engine.level levelId)
  let blocks ← onEngine (l.blockIds.mapM Engine.readBlock)
  clearTrace
  pure (contentsOf (Engine.blockRecords blocks))

/-- `_finish_merge`. -/
def finishMerge (pending : PendingMerge) : RunnerM MergeSummary := do
  modify fun w ↦ { w with pendingMerge := none }
  let contents ← readLevelContents pending.result.outputLevelId
  onOracle (·.merge pending.newerRef pending.olderRef pending.outputRef)
  pure (pending.summary contents)

/-- A level with blocks must have been declared queryable. -/
def checkQueryable (levelId : LevelId) : RunnerM Unit := do
  let l ← onEngine (Engine.level levelId)
  let w ← get
  if l.blockIds ≠ [] ∧ levelId ∉ w.queryable then
    let ref ← liftExcept id (w.levelRef levelId)
    throw (.noPgm ref)
  else pure ()

/-- `_do_query`. -/
def doQuery (op : WorkloadOperation) : RunnerM OperationResult :=
  match op.keys with
  | [] => throw .index
  | key :: _ => do
    let w ← get
    let plan ← liftExcept id (w.oracle.refs.mapM w.refLevel)
    plan.forM checkQueryable
    let result ← onEngine (Engine.lookupLevels plan ⟨key⟩)
    let hitRef ← liftExcept id (result.hitLevelId.mapM w.levelRef)
    let searchedRefs ← liftExcept id (result.searchedLevelIds.mapM w.levelRef)
    pure (.query {
      key := key
      found := result.found
      value := result.record.map (·.value)
      hitRef := hitRef
      searchedRefs := searchedRefs
      expectedValue := w.oracle.query key
      expectedSearchedRefs := w.oracle.searchedRefs key })

/-- `_dispatch`. -/
def dispatch (op : WorkloadOperation) : Call → RunnerM OperationResult
  | .buildInitial records => doBuildInitial op records
  | .upsert records => doUpsert op records
  | .buildPgm levelId => doBuildPgm levelId
  | .merge newer older => doMerge op newer older
  | .query => doQuery op
  | .unknown => throw (.unknownKind op.kind)

/-! ### Verification -/

/-- Asking for a retired level raises `RetiredLevelError`. -/
def failsLoudly (l : LevelId) : RunnerM Bool :=
  tryCatch (do
    let _ ← onEngine (Engine.level l)
    pure false) fun error ↦
      match error with
      | .engine (.retiredLevel _) => pure true
      | error => throw error

/-- `_verify_state`. -/
def verifyState : RunnerM Verification := do
  let w ← get
  let active ← liftExcept id (w.oracle.refs.mapM w.refLevel)
  let retired ← liftExcept id (w.oracle.retired.mapM w.refLevel)
  let loud ← retired.mapM failsLoudly
  liftExcept .mapping w.engine.mapping.validateBijection
  clearTrace
  (active.filter w.engine.isActiveLevel).forM fun l ↦ onValidation (Engine.validateLevel l)
  clearTrace
  let w ← get
  pure (w.verification active retired (loud.all id))

/-! ### One operation, and a script -/

/-- The comparison of a finished operation with the oracle. -/
def compare (payload : OperationResult) : RunnerM (Option OracleSummary) := do
  let w ← get
  match w.pendingMerge with
  | some pending => do
    let summary ← finishMerge pending
    pure (some (.merge summary))
  | none => pure payload.oracle

/-- `_run`. -/
def run (op : WorkloadOperation) (call : Call) : RunnerM Unit := do
  modify fun w ↦ { w with pendingMerge := none }
  clearTrace
  let payload ← tryCatch (dispatch op call) fun error ↦ do
    clearTrace
    throw error
  let w ← get
  clearTrace
  let oracle ← compare payload
  let verification ← verifyState
  modify fun w' ↦ w'.addRecord {
    index := w'.records.length
    kind := op.kind
    operation := op
    events := w.engine.storage.trace
    result := payload
    verification := verification
    oracle := oracle }

/-- The references of an operation, looked up as `run_script` does before it calls `_run`. -/
def resolve (op : WorkloadOperation) : RunnerM Call := do
  let w ← get
  match op.operationClass with
  | some .buildInitial => pure (.buildInitial op.records)
  | some .upsert => pure (.upsert op.records)
  | some .buildPgm => do
    let l ← liftExcept id (w.levelId op.levelRef)
    pure (.buildPgm l)
  | some .merge => do
    let newer ← liftExcept id (w.levelId op.newerRef)
    let older ← liftExcept id (w.levelId op.olderRef)
    pure (.merge newer older)
  | some .query => pure .query
  | none => pure .unknown

/-- One round of `run_script`. -/
def runOperation (op : WorkloadOperation) : RunnerM Unit := do
  let call ← resolve op
  run op call

/-- The method `run_script`. -/
def runOperations (operations : List WorkloadOperation) : RunnerM Unit :=
  operations.forM runOperation

end BaselineWorkloadRunner

/-- The runner of a script before its first operation. -/
def WorkloadScript.runner (script : WorkloadScript) :
    Except WorkloadError BaselineWorkloadRunner :=
  match Config.make script.capacity script.epsilon with
  | .ok config => .ok (.init (Engine.init config) script.seed script.family)
  | .error error => .error (.config error)

/-- `run_script`. -/
def runScript (script : WorkloadScript) : Except WorkloadError BaselineWorkloadRunner := do
  let w ← script.runner
  match (BaselineWorkloadRunner.runOperations script.operations).run w with
  | .ok _ w' => pure w'
  | .error error _ => throw error

end EnhancedLetIndex
