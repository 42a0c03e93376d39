import EnhancedLetIndex.Basic.EState
import EnhancedLetIndex.Incremental.Pgm

/-!
# The resumable merge

The translation of `IncrementalMergeJob` and of its inputs and outputs.  A job is a program
over its own fields and the world of its sink, so that an exception of the sink leaves the
fields as they are when it is raised.  The sink is a parameter of the operations; a job without
one has the sink `none`.
-/

namespace EnhancedLetIndex

variable {V ω : Type}

/-! ## Inputs and outputs -/

/-- `IncrementalMergeConfig`, with the checks of its constructor in the types. -/
structure IncrementalMergeConfig where
  itemsPerBlock : Nat
  epsilon : Nat
  itemsPerBlock_pos : 0 < itemsPerBlock
deriving Repr

/-- `LogicalRunView`: a strictly key-sorted run, with the checks of its constructor as fields. -/
structure LogicalRunView (V : Type) where
  level : Nat
  keys : List RecordKey
  values : List V
  length_eq : keys.length = values.length
  sorted : keys.Pairwise (· < ·)
deriving DecidableEq

namespace LogicalRunView

/-- The constructor. -/
def make (level : Nat) (keys : List RecordKey) (values : List V) :
    Except IncrementalMergeError (LogicalRunView V) :=
  if hlen : keys.length = values.length then
    match h : firstNotIncreasing keys with
    | some (previous, current) => .error (.runNotSorted level current previous)
    | none => .ok ⟨level, keys, values, hlen, firstNotIncreasing_eq_none.mp h⟩
  else .error (.runLengths level keys.length values.length)

/-- `from_records`. -/
def fromRecords (level : Nat) (records : List (Int × V)) :
    Except IncrementalMergeError (LogicalRunView V) :=
  make level (records.map fun record ↦ ⟨record.1⟩) (records.map Prod.snd)

/-- `item_count`. -/
def itemCount (view : LogicalRunView V) : Nat := view.keys.length

/-- The value at a cursor. -/
def valueAt (view : LogicalRunView V) (cursor : Nat) (h : cursor < view.keys.length) : V :=
  view.values.get ⟨cursor, view.length_eq ▸ h⟩

end LogicalRunView

/-- `OutputBlock`. -/
structure OutputBlock (V : Type) where
  rank : Nat
  keys : List RecordKey
  values : List V
deriving DecidableEq, Repr

/-- `IncrementalMergeState`. -/
structure IncrementalMergeState where
  sourceCursor : Nat
  targetCursor : Nat
  outputRecords : Nat
  emittedBlocks : Nat
  pendingItems : Nat
  done : Bool
deriving DecidableEq, Repr

/-- `IncrementalMergeStep`. -/
structure IncrementalMergeStep (V : Type) where
  decisions : Nat
  blocks : List (OutputBlock V)
  state : IncrementalMergeState
  done : Bool
deriving DecidableEq, Repr

/-- `IncrementalMergeResult`. -/
structure IncrementalMergeResult where
  sourceLevel : Nat
  targetLevel : Nat
  recordCount : Nat
  blockCount : Nat
  duplicateCount : Nat
  firstKey : Option RecordKey
  lastKey : Option RecordKey
  pgm : BatchPgmIndex
  state : IncrementalMergeState
  pgmSegmentStartRanks : List Nat
deriving DecidableEq, Repr

/-- `IncrementalMergeJob`, without its sink. -/
structure IncrementalMergeJob (V : Type) where
  config : IncrementalMergeConfig
  source : LogicalRunView V
  target : LogicalRunView V
  sourceCursor : Nat
  targetCursor : Nat
  outputRecords : Nat
  emittedBlocks : Nat
  duplicateCount : Nat
  pendingKeys : List RecordKey
  pendingValues : List V
  done : Bool
  stepCounter : Nat
  advanceCalls : Nat
  maxPendingItems : Nat
  pgm : IncrementalPgmBuilder
  finalized : Option IncrementalMergeResult

/-- A sink: it receives the completed blocks and may raise. -/
abbrev Sink (V ω : Type) := OutputBlock V → EStateM PUnit ω Unit

/-- A program of a job. -/
abbrev JobM (V ω : Type) := EStateM IncrementalMergeError (IncrementalMergeJob V × ω)

namespace IncrementalMergeJob

/-- `begin`, with the refusals of `__init__`. -/
def «begin» (config : IncrementalMergeConfig) (source target : LogicalRunView V) :
    Except IncrementalMergeError (IncrementalMergeJob V) :=
  if source.level = target.level then .error (.sameLevel source.level)
  else if source.level > target.level then .error (.reverseDirection source.level target.level)
  else if target.level ≠ source.level + 1 then .error (.gappedLevels source.level target.level)
  else .ok {
    config := config
    source := source
    target := target
    sourceCursor := 0
    targetCursor := 0
    outputRecords := 0
    emittedBlocks := 0
    duplicateCount := 0
    pendingKeys := []
    pendingValues := []
    done := false
    stepCounter := 0
    advanceCalls := 0
    maxPendingItems := 0
    pgm := .init config.epsilon
    finalized := none }

/-- `state`. -/
def state (job : IncrementalMergeJob V) : IncrementalMergeState where
  sourceCursor := job.sourceCursor
  targetCursor := job.targetCursor
  outputRecords := job.outputRecords
  emittedBlocks := job.emittedBlocks
  pendingItems := job.pendingKeys.length
  done := job.done

/-- `pgm_state`. -/
def pgmState (job : IncrementalMergeJob V) : IncrementalPgmState := job.pgm.snapshot

/-- Both cursors are at the end of their runs. -/
def exhausted (job : IncrementalMergeJob V) : Bool :=
  job.sourceCursor ≥ job.source.keys.length ∧ job.targetCursor ≥ job.target.keys.length

/-- Change the fields of the job. -/
def update (f : IncrementalMergeJob V → IncrementalMergeJob V) : JobM V ω Unit :=
  modify fun s ↦ (f s.1, s.2)

/-- The fields of the job. -/
def self : JobM V ω (IncrementalMergeJob V) := do
  let s ← get
  pure s.1

/-- Hand a block to the sink. -/
def deliver (sink : Option (Sink V ω)) (block : OutputBlock V) : JobM V ω Unit :=
  match sink with
  | none => pure ()
  | some f => zoom (·.2) (fun w s ↦ (s.1, w)) (fun _ ↦ .sink) (f block)

/-- `_flush_block`. -/
def flushBlock (sink : Option (Sink V ω)) : JobM V ω (OutputBlock V) := do
  let job ← self
  let block : OutputBlock V := ⟨job.emittedBlocks, job.pendingKeys, job.pendingValues⟩
  update fun job ↦ { job with
    pendingKeys := []
    pendingValues := []
    emittedBlocks := job.emittedBlocks + 1 }
  deliver sink block
  pure block

/-- `_emit`: the blocks that the record completes. -/
def emit (sink : Option (Sink V ω)) (key : RecordKey) (value : V) :
    JobM V ω (List (OutputBlock V)) := do
  update fun job ↦ { job with
    pendingKeys := job.pendingKeys ++ [key]
    pendingValues := job.pendingValues ++ [value] }
  let job ← self
  let pending := job.pendingKeys.length
  update fun job ↦ { job with maxPendingItems := max job.maxPendingItems pending }
  let pgm ← liftExcept id (job.pgm.addKey key)
  update fun job ↦ { job with pgm := pgm, outputRecords := job.outputRecords + 1 }
  if pending = job.config.itemsPerBlock then do
    let block ← flushBlock sink
    pure [block]
  else pure []

/-- One round of the loop of `advance`: the blocks completed by one decision, or nothing when
both runs are at their ends. -/
def decision (sink : Option (Sink V ω)) : JobM V ω (Option (List (OutputBlock V))) := do
  let job ← self
  if hs : job.sourceCursor < job.source.keys.length then
    let sourceKey := job.source.keys[job.sourceCursor]
    let sourceValue := job.source.valueAt job.sourceCursor hs
    if ht : job.targetCursor < job.target.keys.length then
      let targetKey := job.target.keys[job.targetCursor]
      let targetValue := job.target.valueAt job.targetCursor ht
      if sourceKey = targetKey then
        -- the source is newer: its record is emitted, and both are consumed
        let blocks ← emit sink sourceKey sourceValue
        update fun job ↦ { job with
          sourceCursor := job.sourceCursor + 1
          targetCursor := job.targetCursor + 1
          duplicateCount := job.duplicateCount + 1 }
        pure (some blocks)
      else if sourceKey < targetKey then
        let blocks ← emit sink sourceKey sourceValue
        update fun job ↦ { job with sourceCursor := job.sourceCursor + 1 }
        pure (some blocks)
      else
        let blocks ← emit sink targetKey targetValue
        update fun job ↦ { job with targetCursor := job.targetCursor + 1 }
        pure (some blocks)
    else
      let blocks ← emit sink sourceKey sourceValue
      update fun job ↦ { job with sourceCursor := job.sourceCursor + 1 }
      pure (some blocks)
  else if ht : job.targetCursor < job.target.keys.length then
    let blocks ← emit sink job.target.keys[job.targetCursor]
      (job.target.valueAt job.targetCursor ht)
    update fun job ↦ { job with targetCursor := job.targetCursor + 1 }
    pure (some blocks)
  else
    update fun job ↦ { job with done := true }
    pure none

/-- The loop of `advance` with the budget that is left. -/
def advanceLoop (sink : Option (Sink V ω)) :
    Nat → Nat → List (OutputBlock V) → JobM V ω (Nat × List (OutputBlock V))
  | 0, decisions, blocks => pure (decisions, blocks)
  | budget + 1, decisions, blocks => do
    match ← decision sink with
    | some completed => advanceLoop sink budget (decisions + 1) (blocks ++ completed)
    | none => pure (decisions, blocks)

/-- The end of `advance`: what is pending once the job is done is its last block. -/
def flushLast (sink : Option (Sink V ω)) : JobM V ω (List (OutputBlock V)) := do
  let job ← self
  if job.done ∧ job.pendingKeys ≠ [] then do
    let block ← flushBlock sink
    pure [block]
  else pure []

/-- `advance`. -/
def advance (sink : Option (Sink V ω)) (q : Int) : JobM V ω (IncrementalMergeStep V) := do
  if q ≤ 0 then throw (.budget q)
  let job ← self
  if job.done then pure ⟨0, [], job.state, true⟩
  else
    update fun job ↦ { job with
      advanceCalls := job.advanceCalls + 1
      stepCounter := job.stepCounter + 1 }
    let (decisions, blocks) ← advanceLoop sink q.toNat 0 []
    update fun job ↦ { job with done := job.done || job.exhausted }
    let last ← flushLast sink
    let job ← self
    pure ⟨decisions, blocks ++ last, job.state, job.done⟩

/-- `finalize`. -/
def finalize : JobM V ω IncrementalMergeResult := do
  let job ← self
  if job.done then
    match job.finalized with
    | some result => pure result
    | none =>
      let pgm ← liftExcept .pgm job.pgm.finalize
      let result : IncrementalMergeResult := {
        sourceLevel := job.source.level
        targetLevel := job.target.level
        recordCount := job.outputRecords
        blockCount := job.emittedBlocks
        duplicateCount := job.duplicateCount
        firstKey := pgm.firstKey
        lastKey := pgm.lastKey
        pgm := pgm
        state := job.state
        pgmSegmentStartRanks := job.pgm.segmentStartRanks }
      update fun job ↦ { job with finalized := some result }
      pure result
  else throw (.notDone job.sourceCursor job.targetCursor job.pendingKeys.length)

end IncrementalMergeJob

end EnhancedLetIndex
