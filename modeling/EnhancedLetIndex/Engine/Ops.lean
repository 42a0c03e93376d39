import EnhancedLetIndex.Engine.State

/-!
# The operations of a trusted engine

The translation of `engine.py`, `builder.py` and `merge.py`.  Every operation is a program
over the engine's state that returns or raises, and keeps what it has changed when it raises.
Python loops that can raise are recursions over the list they walk.

The builder takes a `FaultPlan`: the `create_block` calls and the PGM build at which an
exception from outside is injected, as the tests of the merge do.  The operations themselves
run without faults.
-/

namespace EnhancedLetIndex

variable {V : Type}

/-- Why a merge refuses its input or output (`MergeInputError`).  `role` is the role of the
level in the merge. -/
inductive MergeInputError where
  | sameLevel (levelId : LevelId)
  | emptyBlock (role : String) (levelId : LevelId) (blockId : BlockId)
  | capacity (role : String) (levelId : LevelId) (blockId : BlockId) (blockCapacity capacity : Nat)
  | notFull (role : String) (levelId : LevelId) (blockId : BlockId) (size capacity : Nat)
  | finalSize (role : String) (levelId : LevelId) (blockId : BlockId) (size capacity : Nat)
  | keys (role : String) (levelId : LevelId) (previous key : RecordKey)
  | outputKeys (left right : RecordKey)
  | outputBlocks (levelId : LevelId) (actual expected : Nat)
deriving DecidableEq, Repr

/-- What the operations of the engine raise. -/
inductive EngineError where
  | block (e : BlockError)
  | duplicateKey (e : DuplicateKeyError)
  | level (e : LevelError)
  | mapping (e : MappingError)
  | storage (e : StorageError)
  | pgm (e : PgmError)
  /-- `build_level_pgm` on a level whose keys do not increase across blocks. -/
  | corruptedLevel (levelId : LevelId) (previous key : RecordKey)
  | retiredLevel (levelId : LevelId)
  | unknownLevel (levelId : LevelId)
  /-- The `KeyError` of a dictionary. -/
  | key (levelId : LevelId)
  /-- The `IndexError` of a tuple. -/
  | index (i : Nat)
  | duplicateLevelInPlan (levelId : LevelId)
  | emptyUpdateBatch
  | mergeInput (e : MergeInputError)
  /-- An exception injected from outside. -/
  | fault
deriving DecidableEq, Repr

/-- A program of the engine. -/
abbrev EngineM (V : Type) := EStateM EngineError (Engine V)

namespace Engine

def onMapping {α : Type} (x : EStateM MappingError LogicalPhysicalMapping α) : EngineM V α :=
  zoom (·.mapping) (fun m e ↦ { e with mapping := m }) .mapping x

def onStorage {α : Type} (x : EStateM StorageError (UntrustedStorage V) α) : EngineM V α :=
  zoom (·.storage) (fun s e ↦ { e with storage := s }) .storage x

/-! ## Levels and blocks -/

/-- `_new_block_id`. -/
def newBlockId : EngineM V BlockId := do
  let e ← get
  set { e with nextBlockId := e.nextBlockId + 1 }
  pure ⟨e.nextBlockId⟩

/-- `_new_level_id`. -/
def newLevelId : EngineM V LevelId := do
  let e ← get
  set { e with nextLevelId := e.nextLevelId + 1 }
  pure ⟨e.nextLevelId⟩

/-- `create_level`. -/
def createLevel : EngineM V LevelId := do
  let levelId ← newLevelId
  modify fun e ↦ { e with levels := e.levels.insert levelId (Level.empty levelId) }
  pure levelId

/-- `level`. -/
def level (levelId : LevelId) : EngineM V Level := do
  let e ← get
  if levelId ∈ e.retiredLevelIds then throw (.retiredLevel levelId)
  else
    match e.levels.lookup levelId with
    | some l => pure l
    | none => throw (.key levelId)

/-- `add_block_to_level`: attach a block and drop the PGM of the level. -/
def addBlockToLevel (levelId : LevelId) (blockId : BlockId) : EngineM V Unit := do
  let l ← level levelId
  let l ← liftExcept .level (l.addBlock blockId)
  modify fun e ↦ { e with levels := e.levels.insert levelId l }
  modify fun e ↦ { e with pgmIndexes := e.pgmIndexes.erase levelId }

/-- `create_block`. -/
def createBlock (records : List (Record V)) (levelId : Option LevelId) : EngineM V BlockId := do
  let blockId ← newBlockId
  let e ← get
  let block ← liftExcept .block (Block.sortedBlock blockId records e.config.blockCapacity)
  let slot ← onStorage (UntrustedStorage.store block)
  onMapping (LogicalPhysicalMapping.assign blockId slot)
  match levelId with
  | some levelId => addBlockToLevel levelId blockId
  | none => pure ()
  pure blockId

/-- `mapping.lookup`. -/
def physicalSlot (blockId : BlockId) : EngineM V SlotId := do
  let e ← get
  liftExcept .mapping (e.mapping.lookup blockId)

/-- `read_block`. -/
def readBlock (blockId : BlockId) : EngineM V (Block V) := do
  let slot ← physicalSlot blockId
  onStorage (UntrustedStorage.read slot)

/-- `relocate_block`. -/
def relocateBlock (blockId : BlockId) (newSlot : SlotId) : EngineM V Unit := do
  let oldSlot ← physicalSlot blockId
  if oldSlot = newSlot then pure ()
  else
    let e ← get
    match (e.mapping.slotOwner newSlot).filter (· ≠ blockId) with
    | some owner => throw (.mapping (.duplicatePhysicalSlot newSlot owner))
    | none =>
      if newSlot ∈ e.storage.slots then throw (.storage (.occupiedUnmapped newSlot))
      else
        let block ← onStorage (UntrustedStorage.read oldSlot)
        if block.blockId ≠ blockId then
          throw (.storage (.wrongBlock oldSlot block.blockId blockId))
        else
          onStorage (UntrustedStorage.write newSlot block)
          onMapping (LogicalPhysicalMapping.move blockId newSlot)
          onStorage (UntrustedStorage.clear oldSlot)

/-! ## Building levels -/

/-- Where exceptions from outside strike: at the `n`-th `create_block` of a build, and at the
PGM build. -/
structure FaultPlan where
  createBlock : Nat → Bool
  buildLevelPgm : Bool

/-- No exception from outside. -/
def FaultPlan.none : FaultPlan := ⟨fun _ ↦ false, false⟩

/-- The loop of `LevelBuilder.build` over the partitions, `n` of them already created. -/
def createBlocks (faults : FaultPlan) (levelId : LevelId) (n : Nat) :
    List (List (Record V)) → EngineM V Unit
  | [] => pure ()
  | partition :: rest => do
    if faults.createBlock n then throw .fault
    let _ ← createBlock partition (some levelId)
    createBlocks faults levelId (n + 1) rest

/-- `LevelBuilder.build`. -/
def buildLevelWith (faults : FaultPlan) (records : List (Record V)) (levelId : Option LevelId) :
    EngineM V LevelId := do
  let dataset ← liftExcept .duplicateKey (Dataset.fromRecords records)
  let levelId ← match levelId with
    | some levelId => pure levelId
    | none => createLevel
  let e ← get
  createBlocks faults levelId 0 (dataset.partitions e.config.blockCapacity)
  pure levelId

/-- `build_level`. -/
def buildLevel (records : List (Record V)) (levelId : Option LevelId) : EngineM V LevelId :=
  buildLevelWith .none records levelId

/-! ## PGM indexes -/

/-- The check of `build_level_pgm` on the records of one block, `previous` being the key
before them. -/
def increasingKeys (levelId : LevelId) (previous : Option RecordKey) :
    List (Record V) → Except EngineError (List RecordKey)
  | [] => pure []
  | record :: rest => do
    match previous with
    | some previous => if record.key ≤ previous then throw (.corruptedLevel levelId previous record.key)
    | none => pure ()
    let keys ← increasingKeys levelId (some record.key) rest
    pure (record.key :: keys)

/-- The loop of `build_level_pgm` over the blocks. -/
def pgmKeys (levelId : LevelId) (previous : Option RecordKey) :
    List BlockId → EngineM V (List RecordKey)
  | [] => pure []
  | blockId :: rest => do
    let block ← readBlock blockId
    let keys ← liftExcept id (increasingKeys levelId previous block.records)
    let later ← pgmKeys levelId (keys.getLast?.or previous) rest
    pure (keys ++ later)

/-- `build_level_pgm`. -/
def buildLevelPgm (levelId : LevelId) : EngineM V BatchPgmIndex := do
  let e ← get
  match e.config.pgmEpsilon with
  | none => throw (.pgm .configuration)
  | some epsilon =>
    let l ← level levelId
    let keys ← pgmKeys levelId none l.blockIds
    let index ← liftExcept .pgm (buildBatchPgm keys epsilon)
    modify fun e ↦ { e with pgmIndexes := e.pgmIndexes.insert levelId index }
    pure index

/-- `pgm_index`. -/
def pgmIndex (levelId : LevelId) : EngineM V BatchPgmIndex := do
  let e ← get
  if levelId ∈ e.retiredLevelIds then throw (.retiredLevel levelId)
  else
    match e.pgmIndexes.lookup levelId with
    | some index => pure index
    | none => throw (.key levelId)

/-! ## Lookups -/

/-- `SingleLevelLookupResult`. -/
structure SingleLevelLookupResult (V : Type) where
  found : Bool
  record : Option (Record V)
  lowerBoundRank : Nat
  searchResult : SearchResult
deriving DecidableEq, Repr

/-- `MultiLevelLookupResult`. -/
structure MultiLevelLookupResult (V : Type) where
  found : Bool
  record : Option (Record V)
  hitLevelId : Option LevelId
  searchedLevelIds : List LevelId
deriving DecidableEq, Repr

/-- One entry of a read schedule. -/
structure ScheduleEntry where
  logicalRank : Nat
  blockId : BlockId
  slotId : SlotId
deriving DecidableEq, Repr

/-- The candidate block of a logical rank. -/
def scheduleEntry (blockIds : List BlockId) (logicalRank : Nat) : EngineM V ScheduleEntry := do
  match blockIds[logicalRank]? with
  | none => throw (.index logicalRank)
  | some blockId =>
    let slotId ← physicalSlot blockId
    pure ⟨logicalRank, blockId, slotId⟩

/-- The read schedule of the logical ranks `first..last`: ascending current slot. -/
def schedule (blockIds : List BlockId) (first last : Nat) : EngineM V (List ScheduleEntry) := do
  let entries ← (List.range' first (last + 1 - first)).mapM (scheduleEntry blockIds)
  pure (entries.insertionSort fun a b ↦ a.slotId.value ≤ b.slotId.value)

/-- Read one scheduled block. -/
def fetch (entry : ScheduleEntry) : EngineM V (Nat × Block V) := do
  let block ← readBlock entry.blockId
  pure (entry.logicalRank, block)

/-- The records of the fetched blocks in logical rank order, those inside `[lo, hi)`. -/
def candidateRecords (capacity lo hi : Nat) (fetched : List (Nat × Block V)) : List (Record V) :=
  let ordered := fetched.insertionSort fun a b ↦ a.1 ≤ b.1
  ordered.flatMap fun (logicalRank, block) ↦
    ((block.records.zipIdx (logicalRank * capacity)).filter
      fun (_, globalRank) ↦ lo ≤ globalRank ∧ globalRank < hi).map Prod.fst

/-- The end of `lookup_level`: bisect over the candidates and compare. -/
def lookupResult (sr : SearchResult) (candidates : List (Record V)) (key : RecordKey) :
    SingleLevelLookupResult V :=
  let localPos := bisect (· < key) (candidates.map (·.key))
  let lbRank := sr.lo + localPos
  match candidates[localPos]? with
  | some record =>
    if record.key = key then ⟨true, some record, lbRank, sr⟩ else ⟨false, none, lbRank, sr⟩
  | none => ⟨false, none, lbRank, sr⟩

/-- `lookup_level`. -/
def lookupLevel (levelId : LevelId) (key : RecordKey) :
    EngineM V (SingleLevelLookupResult V) := do
  let l ← level levelId
  let pgm ← pgmIndex levelId
  let sr ← liftExcept .pgm (pgm.search key)
  if sr.lo = sr.hi then pure ⟨false, none, sr.lo, sr⟩
  else
    let e ← get
    let capacity := e.config.blockCapacity
    let entries ← schedule l.blockIds (sr.lo / capacity) ((sr.hi - 1) / capacity)
    let fetched ← entries.mapM fetch
    pure (lookupResult sr (candidateRecords capacity sr.lo sr.hi fetched) key)

/-- Phase A of `lookup_levels`: the first id that an earlier one repeats. -/
def firstDuplicate (seen : List LevelId) : List LevelId → Option LevelId
  | [] => none
  | levelId :: rest => if levelId ∈ seen then some levelId else firstDuplicate (levelId :: seen) rest

/-- Phase B of `lookup_levels`: the non-empty levels of the plan, each with a PGM. -/
def searchableLevels : List LevelId → EngineM V (List LevelId)
  | [] => pure []
  | levelId :: rest => do
    let e ← get
    match e.levels.lookup levelId with
    | none =>
      if levelId ∈ e.retiredLevelIds then throw (.retiredLevel levelId)
      else throw (.unknownLevel levelId)
    | some l =>
      if l.blockIds = [] then searchableLevels rest
      else
        let _ ← pgmIndex levelId
        let later ← searchableLevels rest
        pure (levelId :: later)

/-- Phase C of `lookup_levels`: search the levels in order up to the first hit. -/
def searchLevels (key : RecordKey) (searched : List LevelId) :
    List LevelId → EngineM V (MultiLevelLookupResult V)
  | [] => pure ⟨false, none, none, searched⟩
  | levelId :: rest => do
    let result ← lookupLevel levelId key
    let searched := searched ++ [levelId]
    if result.found then pure ⟨true, result.record, some levelId, searched⟩
    else searchLevels key searched rest

/-- `lookup_levels`. -/
def lookupLevels (plan : List LevelId) (key : RecordKey) :
    EngineM V (MultiLevelLookupResult V) := do
  match firstDuplicate [] plan with
  | some levelId => throw (.duplicateLevelInPlan levelId)
  | none =>
    let searchable ← searchableLevels plan
    searchLevels key [] searchable

/-! ## Updates, merges and retirement -/

/-- `LevelMerger.create_update_level`. -/
def createUpdateLevel (records : List (Record V)) : EngineM V LevelId := do
  if records = [] then throw .emptyUpdateBatch
  let dataset ← liftExcept .duplicateKey (Dataset.fromRecords records)
  buildLevel dataset.records none

/-- The loop of `retire_level`. -/
def retireBlocks : List BlockId → EngineM V Unit
  | [] => pure ()
  | blockId :: rest => do
    let slot ← physicalSlot blockId
    onStorage (UntrustedStorage.clear slot)
    let _ ← onMapping (LogicalPhysicalMapping.unassign blockId)
    retireBlocks rest

/-- `retire_level`: the number of retired blocks. -/
def retireLevel (levelId : LevelId) : EngineM V Nat := do
  let l ← level levelId
  retireBlocks l.blockIds
  modify fun e ↦ { e with
    pgmIndexes := e.pgmIndexes.erase levelId
    levels := e.levels.erase levelId
    retiredLevelIds := insert levelId e.retiredLevelIds }
  pure l.blockIds.length

/-- The checks of `_read_level_records` on one block of a level. -/
def checkInputBlock (role : String) (levelId : LevelId) (blockId : BlockId) (isLast : Bool)
    (capacity : Nat) (block : Block V) : Except MergeInputError Unit :=
  if block.isEmpty then .error (.emptyBlock role levelId blockId)
  else if block.capacity ≠ capacity then
    .error (.capacity role levelId blockId block.capacity capacity)
  else if ¬ isLast ∧ ¬ block.isFull then
    .error (.notFull role levelId blockId block.size capacity)
  else if isLast ∧ ¬ (1 ≤ block.size ∧ block.size ≤ capacity) then
    .error (.finalSize role levelId blockId block.size capacity)
  else .ok ()

/-- The key check of `_read_level_records`, over the records of one block. -/
def checkInputKeys (role : String) (levelId : LevelId) (previous : Option RecordKey) :
    List (Record V) → Except MergeInputError (Option RecordKey)
  | [] => .ok previous
  | record :: rest =>
    match previous with
    | some previous =>
      if record.key ≤ previous then .error (.keys role levelId previous record.key)
      else checkInputKeys role levelId (some record.key) rest
    | none => checkInputKeys role levelId (some record.key) rest

/-- The loop of `_read_level_records`. -/
def readInputBlocks (role : String) (levelId : LevelId) (capacity : Nat)
    (previous : Option RecordKey) : List BlockId → EngineM V (List (Record V))
  | [] => pure []
  | blockId :: rest => do
    let block ← readBlock blockId
    liftExcept .mergeInput (checkInputBlock role levelId blockId rest.isEmpty capacity block)
    let previous ← liftExcept .mergeInput (checkInputKeys role levelId previous block.records)
    let later ← readInputBlocks role levelId capacity previous rest
    pure (block.records ++ later)

/-- `_read_level_records`. -/
def readLevelRecords (l : Level) (role : String) : EngineM V (List (Record V)) := do
  let e ← get
  readInputBlocks role l.levelId e.config.blockCapacity none l.blockIds

/-- `_merge_sorted`. -/
def mergeSorted (newer older : List (Record V)) : List (Record V) × Nat :=
  mergeLoop (·.key) (newer.length + older.length) newer older

/-- `_assert_canonical_output`. -/
def assertCanonicalOutput (merged : List (Record V)) (outputLevelId : LevelId) :
    EngineM V Unit := do
  match firstNotIncreasing (merged.map (·.key)) with
  | some (left, right) => throw (.mergeInput (.outputKeys left right))
  | none =>
    let e ← get
    let capacity := e.config.blockCapacity
    let expected := if merged = [] then 0 else (merged.length + capacity - 1) / capacity
    let output ← level outputLevelId
    if output.blockIds.length ≠ expected then
      throw (.mergeInput (.outputBlocks outputLevelId output.blockIds.length expected))

/-- `_discard_partial_output`: whatever goes wrong in the cleanup is swallowed. -/
def discardPartialOutput (outputLevelId : LevelId) : EngineM V Unit := do
  let e ← get
  if outputLevelId ∈ e.levels then
    tryCatch (do let _ ← retireLevel outputLevelId) fun _ ↦ pure ()

/-- `MergeResult`. -/
structure MergeResult where
  outputLevelId : LevelId
  newerLevelId : LevelId
  olderLevelId : LevelId
  newerRecordCount : Nat
  olderRecordCount : Nat
  outputRecordCount : Nat
  discardedOlderRecordCount : Nat
deriving DecidableEq, Repr

/-- The publication part of `merge_blocking`: build, check and index the output. -/
def publishOutput (faults : FaultPlan) (merged : List (Record V)) (outputLevelId : LevelId) :
    EngineM V Unit := do
  let _ ← buildLevelWith faults merged (some outputLevelId)
  assertCanonicalOutput merged outputLevelId
  if faults.buildLevelPgm then throw .fault
  let _ ← buildLevelPgm outputLevelId

/-- `LevelMerger.merge_blocking`, under a plan of faults. -/
def mergeBlockingWith (faults : FaultPlan) (newerLevelId olderLevelId : LevelId) :
    EngineM V MergeResult := do
  if newerLevelId = olderLevelId then throw (.mergeInput (.sameLevel newerLevelId))
  let newer ← level newerLevelId
  let older ← level olderLevelId
  let newerRecords ← readLevelRecords newer "newer"
  let olderRecords ← readLevelRecords older "older"
  let (merged, discarded) := mergeSorted newerRecords olderRecords
  let outputLevelId ← createLevel
  tryCatch (publishOutput faults merged outputLevelId) fun error ↦ do
    discardPartialOutput outputLevelId
    throw error
  let _ ← retireLevel newerLevelId
  let _ ← retireLevel olderLevelId
  pure ⟨outputLevelId, newerLevelId, olderLevelId, newerRecords.length, olderRecords.length,
    merged.length, discarded⟩

/-- `merge_levels_blocking`. -/
def mergeLevelsBlocking (newerLevelId olderLevelId : LevelId) : EngineM V MergeResult :=
  mergeBlockingWith .none newerLevelId olderLevelId

end Engine

end EnhancedLetIndex
