import EnhancedLetIndex.Transcript.Channel

/-!
# Descriptive leakage metrics

The metrics of `leakage_metrics.py`.  They read the transcript only, and of an operation its
index, its class and its events.  Ratios and means are numbers of an arbitrary arithmetic, since
which digits they have is of no account here.
-/

namespace EnhancedLetIndex

/-- The arithmetic of the ratios: the quotient of two integers, the sum of some numbers, a number
over an integer, the rounding to `MEAN_DIGITS`, the larger and the smaller of two numbers. -/
structure RatioArithmetic (F : Type*) where
  zero : F
  quotient : Int → Int → F
  sum : List F → F
  divide : F → Int → F
  round : F → F
  max : F → F → F
  min : F → F → F

namespace Metrics

variable {F : Type*} (arith : RatioArithmetic F)

/-! ## Small primitives -/

/-- `_ratio`. -/
def ratio (numerator denominator : Int) : F :=
  if denominator = 0 then arith.zero else arith.round (arith.quotient numerator denominator)

/-- `_mean` of counts. -/
def mean (values : List Nat) : F := ratio arith values.sum values.length

/-- `_mean` of ratios. -/
def meanRatio (values : List F) : F :=
  if values.length = 0 then arith.zero
  else arith.round (arith.divide (arith.sum values) values.length)

/-- The sorted values of a `Counter` with their counts. -/
def histogram {α : Type*} [LinearOrder α] (values : List α) : List (α × Nat) :=
  (values.dedup.insertionSort (· ≤ ·)).map fun v ↦ (v, values.count v)

/-- `_run_length_encoding`. -/
def runLengthEncoding (operations : List EventOperation) : List (EventOperation × Nat) :=
  (operations.splitBy (· == ·)).filterMap fun run ↦ run.head?.map fun o ↦ (o, run.length)

/-- `_max_run`. -/
def maxRun (operations : List EventOperation) (wanted : EventOperation) : Nat :=
  (operations.foldl (fun (longest, current) o ↦
    let current := if o = wanted then current + 1 else 0
    (max longest current, current)) (0, 0)).1

/-- `max(slots) - min(slots) + 1`, with no span for no slots. -/
def physicalSpan (slots : List Int) : Option Int := do
  let hi ← slots.max?
  let lo ← slots.min?
  pure (hi - lo + 1)

end Metrics

namespace ObservedOperation

variable (o : ObservedOperation)

/-- `_slots`. -/
def slots : List Int := o.events.map (·.slotId)

end ObservedOperation

/-! ## Metrics of an operation -/

/-- The payload of `operation_metrics`. -/
structure OperationMetrics where
  index : Int
  operationClass : OperationClass
  eventCount : Nat
  readVolume : Nat
  writeVolume : Nat
  distinctSlots : Nat
  repeatedSlotCount : Nat
  repeatedSlotIds : List Int
  repeatAccessCount : Nat
  slotSequence : List Int
  minSlot : Option Int
  maxSlot : Option Int
  physicalSpan : Option Int

/-- `operation_metrics`. -/
def operationMetrics (o : ObservedOperation) : OperationMetrics :=
  let slots := o.slots
  let distinct := slots.dedup
  let repeated := (distinct.filter fun slot ↦ 1 < slots.count slot).insertionSort (· ≤ ·)
  let reads := o.eventCount .read
  { index := o.index
    operationClass := o.operationClass
    eventCount := slots.length
    readVolume := reads
    writeVolume := o.events.length - reads
    distinctSlots := distinct.length
    repeatedSlotCount := repeated.length
    repeatedSlotIds := repeated
    repeatAccessCount := slots.length - distinct.length
    slotSequence := slots
    minSlot := slots.min?
    maxSlot := slots.max?
    physicalSpan := Metrics.physicalSpan slots }

/-- `per_operation_metrics`. -/
def perOperationMetrics (t : AdversaryTranscript) : List OperationMetrics :=
  t.operations.map operationMetrics

/-! ## Metrics of the queries -/

/-- The payload of `trace_length` and of `distinct_slots`. -/
structure CountMetrics (F : Type*) where
  min : Option Nat
  max : Option Nat
  mean : F
  total : Nat
  histogram : List (Nat × Nat)

/-- The payload of a pair of queries. -/
structure PairMetrics (F : Type*) where
  indexA : Int
  indexB : Int
  intersectionSize : Nat
  unionSize : Nat
  jaccard : F
  setEqual : Bool
  sequenceEqual : Bool

/-- The payload of `pairwise`. -/
structure PairwiseMetrics (F : Type*) where
  pairCount : Nat
  meanJaccard : F
  maxJaccard : F
  minJaccard : F
  pairsWithIntersectionCount : Nat
  exactSetEqualityCount : Nat
  exactSequenceEqualityCount : Nat
  exactSequenceEqualityRate : F
  pairs : List (PairMetrics F)

/-- The payload of a slot: how many queries touch it and how often. -/
structure SlotFrequency where
  slotId : Int
  queryCount : Nat
  accessCount : Nat

/-- The payload of `slot_hotness`. -/
structure HotnessMetrics where
  distinctQuerySlots : Nat
  totalQuerySlotAccesses : Nat
  repeatedQuerySlotCount : Nat
  maxSlotQueryCount : Nat
  slotQueryFrequency : List SlotFrequency
  hotnessHistogram : List (Nat × Nat)

/-- The payload of the steps of a query. -/
structure QueryAdjacency where
  index : Int
  consecutiveSteps : Nat
  adjacentByOneCount : Nat

/-- The payload of `adjacency`. -/
structure AdjacencyMetrics (F : Type*) where
  totalConsecutiveSteps : Nat
  adjacentByOneCount : Nat
  adjacentByOneRate : F
  stepDifferenceHistogram : List (Int × Nat)
  perQuery : List QueryAdjacency

/-- The payload of `query_metrics`. -/
structure QueryMetrics (F : Type*) where
  queryCount : Nat
  traceLength : CountMetrics F
  distinctSlots : CountMetrics F
  pairwise : PairwiseMetrics F
  slotHotness : HotnessMetrics
  adjacency : AdjacencyMetrics F

namespace Metrics

variable {F : Type*} (arith : RatioArithmetic F)

/-- The slot sequences of the queries by index: the last query with an index counts. -/
def sequenceAt (sequences : List (Int × List Int)) (index : Int) : List Int :=
  (sequences.reverse.lookup index).getD []

def countMetrics (values : List Nat) : CountMetrics F where
  min := values.min?
  max := values.max?
  mean := mean arith values
  total := values.sum
  histogram := histogram values

/-- The pair of two queries. -/
def pairMetrics (sequences : List (Int × List Int)) (a b : Int) : PairMetrics F :=
  let first := sequenceAt sequences a
  let second := sequenceAt sequences b
  let intersection := (first.toFinset ∩ second.toFinset).card
  let union := (first.toFinset ∪ second.toFinset).card
  { indexA := a
    indexB := b
    intersectionSize := intersection
    unionSize := union
    jaccard := ratio arith intersection union
    setEqual := first.toFinset = second.toFinset
    sequenceEqual := first = second }

/-- The pairs of queries, the earlier one first. -/
def queryPairs (sequences : List (Int × List Int)) : List Int → List (PairMetrics F)
  | [] => []
  | a :: rest => rest.map (pairMetrics arith sequences a) ++ queryPairs sequences rest

/-- The largest, or the smallest, of some ratios. -/
def extremum (pick : F → F → F) : List F → F
  | [] => arith.zero
  | r :: ratios => ratios.foldl pick r

def pairwiseMetrics (pairs : List (PairMetrics F)) : PairwiseMetrics F :=
  let jaccards := pairs.map (·.jaccard)
  let sequenceEquals := pairs.countP (·.sequenceEqual)
  { pairCount := pairs.length
    meanJaccard := if pairs.length = 0 then arith.zero else meanRatio arith jaccards
    maxJaccard := extremum arith arith.max jaccards
    minJaccard := extremum arith arith.min jaccards
    pairsWithIntersectionCount := pairs.countP (0 < ·.intersectionSize)
    exactSetEqualityCount := pairs.countP (·.setEqual)
    exactSequenceEqualityCount := sequenceEquals
    exactSequenceEqualityRate := ratio arith sequenceEquals pairs.length
    pairs := pairs }

/-- The hotness of the slots: `slot_query_counts` counts a query once for a slot,
`slot_access_counts` every access. -/
def hotnessMetrics (queries : List (List Int)) : HotnessMetrics :=
  let touched := queries.flatMap List.dedup
  let accesses := queries.flatten
  let slots := touched.dedup.insertionSort (· ≤ ·)
  { distinctQuerySlots := slots.length
    totalQuerySlotAccesses := accesses.length
    repeatedQuerySlotCount := slots.countP fun slot ↦ 1 < touched.count slot
    maxSlotQueryCount := ((slots.map touched.count).max?).getD 0
    slotQueryFrequency := slots.map fun slot ↦ ⟨slot, touched.count slot, accesses.count slot⟩
    hotnessHistogram := histogram (slots.map touched.count) }

/-- The differences of the consecutive slots of a query. -/
def stepDifferences (slots : List Int) : List Int :=
  (slots.zip slots.tail).map fun step ↦ step.2 - step.1

def adjacencyMetrics (queries : List (Int × List Int)) : AdjacencyMetrics F :=
  let perQuery := queries.map fun q ↦
    (⟨q.1, q.2.length - 1, (stepDifferences q.2).countP (·.natAbs = 1)⟩ : QueryAdjacency)
  let steps := (perQuery.map (·.consecutiveSteps)).sum
  let adjacent := (perQuery.map (·.adjacentByOneCount)).sum
  { totalConsecutiveSteps := steps
    adjacentByOneCount := adjacent
    adjacentByOneRate := ratio arith adjacent steps
    stepDifferenceHistogram := histogram (queries.flatMap fun q ↦ stepDifferences q.2)
    perQuery := perQuery }

/-- `query_metrics` of the slot sequences of the queries. -/
def ofSequences (sequences : List (Int × List Int)) : QueryMetrics F :=
  let indices := sequences.map Prod.fst
  let queries := indices.map fun index ↦ (index, sequenceAt sequences index)
  { queryCount := indices.length
    traceLength := countMetrics arith (queries.map (·.2.length))
    distinctSlots := countMetrics arith (queries.map (·.2.dedup.length))
    pairwise := pairwiseMetrics arith (queryPairs arith sequences indices)
    slotHotness := hotnessMetrics (queries.map Prod.snd)
    adjacency := adjacencyMetrics arith queries }

end Metrics

section

variable {F : Type*} (arith : RatioArithmetic F)

/-- `query_metrics`. -/
def queryMetrics (t : AdversaryTranscript) : QueryMetrics F :=
  Metrics.ofSequences arith
    ((t.operations.filter (·.operationClass = .query)).map fun o ↦ (o.index, o.slots))

/-! ## Metrics of the merges -/

/-- The payload of `prior_query_overlap`. -/
structure OverlapMetrics (F : Type*) where
  priorQueryCount : Nat
  priorQuerySlots : Nat
  mergeSlots : Nat
  overlapSlots : Nat
  overlapRatio : F

/-- The payload of a merge. -/
structure MergeEntry (F : Type*) where
  index : Int
  eventCount : Nat
  readVolume : Nat
  writeVolume : Nat
  distinctSlots : Nat
  distinctReadSlots : Nat
  distinctWriteSlots : Nat
  minSlot : Option Int
  maxSlot : Option Int
  physicalSpan : Option Int
  operationRuns : List (EventOperation × Nat)
  readRunCount : Nat
  writeRunCount : Nat
  maxReadRun : Nat
  maxWriteRun : Nat
  priorQueryOverlap : OverlapMetrics F

/-- The payload of `merge_metrics`. -/
structure MergeMetrics (F : Type*) where
  mergeCount : Nat
  totalReads : Nat
  totalWrites : Nat
  distinctSlots : Nat
  meanOverlapRatio : F
  maxOverlapRatio : F
  sumPriorQueryOverlapSlots : Nat
  perMerge : List (MergeEntry F)

/-- The state of the loop of `merge_metrics`. -/
structure MergeScan (F : Type*) where
  priorQuerySlots : Finset Int := ∅
  priorQueryCount : Nat := 0
  mergeSlotsAll : Finset Int := ∅
  totalReads : Nat := 0
  totalWrites : Nat := 0
  perMerge : List (MergeEntry F) := []

/-- The slots of the events with an operation. -/
def slotsOf (o : ObservedOperation) (operation : EventOperation) : List Int :=
  (o.events.filter (·.operation = operation)).map (·.slotId)

/-- The entry of a merge after some queries. -/
def mergeEntry (s : MergeScan F) (o : ObservedOperation) : MergeEntry F :=
  let slots := o.slots
  let mergeSet := slots.toFinset
  let sequence := o.events.map (·.operation)
  let reads := sequence.count .read
  let runs := Metrics.runLengthEncoding sequence
  let overlap := mergeSet ∩ s.priorQuerySlots
  { index := o.index
    eventCount := slots.length
    readVolume := reads
    writeVolume := sequence.length - reads
    distinctSlots := mergeSet.card
    distinctReadSlots := (slotsOf o .read).toFinset.card
    distinctWriteSlots := (slotsOf o .write).toFinset.card
    minSlot := slots.min?
    maxSlot := slots.max?
    physicalSpan := Metrics.physicalSpan slots
    operationRuns := runs
    readRunCount := runs.countP (·.1 = .read)
    writeRunCount := runs.countP (·.1 = .write)
    maxReadRun := Metrics.maxRun sequence .read
    maxWriteRun := Metrics.maxRun sequence .write
    priorQueryOverlap :=
      { priorQueryCount := s.priorQueryCount
        priorQuerySlots := s.priorQuerySlots.card
        mergeSlots := mergeSet.card
        overlapSlots := overlap.card
        overlapRatio := Metrics.ratio arith overlap.card mergeSet.card } }

/-- A step of the loop of `merge_metrics`. -/
def mergeScanStep (s : MergeScan F) (o : ObservedOperation) : MergeScan F :=
  match o.operationClass with
  | .query =>
    { s with
      priorQuerySlots := s.priorQuerySlots ∪ o.slots.toFinset
      priorQueryCount := s.priorQueryCount + 1 }
  | .merge =>
    let entry := mergeEntry arith s o
    { s with
      mergeSlotsAll := s.mergeSlotsAll ∪ o.slots.toFinset
      totalReads := s.totalReads + entry.readVolume
      totalWrites := s.totalWrites + entry.writeVolume
      perMerge := s.perMerge ++ [entry] }
  | _ => s

/-- `merge_metrics`. -/
def mergeMetrics (t : AdversaryTranscript) : MergeMetrics F :=
  let s := t.operations.foldl (mergeScanStep arith) {}
  let ratios := s.perMerge.map (·.priorQueryOverlap.overlapRatio)
  { mergeCount := s.perMerge.length
    totalReads := s.totalReads
    totalWrites := s.totalWrites
    distinctSlots := s.mergeSlotsAll.card
    meanOverlapRatio := Metrics.meanRatio arith ratios
    maxOverlapRatio := Metrics.extremum arith arith.max ratios
    sumPriorQueryOverlapSlots := (s.perMerge.map (·.priorQueryOverlap.overlapSlots)).sum
    perMerge := s.perMerge }

/-! ## The payload -/

/-- The payload of `leakage_metrics`. -/
structure LeakageMetrics (F : Type*) where
  schemaVersion : String
  sourceSchemaVersion : String
  transcriptSchemaVersion : String
  equalityChannel : String
  perOperation : List OperationMetrics
  query : QueryMetrics F
  merge : MergeMetrics F

/-- `leakage_metrics`. -/
def leakageMetrics (t : AdversaryTranscript) : LeakageMetrics F where
  schemaVersion := Leakage.schemaVersion
  sourceSchemaVersion := Leakage.sourceSchemaVersion
  transcriptSchemaVersion := t.schemaVersion
  equalityChannel := "M0"
  perOperation := perOperationMetrics t
  query := queryMetrics arith t
  merge := mergeMetrics arith t

/-- The transcript without its labels. -/
def AdversaryTranscript.unlabelled (t : AdversaryTranscript) : AdversaryTranscript :=
  { t with equalityChannel := "M0", operations := t.operations.map (·.unlabelled) }

/-- The metrics read no label. -/
theorem leakageMetrics_unlabelled (t : AdversaryTranscript) :
    leakageMetrics arith t.unlabelled = leakageMetrics arith t := by
  have hperOperation : perOperationMetrics t.unlabelled = perOperationMetrics t :=
    List.map_map
  have hquery : queryMetrics arith t.unlabelled = queryMetrics arith t := by
    unfold queryMetrics
    rw [AdversaryTranscript.unlabelled, List.filter_map, List.map_map]
    rfl
  have hmerge : mergeMetrics arith t.unlabelled = mergeMetrics arith t := by
    unfold mergeMetrics
    rw [AdversaryTranscript.unlabelled, List.foldl_map]
    rfl
  rw [leakageMetrics, hperOperation, hquery, hmerge]
  rfl

end

end EnhancedLetIndex
