import Mathlib.Data.List.Dedup
import EnhancedLetIndex.Basic.Json

/-!
# The observation transcript

The frozen transcript unit of `leakage.py`, with its JSON form: what an adversary sees of a run
is, for each operation, its class, its physical events and their counts, beside the public
metadata of the run and a summary that is recomputed from the events.
-/

namespace EnhancedLetIndex

/-- The operation of a physical event: `EVENT_OPERATIONS`. -/
inductive EventOperation where
  | read
  | write
deriving DecidableEq, Repr

namespace EventOperation

def text : EventOperation → String
  | .read => "READ"
  | .write => "WRITE"

/-- The operation with a text. -/
def ofText (s : String) : Option EventOperation := [read, write].find? (·.text = s)

theorem ofText_eq_some {s : String} {operation : EventOperation} :
    ofText s = some operation ↔ s = operation.text := by
  constructor
  · intro h
    unfold ofText at h
    have htext := List.find?_some h
    exact (of_decide_eq_true htext).symm
  · rintro rfl
    cases operation <;> rfl

end EventOperation

/-- The class of an operation: `SOURCE_OPERATION_KINDS`. -/
inductive OperationClass where
  | buildInitial
  | query
  | upsert
  | buildPgm
  | merge
deriving DecidableEq, Repr

namespace OperationClass

def text : OperationClass → String
  | .buildInitial => "BUILD_INITIAL"
  | .query => "QUERY"
  | .upsert => "UPSERT"
  | .buildPgm => "BUILD_PGM"
  | .merge => "MERGE"

/-- The class with a text. -/
def ofText (s : String) : Option OperationClass :=
  [buildInitial, query, upsert, buildPgm, merge].find? (·.text = s)

theorem ofText_eq_some {s : String} {operationClass : OperationClass} :
    ofText s = some operationClass ↔ s = operationClass.text := by
  constructor
  · intro h
    unfold ofText at h
    have htext := List.find?_some h
    exact (of_decide_eq_true htext).symm
  · rintro rfl
    cases operationClass <;> rfl

theorem text_injective : text.Injective := fun _ _ h ↦
  Option.some.inj ((ofText_eq_some.mpr rfl).symm.trans (ofText_eq_some.mpr h))

end OperationClass

/-! ## The transcript unit -/

/-- `ObservedEvent`. -/
structure ObservedEvent where
  seq : Int
  operation : EventOperation
  slotId : Int
deriving DecidableEq, Repr

/-- `ObservedOperation`.  The label is the optional M1 side channel. -/
structure ObservedOperation where
  index : Int
  operationClass : OperationClass
  events : List ObservedEvent
  readCount : Int
  writeCount : Int
  queryEqualityClass : Option String := none
deriving DecidableEq, Repr

/-- The metadata of a run, as `_copy_run_metadata` returns it. -/
structure RunMetadata where
  family : String
  seed : Int
  blockCapacity : Int
  pgmEpsilon : Int
  family_ne : family ≠ ""
deriving DecidableEq

/-- The summary of a transcript. -/
structure Summary where
  operationCount : Int
  queryCount : Int
  mergeCount : Int
  totalReads : Int
  totalWrites : Int
  distinctSlots : Int
deriving DecidableEq, Repr

/-- `AdversaryTranscript`. -/
structure AdversaryTranscript where
  schemaVersion : String
  sourceSchemaVersion : String
  runMetadata : RunMetadata
  operations : List ObservedOperation
  summary : Summary
  equalityChannel : String
deriving DecidableEq

/-- `SCHEMA_VERSION`. -/
def Leakage.schemaVersion : String := "g2a-1"

/-- `SOURCE_SCHEMA_VERSION`. -/
def Leakage.sourceSchemaVersion : String := "g1e-1"

namespace ObservedOperation

/-- The events with an operation. -/
def eventCount (o : ObservedOperation) (operation : EventOperation) : Nat :=
  o.events.countP (·.operation = operation)

/-- The events of an operation count up from 0. -/
def Sequenced (o : ObservedOperation) : Prop :=
  o.events.map (·.seq) = (List.range o.events.length).map Int.ofNat

instance (o : ObservedOperation) : Decidable o.Sequenced := inferInstanceAs (Decidable (_ = _))

/-- The counts of an operation are those of its events, which count up from 0. -/
structure Integral (o : ObservedOperation) : Prop where
  readCount : o.readCount = o.eventCount .read
  writeCount : o.writeCount = o.eventCount .write
  sequenced : o.Sequenced

end ObservedOperation

/-- `_summarize`. -/
def summarize (operations : List ObservedOperation) : Summary where
  operationCount := operations.length
  queryCount := operations.countP (·.operationClass = .query)
  mergeCount := operations.countP (·.operationClass = .merge)
  totalReads := ((operations.map (·.eventCount .read)).sum : Nat)
  totalWrites := ((operations.map (·.eventCount .write)).sum : Nat)
  distinctSlots := ((operations.flatMap (·.events)).map (·.slotId)).dedup.length

/-! ## The JSON form -/

open Json

def ObservedEvent.toDict (e : ObservedEvent) : Json :=
  .obj [("seq", .int e.seq), ("operation", .str e.operation.text), ("slot_id", .int e.slotId)]

/-- The label field, which is left out where there is no label. -/
def ObservedOperation.labelFields (o : ObservedOperation) : List (String × Json) :=
  (o.queryEqualityClass.map fun label ↦ ("query_equality_class", Json.str label)).toList

def ObservedOperation.toDict (o : ObservedOperation) : Json :=
  .obj ([("index", .int o.index), ("class", .str o.operationClass.text),
    ("events", .arr (o.events.map ObservedEvent.toDict)), ("read_count", .int o.readCount),
    ("write_count", .int o.writeCount)] ++ o.labelFields)

def RunMetadata.toDict (m : RunMetadata) : Json :=
  .obj [("family", .str m.family), ("seed", .int m.seed),
    ("config", .obj [("block_capacity", .int m.blockCapacity), ("pgm_epsilon", .int m.pgmEpsilon)])]

def Summary.toDict (s : Summary) : Json :=
  .obj [("operation_count", .int s.operationCount), ("query_count", .int s.queryCount),
    ("merge_count", .int s.mergeCount), ("total_reads", .int s.totalReads),
    ("total_writes", .int s.totalWrites), ("distinct_slots", .int s.distinctSlots)]

def AdversaryTranscript.toDict (t : AdversaryTranscript) : Json :=
  .obj [("schema_version", .str t.schemaVersion),
    ("source_schema_version", .str t.sourceSchemaVersion),
    ("equality_channel", .str t.equalityChannel), ("run_metadata", t.runMetadata.toDict),
    ("operations", .arr (t.operations.map ObservedOperation.toDict)),
    ("summary", t.summary.toDict)]

end EnhancedLetIndex
