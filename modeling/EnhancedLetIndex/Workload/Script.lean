import EnhancedLetIndex.Basic.Dict
import EnhancedLetIndex.Engine.Validate
import EnhancedLetIndex.Engine.Window
import EnhancedLetIndex.Transcript.Schema

/-!
# Workload scripts and the logical oracle

`WorkloadOperation`, `WorkloadScript` and `LogicalOracle` of `workload.py`.  A script names its
levels by references of its own.  The oracle keeps one dictionary for each of them, the newest
level first, and knows nothing of blocks.
-/

namespace EnhancedLetIndex

/-- `ConfigError`. -/
inductive ConfigError where
  | blockCapacity (capacity : Int)
  | pgmEpsilon (epsilon : Int)
deriving DecidableEq, Repr

/-- `Config`, with the checks of its constructor. -/
def Config.make (blockCapacity pgmEpsilon : Int) : Except ConfigError Config :=
  if h : 1 ≤ blockCapacity then
    if 0 ≤ pgmEpsilon then .ok ⟨blockCapacity.toNat, some pgmEpsilon.toNat, by omega⟩
    else .error (.pgmEpsilon pgmEpsilon)
  else .error (.blockCapacity blockCapacity)

/-- What a run of a script raises: `WorkloadError`, by the check that raises it, and the errors of
what it calls. -/
inductive WorkloadError where
  | oracleHolds (ref : String)
  | oracleNotAdjacent (newerRef olderRef : String) (newerIndex olderIndex : Nat)
  | oracleMissing (ref : String)
  | noLevelRef (ref : Option String)
  | unknownKind (kind : String)
  | mergeUntracked
  | mergeNotLive (newerRef olderRef : String)
  | mergeSame
  | mergeNotAdjacent (newerRef olderRef : String) (newerIndex olderIndex : Nat)
  | noPgm (ref : String)
  | config (e : ConfigError)
  | engine (e : EngineError)
  | validation (e : ValidationError)
  | mapping (e : MappingError)
  /-- The `KeyError` of a dictionary. -/
  | key
  /-- The `IndexError` of a tuple. -/
  | index
  /-- The `ValueError` of `tuple.index`. -/
  | value
deriving DecidableEq, Repr

/-! ## Scripts -/

/-- `WorkloadOperation`. -/
structure WorkloadOperation where
  index : Int
  kind : String
  keys : List Int := []
  values : List String := []
  ref : Option String := none
  levelRef : Option String := none
  newerRef : Option String := none
  olderRef : Option String := none
  note : String := ""
deriving DecidableEq, Repr

/-- `WorkloadScript`. -/
structure WorkloadScript where
  family : String
  seed : Int
  capacity : Int
  epsilon : Int
  operations : List WorkloadOperation
  description : String := ""
deriving DecidableEq, Repr

namespace WorkloadOperation

/-- The kind of an operation: one of `OPERATION_KINDS`, or none of them. -/
def operationClass (op : WorkloadOperation) : Option OperationClass := OperationClass.ofText op.kind

/-- The records of a batch. -/
def records (op : WorkloadOperation) : List (Record String) :=
  (op.keys.zip op.values).map fun entry ↦ { key := ⟨entry.1⟩, value := entry.2 }

/-- The operation publishes a level, under its own reference or the next one. -/
def Binds (op : WorkloadOperation) : Prop :=
  op.operationClass ∈ [some .buildInitial, some .upsert, some .merge]

instance (op : WorkloadOperation) : Decidable op.Binds := inferInstanceAs (Decidable (_ ∈ _))

/-- The reference of the level that the operation publishes as number `n`. -/
def boundRef (op : WorkloadOperation) (n : Nat) : String := op.ref.getD ("L" ++ Nat.repr n)

/-- `None` or a text. -/
def optional (text : Option String) : Json := (text.map Json.str).getD .null

/-- `to_dict`. -/
def toDict (op : WorkloadOperation) : Json :=
  .obj [("index", .int op.index), ("kind", .str op.kind), ("keys", .arr (op.keys.map .int)),
    ("values", .arr (op.values.map .str)), ("ref", optional op.ref),
    ("level_ref", optional op.levelRef), ("newer_ref", optional op.newerRef),
    ("older_ref", optional op.olderRef), ("note", .str op.note)]

end WorkloadOperation

namespace WorkloadScript

/-- `to_dict`. -/
def toDict (script : WorkloadScript) : Json :=
  .obj [("family", .str script.family), ("seed", .int script.seed),
    ("capacity", .int script.capacity), ("epsilon", .int script.epsilon),
    ("description", .str script.description),
    ("operations", .arr (script.operations.map (·.toDict)))]

/-- `operation_counts`. -/
def operationCount (script : WorkloadScript) (kind : OperationClass) : Nat :=
  script.operations.countP (·.kind = kind.text)

/-- The references of the levels that some operations publish, `n` having been published. -/
def boundRefs : Nat → List WorkloadOperation → List String
  | _, [] => []
  | n, op :: ops =>
    if op.Binds then op.boundRef n :: boundRefs (n + 1) ops else boundRefs n ops

/-- Every level has a reference of its own. -/
def FreshRefs (script : WorkloadScript) : Prop := (boundRefs 0 script.operations).Nodup

end WorkloadScript

/-! ## The oracle -/

/-- `{r.key.value: r.value for r in records}`. -/
def contentsOf (records : List (Record String)) : FinDict Int String :=
  dictOf (·.key.value) (·.value) records

/-- `LogicalOracle`: the contents of every level under its reference, the newest first. -/
structure LogicalOracle where
  levels : List (String × FinDict Int String)
  retired : List String

namespace LogicalOracle

def empty : LogicalOracle := ⟨[], []⟩

variable (o : LogicalOracle)

/-- `refs`. -/
def refs : List String := o.levels.map Prod.fst

/-- `add_newest`. -/
def addNewest (ref : String) (contents : FinDict Int String) : Except WorkloadError LogicalOracle :=
  if ref ∈ o.refs then .error (.oracleHolds ref)
  else .ok { o with levels := (ref, contents) :: o.levels }

/-- `refs.index`. -/
def indexOf (ref : String) : Except WorkloadError Nat :=
  match o.refs.idxOf? ref with
  | some i => .ok i
  | none => .error .value

/-- `merge`: the union, whose entries are the newer ones, takes the place of both. -/
def merge (newerRef olderRef outputRef : String) : Except WorkloadError LogicalOracle := do
  let newerIndex ← o.indexOf newerRef
  let olderIndex ← o.indexOf olderRef
  require (olderIndex = newerIndex + 1)
    (.oracleNotAdjacent newerRef olderRef newerIndex olderIndex)
  match o.levels.drop newerIndex with
  | (_, newer) :: (_, older) :: post =>
    .ok ⟨o.levels.take newerIndex ++ (outputRef, newer ∪ older) :: post,
      o.retired ++ [newerRef, olderRef]⟩
  | _ => .error .index

/-- `contents`. -/
def contents (ref : String) : Except WorkloadError (FinDict Int String) :=
  match o.levels.lookup ref with
  | some contents => .ok contents
  | none => .error (.oracleMissing ref)

/-- `record_count`. -/
def recordCount : Nat := (o.levels.map (·.2.keys.card)).sum

/-- `query`. -/
def query (key : Int) : Option String := o.levels.findSome? (·.2.lookup key)

/-- The levels that a search for a key passes. -/
def searched (key : Int) : List (String × FinDict Int String) → List (String × FinDict Int String)
  | [] => []
  | level :: rest => if key ∈ level.2 then [level] else level :: searched key rest

/-- `searched_refs`. -/
def searchedRefs (key : Int) : List String := (searched key o.levels).map Prod.fst

variable {o : LogicalOracle} {ref : String}

/-- A search passes levels that there are. -/
theorem searched_subset (key : Int) (levels : List (String × FinDict Int String)) :
    searched key levels ⊆ levels := by
  induction levels with
  | nil => exact List.Subset.refl _
  | cons level levels ih =>
    rw [searched]
    split_ifs
    · exact List.cons_subset_cons _ (List.nil_subset _)
    · exact List.cons_subset_cons _ ih

theorem exists_contents (h : ref ∈ o.refs) : ∃ contents, o.contents ref = .ok contents := by
  obtain ⟨level, hlevel, rfl⟩ := List.mem_map.mp h
  have hsome : (o.levels.lookup level.1).isSome :=
    List.lookup_isSome_iff.mpr ⟨level, hlevel, beq_self_eq_true _⟩
  obtain ⟨entries, hentries⟩ := Option.isSome_iff_exists.mp hsome
  refine ⟨entries, ?_⟩
  rw [contents, hentries]

end LogicalOracle

end EnhancedLetIndex
