import EnhancedLetIndex.Basic.Bijection
import EnhancedLetIndex.Basic.Chunks
import EnhancedLetIndex.Basic.EState
import EnhancedLetIndex.Basic.SortedUnion
import EnhancedLetIndex.Pgm.Model

/-!
# The state of a trusted engine

The translation of `block.py`, `dataset.py`, `level.py`, `mapping.py`, `storage.py`,
`trace.py` and of the fields of `TrustedEngine`.  A Python `dict` is a finite map, an
exception an error that carries what the source puts into its message, and a method that
can change its object before it raises is a program over the object's state.
-/

namespace EnhancedLetIndex

variable {V : Type}

/-! ## Blocks -/

/-- `BlockInvariantError`. -/
inductive BlockError where
  | capacity (blockId : BlockId) (capacity : Nat)
  | size (blockId : BlockId) (size capacity : Nat)
  | keys (blockId : BlockId) (left right : RecordKey)
deriving DecidableEq, Repr

/-- The fields of a block object, whatever its state. -/
structure RawBlock (V : Type) where
  blockId : BlockId
  capacity : Nat
  records : List (Record V)
deriving DecidableEq, Repr

/-- Sorted by key, equal keys in their old order (`sorted(..., key=lambda r: r.key)`). -/
def sortRecords (records : List (Record V)) : List (Record V) :=
  records.insertionSort fun a b ↦ a.key ≤ b.key

namespace RawBlock

def size (b : RawBlock V) : Nat := b.records.length

def isEmpty (b : RawBlock V) : Bool := b.records.isEmpty

def isFull (b : RawBlock V) : Bool := b.size ≥ b.capacity

/-- `validate`. -/
def validate (b : RawBlock V) : Except BlockError Unit :=
  if b.capacity < 1 then .error (.capacity b.blockId b.capacity)
  else if b.size > b.capacity then .error (.size b.blockId b.size b.capacity)
  else match firstNotIncreasing (b.records.map (·.key)) with
    | some (left, right) => .error (.keys b.blockId left right)
    | none => .ok ()

/-- The invariants of a block. -/
structure Valid (b : RawBlock V) : Prop where
  capacity_pos : 0 < b.capacity
  size_le : b.size ≤ b.capacity
  sorted : SortedBy (·.key) b.records

/-- `validate` checks the invariants. -/
theorem validate_eq_ok {b : RawBlock V} : b.validate = .ok () ↔ b.Valid := by
  unfold validate
  split_ifs with hcap hsize
  · exact iff_of_false (by simp) fun h ↦ absurd h.capacity_pos (by omega)
  · exact iff_of_false (by simp) fun h ↦ absurd h.size_le (by omega)
  · cases hfirst : firstNotIncreasing (b.records.map (·.key)) with
    | some pair =>
      refine iff_of_false (by simp) fun h ↦ ?_
      rw [firstNotIncreasing_eq_none.mpr h.sorted.map_keys] at hfirst
      cases hfirst
    | none =>
      exact iff_of_true rfl ⟨by omega, by omega,
        SortedBy.of_map_keys (firstNotIncreasing_eq_none.mp hfirst)⟩

end RawBlock

/-- A logical block: a block object with its invariants. -/
structure Block (V : Type) extends RawBlock V where
  valid : toRawBlock.Valid
deriving DecidableEq

/-- `Block.sorted_block`: the records sorted, then checked by the constructor. -/
def Block.sortedBlock (blockId : BlockId) (records : List (Record V)) (capacity : Nat) :
    Except BlockError (Block V) :=
  let raw : RawBlock V := ⟨blockId, capacity, sortRecords records⟩
  match h : raw.validate with
  | .error err => .error err
  | .ok () => .ok ⟨raw, RawBlock.validate_eq_ok.mp h⟩

/-! ## Datasets -/

/-- `DuplicateKeyError`. -/
structure DuplicateKeyError where
  key : RecordKey
deriving DecidableEq, Repr

/-- The first key that the next record repeats. -/
def firstRepeated : List RecordKey → Option RecordKey
  | left :: right :: rest => if left = right then some left else firstRepeated (right :: rest)
  | _ => none

/-- `Dataset`: key-sorted, duplicate-free records. -/
structure Dataset (V : Type) where
  records : List (Record V)
  sorted : SortedBy (·.key) records

/-- Sorted keys none of which is repeated by the next one are strictly increasing. -/
theorem sortedBy_of_firstRepeated {records : List (Record V)}
    (h : firstRepeated ((sortRecords records).map (·.key)) = none) :
    SortedBy (·.key) (sortRecords records) := by
  have htotal : Std.Total fun a b : Record V ↦ a.key ≤ b.key := ⟨fun _ _ ↦ le_total _ _⟩
  have htrans : IsTrans (Record V) fun a b ↦ a.key ≤ b.key := ⟨fun _ _ _ ↦ le_trans⟩
  have hle : (sortRecords records).Pairwise fun a b ↦ a.key ≤ b.key :=
    List.pairwise_insertionSort _ _
  refine SortedBy.of_map_keys ?_
  rw [← List.pairwise_map (f := fun r : Record V ↦ r.key) (R := (· ≤ ·))] at hle
  generalize (sortRecords records).map (·.key) = keys at h hle
  rw [← List.isChain_iff_pairwise] at hle ⊢
  fun_induction firstRepeated keys with
  | case1 => cases h
  | case2 left right rest hne ih =>
    rw [List.isChain_cons_cons] at hle ⊢
    exact ⟨lt_of_le_of_ne hle.1 hne, ih h hle.2⟩
  | case3 keys hkeys =>
    rcases keys with _ | ⟨k, _ | ⟨k', keys⟩⟩
    · simp
    · simp
    · exact absurd rfl (hkeys k k' keys)

namespace Dataset

/-- `Dataset.from_records`. -/
def fromRecords (records : List (Record V)) : Except DuplicateKeyError (Dataset V) :=
  match h : firstRepeated ((sortRecords records).map (·.key)) with
  | some key => .error ⟨key⟩
  | none => .ok ⟨sortRecords records, sortedBy_of_firstRepeated h⟩

/-- `Dataset.partitions`, for a valid capacity. -/
def partitions (d : Dataset V) (blockCapacity : Nat) : List (List (Record V)) :=
  chunks blockCapacity d.records

end Dataset

/-! ## Levels -/

/-- `LevelError`: the block is already present. -/
structure LevelError where
  blockId : BlockId
  levelId : LevelId
deriving DecidableEq, Repr

/-- A logical level: its blocks in level order, none of them twice. -/
structure Level where
  levelId : LevelId
  blockIds : List BlockId
  nodup : blockIds.Nodup
deriving DecidableEq

namespace Level

/-- A new level without blocks. -/
def empty (levelId : LevelId) : Level := ⟨levelId, [], List.nodup_nil⟩

/-- `Level.add_block`. -/
def addBlock (l : Level) (blockId : BlockId) : Except LevelError Level :=
  if h : blockId ∈ l.blockIds then .error ⟨blockId, l.levelId⟩
  else .ok ⟨l.levelId, l.blockIds ++ [blockId], by
    rw [List.nodup_append]
    exact ⟨l.nodup, List.nodup_singleton _, by
      rintro a ha b hb rfl; exact h (List.mem_singleton.mp hb ▸ ha)⟩⟩

end Level

/-! ## The mapping -/

/-- `MappingError`. -/
inductive MappingError where
  | duplicateLogicalBlock (blockId : BlockId) (existing : SlotId)
  | duplicatePhysicalSlot (slotId : SlotId) (owner : BlockId)
  | missingLogicalBlock (blockId : BlockId)
  | bijectionSize (logical physical : Nat)
  | bijectionPair
deriving DecidableEq, Repr

/-- `LogicalPhysicalMapping`: the two dictionaries. -/
structure LogicalPhysicalMapping where
  logicalToPhysical : FinDict BlockId SlotId
  physicalToLogical : FinDict SlotId BlockId
deriving DecidableEq

namespace LogicalPhysicalMapping

def empty : LogicalPhysicalMapping := ⟨∅, ∅⟩

/-- `lookup`. -/
def lookup (m : LogicalPhysicalMapping) (blockId : BlockId) : Except MappingError SlotId :=
  match m.logicalToPhysical.lookup blockId with
  | some slot => .ok slot
  | none => .error (.missingLogicalBlock blockId)

/-- `slot_owner`. -/
def slotOwner (m : LogicalPhysicalMapping) (slotId : SlotId) : Option BlockId :=
  m.physicalToLogical.lookup slotId

/-- `validate_bijection`. -/
def validateBijection (m : LogicalPhysicalMapping) : Except MappingError Unit :=
  let logical := m.logicalToPhysical
  let physical := m.physicalToLogical
  if logical.keys.card ≠ physical.keys.card then
    .error (.bijectionSize logical.keys.card physical.keys.card)
  else if ∃ b ∈ logical.keys, (logical.lookup b).bind physical.lookup ≠ some b then
    .error .bijectionPair
  else .ok ()

/-- Both dictionaries with a new pair. -/
def insert (m : LogicalPhysicalMapping) (b : BlockId) (s : SlotId) : LogicalPhysicalMapping :=
  ⟨m.logicalToPhysical.insert b s, m.physicalToLogical.insert s b⟩

/-- Both dictionaries without a pair. -/
def erase (m : LogicalPhysicalMapping) (b : BlockId) (s : SlotId) : LogicalPhysicalMapping :=
  ⟨m.logicalToPhysical.erase b, m.physicalToLogical.erase s⟩

/-- Both dictionaries with a block moved to another slot. -/
def moved (m : LogicalPhysicalMapping) (b : BlockId) (old new : SlotId) :
    LogicalPhysicalMapping :=
  ⟨m.logicalToPhysical.insert b new, (m.physicalToLogical.erase old).insert new b⟩

/-- The last step of every mutation: the new dictionaries stay, valid or not. -/
def commit (m : LogicalPhysicalMapping) : EStateM MappingError LogicalPhysicalMapping Unit := do
  set m
  liftExcept id m.validateBijection

/-- `assign`. -/
def assign (blockId : BlockId) (slotId : SlotId) :
    EStateM MappingError LogicalPhysicalMapping Unit := do
  let m ← get
  match m.logicalToPhysical.lookup blockId with
  | some existing =>
    if existing = slotId then pure () else throw (.duplicateLogicalBlock blockId existing)
  | none =>
    match m.physicalToLogical.lookup slotId with
    | some owner => throw (.duplicatePhysicalSlot slotId owner)
    | none => commit (m.insert blockId slotId)

/-- `move`. -/
def move (blockId : BlockId) (newSlot : SlotId) :
    EStateM MappingError LogicalPhysicalMapping Unit := do
  let m ← get
  let oldSlot ← liftExcept id (m.lookup blockId)
  if oldSlot = newSlot then pure ()
  else
    match m.physicalToLogical.lookup newSlot with
    | some owner => throw (.duplicatePhysicalSlot newSlot owner)
    | none => commit (m.moved blockId oldSlot newSlot)

/-- `unassign`. -/
def unassign (blockId : BlockId) : EStateM MappingError LogicalPhysicalMapping SlotId := do
  let m ← get
  let slotId ← liftExcept id (m.lookup blockId)
  commit (m.erase blockId slotId)
  pure slotId

end LogicalPhysicalMapping

/-! ## The storage and its trace -/

inductive TraceOperation where
  | read
  | write
deriving DecidableEq, Repr

/-- One observed storage operation.  The engine never passes a level hint or metadata. -/
structure TraceEvent where
  seq : Nat
  operation : TraceOperation
  slotId : SlotId
deriving DecidableEq, Repr

/-- `StorageError` and `StorageConsistencyError`. -/
inductive StorageError where
  | slotEmpty (slotId : SlotId)
  | notOccupied (slotId : SlotId)
  | occupiedUnmapped (slotId : SlotId)
  | wrongBlock (slotId : SlotId) (held expected : BlockId)
deriving DecidableEq, Repr

/-- `UntrustedStorage`. -/
structure UntrustedStorage (V : Type) where
  trace : List TraceEvent
  slots : FinDict SlotId (Block V)
  nextFreeSlot : Int
deriving DecidableEq

namespace UntrustedStorage

def empty : UntrustedStorage V := ⟨[], ∅, 0⟩

/-- `TraceCollector.record`. -/
def record (s : UntrustedStorage V) (operation : TraceOperation) (slotId : SlotId) :
    UntrustedStorage V :=
  { s with trace := s.trace ++ [⟨s.trace.length, operation, slotId⟩] }

/-- `allocate`. -/
def allocate : EStateM StorageError (UntrustedStorage V) SlotId := do
  let s ← get
  set { s with nextFreeSlot := s.nextFreeSlot + 1 }
  pure ⟨s.nextFreeSlot⟩

/-- `write`. -/
def write (slotId : SlotId) (block : Block V) :
    EStateM StorageError (UntrustedStorage V) Unit := do
  modify fun s ↦ s.record .write slotId
  modify fun s ↦ { s with slots := s.slots.insert slotId block }

/-- `store`. -/
def store (block : Block V) : EStateM StorageError (UntrustedStorage V) SlotId := do
  let slot ← allocate
  write slot block
  pure slot

/-- `read`: the event is recorded also when the slot is empty. -/
def read (slotId : SlotId) : EStateM StorageError (UntrustedStorage V) (Block V) := do
  modify fun s ↦ s.record .read slotId
  let s ← get
  match s.slots.lookup slotId with
  | some block => pure block
  | none => throw (.slotEmpty slotId)

/-- `clear`. -/
def clear (slotId : SlotId) : EStateM StorageError (UntrustedStorage V) Unit := do
  let s ← get
  if slotId ∈ s.slots then
    modify fun s ↦ s.record .write slotId
    modify fun s ↦ { s with slots := s.slots.erase slotId }
  else throw (.notOccupied slotId)

end UntrustedStorage

/-! ## The engine -/

/-- The operational part of `Config`, with the checks of its constructor in the types. -/
structure Config where
  blockCapacity : Nat
  pgmEpsilon : Option Nat
  blockCapacity_pos : 0 < blockCapacity
deriving DecidableEq

/-- `TrustedEngine`. -/
structure Engine (V : Type) where
  config : Config
  mapping : LogicalPhysicalMapping
  storage : UntrustedStorage V
  levels : FinDict LevelId Level
  pgmIndexes : FinDict LevelId BatchPgmIndex
  retiredLevelIds : Finset LevelId
  nextBlockId : Int
  nextLevelId : Int

/-- `TrustedEngine.__init__`. -/
def Engine.init (config : Config) : Engine V where
  config := config
  mapping := LogicalPhysicalMapping.empty
  storage := UntrustedStorage.empty
  levels := ∅
  pgmIndexes := ∅
  retiredLevelIds := ∅
  nextBlockId := 0
  nextLevelId := 0

end EnhancedLetIndex
