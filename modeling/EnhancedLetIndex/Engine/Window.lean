import EnhancedLetIndex.Engine.Session

/-!
# Trace windows

Clearing the trace starts a new window.  Nothing that the engine does depends on the events
before (`Serves.clearTrace`), and within a window the events count up from 0
(`sequenced_window`).
-/

namespace EnhancedLetIndex

variable {V : Type}

namespace Engine

/-- The events of the storage thrown away (`trace.clear`). -/
def clearTrace (e : Engine V) : Engine V := { e with storage := { e.storage with trace := [] } }

variable {e e' : Engine V}

@[simp] theorem clearTrace_clearTrace (e : Engine V) : e.clearTrace.clearTrace = e.clearTrace := rfl

@[simp] theorem clearTrace_afterReads (e : Engine V) (slots : List SlotId) :
    (e.afterReads slots).clearTrace = e.clearTrace := by
  simp only [clearTrace, afterReads, UntrustedStorage.recordAll_slots,
    UntrustedStorage.recordAll_nextFreeSlot]

theorem ReadsOnly.clearTrace (h : ReadsOnly e e') : e'.clearTrace = e.clearTrace := by
  obtain ⟨slots, rfl⟩ := h
  exact clearTrace_afterReads e slots

/-! ## What does not depend on the trace -/

theorem WellFormed.clearTrace (h : e.WellFormed) : e.clearTrace.WellFormed where
  toCoherent := h.toCoherent.of_eq rfl rfl le_rfl
  toExclusive := h.toExclusive.of_eq rfl fun _ hb ↦ hb
  slots_lt := h.slots_lt
  levels_lt := h.levels_lt
  retired_lt := h.retired_lt
  pgm_lt := h.pgm_lt

theorem Queryable.clearTrace (h : e.Queryable) : e.clearTrace.Queryable where
  bijective := h.bijective
  occupied := h.occupied
  canonical := h.canonical
  pgm := h.pgm

theorem Serves.clearTrace {config : Config} {plan : List LevelId}
    {batches : List (List (Record V))} (h : Serves config e plan batches) :
    Serves config e.clearTrace plan batches where
  wellFormed := h.wellFormed.clearTrace
  config := h.config
  nodup := h.nodup
  active := h.active
  not_retired := h.not_retired
  queryable := h.queryable.clearTrace
  answers := h.answers

/-! ## The events of a window -/

/-- The events of a window count up from 0, under a configuration. -/
def Sequenced (config : Config) (e : Engine V) : Prop :=
  e.config = config ∧ e.storage.trace.map (·.seq) = List.range e.storage.trace.length

theorem sequenced_clearTrace (e : Engine V) : e.clearTrace.Sequenced e.config := ⟨rfl, rfl⟩

/-- A program of the storage keeps the events counting up. -/
def KeepsCount (s s' : UntrustedStorage V) : Prop :=
  s.trace.map (·.seq) = List.range s.trace.length →
    s'.trace.map (·.seq) = List.range s'.trace.length

namespace KeepsCount

theorem refl (s : UntrustedStorage V) : KeepsCount s s := id

theorem trans (s s' s'' : UntrustedStorage V) (h : KeepsCount s s') (h' : KeepsCount s' s'') :
    KeepsCount s s'' := h' ∘ h

theorem record (s : UntrustedStorage V) (operation : TraceOperation) (slot : SlotId) :
    KeepsCount s (s.record operation slot) := by
  intro h
  simp only [UntrustedStorage.record, List.map_append, List.map_singleton, List.length_append,
    List.length_singleton, h]
  exact List.range_succ.symm

theorem recordAll (s : UntrustedStorage V) (operation : TraceOperation) (slots : List SlotId) :
    KeepsCount s (s.recordAll operation slots) := by
  induction slots generalizing s with
  | nil => exact refl s
  | cons slot slots ih => exact trans _ _ _ (record s operation slot) (ih _)

theorem write (slot : SlotId) (block : Block V) :
    Along KeepsCount (UntrustedStorage.write slot block) :=
  Along.bind trans (fun s ↦ record s .write slot) fun _ _ h ↦ h

theorem store (block : Block V) : Along KeepsCount (UntrustedStorage.store block) := by
  have hallocate : Along KeepsCount
      (UntrustedStorage.allocate : EStateM StorageError (UntrustedStorage V) SlotId) := fun _ h ↦ h
  exact hallocate.bind trans fun slot ↦ (write slot block).bind trans fun _ ↦ Along.pure refl slot

theorem clear (slot : SlotId) : Along KeepsCount
    (UntrustedStorage.clear slot : EStateM StorageError (UntrustedStorage V) Unit) := by
  refine (Along.get refl).bind trans fun s ↦ Along.ite ?_ (Along.throw refl _)
  exact Along.bind trans (fun s ↦ record s .write slot) fun _ _ h ↦ h

end KeepsCount

variable {config : Config}

theorem sequenced_onStorage {α : Type} {x : EStateM StorageError (UntrustedStorage V) α}
    (hx : Along KeepsCount x) : Along (Keeps (Sequenced config)) (onStorage x) :=
  Along.zoom fun e h ↦ ⟨h.1, hx e.storage h.2⟩

theorem sequenced_onMapping {α : Type} {x : EStateM MappingError LogicalPhysicalMapping α} :
    Along (Keeps (Sequenced config)) (onMapping x : EngineM V α) :=
  Along.zoom fun _ h ↦ h

theorem ReadsOnly.keeps_sequenced (h : ReadsOnly e e') : Keeps (Sequenced config) e e' := by
  obtain ⟨slots, rfl⟩ := h
  exact fun h ↦ ⟨h.1, KeepsCount.recordAll e.storage .read slots h.2⟩

theorem sequenced_of_readsOnly {α : Type} {x : EngineM V α} (hx : Along ReadsOnly x) :
    Along (Keeps (Sequenced config)) x := fun e ↦ (hx e).keeps_sequenced

theorem sequenced_addBlockToLevel {l : LevelId} {b : BlockId} :
    Along (Keeps (Sequenced config)) (addBlockToLevel l b : EngineM V Unit) := by
  refine (sequenced_of_readsOnly along_level).bind Keeps.trans fun L ↦ ?_
  refine (Along.liftExcept Keeps.refl _ _).bind Keeps.trans fun L' ↦ ?_
  exact Along.bind Keeps.trans (fun _ h ↦ h) fun _ _ h ↦ h

theorem sequenced_createBlock {records : List (Record V)} {l : Option LevelId} :
    Along (Keeps (Sequenced config)) (createBlock records l) := by
  refine Along.bind Keeps.trans (fun _ h ↦ h) fun b ↦ ?_
  refine (Along.get Keeps.refl).bind Keeps.trans fun e ↦ ?_
  refine (Along.liftExcept Keeps.refl _ _).bind Keeps.trans fun block ↦ ?_
  refine (sequenced_onStorage (KeepsCount.store block)).bind Keeps.trans fun slot ↦ ?_
  refine sequenced_onMapping.bind Keeps.trans fun _ ↦ ?_
  cases l with
  | none => exact Along.bind Keeps.trans (Along.pure Keeps.refl _) fun _ ↦ Along.pure Keeps.refl _
  | some l => exact sequenced_addBlockToLevel.bind Keeps.trans fun _ ↦ Along.pure Keeps.refl _

theorem sequenced_relocateBlock {b : BlockId} {s : SlotId} :
    Along (Keeps (Sequenced config)) (relocateBlock b s : EngineM V Unit) := by
  refine (sequenced_of_readsOnly along_physicalSlot).bind Keeps.trans fun old ↦ ?_
  refine Along.ite (Along.pure Keeps.refl _) ?_
  refine (Along.get Keeps.refl).bind Keeps.trans fun e ↦ ?_
  split
  · exact Along.throw Keeps.refl _
  refine Along.ite (Along.throw Keeps.refl _) ?_
  refine (sequenced_of_readsOnly along_storageRead).bind Keeps.trans fun block ↦ ?_
  refine Along.ite (Along.throw Keeps.refl _) ?_
  refine (sequenced_onStorage (KeepsCount.write s block)).bind Keeps.trans fun _ ↦ ?_
  exact sequenced_onMapping.bind Keeps.trans fun _ ↦ sequenced_onStorage (KeepsCount.clear old)

theorem sequenced_buildLevelPgm {l : LevelId} :
    Along (Keeps (Sequenced config)) (buildLevelPgm l : EngineM V BatchPgmIndex) := by
  refine (Along.get Keeps.refl).bind Keeps.trans fun e ↦ ?_
  split
  · exact Along.throw Keeps.refl _
  refine (sequenced_of_readsOnly along_level).bind Keeps.trans fun L ↦ ?_
  refine (sequenced_of_readsOnly along_pgmKeys).bind Keeps.trans fun keys ↦ ?_
  refine (Along.liftExcept Keeps.refl _ _).bind Keeps.trans fun index ↦ ?_
  exact Along.bind Keeps.trans (fun _ h ↦ h) fun _ ↦ Along.pure Keeps.refl _

theorem sequenced_retireBlocks (bs : List BlockId) :
    Along (Keeps (Sequenced config)) (retireBlocks bs : EngineM V Unit) := by
  induction bs with
  | nil => exact Along.pure Keeps.refl _
  | cons b bs ih =>
    refine (sequenced_of_readsOnly along_physicalSlot).bind Keeps.trans fun slot ↦ ?_
    refine (sequenced_onStorage (KeepsCount.clear slot)).bind Keeps.trans fun _ ↦ ?_
    exact sequenced_onMapping.bind Keeps.trans fun _ ↦ ih

theorem sequenced_retireLevel {l : LevelId} :
    Along (Keeps (Sequenced config)) (retireLevel l : EngineM V Nat) := by
  refine (sequenced_of_readsOnly along_level).bind Keeps.trans fun L ↦ ?_
  refine (sequenced_retireBlocks L.blockIds).bind Keeps.trans fun _ ↦ ?_
  exact Along.bind Keeps.trans (fun _ h ↦ h) fun _ ↦ Along.pure Keeps.refl _

theorem stable_sequenced : Stable (Sequenced config : Engine V → Prop) where
  readsOnly _ _ hr := hr.keeps_sequenced
  createLevel _ h := h
  createBlock _ _ := sequenced_createBlock
  relocateBlock _ _ := sequenced_relocateBlock
  buildLevelPgm _ := sequenced_buildLevelPgm
  retireLevel _ := sequenced_retireLevel

/-- In the window of an operation the events count up from 0. -/
theorem sequenced_window (e : Engine V) (op : EngineOp V) :
    (e.clearTrace.after op).Sequenced e.config := by
  refine stable_sequenced.after (sequenced_clearTrace e) op ?_
  rintro l b rfl
  exact sequenced_addBlockToLevel _ (sequenced_clearTrace e)

end Engine

end EnhancedLetIndex
