import EnhancedLetIndex.Engine.Ops

/-!
# What each operation does to the state

One lemma for each operation says which state it ends in.  `afterReads` is a state that
differs from another by recorded reads only, `put` the state after a block has been stored
and mapped, `overwrite` the state in which it has been stored only, `drop` the state after
a block has been cleared and unmapped.

`Coherent` is the part of the invariant that these need: the two dictionaries of the mapping
are inverse to each other, the occupied slots are the mapped ones, and the block counter is
past every mapped block.
-/

namespace EnhancedLetIndex

variable {V : Type}

/-! ## The trace -/

namespace UntrustedStorage

/-- The same operation on several slots. -/
def recordAll (s : UntrustedStorage V) (operation : TraceOperation) (slots : List SlotId) :
    UntrustedStorage V :=
  slots.foldl (fun s slot ↦ s.record operation slot) s

/-- The observed operations, without their sequence numbers. -/
def observed (s : UntrustedStorage V) : List (TraceOperation × SlotId) :=
  s.trace.map fun event ↦ (event.operation, event.slotId)

@[simp] theorem record_slots (s : UntrustedStorage V) (op : TraceOperation) (slot : SlotId) :
    (s.record op slot).slots = s.slots := rfl

@[simp] theorem record_nextFreeSlot (s : UntrustedStorage V) (op : TraceOperation)
    (slot : SlotId) : (s.record op slot).nextFreeSlot = s.nextFreeSlot := rfl

@[simp] theorem record_observed (s : UntrustedStorage V) (op : TraceOperation) (slot : SlotId) :
    (s.record op slot).observed = s.observed ++ [(op, slot)] := by
  simp [observed, record]

@[simp] theorem recordAll_nil (s : UntrustedStorage V) (op : TraceOperation) :
    s.recordAll op [] = s := rfl

theorem recordAll_cons (s : UntrustedStorage V) (op : TraceOperation) (slot : SlotId)
    (slots : List SlotId) :
    s.recordAll op (slot :: slots) = (s.record op slot).recordAll op slots := rfl

theorem recordAll_append (s : UntrustedStorage V) (op : TraceOperation) (xs ys : List SlotId) :
    s.recordAll op (xs ++ ys) = (s.recordAll op xs).recordAll op ys := List.foldl_append

@[simp] theorem recordAll_slots (s : UntrustedStorage V) (op : TraceOperation)
    (slots : List SlotId) : (s.recordAll op slots).slots = s.slots := by
  induction slots generalizing s with
  | nil => rfl
  | cons slot slots ih => rw [recordAll_cons, ih, record_slots]

@[simp] theorem recordAll_nextFreeSlot (s : UntrustedStorage V) (op : TraceOperation)
    (slots : List SlotId) : (s.recordAll op slots).nextFreeSlot = s.nextFreeSlot := by
  induction slots generalizing s with
  | nil => rfl
  | cons slot slots ih => rw [recordAll_cons, ih, record_nextFreeSlot]

@[simp] theorem recordAll_observed (s : UntrustedStorage V) (op : TraceOperation)
    (slots : List SlotId) : (s.recordAll op slots).observed = s.observed ++ slots.map (op, ·) := by
  induction slots generalizing s with
  | nil => simp
  | cons slot slots ih => rw [recordAll_cons, ih, record_observed]; simp

end UntrustedStorage

/-! ## The mapping -/

namespace LogicalPhysicalMapping

/-- The two dictionaries are inverse to each other. -/
def Bijective (m : LogicalPhysicalMapping) : Prop :=
  Inverse m.logicalToPhysical m.physicalToLogical

variable {m : LogicalPhysicalMapping} {b : BlockId} {s : SlotId}

theorem Bijective.validate (h : m.Bijective) : m.validateBijection = .ok () := by
  have hpair : ¬ ∃ b ∈ m.logicalToPhysical.keys,
      (m.logicalToPhysical.lookup b).bind m.physicalToLogical.lookup ≠ some b := by
    rintro ⟨b, hb, hne⟩
    obtain ⟨s, hs⟩ := Finmap.mem_iff.mp (Finmap.mem_keys.mp hb)
    rw [hs] at hne
    exact hne ((h b s).mp hs)
  rw [validateBijection, if_neg (not_not.mpr (Inverse.card_eq h)), if_neg hpair]

/-- A bijection is determined by one of its dictionaries. -/
theorem Bijective.ext {m' : LogicalPhysicalMapping} (h : m.Bijective) (h' : m'.Bijective)
    (heq : m.logicalToPhysical = m'.logicalToPhysical) : m = m' := by
  have hinverse : m.physicalToLogical = m'.physicalToLogical :=
    Inverse.unique h (heq.symm ▸ h' : Inverse m.logicalToPhysical m'.physicalToLogical)
  cases m
  cases m'
  cases heq
  cases hinverse
  rfl

theorem run_commit {m' : LogicalPhysicalMapping} (h : m'.Bijective) :
    (commit m').run m = .ok () m' := by
  rw [commit, EStateM.run_bind, EStateM.run_set, h.validate]
  rfl

theorem Bijective.insert (h : m.Bijective) (hb : b ∉ m.logicalToPhysical)
    (hs : s ∉ m.physicalToLogical) : (m.insert b s).Bijective := Inverse.insert h hb hs

theorem Bijective.erase (h : m.Bijective) (hb : m.logicalToPhysical.lookup b = some s) :
    (m.erase b s).Bijective := Inverse.erase h hb

theorem run_assign_fresh (h : m.Bijective) (hb : b ∉ m.logicalToPhysical)
    (hs : s ∉ m.physicalToLogical) : (assign b s).run m = .ok () (m.insert b s) := by
  simp only [assign, EStateM.run_bind, EStateM.run_get, Finmap.lookup_eq_none.mpr hb,
    Finmap.lookup_eq_none.mpr hs]
  exact run_commit (h.insert hb hs)

theorem run_assign_taken (hb : b ∉ m.logicalToPhysical) {owner : BlockId}
    (hs : m.physicalToLogical.lookup s = some owner) :
    (assign b s).run m = .error (.duplicatePhysicalSlot s owner) m := by
  simp only [assign, EStateM.run_bind, EStateM.run_get, Finmap.lookup_eq_none.mpr hb, hs,
    run_throw']

theorem lookup_of_mapped (hb : m.logicalToPhysical.lookup b = some s) : m.lookup b = .ok s := by
  rw [lookup, hb]

theorem lookup_of_unmapped (hb : b ∉ m.logicalToPhysical) :
    m.lookup b = .error (.missingLogicalBlock b) := by
  rw [lookup, Finmap.lookup_eq_none.mpr hb]

theorem run_unassign (h : m.Bijective) (hb : m.logicalToPhysical.lookup b = some s) :
    (unassign b).run m = .ok s (m.erase b s) := by
  simp only [unassign, EStateM.run_bind, EStateM.run_get, lookup_of_mapped hb,
    run_liftExcept_ok]
  rw [run_commit (h.erase hb)]
  rfl

theorem Bijective.moved (h : m.Bijective) {new : SlotId}
    (hb : m.logicalToPhysical.lookup b = some s) (hnew : new ∉ m.physicalToLogical) :
    (m.moved b s new).Bijective := by
  have herase := (Inverse.erase h hb).insert (a := b) (b := new) Finmap.notMem_erase_self
    (fun hmem ↦ hnew (Finmap.mem_erase.mp hmem).2)
  intro b' s'
  refine Iff.trans ?_ (herase b' s')
  change (m.logicalToPhysical.insert b new).lookup b' = some s' ↔ _
  by_cases hbb : b' = b
  · subst hbb; rw [Finmap.lookup_insert, Finmap.lookup_insert]
  · rw [Finmap.lookup_insert_of_ne _ hbb, Finmap.lookup_insert_of_ne _ hbb,
      Finmap.lookup_erase_ne hbb]

theorem run_move (h : m.Bijective) {new : SlotId} (hb : m.logicalToPhysical.lookup b = some s)
    (hne : s ≠ new) (hnew : new ∉ m.physicalToLogical) :
    (move b new).run m = .ok () (m.moved b s new) := by
  simp only [move, EStateM.run_bind, EStateM.run_get, lookup_of_mapped hb, run_liftExcept_ok,
    if_neg hne, Finmap.lookup_eq_none.mpr hnew]
  exact run_commit (h.moved hb hnew)

end LogicalPhysicalMapping

/-! ## The engine -/

namespace Engine

variable {e : Engine V} {b : BlockId} {s : SlotId}

/-- What `read_block` returns, when it returns. -/
def blockAt (e : Engine V) (b : BlockId) : Option (Block V) :=
  (e.mapping.logicalToPhysical.lookup b).bind e.storage.slots.lookup

/-- The state after some reads. -/
def afterReads (e : Engine V) (slots : List SlotId) : Engine V :=
  { e with storage := e.storage.recordAll .read slots }

@[simp] theorem afterReads_nil (e : Engine V) : e.afterReads [] = e := rfl

theorem afterReads_append (e : Engine V) (xs ys : List SlotId) :
    (e.afterReads xs).afterReads ys = e.afterReads (xs ++ ys) := by
  simp only [afterReads, UntrustedStorage.recordAll_append]

@[simp] theorem afterReads_config (e : Engine V) (xs : List SlotId) :
    (e.afterReads xs).config = e.config := rfl
@[simp] theorem afterReads_mapping (e : Engine V) (xs : List SlotId) :
    (e.afterReads xs).mapping = e.mapping := rfl
@[simp] theorem afterReads_levels (e : Engine V) (xs : List SlotId) :
    (e.afterReads xs).levels = e.levels := rfl
@[simp] theorem afterReads_pgmIndexes (e : Engine V) (xs : List SlotId) :
    (e.afterReads xs).pgmIndexes = e.pgmIndexes := rfl
@[simp] theorem afterReads_retiredLevelIds (e : Engine V) (xs : List SlotId) :
    (e.afterReads xs).retiredLevelIds = e.retiredLevelIds := rfl
@[simp] theorem afterReads_nextBlockId (e : Engine V) (xs : List SlotId) :
    (e.afterReads xs).nextBlockId = e.nextBlockId := rfl
@[simp] theorem afterReads_nextLevelId (e : Engine V) (xs : List SlotId) :
    (e.afterReads xs).nextLevelId = e.nextLevelId := rfl
@[simp] theorem afterReads_slots (e : Engine V) (xs : List SlotId) :
    (e.afterReads xs).storage.slots = e.storage.slots := UntrustedStorage.recordAll_slots _ _ _
@[simp] theorem afterReads_nextFreeSlot (e : Engine V) (xs : List SlotId) :
    (e.afterReads xs).storage.nextFreeSlot = e.storage.nextFreeSlot :=
  UntrustedStorage.recordAll_nextFreeSlot _ _ _
@[simp] theorem afterReads_blockAt (e : Engine V) (xs : List SlotId) (b : BlockId) :
    (e.afterReads xs).blockAt b = e.blockAt b := by simp [blockAt]

/-- The two states differ by recorded reads only. -/
def ReadsOnly (e e' : Engine V) : Prop := ∃ slots, e' = e.afterReads slots

theorem ReadsOnly.refl (e : Engine V) : ReadsOnly e e := ⟨[], rfl⟩

theorem ReadsOnly.trans (e e' e'' : Engine V) (h : ReadsOnly e e') (h' : ReadsOnly e' e'') :
    ReadsOnly e e'' := by
  obtain ⟨xs, rfl⟩ := h
  obtain ⟨ys, rfl⟩ := h'
  exact ⟨xs ++ ys, afterReads_append e xs ys⟩

/-! ### Reading -/

theorem run_physicalSlot_of_mapped (hb : e.mapping.logicalToPhysical.lookup b = some s) :
    (physicalSlot b).run e = .ok s e := by
  simp only [physicalSlot, EStateM.run_bind, EStateM.run_get,
    LogicalPhysicalMapping.lookup_of_mapped hb, run_liftExcept_ok]

theorem run_physicalSlot_of_unmapped (hb : b ∉ e.mapping.logicalToPhysical) :
    (physicalSlot b).run e = .error (.mapping (.missingLogicalBlock b)) e := by
  simp only [physicalSlot, EStateM.run_bind, EStateM.run_get,
    LogicalPhysicalMapping.lookup_of_unmapped hb, run_liftExcept_error]

theorem along_physicalSlot : Along ReadsOnly (physicalSlot b : EngineM V SlotId) := by
  intro e
  by_cases hb : b ∈ e.mapping.logicalToPhysical
  · obtain ⟨s, hs⟩ := Finmap.mem_iff.mp hb
    rw [run_physicalSlot_of_mapped hs]
    exact ReadsOnly.refl e
  · rw [run_physicalSlot_of_unmapped hb]
    exact ReadsOnly.refl e

theorem run_storageRead {blk : Block V} (h : e.storage.slots.lookup s = some blk) :
    (onStorage (UntrustedStorage.read s)).run e = .ok blk (e.afterReads [s]) := by
  refine run_zoom_of_ok ?_
  simp only [UntrustedStorage.read, EStateM.run_bind, EStateM.run_modify, EStateM.run_get,
    UntrustedStorage.record_slots, h, EStateM.run_pure]
  rfl

theorem run_storageRead_of_empty (h : s ∉ e.storage.slots) :
    (onStorage (UntrustedStorage.read s)).run e =
      .error (.storage (.slotEmpty s)) (e.afterReads [s]) := by
  refine run_zoom_of_error (e := StorageError.slotEmpty s) ?_
  simp only [UntrustedStorage.read, EStateM.run_bind, EStateM.run_modify, EStateM.run_get,
    UntrustedStorage.record_slots, Finmap.lookup_eq_none.mpr h, run_throw']
  rfl

theorem along_storageRead :
    Along ReadsOnly (onStorage (UntrustedStorage.read s) : EngineM V (Block V)) := by
  intro e
  by_cases hs : s ∈ e.storage.slots
  · obtain ⟨blk, hblk⟩ := Finmap.mem_iff.mp hs
    rw [run_storageRead hblk]
    exact ⟨[s], rfl⟩
  · rw [run_storageRead_of_empty hs]
    exact ⟨[s], rfl⟩

/-- `read_block` returns the block stored at the slot of its id. -/
theorem run_readBlock {blk : Block V} (hb : e.mapping.logicalToPhysical.lookup b = some s)
    (hs : e.storage.slots.lookup s = some blk) :
    (readBlock b).run e = .ok blk (e.afterReads [s]) := by
  rw [readBlock, run_bind_of_ok (run_physicalSlot_of_mapped hb), run_storageRead hs]

theorem along_readBlock : Along ReadsOnly (readBlock b : EngineM V (Block V)) :=
  along_physicalSlot.bind ReadsOnly.trans fun _ ↦ along_storageRead

/-- A block that can be read is where the mapping says. -/
theorem blockAt_eq_some {blk : Block V} :
    e.blockAt b = some blk ↔
      ∃ s, e.mapping.logicalToPhysical.lookup b = some s ∧ e.storage.slots.lookup s = some blk :=
  Option.bind_eq_some_iff

/-- A successful `read_block` has returned the block of its id. -/
theorem readBlock_eq_ok {blk : Block V} {e' : Engine V} (h : (readBlock b).run e = .ok blk e') :
    e.blockAt b = some blk ∧ ∃ s, e.mapping.logicalToPhysical.lookup b = some s ∧
      e' = e.afterReads [s] := by
  obtain ⟨s, e₁, hs, hread⟩ := run_bind_eq_ok.mp h
  by_cases hb : b ∈ e.mapping.logicalToPhysical
  · obtain ⟨s', hs'⟩ := Finmap.mem_iff.mp hb
    rw [run_physicalSlot_of_mapped hs'] at hs
    cases hs
    by_cases hocc : s ∈ e.storage.slots
    · obtain ⟨blk', hblk⟩ := Finmap.mem_iff.mp hocc
      rw [run_storageRead hblk] at hread
      cases hread
      exact ⟨blockAt_eq_some.mpr ⟨s, hs', hblk⟩, s, hs', rfl⟩
    · rw [run_storageRead_of_empty hocc] at hread
      cases hread
  · rw [run_physicalSlot_of_unmapped hb] at hs
    cases hs

/-! ### Levels -/

theorem run_level {l : LevelId} {L : Level} (hl : e.levels.lookup l = some L)
    (hret : l ∉ e.retiredLevelIds) : (level l).run e = .ok L e := by
  simp only [level, EStateM.run_bind, EStateM.run_get, if_neg hret, hl, EStateM.run_pure]

/-- `level` returns exactly the active levels, and changes nothing. -/
theorem level_eq_ok {l : LevelId} {L : Level} {e' : Engine V} :
    (level l).run e = .ok L e' ↔
      l ∉ e.retiredLevelIds ∧ e.levels.lookup l = some L ∧ e' = e := by
  constructor
  · intro h
    by_cases hret : l ∈ e.retiredLevelIds
    · simp only [level, EStateM.run_bind, EStateM.run_get, if_pos hret, run_throw'] at h
      cases h
    · cases hl : e.levels.lookup l with
      | none =>
        simp only [level, EStateM.run_bind, EStateM.run_get, if_neg hret, hl, run_throw'] at h
        cases h
      | some L' =>
        rw [run_level hl hret] at h
        cases h
        exact ⟨hret, rfl, rfl⟩
  · rintro ⟨hret, hl, rfl⟩
    exact run_level hl hret

/-- What `level` raises on anything that is not an active level. -/
theorem run_level_error {l : LevelId} (h : l ∈ e.retiredLevelIds ∨ l ∉ e.levels) :
    (level l).run e =
      .error (if l ∈ e.retiredLevelIds then .retiredLevel l else .key l) e := by
  by_cases hret : l ∈ e.retiredLevelIds
  · simp only [level, EStateM.run_bind, EStateM.run_get, if_pos hret, run_throw']
  · simp only [level, EStateM.run_bind, EStateM.run_get, if_neg hret,
      Finmap.lookup_eq_none.mpr (h.resolve_left hret), run_throw']

theorem along_level {l : LevelId} : Along ReadsOnly (level l : EngineM V Level) := by
  intro e
  by_cases h : l ∈ e.retiredLevelIds ∨ l ∉ e.levels
  · rw [run_level_error h]; exact ReadsOnly.refl e
  · push Not at h
    obtain ⟨L, hL⟩ := Finmap.mem_iff.mp h.2
    rw [run_level hL h.1]
    exact ReadsOnly.refl e

theorem run_createLevel (e : Engine V) :
    createLevel.run e = .ok ⟨e.nextLevelId⟩ { e with
      nextLevelId := e.nextLevelId + 1
      levels := e.levels.insert ⟨e.nextLevelId⟩ (Level.empty ⟨e.nextLevelId⟩) } := rfl

/-- The state after a changed level has been written back and its PGM dropped. -/
def attach (e : Engine V) (l : LevelId) (L : Level) : Engine V :=
  { e with levels := e.levels.insert l L, pgmIndexes := e.pgmIndexes.erase l }

theorem run_addBlockToLevel {l : LevelId} {L L' : Level} (hl : e.levels.lookup l = some L)
    (hret : l ∉ e.retiredLevelIds) (hadd : L.addBlock b = .ok L') :
    (addBlockToLevel l b).run e = .ok () (e.attach l L') := by
  rw [addBlockToLevel, run_bind_of_ok (run_level hl hret), hadd]
  rfl

/-- `add_block_to_level` attaches the block to an active level, or raises before it changes
anything. -/
theorem addBlockToLevel_cases (l : LevelId) (b : BlockId) (e : Engine V) :
    (∃ L L', l ∉ e.retiredLevelIds ∧ e.levels.lookup l = some L ∧ L.addBlock b = .ok L' ∧
      (addBlockToLevel l b).run e = .ok () (e.attach l L')) ∨
    ((l ∈ e.retiredLevelIds ∨ l ∉ e.levels ∨ ∃ L, e.levels.lookup l = some L ∧ b ∈ L.blockIds) ∧
      ∃ err, (addBlockToLevel l b).run e = .error err e) := by
  by_cases h : l ∈ e.retiredLevelIds ∨ l ∉ e.levels
  · refine Or.inr ⟨h.imp_right Or.inl, _, run_bind_of_error (run_level_error h) _⟩
  · push Not at h
    obtain ⟨L, hL⟩ := Finmap.mem_iff.mp h.2
    by_cases hb : b ∈ L.blockIds
    · have hadd : L.addBlock b = .error ⟨b, L.levelId⟩ := dif_pos hb
      refine Or.inr ⟨Or.inr (Or.inr ⟨L, hL, hb⟩), .level ⟨b, L.levelId⟩, ?_⟩
      rw [addBlockToLevel, run_bind_of_ok (run_level hL h.1), hadd]
      rfl
    · exact Or.inl ⟨L, _, h.1, hL, dif_neg hb, run_addBlockToLevel hL h.1 (dif_neg hb)⟩

/-! ### Creating a block -/

/-- The state after the next block has been stored at the next slot of the allocator. -/
def overwrite (e : Engine V) (blk : Block V) : Engine V :=
  { e with
    nextBlockId := e.nextBlockId + 1
    storage := {
      trace := (e.storage.record .write ⟨e.storage.nextFreeSlot⟩).trace
      slots := e.storage.slots.insert ⟨e.storage.nextFreeSlot⟩ blk
      nextFreeSlot := e.storage.nextFreeSlot + 1 } }

/-- The state after the next block has been stored and mapped. -/
def put (e : Engine V) (blk : Block V) : Engine V :=
  { e.overwrite blk with
    mapping := e.mapping.insert ⟨e.nextBlockId⟩ ⟨e.storage.nextFreeSlot⟩ }

/-- The part of the invariant that every operation keeps by itself. -/
structure Coherent (e : Engine V) : Prop where
  bijective : e.mapping.Bijective
  occupied : ∀ s, s ∈ e.storage.slots ↔ s ∈ e.mapping.physicalToLogical
  blocks_lt : ∀ b ∈ e.mapping.logicalToPhysical, b.value < e.nextBlockId

theorem Coherent.fresh (h : e.Coherent) :
    (⟨e.nextBlockId⟩ : BlockId) ∉ e.mapping.logicalToPhysical :=
  fun hmem ↦ lt_irrefl _ (h.blocks_lt _ hmem)

/-- A block stored in a free slot leaves the mapped blocks alone. -/
theorem Coherent.blockAt_put (h : e.Coherent) {blk : Block V}
    (hfree : (⟨e.storage.nextFreeSlot⟩ : SlotId) ∉ e.storage.slots)
    (hb : b ∈ e.mapping.logicalToPhysical) : (e.put blk).blockAt b = e.blockAt b := by
  obtain ⟨s, hs⟩ := Finmap.mem_iff.mp hb
  have hocc : s ∈ e.storage.slots :=
    (h.occupied s).mpr (Finmap.mem_iff.mpr ⟨b, (h.bijective b s).mp hs⟩)
  have hb' : b ≠ ⟨e.nextBlockId⟩ := fun heq ↦ h.fresh (heq ▸ hb)
  have hs' : s ≠ ⟨e.storage.nextFreeSlot⟩ := fun heq ↦ hfree (heq ▸ hocc)
  change ((e.mapping.logicalToPhysical.insert _ _).lookup b).bind
    (e.storage.slots.insert (⟨e.storage.nextFreeSlot⟩ : SlotId) blk).lookup = _
  rw [Finmap.lookup_insert_of_ne _ hb', hs, Option.bind_some, Finmap.lookup_insert_of_ne _ hs',
    blockAt, hs, Option.bind_some]

/-- The end of `create_block`: attach the new block to the level, if there is one. -/
def attachTo (b : BlockId) : Option LevelId → EngineM V Unit
  | some l => addBlockToLevel l b
  | none => pure ()

/-- `create_block` refuses the records, or stores the block in an occupied slot and then
fails to map it, or stores and maps it and goes on to the level. -/
theorem createBlock_cases (h : e.Coherent) (records : List (Record V)) (l : Option LevelId) :
    (∃ err, Block.sortedBlock ⟨e.nextBlockId⟩ records e.config.blockCapacity = .error err ∧
      (createBlock records l).run e =
        .error (.block err) { e with nextBlockId := e.nextBlockId + 1 }) ∨
    (∃ blk owner, Block.sortedBlock ⟨e.nextBlockId⟩ records e.config.blockCapacity = .ok blk ∧
      e.mapping.physicalToLogical.lookup ⟨e.storage.nextFreeSlot⟩ = some owner ∧
      (createBlock records l).run e =
        .error (.mapping (.duplicatePhysicalSlot ⟨e.storage.nextFreeSlot⟩ owner))
          (e.overwrite blk)) ∨
    (∃ blk, Block.sortedBlock ⟨e.nextBlockId⟩ records e.config.blockCapacity = .ok blk ∧
      (⟨e.storage.nextFreeSlot⟩ : SlotId) ∉ e.storage.slots ∧
      (createBlock records l).run e =
        (attachTo ⟨e.nextBlockId⟩ l >>= fun _ ↦ pure ⟨e.nextBlockId⟩).run (e.put blk)) := by
  have hnew : newBlockId.run e =
      .ok ⟨e.nextBlockId⟩ { e with nextBlockId := e.nextBlockId + 1 } := rfl
  cases hblk : Block.sortedBlock ⟨e.nextBlockId⟩ records e.config.blockCapacity with
  | error err =>
    refine Or.inl ⟨err, rfl, ?_⟩
    rw [createBlock, run_bind_of_ok hnew, EStateM.run_bind, EStateM.run_get]
    simp only [hblk]
    rfl
  | ok blk =>
    have hstore : (onStorage (UntrustedStorage.store blk)).run
        { e with nextBlockId := e.nextBlockId + 1 } =
        .ok ⟨e.storage.nextFreeSlot⟩ (e.overwrite blk) := rfl
    by_cases hocc : (⟨e.storage.nextFreeSlot⟩ : SlotId) ∈ e.storage.slots
    · obtain ⟨owner, howner⟩ := Finmap.mem_iff.mp ((h.occupied _).mp hocc)
      refine Or.inr (Or.inl ⟨blk, owner, rfl, howner, ?_⟩)
      have hassign : (onMapping (LogicalPhysicalMapping.assign ⟨e.nextBlockId⟩
          ⟨e.storage.nextFreeSlot⟩)).run (e.overwrite blk) =
          .error (.mapping (.duplicatePhysicalSlot ⟨e.storage.nextFreeSlot⟩ owner))
            (e.overwrite blk) :=
        run_zoom_of_error (LogicalPhysicalMapping.run_assign_taken (m := e.mapping) h.fresh howner)
      rw [createBlock, run_bind_of_ok hnew, EStateM.run_bind, EStateM.run_get]
      simp only [hblk]
      rw [run_bind_of_ok (run_liftExcept_ok _ _ _), run_bind_of_ok hstore,
        run_bind_of_error hassign]
    · have hfree : (⟨e.storage.nextFreeSlot⟩ : SlotId) ∉ e.mapping.physicalToLogical :=
        fun hmem ↦ hocc ((h.occupied _).mpr hmem)
      refine Or.inr (Or.inr ⟨blk, rfl, hocc, ?_⟩)
      have hassign : (onMapping (LogicalPhysicalMapping.assign ⟨e.nextBlockId⟩
          ⟨e.storage.nextFreeSlot⟩)).run (e.overwrite blk) = .ok () (e.put blk) :=
        run_zoom_of_ok (LogicalPhysicalMapping.run_assign_fresh (m := e.mapping) h.bijective
          h.fresh hfree)
      rw [createBlock, run_bind_of_ok hnew, EStateM.run_bind, EStateM.run_get]
      simp only [hblk]
      rw [run_bind_of_ok (run_liftExcept_ok _ _ _), run_bind_of_ok hstore,
        run_bind_of_ok hassign]
      cases l <;> rfl

/-! ### Retiring a block -/

/-- The state after the block of a slot has been cleared and unmapped. -/
def drop (e : Engine V) (b : BlockId) (s : SlotId) : Engine V :=
  { e with
    mapping := e.mapping.erase b s
    storage := { e.storage.record .write s with slots := e.storage.slots.erase s } }

theorem run_storageClear (hs : s ∈ e.storage.slots) :
    (onStorage (UntrustedStorage.clear s)).run e = .ok () { e with
      storage := { e.storage.record .write s with slots := e.storage.slots.erase s } } := by
  refine run_zoom_of_ok ?_
  simp only [UntrustedStorage.clear, EStateM.run_bind, EStateM.run_get, if_pos hs,
    EStateM.run_modify]
  rfl

/-- One round of the loop of `retire_level`. -/
theorem run_retireBlocks_cons (h : e.Coherent) {rest : List BlockId}
    (hb : e.mapping.logicalToPhysical.lookup b = some s) :
    (retireBlocks (b :: rest)).run e = (retireBlocks rest).run (e.drop b s) := by
  have hs : s ∈ e.storage.slots :=
    (h.occupied s).mpr (Finmap.mem_iff.mpr ⟨b, (h.bijective b s).mp hb⟩)
  have hunassign : (onMapping (LogicalPhysicalMapping.unassign b)).run { e with
      storage := { e.storage.record .write s with slots := e.storage.slots.erase s } } =
      .ok s (e.drop b s) :=
    run_zoom_of_ok (LogicalPhysicalMapping.run_unassign (m := e.mapping) h.bijective hb)
  rw [retireBlocks, run_bind_of_ok (run_physicalSlot_of_mapped hb),
    run_bind_of_ok (run_storageClear hs), run_bind_of_ok hunassign]

theorem run_retireBlocks_of_unmapped {rest : List BlockId}
    (hb : b ∉ e.mapping.logicalToPhysical) :
    (retireBlocks (b :: rest)).run e = .error (.mapping (.missingLogicalBlock b)) e := by
  rw [retireBlocks, run_bind_of_error (run_physicalSlot_of_unmapped hb)]

/-! ### Relocating a block -/

/-- The state after a block has been moved to another slot. -/
def relocated (e : Engine V) (b : BlockId) (old new : SlotId) (blk : Block V) : Engine V :=
  { e with
    mapping := e.mapping.moved b old new
    storage := {
      trace := (((e.storage.record .read old).record .write new).record .write old).trace
      slots := (e.storage.slots.insert new blk).erase old
      nextFreeSlot := e.storage.nextFreeSlot } }

/-- `relocate_block` moves the block to a free slot, or changes nothing. -/
theorem relocateBlock_cases (h : e.Coherent) (b : BlockId) (new : SlotId) :
    (∃ old blk, e.mapping.logicalToPhysical.lookup b = some old ∧ old ≠ new ∧
      new ∉ e.storage.slots ∧ e.storage.slots.lookup old = some blk ∧ blk.blockId = b ∧
      (relocateBlock b new).run e = .ok () (e.relocated b old new blk)) ∨
    (relocateBlock b new).run e = .ok () e ∨
    ∃ err e', (relocateBlock b new).run e = .error err e' ∧ ReadsOnly e e' := by
  by_cases hb : b ∈ e.mapping.logicalToPhysical
  swap
  · exact Or.inr (Or.inr ⟨_, _, run_bind_of_error (run_physicalSlot_of_unmapped hb) _,
      ReadsOnly.refl e⟩)
  obtain ⟨old, hold⟩ := Finmap.mem_iff.mp hb
  by_cases hne : old = new
  · refine Or.inr (Or.inl ?_)
    rw [relocateBlock, run_bind_of_ok (run_physicalSlot_of_mapped hold), if_pos hne]
    rfl
  by_cases hnew : new ∈ e.storage.slots
  · -- an occupied slot has an owner, which is another block
    obtain ⟨owner, howner⟩ := Finmap.mem_iff.mp ((h.occupied new).mp hnew)
    have hother : owner ≠ b := by
      rintro rfl
      exact hne (Option.some.inj (hold.symm.trans ((h.bijective owner new).mpr howner)))
    refine Or.inr (Or.inr ⟨.mapping (.duplicatePhysicalSlot new owner), e, ?_,
      ReadsOnly.refl e⟩)
    rw [relocateBlock, run_bind_of_ok (run_physicalSlot_of_mapped hold), if_neg hne,
      EStateM.run_bind, EStateM.run_get]
    simp only [LogicalPhysicalMapping.slotOwner, howner, Option.filter_some, hother, ne_eq,
      not_false_eq_true, decide_true, if_true, run_throw']
  have hfree : new ∉ e.mapping.physicalToLogical := fun hmem ↦ hnew ((h.occupied new).mpr hmem)
  have hocc : old ∈ e.storage.slots :=
    (h.occupied old).mpr (Finmap.mem_iff.mpr ⟨b, (h.bijective b old).mp hold⟩)
  obtain ⟨blk, hblk⟩ := Finmap.mem_iff.mp hocc
  have hstart : (relocateBlock b new).run e = (do
      let block ← onStorage (UntrustedStorage.read old)
      if block.blockId ≠ b then throw (EngineError.storage (.wrongBlock old block.blockId b))
      else
        onStorage (UntrustedStorage.write new block)
        onMapping (LogicalPhysicalMapping.move b new)
        onStorage (UntrustedStorage.clear old)).run e := by
    rw [relocateBlock, run_bind_of_ok (run_physicalSlot_of_mapped hold), if_neg hne,
      EStateM.run_bind, EStateM.run_get]
    simp only [LogicalPhysicalMapping.slotOwner, Finmap.lookup_eq_none.mpr hfree,
      Option.filter_none, if_neg hnew]
  rw [hstart, run_bind_of_ok (run_storageRead hblk)]
  by_cases hid : blk.blockId = b
  swap
  · rw [if_pos hid]
    exact Or.inr (Or.inr ⟨_, _, rfl, ⟨[old], rfl⟩⟩)
  refine Or.inl ⟨old, blk, hold, hne, hnew, hblk, hid, ?_⟩
  rw [if_neg (not_not.mpr hid)]
  let e₁ : Engine V := { e.afterReads [old] with
    storage := { (e.afterReads [old]).storage.record .write new with
      slots := e.storage.slots.insert new blk } }
  have hwrite : (onStorage (UntrustedStorage.write new blk)).run (e.afterReads [old]) =
      .ok () e₁ := rfl
  have hmove : (onMapping (LogicalPhysicalMapping.move b new)).run e₁ =
      .ok () { e₁ with mapping := e.mapping.moved b old new } :=
    run_zoom_of_ok (LogicalPhysicalMapping.run_move (m := e.mapping) h.bijective hold hne hfree)
  have hclear : (onStorage (UntrustedStorage.clear old)).run
      { e₁ with mapping := e.mapping.moved b old new } = .ok () (e.relocated b old new blk) :=
    run_storageClear (Finmap.mem_insert.mpr (Or.inr hocc))
  rw [run_bind_of_ok hwrite, run_bind_of_ok hmove, hclear]

/-! ### Operations that only read -/

theorem along_pgmIndex {l : LevelId} : Along ReadsOnly (pgmIndex l : EngineM V BatchPgmIndex) := by
  refine (Along.get ReadsOnly.refl).bind ReadsOnly.trans fun e ↦ ?_
  split
  · exact Along.throw ReadsOnly.refl _
  · split
    · exact Along.pure ReadsOnly.refl _
    · exact Along.throw ReadsOnly.refl _

theorem along_pgmKeys {l : LevelId} {previous : Option RecordKey} {ids : List BlockId} :
    Along ReadsOnly (pgmKeys l previous ids : EngineM V (List RecordKey)) := by
  induction ids generalizing previous with
  | nil => exact Along.pure ReadsOnly.refl _
  | cons b ids ih =>
    refine along_readBlock.bind ReadsOnly.trans fun blk ↦ ?_
    refine (Along.liftExcept ReadsOnly.refl _ _).bind ReadsOnly.trans fun keys ↦ ?_
    exact ih.bind ReadsOnly.trans fun later ↦ Along.pure ReadsOnly.refl _

theorem along_readInputBlocks {role : String} {l : LevelId} {capacity : Nat}
    {previous : Option RecordKey} {ids : List BlockId} :
    Along ReadsOnly (readInputBlocks role l capacity previous ids : EngineM V (List (Record V))) := by
  induction ids generalizing previous with
  | nil => exact Along.pure ReadsOnly.refl _
  | cons b ids ih =>
    refine along_readBlock.bind ReadsOnly.trans fun blk ↦ ?_
    refine (Along.liftExcept ReadsOnly.refl _ _).bind ReadsOnly.trans fun _ ↦ ?_
    refine (Along.liftExcept ReadsOnly.refl _ _).bind ReadsOnly.trans fun previous ↦ ?_
    exact ih.bind ReadsOnly.trans fun later ↦ Along.pure ReadsOnly.refl _

theorem along_readLevelRecords {L : Level} {role : String} :
    Along ReadsOnly (readLevelRecords L role : EngineM V (List (Record V))) :=
  (Along.get ReadsOnly.refl).bind ReadsOnly.trans fun _ ↦ along_readInputBlocks

theorem along_assertCanonicalOutput {merged : List (Record V)} {l : LevelId} :
    Along ReadsOnly (assertCanonicalOutput merged l) := by
  unfold assertCanonicalOutput
  split
  · exact Along.throw ReadsOnly.refl _
  · refine (Along.get ReadsOnly.refl).bind ReadsOnly.trans fun e ↦ ?_
    refine along_level.bind ReadsOnly.trans fun output ↦ ?_
    exact Along.ite (Along.throw ReadsOnly.refl _) (Along.pure ReadsOnly.refl _)

theorem along_schedule {ids : List BlockId} {first last : Nat} :
    Along ReadsOnly (schedule ids first last : EngineM V (List ScheduleEntry)) := by
  refine Along.bind ReadsOnly.trans ?_ fun entries ↦ Along.pure ReadsOnly.refl _
  refine Along.mapM ReadsOnly.refl ReadsOnly.trans (fun rank ↦ ?_) _
  unfold scheduleEntry
  split
  · exact Along.throw ReadsOnly.refl _
  · exact along_physicalSlot.bind ReadsOnly.trans fun _ ↦ Along.pure ReadsOnly.refl _

theorem along_lookupLevel {l : LevelId} {key : RecordKey} :
    Along ReadsOnly (lookupLevel l key : EngineM V (SingleLevelLookupResult V)) := by
  refine along_level.bind ReadsOnly.trans fun L ↦ ?_
  refine along_pgmIndex.bind ReadsOnly.trans fun pgm ↦ ?_
  refine (Along.liftExcept ReadsOnly.refl _ _).bind ReadsOnly.trans fun sr ↦ ?_
  split
  · exact Along.pure ReadsOnly.refl _
  · refine (Along.get ReadsOnly.refl).bind ReadsOnly.trans fun e ↦ ?_
    refine along_schedule.bind ReadsOnly.trans fun entries ↦ ?_
    refine Along.bind ReadsOnly.trans ?_ fun fetched ↦ Along.pure ReadsOnly.refl _
    refine Along.mapM ReadsOnly.refl ReadsOnly.trans (fun entry ↦ ?_) _
    exact along_readBlock.bind ReadsOnly.trans fun _ ↦ Along.pure ReadsOnly.refl _

theorem along_searchableLevels {plan : List LevelId} :
    Along ReadsOnly (searchableLevels plan : EngineM V (List LevelId)) := by
  induction plan with
  | nil => exact Along.pure ReadsOnly.refl _
  | cons l plan ih =>
    refine (Along.get ReadsOnly.refl).bind ReadsOnly.trans fun e ↦ ?_
    split
    · split
      · exact Along.throw ReadsOnly.refl _
      · exact Along.throw ReadsOnly.refl _
    · split
      · exact ih
      · refine along_pgmIndex.bind ReadsOnly.trans fun _ ↦ ?_
        exact ih.bind ReadsOnly.trans fun _ ↦ Along.pure ReadsOnly.refl _

theorem along_searchLevels {key : RecordKey} {searched plan : List LevelId} :
    Along ReadsOnly (searchLevels key searched plan : EngineM V (MultiLevelLookupResult V)) := by
  induction plan generalizing searched with
  | nil => exact Along.pure ReadsOnly.refl _
  | cons l plan ih =>
    refine along_lookupLevel.bind ReadsOnly.trans fun result ↦ ?_
    simp only
    split
    · exact Along.pure ReadsOnly.refl _
    · exact ih

/-- A query changes nothing but the trace, whether it answers or raises. -/
theorem along_lookupLevels {plan : List LevelId} {key : RecordKey} :
    Along ReadsOnly (lookupLevels plan key : EngineM V (MultiLevelLookupResult V)) := by
  unfold lookupLevels
  split
  · exact Along.throw ReadsOnly.refl _
  · exact along_searchableLevels.bind ReadsOnly.trans fun _ ↦ along_searchLevels

/-- The state after a PGM has been stored. -/
def setPgm (e : Engine V) (l : LevelId) (index : BatchPgmIndex) : Engine V :=
  { e with pgmIndexes := e.pgmIndexes.insert l index }

/-- `build_level_pgm` reads the level and stores its PGM, or raises with reads only. -/
theorem buildLevelPgm_cases (l : LevelId) (e : Engine V) :
    (∃ epsilon L keys e₁ index, e.config.pgmEpsilon = some epsilon ∧
      l ∉ e.retiredLevelIds ∧ e.levels.lookup l = some L ∧
      (pgmKeys l none L.blockIds).run e = .ok keys e₁ ∧ ReadsOnly e e₁ ∧
      buildBatchPgm keys epsilon = .ok index ∧
      (buildLevelPgm l).run e = .ok index (e₁.setPgm l index)) ∨
    ∃ err e', (buildLevelPgm l).run e = .error err e' ∧ ReadsOnly e e' := by
  cases hε : e.config.pgmEpsilon with
  | none =>
    refine Or.inr ⟨.pgm .configuration, e, ?_, ReadsOnly.refl e⟩
    simp only [buildLevelPgm, EStateM.run_bind, EStateM.run_get, hε, run_throw']
  | some epsilon =>
    have hstart : (buildLevelPgm l).run e = (do
        let l' ← level l
        let keys ← pgmKeys l none l'.blockIds
        let index ← liftExcept .pgm (buildBatchPgm keys epsilon)
        modify fun e ↦ { e with pgmIndexes := e.pgmIndexes.insert l index }
        pure index : EngineM V BatchPgmIndex).run e := by
      simp only [buildLevelPgm, EStateM.run_bind, EStateM.run_get, hε]
    rw [hstart]
    by_cases hl : l ∈ e.retiredLevelIds ∨ l ∉ e.levels
    · exact Or.inr ⟨_, e, run_bind_of_error (run_level_error hl) _, ReadsOnly.refl e⟩
    push Not at hl
    obtain ⟨L, hL⟩ := Finmap.mem_iff.mp hl.2
    rw [run_bind_of_ok (run_level hL hl.1)]
    cases hkeys : (pgmKeys l none L.blockIds).run e with
    | error err e' =>
      exact Or.inr ⟨err, e', run_bind_of_error hkeys _, along_pgmKeys.of_run_eq_error hkeys⟩
    | ok keys e₁ =>
      have hr := along_pgmKeys.of_run_eq_ok hkeys
      rw [run_bind_of_ok hkeys]
      cases hindex : buildBatchPgm keys epsilon with
      | error err => exact Or.inr ⟨.pgm err, e₁, rfl, hr⟩
      | ok index =>
        exact Or.inl ⟨epsilon, L, keys, e₁, index, rfl, hl.1, hL, hkeys, hr, hindex, rfl⟩

end Engine

end EnhancedLetIndex
