import EnhancedLetIndex.Engine.Query
import EnhancedLetIndex.Engine.WellFormed

/-!
# Blocking merges

A merge either ends in the state that `MergeSteps` describes, with the output published and
both inputs retired, or raises and leaves everything but the trace and the counters as it was
(`Unchanged`).  Which of the two it does is decided by `MergeAccepted`: the inputs are two
different active canonical levels, epsilon is configured, and no exception from outside strikes.

The cleanup after a failure is `retire_level` on the partial output.  It takes back exactly the
blocks that had been created, since the new slots were free and the new ids unused.
-/

namespace EnhancedLetIndex

variable {V : Type}

namespace Engine

/-- The level is active and canonical. -/
def CanonicalLevel (e : Engine V) (l : LevelId) : Prop :=
  ∃ blks, e.Holds l blks ∧ CanonicalBlocks e.config.blockCapacity blks

/-- The records of a merged output. -/
def mergedRecords (e : Engine V) (newer older : LevelId) : List (Record V) :=
  unionNewer (·.key) (e.recordsOf newer) (e.recordsOf older)

/-- The blocks of a merged output. -/
def mergedBlocks (e : Engine V) (newer older : LevelId) : List (List (Record V)) :=
  chunks e.config.blockCapacity (e.mergedRecords newer older)

/-- What a merge asks for. -/
structure MergeAccepted (faults : FaultPlan) (e : Engine V) (newer older : LevelId) : Prop where
  distinct : newer ≠ older
  canonical_newer : e.CanonicalLevel newer
  canonical_older : e.CanonicalLevel older
  epsilon : e.config.pgmEpsilon ≠ none
  createBlock : ∀ j < (e.mergedBlocks newer older).length, faults.createBlock j = false
  buildLevelPgm : faults.buildLevelPgm = false

/-- The active levels, their block lists and contents, the mapping, the occupied slots and the
PGMs are the same. -/
structure Unchanged (e e' : Engine V) : Prop where
  config : e'.config = e.config
  levels : e'.levels = e.levels
  retired : ∀ l ∈ e.levels, l ∈ e'.retiredLevelIds ↔ l ∈ e.retiredLevelIds
  mapping : e'.mapping = e.mapping
  slots : e'.storage.slots = e.storage.slots
  pgmIndexes : e'.pgmIndexes = e.pgmIndexes

theorem ReadsOnly.unchanged {e e' : Engine V} (h : ReadsOnly e e') : Unchanged e e' := by
  obtain ⟨xs, rfl⟩ := h
  exact ⟨rfl, rfl, fun _ _ ↦ Iff.rfl, rfl, afterReads_slots e xs, rfl⟩

variable {e e' e₂ : Engine V} {blks : List (Block V)}

/-! ## Discarding a partial output -/

/-- Blocks created in a new level and dropped again leave nothing behind. -/
theorem WellFormed.unchanged_of_dropped (h : e.WellFormed)
    (hc : Created e.withNewLevel e₂ ⟨e.nextLevelId⟩ [] blks) (xs : List SlotId)
    (hd : Dropped (e₂.afterReads xs) e' (e.newBlockIds blks.length)) :
    Unchanged e (e'.forget ⟨e.nextLevelId⟩) where
  config := by rw [hd.rest]; exact hc.config
  levels := by
    rw [hd.rest]
    refine Finmap.ext_lookup fun l ↦ ?_
    change (e₂.levels.erase ⟨e.nextLevelId⟩).lookup l = e.levels.lookup l
    by_cases hl : l = ⟨e.nextLevelId⟩
    · rw [hl, Finmap.lookup_erase, Finmap.lookup_eq_none.mpr h.fresh_level]
    · rw [Finmap.lookup_erase_ne hl, hc.levels l hl]
      exact Finmap.lookup_insert_of_ne _ hl
  retired l hl := by
    rw [hd.rest]
    change l ∈ insert _ e₂.retiredLevelIds ↔ _
    rw [hc.retired, Finset.mem_insert]
    refine or_iff_right fun heq ↦ h.fresh_level (heq ▸ hl)
  mapping := by
    refine hd.coherent.bijective.ext h.bijective (Finmap.ext_lookup fun b ↦ ?_)
    rw [hd.mapped]
    split_ifs with hb
    · have hnew : b ∉ e.mapping.logicalToPhysical := fun hmem ↦
        absurd (h.blocks_lt b hmem) (not_lt.mpr (mem_newBlockIds.mp hb).1)
      exact (Finmap.lookup_eq_none.mpr hnew).symm
    · exact (hc.mapped b).trans (if_neg fun hnext ↦ hb (mem_newBlockIds.mpr hnext))
  slots := by
    refine Finmap.ext_lookup fun s ↦ (hd.slots s).trans ?_
    have hslots : (e₂.afterReads xs).storage.slots.lookup s =
        if InNext e.storage.nextFreeSlot blks.length s.value then
          blks[(s.value - e.storage.nextFreeSlot).toNat]?
        else e.storage.slots.lookup s := by rw [afterReads_slots]; exact hc.slots s
    by_cases hnext : InNext e.storage.nextFreeSlot blks.length s.value
    · have hfree : s ∉ e.storage.slots := fun hmem ↦ h.free_slots _ s hmem hnext
      exact (if_pos (hc.exists_slot_iff.mpr hnext)).trans (Finmap.lookup_eq_none.mpr hfree).symm
    · refine (if_neg fun hs ↦ hnext (hc.exists_slot_iff.mp hs)).trans ?_
      rw [hslots, if_neg hnext]
  pgmIndexes := by
    rw [hd.rest]
    refine Finmap.ext_lookup fun l ↦ ?_
    change (e₂.pgmIndexes.erase ⟨e.nextLevelId⟩).lookup l = e.pgmIndexes.lookup l
    by_cases hl : l = ⟨e.nextLevelId⟩
    · rw [hl, Finmap.lookup_erase, Finmap.lookup_eq_none.mpr h.fresh_pgm]
    · rw [Finmap.lookup_erase_ne hl]
      exact hc.pgms l hl

/-- Levels that were there keep their blocks. -/
theorem Created.lookup_old {ids : List BlockId}
    (hc : Created e.withNewLevel e₂ ⟨e.nextLevelId⟩ ids blks)
    (hfresh : (⟨e.nextLevelId⟩ : LevelId) ∉ e.levels) {l : LevelId} {L : Level}
    (hL : e.levels.lookup l = some L) : e₂.levels.lookup l = some L := by
  have hne : l ≠ ⟨e.nextLevelId⟩ := fun heq ↦
    hfresh (heq ▸ Finmap.mem_of_lookup_eq_some hL)
  rw [hc.levels l hne]
  exact (Finmap.lookup_insert_of_ne _ hne).trans hL

/-- `_discard_partial_output` takes the output back. -/
theorem WellFormed.run_discardPartialOutput (h : e.WellFormed)
    (hc : Created e.withNewLevel e₂ ⟨e.nextLevelId⟩ [] blks) (xs : List SlotId) :
    ∃ e', (discardPartialOutput ⟨e.nextLevelId⟩).run (e₂.afterReads xs) = .ok () e' ∧
      Unchanged e e' := by
  obtain ⟨L, hL, hids⟩ := hc.level
  rw [List.nil_append] at hids
  have hwf : (e₂.afterReads xs).WellFormed :=
    (h.withNewLevel.created (L := Level.empty _) (Finmap.lookup_insert _) hc).afterReads xs
  have hret : (⟨e.nextLevelId⟩ : LevelId) ∉ (e₂.afterReads xs).retiredLevelIds := by
    change _ ∉ e₂.retiredLevelIds
    rw [hc.retired]
    exact h.fresh_retired
  obtain ⟨e', hd, hrun⟩ := retireLevel_spec hwf.toCoherent hL hret (hwf.mapped _ L hL)
  refine ⟨e'.forget ⟨e.nextLevelId⟩, ?_, h.unchanged_of_dropped hc xs (hids ▸ hd)⟩
  have hmem : (⟨e.nextLevelId⟩ : LevelId) ∈ (e₂.afterReads xs).levels :=
    Finmap.mem_of_lookup_eq_some hL
  rw [discardPartialOutput, EStateM.run_bind, EStateM.run_get]
  simp only [if_pos hmem]
  refine run_tryCatch_of_ok ?_ _
  rw [run_bind_of_ok hrun]
  rfl

/-! ## Publishing an output -/

/-- `_assert_canonical_output` on the partitions of sorted records. -/
theorem run_assertCanonicalOutput {merged : List (Record V)} {l : LevelId} {L : Level}
    (hsorted : SortedBy (·.key) merged) (hL : e.levels.lookup l = some L)
    (hret : l ∉ e.retiredLevelIds)
    (hlen : L.blockIds.length = (chunks e.config.blockCapacity merged).length) :
    (assertCanonicalOutput merged l).run e = .ok () e := by
  have hexpected : (if merged = [] then 0
      else (merged.length + e.config.blockCapacity - 1) / e.config.blockCapacity) =
      (chunks e.config.blockCapacity merged).length := by
    split_ifs with hnil
    · rw [hnil, chunks_nil e.config.blockCapacity_pos]
      rfl
    · exact (length_chunks merged).symm
  unfold assertCanonicalOutput
  rw [firstNotIncreasing_eq_none.mpr hsorted.map_keys]
  simp only
  rw [EStateM.run_bind, EStateM.run_get]
  simp only
  rw [run_bind_of_ok (run_level hL hret), hexpected, hlen, if_neg (not_not.mpr rfl)]
  rfl

/-- Building, checking and indexing the output, over sorted records and into free slots: it
succeeds unless an exception from outside strikes or epsilon is not configured. -/
theorem Coherent.run_publishOutput (h : e.Coherent) (faults : FaultPlan)
    (hret : (⟨e.nextLevelId⟩ : LevelId) ∉ e.retiredLevelIds)
    {merged : List (Record V)} (hsorted : SortedBy (·.key) merged)
    (hfree : ∀ s ∈ e.storage.slots,
      ¬ InNext e.storage.nextFreeSlot (chunks e.config.blockCapacity merged).length s.value) :
    ∃ e₂ blks, Created e.withNewLevel e₂ ⟨e.nextLevelId⟩ [] blks ∧
      ((blks.map (·.records) = chunks e.config.blockCapacity merged ∧
          (∀ j < (chunks e.config.blockCapacity merged).length, faults.createBlock j = false) ∧
          faults.buildLevelPgm = false ∧
          ∃ ε idx, e.config.pgmEpsilon = some ε ∧
            buildBatchPgm (merged.map (·.key)) ε = .ok idx ∧
            (publishOutput faults merged ⟨e.nextLevelId⟩).run e.withNewLevel =
              .ok () ((e₂.afterReads (e₂.slotsOf (e.newBlockIds blks.length))).setPgm
                ⟨e.nextLevelId⟩ idx)) ∨
        (((∃ j < (chunks e.config.blockCapacity merged).length, faults.createBlock j = true) ∨
            faults.buildLevelPgm = true ∨ e.config.pgmEpsilon = none) ∧
          ∃ err xs, (publishOutput faults merged ⟨e.nextLevelId⟩).run e.withNewLevel =
            .error err (e₂.afterReads xs))) := by
  obtain ⟨e₂, blks, hc, ⟨hbuild, hrecs, hfaults⟩ | ⟨hlen, hfault, hbuild⟩⟩ :=
    buildLevelWith_spec faults h.withNewLevel (L := Level.empty _)
      (Finmap.lookup_insert _) hret (fun b hb ↦ absurd hb List.not_mem_nil)
      (fromRecords_of_sorted hsorted) hfree
  · refine ⟨e₂, blks, hc, ?_⟩
    obtain ⟨L, hL, hids⟩ := hc.level
    replace hids : L.blockIds = e.newBlockIds blks.length := hids
    have hret₂ : (⟨e.nextLevelId⟩ : LevelId) ∉ e₂.retiredLevelIds := hc.retired ▸ hret
    have hassert : (assertCanonicalOutput merged ⟨e.nextLevelId⟩).run e₂ = .ok () e₂ := by
      refine run_assertCanonicalOutput hsorted hL hret₂ ?_
      rw [hids, hc.config, newBlockIds, List.length_map, List.length_range]
      exact (List.length_map _).symm.trans (congrArg List.length hrecs)
    have hstart : (publishOutput faults merged ⟨e.nextLevelId⟩).run e.withNewLevel =
        (if faults.buildLevelPgm then .error .fault e₂
        else (buildLevelPgm ⟨e.nextLevelId⟩ >>= fun _ ↦ pure ()).run e₂) := by
      rw [publishOutput, run_bind_of_ok hbuild, run_bind_of_ok hassert]
      split <;> rfl
    rw [hstart]
    by_cases hpgm : faults.buildLevelPgm = true
    · exact Or.inr ⟨Or.inr (Or.inl hpgm), .fault, [], if_pos hpgm⟩
    rw [if_neg hpgm]
    cases hε : e.config.pgmEpsilon with
    | none =>
      refine Or.inr ⟨Or.inr (Or.inr rfl), .pgm .configuration, [], run_bind_of_error ?_ _⟩
      have hε₂ : e₂.config.pgmEpsilon = none := by rw [hc.config]; exact hε
      simp only [buildLevelPgm, EStateM.run_bind, EStateM.run_get, hε₂, run_throw',
        afterReads_nil]
    | some ε =>
      have hread : e₂.ReadAs (e.newBlockIds blks.length) blks := hc.forall₂_new
      have hflat : blockRecords blks = merged := by
        rw [blockRecords, hrecs]
        exact flatten_chunks e.config.blockCapacity_pos merged
      obtain ⟨idx, hidx, -⟩ := buildBatchPgm_spec hsorted.map_keys ε
      have hrun : (buildLevelPgm ⟨e.nextLevelId⟩).run e₂ = .ok idx
          ((e₂.afterReads (e₂.slotsOf (e.newBlockIds blks.length))).setPgm ⟨e.nextLevelId⟩ idx) := by
        rw [← hids]
        exact buildLevelPgm_eq_ok.mpr ⟨ε, L, blks, hc.config ▸ hε, hret₂, hL, hids ▸ hread,
          hflat ▸ hidx, rfl⟩
      refine Or.inl ⟨hrecs, hfaults, by simpa using hpgm, ε, idx, rfl, hidx, ?_⟩
      rw [run_bind_of_ok hrun]
      rfl
  · refine ⟨e₂, blks, hc, Or.inr ⟨Or.inl ⟨_, hlen, hfault⟩, .fault, [], ?_⟩⟩
    rw [publishOutput, run_bind_of_error hbuild, afterReads_nil]

/-! ## The whole merge -/

/-- `merge_blocking` after both inputs have been read. -/
def finishMerge (faults : FaultPlan) (newer older : LevelId)
    (newerRecords olderRecords : List (Record V)) : EngineM V MergeResult := do
  let (merged, discarded) := mergeSorted newerRecords olderRecords
  let outputLevelId ← createLevel
  tryCatch (publishOutput faults merged outputLevelId) fun error ↦ do
    discardPartialOutput outputLevelId
    throw error
  let _ ← retireLevel newer
  let _ ← retireLevel older
  pure ⟨outputLevelId, newer, older, newerRecords.length, olderRecords.length, merged.length,
    discarded⟩

theorem run_mergeBlockingWith_same (faults : FaultPlan) (l : LevelId) :
    (mergeBlockingWith faults l l).run e = .error (.mergeInput (.sameLevel l)) e := by
  unfold mergeBlockingWith
  extract_lets body
  rw [if_pos rfl]
  rfl

theorem run_mergeBlockingWith_of_ne (faults : FaultPlan) {newer older : LevelId}
    (hne : newer ≠ older) :
    (mergeBlockingWith faults newer older).run e = (do
      let n ← level newer
      let o ← level older
      let newerRecords ← readLevelRecords n "newer"
      let olderRecords ← readLevelRecords o "older"
      finishMerge faults newer older newerRecords olderRecords : EngineM V MergeResult).run e := by
  unfold mergeBlockingWith
  extract_lets body
  rw [if_neg hne]
  rfl

/-- The states of a successful merge: the output is created in `e₂`, the newer input is gone in
`e₄` and the older one in `e₅`. -/
structure MergeSteps (e : Engine V) (newer older : LevelId) (n o : Level)
    (e₂ e₄ e₅ : Engine V) (blks : List (Block V)) (idx : BatchPgmIndex) : Prop where
  newer_level : e.levels.lookup newer = some n
  older_level : e.levels.lookup older = some o
  created : Created (e.afterReads (e.slotsOf n.blockIds ++ e.slotsOf o.blockIds)).withNewLevel e₂
    ⟨e.nextLevelId⟩ [] blks
  records : blks.map (·.records) = e.mergedBlocks newer older
  index : ∃ ε, e.config.pgmEpsilon = some ε ∧
    buildBatchPgm ((e.mergedRecords newer older).map (·.key)) ε = .ok idx
  newer_dropped : Dropped ((e₂.afterReads (e₂.slotsOf (e.newBlockIds blks.length))).setPgm
    ⟨e.nextLevelId⟩ idx) e₄ n.blockIds
  older_dropped : Dropped (e₄.forget newer) e₅ o.blockIds

/-- What a successful merge returns. -/
def mergeResult (e : Engine V) (newer older : LevelId) : MergeResult where
  outputLevelId := ⟨e.nextLevelId⟩
  newerLevelId := newer
  olderLevelId := older
  newerRecordCount := (e.recordsOf newer).length
  olderRecordCount := (e.recordsOf older).length
  outputRecordCount := (e.mergedRecords newer older).length
  discardedOlderRecordCount := (shadowed (·.key) (e.recordsOf newer) (e.recordsOf older)).length

variable {newer older : LevelId} {n o : Level}

theorem Unchanged.of_afterReads {xs : List SlotId} (h : Unchanged (e.afterReads xs) e') :
    Unchanged e e' where
  config := h.config
  levels := h.levels
  retired := h.retired
  mapping := h.mapping
  slots := h.slots.trans (afterReads_slots e xs)
  pgmIndexes := h.pgmIndexes

theorem mergeSorted_recordsOf (hn : SortedBy (·.key) (e.recordsOf newer))
    (ho : SortedBy (·.key) (e.recordsOf older)) :
    mergeSorted (e.recordsOf newer) (e.recordsOf older) = (e.mergedRecords newer older,
      (shadowed (·.key) (e.recordsOf newer) (e.recordsOf older)).length) :=
  mergeLoop_eq hn ho le_rfl

/-- The output of a merge is well-formed with its PGM. -/
theorem WellFormed.withOutput (h : e.WellFormed) {e₂ : Engine V} {blks : List (Block V)}
    (hc : Created e.withNewLevel e₂ ⟨e.nextLevelId⟩ [] blks) (xs : List SlotId)
    (idx : BatchPgmIndex) : ((e₂.afterReads xs).setPgm ⟨e.nextLevelId⟩ idx).WellFormed := by
  obtain ⟨L, hL, -⟩ := hc.level
  have hwf := h.withNewLevel.created (L := Level.empty _) (Finmap.lookup_insert _) hc
  exact (hwf.afterReads xs).setPgm (Finmap.mem_of_lookup_eq_some hL) idx

/-- The second half of a merge, between two active levels with sorted records. -/
theorem WellFormed.run_finishMerge (h : e.WellFormed) (faults : FaultPlan) (hne : newer ≠ older)
    (hn : e.levels.lookup newer = some n) (hnret : newer ∉ e.retiredLevelIds)
    (ho : e.levels.lookup older = some o) (horet : older ∉ e.retiredLevelIds)
    (hnsorted : SortedBy (·.key) (e.recordsOf newer))
    (hosorted : SortedBy (·.key) (e.recordsOf older)) (xs : List SlotId)
    (hxs : xs = e.slotsOf n.blockIds ++ e.slotsOf o.blockIds) :
    ((∀ j < (e.mergedBlocks newer older).length, faults.createBlock j = false) ∧
        faults.buildLevelPgm = false ∧ e.config.pgmEpsilon ≠ none ∧
        ∃ e₂ e₄ e₅ blks idx, MergeSteps e newer older n o e₂ e₄ e₅ blks idx ∧
          (finishMerge faults newer older (e.recordsOf newer) (e.recordsOf older)).run
            (e.afterReads xs) = .ok (e.mergeResult newer older) (e₅.forget older)) ∨
      (((∃ j < (e.mergedBlocks newer older).length, faults.createBlock j = true) ∨
          faults.buildLevelPgm = true ∨ e.config.pgmEpsilon = none) ∧
        ∃ err e', (finishMerge faults newer older (e.recordsOf newer) (e.recordsOf older)).run
          (e.afterReads xs) = .error err e' ∧ Unchanged e e') := by
  have hwf := h.afterReads xs
  have hcreate : createLevel.run (e.afterReads xs) =
      .ok ⟨e.nextLevelId⟩ (e.afterReads xs).withNewLevel := rfl
  have hsorted : SortedBy (·.key) (e.mergedRecords newer older) :=
    sortedBy_unionNewer hnsorted hosorted
  obtain ⟨e₂, blks, hc, ⟨hrecs, hfaults, hpgm, ε, idx, hε, hidx, hrun⟩ | ⟨hwhy, err, ys, hrun⟩⟩ :=
    hwf.toCoherent.run_publishOutput faults hwf.fresh_retired hsorted (hwf.free_slots _)
  · replace hrun : (publishOutput faults (e.mergedRecords newer older) ⟨e.nextLevelId⟩).run
        (e.afterReads xs).withNewLevel = .ok () ((e₂.afterReads
          (e₂.slotsOf (e.newBlockIds blks.length))).setPgm ⟨e.nextLevelId⟩ idx) := hrun
    refine Or.inl ⟨hfaults, hpgm, by rw [show e.config.pgmEpsilon = some ε from hε]; simp, ?_⟩
    have hwf₃ : ((e₂.afterReads (e₂.slotsOf (e.newBlockIds blks.length))).setPgm
        ⟨e.nextLevelId⟩ idx).WellFormed := hwf.withOutput hc _ idx
    have hn₃ := hc.lookup_old hwf.fresh_level hn
    have ho₃ := hc.lookup_old hwf.fresh_level ho
    obtain ⟨e₄, hd₄, hrun₄⟩ := retireLevel_spec hwf₃.toCoherent hn₃
      (by change newer ∉ e₂.retiredLevelIds; rw [hc.retired]; exact hnret)
      (hwf₃.mapped newer n hn₃)
    have hwf₄ := hwf₃.forget hn₃ hd₄
    have ho₄ := (hd₄.lookup_forget hne.symm).trans ho₃
    obtain ⟨e₅, hd₅, hrun₅⟩ := retireLevel_spec hwf₄.toCoherent ho₄
      (by
        rw [hd₄.rest]
        change older ∉ insert newer e₂.retiredLevelIds
        rw [hc.retired, Finset.mem_insert, not_or]
        exact ⟨hne.symm, horet⟩)
      (hwf₄.mapped older o ho₄)
    refine ⟨e₂, e₄, e₅, blks, idx, ⟨hn, ho, hxs ▸ hc, hrecs, ⟨ε, hε, hidx⟩, hd₄, hd₅⟩, ?_⟩
    rw [finishMerge, mergeSorted_recordsOf hnsorted hosorted]
    simp only
    rw [run_bind_of_ok hcreate, run_bind_of_ok (run_tryCatch_of_ok hrun _),
      run_bind_of_ok hrun₄, run_bind_of_ok hrun₅]
    rfl
  · refine Or.inr ⟨hwhy, ?_⟩
    replace hrun : (publishOutput faults (e.mergedRecords newer older) ⟨e.nextLevelId⟩).run
        (e.afterReads xs).withNewLevel = .error err (e₂.afterReads ys) := hrun
    obtain ⟨e', hdiscard, hsame⟩ := hwf.run_discardPartialOutput hc ys
    refine ⟨err, e', ?_, hsame.of_afterReads⟩
    rw [finishMerge, mergeSorted_recordsOf hnsorted hosorted]
    simp only
    rw [run_bind_of_ok hcreate]
    refine run_bind_of_error ?_ _
    rw [run_tryCatch_of_error hrun]
    exact run_bind_of_ok hdiscard _

/-- The records read from a canonical level. -/
theorem run_readLevelRecords (role : String) {l : LevelId} {L : Level}
    (hL : e.levels.lookup l = some L) (hread : e.ReadAs L.blockIds blks)
    (hcanon : CanonicalBlocks e.config.blockCapacity blks) (xs : List SlotId) :
    (readLevelRecords L role).run (e.afterReads xs) =
      .ok (e.recordsOf l) (e.afterReads (xs ++ e.slotsOf L.blockIds)) := by
  rw [recordsOf_eq hL hread, ← afterReads_append]
  exact readLevelRecords_eq_ok.mpr ⟨blks, afterReads_readAs.mpr hread, hcanon, rfl, rfl⟩

/-- A merge of a well-formed state goes through all its steps, or leaves everything but the
trace and the counters unchanged; `MergeAccepted` tells which. -/
theorem WellFormed.mergeBlockingWith_cases (h : e.WellFormed) (faults : FaultPlan)
    (newer older : LevelId) :
    (MergeAccepted faults e newer older ∧
      ∃ n o e₂ e₄ e₅ blks idx, MergeSteps e newer older n o e₂ e₄ e₅ blks idx ∧
        (mergeBlockingWith faults newer older).run e =
          .ok (e.mergeResult newer older) (e₅.forget older)) ∨
    (¬ MergeAccepted faults e newer older ∧ ∃ err e',
      (mergeBlockingWith faults newer older).run e = .error err e' ∧ Unchanged e e') := by
  have hrefl : Unchanged e e := (ReadsOnly.refl e).unchanged
  by_cases hne : newer = older
  · subst hne
    exact Or.inr ⟨fun ha ↦ ha.distinct rfl, _, e, run_mergeBlockingWith_same faults newer, hrefl⟩
  rw [run_mergeBlockingWith_of_ne faults hne]
  by_cases hn : newer ∈ e.retiredLevelIds ∨ newer ∉ e.levels
  · refine Or.inr ⟨fun ha ↦ ?_, _, e, run_bind_of_error (run_level_error hn) _, hrefl⟩
    obtain ⟨blks, hholds, -⟩ := ha.canonical_newer
    obtain ⟨L, hL, -⟩ := hholds.level
    exact hn.elim hholds.not_retired (absurd (Finmap.mem_of_lookup_eq_some hL))
  push Not at hn
  obtain ⟨hnret, hnmem⟩ := hn
  obtain ⟨n, hnL⟩ := Finmap.mem_iff.mp hnmem
  rw [run_bind_of_ok (run_level hnL hnret)]
  by_cases ho : older ∈ e.retiredLevelIds ∨ older ∉ e.levels
  · refine Or.inr ⟨fun ha ↦ ?_, _, e, run_bind_of_error (run_level_error ho) _, hrefl⟩
    obtain ⟨blks, hholds, -⟩ := ha.canonical_older
    obtain ⟨L, hL, -⟩ := hholds.level
    exact ho.elim hholds.not_retired (absurd (Finmap.mem_of_lookup_eq_some hL))
  push Not at ho
  obtain ⟨horet, homem⟩ := ho
  obtain ⟨o, hoL⟩ := Finmap.mem_iff.mp homem
  rw [run_bind_of_ok (run_level hoL horet)]
  cases hnread : (readLevelRecords n "newer").run e with
  | error err e' =>
    refine Or.inr ⟨fun ha ↦ ?_, err, e', run_bind_of_error hnread _,
      (along_readLevelRecords.of_run_eq_error hnread).unchanged⟩
    obtain ⟨blks, hholds, hcanon⟩ := ha.canonical_newer
    have := run_readLevelRecords "newer" hnL (hholds.readAs hnL) hcanon []
    rw [afterReads_nil, hnread] at this
    cases this
  | ok newerRecords e₁ =>
  obtain ⟨nblks, hnblks, hncanon, rfl, rfl⟩ := readLevelRecords_eq_ok.mp hnread
  rw [run_bind_of_ok hnread]
  cases horead : (readLevelRecords o "older").run (e.afterReads (e.slotsOf n.blockIds)) with
  | error err e' =>
    refine Or.inr ⟨fun ha ↦ ?_, err, e', run_bind_of_error horead _,
      (along_readLevelRecords.of_run_eq_error horead).unchanged.of_afterReads⟩
    obtain ⟨blks, hholds, hcanon⟩ := ha.canonical_older
    have := run_readLevelRecords "older" hoL (hholds.readAs hoL) hcanon
      (e.slotsOf n.blockIds)
    rw [horead] at this
    cases this
  | ok olderRecords e₂ =>
  obtain ⟨oblks, hoblks, hocanon, rfl, rfl⟩ := readLevelRecords_eq_ok.mp horead
  rw [afterReads_readAs] at hoblks
  rw [run_bind_of_ok horead, ← recordsOf_eq hnL hnblks, ← recordsOf_eq hoL hoblks,
    afterReads_slotsOf, afterReads_append]
  have hnewer : e.CanonicalLevel newer := ⟨nblks, ⟨hnret, n, hnL, hnblks⟩, hncanon⟩
  have holder : e.CanonicalLevel older := ⟨oblks, ⟨horet, o, hoL, hoblks⟩, hocanon⟩
  obtain ⟨hfaults, hpgm, hε, e₂, e₄, e₅, blks, idx, hsteps, hrun⟩ | ⟨hwhy, hrun⟩ :=
    h.run_finishMerge faults hne hnL hnret hoL horet (recordsOf_eq hnL hnblks ▸ hncanon.sorted)
      (recordsOf_eq hoL hoblks ▸ hocanon.sorted) _ rfl
  · exact Or.inl ⟨⟨hne, hnewer, holder, hε, hfaults, hpgm⟩, n, o, e₂, e₄, e₅, blks, idx, hsteps,
      hrun⟩
  · refine Or.inr ⟨fun ha ↦ ?_, hrun⟩
    rcases hwhy with ⟨j, hj, hfault⟩ | hpgm | hε
    · rw [ha.createBlock j hj] at hfault; cases hfault
    · rw [ha.buildLevelPgm] at hpgm; cases hpgm
    · exact ha.epsilon hε

/-! ## A published merge -/

/-- The state after a successful merge: the inputs are retired, the output is active, canonical,
holds the merged records and has their PGM, and the other levels are as before. -/
structure Published (e e' : Engine V) (newer older : LevelId) : Prop where
  config : e'.config = e.config
  retired : e'.retiredLevelIds = insert older (insert newer e.retiredLevelIds)
  newer_gone : newer ∉ e'.levels
  older_gone : older ∉ e'.levels
  nextLevelId : e'.nextLevelId = e.nextLevelId + 1
  output : ∃ blks, e'.Holds ⟨e.nextLevelId⟩ blks ∧ CanonicalBlocks e.config.blockCapacity blks ∧
    blks.map (·.records) = e.mergedBlocks newer older
  index : ∃ ε idx, e.config.pgmEpsilon = some ε ∧
    buildBatchPgm ((e.mergedRecords newer older).map (·.key)) ε = .ok idx ∧
    e'.pgmIndexes.lookup ⟨e.nextLevelId⟩ = some idx
  levels : ∀ l, l ≠ newer → l ≠ older → l ≠ ⟨e.nextLevelId⟩ →
    e'.levels.lookup l = e.levels.lookup l ∧ e'.pgmIndexes.lookup l = e.pgmIndexes.lookup l
  blocks : ∀ l L, l ≠ newer → l ≠ older → e.levels.lookup l = some L →
    ∀ b ∈ L.blockIds, e'.blockAt b = e.blockAt b
  wellFormed : e'.WellFormed

namespace MergeSteps

variable {e₂ e₄ e₅ : Engine V} {idx : BatchPgmIndex}
  (hs : MergeSteps e newer older n o e₂ e₄ e₅ blks idx)

include hs

theorem coherent_created : ((e₂.afterReads (e₂.slotsOf (e.newBlockIds blks.length))).setPgm
    ⟨e.nextLevelId⟩ idx).Coherent := (hs.created.coherent.afterReads _).of_eq rfl rfl le_rfl

theorem coherent_newer : (e₄.forget newer).Coherent :=
  hs.newer_dropped.coherent.of_eq rfl rfl le_rfl

/-- Blocks of neither input are read as right after the output was built. -/
theorem blockAt {b : BlockId} (hbn : b ∉ n.blockIds) (hbo : b ∉ o.blockIds) :
    (e₅.forget older).blockAt b = e₂.blockAt b := by
  calc (e₅.forget older).blockAt b
      = (e₄.forget newer).blockAt b := hs.older_dropped.blockAt hs.coherent_newer hbo
    _ = ((e₂.afterReads (e₂.slotsOf (e.newBlockIds blks.length))).setPgm
          ⟨e.nextLevelId⟩ idx).blockAt b := hs.newer_dropped.blockAt hs.coherent_created hbn
    _ = e₂.blockAt b := afterReads_blockAt e₂ _ b

theorem levels_eq : (e₅.forget older).levels = (e₂.levels.erase newer).erase older :=
  congrArg (·.erase older) (hs.older_dropped.levels.trans
    (congrArg (·.erase newer) hs.newer_dropped.levels))

/-- The levels that are no inputs. -/
theorem levels {l : LevelId} (hln : l ≠ newer) (hlo : l ≠ older) :
    (e₅.forget older).levels.lookup l = e₂.levels.lookup l ∧
      (e₅.forget older).pgmIndexes.lookup l =
        (e₂.pgmIndexes.insert ⟨e.nextLevelId⟩ idx).lookup l := by
  have hpgms : (e₅.forget older).pgmIndexes =
      ((e₂.pgmIndexes.insert ⟨e.nextLevelId⟩ idx).erase newer).erase older :=
    congrArg (·.erase older) (hs.older_dropped.pgmIndexes.trans
      (congrArg (·.erase newer) hs.newer_dropped.pgmIndexes))
  rw [hs.levels_eq, hpgms, Finmap.lookup_erase_ne hlo, Finmap.lookup_erase_ne hln,
    Finmap.lookup_erase_ne hlo, Finmap.lookup_erase_ne hln]
  exact ⟨rfl, rfl⟩

theorem retired :
    (e₅.forget older).retiredLevelIds = insert older (insert newer e.retiredLevelIds) :=
  congrArg (insert older) (hs.older_dropped.retired.trans
    (congrArg (insert newer) (hs.newer_dropped.retired.trans hs.created.retired)))

/-- The inputs are not the output. -/
theorem ne_output (hfresh : (⟨e.nextLevelId⟩ : LevelId) ∉ e.levels) :
    newer ≠ ⟨e.nextLevelId⟩ ∧ older ≠ ⟨e.nextLevelId⟩ := by
  constructor
  · exact fun heq ↦ hfresh (heq ▸ Finmap.mem_of_lookup_eq_some hs.newer_level)
  · exact fun heq ↦ hfresh (heq ▸ Finmap.mem_of_lookup_eq_some hs.older_level)

/-- The output of a merge of levels whose blocks are mapped. -/
theorem output (h : e.Coherent) (hfresh : (⟨e.nextLevelId⟩ : LevelId) ∉ e.levels)
    (hret : (⟨e.nextLevelId⟩ : LevelId) ∉ e.retiredLevelIds)
    (hnmapped : ∀ b ∈ n.blockIds, b ∈ e.mapping.logicalToPhysical)
    (homapped : ∀ b ∈ o.blockIds, b ∈ e.mapping.logicalToPhysical) :
    ((e₅.forget older).Holds ⟨e.nextLevelId⟩ blks ∧
        CanonicalBlocks e.config.blockCapacity blks ∧
        blks.map (·.records) = e.mergedBlocks newer older) ∧
      ∃ ε, e.config.pgmEpsilon = some ε ∧
        buildBatchPgm ((e.mergedRecords newer older).map (·.key)) ε = .ok idx ∧
        (e₅.forget older).pgmIndexes.lookup ⟨e.nextLevelId⟩ = some idx := by
  obtain ⟨ε, hε, hidx⟩ := hs.index
  obtain ⟨L, hL, hids⟩ := hs.created.level
  replace hids : L.blockIds = e.newBlockIds blks.length := hids
  obtain ⟨hnout, hoout⟩ := hs.ne_output hfresh
  obtain ⟨hlevel, hpgm⟩ := hs.levels hnout.symm hoout.symm
  -- the blocks of the output are new
  have hnew : ∀ b ∈ e.newBlockIds blks.length, b ∉ e.mapping.logicalToPhysical := fun b hb hmem ↦
    absurd (h.blocks_lt b hmem) (not_lt.mpr (mem_newBlockIds.mp hb).1)
  have hsorted : SortedBy (·.key) (e.mergedRecords newer older) :=
    SortedBy.of_map_keys (builtOn_of_buildBatchPgm hidx).sorted
  refine ⟨⟨⟨?_, L, hlevel.trans hL, ?_⟩, ⟨hs.created.capacity, ?_, ?_⟩, hs.records⟩,
    ε, hε, hidx, hpgm.trans (Finmap.lookup_insert _)⟩
  · rw [hs.retired, Finset.mem_insert, Finset.mem_insert, not_or, not_or]
    exact ⟨hoout.symm, hnout.symm, hret⟩
  · rw [hids]
    exact ReadAs.congr hs.created.forall₂_new fun b hb ↦ hs.blockAt
      (fun hmem ↦ hnew b hb (hnmapped b hmem)) fun hmem ↦ hnew b hb (homapped b hmem)
  · rw [hs.records]
    exact packed_chunks e.config.blockCapacity_pos _
  · rw [blockRecords, hs.records, mergedBlocks, flatten_chunks e.config.blockCapacity_pos]
    exact hsorted

theorem published (h : e.WellFormed) (hne : newer ≠ older) :
    Published e (e₅.forget older) newer older := by
  have hn := hs.newer_level
  have ho := hs.older_level
  have hc := hs.created
  have hd₄ := hs.newer_dropped
  have hd₅ := hs.older_dropped
  have hwf := h.afterReads (e.slotsOf n.blockIds ++ e.slotsOf o.blockIds)
  have hn₂ := hc.lookup_old hwf.fresh_level hn
  have ho₂ := hc.lookup_old hwf.fresh_level ho
  have hwf₃ := hwf.withOutput hc (e₂.slotsOf (e.newBlockIds blks.length)) idx
  have hwf₄ := hwf₃.forget hn₂ hd₄
  have ho₄ := (hd₄.lookup_forget hne.symm).trans ho₂
  obtain ⟨houtput, ε, hε, hidx, hpgm⟩ :=
    hs.output h.toCoherent h.fresh_level h.fresh_retired (h.mapped newer n hn) (h.mapped older o ho)
  exact {
    config := (hd₅.config.trans hd₄.config).trans hc.config
    retired := hs.retired
    newer_gone := by
      rw [hs.levels_eq, Finmap.mem_erase, Finmap.mem_erase]
      exact fun hmem ↦ hmem.2.1 rfl
    older_gone := by
      rw [hs.levels_eq, Finmap.mem_erase]
      exact fun hmem ↦ hmem.1 rfl
    nextLevelId := (hd₅.nextLevelId.trans hd₄.nextLevelId).trans hc.nextLevelId
    output := ⟨blks, houtput⟩
    index := ⟨ε, idx, hε, hidx, hpgm⟩
    levels := fun l hln hlo hlout ↦ by
      rw [(hs.levels hln hlo).1, (hs.levels hln hlo).2, hc.levels l hlout,
        Finmap.lookup_insert_of_ne _ hlout, hc.pgms l hlout]
      exact ⟨Finmap.lookup_insert_of_ne _ hlout, rfl⟩
    blocks := fun l L' hln hlo hL' b hb ↦ by
      rw [hs.blockAt (h.disjoint l newer L' n hL' hn hln hb)
          (h.disjoint l older L' o hL' ho hlo hb),
        hc.blockAt_old hwf.withNewLevel.toCoherent (hwf.withNewLevel.free_slots _)
          (h.mapped l L' hL' b hb)]
      exact afterReads_blockAt e _ b
    wellFormed := hwf₄.forget ho₄ hd₅ }

end MergeSteps

/-- A merge is all or nothing: it publishes the output and retires both inputs, or raises and
leaves the active levels, their contents, the mapping, the occupied slots and the PGMs alone. -/
theorem mergeBlockingWith_allOrNothing (h : e.WellFormed) (faults : FaultPlan)
    (newer older : LevelId) :
    (MergeAccepted faults e newer older ∧ ∃ e',
      (mergeBlockingWith faults newer older).run e = .ok (e.mergeResult newer older) e' ∧
        Published e e' newer older) ∨
    (¬ MergeAccepted faults e newer older ∧ ∃ err e',
      (mergeBlockingWith faults newer older).run e = .error err e' ∧ Unchanged e e') := by
  obtain ⟨ha, n, o, e₂, e₄, e₅, blks, idx, hsteps, hrun⟩ | hrefused :=
    h.mergeBlockingWith_cases faults newer older
  · exact Or.inl ⟨ha, _, hrun, hsteps.published h ha.distinct⟩
  · exact Or.inr hrefused

section TwoLevels

/-- The levels 0 and 1, with the keys `1, 2` and `2, 3`. -/
def twoLevels : Engine Nat :=
  (Engine.init ⟨1, some 0, Nat.one_pos⟩).afterAll
    [.buildLevel [{ key := ⟨1⟩, value := 0 }, { key := ⟨2⟩, value := 0 }] none,
      .buildLevel [{ key := ⟨2⟩, value := 1 }, { key := ⟨3⟩, value := 1 }] none]

theorem wellFormed_twoLevels : twoLevels.WellFormed := by
  rw [twoLevels, afterAll, List.foldl_cons, List.foldl_cons, List.foldl_nil]
  exact ((WellFormed.init _).after_buildLevel (by decide)).after_buildLevel (by decide)

theorem mergeAccepted_twoLevels : MergeAccepted .none twoLevels ⟨1⟩ ⟨0⟩ := by
  obtain ⟨ha, -⟩ | ⟨-, err, e', hrun, -⟩ :=
    wellFormed_twoLevels.mergeBlockingWith_cases .none ⟨1⟩ ⟨0⟩
  · exact ha
  · have hok : (outcome ((mergeBlockingWith .none ⟨1⟩ ⟨0⟩).run twoLevels)).isOk = true := by
      decide +kernel
    rw [hrun] at hok
    cases hok

/-- Without faults this merge is published, with a fault at the third block nothing is. -/
theorem mergeBlockingWith_twoLevels :
    (∃ e', (mergeBlockingWith .none ⟨1⟩ ⟨0⟩).run twoLevels =
      .ok (twoLevels.mergeResult ⟨1⟩ ⟨0⟩) e' ∧ Published twoLevels e' ⟨1⟩ ⟨0⟩) ∧
    ∃ err e', (mergeBlockingWith ⟨fun j ↦ j = 2, false⟩ ⟨1⟩ ⟨0⟩).run twoLevels = .error err e' ∧
      Unchanged twoLevels e' := by
  constructor
  · obtain ⟨-, hrun⟩ | ⟨hrefused, -⟩ :=
      mergeBlockingWith_allOrNothing wellFormed_twoLevels .none ⟨1⟩ ⟨0⟩
    · exact hrun
    · exact absurd mergeAccepted_twoLevels hrefused
  · obtain ⟨-, e', hrun, -⟩ | ⟨-, hrun⟩ :=
      mergeBlockingWith_allOrNothing wellFormed_twoLevels ⟨fun j ↦ j = 2, false⟩ ⟨1⟩ ⟨0⟩
    · have hok : (outcome ((mergeBlockingWith ⟨fun j ↦ j = 2, false⟩ ⟨1⟩ ⟨0⟩).run
          twoLevels)).isOk = false := by decide +kernel
      rw [hrun] at hok
      cases hok
    · exact hrun

end TwoLevels

end Engine

end EnhancedLetIndex
