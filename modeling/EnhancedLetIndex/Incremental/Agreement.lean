import EnhancedLetIndex.Engine.Returned
import EnhancedLetIndex.Incremental.Oracle

/-!
# The blocking merge and the oracle

A merge of two levels of an engine and the oracle on the records of these levels compute the
same union, cut it into the same blocks and index the same keys, so what the merge publishes is
what the oracle returns (`merge_agrees_with_oracle`).
-/

namespace EnhancedLetIndex

variable {V W : Type}

namespace Engine

variable {e : Engine V}

/-- The view of a level as a run, with what the run carries for a record. -/
structure IsView (e : Engine V) (l : LevelId) (carried : Record V → W) (view : LogicalRunView W) :
    Prop where
  keys : view.keys = (e.recordsOf l).map (·.key)
  values : view.values = (e.recordsOf l).map carried

/-- The record of a run for a record of a level. -/
def runRecord (carried : Record V → W) (record : Record V) : RecordKey × W :=
  (record.key, carried record)

theorem IsView.records {l : LevelId} {carried : Record V → W} {view : LogicalRunView W}
    (h : e.IsView l carried view) : view.records = (e.recordsOf l).map (runRecord carried) := by
  rw [LogicalRunView.records, h.keys, h.values]
  exact List.zip_map' ..

theorem IsView.sorted {l : LevelId} {carried : Record V → W} {view : LogicalRunView W}
    (h : e.IsView l carried view) : SortedBy (·.key) (e.recordsOf l) :=
  .of_map_keys (h.keys ▸ view.sorted)

variable {newer older : LevelId} {carried : Record V → W} {source target : LogicalRunView W}

/-- The views have the merged records of the levels. -/
theorem mergedRecords_views (hs : e.IsView newer carried source)
    (ht : e.IsView older carried target) :
    EnhancedLetIndex.mergedRecords source target =
      (e.mergedRecords newer older).map (runRecord carried) := by
  rw [EnhancedLetIndex.mergedRecords, hs.records, ht.records]
  exact unionNewer_map (fun _ ↦ rfl) hs.sorted ht.sorted

theorem duplicates_views (hs : e.IsView newer carried source)
    (ht : e.IsView older carried target) :
    (source.keys.toFinset ∩ target.keys.toFinset).card =
      (shadowed (·.key) (e.recordsOf newer) (e.recordsOf older)).length := by
  rw [← length_shadowed_records, hs.records, ht.records]
  exact length_shadowed_map fun _ ↦ rfl

/-- The block of a level as an output block. -/
def outputBlock (carried : Record V → W) (rank : Nat) (block : Block V) : OutputBlock W :=
  ⟨rank, block.records.map (·.key), block.records.map carried⟩

/-- The blocks of the two packings are the same. -/
theorem canonicalBlocks_views (hs : e.IsView newer carried source)
    (ht : e.IsView older carried target) {blks : List (Block V)}
    (hblks : blks.map (·.records) = e.mergedBlocks newer older) :
    canonicalBlocks e.config.blockCapacity (EnhancedLetIndex.mergedRecords source target) =
      blks.zipIdx.map fun p ↦ outputBlock carried p.2 p.1 := by
  rw [mergedRecords_views hs ht, canonicalBlocks, chunks_map]
  change blocksFrom 0 ((e.mergedBlocks newer older).map _) = _
  rw [← hblks, List.map_map, blocksFrom, List.zipIdx_map, List.map_map]
  refine List.map_congr_left fun p _ ↦ ?_
  simp only [Function.comp_apply, Prod.map_fst, Prod.map_snd, List.map_map, id_eq]
  rfl

/-- For two canonical levels of any reachable engine, the oracle on the records of the levels
returns the same result for all schedules, and a merge that publishes its output publishes that
result: the blocks, the counts and the PGM.  In a well-formed state it does publish. -/
theorem merge_agrees_with_oracle {config : Config}
    (he : Reachable (fun _ _ ↦ True) config e) (hne : newer ≠ older)
    (hnewer : e.CanonicalLevel newer) (holder : e.CanonicalLevel older)
    {merge : IncrementalMergeConfig} (hcapacity : merge.itemsPerBlock = e.config.blockCapacity)
    (hepsilon : e.config.pgmEpsilon = some merge.epsilon)
    (hs : e.IsView newer carried source) (ht : e.IsView older carried target)
    (hlevels : target.level = source.level + 1) :
    ∃ oracle, (∀ (schedule : Option (List Int)) (fuel : Nat),
        (∀ qs ∈ schedule, ∀ q ∈ qs, 0 < q) → source.itemCount + target.itemCount < fuel →
        functionalMergeOracle fuel merge source target schedule = .ok oracle) ∧
      (∀ r e', (mergeLevelsBlocking newer older).run e = .ok r e' →
        (∃ blks, e'.Holds r.outputLevelId blks ∧
          oracle.blocks = blks.zipIdx.map fun p ↦ outputBlock carried p.2 p.1) ∧
        r.outputRecordCount = oracle.recordCount ∧
        r.discardedOlderRecordCount = oracle.duplicateCount ∧
        e'.pgmIndexes.lookup r.outputLevelId = some oracle.pgm) ∧
      (e.WellFormed → ∃ r e', (mergeLevelsBlocking newer older).run e = .ok r e') := by
  have hc := he.consistent
  obtain ⟨pgm, hpgm, horacle⟩ := functionalMergeOracle_eq merge hlevels
  have hmerged := mergedRecords_views hs ht
  refine ⟨oracleResult merge source target pgm, fun schedule fuel hschedule hfuel ↦ ?_, ?_, ?_⟩
  · refine horacle schedule fuel hschedule (lt_of_le_of_lt ?_ hfuel)
    have := length_unionNewer Prod.fst source.records target.records
    rw [LogicalRunView.length_records, LogicalRunView.length_records] at this
    exact this ▸ Nat.le_add_right _ _
  · intro r e' hrun
    obtain ⟨n, o, e₂, e₄, e₅, blks, idx, -, hsteps, hnmapped, homapped, rfl, rfl⟩ :=
      hc.mergeBlockingWith_returned hrun
    obtain ⟨⟨hholds, -, hblks⟩, ε, hε, hidx, hlookup⟩ := hsteps.output hc.toCoherent
      (fun hmem ↦ lt_irrefl _ (hc.levels_lt _ hmem))
      (fun hmem ↦ lt_irrefl _ (hc.retired_lt _ hmem)) hnmapped homapped
    cases hepsilon.symm.trans hε
    have hkeys : (EnhancedLetIndex.mergedRecords source target).map Prod.fst =
        (e.mergedRecords newer older).map (·.key) := by
      rw [hmerged, List.map_map]
      rfl
    rw [hkeys] at hpgm
    cases hpgm.symm.trans hidx
    refine ⟨⟨blks, hholds, ?_⟩, ?_, ?_, hlookup⟩
    · rw [oracleResult, hcapacity]
      exact canonicalBlocks_views hs ht hblks
    · change (e.mergedRecords newer older).length = _
      rw [oracleResult, hmerged, List.length_map]
    · exact (duplicates_views hs ht).symm
  · intro hwf
    have ha : MergeAccepted .none e newer older := {
      distinct := hne
      canonical_newer := hnewer
      canonical_older := holder
      epsilon := by rw [hepsilon]; simp
      createBlock := fun _ _ ↦ rfl
      buildLevelPgm := rfl }
    obtain ⟨-, n, o, e₂, e₄, e₅, blks, idx, -, hrun⟩ | ⟨hnot, -⟩ :=
      hwf.mergeBlockingWith_cases .none newer older
    · exact ⟨_, _, hrun⟩
    · exact absurd ha hnot

/-- Level 1 of `twoLevels` as a run. -/
def newerRun : LogicalRunView Nat := ⟨0, [⟨2⟩, ⟨3⟩], [1, 1], rfl, by decide⟩

/-- Level 0 of `twoLevels` as a run. -/
def olderRun : LogicalRunView Nat := ⟨1, [⟨1⟩, ⟨2⟩], [0, 0], rfl, by decide⟩

/-- The two levels share the key 2. -/
theorem merge_agrees_with_oracle_twoLevels :
    ∃ oracle r e',
      functionalMergeOracle 5 ⟨1, 0, Nat.one_pos⟩ newerRun olderRun (some [2]) = .ok oracle ∧
      (mergeLevelsBlocking ⟨1⟩ ⟨0⟩).run twoLevels = .ok r e' ∧
      r.outputRecordCount = oracle.recordCount ∧
      r.discardedOlderRecordCount = oracle.duplicateCount ∧
      e'.pgmIndexes.lookup r.outputLevelId = some oracle.pgm := by
  have haccepted := mergeAccepted_twoLevels
  have hs : twoLevels.IsView ⟨1⟩ (·.value) newerRun := ⟨by decide +kernel, by decide +kernel⟩
  have ht : twoLevels.IsView ⟨0⟩ (·.value) olderRun := ⟨by decide +kernel, by decide +kernel⟩
  have he : Reachable (fun _ _ ↦ True) ⟨1, some 0, Nat.one_pos⟩ twoLevels := reachable_afterAll _ _
  obtain ⟨oracle, horacle, hagree, hruns⟩ := merge_agrees_with_oracle he haccepted.distinct
    haccepted.canonical_newer haccepted.canonical_older
    (show (⟨1, 0, Nat.one_pos⟩ : IncrementalMergeConfig).itemsPerBlock = _ by decide +kernel)
    (by decide +kernel) hs ht rfl
  obtain ⟨r, e', hrun⟩ := hruns wellFormed_twoLevels
  obtain ⟨-, hcount, hdup, hpgm⟩ := hagree r e' hrun
  exact ⟨oracle, r, e', horacle (some [2]) 5 (by simp) (by decide), hrun, hcount, hdup, hpgm⟩

end Engine

end EnhancedLetIndex
