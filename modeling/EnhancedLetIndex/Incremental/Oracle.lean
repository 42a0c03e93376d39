import EnhancedLetIndex.Incremental.Advance

/-!
# The functional merge oracle

The translation of the oracle that drives a merge job to its end under any schedule of budgets
and checks what the job has emitted.  The loop that drains a job has fuel here; with fuel for
every record and one more round the oracle returns the canonical result whatever the schedule
is (`functionalMergeOracle_eq`).
-/

namespace EnhancedLetIndex

variable {V : Type}

/-- `FunctionalOracleError`, and what the oracle passes on. -/
inductive FunctionalOracleError where
  | budget (q : Int)
  | sameLevel (level : Nat)
  | reverseDirection (source target : Nat)
  | gappedLevels (source target : Nat)
  | blockCount (reported emitted : Nat)
  | blockRanks (ranks : List Nat)
  | recordCount (reported held : Nat)
  | notFull (rank held itemsPerBlock : Nat)
  | finalSize (held itemsPerBlock : Nat)
  | keysNotIncreasing
  /-- An error of the job. -/
  | job (e : IncrementalMergeError)
  /-- The model is out of fuel; the source goes on. -/
  | outOfFuel
deriving DecidableEq, Repr

/-- `FunctionalMergeOracleResult`. -/
structure FunctionalMergeOracleResult (V : Type) where
  sourceLevel : Nat
  targetLevel : Nat
  itemsPerBlock : Nat
  epsilon : Nat
  recordCount : Nat
  blockCount : Nat
  duplicateCount : Nat
  blocks : List (OutputBlock V)
  pgm : BatchPgmIndex
  firstKey : Option RecordKey
  lastKey : Option RecordKey
deriving DecidableEq, Repr

/-- `item_count`. -/
def OutputBlock.itemCount (block : OutputBlock V) : Nat := block.keys.length

/-- `output_key_stream`. -/
def outputKeyStream (blocks : List (OutputBlock V)) : List RecordKey :=
  blocks.flatMap (·.keys)

/-! ## Validation -/

/-- `_validate_merge_identity`. -/
def validateMergeIdentity (source target : LogicalRunView V) :
    Except FunctionalOracleError Unit :=
  if source.level = target.level then .error (.sameLevel source.level)
  else if source.level > target.level then .error (.reverseDirection source.level target.level)
  else if target.level ≠ source.level + 1 then .error (.gappedLevels source.level target.level)
  else .ok ()

/-- `_validate_schedule`. -/
def validateSchedule : List Int → Except FunctionalOracleError (List Int)
  | [] => .ok []
  | q :: rest => if q ≤ 0 then .error (.budget q) else (q :: ·) <$> validateSchedule rest

/-- The last two checks of `_check_canonical_packing`. -/
def checkFinalBlock (blocks : List (OutputBlock V)) (itemsPerBlock : Nat) :
    Except FunctionalOracleError Unit :=
  let keys := (outputKeyStream blocks).map (·.value)
  if ∃ final ∈ blocks.getLast?, ¬ (1 ≤ final.itemCount ∧ final.itemCount ≤ itemsPerBlock) then
    .error (.finalSize ((blocks.getLast?.map (·.itemCount)).getD 0) itemsPerBlock)
  else if keys ≠ keys.toFinset.sort (· ≤ ·) then .error .keysNotIncreasing
  else .ok ()

/-- `_check_canonical_packing`. -/
def checkCanonicalPacking (blocks : List (OutputBlock V))
    (itemsPerBlock recordCount blockCount : Nat) : Except FunctionalOracleError Unit :=
  if blocks.length ≠ blockCount then .error (.blockCount blockCount blocks.length)
  else if ∃ p ∈ blocks.zipIdx, p.1.rank ≠ p.2 then .error (.blockRanks (blocks.map (·.rank)))
  else if (blocks.map (·.itemCount)).sum ≠ recordCount then
    .error (.recordCount recordCount (blocks.map (·.itemCount)).sum)
  else match blocks.dropLast.find? (·.itemCount ≠ itemsPerBlock) with
    | some block => .error (.notFull block.rank block.itemCount itemsPerBlock)
    | none => checkFinalBlock blocks itemsPerBlock

/-! ## Driving a job -/

/-- A program that drives a job without a sink. -/
abbrev OracleM (V : Type) := EStateM FunctionalOracleError (IncrementalMergeJob V × PUnit)

/-- A call of the job. -/
def onJob {α : Type} (x : JobM V PUnit α) : OracleM V α := zoom id (fun t _ ↦ t) .job x

/-- The loop over the budgets of a schedule. -/
def applyBudgets : List Int → List (OutputBlock V) → List Int →
    OracleM V (List (OutputBlock V) × List Int)
  | [], blocks, applied => pure (blocks, applied)
  | budget :: rest, blocks, applied => do
    let job ← onJob IncrementalMergeJob.self
    if job.done then pure (blocks, applied)
    else do
      let step ← onJob (IncrementalMergeJob.advance none budget)
      applyBudgets rest (blocks ++ step.blocks) (applied ++ [budget])

/-- The loop that drains a job. -/
def drain : Nat → List (OutputBlock V) → List Int → OracleM V (List (OutputBlock V) × List Int)
  | 0, blocks, applied => do
    let job ← onJob IncrementalMergeJob.self
    if job.done then pure (blocks, applied) else throw .outOfFuel
  | fuel + 1, blocks, applied => do
    let job ← onJob IncrementalMergeJob.self
    if job.done then pure (blocks, applied)
    else do
      let step ← onJob (IncrementalMergeJob.advance none 1)
      drain fuel (blocks ++ step.blocks) (applied ++ [1])

/-- `collect_output_blocks`: the blocks and the budgets that were applied. -/
def collectOutputBlocks (fuel : Nat) (schedule : Option (List Int)) :
    OracleM V (List (OutputBlock V) × List Int) := do
  let job ← onJob IncrementalMergeJob.self
  let budgets ← liftExcept id (match schedule with
    | none => .ok [max 1 (job.source.itemCount + job.target.itemCount : Int)]
    | some schedule => validateSchedule schedule)
  let (blocks, applied) ← applyBudgets budgets [] []
  drain fuel blocks applied

/-- The blocks of a job that is driven to its end, and its result. -/
def collectAndFinalize (fuel : Nat) (schedule : Option (List Int)) :
    OracleM V (List (OutputBlock V) × IncrementalMergeResult) := do
  let (blocks, _) ← collectOutputBlocks fuel schedule
  let merged ← onJob IncrementalMergeJob.finalize
  pure (blocks, merged)

/-- `functional_merge_oracle`. -/
def functionalMergeOracle (fuel : Nat) (config : IncrementalMergeConfig)
    (source target : LogicalRunView V) (schedule : Option (List Int)) :
    Except FunctionalOracleError (FunctionalMergeOracleResult V) := do
  validateMergeIdentity source target
  let job ← (IncrementalMergeJob.begin config source target).mapError .job
  let (blocks, merged) ← outcome ((collectAndFinalize fuel schedule).run (job, ⟨⟩))
  checkCanonicalPacking blocks job.config.itemsPerBlock merged.recordCount merged.blockCount
  pure {
    sourceLevel := merged.sourceLevel
    targetLevel := merged.targetLevel
    itemsPerBlock := job.config.itemsPerBlock
    epsilon := job.config.epsilon
    recordCount := merged.recordCount
    blockCount := merged.blockCount
    duplicateCount := merged.duplicateCount
    blocks := blocks
    pgm := merged.pgm
    firstKey := merged.firstKey
    lastKey := merged.lastKey }

/-! ## The checks pass on a canonical packing -/

theorem map_keys_blocksFrom (rank : Nat) (pieces : List (List (RecordKey × V))) :
    (blocksFrom rank pieces).map (·.keys) = pieces.map (List.map Prod.fst) := by
  rw [blocksFrom, List.map_map]
  conv_rhs => rw [← List.zipIdx_map_fst rank pieces, List.map_map]
  rfl

/-- In a packing the sizes are those that are checked. -/
theorem itemCount_of_packed {c : Nat} {blocks : List (OutputBlock V)}
    (hpacked : Packed c (blocks.map (·.keys))) :
    (∀ block ∈ blocks.dropLast, block.itemCount = c) ∧
      ∀ final ∈ blocks.getLast?, 1 ≤ final.itemCount ∧ final.itemCount ≤ c := by
  induction blocks with
  | nil => simp
  | cons block blocks ih =>
    rcases blocks with _ | ⟨next, rest⟩
    · refine ⟨by simp, ?_⟩
      intro final hfinal
      cases hfinal
      exact hpacked
    · have hrest := ih hpacked.2
      rw [List.dropLast_cons_of_ne_nil (List.cons_ne_nil _ _), List.getLast?_cons_cons]
      refine ⟨fun b hb ↦ ?_, hrest.2⟩
      rcases List.mem_cons.mp hb with rfl | hb
      · exact hpacked.1
      · exact hrest.1 b hb

theorem checkFinalBlock_eq_ok {c : Nat} {blocks : List (OutputBlock V)}
    (hfinal : ∀ final ∈ blocks.getLast?, 1 ≤ final.itemCount ∧ final.itemCount ≤ c)
    (hkeys : (outputKeyStream blocks).Pairwise (· < ·)) : checkFinalBlock blocks c = .ok () := by
  have hvalues : ((outputKeyStream blocks).map (·.value)).Pairwise (· < ·) :=
    List.pairwise_map.mpr hkeys
  have hsorted : ((outputKeyStream blocks).map (·.value)).toFinset.sort (· ≤ ·) =
      (outputKeyStream blocks).map (·.value) :=
    (List.toFinset_sort _ (hvalues.imp ne_of_lt)).mpr (hvalues.imp le_of_lt)
  rw [checkFinalBlock, if_neg (by push Not; exact hfinal), hsorted, if_neg (not_not.mpr rfl)]

/-- `_check_canonical_packing` accepts a canonical packing of increasing records. -/
theorem checkCanonicalPacking_eq_ok {c : Nat} (hc : 0 < c) {records : List (RecordKey × V)}
    (hsorted : (records.map Prod.fst).Pairwise (· < ·)) :
    checkCanonicalPacking (canonicalBlocks c records) c records.length
      (canonicalBlocks c records).length = .ok () := by
  have hkeys : (canonicalBlocks c records).map (·.keys) = chunks c (records.map Prod.fst) := by
    rw [canonicalBlocks, map_keys_blocksFrom, chunks_map]
  have hstream : outputKeyStream (canonicalBlocks c records) = records.map Prod.fst := by
    rw [outputKeyStream, List.flatMap_def, hkeys, flatten_chunks hc]
  have hsum : ((canonicalBlocks c records).map (·.itemCount)).sum = records.length := by
    have hcount : (canonicalBlocks c records).map (·.itemCount) =
        ((canonicalBlocks c records).map (·.keys)).map List.length := by
      rw [List.map_map]
      rfl
    rw [hcount, hkeys, ← List.length_flatten, flatten_chunks hc, List.length_map]
  have hranks : ¬ ∃ p ∈ (canonicalBlocks c records).zipIdx, p.1.rank ≠ p.2 := by
    rintro ⟨⟨block, i⟩, hp, hne⟩
    have hget : (canonicalBlocks c records)[i]? = some block :=
      List.mk_mem_zipIdx_iff_getElem?.mp hp
    have hrank := congrArg (·[i]?) (canonicalPacking_canonicalBlocks hc records).ranks
    simp only [List.getElem?_map, hget, Option.map_some] at hrank
    obtain ⟨hi, -⟩ := List.getElem?_eq_some_iff.mp hget
    rw [List.getElem?_range hi] at hrank
    exact hne (Option.some.inj hrank)
  obtain ⟨hfull, hfinal⟩ := itemCount_of_packed (hkeys ▸ packed_chunks hc _)
  have hfind : (canonicalBlocks c records).dropLast.find? (·.itemCount ≠ c) = none :=
    List.find?_eq_none.mpr fun block hblock ↦ by simpa using hfull block hblock
  rw [checkCanonicalPacking, if_neg (not_not.mpr rfl), if_neg hranks, hsum,
    if_neg (not_not.mpr rfl), hfind]
  exact checkFinalBlock_eq_ok hfinal (hstream ▸ hsorted)

/-! ## The loops -/

open IncrementalMergeJob

variable {job : IncrementalMergeJob V} {pieces : List (List (RecordKey × V))}

theorem run_onJob {α : Type} {x : JobM V PUnit α} {s s' : IncrementalMergeJob V × PUnit} {a : α}
    (h : x.run s = .ok a s') : (onJob x).run s = .ok a s' := run_zoom_of_ok h

theorem sinkReturns_none : SinkReturns (none : Option (Sink V PUnit)) :=
  fun f hf ↦ by cases hf

/-- The budgets of a schedule bring the job from pause to pause. -/
theorem run_applyBudgets (h : job.Paused pieces) {budgets : List Int}
    (hbudgets : ∀ q ∈ budgets, 0 < q) (applied : List Int) :
    ∃ pieces' applied' job', (applyBudgets budgets (blocksFrom 0 pieces) applied).run (job, ⟨⟩) =
        .ok (blocksFrom 0 pieces', applied') (job', ⟨⟩) ∧
      job'.Paused pieces' ∧ job.SameMerge job' := by
  induction budgets generalizing job pieces applied with
  | nil => exact ⟨pieces, applied, job, rfl, h, .refl job⟩
  | cons q budgets ih =>
    rw [applyBudgets, run_bind_of_ok (run_onJob (run_self _))]
    by_cases hdone : job.done = true
    · rw [if_pos hdone]
      exact ⟨pieces, applied, job, rfl, h, .refl job⟩
    · rw [if_neg hdone]
      obtain ⟨new, step, job₁, w, hrun, hblocks, -, -, -, -, -, h₁, hmerge⟩ :=
        h.run_advance (w := ⟨⟩) sinkReturns_none (hbudgets q List.mem_cons_self)
      obtain ⟨pieces', applied', job', hrest, h', hmerge'⟩ :=
        ih h₁ (fun p hp ↦ hbudgets p (List.mem_cons_of_mem q hp)) (applied ++ [q])
      refine ⟨pieces', applied', job', ?_, h', hmerge.trans hmerge'⟩
      rw [run_bind_of_ok (run_onJob hrun), hblocks, ← hrest, blocksFrom_append, Nat.zero_add]

/-- With fuel for the records that are left and one more round the job is drained. -/
theorem run_drain (h : job.Paused pieces) {fuel : Nat}
    (hfuel : job.done = true ∨
      (mergedRecords job.source job.target).length < job.outputRecords + fuel)
    (applied : List Int) :
    ∃ pieces' applied' job', (drain fuel (blocksFrom 0 pieces) applied).run (job, ⟨⟩) =
        .ok (blocksFrom 0 pieces', applied') (job', ⟨⟩) ∧
      job'.Paused pieces' ∧ job.SameMerge job' ∧ job'.done = true := by
  induction fuel generalizing job pieces applied with
  | zero =>
    have hdone : job.done = true := hfuel.resolve_right (not_lt.mpr h.outputRecords_le)
    refine ⟨pieces, applied, job, ?_, h, .refl job, hdone⟩
    rw [drain, run_bind_of_ok (run_onJob (run_self _)), if_pos hdone]
    rfl
  | succ fuel ih =>
    rw [drain, run_bind_of_ok (run_onJob (run_self _))]
    by_cases hdone : job.done = true
    · rw [if_pos hdone]
      exact ⟨pieces, applied, job, rfl, h, .refl job, hdone⟩
    · rw [if_neg hdone]
      obtain ⟨new, step, job₁, w, hrun, hblocks, -, -, hdecisions, hout, hdone₁, h₁, hmerge⟩ :=
        h.run_advance (w := ⟨⟩) sinkReturns_none Int.one_pos
      have hlt := hfuel.resolve_left hdone
      have hfuel₁ : job₁.done = true ∨
          (mergedRecords job₁.source job₁.target).length < job₁.outputRecords + fuel := by
        rw [hdone₁, hmerge.source, hmerge.target, hout, hdecisions, Int.toNat_one]
        omega
      obtain ⟨pieces', applied', job', hrest, h', hmerge', hdone'⟩ := ih h₁ hfuel₁ (applied ++ [1])
      refine ⟨pieces', applied', job', ?_, h', hmerge.trans hmerge', hdone'⟩
      rw [run_bind_of_ok (run_onJob hrun), hblocks, ← hrest, blocksFrom_append, Nat.zero_add]

theorem validateSchedule_eq_ok {schedule : List Int} (h : ∀ q ∈ schedule, 0 < q) :
    validateSchedule schedule = .ok schedule := by
  induction schedule with
  | nil => rfl
  | cons q rest ih =>
    rw [validateSchedule, if_neg (not_le.mpr (h q List.mem_cons_self)),
      ih fun p hp ↦ h p (List.mem_cons_of_mem q hp)]
    rfl

/-- The job ends with the canonical blocks, whatever the schedule. -/
theorem run_collectOutputBlocks (h : job.Paused [])
    {schedule : Option (List Int)} (hschedule : ∀ qs ∈ schedule, ∀ q ∈ qs, 0 < q) {fuel : Nat}
    (hfuel : (mergedRecords job.source job.target).length < fuel) :
    ∃ applied pieces job', (collectOutputBlocks fuel schedule).run (job, ⟨⟩) =
        .ok (canonicalBlocks job.config.itemsPerBlock (mergedRecords job.source job.target),
          applied) (job', ⟨⟩) ∧
      job'.Paused pieces ∧ job.SameMerge job' ∧ job'.done = true := by
  have hbudgets : ∃ budgets : List Int, (match schedule with
      | none => Except.ok [max 1 (job.source.itemCount + job.target.itemCount : Int)]
      | some schedule => validateSchedule schedule) = .ok budgets ∧ ∀ q ∈ budgets, 0 < q := by
    cases schedule with
    | none =>
      refine ⟨_, rfl, fun q hq ↦ ?_⟩
      rw [List.mem_singleton.mp hq]
      exact lt_max_of_lt_left Int.one_pos
    | some qs => exact ⟨qs, validateSchedule_eq_ok (hschedule qs rfl), hschedule qs rfl⟩
  obtain ⟨budgets, heq, hpos⟩ := hbudgets
  obtain ⟨pieces₁, applied₁, job₁, hrun₁, h₁, hmerge₁⟩ := run_applyBudgets h hpos []
  have hfuel₁ : (mergedRecords job₁.source job₁.target).length < job₁.outputRecords + fuel := by
    rw [hmerge₁.source, hmerge₁.target]
    exact hfuel.trans_le (Nat.le_add_left _ _)
  obtain ⟨pieces, applied, job', hrun, h', hmerge', hdone⟩ :=
    run_drain h₁ (Or.inr hfuel₁) applied₁
  have hmerge := hmerge₁.trans hmerge'
  refine ⟨applied, pieces, job', ?_, h', hmerge, hdone⟩
  rw [collectOutputBlocks, run_bind_of_ok (run_onJob (run_self _)), heq,
    run_bind_of_ok (run_liftExcept_ok ..)]
  refine (run_bind_of_ok hrun₁ _).trans (hrun.trans ?_)
  rw [h'.blocks_of_done hdone, hmerge.config, hmerge.source, hmerge.target]

/-! ## The oracle -/

/-- What the oracle returns, for the PGM of the merged keys. -/
def oracleResult (config : IncrementalMergeConfig) (source target : LogicalRunView V)
    (pgm : BatchPgmIndex) : FunctionalMergeOracleResult V where
  sourceLevel := source.level
  targetLevel := target.level
  itemsPerBlock := config.itemsPerBlock
  epsilon := config.epsilon
  recordCount := (mergedRecords source target).length
  blockCount := (canonicalBlocks config.itemsPerBlock (mergedRecords source target)).length
  duplicateCount := (source.keys.toFinset ∩ target.keys.toFinset).card
  blocks := canonicalBlocks config.itemsPerBlock (mergedRecords source target)
  pgm := pgm
  firstKey := pgm.firstKey
  lastKey := pgm.lastKey

/-- The oracle returns the canonical result for every schedule. -/
theorem functionalMergeOracle_eq (config : IncrementalMergeConfig) {source target : LogicalRunView V}
    (hlevels : target.level = source.level + 1) :
    ∃ pgm, buildBatchPgm ((mergedRecords source target).map Prod.fst) config.epsilon = .ok pgm ∧
      ∀ (schedule : Option (List Int)) (fuel : Nat), (∀ qs ∈ schedule, ∀ q ∈ qs, 0 < q) →
        (mergedRecords source target).length < fuel →
        functionalMergeOracle fuel config source target schedule =
          .ok (oracleResult config source target pgm) := by
  obtain ⟨job, hbegin, hrunning, rfl, rfl, rfl, -, hfalse⟩ :=
    IncrementalMergeJob.Running.of_begin config hlevels
  have hsorted := (sortedBy_mergedRecords job.source job.target).map_keys
  obtain ⟨pgm, hpgm, -⟩ := buildBatchPgm_spec hsorted job.config.epsilon
  refine ⟨pgm, hpgm, fun schedule fuel hschedule hfuel ↦ ?_⟩
  obtain ⟨applied, pieces, job', hcollect, h', hmerge, hdone⟩ :=
    run_collectOutputBlocks (Paused.running hrunning hfalse) hschedule hfuel
  obtain ⟨pgm', hfinalize, hbatch⟩ := h'.run_finalize (w := PUnit.unit) hdone
  rw [hmerge.source, hmerge.target, hmerge.config] at hbatch
  cases hpgm.symm.trans hbatch
  have hrecords : job'.outputRecords = (mergedRecords job.source job.target).length := by
    have hle := h'.outputRecords_le
    have hge := h'.le_outputRecords hdone
    rw [hmerge.source, hmerge.target] at hle hge
    exact le_antisymm hle hge
  have hblocks := h'.emittedBlocks_of_done hdone
  have hdup := h'.duplicateCount_eq hdone
  rw [hmerge.source, hmerge.target, hmerge.config] at hblocks
  rw [hmerge.source, hmerge.target] at hdup
  have hidentity : validateMergeIdentity job.source job.target = .ok () := by
    rw [validateMergeIdentity, if_neg (by omega), if_neg (by omega), if_neg (by omega)]
  have hrun : (collectAndFinalize fuel schedule).run (job, ⟨⟩) =
        .ok (canonicalBlocks job.config.itemsPerBlock (mergedRecords job.source job.target),
          job'.result pgm) ({ job' with finalized := some (job'.result pgm) }, ⟨⟩) :=
    (run_bind_of_ok hcollect _).trans (run_bind_of_ok (run_onJob hfinalize) _)
  have hcheck := checkCanonicalPacking_eq_ok job.config.itemsPerBlock_pos hsorted
  have hjob : (Except.ok job : Except _ _).mapError FunctionalOracleError.job = .ok job := rfl
  rw [functionalMergeOracle, hidentity, hbegin, ok_bind, hjob, ok_bind, hrun]
  change (do
    checkCanonicalPacking (canonicalBlocks job.config.itemsPerBlock
      (mergedRecords job.source job.target)) job.config.itemsPerBlock job'.outputRecords
      job'.emittedBlocks
    pure _) = _
  rw [hrecords, hblocks, hcheck, ok_bind]
  simp only [IncrementalMergeJob.result, oracleResult, hrecords, hblocks, hdup, hmerge.source,
    hmerge.target]
  rfl

end EnhancedLetIndex
