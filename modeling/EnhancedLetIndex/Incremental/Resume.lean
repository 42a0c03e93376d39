import EnhancedLetIndex.Incremental.Advance

/-!
# A sink that raises

A job drops a block before the sink sees it, so an exception of the sink costs the job that
block.  When the block is full, the PGM and the pending records are already one record ahead of
the cursors: every later decision offers the PGM the key that it has taken last, and raises.
When it is the last block, the job is done without it.  So no later calls bring the merge to its
end (`Broken`), whereas a job whose sink has not raised is where a pause leaves it
(`Delivering`); `resumable_iff` is both.
-/

namespace EnhancedLetIndex

variable {V ω : Type}

namespace IncrementalMergeJob

/-! ## Calls and deliveries -/

/-- A sink with the blocks that it has taken.  A block that it raises on is not one of them. -/
def logged (f : Sink V ω) : Sink V (ω × List (OutputBlock V)) := fun block ↦ do
  zoom Prod.fst (fun w s ↦ (w, s.2)) id (f block)
  modify fun s ↦ (s.1, s.2 ++ [block])

/-- Calls of `advance`, each after the one before whether it has returned or raised. -/
def afterCalls (sink : Option (Sink V ω)) :
    List Int → IncrementalMergeJob V × ω → IncrementalMergeJob V × ω
  | [], s => s
  | q :: qs, s => afterCalls sink qs (finalState ((advance sink q).run s))

/-- One of the calls propagates an exception of the sink. -/
def SinkRaises (sink : Option (Sink V ω)) : List Int → IncrementalMergeJob V × ω → Prop
  | [], _ => False
  | q :: qs, s => outcome ((advance sink q).run s) = .error .sink ∨
      SinkRaises sink qs (finalState ((advance sink q).run s))

/-- The merge has come to its end: the job is done, the sink has taken every record of the union
once, and the result has the number of the records and the PGM of their keys. -/
structure Complete (config : IncrementalMergeConfig) (source target : LogicalRunView V)
    (s : IncrementalMergeJob V × ω × List (OutputBlock V)) : Prop where
  done : s.1.done = true
  delivered : (s.2.2.flatMap OutputBlock.records).Perm (mergedRecords source target)
  finalized : ∃ result s', (finalize : JobM V _ _).run s = .ok result s' ∧
    result.recordCount = (mergedRecords source target).length ∧
    buildBatchPgm ((mergedRecords source target).map Prod.fst) config.epsilon = .ok result.pgm

/-- With a sink that returns, enough later calls bring the merge to its end. -/
def Resumable (config : IncrementalMergeConfig) (source target : LogicalRunView V)
    (s : IncrementalMergeJob V × ω × List (OutputBlock V)) : Prop :=
  ∀ g : Sink V ω, SinkReturns (some g) → ∃ n, ∀ qs : List Int, (∀ q ∈ qs, 0 < q) →
    n ≤ qs.length → Complete config source target (afterCalls (some (logged g)) qs s)

variable {job : IncrementalMergeJob V} {pieces : List (List (RecordKey × V))}
  {pending rest : List (RecordKey × V)} {x : RecordKey × V} {f : Sink V ω} {w : ω}
  {log : List (OutputBlock V)}

theorem run_logged_of_ok {block : OutputBlock V} {w' : ω} (h : (f block).run w = .ok ⟨⟩ w') :
    (logged f block).run (w, log) = .ok ⟨⟩ (w', log ++ [block]) :=
  run_bind_of_ok (run_zoom_of_ok h) _

theorem run_logged_of_error {block : OutputBlock V} {w' : ω}
    (h : (f block).run w = .error ⟨⟩ w') :
    (logged f block).run (w, log) = .error ⟨⟩ (w', log) :=
  run_bind_of_error (run_zoom_of_error h) _

theorem SinkReturns.logged (h : SinkReturns (some f)) : SinkReturns (some (logged f)) := by
  rintro _ ⟨⟩ block ⟨w, log⟩
  obtain ⟨w', hw'⟩ := h f rfl block w
  exact ⟨_, run_logged_of_ok hw'⟩

/-! ## A logged sink and none -/

/-- The sink takes the block, or it raises and the block is lost. -/
theorem flushBlock_cases (f : Sink V ω) (job : IncrementalMergeJob V) (w : ω)
    (log : List (OutputBlock V)) :
    ∃ w', (flushBlock (some (logged f))).run (job, w, log) =
        .ok job.pendingBlock (job.flushed, w', log ++ [job.pendingBlock]) ∨
      (flushBlock (some (logged f))).run (job, w, log) = .error .sink (job.flushed, w', log) := by
  cases h : (f job.pendingBlock).run w with
  | ok u w' =>
    refine ⟨w', .inl ?_⟩
    rw [run_flushBlock_eq, run_bind_of_ok (run_deliver_of_ok (run_logged_of_ok h) _)]
    rfl
  | error u w' =>
    refine ⟨w', .inr ?_⟩
    rw [run_flushBlock_eq, run_bind_of_error (run_deliver_of_error (run_logged_of_error h) _)]

/-- A record whose key the PGM takes is emitted as without a sink, or its block is lost after
the PGM has taken the key. -/
theorem emit_cases {pgm : IncrementalPgmBuilder} (hadd : job.pgm.addKey x.1 = .ok pgm)
    (f : Sink V ω) (w : ω) (log : List (OutputBlock V)) :
    ∃ job' w', (∃ blocks, (emit none x.1 x.2).run (job, PUnit.unit) = .ok blocks (job', ⟨⟩) ∧
        (emit (some (logged f)) x.1 x.2).run (job, w, log) =
          .ok blocks (job', w', log ++ blocks)) ∨
      ((emit (some (logged f)) x.1 x.2).run (job, w, log) = .error .sink (job', w', log) ∧
        job'.pgm = pgm ∧ job.SameInputs job') := by
  rw [run_emit_eq hadd, run_emit_eq hadd]
  split_ifs
  · obtain ⟨w', hok | herror⟩ := flushBlock_cases f (job.taken x.1 x.2 pgm) w log
    · refine ⟨_, w', .inl ⟨_, rfl, ?_⟩⟩
      rw [run_bind_of_ok hok]
      rfl
    · refine ⟨(job.taken x.1 x.2 pgm).flushed, w', .inr ⟨?_, rfl, ⟨⟨rfl, rfl, rfl⟩, rfl, rfl,
        rfl, rfl⟩⟩⟩
      rw [run_bind_of_error herror]
  · refine ⟨_, w, .inl ⟨[], rfl, ?_⟩⟩
    rw [List.append_nil]
    rfl

/-! ## Broken jobs -/

/-- The next record to be emitted has the last key that the PGM has taken. -/
structure Stuck (job : IncrementalMergeJob V) : Prop where
  not_done : job.done = false
  sourceCursor_le : job.sourceCursor ≤ job.source.keys.length
  targetCursor_le : job.targetCursor ≤ job.target.keys.length
  next : ∃ x rest, unionNewer Prod.fst (job.source.records.drop job.sourceCursor)
    (job.target.records.drop job.targetCursor) = x :: rest ∧ job.pgm.lastKey = some x.1

/-- A job that has lost a block: it can't go on, or it is done and `n` records have not all been
delivered. -/
inductive Broken (n : Nat) (s : IncrementalMergeJob V × ω × List (OutputBlock V)) : Prop
  | stuck (h : s.1.Stuck)
  | lost (hdone : s.1.done = true) (hlost : (s.2.2.flatMap OutputBlock.records).length < n)

theorem Stuck.of_sameInputs {job' : IncrementalMergeJob V} (h : job.Stuck)
    (hsame : job.SameInputs job') (hpgm : job'.pgm = job.pgm) : job'.Stuck := by
  obtain ⟨⟨-, hsource, htarget⟩, hsc, htc, -, hdone⟩ := hsame
  obtain ⟨hnot, hs, ht, hnext⟩ := h
  refine ⟨hdone.trans hnot, ?_, ?_, ?_⟩
  · rwa [hsc, hsource]
  · rwa [htc, htarget]
  · rwa [hsource, htarget, hsc, htc, hpgm]

/-- A call on a job that is stuck raises, and the job stays so. -/
theorem Stuck.run_advance (h : job.Stuck) (sink : Option (Sink V ω)) (w : ω) (q : Int) :
    ∃ e job', (advance sink q).run (job, w) = .error e (job', w) ∧ job'.Stuck := by
  by_cases hq : q ≤ 0
  · refine ⟨.budget q, job, ?_, h⟩
    rw [advance, if_pos hq]
    rfl
  obtain ⟨n, hn⟩ : ∃ n, q.toNat = n + 1 := ⟨q.toNat - 1, by omega⟩
  -- the call is counted before its first decision
  obtain ⟨job₀, hjob₀⟩ : ∃ job₀, job₀ = { job with
    advanceCalls := job.advanceCalls + 1
    stepCounter := job.stepCounter + 1 } := ⟨_, rfl⟩
  have h₀ : job₀.Stuck := hjob₀ ▸ h.of_sameInputs ⟨⟨rfl, rfl, rfl⟩, rfl, rfl, rfl, rfl⟩ rfl
  obtain ⟨x, rest, hnext, hlast⟩ := h₀.next
  obtain ⟨ns, nt, nd, -, hdecision⟩ :=
    decision_cases h₀.sourceCursor_le h₀.targetCursor_le hnext
  have hadd : job₀.pgm.addKey x.1 = .error (.keyNotIncreasing x.1 x.1) := by
    rw [IncrementalPgmBuilder.addKey, hlast]
    exact if_pos le_rfl
  refine ⟨.keyNotIncreasing x.1 x.1, job₀.offered x.1 x.2, ?_,
    h₀.of_sameInputs ⟨⟨rfl, rfl, rfl⟩, rfl, rfl, rfl, rfl⟩ rfl⟩
  have hloop : (advanceLoop sink q.toNat 0 []).run (job₀, w) =
      .error (.keyNotIncreasing x.1 x.1) (job₀.offered x.1 x.2, w) := by
    rw [hn, advanceLoop]
    exact run_bind_of_error
      ((hdecision sink w).trans (run_bind_of_error (run_emit_of_error hadd x.2 sink w) _)) _
  rw [advance, if_neg hq, run_bind_of_ok (run_self _), if_neg (by simp [h.not_done]),
    run_bind_of_ok (run_update _ _), ← hjob₀, run_bind_of_error hloop]

namespace Broken

variable {n : Nat} {s : IncrementalMergeJob V × ω × List (OutputBlock V)}

/-- No call repairs a broken job. -/
theorem advance (h : Broken n s) (sink : Option (Sink V (ω × List (OutputBlock V)))) (q : Int) :
    Broken n (finalState ((IncrementalMergeJob.advance sink q).run s)) := by
  cases h with
  | stuck h =>
    obtain ⟨e, job', hrun, h'⟩ := h.run_advance sink s.2 q
    rw [show s = (s.1, s.2) from rfl, hrun]
    exact .stuck h'
  | lost hdone hlost =>
    by_cases hq : q ≤ 0
    · rw [IncrementalMergeJob.advance, if_pos hq]
      exact .lost hdone hlost
    · rw [show s = (s.1, s.2) from rfl, run_advance_of_done hdone (not_le.mp hq)]
      exact .lost hdone hlost

theorem afterCalls (h : Broken n s) (sink : Option (Sink V (ω × List (OutputBlock V))))
    (qs : List Int) : Broken n (IncrementalMergeJob.afterCalls sink qs s) := by
  induction qs generalizing s with
  | nil => exact h
  | cons q qs ih => exact ih (h.advance sink q)

theorem not_complete {config : IncrementalMergeConfig} {source target : LogicalRunView V}
    (h : Broken (mergedRecords source target).length s) : ¬ Complete config source target s := by
  intro hcomplete
  cases h with
  | stuck h => exact Bool.false_ne_true (h.not_done.symm.trans hcomplete.done)
  | lost _ hlost => exact hlost.ne hcomplete.delivered.length_eq

theorem not_resumable {config : IncrementalMergeConfig} {source target : LogicalRunView V}
    (h : Broken (mergedRecords source target).length s) : ¬ Resumable config source target s := by
  intro hresumable
  obtain ⟨n, hn⟩ := hresumable (fun _ ↦ pure ⟨⟩) (by rintro _ ⟨⟩ block w; exact ⟨w, rfl⟩)
  refine (h.afterCalls _ (List.replicate n 1)).not_complete (hn _ ?_ List.length_replicate.ge)
  intro q hq
  rw [List.eq_of_mem_replicate hq]
  exact Int.one_pos

end Broken

/-! ## Calls that return and calls that raise -/

namespace Running

/-- A decision moves the next record of the union, or leaves the job stuck. -/
theorem decision_logged (h : job.Running pieces pending (x :: rest)) (hdone : job.done = false)
    (f : Sink V ω) (w : ω) (log : List (OutputBlock V)) :
    ∃ job' w', (∃ new pending', (decision (some (logged f))).run (job, w, log) =
          .ok (some (blocksFrom pieces.length new))
            (job', w', log ++ blocksFrom pieces.length new) ∧
        job'.Running (pieces ++ new) pending' rest ∧ job.SameMerge job' ∧ job'.done = false) ∨
      ((decision (some (logged f))).run (job, w, log) = .error .sink (job', w', log) ∧
        job'.Stuck) := by
  have hsorted := sorted_keys_of_append ((List.append_cons ..).symm.trans h.decided)
  obtain ⟨pgm, hadd, hpgm⟩ := h.pgm.addKey
    (show ((pieces.flatten ++ pending).map Prod.fst ++ [x.1]).Pairwise (· < ·) by
      simpa using hsorted)
  obtain ⟨ns, nt, nd, hmoves, hrun⟩ :=
    decision_cases h.sourceCursor_le h.targetCursor_le h.rest_eq
  obtain ⟨new, pending', job₁, w₁, hnone, hrunning, hmerge, hdone₁⟩ :=
    h.run_emit_update (w := PUnit.unit) (show SinkReturns none by rintro _ ⟨⟩) hmoves
  obtain ⟨job', w', ⟨blocks, hemit, hlogged⟩ | ⟨herror, hpgm', hsame⟩⟩ := emit_cases hadd f w log
  · rw [emitMoved, run_bind_of_ok hemit] at hnone
    cases hnone
    refine ⟨_, w', .inl ⟨new, pending', ?_, hrunning, hmerge, hdone₁.trans hdone⟩⟩
    rw [hrun, emitMoved, run_bind_of_ok hlogged]
    rfl
  · refine ⟨job', w', .inr ⟨?_, hsame.done.trans hdone, ?_, ?_, x, rest, ?_, ?_⟩⟩
    · rw [hrun, emitMoved, run_bind_of_error herror]
    · rw [hsame.sourceCursor, hsame.source]
      exact h.sourceCursor_le
    · rw [hsame.targetCursor, hsame.target]
      exact h.targetCursor_le
    · rw [hsame.source, hsame.target, hsame.sourceCursor, hsame.targetCursor]
      exact h.rest_eq
    · rw [hpgm', hpgm.lastKey, List.getLast?_concat]

/-- The loop of `advance` goes on to its end, or leaves the job stuck. -/
theorem advanceLoop_logged (h : job.Running pieces pending rest) (hdone : job.done = false)
    (f : Sink V ω) (w : ω) (log : List (OutputBlock V)) (budget decisions : Nat)
    (blocks : List (OutputBlock V)) :
    ∃ job' w' log', (∃ r new pending' rest',
        (advanceLoop (some (logged f)) budget decisions blocks).run (job, w, log) =
          .ok r (job', w', log') ∧ log' = log ++ blocksFrom pieces.length new ∧
        job'.Running (pieces ++ new) pending' rest' ∧ job.SameMerge job' ∧
        (job'.done = true → rest' = [])) ∨
      ((advanceLoop (some (logged f)) budget decisions blocks).run (job, w, log) =
          .error .sink (job', w', log') ∧ job'.Stuck) := by
  induction budget generalizing job pieces pending rest decisions blocks w log with
  | zero =>
    refine ⟨job, w, log, .inl ⟨_, [], pending, rest, rfl, ?_, ?_, SameMerge.refl job, ?_⟩⟩
    · rw [blocksFrom_nil, List.append_nil]
    · rwa [List.append_nil]
    · simp [hdone]
  | succ budget ih =>
    cases rest with
    | nil =>
      refine ⟨{ job with done := true }, w, log, .inl ⟨(decisions, blocks), [], pending, [], ?_, ?_,
        ?_, ⟨rfl, rfl, rfl⟩, fun _ ↦ rfl⟩⟩
      · rw [advanceLoop, run_bind_of_ok h.run_decision_nil]
        rfl
      · rw [blocksFrom_nil, List.append_nil]
      · rw [List.append_nil]
        exact h.marked true job.advanceCalls job.stepCounter
    | cons x rest =>
      rw [advanceLoop]
      obtain ⟨job₁, w₁, ⟨new, pending₁, hrun, h₁, hmerge, hdone₁⟩ | ⟨hrun, hstuck⟩⟩ :=
        h.decision_logged hdone f w log
      · rw [run_bind_of_ok hrun]
        obtain ⟨job', w', log',
            ⟨r, new', pending', rest', hloop, hlog, h', hmerge', hend⟩ | hloop⟩ :=
          ih h₁ hdone₁ w₁ (log ++ blocksFrom pieces.length new) (decisions + 1)
            (blocks ++ blocksFrom pieces.length new)
        · refine ⟨job', w', log', .inl ⟨r, new ++ new', pending', rest', hloop, ?_, ?_,
            hmerge.trans hmerge', hend⟩⟩
          · rw [hlog, blocksFrom_append, List.append_assoc, List.length_append]
          · rwa [← List.append_assoc]
        · exact ⟨job', w', log', .inr hloop⟩
      · exact ⟨job₁, w₁, log, .inr ⟨run_bind_of_error hrun _, hstuck⟩⟩

end Running

/-- Calls that all return are one sequence. -/
theorem afterCalls_of_mapM {sink : Option (Sink V ω)} {qs : List Int}
    {steps : List (IncrementalMergeStep V)} {s s' : IncrementalMergeJob V × ω}
    (h : (qs.mapM (advance sink)).run s = .ok steps s') :
    afterCalls sink qs s = s' ∧ ¬ SinkRaises sink qs s := by
  induction qs generalizing s steps with
  | nil =>
    cases h
    exact ⟨rfl, not_false⟩
  | cons q qs ih =>
    rw [List.mapM_cons] at h
    obtain ⟨step, s₁, hstep, h⟩ := run_bind_eq_ok.mp h
    obtain ⟨steps', s₂, hsteps, h⟩ := run_bind_eq_ok.mp h
    cases h
    rw [afterCalls, SinkRaises, hstep]
    obtain ⟨hcalls, hnot⟩ := ih hsteps
    exact ⟨hcalls, not_or.mpr ⟨by rintro ⟨⟩, hnot⟩⟩

/-- A job whose sink has taken every block that is out. -/
structure Delivering (config : IncrementalMergeConfig) (source target : LogicalRunView V)
    (s : IncrementalMergeJob V × ω × List (OutputBlock V)) : Prop where
  config_eq : s.1.config = config
  source_eq : s.1.source = source
  target_eq : s.1.target = target
  paused : ∃ pieces, s.1.Paused pieces ∧ s.2.2 = blocksFrom 0 pieces

theorem flatMap_records_blocksFrom (rank : Nat) (pieces : List (List (RecordKey × V))) :
    (blocksFrom rank pieces).flatMap OutputBlock.records = pieces.flatten := by
  rw [List.flatMap_def, map_records_blocksFrom]

/-- The last block goes out, or it is lost. -/
theorem Running.flushLast_logged (h : job.Running pieces pending []) (hdone : job.done = true)
    (f : Sink V ω) (w : ω) (log : List (OutputBlock V)) :
    ∃ w', (∃ blocks new job', (flushLast (some (logged f))).run (job, w, log) =
          .ok blocks (job', w', log ++ blocksFrom pieces.length new) ∧
        job'.Settled (pieces ++ new) [] [] ∧ job.SameInputs job' ∧
        pieces ++ new = chunks job.config.itemsPerBlock (mergedRecords job.source job.target)) ∨
      ((flushLast (some (logged f))).run (job, w, log) = .error .sink (job.flushed, w', log) ∧
        pending ≠ []) := by
  obtain ⟨new, job', w₁, hnone, hsettled, hsame, hchunks⟩ :=
    h.run_flushLast (w := PUnit.unit) hdone (show SinkReturns none by rintro _ ⟨⟩)
  by_cases hnil : job.pendingKeys = []
  · have hrun {ω : Type} (sink : Option (Sink V ω)) (w : ω) :
        (flushLast sink).run (job, w) = .ok [] (job, w) := by
      rw [flushLast, run_bind_of_ok (run_self _), if_neg fun hpending ↦ hpending.2 hnil]
      rfl
    obtain ⟨hblocks, hjob⟩ := EStateM.Result.ok.inj ((hrun none PUnit.unit).symm.trans hnone)
    cases hjob
    refine ⟨w, .inl ⟨[], new, job, ?_, hsettled, hsame, hchunks⟩⟩
    rw [← hblocks, List.append_nil, hrun]
  · have hrun {ω : Type} (sink : Option (Sink V ω)) (w : ω) :
        (flushLast sink).run (job, w) = (do
          let block ← flushBlock sink
          pure [block] : JobM V ω _).run (job, w) := by
      rw [flushLast, run_bind_of_ok (run_self _), if_pos ⟨hdone, hnil⟩]
    obtain ⟨w', hok | herror⟩ := flushBlock_cases f job w log
    · obtain ⟨hblocks, hjob⟩ := EStateM.Result.ok.inj ((hrun none PUnit.unit).symm.trans hnone)
      cases hjob
      refine ⟨w', .inl ⟨[job.pendingBlock], new, job.flushed, ?_, hsettled, hsame, hchunks⟩⟩
      rw [← hblocks, hrun, run_bind_of_ok hok]
      rfl
    · refine ⟨w', .inr ⟨?_, ?_⟩⟩
      · rw [hrun, run_bind_of_error herror]
      · rintro rfl
        exact hnil h.pendingKeys

/-- A last block that does not go out is lost. -/
theorem Running.broken_flushed (h : job.Running pieces pending []) (hdone : job.done = true)
    (hpending : pending ≠ []) (w : ω) :
    Broken (mergedRecords job.source job.target).length (job.flushed, w, blocksFrom 0 pieces) := by
  refine .lost hdone ?_
  have hdecided := congrArg List.length h.decided
  have hlength := List.length_pos_iff.mpr hpending
  change ((blocksFrom 0 pieces).flatMap OutputBlock.records).length <
    (mergedRecords job.source job.target).length
  rw [← hdecided, flatMap_records_blocksFrom, List.append_nil,
    @List.length_append _ _ pending]
  exact Nat.lt_add_of_pos_right hlength

/-- The end of a call: the last block goes out when nothing is left, or it is lost. -/
theorem Running.flushLast_delivers (h : job.Running pieces pending rest)
    (hdone : job.done = true ↔ rest = []) (f : Sink V ω) (w : ω) :
    (∃ blocks s, (flushLast (some (logged f))).run (job, w, blocksFrom 0 pieces) = .ok blocks s ∧
        Delivering job.config job.source job.target s) ∨
      ∃ s, (flushLast (some (logged f))).run (job, w, blocksFrom 0 pieces) = .error .sink s ∧
        Broken (mergedRecords job.source job.target).length s := by
  by_cases hnil : rest = []
  · subst hnil
    have hdone' : job.done = true := hdone.mpr rfl
    obtain ⟨w', ⟨blocks, new, job', hlast, hsettled, hsame, hchunks⟩ | ⟨hlast, hpending⟩⟩ :=
      h.flushLast_logged hdone' f w (blocksFrom 0 pieces)
    · refine .inl ⟨blocks, _, hlast, hsame.config, hsame.source, hsame.target, pieces ++ new,
        .finished hsettled (hsame.done.trans hdone') ?_, ?_⟩
      · rw [hsame.config, hsame.source, hsame.target]
        exact hchunks
      · rw [blocksFrom_append, Nat.zero_add]
    · exact .inr ⟨_, hlast, h.broken_flushed hdone' hpending w'⟩
  · have hdone' : job.done = false := Bool.eq_false_iff.mpr (mt hdone.mp hnil)
    exact .inl ⟨[], _, Running.run_flushLast_of_not_done hdone', rfl, rfl, rfl, pieces,
      .running h hdone', rfl⟩

namespace Delivering

variable {config : IncrementalMergeConfig} {source target : LogicalRunView V}
  {s : IncrementalMergeJob V × ω × List (OutputBlock V)}

/-- A call whose sink does not raise leaves nothing undelivered, one whose sink raises breaks the
job. -/
theorem advance (h : Delivering config source target s) (f : Sink V ω) (q : Int) :
    (outcome ((IncrementalMergeJob.advance (some (logged f)) q).run s) ≠ .error .sink ∧
        Delivering config source target
          (finalState ((IncrementalMergeJob.advance (some (logged f)) q).run s))) ∨
      (outcome ((IncrementalMergeJob.advance (some (logged f)) q).run s) = .error .sink ∧
        Broken (mergedRecords source target).length
          (finalState ((IncrementalMergeJob.advance (some (logged f)) q).run s))) := by
  obtain ⟨job, w, log⟩ := s
  by_cases hq : q ≤ 0
  · refine .inl ⟨?_, ?_⟩
    · rw [IncrementalMergeJob.advance, if_pos hq]
      rintro ⟨⟩
    · rw [IncrementalMergeJob.advance, if_pos hq]
      exact h
  obtain ⟨rfl, rfl, rfl, pieces, hpaused, rfl⟩ := h
  cases hpaused with
  | finished hsettled hdone hpieces =>
    rw [run_advance_of_done hdone (not_le.mp hq)]
    exact .inl ⟨by rintro ⟨⟩, rfl, rfl, rfl, pieces, .finished hsettled hdone hpieces, rfl⟩
  | @running pending rest h hdone =>
    have h₀ := h.marked job.done (job.advanceCalls + 1) (job.stepCounter + 1)
    rw [IncrementalMergeJob.advance, if_neg hq, run_bind_of_ok (run_self _),
      if_neg (Bool.eq_false_iff.mp hdone), run_bind_of_ok (run_update _ _)]
    obtain ⟨job₁, w₁, log₁, ⟨r, new, pending', rest', hloop, rfl, h₁, hmerge, hend⟩ |
        ⟨hloop, hstuck⟩⟩ := h₀.advanceLoop_logged hdone f w (blocksFrom 0 pieces) q.toNat 0 []
    · have hlog : blocksFrom 0 pieces ++ blocksFrom pieces.length new =
          blocksFrom 0 (pieces ++ new) := by
        rw [blocksFrom_append, Nat.zero_add]
      rw [run_bind_of_ok hloop, run_bind_of_ok (run_update _ _), hlog, ← hmerge.config,
        ← hmerge.source, ← hmerge.target]
      -- the job after the loop, its flag set when both runs are at their ends
      have h₂ := h₁.marked (job₁.done || job₁.exhausted) job₁.advanceCalls job₁.stepCounter
      obtain ⟨blocks, s, hlast, hdelivering⟩ | ⟨s, hlast, hbroken⟩ :=
        h₂.flushLast_delivers (h₁.done_iff hend) f w₁
      · rw [run_bind_of_ok hlast]
        exact .inl ⟨by rintro ⟨⟩, hdelivering⟩
      · rw [run_bind_of_error hlast]
        exact .inr ⟨rfl, hbroken⟩
    · rw [run_bind_of_error hloop]
      exact .inr ⟨rfl, .stuck hstuck⟩

/-- Calls whose sink does not raise leave nothing undelivered, and an exception of the sink breaks
the job for good. -/
theorem afterCalls (h : Delivering config source target s) (f : Sink V ω) (qs : List Int) :
    (¬ SinkRaises (some (logged f)) qs s ∧ Delivering config source target
        (IncrementalMergeJob.afterCalls (some (logged f)) qs s)) ∨
      (SinkRaises (some (logged f)) qs s ∧ Broken (mergedRecords source target).length
        (IncrementalMergeJob.afterCalls (some (logged f)) qs s)) := by
  induction qs generalizing s with
  | nil => exact .inl ⟨not_false, h⟩
  | cons q qs ih =>
    rcases h.advance f q with ⟨hnot, h'⟩ | ⟨hraises, hbroken⟩
    · rcases ih h' with ⟨hnots, h''⟩ | ⟨hraises, hbroken⟩
      · exact .inl ⟨not_or.mpr ⟨hnot, hnots⟩, h''⟩
      · exact .inr ⟨.inr hraises, hbroken⟩
    · exact .inr ⟨.inl hraises, hbroken.afterCalls _ qs⟩

/-- A job that is done is complete when nothing is undelivered. -/
theorem complete (h : Delivering config source target s) (hdone : s.1.done = true) :
    Complete config source target s := by
  obtain ⟨job, w, log⟩ := s
  obtain ⟨rfl, rfl, rfl, pieces, hpaused, rfl⟩ := h
  obtain ⟨pgm, hfinalize, hbatch⟩ := hpaused.run_finalize (w := (w, blocksFrom 0 pieces)) hdone
  refine ⟨hdone, ?_, job.result pgm, _, hfinalize, ?_, hbatch⟩
  · have hpieces : pieces.flatten = mergedRecords job.source job.target := by
      have hrecords := congrArg (List.flatMap OutputBlock.records) (hpaused.blocks_of_done hdone)
      rwa [canonicalBlocks, flatMap_records_blocksFrom, flatMap_records_blocksFrom,
        flatten_chunks job.config.itemsPerBlock_pos] at hrecords
    change (List.flatMap OutputBlock.records (blocksFrom 0 pieces)).Perm _
    rw [flatMap_records_blocksFrom, hpieces]
  · exact le_antisymm hpaused.outputRecords_le (hpaused.le_outputRecords hdone)

/-- Nothing is lost as long as the sink has not raised. -/
theorem resumable (h : Delivering config source target s) : Resumable config source target s := by
  intro g hg
  refine ⟨(mergedRecords source target).length + 1, fun qs hqs hlength ↦ ?_⟩
  obtain ⟨job, w, log⟩ := s
  obtain ⟨pieces, hpaused, hlog⟩ := h.paused
  obtain ⟨new, steps, job', w', hrun, -, -, hdone, -, -⟩ :=
    hpaused.run_calls (w := (w, log)) hg.logged hqs
  obtain ⟨hcalls, hnot⟩ := afterCalls_of_mapM hrun
  rcases h.afterCalls g qs with ⟨-, h'⟩ | ⟨hraises, -⟩
  · refine h'.complete ?_
    have hsum : qs.length ≤ (qs.map Int.toNat).sum := by
      rw [← List.length_map Int.toNat]
      refine List.length_le_sum_of_one_le _ fun n hn ↦ ?_
      obtain ⟨q, hq, rfl⟩ := List.mem_map.mp hn
      exact Int.pos_iff_toNat_pos.mp (hqs q hq)
    have hsource : job.source = source := h.source_eq
    have htarget : job.target = target := h.target_eq
    rw [hcalls]
    refine hdone.mpr (.inr ⟨?_, ?_⟩)
    · rintro rfl
      exact Nat.not_succ_le_zero _ hlength
    · rw [hsource, htarget]
      omega
  · exact absurd hraises hnot

end Delivering

/-- A job that has begun, with nothing delivered. -/
theorem Delivering.of_begin {config : IncrementalMergeConfig} {source target : LogicalRunView V}
    (hbegin : «begin» config source target = .ok job) (w : ω) :
    Delivering config source target (job, w, []) := by
  have hlevels : target.level = source.level + 1 := by
    unfold «begin» at hbegin
    split_ifs at hbegin with h₁ h₂ h₃
    exact not_not.mp h₃
  obtain ⟨job', hbegin', hrunning, hconfig, hsource, htarget, -, hdone⟩ :=
    Running.of_begin config hlevels
  cases Except.ok.inj (hbegin.symm.trans hbegin')
  exact ⟨hconfig, hsource, htarget, [], .running hrunning hdone, rfl⟩

/-- After any calls on a job that has begun, whatever its sink has done, the merge can be brought
to its end exactly when no call has propagated an exception of the sink.  After such a call no
sink and no calls do. -/
theorem resumable_iff {config : IncrementalMergeConfig} {source target : LogicalRunView V}
    {job : IncrementalMergeJob V} (hbegin : «begin» config source target = .ok job)
    (f : Sink V ω) (qs : List Int) (w : ω) :
    (Resumable config source target (afterCalls (some (logged f)) qs (job, w, [])) ↔
        ¬ SinkRaises (some (logged f)) qs (job, w, [])) ∧
      (SinkRaises (some (logged f)) qs (job, w, []) →
        ∀ (sink : Option (Sink V (ω × List (OutputBlock V)))) (later : List Int),
          ¬ Complete config source target
            (afterCalls sink later (afterCalls (some (logged f)) qs (job, w, [])))) := by
  rcases (Delivering.of_begin hbegin w).afterCalls f qs with ⟨hnot, h⟩ | ⟨hraises, hbroken⟩
  · exact ⟨iff_of_true h.resumable hnot, fun hraises ↦ absurd hraises hnot⟩
  · exact ⟨iff_of_false hbroken.not_resumable (not_not.mpr hraises),
      fun _ sink later ↦ (hbroken.afterCalls sink later).not_complete⟩

/-- A sink that raises on its first block. -/
def raisesOnce : Sink Nat Bool := fun _ ↦ do
  if ← get then pure ()
  else do
    set true
    throw ⟨⟩

/-- The first call loses the first of two blocks. -/
theorem resumable_iff_oddRun :
    ∃ job, «begin» ⟨2, 0, by decide⟩ oddRun fullRun = .ok job ∧
      ∀ (sink : Option (Sink Nat (Bool × List (OutputBlock Nat)))) (later : List Int),
        ¬ Complete ⟨2, 0, by decide⟩ oddRun fullRun
          (afterCalls sink later (afterCalls (some (logged raisesOnce)) [5] (job, false, []))) := by
  obtain ⟨job, hbegin, -⟩ := Running.of_begin ⟨2, 0, by decide⟩
    (show fullRun.level = oddRun.level + 1 from rfl)
  refine ⟨job, hbegin, (resumable_iff hbegin raisesOnce [5] false).2 (.inl ?_)⟩
  cases hbegin
  decide +kernel

/-- The sink has raised once, and takes whatever it is given from then on. -/
theorem not_resumable_oddRun :
    ∃ job s, «begin» ⟨2, 0, by decide⟩ oddRun fullRun = .ok job ∧
      (advance (some (logged raisesOnce)) 5).run (job, false, []) = .error .sink s ∧
      ¬ Resumable ⟨2, 0, by decide⟩ oddRun fullRun s ∧
      ∀ later : List Int, ¬ Complete ⟨2, 0, by decide⟩ oddRun fullRun
        (afterCalls (some (logged raisesOnce)) later s) := by
  obtain ⟨job, hbegin, -⟩ := Running.of_begin ⟨2, 0, by decide⟩
    (show fullRun.level = oddRun.level + 1 from rfl)
  have hraises : outcome ((advance (some (logged raisesOnce)) 5).run (job, false, [])) =
      .error .sink := by
    cases hbegin
    decide +kernel
  have hstep := (Delivering.of_begin hbegin false).advance raisesOnce 5
  cases hrun : (advance (some (logged raisesOnce)) 5).run (job, false, []) with
  | ok step s =>
    rw [hrun] at hraises
    cases hraises
  | error e s =>
    rw [hrun] at hraises hstep
    cases hraises
    rcases hstep with ⟨hnot, -⟩ | ⟨-, hbroken⟩
    · exact absurd rfl hnot
    · exact ⟨job, s, hbegin, hrun, hbroken.not_resumable,
        fun later ↦ (hbroken.afterCalls _ later).not_complete⟩

end IncrementalMergeJob

end EnhancedLetIndex
