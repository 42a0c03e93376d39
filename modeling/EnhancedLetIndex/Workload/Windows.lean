import EnhancedLetIndex.Workload.Export
import EnhancedLetIndex.Workload.Steps

/-!
# The records of a run

`RecordOf w op r` says that `r` is the record of the operation `op` after a run that has reached
`w`: its events are those of one call of the engine, in a window of its own.  A run records each
of its operations so, and its counts of failures are 0 exactly when no record shows a failure
(`recorded_init`).
-/

namespace EnhancedLetIndex

/-- The operation has matched the oracle, and the state it left has been verified. -/
def OperationRecord.Agrees (r : OperationRecord) : Prop :=
  r.verification.ok = true ∧ ∀ s ∈ r.oracle, s.matchesOracle = true

namespace BaselineWorkloadRunner

variable {w w' w₀ : BaselineWorkloadRunner} {op : WorkloadOperation}

/-- The call of the engine that an operation makes. -/
def engineOp (w : BaselineWorkloadRunner) (op : WorkloadOperation) : Option (EngineOp String) :=
  match op.operationClass with
  | some .buildInitial => some (.buildLevel op.records none)
  | some .upsert => some (.createUpdateLevel op.records)
  | some .buildPgm => (op.levelRef.bind w.refs.lookup).map .buildLevelPgm
  | some .merge => do
    let newer ← op.newerRef.bind w.refs.lookup
    let older ← op.olderRef.bind w.refs.lookup
    some (.mergeLevelsBlocking newer older)
  | some .query => do
    let key ← op.keys.head?
    let plan ← (w.oracle.refs.mapM w.refLevel).toOption
    some (.lookupLevels plan ⟨key⟩)
  | none => none

/-- The record of an operation. -/
structure RecordOf (w : BaselineWorkloadRunner) (op : WorkloadOperation) (r : OperationRecord) :
    Prop where
  index : r.index = w.records.length
  kind : r.kind = op.kind
  operation : r.operation = op
  events : ∃ call ∈ w.engineOp op, r.events = (w.engine.clearTrace.after call).storage.trace

/-- What the runner has recorded and counted, and the configuration. -/
def tally (w : BaselineWorkloadRunner) : List OperationRecord × Nat × Config :=
  (w.records, w.mismatches, w.engine.config)

/-! ## One operation -/

theorem lookup_of_levelId {ref : Option String} {l : LevelId} (h : w.levelId ref = .ok l) :
    ref.bind w.refs.lookup = some l := by
  obtain ⟨r, rfl, hr⟩ := levelId_eq_ok.mp h
  exact hr

/-- An operation makes its call of the engine, and records and counts nothing yet. -/
theorem dispatch_eq_ok {call : Call} {payload : OperationResult}
    (hcall : (resolve op).run w = .ok call w)
    (h : (dispatch op call).run w.opened = .ok payload w') :
    ∃ engineCall ∈ w.engineOp op, w'.engine = w.engine.clearTrace.after engineCall ∧
      w'.records = w.records ∧ w'.mismatches = w.mismatches := by
  rw [resolve, run_get_bind] at hcall
  unfold engineOp
  cases hclass : op.operationClass with
  | none =>
    rw [hclass] at hcall
    cases hcall
    cases h
  | some operationClass =>
    rw [hclass] at hcall
    cases operationClass with
    | buildInitial =>
      cases hcall
      obtain ⟨l, e, o, n, hrun, -, -, rfl⟩ := publish_eq_ok h
      exact ⟨_, rfl, congrArg finalState hrun.symm, rfl, rfl⟩
    | upsert =>
      cases hcall
      obtain ⟨l, e, o, n, hrun, -, -, rfl⟩ := publish_eq_ok h
      exact ⟨_, rfl, congrArg finalState hrun.symm, rfl, rfl⟩
    | buildPgm =>
      obtain ⟨l, hl, ⟨⟩⟩ := run_liftExcept_bind_eq_ok.mp hcall
      obtain ⟨index, e, ref, n, hrun, -, rfl⟩ := doBuildPgm_eq_ok h
      simp only [lookup_of_levelId hl, Option.map_some]
      exact ⟨_, rfl, congrArg finalState hrun.symm, rfl, rfl⟩
    | merge =>
      obtain ⟨newer, hnewer, hcall⟩ := run_liftExcept_bind_eq_ok.mp hcall
      obtain ⟨older, holder, ⟨⟩⟩ := run_liftExcept_bind_eq_ok.mp hcall
      obtain ⟨newerRef, olderRef, newerMap, olderMap, result, e, n, -, -, -, hrun, -, rfl⟩ :=
        doMerge_eq_ok h
      simp only [lookup_of_levelId hnewer, lookup_of_levelId holder, Option.bind_eq_bind,
        Option.bind_some]
      exact ⟨_, rfl, congrArg finalState hrun.symm, rfl, rfl⟩
    | query =>
      cases hcall
      obtain ⟨key, rest, plan, result, e, hitRef, searchedRefs, hkeys, hplan, hrun, -, -, rfl⟩ :=
        doQuery_eq_ok h
      have hlevels : w.oracle.refs.mapM w.refLevel = .ok plan := hplan
      simp only [hkeys, List.head?_cons, hlevels, Except.toOption, Option.bind_eq_bind,
        Option.bind_some]
      exact ⟨_, rfl, congrArg finalState hrun.symm, rfl, rfl⟩

theorem compare_eq_ok {payload : OperationResult} {o : Option OracleSummary}
    (h : (compare payload).run w = .ok o w') : w'.tally = w.tally := by
  rw [compare, run_get_bind] at h
  cases hpending : w.pendingMerge with
  | none =>
    rw [hpending] at h
    cases h
    rfl
  | some pending =>
    rw [hpending] at h
    obtain ⟨s, w₁, hs, h₁⟩ := run_bind_eq_ok.mp h
    obtain ⟨o, -, -, rfl⟩ := finishMerge_eq_ok hs
    cases h₁
    rfl

/-- The levels of the oracle are active. -/
def Exportable (w : BaselineWorkloadRunner) : Prop :=
  ∀ ref ∈ w.oracle.refs, ∃ l L, w.refs.lookup ref = some l ∧ l ∉ w.engine.retiredLevelIds ∧
    w.engine.levels.lookup l = some L

theorem sortedValues_eq_nil {levels : Finset LevelId} : sortedValues levels = [] ↔ levels = ∅ := by
  rw [sortedValues, sortedList, ← List.length_eq_zero_iff, Finset.length_sort, Finset.card_eq_zero,
    Finset.image_eq_empty]

/-- A state that passes the verification has an active level for each of the oracle's. -/
theorem exportable_of_verifyState {v : Verification} (h : verifyState.run w = .ok v w')
    (hv : v.activeLevelsMatchOracle = true) : w'.Exportable := by
  obtain ⟨active, retired, hactive, -, hret, rfl, rfl⟩ := verifyState_eq_ok h
  obtain ⟨hmissing, -⟩ := of_decide_eq_true hv
  have hlevels : active.toFinset ⊆ w.engine.levels.keys :=
    Finset.sdiff_eq_empty_iff_subset.mp (sortedValues_eq_nil.mp hmissing)
  intro ref href
  obtain ⟨l, hl, hlevel⟩ := exists_mem_right (mapM_eq_ok_iff.mp hactive) href
  have hmem := Finmap.mem_keys.mp (hlevels (List.mem_toFinset.mpr hl))
  obtain ⟨L, hL⟩ := Finmap.mem_iff.mp hmem
  exact ⟨l, L, refLevel_eq_ok.mp hlevel, hret l hl hmem, hL⟩

/-- A record adds to the failures that are counted, unless it agrees. -/
theorem addRecord_mismatches {r : OperationRecord} :
    (w.addRecord r).mismatches = 0 ↔ w.mismatches = 0 ∧ r.Agrees := by
  have hall : r.oracle.any (fun s ↦ ! s.matchesOracle) = false ↔
      ∀ s ∈ r.oracle, s.matchesOracle = true := by
    cases r.oracle <;> simp
  rw [OperationRecord.Agrees, ← hall]
  simp only [mismatches, addRecord]
  split_ifs with hok hmerge hquery <;> grind

/-- Nothing is recorded or counted before the record is written. -/
theorem tally_verified {call : Call} {payload : OperationResult} {oracle : Option OracleSummary}
    {v : Verification} {w₁ w₂ w₃ : BaselineWorkloadRunner} (hcall : (resolve op).run w = .ok call w)
    (hpayload : (dispatch op call).run w.opened = .ok payload w₁)
    (horacle : (compare payload).run w₁.cleared = .ok oracle w₂)
    (hv : verifyState.run w₂ = .ok v w₃) : w₃.tally = w.tally := by
  obtain ⟨engineCall, -, hengine, hrecords, hmismatches⟩ := dispatch_eq_ok hcall hpayload
  have hconfig : w₁.engine.config = w.engine.config :=
    hengine ▸ (Engine.sequenced_window w.engine engineCall).1
  obtain ⟨-, -, -, -, -, -, rfl⟩ := verifyState_eq_ok hv
  refine (compare_eq_ok horacle).trans ?_
  simp only [tally, cleared, Engine.clearTrace, hconfig]
  exact congrArg₂ (fun rs m ↦ (rs, m, _)) hrecords hmismatches

/-- A record is written after everything else. -/
theorem runOperation_records {u : Unit} (h : (runOperation op).run w = .ok u w') :
    ∃ (r : OperationRecord) (w₃ : BaselineWorkloadRunner), w.RecordOf op r ∧
      w' = w₃.addRecord r ∧ w₃.tally = w.tally ∧
      (r.verification.activeLevelsMatchOracle = true → w₃.Exportable) := by
  obtain ⟨call, payload, w₁, oracle, w₂, v, w₃, hcall, hpayload, horacle, hv, rfl⟩ :=
    runOperation_eq_ok h
  obtain ⟨engineCall, hengineCall, hengine, -⟩ := dispatch_eq_ok hcall hpayload
  have htally := tally_verified hcall hpayload horacle hv
  refine ⟨_, w₃, ⟨?_, rfl, rfl, engineCall, hengineCall, ?_⟩, rfl, htally,
    exportable_of_verifyState hv⟩
  · exact congrArg (·.1.length) htally
  · exact congrArg (·.storage.trace) hengine

/-! ## A run -/

theorem runOperations_concat {ops : List WorkloadOperation} {u : Unit} :
    (runOperations (ops ++ [op])).run w = .ok u w' ↔
      ∃ w₁, (runOperations ops).run w = .ok ⟨⟩ w₁ ∧ (runOperation op).run w₁ = .ok ⟨⟩ w' := by
  rw [runOperations, List.forM_eq_forM, List.forM_append, run_bind_eq_ok]
  simp only [List.forM_cons, List.forM_nil, run_bind_eq_ok, EStateM.run_pure]
  constructor
  · rintro ⟨_, w₁, hops, _, w₂, hop, ⟨⟩⟩
    exact ⟨w₁, hops, hop⟩
  · rintro ⟨w₁, hops, hop⟩
    exact ⟨⟨⟩, w₁, hops, ⟨⟩, w', hop, rfl⟩

/-- What every operation of a run preserves holds after the run. -/
theorem runOperations_induction {P : List WorkloadOperation → BaselineWorkloadRunner → Prop}
    (hnil : P [] w₀) (hstep : ∀ ops op w w', (runOperations ops).run w₀ = .ok ⟨⟩ w → P ops w →
      (runOperation op).run w = .ok ⟨⟩ w' → P (ops ++ [op]) w')
    {ops : List WorkloadOperation} (h : (runOperations ops).run w₀ = .ok ⟨⟩ w) : P ops w := by
  induction ops using List.reverseRecOn generalizing w with
  | nil =>
    cases h
    exact hnil
  | append_singleton ops op ih =>
    obtain ⟨w₁, hops, hop⟩ := runOperations_concat.mp h
    exact hstep ops op w₁ w hops (ih hops) hop

/-- The records of the operations that have been run, and what they say of the state reached. -/
structure Recorded (w₀ : BaselineWorkloadRunner) (ops : List WorkloadOperation)
    (w : BaselineWorkloadRunner) : Prop where
  length : w.records.length = ops.length
  record : ∀ i op, ops[i]? = some op → ∃ wᵢ r, (runOperations (ops.take i)).run w₀ = .ok ⟨⟩ wᵢ ∧
    w.records[i]? = some r ∧ wᵢ.RecordOf op r ∧ r.index = i
  clean : w.mismatches = 0 ↔ ∀ r ∈ w.records, r.Agrees
  exportable : (∀ r ∈ w.records, r.Agrees) → w.Exportable
  config : w.engine.config = w₀.engine.config

theorem Recorded.step {ops : List WorkloadOperation} (h : Recorded w₀ ops w)
    (hops : (runOperations ops).run w₀ = .ok ⟨⟩ w) (hop : (runOperation op).run w = .ok ⟨⟩ w') :
    Recorded w₀ (ops ++ [op]) w' := by
  obtain ⟨r, w₃, hr, rfl, htally, hexportable⟩ := runOperation_records hop
  have hrecords : w₃.records = w.records := congrArg Prod.fst htally
  have hmismatches : w₃.mismatches = w.mismatches := congrArg (·.2.1) htally
  have hconfig : w₃.engine.config = w.engine.config := congrArg (·.2.2) htally
  have hadded : (w₃.addRecord r).records = w.records ++ [r] := congrArg (· ++ [r]) hrecords
  refine ⟨?_, ?_, ?_, ?_, hconfig.trans h.config⟩
  · rw [hadded, List.length_append, List.length_append, h.length]
    rfl
  · intro i op' hi
    rcases getElem?_concat_eq_some.mp hi with ⟨hlt, hi⟩ | ⟨rfl, rfl⟩
    · obtain ⟨wᵢ, rᵢ, hrun, hrᵢ, hrecord, hindex⟩ := h.record i op' hi
      refine ⟨wᵢ, rᵢ, ?_, ?_, hrecord, hindex⟩
      · rw [List.take_append_of_le_length hlt.le]
        exact hrun
      · rw [hadded, List.getElem?_append_left (h.length ▸ hlt)]
        exact hrᵢ
    · -- the record of the last operation
      refine ⟨w, r, ?_, ?_, hr, hr.index.trans h.length⟩
      · rw [List.take_left]
        exact hops
      · rw [hadded, ← h.length, List.getElem?_concat_length]
  · rw [addRecord_mismatches, hmismatches, h.clean, hadded, List.forall_mem_append,
      List.forall_mem_singleton]
  · intro hall
    rw [hadded] at hall
    have hverified := (hall r (List.mem_append_right _ (List.mem_singleton_self r))).1
    simp only [Verification.ok, Bool.and_eq_true] at hverified
    exact hexportable hverified.1.1.1

/-- A run that starts anew records each of its operations. -/
theorem recorded_init {engine : Engine String} {seed : Int} {family : String}
    {ops : List WorkloadOperation}
    (h : (runOperations ops).run (init engine seed family) = .ok ⟨⟩ w) :
    Recorded (init engine seed family) ops w := by
  refine runOperations_induction (P := Recorded (init engine seed family)) ?_
    (fun _ _ _ _ hops hrecorded hop ↦ hrecorded.step hops hop) h
  exact ⟨rfl, fun i op hi ↦ by simp at hi, iff_of_true rfl (List.forall_mem_nil _),
    fun _ ↦ List.forall_mem_nil _, rfl⟩

end BaselineWorkloadRunner

end EnhancedLetIndex
