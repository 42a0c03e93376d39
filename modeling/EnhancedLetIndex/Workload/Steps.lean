import EnhancedLetIndex.Workload.Runner

/-!
# What one operation of a script does

One lemma for each program of the runner says what has happened when it returns.  An operation
whose record is written has opened a window, made one call of the engine in it, closed it, and
compared and verified the state in windows that leave no trace (`runOperation_eq_ok`).
-/

namespace EnhancedLetIndex

namespace BaselineWorkloadRunner

variable {w w' : BaselineWorkloadRunner} {l : LevelId} {ref : String}

/-- The runner with a new trace window. -/
def cleared (w : BaselineWorkloadRunner) : BaselineWorkloadRunner :=
  { w with engine := w.engine.clearTrace }

/-- The runner at the start of an operation. -/
def opened (w : BaselineWorkloadRunner) : BaselineWorkloadRunner :=
  { w.cleared with pendingMerge := none }

/-! ## Lookups and calls -/

theorem refLevel_eq_ok : w.refLevel ref = .ok l ↔ w.refs.lookup ref = some l := by
  unfold refLevel
  cases w.refs.lookup ref <;> simp

theorem levelRef_eq_ok : w.levelRef l = .ok ref ↔ w.refOf.lookup l = some ref := by
  unfold levelRef
  cases w.refOf.lookup l <;> simp

theorem levelId_eq_ok {ref : Option String} :
    w.levelId ref = .ok l ↔ ∃ r ∈ ref, w.refs.lookup r = some l := by
  unfold levelId
  cases ref with
  | none => simp
  | some r =>
    simp only [Option.bind_some, Option.mem_def, Option.some.injEq, exists_eq_left']
    cases w.refs.lookup r <;> simp

theorem onEngine_eq_ok {α : Type} {x : EngineM String α} {a : α} :
    (onEngine x).run w = .ok a w' ↔ ∃ e, x.run w.engine = .ok a e ∧ w' = { w with engine := e } :=
  run_zoom_eq_ok

theorem onLevel_eq_ok {L : Level} :
    (onEngine (Engine.level l)).run w = .ok L w' ↔
      l ∉ w.engine.retiredLevelIds ∧ w.engine.levels.lookup l = some L ∧ w' = w := by
  rw [onEngine_eq_ok]
  constructor
  · rintro ⟨e, h, rfl⟩
    obtain ⟨hret, hL, rfl⟩ := Engine.level_eq_ok.mp h
    exact ⟨hret, hL, rfl⟩
  · rintro ⟨hret, hL, rfl⟩
    exact ⟨_, Engine.level_eq_ok.mpr ⟨hret, hL, rfl⟩, rfl⟩

theorem onOracle_eq_ok {f : LogicalOracle → Except WorkloadError LogicalOracle} {u : Unit} :
    (onOracle f).run w = .ok u w' ↔ ∃ o, f w.oracle = .ok o ∧ w' = { w with oracle := o } := by
  rw [onOracle, run_get_bind, run_liftExcept_bind_eq_ok]
  constructor
  · rintro ⟨o, ho, ⟨⟩⟩
    exact ⟨o, ho, rfl⟩
  · rintro ⟨o, ho, rfl⟩
    exact ⟨o, ho, rfl⟩

/-! ## The calls of the engine -/

/-- A batch has been published under the reference of its operation. -/
theorem publish_eq_ok {publication : EngineM String LevelId} {op : WorkloadOperation}
    {records : List (Record String)} {r : OperationResult}
    (h : (publish publication op records).run w = .ok r w') :
    ∃ l e o n, publication.run w.engine = .ok l e ∧
      w.oracle.addNewest (op.boundRef w.nextRef) (contentsOf records) = .ok o ∧
      r = .level (op.boundRef w.nextRef) l (contentsOf records).keys.card n ∧
      w' = { w.bind (op.boundRef w.nextRef) l with engine := e, oracle := o } := by
  obtain ⟨l, w₁, hl, h⟩ := run_bind_eq_ok.mp h
  obtain ⟨e, hrun, rfl⟩ := onEngine_eq_ok.mp hl
  obtain ⟨ref, w₂, ⟨⟩, h₂⟩ := run_bind_eq_ok.mp h
  obtain ⟨_, w₃, horacle, h₃⟩ := run_bind_eq_ok.mp h₂
  obtain ⟨o, ho, rfl⟩ := onOracle_eq_ok.mp horacle
  obtain ⟨L, w₄, hL, h₄⟩ := run_bind_eq_ok.mp h₃
  obtain ⟨-, -, rfl⟩ := onLevel_eq_ok.mp hL
  cases h₄
  exact ⟨l, e, o, _, hrun, ho, rfl, rfl⟩

theorem doBuildPgm_eq_ok {r : OperationResult} (h : (doBuildPgm l).run w = .ok r w') :
    ∃ index e ref n, (Engine.buildLevelPgm l).run w.engine = .ok index e ∧
      r = .level ref l index.recordCount n ∧
      w' = { w with engine := e, queryable := insert l w.queryable } := by
  obtain ⟨index, w₁, hindex, h₁⟩ := run_bind_eq_ok.mp h
  obtain ⟨e, hrun, rfl⟩ := onEngine_eq_ok.mp hindex
  rw [run_modify_bind, run_get_bind, run_liftExcept_bind_eq_ok] at h₁
  obtain ⟨ref, -, h₂⟩ := h₁
  obtain ⟨L, w₂, hL, h₃⟩ := run_bind_eq_ok.mp h₂
  obtain ⟨-, -, rfl⟩ := onLevel_eq_ok.mp hL
  cases h₃
  exact ⟨index, e, ref, _, hrun, rfl, rfl⟩

/-- The merge that is to be compared with the oracle. -/
def pending (w : BaselineWorkloadRunner) (op : WorkloadOperation) (newerRef olderRef : String)
    (newerMap olderMap : FinDict Int String) (result : Engine.MergeResult) : PendingMerge where
  result := result
  newerRef := newerRef
  olderRef := olderRef
  outputRef := op.boundRef w.nextRef
  newerCount := newerMap.keys.card
  olderCount := olderMap.keys.card
  expectedUnion := newerMap ∪ olderMap
  expectedDiscarded := (newerMap.keys ∩ olderMap.keys).card

/-- The inputs of a merge have passed the checks, and their union is still to be compared. -/
theorem doMerge_eq_ok {op : WorkloadOperation} {newer older : LevelId} {r : OperationResult}
    (h : (doMerge op newer older).run w = .ok r w') :
    ∃ newerRef olderRef newerMap olderMap result e n,
      w.checkMerge newer older = .ok (newerRef, olderRef) ∧
      w.oracle.contents newerRef = .ok newerMap ∧ w.oracle.contents olderRef = .ok olderMap ∧
      (Engine.mergeLevelsBlocking newer older).run w.engine = .ok result e ∧
      r = .merge (op.boundRef w.nextRef) newerRef olderRef result n ∧
      w' = { w.bind (op.boundRef w.nextRef) result.outputLevelId with
        engine := e
        queryable := insert result.outputLevelId w.queryable
        pendingMerge := some (w.pending op newerRef olderRef newerMap olderMap result) } := by
  rw [doMerge, run_get_bind, run_liftExcept_bind_eq_ok] at h
  obtain ⟨⟨newerRef, olderRef⟩, hcheck, h⟩ := h
  obtain ⟨newerMap, hnewer, h⟩ := run_liftExcept_bind_eq_ok.mp h
  obtain ⟨olderMap, holder, h⟩ := run_liftExcept_bind_eq_ok.mp h
  obtain ⟨result, w₁, hresult, h₁⟩ := run_bind_eq_ok.mp h
  obtain ⟨e, hrun, rfl⟩ := onEngine_eq_ok.mp hresult
  obtain ⟨ref, w₂, ⟨⟩, h₂⟩ := run_bind_eq_ok.mp h₁
  simp only [run_modify_bind] at h₂
  obtain ⟨L, w₃, hL, h₃⟩ := run_bind_eq_ok.mp h₂
  obtain ⟨-, -, rfl⟩ := onLevel_eq_ok.mp hL
  cases h₃
  exact ⟨newerRef, olderRef, newerMap, olderMap, result, e, _, hcheck, hnewer, holder, hrun, rfl,
    rfl⟩

theorem checkQueryable_eq_ok {u : Unit} (h : (checkQueryable l).run w = .ok u w') : w' = w := by
  obtain ⟨L, w₁, hL, h₁⟩ := run_bind_eq_ok.mp h
  obtain ⟨-, -, rfl⟩ := onLevel_eq_ok.mp hL
  rw [run_get_bind] at h₁
  split_ifs at h₁
  · obtain ⟨_, -, h₂⟩ := run_liftExcept_bind_eq_ok.mp h₁
    cases h₂
  · cases h₁
    rfl

/-- A query has been answered over the levels of the oracle. -/
theorem doQuery_eq_ok {op : WorkloadOperation} {r : OperationResult}
    (h : (doQuery op).run w = .ok r w') :
    ∃ key rest plan result e hitRef searchedRefs, op.keys = key :: rest ∧
      w.oracle.refs.mapM w.refLevel = .ok plan ∧
      (Engine.lookupLevels plan ⟨key⟩).run w.engine = .ok result e ∧
      result.searchedLevelIds.mapM w.levelRef = .ok searchedRefs ∧
      r = .query {
        key := key
        found := result.found
        value := result.record.map (·.value)
        hitRef := hitRef
        searchedRefs := searchedRefs
        expectedValue := w.oracle.query key
        expectedSearchedRefs := w.oracle.searchedRefs key } ∧
      w' = { w with engine := e } := by
  unfold doQuery at h
  cases hkeys : op.keys with
  | nil =>
    rw [hkeys] at h
    cases h
  | cons key rest =>
    rw [hkeys] at h
    simp only [run_get_bind, run_liftExcept_bind_eq_ok] at h
    obtain ⟨plan, hplan, h⟩ := h
    obtain ⟨_, w₁, hcheck, h₁⟩ := run_bind_eq_ok.mp h
    -- the levels are only looked at
    have hsame : w = w₁ := (run_forM_eq_ok (R := Eq) (P := fun _ _ ↦ True) (fun _ ↦ rfl)
      (fun _ _ _ h h' ↦ h.trans h') (fun _ _ _ _ _ ↦ trivial)
      (fun _ _ _ h ↦ ⟨(checkQueryable_eq_ok h).symm, trivial⟩) hcheck).1
    subst hsame
    obtain ⟨result, w₂, hresult, h₂⟩ := run_bind_eq_ok.mp h₁
    obtain ⟨e, hrun, rfl⟩ := onEngine_eq_ok.mp hresult
    simp only [run_liftExcept_bind_eq_ok] at h₂
    obtain ⟨hitRef, -, searchedRefs, hsearched, h₃⟩ := h₂
    cases h₃
    exact ⟨key, rest, plan, result, e, hitRef, searchedRefs, rfl, hplan, hrun, hsearched, rfl, rfl⟩

/-! ## Comparison and verification -/

theorem mapM_readBlock_eq_ok {e e' : Engine String} {ids : List BlockId}
    {blks : List (Block String)} (h : (ids.mapM Engine.readBlock).run e = .ok blks e') :
    e.ReadAs ids blks ∧ Engine.ReadsOnly e e' := by
  induction ids generalizing e blks e' with
  | nil =>
    cases h
    exact ⟨.nil, .refl _⟩
  | cons b ids ih =>
    rw [List.mapM_cons] at h
    obtain ⟨blk, e₁, hblk, h₁⟩ := run_bind_eq_ok.mp h
    obtain ⟨hat, s, -, rfl⟩ := Engine.readBlock_eq_ok hblk
    obtain ⟨blks', e₂, hblks, h₂⟩ := run_bind_eq_ok.mp h₁
    obtain ⟨hread, hreads⟩ := ih hblks
    cases h₂
    exact ⟨.cons hat (Engine.afterReads_readAs.mp hread), .trans _ _ _ ⟨[s], rfl⟩ hreads⟩

/-- The contents of a level are those of its records. -/
theorem readLevelContents_eq_ok {contents : FinDict Int String}
    (h : (readLevelContents l).run w = .ok contents w') :
    contents = contentsOf (w.engine.recordsOf l) ∧ w' = w.cleared := by
  rw [readLevelContents, clearTrace, run_modify_bind] at h
  obtain ⟨L, w₁, hL, h₁⟩ := run_bind_eq_ok.mp h
  obtain ⟨-, hlookup, rfl⟩ := onLevel_eq_ok.mp hL
  obtain ⟨blks, w₂, hblks, h₂⟩ := run_bind_eq_ok.mp h₁
  obtain ⟨e, hrun, rfl⟩ := onEngine_eq_ok.mp hblks
  obtain ⟨hread, hreads⟩ := mapM_readBlock_eq_ok hrun
  cases h₂
  refine ⟨?_, ?_⟩
  · exact congrArg contentsOf (Engine.recordsOf_eq hlookup hread).symm
  · show ({ w with engine := e.clearTrace } : BaselineWorkloadRunner) = w.cleared
    rw [hreads.clearTrace]
    rfl

/-- A merge has been compared with what the oracle expected, and the oracle has merged. -/
theorem finishMerge_eq_ok {pending : PendingMerge} {s : MergeSummary}
    (h : (finishMerge pending).run w = .ok s w') :
    ∃ o, w.oracle.merge pending.newerRef pending.olderRef pending.outputRef = .ok o ∧
      s = pending.summary (contentsOf (w.engine.recordsOf pending.result.outputLevelId)) ∧
      w' = { w.opened with oracle := o } := by
  rw [finishMerge, run_modify_bind] at h
  obtain ⟨contents, w₁, hcontents, h₁⟩ := run_bind_eq_ok.mp h
  obtain ⟨rfl, rfl⟩ := readLevelContents_eq_ok hcontents
  obtain ⟨_, w₂, horacle, h₂⟩ := run_bind_eq_ok.mp h₁
  obtain ⟨o, ho, rfl⟩ := onOracle_eq_ok.mp horacle
  cases h₂
  exact ⟨o, ho, rfl, rfl⟩

theorem failsLoudly_eq_ok {b : Bool} (h : (failsLoudly l).run w = .ok b w') :
    w' = w ∧ b = decide (l ∈ w.engine.retiredLevelIds) := by
  by_cases hl : l ∈ w.engine.retiredLevelIds ∨ l ∉ w.engine.levels
  · have hlevel : (onEngine (Engine.level l)).run w = .error (.engine (if
        l ∈ w.engine.retiredLevelIds then .retiredLevel l else .key l)) w :=
      run_zoom_of_error (Engine.run_level_error hl)
    rw [failsLoudly, run_tryCatch_of_error (run_bind_of_error hlevel _)] at h
    by_cases hret : l ∈ w.engine.retiredLevelIds
    · simp only [if_pos hret] at h
      cases h
      exact ⟨rfl, (decide_eq_true hret).symm⟩
    · simp only [if_neg hret] at h
      cases h
  · push Not at hl
    obtain ⟨L, hL⟩ := Finmap.mem_iff.mp hl.2
    have hrun : (onEngine (Engine.level l) >>= fun _ ↦ pure false).run w = .ok false w :=
      run_bind_of_ok (onLevel_eq_ok.mpr ⟨hl.1, hL, rfl⟩) _
    rw [failsLoudly, run_tryCatch_of_ok hrun] at h
    cases h
    exact ⟨rfl, (decide_eq_false hl.1).symm⟩

/-- The two runners differ at most in the traces of their engines. -/
def SameButTrace (w w' : BaselineWorkloadRunner) : Prop := w'.cleared = w.cleared

theorem SameButTrace.trans (w w' w'' : BaselineWorkloadRunner) (h : SameButTrace w w')
    (h' : SameButTrace w' w'') : SameButTrace w w'' := Eq.trans h' h

theorem SameButTrace.retiredLevelIds (h : SameButTrace w w') :
    w'.engine.retiredLevelIds = w.engine.retiredLevelIds :=
  congrArg (·.engine.retiredLevelIds) (show w'.cleared = w.cleared from h)

/-- A level that is validated is not retired. -/
theorem onValidation_eq_ok {u : Unit}
    (h : (onValidation (Engine.validateLevel l)).run w = .ok u w') :
    SameButTrace w w' ∧ l ∉ w.engine.retiredLevelIds := by
  obtain ⟨e, hrun, rfl⟩ := run_zoom_eq_ok.mp h
  obtain ⟨L, blks, hret, -, -, -, -, -, rfl⟩ := Engine.validateLevel_eq_ok.mp hrun
  refine ⟨?_, hret⟩
  rw [SameButTrace, cleared, Engine.clearTrace_afterReads]
  rfl

/-- The levels of the references have been found, the active ones among them are not retired, and
the state is what it was. -/
theorem verifyState_eq_ok {v : Verification} (h : verifyState.run w = .ok v w') :
    ∃ active retired, w.oracle.refs.mapM w.refLevel = .ok active ∧
      w.oracle.retired.mapM w.refLevel = .ok retired ∧
      (∀ l ∈ active, l ∈ w.engine.levels → l ∉ w.engine.retiredLevelIds) ∧
      v = w.cleared.verification active retired
        (retired.all fun l ↦ l ∈ w.engine.retiredLevelIds) ∧ w' = w.cleared := by
  rw [verifyState, run_get_bind, run_liftExcept_bind_eq_ok] at h
  obtain ⟨active, hactive, h⟩ := h
  obtain ⟨retired, hretired, h⟩ := run_liftExcept_bind_eq_ok.mp h
  obtain ⟨loud, w₁, hloud, h₁⟩ := run_bind_eq_ok.mp h
  obtain ⟨rfl, rfl⟩ := run_mapM_eq_ok
    (g := fun (w : BaselineWorkloadRunner) l ↦ decide (l ∈ w.engine.retiredLevelIds))
    (fun _ _ _ _ ↦ failsLoudly_eq_ok) hloud
  obtain ⟨_, -, h₂⟩ := run_liftExcept_bind_eq_ok.mp h₁
  obtain ⟨_, w₂, ⟨⟩, h₃⟩ := run_bind_eq_ok.mp h₂
  obtain ⟨_, w₃, hvalid, h₄⟩ := run_bind_eq_ok.mp h₃
  obtain ⟨hsame, hret⟩ := run_forM_eq_ok (R := SameButTrace)
    (P := fun w l ↦ l ∉ w.engine.retiredLevelIds) (fun _ ↦ rfl) SameButTrace.trans
    (fun _ _ _ h ↦ h.retiredLevelIds ▸ id) (fun _ _ _ ↦ onValidation_eq_ok) hvalid
  obtain ⟨_, w₄, ⟨⟩, h₅⟩ := run_bind_eq_ok.mp h₄
  cases h₅
  refine ⟨active, retired, hactive, hretired, fun l hl hlevel ↦ ?_, ?_, hsame⟩
  · exact hret l (List.mem_filter.mpr ⟨hl, decide_eq_true hlevel⟩)
  · rw [List.all_map]
    exact congrArg (fun w ↦ verification w active retired _) hsame

theorem resolve_eq_ok {op : WorkloadOperation} {call : Call} (h : (resolve op).run w = .ok call w') :
    w = w' := by
  rw [resolve, run_get_bind] at h
  split at h
  · cases h
    rfl
  · cases h
    rfl
  · obtain ⟨_, -, ⟨⟩⟩ := run_liftExcept_bind_eq_ok.mp h
    rfl
  · obtain ⟨_, -, h⟩ := run_liftExcept_bind_eq_ok.mp h
    obtain ⟨_, -, ⟨⟩⟩ := run_liftExcept_bind_eq_ok.mp h
    rfl
  · cases h
    rfl
  · cases h
    rfl

/-- Everything an operation of a script does: its references are looked up, the engine is called
in a window of its own, and the state is compared and verified. -/
theorem runOperation_eq_ok {op : WorkloadOperation} {u : Unit}
    (h : (runOperation op).run w = .ok u w') :
    ∃ call payload w₁ oracle w₂ v w₃, (resolve op).run w = .ok call w ∧
      (dispatch op call).run w.opened = .ok payload w₁ ∧
      (compare payload).run w₁.cleared = .ok oracle w₂ ∧ verifyState.run w₂ = .ok v w₃ ∧
      w' = w₃.addRecord {
        index := w₃.records.length
        kind := op.kind
        operation := op
        events := w₁.engine.storage.trace
        result := payload
        verification := v
        oracle := oracle } := by
  obtain ⟨call, w₀, hcall, h₀⟩ := run_bind_eq_ok.mp h
  obtain rfl := resolve_eq_ok hcall
  rw [run, run_modify_bind, clearTrace, run_modify_bind] at h₀
  obtain ⟨payload, w₁, htry, h₁⟩ := run_bind_eq_ok.mp h₀
  have hpayload : (dispatch op call).run w.opened = .ok payload w₁ := by
    cases hdispatch : (dispatch op call).run w.opened with
    | ok payload' w' => exact (run_tryCatch_of_ok hdispatch _).symm.trans htry
    | error err w' => cases (run_tryCatch_of_error hdispatch _).symm.trans htry
  rw [run_get_bind, run_modify_bind] at h₁
  obtain ⟨oracle, w₂, horacle, h₂⟩ := run_bind_eq_ok.mp h₁
  obtain ⟨v, w₃, hv, h₃⟩ := run_bind_eq_ok.mp h₂
  cases h₃
  exact ⟨call, payload, w₁, oracle, w₂, v, w₃, hcall, hpayload, horacle, hv, rfl⟩

end BaselineWorkloadRunner

end EnhancedLetIndex
