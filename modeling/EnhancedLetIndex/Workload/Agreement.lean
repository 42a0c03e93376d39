import EnhancedLetIndex.Workload.Artifact
import EnhancedLetIndex.Workload.Tracks

/-!
# When the engine and the oracle agree

`WorkloadScript.live` says in terms of the script alone which levels are live after some of its
operations.  A run whose levels have references of their own keeps them (`follows_run`), and every
operation of it agrees with the oracle, except for one thing: a search of the oracle passes the
empty levels, and a search of the engine leaves them out.  So a run counts no mismatch exactly when
no query passes an empty level (`oracle_agrees_iff`).
-/

namespace EnhancedLetIndex

/-! ## The levels of a script -/

/-- The union of two neighbours in their place. -/
def mergeAt (newerRef olderRef : Option String) (outputRef : String) :
    List (String × FinDict Int String) → List (String × FinDict Int String)
  | (ref₁, c₁) :: (ref₂, c₂) :: rest =>
    if newerRef = some ref₁ ∧ olderRef = some ref₂ then (outputRef, c₁ ∪ c₂) :: rest
    else (ref₁, c₁) :: mergeAt newerRef olderRef outputRef ((ref₂, c₂) :: rest)
  | levels => levels

/-- The levels that a script has built: how many it has published, and the live ones, the newest
first. -/
structure LiveLevels where
  published : Nat
  levels : List (String × FinDict Int String)

/-- The levels after one more operation. -/
def LiveLevels.next (s : LiveLevels) (op : WorkloadOperation) : LiveLevels :=
  match op.operationClass with
  | some .buildInitial | some .upsert =>
    ⟨s.published + 1, (op.boundRef s.published, contentsOf op.records) :: s.levels⟩
  | some .merge =>
    ⟨s.published + 1, mergeAt op.newerRef op.olderRef (op.boundRef s.published) s.levels⟩
  | _ => s

theorem LiveLevels.next_published (s : LiveLevels) (op : WorkloadOperation) :
    (s.next op).published = s.published + if op.Binds then 1 else 0 := by
  unfold next
  cases hclass : op.operationClass with
  | none => simp [WorkloadOperation.Binds, hclass]
  | some operationClass => cases operationClass <;> simp [WorkloadOperation.Binds, hclass]

namespace WorkloadScript

/-- The levels after some operations. -/
def live (ops : List WorkloadOperation) : LiveLevels := ops.foldl LiveLevels.next ⟨0, []⟩

/-- No query of the script passes an empty level. -/
def PassesNoEmptyLevel (script : WorkloadScript) : Prop :=
  ∀ i op key, script.operations[i]? = some op → op.operationClass = some .query →
    op.keys.head? = some key →
    ∀ level ∈ LogicalOracle.searched key (live (script.operations.take i)).levels, level.2 ≠ ∅

instance (script : WorkloadScript) : Decidable script.FreshRefs :=
  inferInstanceAs (Decidable (List.Nodup _))

instance (script : WorkloadScript) : Decidable script.PassesNoEmptyLevel :=
  decidable_of_iff (∀ i < script.operations.length, ∀ op ∈ script.operations[i]?,
    op.operationClass = some .query → ∀ key ∈ op.keys.head?,
      ∀ level ∈ LogicalOracle.searched key (live (script.operations.take i)).levels, level.2 ≠ ∅)
    ⟨fun h i op key hop hclass hkey ↦
      h i (List.getElem?_eq_some_iff.mp hop).1 op hop hclass key hkey,
    fun h i _ op hop hclass key hkey ↦ h i op key hop hclass hkey⟩

variable {ops : List WorkloadOperation} {op : WorkloadOperation}

theorem live_concat : live (ops ++ [op]) = (live ops).next op := by
  rw [live, List.foldl_append]
  rfl

theorem boundRefs_concat (n : Nat) : boundRefs n (ops ++ [op]) =
    boundRefs n ops ++ if op.Binds then [op.boundRef (n + (boundRefs n ops).length)] else [] := by
  induction ops generalizing n with
  | nil =>
    rw [List.nil_append, boundRefs, boundRefs]
    rfl
  | cons op' ops ih =>
    rw [List.cons_append, boundRefs, boundRefs]
    split_ifs with hbinds' hbinds
    · rw [ih, if_pos hbinds, List.cons_append, List.length_cons, Nat.add_right_comm, Nat.add_assoc]
    · rw [ih, if_neg hbinds, List.cons_append]
    · rw [ih, if_pos ‹op.Binds›]
    · rw [ih, if_neg ‹¬ op.Binds›]

/-- The levels are counted as they are published. -/
theorem published_live : (live ops).published = (boundRefs 0 ops).length := by
  induction ops using List.reverseRecOn with
  | nil => rfl
  | append_singleton ops op ih =>
    rw [live_concat, boundRefs_concat, LiveLevels.next_published, ih, List.length_append]
    split_ifs <;> rfl

end WorkloadScript

/-- The union takes the place of the first level with the newer reference and of its neighbour. -/
theorem mergeAt_neighbours {front back : List (String × FinDict Int String)}
    {newerRef olderRef outputRef : String} {c₁ c₂ : FinDict Int String}
    (hnewer : newerRef ∉ front.map Prod.fst) :
    mergeAt (some newerRef) (some olderRef) outputRef
      (front ++ (newerRef, c₁) :: (olderRef, c₂) :: back) =
        front ++ (outputRef, c₁ ∪ c₂) :: back := by
  induction front with
  | nil => exact if_pos ⟨rfl, rfl⟩
  | cons level front ih =>
    rw [List.map_cons, List.mem_cons, not_or] at hnewer
    obtain ⟨hne, hnewer⟩ := hnewer
    cases front with
    | nil =>
      rw [List.singleton_append, mergeAt, if_neg fun h ↦ hne (Option.some.inj h.1)]
      exact congrArg (level :: ·) (ih hnewer)
    | cons next front =>
      rw [List.cons_append, List.cons_append, mergeAt, if_neg fun h ↦ hne (Option.some.inj h.1)]
      exact congrArg (level :: ·) (ih hnewer)

/-! ## Comparing an operation -/

/-- How an operation compares with the oracle, which had these levels before it. -/
structure Compared (levels : List (String × FinDict Int String)) (op : WorkloadOperation)
    (oracle : Option OracleSummary) : Prop where
  merge : op.operationClass = some .merge →
    ∃ s, oracle = some (.merge s) ∧ s.matchesOracle = true
  query : op.operationClass = some .query → ∃ key o, op.keys.head? = some key ∧
    oracle = some (.query o) ∧ o.expectedValue = levels.findSome? (·.2.lookup key) ∧
    o.expectedSearchedRefs = (LogicalOracle.searched key levels).map Prod.fst ∧
    o.found = o.expectedFound ∧ o.value = o.expectedValue ∧
    o.searchedRefs = ((LogicalOracle.searched key levels).filter (·.2 ≠ ∅)).map Prod.fst
  other : op.operationClass ≠ some .merge → op.operationClass ≠ some .query → oracle = none

/-- The engine passes over the empty levels. -/
theorem map_filter_eq_iff {levels : List (String × FinDict Int String)} :
    (levels.filter (·.2 ≠ ∅)).map Prod.fst = levels.map Prod.fst ↔
      ∀ level ∈ levels, level.2 ≠ ∅ := by
  constructor
  · intro h level hlevel
    have hlength := congrArg List.length h
    rw [List.length_map, List.length_map, List.length_filter_eq_length_iff] at hlength
    exact of_decide_eq_true (hlength level hlevel)
  · intro h
    rw [List.filter_eq_self.mpr fun level hlevel ↦ decide_eq_true (h level hlevel)]

/-- An operation matches the oracle unless it is a query that passes an empty level. -/
theorem Compared.matches_iff {levels : List (String × FinDict Int String)}
    {op : WorkloadOperation} {oracle : Option OracleSummary} (h : Compared levels op oracle) :
    (∀ s ∈ oracle, s.matchesOracle = true) ↔ ∀ key, op.operationClass = some .query →
      op.keys.head? = some key → ∀ level ∈ LogicalOracle.searched key levels, level.2 ≠ ∅ := by
  by_cases hquery : op.operationClass = some .query
  · obtain ⟨key, o, hkey, rfl, -, hexpected, hfound, hvalue, hsearched⟩ := h.query hquery
    have hmatches : o.matchesOracle = true ↔
        ∀ level ∈ LogicalOracle.searched key levels, level.2 ≠ ∅ := by
      rw [QueryOutcome.matchesOracle, decide_eq_true_eq, and_iff_right hfound,
        and_iff_right hvalue, hexpected, hsearched, map_filter_eq_iff]
    simp only [Option.mem_def, Option.some.injEq, forall_eq', OracleSummary.matchesOracle, hmatches]
    constructor
    · intro hall key' _ hkey'
      cases hkey.symm.trans hkey'
      exact hall
    · exact fun hall ↦ hall key hquery hkey
  · refine iff_of_true (fun s hs ↦ ?_) fun _ hclass ↦ absurd hclass hquery
    by_cases hmerge : op.operationClass = some .merge
    · obtain ⟨s', rfl, hs'⟩ := h.merge hmerge
      cases hs
      exact hs'
    · cases (h.other hmerge hquery).symm.trans hs

/-! ## One operation -/

namespace BaselineWorkloadRunner

variable {config : Config} {w w₁ w' : BaselineWorkloadRunner} {ids : List LevelId}
  {op : WorkloadOperation} {payload : OperationResult} {oracle : Option OracleSummary}

/-- The levels of the oracle, and how many have been published. -/
def live (w : BaselineWorkloadRunner) : LiveLevels := ⟨w.nextRef, w.oracle.levels⟩

/-- An operation has been performed and compared: both models have taken the same step. -/
structure Performed (config : Config) (w : BaselineWorkloadRunner) (op : WorkloadOperation)
    (oracle : Option OracleSummary) (w' : BaselineWorkloadRunner) : Prop where
  tracks : ∃ ids, Tracks config w' ids
  live : w'.live = w.live.next op
  refs : ∀ ref ∈ w'.refs, ref ∈ w.refs ∨ op.Binds ∧ ref = op.boundRef w.nextRef
  compared : Compared w.oracle.levels op oracle

theorem compare_of_none (h : (compare payload).run w = .ok oracle w')
    (hpending : w.pendingMerge = none) : oracle = payload.oracle ∧ w' = w := by
  rw [compare, run_get_bind, hpending] at h
  cases h
  exact ⟨rfl, rfl⟩

theorem compare_of_some {pending : PendingMerge} (h : (compare payload).run w = .ok oracle w')
    (hpending : w.pendingMerge = some pending) :
    ∃ o, w.oracle.merge pending.newerRef pending.olderRef pending.outputRef = .ok o ∧
      oracle = some (.merge (pending.summary
        (contentsOf (w.engine.recordsOf pending.result.outputLevelId)))) ∧
      w' = { w.opened with oracle := o } := by
  rw [compare, run_get_bind, hpending] at h
  obtain ⟨s, w₁, hs, h₁⟩ := run_bind_eq_ok.mp h
  obtain ⟨o, ho, rfl, rfl⟩ := finishMerge_eq_ok hs
  cases h₁
  exact ⟨o, ho, rfl, rfl⟩

/-- What binds a reference adds that one only. -/
theorem mem_refs_bind {ref r : String} {l : LevelId} (h : r ∈ (w.bind ref l).refs) :
    r ∈ w.refs ∨ r = ref := (Finmap.mem_insert.mp h).symm

theorem performed_publish {publication : EngineM String LevelId} (h : Tracks config w ids)
    (hpending : w.pendingMerge = none)
    (hclass : op.operationClass = some .buildInitial ∨ op.operationClass = some .upsert)
    (hfresh : op.boundRef w.nextRef ∉ w.refs)
    (hpublication : ∀ {batches l e}, Engine.Serves config w.engine ids batches →
      publication.run w.engine = .ok l e → l = ⟨w.engine.nextLevelId⟩ ∧
        (∃ batches', Engine.Serves config e (⟨w.engine.nextLevelId⟩ :: ids) batches') ∧
        Engine.BatchAdded w.engine e ids op.records)
    (hrun : (publish publication op op.records).run w = .ok payload w₁)
    (hcompare : (compare payload).run w₁.cleared = .ok oracle w') :
    Performed config w op oracle w' := by
  obtain ⟨l, e, o, n, hpublish, ho, rfl, rfl⟩ := publish_eq_ok hrun
  obtain ⟨batches, hserves⟩ := h.serves
  obtain ⟨rfl, hserves', hadded⟩ := hpublication hserves hpublish
  obtain ⟨hlevels, htracks⟩ := h.published hfresh hserves' hadded ho
  obtain ⟨rfl, rfl⟩ := compare_of_none hcompare hpending
  refine ⟨⟨_, htracks.cleared⟩, ?_, fun ref href ↦ ?_, ?_, ?_, fun _ _ ↦ rfl⟩
  · show (⟨w.nextRef + 1, o.levels⟩ : LiveLevels) = _
    rw [hlevels, LiveLevels.next]
    rcases hclass with hclass | hclass <;> rw [hclass] <;> rfl
  · refine (mem_refs_bind href).imp_right fun heq ↦ ⟨?_, heq⟩
    rw [WorkloadOperation.Binds]
    rcases hclass with hclass | hclass <;> rw [hclass] <;> decide
  · intro hmerge
    rcases hclass with hclass | hclass <;> cases hclass.symm.trans hmerge
  · intro hquery
    rcases hclass with hclass | hclass <;> cases hclass.symm.trans hquery

theorem performed_buildPgm {l : LevelId} (h : Tracks config w ids)
    (hpending : w.pendingMerge = none) (hclass : op.operationClass = some .buildPgm)
    (hrun : (doBuildPgm l).run w = .ok payload w₁)
    (hcompare : (compare payload).run w₁.cleared = .ok oracle w') :
    Performed config w op oracle w' := by
  obtain ⟨index, e, ref, n, hbuild, rfl, rfl⟩ := doBuildPgm_eq_ok hrun
  obtain ⟨rfl, rfl⟩ := compare_of_none hcompare hpending
  refine ⟨⟨ids, (h.pgmBuilt hbuild).cleared⟩, ?_, fun _ ↦ Or.inl, ?_, ?_, fun _ _ ↦ rfl⟩
  · rw [LiveLevels.next, hclass]
    rfl
  · intro hmerge
    cases hclass.symm.trans hmerge
  · intro hquery
    cases hclass.symm.trans hquery

theorem performed_merge {newer older : LevelId} (h : Tracks config w ids)
    (hclass : op.operationClass = some .merge) (hfresh : op.boundRef w.nextRef ∉ w.refs)
    (hnewer : w.levelId op.newerRef = .ok newer) (holder : w.levelId op.olderRef = .ok older)
    (hrun : (doMerge op newer older).run w = .ok payload w₁)
    (hcompare : (compare payload).run w₁.cleared = .ok oracle w') :
    Performed config w op oracle w' := by
  obtain ⟨newerRef, olderRef, newerMap, olderMap, result, e, n, hcheck, hnewerMap, holderMap,
    hmerge, rfl, rfl⟩ := doMerge_eq_ok hrun
  obtain ⟨o, ho, rfl, rfl⟩ := compare_of_some hcompare rfl
  obtain ⟨⟨front, back, c₁, c₂, hlevels, hfront, hlevels'⟩, hmatches, ids', htracks⟩ :=
    h.merged hcheck hnewerMap holderMap hmerge hfresh ho
  -- the references of the operation are those of its inputs
  obtain ⟨hnewerRef, holderRef, -⟩ := Tracks.checkMerge_eq_ok hcheck
  obtain ⟨r₁, hr₁, hlookup₁⟩ := levelId_eq_ok.mp hnewer
  obtain ⟨r₂, hr₂, hlookup₂⟩ := levelId_eq_ok.mp holder
  cases Option.some.inj (((h.inverse _ _).mp hlookup₁).symm.trans hnewerRef)
  cases Option.some.inj (((h.inverse _ _).mp hlookup₂).symm.trans holderRef)
  refine ⟨⟨ids', (htracks.cleared).congr rfl rfl rfl rfl rfl⟩, ?_, fun ref href ↦ ?_, ?_, ?_, ?_⟩
  · show (⟨w.nextRef + 1, o.levels⟩ : LiveLevels) = _
    rw [hlevels', LiveLevels.next, hclass, live, hlevels, Option.mem_def.mp hr₁,
      Option.mem_def.mp hr₂]
    simp only [mergeAt_neighbours hfront]
  · refine (mem_refs_bind href).imp_right fun heq ↦ ⟨?_, heq⟩
    rw [WorkloadOperation.Binds, hclass]
    decide
  · exact fun _ ↦ ⟨_, rfl, hmatches⟩
  · intro hquery
    cases hclass.symm.trans hquery
  · exact fun hne ↦ absurd hclass hne

theorem performed_query (h : Tracks config w ids) (hpending : w.pendingMerge = none)
    (hclass : op.operationClass = some .query) (hrun : (doQuery op).run w = .ok payload w₁)
    (hcompare : (compare payload).run w₁.cleared = .ok oracle w') :
    Performed config w op oracle w' := by
  obtain ⟨key, rest, plan, result, e, hitRef, searchedRefs, hkeys, hplan, hlookup, hsearched, rfl,
    rfl⟩ := doQuery_eq_ok hrun
  cases h.plan.symm.trans hplan
  obtain ⟨hfound, hvalue, hrefs, hengine⟩ := h.queried hlookup hsearched
  obtain ⟨rfl, rfl⟩ := compare_of_none hcompare hpending
  refine ⟨⟨ids, h.cleared.congr hengine rfl rfl rfl rfl⟩, ?_, fun _ ↦ Or.inl, ?_, ?_, ?_⟩
  · rw [LiveLevels.next, hclass]
    rfl
  · intro hmerge
    cases hclass.symm.trans hmerge
  · intro _
    refine ⟨key, _, ?_, rfl, rfl, rfl, hfound, hvalue, hrefs⟩
    rw [hkeys]
    rfl
  · exact fun _ hne ↦ absurd hclass hne

theorem performed {call : Call} (h : Tracks config w ids)
    (hfresh : op.Binds → op.boundRef w.nextRef ∉ w.refs)
    (hcall : (resolve op).run w = .ok call w)
    (hrun : (dispatch op call).run w.opened = .ok payload w₁)
    (hcompare : (compare payload).run w₁.cleared = .ok oracle w') :
    Performed config w op oracle w' := by
  have hopened : Tracks config w.opened ids := h.cleared.congr rfl rfl rfl rfl rfl
  have hbinds : op.operationClass ∈ [some .buildInitial, some .upsert, some .merge] →
      op.boundRef w.opened.nextRef ∉ w.opened.refs := hfresh
  suffices Performed config w.opened op oracle w' from
    ⟨this.tracks, this.live, this.refs, this.compared⟩
  rw [resolve, run_get_bind] at hcall
  cases hclass : op.operationClass with
  | none =>
    rw [hclass] at hcall
    cases hcall
    cases hrun
  | some operationClass =>
    rw [hclass] at hcall hbinds
    cases operationClass with
    | buildInitial =>
      cases hcall
      refine performed_publish hopened rfl (Or.inl hclass) (hbinds (by decide)) ?_ hrun hcompare
      intro batches l e hserves hpublish
      obtain ⟨rfl, hserves', hadded⟩ := hserves.buildLevel_eq_ok hpublish
      exact ⟨rfl, ⟨_, hserves'⟩, hadded⟩
    | upsert =>
      cases hcall
      refine performed_publish hopened rfl (Or.inr hclass) (hbinds (by decide)) ?_ hrun hcompare
      exact fun hserves hpublish ↦ hserves.createUpdateLevel_eq_ok hpublish
    | buildPgm =>
      obtain ⟨l, -, ⟨⟩⟩ := run_liftExcept_bind_eq_ok.mp hcall
      exact performed_buildPgm hopened rfl hclass hrun hcompare
    | merge =>
      obtain ⟨newer, hnewer, hcall⟩ := run_liftExcept_bind_eq_ok.mp hcall
      obtain ⟨older, holder, ⟨⟩⟩ := run_liftExcept_bind_eq_ok.mp hcall
      exact performed_merge hopened hclass (hbinds (by decide)) hnewer holder hrun hcompare
    | query =>
      cases hcall
      exact performed_query hopened rfl hclass hrun hcompare

/-- A finished operation has been performed, its record says how it compares with the oracle, and
the state it left has passed the verification. -/
theorem runOperation_performed {u : Unit} (h : Tracks config w ids)
    (hfresh : op.Binds → op.boundRef w.nextRef ∉ w.refs)
    (hop : (runOperation op).run w = .ok u w') :
    ∃ r, w'.records = w.records ++ [r] ∧ r.verification.ok = true ∧
      Performed config w op r.oracle w' := by
  obtain ⟨call, payload, w₁, oracle, w₂, v, w₃, hcall, hpayload, horacle, hv, rfl⟩ :=
    runOperation_eq_ok hop
  obtain ⟨⟨ids', htracks⟩, hlive, hrefs, hcompared⟩ := performed h hfresh hcall hpayload horacle
  obtain ⟨hok, htracks'⟩ := htracks.verified hv
  have hrecords : w₃.records = w.records :=
    congrArg Prod.fst (tally_verified hcall hpayload horacle hv)
  obtain ⟨-, -, -, -, -, -, rfl⟩ := verifyState_eq_ok hv
  refine ⟨_, congrArg (· ++ [_]) hrecords, hok, ⟨ids', htracks'.congr rfl rfl rfl rfl rfl⟩, hlive,
    hrefs, hcompared⟩

/-! ## A run -/

/-- A run has built the levels of its script in both models, and its records say how every
operation compares with the oracle. -/
structure Follows (config : Config) (ops : List WorkloadOperation) (w : BaselineWorkloadRunner) :
    Prop where
  tracks : ∃ ids, Tracks config w ids
  live : w.live = WorkloadScript.live ops
  refs : ∀ ref ∈ w.refs, ref ∈ WorkloadScript.boundRefs 0 ops
  length : w.records.length = ops.length
  record : ∀ i op, ops[i]? = some op → ∃ r, w.records[i]? = some r ∧ r.verification.ok = true ∧
    Compared (WorkloadScript.live (ops.take i)).levels op r.oracle

theorem Follows.step {ops : List WorkloadOperation} {u : Unit} (h : Follows config ops w)
    (hnodup : (WorkloadScript.boundRefs 0 (ops ++ [op])).Nodup)
    (hop : (runOperation op).run w = .ok u w') : Follows config (ops ++ [op]) w' := by
  obtain ⟨ids, htracks⟩ := h.tracks
  have hcount : w.nextRef = (WorkloadScript.boundRefs 0 ops).length :=
    (congrArg LiveLevels.published h.live).trans WorkloadScript.published_live
  have hrefs : WorkloadScript.boundRefs 0 (ops ++ [op]) =
      WorkloadScript.boundRefs 0 ops ++ if op.Binds then [op.boundRef w.nextRef] else [] := by
    rw [WorkloadScript.boundRefs_concat, Nat.zero_add, ← hcount]
  -- the reference of a new level is new
  have hfresh : op.Binds → op.boundRef w.nextRef ∉ w.refs := by
    intro hbinds hmem
    rw [hrefs, if_pos hbinds, List.nodup_append] at hnodup
    exact hnodup.2.2 _ (h.refs _ hmem) _ (List.mem_singleton_self _) rfl
  obtain ⟨r, hrecords, hok, hperformed⟩ := runOperation_performed htracks hfresh hop
  refine ⟨hperformed.tracks, ?_, fun ref href ↦ ?_, ?_, fun i op' hi ↦ ?_⟩
  · rw [hperformed.live, h.live, WorkloadScript.live_concat]
  · rw [hrefs, List.mem_append]
    rcases hperformed.refs ref href with hold | ⟨hbinds, rfl⟩
    · exact Or.inl (h.refs ref hold)
    · rw [if_pos hbinds]
      exact Or.inr (List.mem_singleton_self _)
  · rw [hrecords, List.length_append, List.length_append, h.length]
    rfl
  · rcases getElem?_concat_eq_some.mp hi with ⟨hlt, hi⟩ | ⟨rfl, rfl⟩
    · obtain ⟨rᵢ, hrᵢ, hverified, hcompared⟩ := h.record i op' hi
      refine ⟨rᵢ, ?_, hverified, ?_⟩
      · rw [hrecords, List.getElem?_append_left (h.length ▸ hlt)]
        exact hrᵢ
      · rw [List.take_append_of_le_length hlt.le]
        exact hcompared
    · -- the record of the last operation
      refine ⟨r, ?_, hok, ?_⟩
      · rw [hrecords, ← h.length, List.getElem?_concat_length]
      · rw [List.take_left, ← h.live]
        exact hperformed.compared

/-- A run whose levels have references of their own follows its script. -/
theorem follows_run {ops : List WorkloadOperation} {seed : Int} {family : String}
    (hnodup : (WorkloadScript.boundRefs 0 ops).Nodup)
    (hrun : (runOperations ops).run (init (Engine.init config) seed family) = .ok ⟨⟩ w) :
    Follows config ops w := by
  refine runOperations_induction
    (P := fun ops w ↦ (WorkloadScript.boundRefs 0 ops).Nodup → Follows config ops w) ?_ ?_ hrun hnodup
  · exact fun _ ↦ ⟨⟨[], Tracks.init config seed family⟩, rfl,
      fun _ href ↦ absurd href Finmap.notMem_empty, rfl, fun i op hi ↦ by simp at hi⟩
  · intro ops op w w' _ ih hop hnodup
    have hprefix : (WorkloadScript.boundRefs 0 ops).Nodup := by
      rw [WorkloadScript.boundRefs_concat] at hnodup
      exact (List.nodup_append.mp hnodup).1
    exact (ih hprefix).step hnodup hop

/-- The levels of the oracle are active, so the artifact can be written. -/
theorem Tracks.exportable (h : Tracks config w ids) : w.Exportable := by
  intro ref href
  obtain ⟨batches, hserves⟩ := h.serves
  obtain ⟨level, hlevel, rfl⟩ := List.mem_map.mp href
  obtain ⟨l, hl, hlookup, -⟩ := exists_mem_left h.levels hlevel
  obtain ⟨L, hL⟩ := Finmap.mem_iff.mp ((hserves.active l).mpr hl)
  exact ⟨l, L, hlookup, hserves.not_retired l hl, hL⟩

/-- The records agree exactly when no query passes an empty level. -/
theorem Follows.agrees_iff {script : WorkloadScript} (h : Follows config script.operations w) :
    (∀ r ∈ w.records, r.Agrees) ↔ script.PassesNoEmptyLevel := by
  constructor
  · intro hagrees i op key hop hclass hkey
    obtain ⟨r, hr, -, hcompared⟩ := h.record i op hop
    exact hcompared.matches_iff.mp (hagrees r (List.mem_of_getElem? hr)).2 key hclass hkey
  · intro hpasses r hr
    obtain ⟨i, hi⟩ := List.getElem?_of_mem hr
    obtain ⟨hlt, -⟩ := List.getElem?_eq_some_iff.mp hi
    rw [h.length] at hlt
    have hop := List.getElem?_eq_getElem hlt
    obtain ⟨r', hr', hok, hcompared⟩ := h.record i _ hop
    cases hi.symm.trans hr'
    exact ⟨hok, hcompared.matches_iff.mpr fun key ↦ hpasses i _ key hop⟩

end BaselineWorkloadRunner

open BaselineWorkloadRunner

/-- In a run whose levels have references of their own every operation is compared with the oracle,
passes the verification, and finds and merges what the oracle does; only the empty levels are not
among the searched ones.  All agrees, and the runner and the artifact say so, exactly when no query
of the script passes an empty level. -/
theorem oracle_agrees_iff (script : WorkloadScript) (w : BaselineWorkloadRunner)
    (hfresh : script.FreshRefs) (hrun : runScript script = .ok w) :
    (∀ i op, script.operations[i]? = some op → ∃ r, w.records[i]? = some r ∧
      r.verification.ok = true ∧
      Compared (WorkloadScript.live (script.operations.take i)).levels op r.oracle) ∧
    ∃ artifact, exportDict script w = .ok artifact ∧
      (((∀ r ∈ w.records, r.Agrees) ∧ w.correctnessOk = true ∧
        (artifact.field "final").bind (Json.field "correctness_ok") = some (.bool true)) ↔
          script.PassesNoEmptyLevel) := by
  obtain ⟨config, -, -, hops⟩ := runScript_eq_ok hrun
  have hfollows := follows_run hfresh hops
  obtain ⟨ids, htracks⟩ := hfollows.tracks
  obtain ⟨levels, hexport⟩ := exists_exportDict script htracks.exportable
  refine ⟨hfollows.record, _, hexport, ?_⟩
  rw [← hfollows.agrees_iff, and_iff_left_iff_imp]
  intro hagrees
  have hmismatches := (recorded_init hops).clean.mpr hagrees
  exact ⟨decide_eq_true hmismatches,
    congrArg (some ∘ Json.bool) (exportedCorrectness_of_agrees hmismatches hagrees)⟩

theorem oracle_agrees_mergeScript : ∃ w artifact, runScript mergeScript = .ok w ∧
    exportDict mergeScript w = .ok artifact ∧ (∀ r ∈ w.records, r.Agrees) ∧
    (artifact.field "final").bind (Json.field "correctness_ok") = some (.bool true) := by
  have hrun : (runScript mergeScript).isOk = true := by decide +kernel
  obtain ⟨w, hw⟩ := exists_of_isOk hrun
  obtain ⟨-, artifact, hexport, hiff⟩ :=
    oracle_agrees_iff mergeScript w (by decide +kernel) hw
  obtain ⟨hagrees, -, hreported⟩ := hiff.mpr (by decide +kernel)
  exact ⟨w, artifact, hw, hexport, hagrees, hreported⟩

/-- A query passes a level that has been published without records. -/
def emptyLevelScript : WorkloadScript where
  family := "UMQ"
  seed := 0
  capacity := 2
  epsilon := 0
  operations := [
    { index := 0, kind := "BUILD_INITIAL" },
    { index := 1, kind := "QUERY", keys := [0] }]

/-- The query returns, and is counted as a mismatch. -/
theorem oracle_disagrees_emptyLevelScript : ¬ ∀ (script : WorkloadScript)
    (w : BaselineWorkloadRunner), script.FreshRefs → runScript script = .ok w →
    w.correctnessOk = true := by
  intro h
  have hrun : (runScript emptyLevelScript).map (·.correctnessOk) = .ok false := by decide +kernel
  cases hw : runScript emptyLevelScript with
  | error err =>
    rw [hw] at hrun
    cases hrun
  | ok w =>
    rw [hw] at hrun
    have hfalse : w.correctnessOk = false := Except.ok.inj hrun
    cases hfalse.symm.trans (h emptyLevelScript w (by decide +kernel) hw)

end EnhancedLetIndex
