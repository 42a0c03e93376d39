import EnhancedLetIndex.Transcript.Observe
import EnhancedLetIndex.Workload.Windows

/-!
# The artifact of a successful run

The producer of an artifact and its consumer are written against two descriptions of one schema.
Here they are put together: a run without failures is exported, its artifact is accepted, and its
transcript carries the events of each operation's own window (`artifact_accepted`).
-/

namespace EnhancedLetIndex

open Json

/-! ## What is observed of a record -/

/-- The operation of an event, as a transcript names it. -/
def TraceOperation.event : TraceOperation → EventOperation
  | .read => .read
  | .write => .write

theorem TraceOperation.event_injective : TraceOperation.event.Injective := by
  rintro ⟨⟩ ⟨⟩ h
  · rfl
  · cases h
  · cases h
  · rfl

/-- An event, as a transcript has it. -/
def TraceEvent.observed (e : TraceEvent) : ObservedEvent :=
  ⟨e.seq, e.operation.event, e.slotId.value⟩

theorem TraceEvent.toDict_observed (e : TraceEvent) : e.toDict = e.observed.toDict := by
  obtain ⟨seq, operation, slotId⟩ := e
  cases operation <;> rfl

namespace OperationRecord

variable {r : OperationRecord} {c : OperationClass}

/-- A record, as a transcript has it. -/
def observed (r : OperationRecord) : ObservedOperation where
  index := r.index
  operationClass := (OperationClass.ofText r.kind).getD .query
  events := r.events.map (·.observed)
  readCount := r.eventCount .read
  writeCount := r.eventCount .write

theorem eventCount_observed (r : OperationRecord) (operation : TraceOperation) :
    r.observed.eventCount operation.event = r.eventCount operation := by
  rw [ObservedOperation.eventCount, eventCount, observed, List.countP_map]
  apply List.countP_congr
  intro e _
  simp only [Function.comp_apply, TraceEvent.observed, decide_eq_true_eq]
  exact TraceOperation.event_injective.eq_iff

/-- The extraction observes a record. -/
theorem observeRecord_toDict (hkind : r.kind = c.text) :
    observeRecord r.toDict = .ok r.observed := by
  have hclass : OperationClass.ofText r.kind = some c := OperationClass.ofText_eq_some.mpr hkind
  refine observeRecord_eq_ok.mpr ⟨rfl, ?_, ⟨_, rfl, ?_⟩, rfl, rfl, rfl⟩
  · rw [observed, hclass]
    exact congrArg (some ∘ Json.str) hkind
  · rw [observed, List.forall₂_map_left_iff, List.forall₂_map_right_iff, List.forall₂_same]
    intro e _
    rw [e.toDict_observed]
    exact .refl _

theorem integral_observed (h : r.events.map (·.seq) = List.range r.events.length) :
    r.observed.Integral where
  readCount := congrArg Int.ofNat (r.eventCount_observed .read).symm
  writeCount := congrArg Int.ofNat (r.eventCount_observed .write).symm
  sequenced := by
    rw [ObservedOperation.Sequenced, observed, List.map_map, List.length_map, ← h, List.map_map]
    rfl

end OperationRecord

namespace BaselineWorkloadRunner

variable {w : BaselineWorkloadRunner} {op : WorkloadOperation} {r : OperationRecord}

/-- The events of a transcript's operations, over all of them. -/
theorem totalEvents_observed (w : BaselineWorkloadRunner) (operation : TraceOperation) :
    ((w.records.map (·.observed)).map (·.eventCount operation.event)).sum =
      w.totalEvents operation := by
  rw [totalEvents, List.map_map]
  congr 2
  funext r
  exact r.eventCount_observed operation

theorem class_of_engineOp {call : EngineOp String} (h : call ∈ w.engineOp op) :
    ∃ c, op.operationClass = some c := by
  unfold engineOp at h
  cases hclass : op.operationClass with
  | none =>
    rw [hclass] at h
    cases h
  | some c => exact ⟨c, rfl⟩

/-- The kind of a record is one of the known ones, and its events count up from 0. -/
theorem RecordOf.observed (h : w.RecordOf op r) :
    observeRecord r.toDict = .ok r.observed ∧ r.observed.Integral := by
  obtain ⟨call, hcall, hevents⟩ := h.events
  obtain ⟨c, hc⟩ := class_of_engineOp hcall
  refine ⟨OperationRecord.observeRecord_toDict (c := c) ?_, OperationRecord.integral_observed ?_⟩
  · exact h.kind.trans (OperationClass.ofText_eq_some.mp hc)
  · rw [hevents]
    exact (Engine.sequenced_window w.engine call).2

/-! ## The equality classes -/

/-- The record of an operation whose key, if it is a query, can be classified. -/
structure Classifiable (op : WorkloadOperation) (r : OperationRecord) : Prop where
  kind : r.kind = op.kind
  key : op.operationClass = some .query → ∃ key, op.keys = [key]

theorem exists_equalityClasses {ops : List WorkloadOperation} {rs : List OperationRecord}
    (h : List.Forall₂ Classifiable ops rs) (start : Nat) (classes : List (Int × String)) :
    ∃ labels, equalityClasses start ((rs.map (·.toDict)).zip (ops.map (·.toDict))) classes =
      .ok labels := by
  induction h generalizing start classes with
  | nil => exact ⟨[], rfl⟩
  | @cons op r ops rs hr _ ih =>
    obtain ⟨fs, hfs, hkind, hindex⟩ : ∃ fs, r.toDict = .obj fs ∧
        fs.lookup "kind" = some (.str r.kind) ∧ fs.lookup "index" = some (.int r.index) :=
      ⟨_, rfl, rfl, rfl⟩
    obtain ⟨gs, hgs, hkind', hkeys⟩ : ∃ gs, op.toDict = .obj gs ∧
        gs.lookup "kind" = some (.str op.kind) ∧
        gs.lookup "keys" = some (.arr (op.keys.map .int)) := ⟨_, rfl, rfl, rfl⟩
    have hsame : sameText (gs.lookup "kind") (fs.lookup "kind") = true := by
      rw [hkind, hkind', hr.kind]
      exact decide_eq_true rfl
    simp only [List.map_cons, List.zip_cons_cons, equalityClasses, hfs, hgs,
      requireObject_eq_ok.mpr rfl, ok_bind, require_of hsame]
    by_cases hquery : isText (fs.lookup "kind") OperationClass.query.text = true
    · have htext := isText_iff.mp hquery
      rw [hkind, Option.some.injEq, Json.str.injEq, hr.kind] at htext
      obtain ⟨key, hkey⟩ := hr.key (OperationClass.ofText_eq_some.mpr htext)
      have hrequire : requireQueryKey start gs = .ok key := by
        rw [requireQueryKey, hkeys, hkey]
        rfl
      obtain ⟨labels, hlabels⟩ := ih (start + 1)
        (FirstOccurrence.setdefault classes key (classLabel classes.length)).2
      rw [if_pos hquery, hrequire, ok_bind, requireInt_eq_ok.mpr hindex, ok_bind, hlabels]
      exact ⟨_, rfl⟩
    · rw [if_neg hquery]
      exact ih (start + 1) classes

/-! ## The records of a run -/

namespace Recorded

variable {w₀ : BaselineWorkloadRunner} {ops : List WorkloadOperation}

/-- Every record is the one of its operation. -/
theorem operation (h : Recorded w₀ ops w) {i : Nat} (hr : w.records[i]? = some r) :
    ∃ op wᵢ, ops[i]? = some op ∧ RecordOf wᵢ op r ∧ r.index = i := by
  obtain ⟨hlt, -⟩ := List.getElem?_eq_some_iff.mp hr
  rw [h.length] at hlt
  obtain ⟨wᵢ, r', -, hr', hrecord, hindex⟩ := h.record i _ (List.getElem?_eq_getElem hlt)
  cases hr.symm.trans hr'
  exact ⟨_, wᵢ, List.getElem?_eq_getElem hlt, hrecord, hindex⟩

theorem observed_of_mem (h : Recorded w₀ ops w) (hr : r ∈ w.records) :
    observeRecord r.toDict = .ok r.observed ∧ r.observed.Integral := by
  obtain ⟨i, hi⟩ := List.getElem?_of_mem hr
  obtain ⟨op, wᵢ, -, hrecord, -⟩ := h.operation hi
  exact hrecord.observed

theorem observed (h : Recorded w₀ ops w) : List.Forall₂ (fun j o ↦ observeRecord j = .ok o)
    (w.records.map (·.toDict)) (w.records.map (·.observed)) := by
  rw [List.forall₂_map_left_iff, List.forall₂_map_right_iff, List.forall₂_same]
  exact fun r hr ↦ (h.observed_of_mem hr).1

theorem integral (h : Recorded w₀ ops w) : ∀ o ∈ w.records.map (·.observed), o.Integral :=
  List.forall_mem_map.mpr fun _ hr ↦ (h.observed_of_mem hr).2

theorem positioned (h : Recorded w₀ ops w) : Positioned 0 (w.records.map (·.observed)) := by
  rw [Positioned, List.map_map, List.length_map, ← List.range_eq_range']
  apply List.ext_getElem?
  intro i
  cases hr : w.records[i]? with
  | none =>
    have hlength := List.getElem?_eq_none_iff.mp hr
    rw [List.getElem?_eq_none_iff.mpr (by simpa using hlength),
      List.getElem?_eq_none_iff.mpr (by simpa using hlength)]
  | some r =>
    obtain ⟨-, -, -, -, hindex⟩ := h.operation hr
    obtain ⟨hlt, -⟩ := List.getElem?_eq_some_iff.mp hr
    rw [List.getElem?_map, hr, List.getElem?_map, List.getElem?_range hlt]
    exact congrArg (some ∘ Int.ofNat) hindex

theorem classifiable (h : Recorded w₀ ops w)
    (hkeys : ∀ op ∈ ops, op.operationClass = some .query → op.keys.length = 1) :
    List.Forall₂ Classifiable ops w.records := by
  refine List.forall₂_iff_get.mpr ⟨h.length.symm, fun i hi hi' ↦ ?_⟩
  obtain ⟨op, wᵢ, hop, hrecord, -⟩ := h.operation (List.getElem?_eq_getElem hi')
  cases (List.getElem?_eq_getElem hi).symm.trans hop
  exact ⟨hrecord.kind, fun hquery ↦
    List.length_eq_one_iff.mp (hkeys _ (List.getElem_mem hi) hquery)⟩

end Recorded

/-! ## The artifact -/

/-- An active level of the oracle has an entry. -/
theorem exists_finalLevel {ref : String} (href : ref ∈ w.oracle.refs) (h : w.Exportable) :
    ∃ entry, w.finalLevel ref = .ok entry := by
  obtain ⟨l, L, hl, hret, hL⟩ := h ref href
  have hlevel : w.levelId (some ref) = .ok l := levelId_eq_ok.mpr ⟨ref, rfl, hl⟩
  obtain ⟨contents, hcontents⟩ := LogicalOracle.exists_contents href
  rw [finalLevel, hlevel, ok_bind, Engine.run_level hL hret, hcontents]
  exact ⟨_, rfl⟩

theorem exists_exportDict (script : WorkloadScript) (h : w.Exportable) :
    ∃ levels, exportDict script w = .ok (w.artifact script levels) := by
  obtain ⟨levels, hlevels⟩ := exists_mapM_eq_ok fun ref href ↦ exists_finalLevel href h
  refine ⟨levels, ?_⟩
  rw [exportDict, hlevels]
  rfl

/-- The artifact reports success when no record shows a failure. -/
theorem exportedCorrectness_of_agrees (hmismatches : w.mismatches = 0)
    (h : ∀ r ∈ w.records, r.Agrees) : w.exportedCorrectness = true := by
  have hverified (r : OperationRecord) (hr : r ∈ w.records) := (h r hr).1
  simp only [Verification.ok, Bool.and_eq_true] at hverified
  have hmatched (kind : OperationClass) : w.matched kind = true := by
    rw [matched, List.all_eq_true]
    intro r hr
    rw [Option.all_eq_true]
    exact (h r (List.mem_filter.mp hr).1).2
  refine decide_eq_true ⟨hmismatches, ?_⟩
  simp only [detailedChecks, List.forall_mem_cons, List.all_eq_true, hmatched, true_and]
  exact ⟨fun r hr ↦ (hverified r hr).1.1.1, fun r hr ↦ (hverified r hr).1.1.2,
    fun r hr ↦ (hverified r hr).1.2, fun r hr ↦ (hverified r hr).2, List.forall_mem_nil _⟩

end BaselineWorkloadRunner

/-! ## The artifact and its consumer -/

open BaselineWorkloadRunner

theorem Config.make_eq_ok {blockCapacity pgmEpsilon : Int} {config : Config}
    (h : Config.make blockCapacity pgmEpsilon = .ok config) :
    config.pgmEpsilon = some pgmEpsilon.toNat := by
  unfold Config.make at h
  split_ifs at h
  cases h
  rfl

theorem runScript_eq_ok {script : WorkloadScript} {w : BaselineWorkloadRunner}
    (h : runScript script = .ok w) : ∃ config,
      Config.make script.capacity script.epsilon = .ok config ∧
      script.runner = .ok (.init (Engine.init config) script.seed script.family) ∧
      (runOperations script.operations).run (.init (Engine.init config) script.seed script.family) =
        .ok ⟨⟩ w := by
  obtain ⟨w₀, hw₀, h⟩ := bind_eq_ok.mp h
  rw [WorkloadScript.runner] at hw₀ ⊢
  cases hconfig : Config.make script.capacity script.epsilon with
  | error err =>
    rw [hconfig] at hw₀
    cases hw₀
  | ok config =>
    rw [hconfig] at hw₀
    cases hw₀
    refine ⟨config, rfl, rfl, ?_⟩
    cases hrun : (runOperations script.operations).run
        (.init (Engine.init config) script.seed script.family) with
    | error err w' =>
      rw [hrun] at h
      cases h
    | ok u w' =>
      rw [hrun] at h
      cases h
      rfl

/-- The artifact of a run without failures is accepted by its consumer.  Its transcript has the
operations of the script, each with the events of the call of the engine that the operation makes,
in a window of its own, and no others; the totals of the transcript are those of the artifact. -/
theorem artifact_accepted (script : WorkloadScript) (w : BaselineWorkloadRunner)
    (hfamily : script.family ≠ "") (hoperations : script.operations ≠ [])
    (hkeys : ∀ op ∈ script.operations, op.operationClass = some .query → op.keys.length = 1)
    (hrun : runScript script = .ok w) (hok : w.correctnessOk = true) :
    ∃ artifact transcript classes, exportDict script w = .ok artifact ∧
      validateG1eArtifact artifact = .ok () ∧ extractTranscript artifact = .ok transcript ∧
      m1EqualityClasses artifact = .ok classes ∧
      transcript.operations.length = script.operations.length ∧
      (∀ i op, script.operations[i]? = some op → ∃ w₀ wᵢ call o, script.runner = .ok w₀ ∧
        (runOperations (script.operations.take i)).run w₀ = .ok ⟨⟩ wᵢ ∧
        wᵢ.engineOp op = some call ∧ transcript.operations[i]? = some o ∧
        o.events = ((wᵢ.engine.clearTrace.after call).storage.trace).map (·.observed)) ∧
      (artifact.field "final").bind (field "total_read_events") =
        some (.int transcript.summary.totalReads) ∧
      (artifact.field "final").bind (field "total_write_events") =
        some (.int transcript.summary.totalWrites) := by
  obtain ⟨config, hconfig, hrunner, hrun⟩ := runScript_eq_ok hrun
  have hrecorded := recorded_init hrun
  have hmismatches : w.mismatches = 0 := of_decide_eq_true hok
  have hagrees := hrecorded.clean.mp hmismatches
  have hclassifiable := hrecorded.classifiable hkeys
  obtain ⟨levels, hexport⟩ := exists_exportDict script (hrecorded.exportable hagrees)
  have hvalid : validateG1eArtifact (w.artifact script levels) = .ok () := by
    refine validateG1eArtifact_eq_ok.mpr ⟨rfl, ?_, _, _, rfl, ?_, hrecorded.observed,
      hrecorded.positioned, hrecorded.integral⟩
    · exact congrArg (some ∘ Json.bool) (exportedCorrectness_of_agrees hmismatches hagrees)
    · rw [ne_eq, List.map_eq_nil_iff, ← List.length_eq_zero_iff, hrecorded.length,
        List.length_eq_zero_iff]
      exact hoperations
  have hε : w.engine.config.pgmEpsilon = some script.epsilon.toNat := by
    rw [hrecorded.config]
    exact Config.make_eq_ok hconfig
  let transcript : AdversaryTranscript := ⟨Leakage.schemaVersion, Leakage.sourceSchemaVersion,
    ⟨script.family, script.seed, w.engine.config.blockCapacity, script.epsilon.toNat, hfamily⟩,
    w.records.map (·.observed), summarize (w.records.map (·.observed)), "M0"⟩
  have htranscript : extractTranscript (w.artifact script levels) = .ok transcript := by
    refine extractTranscript_eq_ok.mpr ⟨hvalid, ⟨_, rfl, hrecorded.observed⟩, rfl, rfl, rfl, ?_, rfl⟩
    show (some w.engine.config.toDict).bind (field "pgm_epsilon") = _
    rw [Config.toDict, hε]
    rfl
  obtain ⟨classes, hclasses⟩ := exists_equalityClasses hclassifiable 0 []
  have hm1 : m1EqualityClasses (w.artifact script levels) = .ok classes := by
    have hlength : (script.operations.map (·.toDict)).length =
        (w.records.map (·.toDict)).length := by
      rw [List.length_map, List.length_map, hrecorded.length]
    rw [m1EqualityClasses, hvalid, ok_bind, artifact, requireObject_eq_ok.mpr rfl, ok_bind]
    show (require ((script.operations.map (·.toDict)).length = (w.records.map (·.toDict)).length)
      _ >>= fun _ ↦ equalityClasses 0 _ []) = _
    rw [require_of hlength, ok_bind]
    exact hclasses
  refine ⟨_, transcript, classes, hexport, hvalid, htranscript, hm1, ?_, ?_, ?_, ?_⟩
  · rw [← hrecorded.length]
    exact List.length_map _
  · intro i op hop
    obtain ⟨wᵢ, r, hrunᵢ, hr, hrecord, -⟩ := hrecorded.record i op hop
    obtain ⟨call, hcall, hevents⟩ := hrecord.events
    refine ⟨_, wᵢ, call, r.observed, hrunner, hrunᵢ, hcall, ?_, ?_⟩
    · show (w.records.map (·.observed))[i]? = _
      rw [List.getElem?_map, hr]
      rfl
    · rw [← hevents]
      rfl
  · show some (Json.int (w.totalEvents .read)) = _
    rw [← totalEvents_observed]
    rfl
  · show some (Json.int (w.totalEvents .write)) = _
    rw [← totalEvents_observed]
    rfl

/-- Two batches, which are merged between two queries. -/
def mergeScript : WorkloadScript where
  family := "UMQ"
  seed := 7
  capacity := 2
  epsilon := 0
  operations := [
    { index := 0, kind := "BUILD_INITIAL", keys := [1, 2, 3], values := ["a", "b", "c"] },
    { index := 1, kind := "UPSERT", keys := [2, 4], values := ["d", "e"] },
    { index := 2, kind := "BUILD_PGM", levelRef := some "L0" },
    { index := 3, kind := "BUILD_PGM", levelRef := some "L1" },
    { index := 4, kind := "QUERY", keys := [3] },
    { index := 5, kind := "MERGE", newerRef := some "L1", olderRef := some "L0" },
    { index := 6, kind := "QUERY", keys := [2] }]

theorem artifact_accepted_mergeScript : ∃ w artifact transcript, runScript mergeScript = .ok w ∧
    exportDict mergeScript w = .ok artifact ∧ extractTranscript artifact = .ok transcript ∧
    transcript.operations.length = 7 := by
  have hrun : (runScript mergeScript).map (·.correctnessOk) = .ok true := by decide +kernel
  cases h : runScript mergeScript with
  | error err =>
    rw [h] at hrun
    cases hrun
  | ok w =>
    rw [h] at hrun
    obtain ⟨artifact, transcript, -, hexport, -, hextract, -, hlength, -⟩ :=
      artifact_accepted mergeScript w (by decide) (by decide) (by decide) h (Except.ok.inj hrun)
    exact ⟨w, artifact, transcript, rfl, hexport, hextract, hlength⟩

end EnhancedLetIndex
