import EnhancedLetIndex.Workload.Windows

/-!
# The engine tracks the oracle

`Tracks config w ids` relates the two models that a runner keeps: the levels `ids` of the engine
are the active ones, newest first, they hold what the oracle's dictionaries hold, and the names in
between are consistent.  Every operation that returns keeps it.  A state in this relation passes the
verification (`Tracks.verified`), a merge is what the oracle expects of it (`Tracks.merged`), and a
query differs from the oracle's at most in the empty levels, which the engine passes over
(`Tracks.queried`).
-/

namespace EnhancedLetIndex

/-! ## Contents -/

theorem strictMono_value : StrictMono RecordKey.value := fun _ _ h ↦ h

section Contents

variable {records newer older : List (Record String)} {k : Int}

theorem nodup_values (h : (records.map (·.key)).Nodup) : (records.map (·.key.value)).Nodup := by
  have hvalues : records.map (·.key.value) = (records.map (·.key)).map RecordKey.value := by
    rw [List.map_map]
    rfl
  rw [hvalues]
  exact h.map strictMono_value.injective

/-- The contents say what the records say. -/
theorem lookup_contentsOf (h : (records.map (·.key)).Nodup) :
    (contentsOf records).lookup k = (findKey (·.key) ⟨k⟩ records).map (·.value) := by
  rw [contentsOf, lookup_dictOf (nodup_values h), ← findKey_strictMono strictMono_value]

theorem contentsOf_sortRecords (h : (records.map (·.key)).Nodup) :
    contentsOf (sortRecords records) = contentsOf records :=
  (dictOf_perm (List.perm_insertionSort _ records).symm (nodup_values h)).symm

theorem card_contentsOf (h : (records.map (·.key)).Nodup) :
    (contentsOf records).keys.card = records.length := card_keys_dictOf (nodup_values h)

variable (hn : SortedBy (·.key) newer) (ho : SortedBy (·.key) older)

include hn ho in
/-- The newer contents win. -/
theorem contentsOf_unionNewer : contentsOf (unionNewer (·.key) newer older) =
    contentsOf newer ∪ contentsOf older := by
  rw [← unionNewer_strictMono strictMono_value]
  exact dictOf_unionNewer hn ho

include ho in
theorem card_inter_contentsOf : ((contentsOf newer).keys ∩ (contentsOf older).keys).card =
    (shadowed (·.key) newer older).length := by
  rw [← shadowed_strictMono strictMono_value]
  exact card_keys_inter ho

end Contents

/-! ## Neighbours of the oracle -/

namespace LogicalOracle

variable {o : LogicalOracle} {pre post : List (String × FinDict Int String)}
  {ref newerRef olderRef : String} {contents c₁ c₂ : FinDict Int String}

/-- Two references that stand one after the other. -/
theorem exists_neighbours {refs : List String} (hnewer : newerRef ∈ refs) (holder : olderRef ∈ refs)
    (hnext : refs.idxOf olderRef = refs.idxOf newerRef + 1) : ∃ front back,
      refs = front ++ newerRef :: olderRef :: back ∧ newerRef ∉ front ∧
        olderRef ∉ front ++ [newerRef] := by
  obtain ⟨front, rest, rfl, hfront⟩ := List.eq_append_cons_of_mem hnewer
  have hindex : (front ++ newerRef :: rest).idxOf newerRef = front.length := by
    rw [List.idxOf_append_of_notMem hfront, List.idxOf_cons_self, Nat.add_zero]
  obtain ⟨front', rest', hsplit, hfront'⟩ := List.eq_append_cons_of_mem holder
  have hlength : front'.length = (front ++ [newerRef]).length := by
    rw [hindex, hsplit, List.idxOf_append_of_notMem hfront', List.idxOf_cons_self, Nat.add_zero]
      at hnext
    rw [hnext, List.length_append, List.length_singleton]
  have hparts : front' ++ olderRef :: rest' = (front ++ [newerRef]) ++ rest := by
    rw [← hsplit, List.append_assoc, List.singleton_append]
  obtain ⟨rfl, rfl⟩ := List.append_inj hparts hlength
  exact ⟨front, rest', rfl, hfront, hfront'⟩

theorem contents_first (hlevels : o.levels = pre ++ (ref, contents) :: post)
    (hpre : ref ∉ pre.map Prod.fst) : o.contents ref = .ok contents := by
  have hlookup : o.levels.lookup ref = some contents := by
    refine List.lookup_eq_some_iff.mpr ⟨pre, post, hlevels, fun level hlevel ↦ ?_⟩
    exact bne_iff_ne.mpr fun heq ↦ hpre (heq ▸ List.mem_map_of_mem hlevel)
  rw [LogicalOracle.contents, hlookup]

theorem indexOf_first (hlevels : o.levels = pre ++ (ref, contents) :: post)
    (hpre : ref ∉ pre.map Prod.fst) : o.indexOf ref = .ok pre.length := by
  have hindex : o.refs.idxOf? ref = some pre.length := by
    rw [refs, hlevels, List.map_append, List.map_cons]
    refine List.idxOf?_eq_some_iff.mpr ⟨by simp, by simp, fun i hi heq ↦ hpre ?_⟩
    rw [List.getElem_append_left (by rwa [List.length_map])] at heq
    exact heq ▸ List.getElem_mem _
  rw [indexOf, hindex]

/-- The merge of two neighbours. -/
theorem merge_neighbours
    (hlevels : o.levels = pre ++ (newerRef, c₁) :: (olderRef, c₂) :: post)
    (hnewer : newerRef ∉ pre.map Prod.fst) (holder : olderRef ∉ pre.map Prod.fst ++ [newerRef])
    (outputRef : String) : o.merge newerRef olderRef outputRef =
      .ok ⟨pre ++ (outputRef, c₁ ∪ c₂) :: post, o.retired ++ [newerRef, olderRef]⟩ := by
  have hsplit : o.levels = (pre ++ [(newerRef, c₁)]) ++ (olderRef, c₂) :: post := by
    rw [hlevels, List.append_assoc, List.singleton_append]
  have hindex : o.indexOf olderRef = .ok (pre.length + 1) := by
    rw [indexOf_first hsplit (by rwa [List.map_append, List.map_singleton]), List.length_append,
      List.length_singleton]
  rw [merge, indexOf_first hlevels hnewer, ok_bind, hindex, ok_bind, require_of rfl, ok_bind,
    hlevels, List.drop_left, List.take_left]

end LogicalOracle

/-! ## The relation -/

namespace BaselineWorkloadRunner

variable {config : Config} {w w' : BaselineWorkloadRunner} {ids : List LevelId}

/-- A level of the engine under its reference, with the contents that the oracle has for it. -/
def Holds (w : BaselineWorkloadRunner) (l : LevelId) (level : String × FinDict Int String) : Prop :=
  w.refs.lookup level.1 = some l ∧ contentsOf (w.engine.recordsOf l) = level.2

/-- The engine has the levels of the oracle, newest first. -/
structure Tracks (config : Config) (w : BaselineWorkloadRunner) (ids : List LevelId) : Prop where
  serves : ∃ batches, Engine.Serves config w.engine ids batches
  levels : List.Forall₂ w.Holds ids w.oracle.levels
  inverse : Inverse w.refs w.refOf
  retired : ∀ ref ∈ w.oracle.retired, ∃ l ∈ w.engine.retiredLevelIds, w.refs.lookup ref = some l
  named_lt : ∀ l ∈ w.refOf, l.value < w.engine.nextLevelId
  queryable_lt : ∀ l ∈ w.queryable, l.value < w.engine.nextLevelId
  queryable : ∀ l ∈ ids, l ∈ w.queryable ↔ l ∈ w.engine.pgmIndexes

namespace Tracks

theorem init (config : Config) (seed : Int) (family : String) :
    Tracks config (.init (Engine.init config) seed family) [] where
  serves := ⟨[], Engine.Serves.init config⟩
  levels := .nil
  inverse := Inverse.empty
  retired _ h := absurd h List.not_mem_nil
  named_lt _ h := absurd h Finmap.notMem_empty
  queryable_lt _ h := absurd h (Finset.notMem_empty _)
  queryable _ h := absurd h List.not_mem_nil

/-- The trace does not matter. -/
theorem cleared (h : Tracks config w ids) : Tracks config w.cleared ids where
  serves := h.serves.imp fun _ hserves ↦ hserves.clearTrace
  levels := h.levels
  inverse := h.inverse
  retired := h.retired
  named_lt := h.named_lt
  queryable_lt := h.queryable_lt
  queryable := h.queryable

/-- What the runner has recorded does not matter. -/
theorem congr (h : Tracks config w ids) (hengine : w'.engine = w.engine)
    (horacle : w'.oracle = w.oracle) (hrefs : w'.refs = w.refs) (hrefOf : w'.refOf = w.refOf)
    (hqueryable : w'.queryable = w.queryable) : Tracks config w' ids := by
  obtain ⟨engine, seed, family, oracle, refs, refOf, queryable, _⟩ := w'
  subst hengine horacle hrefs hrefOf hqueryable
  exact ⟨h.serves, h.levels, h.inverse, h.retired, h.named_lt, h.queryable_lt, h.queryable⟩

/-- The references of the oracle stand for the levels of the engine. -/
theorem plan (h : Tracks config w ids) : w.oracle.refs.mapM w.refLevel = .ok ids := by
  rw [mapM_eq_ok_iff, LogicalOracle.refs, List.forall₂_map_left_iff]
  exact h.levels.flip.imp fun _ _ hlevel ↦ refLevel_eq_ok.mpr hlevel.1

/-! ### Verification -/

theorem hasPgm_eq {l : LevelId} (hret : l ∉ w.engine.retiredLevelIds) :
    w.hasPgm l = decide (l ∈ w.engine.pgmIndexes) := by
  rw [hasPgm, Engine.pgmIndex, run_get_bind, if_neg hret]
  cases hidx : w.engine.pgmIndexes.lookup l with
  | none =>
    have hmem : l ∉ w.engine.pgmIndexes := Finmap.lookup_eq_none.mp hidx
    rw [decide_eq_false hmem]
    rfl
  | some idx =>
    rw [decide_eq_true (Finmap.mem_of_lookup_eq_some hidx)]
    rfl

/-- Such a state passes the verification. -/
theorem verified {v : Verification} (h : Tracks config w ids) (hv : verifyState.run w = .ok v w') :
    v.ok = true ∧ Tracks config w' ids := by
  obtain ⟨active, retired, hactive, hretired, -, rfl, rfl⟩ := verifyState_eq_ok hv
  refine ⟨?_, h.cleared⟩
  cases h.plan.symm.trans hactive
  obtain ⟨batches, hserves⟩ := h.serves
  have hkeys : ids.toFinset = w.engine.levels.keys := by
    ext l
    rw [List.mem_toFinset, Finmap.mem_keys, hserves.active]
  have hgone : ∀ l ∈ retired, l ∈ w.engine.retiredLevelIds := by
    intro l hl
    obtain ⟨ref, href, hlevel⟩ := exists_mem_left (mapM_eq_ok_iff.mp hretired) hl
    obtain ⟨l', hl', hlookup⟩ := h.retired ref href
    cases hlookup.symm.trans (refLevel_eq_ok.mp hlevel)
    exact hl'
  have hinactive : ∀ l ∈ retired, l ∉ w.engine.levels := fun l hl hlevel ↦
    hserves.not_retired l ((hserves.active l).mp hlevel) (hgone l hl)
  have hqueryable : ∀ l ∈ w.engine.levels.keys, decide (l ∈ w.queryable) = w.cleared.hasPgm l := by
    intro l hl
    have hmem := (hserves.active l).mp (Finmap.mem_keys.mp hl)
    rw [hasPgm_eq (w := w.cleared) (hserves.not_retired l hmem)]
    exact decide_eq_decide.mpr (h.queryable l hmem)
  simp only [Verification.ok, Verification.activeLevelsMatchOracle, verification,
    sortedValues_eq_nil, Bool.and_eq_true, decide_eq_true_eq, List.all_eq_true, Bool.not_eq_true',
    Engine.isActiveLevel, decide_eq_false_iff_not]
  refine ⟨⟨⟨⟨?_, ?_⟩, hinactive, hgone⟩, trivial⟩, hqueryable⟩
  · exact Finset.sdiff_eq_empty_iff_subset.mpr hkeys.subset
  · exact Finset.sdiff_eq_empty_iff_subset.mpr hkeys.superset

/-! ### A new level -/

/-- A reference keeps its level when another one is bound. -/
theorem lookup_bind {ref r : String} {l out : LevelId} (hfresh : ref ∉ w.refs)
    (h : w.refs.lookup r = some l) : (w.bind ref out).refs.lookup r = some l := by
  have hne : r ≠ ref := by
    rintro rfl
    exact hfresh (Finmap.mem_of_lookup_eq_some h)
  exact (Finmap.lookup_insert_of_ne _ hne).trans h

/-- Levels that stay hold what they held. -/
theorem holds_bind {ref : String} {out : LevelId} {e : Engine String} {ls : List LevelId}
    {levels : List (String × FinDict Int String)} (h : List.Forall₂ w.Holds ls levels)
    (hfresh : ref ∉ w.refs) (hsame : ∀ l ∈ ls, Engine.SameLevel w.engine e l) :
    List.Forall₂ { w.bind ref out with engine := e }.Holds ls levels := by
  refine ((List.forall₂_and_left _ _).mpr ⟨hsame, h⟩).imp ?_
  rintro l level ⟨hl, hlookup, hcontents⟩
  exact ⟨lookup_bind hfresh hlookup, hl.recordsOf ▸ hcontents⟩

/-- A level that is new to the engine has been bound to a reference that is new to the runner. -/
theorem bound {ref : String} {e : Engine String} {o : LogicalOracle} {q : Finset LevelId}
    {ids' : List LevelId} (h : Tracks config w ids) (hfresh : ref ∉ w.refs)
    (hnext : e.nextLevelId = w.engine.nextLevelId + 1)
    (hq : q ⊆ insert ⟨w.engine.nextLevelId⟩ w.queryable)
    (hserves : ∃ batches, Engine.Serves config e ids' batches)
    (hlevels : List.Forall₂ { w.bind ref ⟨w.engine.nextLevelId⟩ with engine := e }.Holds ids'
      o.levels)
    (hretired : ∀ r ∈ o.retired, ∃ l ∈ e.retiredLevelIds, w.refs.lookup r = some l)
    (hqueryable : ∀ l ∈ ids', l ∈ q ↔ l ∈ e.pgmIndexes) :
    Tracks config { w.bind ref ⟨w.engine.nextLevelId⟩ with engine := e, oracle := o, queryable := q }
      ids' where
  serves := hserves
  levels := hlevels
  inverse := h.inverse.insert hfresh fun hmem ↦ lt_irrefl _ (h.named_lt _ hmem)
  retired r hr := by
    obtain ⟨l, hl, hlookup⟩ := hretired r hr
    exact ⟨l, hl, lookup_bind hfresh hlookup⟩
  named_lt l hl := by
    rw [hnext]
    rcases Finmap.mem_insert.mp hl with rfl | hl
    · exact lt_add_one _
    · exact (h.named_lt l hl).trans (lt_add_one _)
  queryable_lt l hl := by
    rw [hnext]
    rcases Finset.mem_insert.mp (hq hl) with rfl | hl
    · exact lt_add_one _
    · exact (h.queryable_lt l hl).trans (lt_add_one _)
  queryable := hqueryable

/-- A level with the same PGM is as queryable as it was. -/
theorem queryable_same {l : LevelId} {e : Engine String} (h : Tracks config w ids) (hl : l ∈ ids)
    (hsame : Engine.SameLevel w.engine e l) : l ∈ w.queryable ↔ l ∈ e.pgmIndexes := by
  rw [h.queryable l hl, Finmap.mem_iff, Finmap.mem_iff, hsame.pgm]

/-- A level has got its PGM. -/
theorem pgmBuilt {l : LevelId} {idx : BatchPgmIndex} {e : Engine String}
    (h : Tracks config w ids) (hrun : (Engine.buildLevelPgm l).run w.engine = .ok idx e) :
    Tracks config { w with engine := e, queryable := insert l w.queryable } ids := by
  obtain ⟨batches, hserves⟩ := h.serves
  have hbuilt := hserves.buildLevelPgm hrun
  obtain ⟨ε, L, blks, -, -, hL, -, -, rfl⟩ := Engine.buildLevelPgm_eq_ok.mp hrun
  refine ⟨⟨batches, hbuilt⟩, ?_, h.inverse, h.retired, h.named_lt, fun l' hl' ↦ ?_, fun l' hl' ↦ ?_⟩
  · refine h.levels.imp fun l' level hlevel ↦ ⟨hlevel.1, ?_⟩
    have hrecords := (Engine.sameContents_afterReads w.engine (w.engine.slotsOf L.blockIds)).recordsOf
    exact (congrArg contentsOf (congrFun hrecords l')).trans hlevel.2
  · rcases Finset.mem_insert.mp hl' with rfl | hl'
    · exact hserves.wellFormed.levels_lt _ (Finmap.mem_of_lookup_eq_some hL)
    · exact h.queryable_lt l' hl'
  · show l' ∈ insert l w.queryable ↔ l' ∈ w.engine.pgmIndexes.insert l idx
    rw [Finset.mem_insert, Finmap.mem_insert, h.queryable l' hl']

/-- A batch has become the newest level of both. -/
theorem published {ref : String} {e : Engine String} {o : LogicalOracle}
    {records : List (Record String)} (h : Tracks config w ids) (hfresh : ref ∉ w.refs)
    (hserves : ∃ batches, Engine.Serves config e (⟨w.engine.nextLevelId⟩ :: ids) batches)
    (hadded : Engine.BatchAdded w.engine e ids records)
    (ho : w.oracle.addNewest ref (contentsOf records) = .ok o) :
    o.levels = (ref, contentsOf records) :: w.oracle.levels ∧
      Tracks config { w.bind ref ⟨w.engine.nextLevelId⟩ with engine := e, oracle := o }
        (⟨w.engine.nextLevelId⟩ :: ids) := by
  unfold LogicalOracle.addNewest at ho
  split_ifs at ho
  cases ho
  refine ⟨rfl, h.bound hfresh hadded.nextLevelId (Finset.subset_insert _ _) hserves
    (.cons ⟨Finmap.lookup_insert _, ?_⟩ (holds_bind h.levels hfresh hadded.same)) ?_ ?_⟩
  · show contentsOf (e.recordsOf _) = contentsOf records
    rw [hadded.recordsOf, contentsOf_sortRecords hadded.nodup]
  · intro r hr
    rw [hadded.retired]
    exact h.retired r hr
  · intro l hl
    rcases List.mem_cons.mp hl with rfl | hl
    · exact iff_of_false (fun hmem ↦ lt_irrefl _ (h.queryable_lt _ hmem)) hadded.no_pgm
    · exact h.queryable_same hl (hadded.same l hl)

/-! ### A merge -/

section Merge

variable {newer older : LevelId} {newerRef olderRef : String}

/-- What the checks before a merge have found. -/
theorem checkMerge_eq_ok (h : w.checkMerge newer older = .ok (newerRef, olderRef)) :
    w.refOf.lookup newer = some newerRef ∧ w.refOf.lookup older = some olderRef ∧
      newerRef ∈ w.oracle.refs ∧ olderRef ∈ w.oracle.refs ∧
      w.oracle.refs.idxOf olderRef = w.oracle.refs.idxOf newerRef + 1 := by
  unfold checkMerge at h
  split at h
  · rename_i hnewer holder
    obtain ⟨hlive, h⟩ := require_bind_eq_ok.mp h
    obtain ⟨-, h⟩ := require_bind_eq_ok.mp h
    obtain ⟨hnext, h⟩ := require_bind_eq_ok.mp h
    cases h
    exact ⟨hnewer, holder, hlive.1, hlive.2, hnext⟩
  · cases h

/-- The inputs of a merge are neighbours in the engine and in the oracle. -/
theorem neighbours (h : Tracks config w ids)
    (hcheck : w.checkMerge newer older = .ok (newerRef, olderRef)) :
    ∃ pre post front back c₁ c₂, ids = pre ++ newer :: older :: post ∧
      w.oracle.levels = front ++ (newerRef, c₁) :: (olderRef, c₂) :: back ∧
      newerRef ∉ front.map Prod.fst ∧ olderRef ∉ front.map Prod.fst ++ [newerRef] ∧
      List.Forall₂ w.Holds pre front ∧ w.Holds newer (newerRef, c₁) ∧
      w.Holds older (olderRef, c₂) ∧ List.Forall₂ w.Holds post back := by
  obtain ⟨hnewer, holder, hnewerLive, holderLive, hnext⟩ := checkMerge_eq_ok hcheck
  obtain ⟨fs, bs, hrefs, hfs, hbs⟩ := LogicalOracle.exists_neighbours hnewerLive holderLive hnext
  obtain ⟨front, rest₁, hlevels, rfl, hrest₁⟩ := List.map_eq_append_iff.mp hrefs
  obtain ⟨⟨_, c₁⟩, rest₂, rfl, rfl, hrest₂⟩ := List.map_eq_cons_iff.mp hrest₁
  obtain ⟨⟨_, c₂⟩, back, rfl, rfl, -⟩ := List.map_eq_cons_iff.mp hrest₂
  obtain ⟨pre, l₁, rest₃, rfl, hpre, h₁, hrest₃⟩ := forall₂_split (hlevels ▸ h.levels.flip)
  cases hrest₃ with
  | @cons _ l₂ _ post h₂ hpost =>
    have hl₁ : l₁ = newer := Option.some.inj (h₁.1.symm.trans ((h.inverse _ _).mpr hnewer))
    have hl₂ : l₂ = older := Option.some.inj (h₂.1.symm.trans ((h.inverse _ _).mpr holder))
    subst hl₁ hl₂
    exact ⟨pre, post, front, back, c₁, c₂, rfl, hlevels, hfs, hbs, hpre.flip, h₁, h₂, hpost.flip⟩

/-- The engine counts what the oracle expects, and the output has the contents it expects. -/
theorem matches_output {e e' : Engine String}
    {op : WorkloadOperation} (hp : Engine.Published e e' newer older)
    (hnewer : e.CanonicalLevel newer) (holder : e.CanonicalLevel older) :
    ((w.pending op newerRef olderRef (contentsOf (e.recordsOf newer))
      (contentsOf (e.recordsOf older)) (e.mergeResult newer older)).summary
        (contentsOf (e'.recordsOf ⟨e.nextLevelId⟩))).matchesOracle = true := by
  have hunion : contentsOf (e.mergedRecords newer older) =
      contentsOf (e.recordsOf newer) ∪ contentsOf (e.recordsOf older) :=
    contentsOf_unionNewer hnewer.sorted holder.sorted
  have houtput : (e.mergedRecords newer older).length =
      (contentsOf (e.recordsOf newer) ∪ contentsOf (e.recordsOf older)).keys.card := by
    rw [← hunion]
    exact (card_contentsOf (sortedBy_unionNewer hnewer.sorted holder.sorted).nodup_keys).symm
  have hdiscarded : (shadowed (·.key) (e.recordsOf newer) (e.recordsOf older)).length =
      ((contentsOf (e.recordsOf newer)).keys ∩ (contentsOf (e.recordsOf older)).keys).card :=
    (card_inter_contentsOf holder.sorted).symm
  have hcontents : contentsOf (e'.recordsOf ⟨e.nextLevelId⟩) =
      contentsOf (e.recordsOf newer) ∪ contentsOf (e.recordsOf older) := by
    rw [hp.recordsOf_output, hunion]
  refine Bool.and_eq_true_iff.mpr ⟨decide_eq_true ⟨houtput, hdiscarded, ?_, ?_⟩,
    decide_eq_true hcontents⟩
  · exact (card_contentsOf hnewer.sorted.nodup_keys).symm
  · exact (card_contentsOf holder.sorted.nodup_keys).symm

/-- A merge does what the oracle does, and is what the oracle expects. -/
theorem merged {op : WorkloadOperation} {result : Engine.MergeResult} {e : Engine String}
    {o : LogicalOracle} {newerMap olderMap : FinDict Int String} (h : Tracks config w ids)
    (hcheck : w.checkMerge newer older = .ok (newerRef, olderRef))
    (hnewerMap : w.oracle.contents newerRef = .ok newerMap)
    (holderMap : w.oracle.contents olderRef = .ok olderMap)
    (hrun : (Engine.mergeLevelsBlocking newer older).run w.engine = .ok result e)
    (hfresh : op.boundRef w.nextRef ∉ w.refs)
    (hmerge : w.oracle.merge newerRef olderRef (op.boundRef w.nextRef) = .ok o) :
    (∃ front back c₁ c₂, w.oracle.levels = front ++ (newerRef, c₁) :: (olderRef, c₂) :: back ∧
      newerRef ∉ front.map Prod.fst ∧
      o.levels = front ++ (op.boundRef w.nextRef, c₁ ∪ c₂) :: back) ∧
    ((w.pending op newerRef olderRef newerMap olderMap result).summary
      (contentsOf (e.recordsOf result.outputLevelId))).matchesOracle = true ∧
    ∃ ids', Tracks config { w.bind (op.boundRef w.nextRef) result.outputLevelId with
      engine := e
      queryable := insert result.outputLevelId w.queryable
      oracle := o } ids' := by
  obtain ⟨pre, post, front, back, c₁, c₂, rfl, hlevels, hnewerRef, holderRef, hpre, hnewer, holder,
    hpost⟩ := h.neighbours hcheck
  obtain ⟨batches, hserves⟩ := h.serves
  obtain ⟨rfl, hp⟩ := hserves.merge_eq_ok hrun
  have hsplit : w.oracle.levels = (front ++ [(newerRef, c₁)]) ++ (olderRef, c₂) :: back := by
    rw [hlevels, List.append_assoc, List.singleton_append]
  -- the oracle's contents are those of the engine
  obtain rfl : newerMap = contentsOf (w.engine.recordsOf newer) := by
    rw [LogicalOracle.contents_first hlevels hnewerRef] at hnewerMap
    exact (Except.ok.inj hnewerMap).symm.trans hnewer.2.symm
  obtain rfl : olderMap = contentsOf (w.engine.recordsOf older) := by
    rw [LogicalOracle.contents_first hsplit (by rwa [List.map_append, List.map_singleton])]
      at holderMap
    exact (Except.ok.inj holderMap).symm.trans holder.2.symm
  have hcnewer : w.engine.CanonicalLevel newer := hserves.canonicalLevel (by simp)
  have hcolder : w.engine.CanonicalLevel older := hserves.canonicalLevel (by simp)
  rw [LogicalOracle.merge_neighbours hlevels hnewerRef holderRef] at hmerge
  cases hmerge
  have hsame : ∀ l ∈ pre ++ post, Engine.SameLevel w.engine e l := fun l ↦
    hserves.sameLevel_merged hp
  refine ⟨⟨front, back, c₁, c₂, hlevels, hnewerRef, rfl⟩,
    matches_output hp hcnewer hcolder, pre ++ ⟨w.engine.nextLevelId⟩ :: post,
    h.bound hfresh hp.nextLevelId subset_rfl ⟨batches, hserves.merged hp⟩
      (List.rel_append ?_ (.cons ⟨Finmap.lookup_insert _, ?_⟩ ?_)) ?_ ?_⟩
  · exact holds_bind hpre hfresh fun l hl ↦ hsame l (List.mem_append_left _ hl)
  · show contentsOf (e.recordsOf ⟨w.engine.nextLevelId⟩) = c₁ ∪ c₂
    rw [hp.recordsOf_output, Engine.mergedRecords,
      contentsOf_unionNewer hcnewer.sorted hcolder.sorted, hnewer.2, holder.2]
  · exact holds_bind hpost hfresh fun l hl ↦ hsame l (List.mem_append_right _ hl)
  · intro r hr
    rw [hp.retired]
    rcases List.mem_append.mp hr with hr | hr
    · obtain ⟨l, hl, hlookup⟩ := h.retired r hr
      exact ⟨l, Finset.mem_insert_of_mem (Finset.mem_insert_of_mem hl), hlookup⟩
    · rcases List.mem_pair.mp hr with rfl | rfl
      · exact ⟨newer, Finset.mem_insert_of_mem (Finset.mem_insert_self _ _), hnewer.1⟩
      · exact ⟨older, Finset.mem_insert_self _ _, holder.1⟩
  · intro l hl
    obtain ⟨ε, idx, -, -, hidx⟩ := hp.index
    rcases List.mem_cons.mp (List.perm_middle.mem_iff.mp hl) with rfl | hstays
    · exact iff_of_true (Finset.mem_insert_self _ _) (Finmap.mem_of_lookup_eq_some hidx)
    · have hmem : l ∈ pre ++ newer :: older :: post := Engine.mem_neighbours hstays
      have hne : l ≠ ⟨w.engine.nextLevelId⟩ := fun heq ↦
        hserves.wellFormed.fresh_level (heq ▸ (hserves.active l).mpr hmem)
      exact (Finset.mem_insert.trans (or_iff_right hne)).trans
        (h.queryable_same hmem (hsame l hstays))

end Merge

end Tracks

/-! ### A query -/

/-- What a query needs to know of a level: the engine has its reference, has the key in it when
the oracle has it, and passes it over when it is empty. -/
structure Matches (w : BaselineWorkloadRunner) (key : Int) (l : LevelId)
    (level : String × FinDict Int String) : Prop where
  ref : w.levelRef l = .ok level.1
  value : (w.engine.recordAt ⟨key⟩ l).map (·.value) = level.2.lookup key
  blocks : w.engine.hasBlocks l = true ↔ level.2 ≠ ∅

theorem Tracks.forall₂_matches (h : Tracks config w ids) (key : Int) :
    List.Forall₂ (w.Matches key) ids w.oracle.levels := by
  obtain ⟨batches, hserves⟩ := h.serves
  have hcanonical : ∀ l ∈ ids, w.engine.CanonicalLevel l := fun l ↦ hserves.canonicalLevel
  refine ((List.forall₂_and_left _ _).mpr ⟨hcanonical, h.levels⟩).imp ?_
  rintro l level ⟨hl, hlookup, hcontents⟩
  refine ⟨levelRef_eq_ok.mpr ((h.inverse _ _).mp hlookup), ?_, ?_⟩
  · rw [← hcontents, lookup_contentsOf hl.sorted.nodup_keys]
    rfl
  · rw [hl.hasBlocks_iff, ← hcontents, contentsOf, Ne, Ne, dictOf_eq_empty]

section Query

variable {key : Int} {levels : List (String × FinDict Int String)}

theorem Matches.isSome_iff {l : LevelId} {level : String × FinDict Int String}
    (h : w.Matches key l level) :
    (w.engine.recordAt ⟨key⟩ l).isSome = true ↔ key ∈ level.2 := by
  rw [← Finmap.lookup_isSome, ← h.value, Option.isSome_map]

/-- The first value is the same. -/
theorem findSome?_matches (h : List.Forall₂ (w.Matches key) ids levels) :
    (ids.findSome? (w.engine.recordAt ⟨key⟩)).map (·.value) =
      levels.findSome? (·.2.lookup key) := by
  induction h with
  | nil => rfl
  | @cons l level ids levels hl _ ih =>
    rw [List.findSome?_cons, List.findSome?_cons, ← hl.value]
    cases w.engine.recordAt ⟨key⟩ l with
    | none => exact ih
    | some record => rfl

/-- The engine searches those of the oracle's levels that are not empty. -/
theorem searchedLevels_matches (h : List.Forall₂ (w.Matches key) ids levels) :
    List.Forall₂ (fun l ref ↦ w.levelRef l = .ok ref)
      (w.engine.searchedLevels ⟨key⟩ (ids.filter w.engine.hasBlocks))
      (((LogicalOracle.searched key levels).filter (·.2 ≠ ∅)).map Prod.fst) := by
  induction h with
  | nil => exact .nil
  | @cons l level ids levels hl _ ih =>
    by_cases hkey : key ∈ level.2
    · have hne : level.2 ≠ ∅ := by
        intro hempty
        rw [hempty] at hkey
        exact Finmap.notMem_empty hkey
      rw [List.filter_cons_of_pos (hl.blocks.mpr hne), Engine.searchedLevels,
        if_pos (hl.isSome_iff.mpr hkey), LogicalOracle.searched, if_pos hkey,
        List.filter_cons, if_pos (decide_eq_true hne)]
      exact .cons hl.ref .nil
    · rw [LogicalOracle.searched, if_neg hkey]
      by_cases hempty : level.2 = ∅
      · have hblocks : ¬ w.engine.hasBlocks l = true := by
          rw [hl.blocks]
          exact not_not_intro hempty
        rw [List.filter_cons_of_neg hblocks,
          List.filter_cons_of_neg (by rw [decide_eq_true_eq]; exact not_not_intro hempty)]
        exact ih
      · rw [List.filter_cons_of_pos (hl.blocks.mpr hempty), Engine.searchedLevels,
          if_neg (mt hl.isSome_iff.mp hkey), List.filter_cons, if_pos (decide_eq_true hempty)]
        exact .cons hl.ref ih

end Query

/-- A query finds what the oracle finds, in those of the oracle's levels that are not empty. -/
theorem Tracks.queried {key : Int} {result : Engine.MultiLevelLookupResult String} {e : Engine String}
    {searchedRefs : List String} (h : Tracks config w ids)
    (hrun : (Engine.lookupLevels ids ⟨key⟩).run w.engine = .ok result e)
    (hsearched : result.searchedLevelIds.mapM w.levelRef = .ok searchedRefs) :
    result.found = (w.oracle.query key).isSome ∧
      result.record.map (·.value) = w.oracle.query key ∧
      searchedRefs =
        ((LogicalOracle.searched key w.oracle.levels).filter (·.2 ≠ ∅)).map Prod.fst ∧
      e.clearTrace = w.engine.clearTrace := by
  obtain ⟨batches, hserves⟩ := h.serves
  obtain ⟨hnodup, hall⟩ := Engine.plan_of_run_eq_ok hrun
  rw [hserves.queryable.run_lookupLevels hnodup hall] at hrun
  cases hrun
  have hmatches := h.forall₂_matches key
  have hvalue : ((ids.filter w.engine.hasBlocks).findSome? (w.engine.recordAt ⟨key⟩)).map
      (·.value) = w.oracle.query key := by
    rw [Engine.findSome?_filter_hasBlocks, findSome?_matches hmatches]
    rfl
  refine ⟨?_, hvalue, ?_, Engine.clearTrace_afterReads _ _⟩
  · rw [← hvalue, Option.isSome_map]
    rfl
  · have hrefs := mapM_eq_ok_iff.mpr (searchedLevels_matches hmatches)
    exact Except.ok.inj (hsearched.symm.trans hrefs)

end BaselineWorkloadRunner

end EnhancedLetIndex
