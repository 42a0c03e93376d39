import EnhancedLetIndex.Engine.Overwrite
import EnhancedLetIndex.Workload.Agreement

/-!
# Which operations go through

Whether an operation returns is decided before the engine is touched: `Accepts` says so in terms
of the levels that the oracle lists, and an operation that is not accepted raises and leaves the
runner as it was at the start of its window.  `Sound` adds to `Tracks` what the verification needs
besides: the engine is consistent and its blocks are stored under their own ids.
-/

namespace EnhancedLetIndex

namespace Engine

variable {V : Type} {e e' : Engine V} {l : LevelId}

/-! ## Blocks under their own ids -/

/-- Every mapped block is stored under its own id. -/
def Named (e : Engine V) : Prop := ∀ b blk, e.blockAt b = some blk → blk.blockId = b

theorem WellFormed.hasRoom (h : e.WellFormed) (op : EngineOp V) : e.HasRoom op := by
  intro i _ hmem
  have hlt := h.slots_lt _ hmem
  exact absurd hlt (not_lt.mpr (le_add_of_nonneg_right (Int.natCast_nonneg i)))

theorem Named.after (h : e.Named) (hc : e.Consistent) {op : EngineOp V} (hroom : e.HasRoom op) :
    (e.after op).Named := by
  intro b blk hb
  rcases (grown_after hc hroom).blocks b blk hb with hold | ⟨_, _, hid, _⟩
  · exact h b blk hold
  · exact hid

theorem Named.map_blockId (h : e.Named) {ids : List BlockId} {blks : List (Block V)}
    (hread : e.ReadAs ids blks) : blks.map (·.blockId) = ids := by
  induction hread with
  | nil => rfl
  | cons hat _ ih => rw [List.map_cons, h _ _ hat, ih]

/-- A canonical level passes `validate_level`. -/
theorem CanonicalLevel.run_validateLevel (h : e.CanonicalLevel l) (hn : e.Named) :
    ∃ slots, (validateLevel l).run e = .ok () (e.afterReads slots) := by
  obtain ⟨blks, ⟨hret, L, hL, hread⟩, hcanon⟩ := h
  obtain ⟨hne, hfollow⟩ := (follow_iff_inOrder hcanon.capacity).mpr
    ((canonicalBlocks_iff_inOrder hcanon.capacity).mp hcanon)
  exact ⟨_, validateLevel_eq_ok.mpr ⟨L, blks, hret, hL, hread, hn.map_blockId hread, hne, hfollow,
    rfl⟩⟩

theorem CanonicalLevel.afterReads (h : e.CanonicalLevel l) (slots : List SlotId) :
    (e.afterReads slots).CanonicalLevel l := by
  obtain ⟨blks, ⟨hret, L, hL, hread⟩, hcanon⟩ := h
  exact ⟨blks, ⟨hret, L, hL, afterReads_readAs.mpr hread⟩, hcanon⟩

theorem Named.afterReads (h : e.Named) (slots : List SlotId) : (e.afterReads slots).Named := by
  intro b blk hb
  rw [afterReads_blockAt] at hb
  exact h b blk hb

/-- Blocks that are stored can be read, one after the other. -/
theorem exists_mapM_readBlock {ids : List BlockId} {blks : List (Block V)}
    (h : e.ReadAs ids blks) : ∃ blks' e', (ids.mapM readBlock).run e = .ok blks' e' := by
  have hread : ∀ b ∈ ids, ∀ e', (∃ slots, e' = e.afterReads slots) →
      ∃ blk e'', (readBlock b).run e' = .ok blk e'' ∧ ∃ slots, e'' = e.afterReads slots := by
    rintro b hb _ ⟨slots, rfl⟩
    obtain ⟨blk, -, hat⟩ := exists_mem_right h hb
    obtain ⟨s, hs, hblk⟩ := blockAt_eq_some.mp hat
    refine ⟨blk, _, run_readBlock hs ((afterReads_slots e slots).symm ▸ hblk), slots ++ [s], ?_⟩
    rw [afterReads_append]
  obtain ⟨blks', e', hrun, -⟩ := exists_run_mapM hread ⟨[], (afterReads_nil e).symm⟩
  exact ⟨blks', e', hrun⟩

end Engine

/-- The call publishes a level. -/
def Call.Binds : Call → Prop
  | .buildInitial _ | .upsert _ | .merge _ _ => True
  | .buildPgm _ | .query | .unknown => False

/-- The class of the operations that make such a call. -/
def Call.operationClass : Call → Option OperationClass
  | .buildInitial _ => some .buildInitial
  | .upsert _ => some .upsert
  | .buildPgm _ => some .buildPgm
  | .merge _ _ => some .merge
  | .query => some .query
  | .unknown => none

/-- The levels that the call declares queryable, the next new level being `next`. -/
def Call.declares (next : LevelId) : Call → Finset LevelId
  | .buildPgm levelId => {levelId}
  | .merge _ _ => {next}
  | .buildInitial _ | .upsert _ | .query | .unknown => ∅

instance : DecidablePred Call.Binds
  | .buildInitial _ | .upsert _ | .merge _ _ => isTrue trivial
  | .buildPgm _ | .query | .unknown => isFalse id

namespace BaselineWorkloadRunner

variable {config : Config} {w w' : BaselineWorkloadRunner} {ids : List LevelId}
  {op : WorkloadOperation}

theorem run_clearTrace_bind {α : Type} (f : Unit → RunnerM α) (w : BaselineWorkloadRunner) :
    (clearTrace >>= f).run w = (f ()).run w.cleared := rfl

/-! ## Sound states -/

/-- The engine tracks the oracle, is consistent, and stores its blocks under their own ids. -/
structure Sound (config : Config) (w : BaselineWorkloadRunner) (ids : List LevelId) : Prop
    extends Tracks config w ids where
  consistent : w.engine.Consistent
  named : w.engine.Named

namespace Sound

theorem init (config : Config) (seed : Int) (family : String) :
    Sound config (.init (Engine.init config) seed family) [] where
  toTracks := Tracks.init config seed family
  consistent := Engine.Consistent.init config
  named b blk hb := by
    obtain ⟨s, hs, -⟩ := Engine.blockAt_eq_some.mp hb
    exact absurd (Finmap.mem_of_lookup_eq_some hs) Finmap.notMem_empty

theorem cleared (h : Sound config w ids) : Sound config w.cleared ids where
  toTracks := h.toTracks.cleared
  consistent := h.consistent.of_coherent (h.consistent.toCoherent.of_eq rfl rfl le_rfl)
    h.consistent.sized rfl rfl rfl rfl
  named := h.named

/-- The runner at the start of an operation. -/
theorem opened (h : Sound config w ids) : Sound config w.opened ids where
  toTracks := h.toTracks.cleared.congr rfl rfl rfl rfl rfl
  consistent := h.cleared.consistent
  named := h.named

/-- The levels of the oracle are canonical. -/
theorem canonicalLevel (h : Sound config w ids) {l : LevelId} (hl : l ∈ ids) :
    w.engine.CanonicalLevel l := by
  obtain ⟨batches, hserves⟩ := h.serves
  exact hserves.canonicalLevel hl

/-- A call of the engine keeps it consistent and its blocks under their ids. -/
theorem of_after {call : EngineOp String} {ids' : List LevelId} (h : Sound config w ids)
    (htracks : Tracks config w' ids') (hcall : w'.engine = (w.engine.after call).clearTrace) :
    Sound config w' ids' where
  toTracks := htracks
  consistent := by
    have hafter := h.consistent.after call
    rw [hcall]
    exact hafter.of_coherent (hafter.toCoherent.of_eq rfl rfl le_rfl) hafter.sized rfl rfl rfl rfl
  named := by
    obtain ⟨batches, hserves⟩ := h.serves
    rw [hcall]
    exact h.named.after h.consistent (hserves.wellFormed.hasRoom call)

/-! ### The verification goes through -/

theorem exists_retired (h : Sound config w ids) :
    ∃ retired, w.oracle.retired.mapM w.refLevel = .ok retired ∧
      ∀ l ∈ retired, l ∈ w.engine.retiredLevelIds := by
  have hlevels : ∀ ref ∈ w.oracle.retired, ∃ l, w.refLevel ref = .ok l := fun ref href ↦ by
    obtain ⟨l, -, hl⟩ := h.retired ref href
    exact ⟨l, refLevel_eq_ok.mpr hl⟩
  obtain ⟨retired, hretired⟩ := exists_mapM_eq_ok hlevels
  refine ⟨retired, hretired, fun l hl ↦ ?_⟩
  obtain ⟨ref, href, hlevel⟩ := exists_mem_left (mapM_eq_ok_iff.mp hretired) hl
  obtain ⟨l', hl', hlookup⟩ := h.retired ref href
  cases hlookup.symm.trans (refLevel_eq_ok.mp hlevel)
  exact hl'

theorem run_failsLoudly {l : LevelId} (hl : l ∈ w.engine.retiredLevelIds) :
    (failsLoudly l).run w = .ok true w := by
  have hlevel : (onEngine (Engine.level l)).run w = .error (.engine (.retiredLevel l)) w :=
    run_zoom_of_error ((Engine.run_level_error (Or.inl hl)).trans (by rw [if_pos hl]))
  rw [failsLoudly, run_tryCatch_of_error (run_bind_of_error hlevel _)]
  rfl

/-- A sound state passes the verification, which leaves it as it is. -/
theorem run_verifyState (h : Sound config w ids) :
    ∃ v, verifyState.run w = .ok v w.cleared ∧ v.ok = true := by
  suffices ∃ v w', verifyState.run w = .ok v w' by
    obtain ⟨v, w', hv⟩ := this
    obtain ⟨-, -, -, -, -, -, rfl⟩ := verifyState_eq_ok hv
    exact ⟨v, hv, (h.toTracks.verified hv).1⟩
  obtain ⟨retired, hretired, hgone⟩ := h.exists_retired
  have hloudly : ∀ l ∈ retired, ∀ w₁, w₁ = w →
      ∃ b w₂, (failsLoudly l).run w₁ = .ok b w₂ ∧ w₂ = w := by
    rintro l hl _ rfl
    exact ⟨true, _, run_failsLoudly (hgone l hl), rfl⟩
  obtain ⟨loud, w₁, hloud, hsame⟩ := exists_run_mapM hloudly rfl
  subst w₁
  have hvalid : ∀ l ∈ ids.filter w.engine.isActiveLevel, ∀ w₁ : BaselineWorkloadRunner,
      (∃ slots, w₁ = { w.cleared with engine := w.engine.clearTrace.afterReads slots }) →
      ∃ w₂, (onValidation (Engine.validateLevel l)).run w₁ = .ok ⟨⟩ w₂ ∧
        ∃ slots, w₂ = { w.cleared with engine := w.engine.clearTrace.afterReads slots } := by
    rintro l hl _ ⟨slots, rfl⟩
    have hcanonical := (h.cleared.canonicalLevel (List.mem_filter.mp hl).1).afterReads slots
    obtain ⟨slots', hrun⟩ := hcanonical.run_validateLevel (h.cleared.named.afterReads slots)
    refine ⟨_, run_zoom_of_ok hrun, slots ++ slots', ?_⟩
    rw [← Engine.afterReads_append]
    rfl
  obtain ⟨w₂, hforM, -⟩ := exists_run_forM hvalid (s := w.cleared)
    ⟨[], by rw [Engine.afterReads_nil]; rfl⟩
  obtain ⟨batches, hserves⟩ := h.serves
  have hbijection : w.engine.mapping.validateBijection = .ok () :=
    hserves.wellFormed.bijective.validate
  rw [verifyState, run_get_bind, h.plan, hretired, run_bind_of_ok (run_liftExcept_ok _ _ _),
    run_bind_of_ok (run_liftExcept_ok _ _ _), run_bind_of_ok hloud, hbijection,
    run_bind_of_ok (run_liftExcept_ok _ _ _), run_clearTrace_bind, run_bind_of_ok hforM]
  exact ⟨_, _, rfl⟩

end Sound

/-! ## Calls that are rejected -/

/-- Whether a call goes through, `ids` being the levels of the oracle. -/
def Accepts (w : BaselineWorkloadRunner) (ids : List LevelId) (op : WorkloadOperation) :
    Call → Prop
  | .buildInitial records => (records.map (·.key)).Nodup
  | .upsert records => records ≠ [] ∧ (records.map (·.key)).Nodup
  | .buildPgm levelId => levelId ∈ ids
  | .merge newer older => ∃ pre post, ids = pre ++ newer :: older :: post
  | .query => op.keys ≠ [] ∧ ∀ l ∈ ids, w.engine.hasBlocks l = true → l ∈ w.queryable
  | .unknown => False

section Rejected

variable {records : List (Record String)} {e : Engine String}

theorem buildLevel_rejected (h : ¬ (records.map (·.key)).Nodup) :
    ∃ err, (Engine.buildLevel records none).run e = .error err e := by
  cases hd : Dataset.fromRecords records with
  | ok d => exact absurd (Engine.fromRecords_eq_ok.mp hd).1 h
  | error err => exact ⟨_, Engine.run_buildLevel_error hd⟩

theorem createUpdateLevel_rejected (h : ¬ (records ≠ [] ∧ (records.map (·.key)).Nodup)) :
    ∃ err, (Engine.createUpdateLevel records).run e = .error err e := by
  unfold Engine.createUpdateLevel
  extract_lets body
  split_ifs with hnil
  · exact ⟨_, rfl⟩
  · cases hd : Dataset.fromRecords records with
    | ok d => exact absurd ⟨hnil, (Engine.fromRecords_eq_ok.mp hd).1⟩ h
    | error err =>
      refine ⟨.duplicateKey err, ?_⟩
      simp only [body, hd]
      rfl

theorem buildLevelPgm_rejected {l : LevelId} (h : l ∉ e.levels) :
    ∃ err, (Engine.buildLevelPgm l).run e = .error err e := by
  rw [Engine.buildLevelPgm, run_get_bind]
  split
  · exact ⟨_, rfl⟩
  · exact ⟨_, run_bind_of_error (Engine.run_level_error (Or.inr h)) _⟩

theorem onEngine_error {α : Type} {x : EngineM String α}
    (h : ∃ err, x.run w.engine = .error err w.engine) :
    ∃ err, (onEngine x).run w = .error err w := by
  obtain ⟨err, hrun⟩ := h
  exact ⟨_, run_zoom_of_error hrun⟩

theorem bind_error {α β : Type} {x : RunnerM α} {f : α → RunnerM β}
    (h : ∃ err, x.run w = .error err w) : ∃ err, (x >>= f).run w = .error err w := by
  obtain ⟨err, hrun⟩ := h
  exact ⟨err, run_bind_of_error hrun f⟩

end Rejected

namespace Sound

/-- What `_do_query` asks of a level before it searches. -/
theorem run_checkQueryable (h : Sound config w ids) {l : LevelId} (hl : l ∈ ids) :
    (checkQueryable l).run w = .ok ⟨⟩ w ∧ (w.engine.hasBlocks l = true → l ∈ w.queryable) ∨
      (∃ err, (checkQueryable l).run w = .error err w) ∧
        ¬ (w.engine.hasBlocks l = true → l ∈ w.queryable) := by
  obtain ⟨blks, ⟨hret, L, hL, -⟩, -⟩ := h.canonicalLevel hl
  have hlevel : (onEngine (Engine.level l)).run w = .ok L w := onLevel_eq_ok.mpr ⟨hret, hL, rfl⟩
  have hblocks : w.engine.hasBlocks l = true ↔ L.blockIds ≠ [] := by
    simp [Engine.hasBlocks, hL]
  rw [checkQueryable, run_bind_of_ok hlevel, run_get_bind]
  by_cases hmissing : L.blockIds ≠ [] ∧ l ∉ w.queryable
  · refine Or.inr ⟨?_, fun hok ↦ hmissing.2 (hok (hblocks.mpr hmissing.1))⟩
    rw [if_pos hmissing]
    cases w.levelRef l with
    | ok ref => exact ⟨_, rfl⟩
    | error err => exact ⟨_, rfl⟩
  · refine Or.inl ⟨by rw [if_neg hmissing]; rfl, fun hb ↦ ?_⟩
    by_contra hq
    exact hmissing ⟨hblocks.mp hb, hq⟩

/-- A call that is not accepted raises before it has changed anything. -/
theorem dispatch_rejected (h : Sound config w ids) {call : Call} (hcall : ¬ w.Accepts ids op call) :
    ∃ err, (dispatch op call).run w = .error err w := by
  cases call with
  | buildInitial records => exact bind_error (onEngine_error (buildLevel_rejected hcall))
  | upsert records => exact bind_error (onEngine_error (createUpdateLevel_rejected hcall))
  | buildPgm l =>
    obtain ⟨batches, hserves⟩ := h.serves
    have hlevel : l ∉ w.engine.levels := fun hl ↦ hcall ((hserves.active l).mp hl)
    exact bind_error (onEngine_error (buildLevelPgm_rejected hlevel))
  | merge newer older =>
    rw [dispatch, doMerge, run_get_bind]
    cases hcheck : w.checkMerge newer older with
    | error err => exact ⟨err, rfl⟩
    | ok inputs =>
      obtain ⟨pre, post, -, -, -, -, hids, -⟩ := h.toTracks.neighbours hcheck
      exact absurd ⟨pre, post, hids⟩ hcall
  | query =>
    rw [dispatch, doQuery]
    cases hkeys : op.keys with
    | nil => exact ⟨_, rfl⟩
    | cons key rest =>
      have hmissing : ∃ l ∈ ids, ∃ err, (checkQueryable l).run w = .error err w := by
        have hne : op.keys ≠ [] := by simp [hkeys]
        have hexists : ∃ l ∈ ids, ¬ (w.engine.hasBlocks l = true → l ∈ w.queryable) := by
          by_contra hall
          push Not at hall
          exact hcall ⟨hne, hall⟩
        obtain ⟨l, hl, hnot⟩ := hexists
        rcases h.run_checkQueryable hl with ⟨-, hok⟩ | ⟨herror, -⟩
        · exact absurd hok hnot
        · exact ⟨l, hl, herror⟩
      have hraises : ∃ err, (ids.forM checkQueryable).run w = .error err w :=
        exists_run_forM_error (fun l hl ↦ (h.run_checkQueryable hl).imp And.left And.left) hmissing
      simp only [run_get_bind]
      rw [h.plan, run_bind_of_ok (run_liftExcept_ok _ _ _)]
      exact bind_error hraises
  | unknown => exact ⟨_, rfl⟩

end Sound

/-! ## Calls that are accepted -/

namespace Tracks

/-- A reference that is new to the runner is new to the oracle. -/
theorem fresh_refs (h : Tracks config w ids) {ref : String} (hfresh : ref ∉ w.refs) :
    ref ∉ w.oracle.refs := by
  intro hmem
  obtain ⟨level, hlevel, rfl⟩ := List.mem_map.mp hmem
  obtain ⟨l, -, hlookup, -⟩ := exists_mem_left h.levels hlevel
  exact hfresh (Finmap.mem_of_lookup_eq_some hlookup)

/-- Every active level has a reference. -/
theorem exists_ref (h : Tracks config w ids) {l : LevelId} (hl : l ∈ ids) :
    ∃ ref, w.levelRef l = .ok ref := by
  obtain ⟨level, -, hlookup, -⟩ := exists_mem_right h.levels hl
  exact ⟨level.1, levelRef_eq_ok.mpr ((h.inverse _ _).mp hlookup)⟩

/-- The references of the oracle are different. -/
theorem nodup_refs (h : Tracks config w ids) : w.oracle.refs.Nodup := by
  obtain ⟨batches, hserves⟩ := h.serves
  have hlookups : w.oracle.refs.map w.refs.lookup = ids.map some :=
    (List.map_map ..).trans (map_eq_of_forall₂ (h.levels.flip.imp fun _ _ hlevel ↦ hlevel.1))
  refine .of_map w.refs.lookup ?_
  rw [hlookups]
  exact hserves.nodup.map (Option.some_injective _)

end Tracks

theorem run_bindNewLevel (op : WorkloadOperation) (l : LevelId) (w : BaselineWorkloadRunner) :
    (bindNewLevel op l).run w = .ok (op.boundRef w.nextRef) (w.bind (op.boundRef w.nextRef) l) :=
  rfl

/-- The published level is active, so what `_do_build_initial` and `_do_upsert` do after the
engine returns goes through. -/
theorem exists_publish {publication : EngineM String LevelId} {records : List (Record String)}
    {l : LevelId} {e : Engine String} {L : Level} (hrun : publication.run w.engine = .ok l e)
    (hfresh : op.boundRef w.nextRef ∉ w.oracle.refs) (hret : l ∉ e.retiredLevelIds)
    (hL : e.levels.lookup l = some L) :
    ∃ r w', (publish publication op records).run w = .ok r w' := by
  rw [publish, run_bind_of_ok (onEngine_eq_ok.mpr ⟨e, hrun, rfl⟩),
    run_bind_of_ok (run_bindNewLevel _ _ _),
    run_bind_of_ok (onOracle_eq_ok (u := ()).mpr ⟨_, if_neg hfresh, rfl⟩),
    run_bind_of_ok (onLevel_eq_ok.mpr ⟨hret, hL, rfl⟩)]
  exact ⟨_, _, rfl⟩

namespace Sound

variable {pre post : List LevelId} {newer older l : LevelId} {ε : Nat}

theorem exists_buildLevel (h : Sound config w ids) {records : List (Record String)}
    (hfresh : op.boundRef w.nextRef ∉ w.refs) (hnodup : (records.map (·.key)).Nodup) :
    ∃ r w', (doBuildInitial op records).run w = .ok r w' := by
  obtain ⟨batches, hserves⟩ := h.serves
  obtain ⟨e, hrun, hserves'⟩ := hserves.run_buildLevel hnodup
  obtain ⟨-, ⟨hret, L, hL, -⟩, -⟩ := hserves'.canonicalLevel List.mem_cons_self
  exact exists_publish hrun (h.toTracks.fresh_refs hfresh) hret hL

theorem exists_createUpdateLevel (h : Sound config w ids) {records : List (Record String)}
    (hfresh : op.boundRef w.nextRef ∉ w.refs) (hne : records ≠ [])
    (hnodup : (records.map (·.key)).Nodup) :
    ∃ r w', (doUpsert op records).run w = .ok r w' := by
  obtain ⟨batches, hserves⟩ := h.serves
  obtain ⟨e, hrun, hserves'⟩ := hserves.run_createUpdateLevel hne hnodup
  obtain ⟨-, ⟨hret, L, hL, -⟩, -⟩ := hserves'.canonicalLevel List.mem_cons_self
  exact exists_publish hrun (h.toTracks.fresh_refs hfresh) hret hL

theorem exists_buildPgm (h : Sound config w ids) (hε : config.pgmEpsilon = some ε) (hl : l ∈ ids) :
    ∃ r w', (doBuildPgm l).run w = .ok r w' := by
  obtain ⟨batches, hserves⟩ := h.serves
  obtain ⟨idx, e, hrun⟩ := hserves.run_buildLevelPgm hε hl
  obtain ⟨-, ⟨hret, L, hL, -⟩, -⟩ := (hserves.buildLevelPgm hrun).canonicalLevel hl
  obtain ⟨ref, href⟩ := h.toTracks.exists_ref hl
  have href' : levelRef { w with engine := e, queryable := insert l w.queryable } l = .ok ref :=
    href
  rw [doBuildPgm, run_bind_of_ok (onEngine_eq_ok.mpr ⟨e, hrun, rfl⟩), run_modify_bind,
    run_get_bind, href', run_bind_of_ok (run_liftExcept_ok _ _ _),
    run_bind_of_ok (onLevel_eq_ok.mpr ⟨hret, hL, rfl⟩)]
  exact ⟨_, _, rfl⟩

/-- Neighbours of the order pass the checks before a merge. -/
theorem exists_inputs (h : Sound config w (pre ++ newer :: older :: post)) :
    ∃ front back newerRef olderRef c₁ c₂,
      w.oracle.levels = front ++ (newerRef, c₁) :: (olderRef, c₂) :: back ∧
      newerRef ∉ front.map Prod.fst ∧ olderRef ∉ front.map Prod.fst ++ [newerRef] ∧
      w.checkMerge newer older = .ok (newerRef, olderRef) := by
  obtain ⟨batches, hserves⟩ := h.serves
  obtain ⟨front, ⟨newerRef, c₁⟩, rest, hlevels, -, hnewer, hrest⟩ := forall₂_split h.levels
  cases hrest with
  | @cons _ older' _ back holder hback =>
    obtain ⟨olderRef, c₂⟩ := older'
    have hrefs : w.oracle.refs =
        front.map Prod.fst ++ newerRef :: olderRef :: back.map Prod.fst := by
      rw [LogicalOracle.refs, hlevels, List.map_append, List.map_cons, List.map_cons]
    have hsplit : w.oracle.refs =
        (front.map Prod.fst ++ [newerRef]) ++ olderRef :: back.map Prod.fst := by
      rw [hrefs, List.append_assoc, List.singleton_append]
    have hnewerRef : newerRef ∉ front.map Prod.fst :=
      (List.nodup_middle.mp (hrefs ▸ h.toTracks.nodup_refs)).notMem ∘ List.mem_append_left _
    have holderRef : olderRef ∉ front.map Prod.fst ++ [newerRef] :=
      (List.nodup_middle.mp (hsplit ▸ h.toTracks.nodup_refs)).notMem ∘ List.mem_append_left _
    have hne : newer ≠ older := by
      rintro rfl
      exact hserves.neighbours.1 List.mem_cons_self
    have hindex : w.oracle.refs.idxOf newerRef = (front.map Prod.fst).length := by
      rw [hrefs, List.idxOf_append_of_notMem hnewerRef, List.idxOf_cons_self, Nat.add_zero]
    have hnext : w.oracle.refs.idxOf olderRef = w.oracle.refs.idxOf newerRef + 1 := by
      rw [hindex, hsplit, List.idxOf_append_of_notMem holderRef, List.idxOf_cons_self,
        List.length_append, List.length_singleton, Nat.add_zero]
    refine ⟨front, back, newerRef, olderRef, c₁, c₂, hlevels, hnewerRef, holderRef, ?_⟩
    have hlive : newerRef ∈ w.oracle.refs ∧ olderRef ∈ w.oracle.refs := by
      rw [hrefs]
      simp
    rw [checkMerge, (h.inverse _ _).mp hnewer.1, (h.inverse _ _).mp holder.1]
    simp only [require_of hlive, require_of hne, require_of hnext, ok_bind, pure_eq_ok]

/-- A merge of neighbours goes through. -/
theorem exists_doMerge (h : Sound config w (pre ++ newer :: older :: post))
    (hε : config.pgmEpsilon = some ε) : ∃ r w', (doMerge op newer older).run w = .ok r w' := by
  obtain ⟨front, back, newerRef, olderRef, c₁, c₂, hlevels, hnewerRef, holderRef, hcheck⟩ :=
    h.exists_inputs
  obtain ⟨batches, hserves⟩ := h.serves
  obtain ⟨result, e, hrun, hserves'⟩ := hserves.run_merge hε
  obtain ⟨-, ⟨hret, L, hL, -⟩, -⟩ :=
    hserves'.canonicalLevel (List.mem_append_right pre List.mem_cons_self)
  have hsplit : w.oracle.levels = (front ++ [(newerRef, c₁)]) ++ (olderRef, c₂) :: back := by
    rw [hlevels, List.append_assoc, List.singleton_append]
  have hnewerMap : w.oracle.contents newerRef = .ok c₁ :=
    LogicalOracle.contents_first hlevels hnewerRef
  have holderMap : w.oracle.contents olderRef = .ok c₂ :=
    LogicalOracle.contents_first hsplit (by rwa [List.map_append, List.map_singleton])
  rw [doMerge, run_get_bind, hcheck, run_bind_of_ok (run_liftExcept_ok _ _ _), hnewerMap,
    run_bind_of_ok (run_liftExcept_ok _ _ _), holderMap, run_bind_of_ok (run_liftExcept_ok _ _ _),
    run_bind_of_ok (onEngine_eq_ok.mpr ⟨e, hrun, rfl⟩), run_bind_of_ok (run_bindNewLevel _ _ _)]
  simp only [run_modify_bind]
  rw [run_bind_of_ok (onLevel_eq_ok.mpr ⟨hret, hL, rfl⟩)]
  exact ⟨_, _, rfl⟩

end Sound

theorem exists_readLevelContents {l : LevelId} {L : Level} {blks : List (Block String)}
    (hret : l ∉ w.engine.retiredLevelIds) (hL : w.engine.levels.lookup l = some L)
    (hread : w.engine.ReadAs L.blockIds blks) :
    ∃ contents w', (readLevelContents l).run w = .ok contents w' := by
  obtain ⟨blks', e', hblks⟩ := Engine.exists_mapM_readBlock (e := w.engine.clearTrace) hread
  have hlevel : (onEngine (Engine.level l)).run w.cleared = .ok L w.cleared :=
    onLevel_eq_ok.mpr ⟨hret, hL, rfl⟩
  have hreads : (onEngine (L.blockIds.mapM Engine.readBlock)).run w.cleared =
      .ok blks' { w.cleared with engine := e' } := onEngine_eq_ok.mpr ⟨e', hblks, rfl⟩
  rw [readLevelContents, run_clearTrace_bind, run_bind_of_ok hlevel, run_bind_of_ok hreads]
  exact ⟨_, _, rfl⟩

/-- A merge whose output can be read is compared with the oracle. -/
theorem exists_compare {payload : OperationResult} {pending : PendingMerge} {o : LogicalOracle}
    {L : Level} {blks : List (Block String)} (hpending : w.pendingMerge = some pending)
    (hret : pending.result.outputLevelId ∉ w.engine.retiredLevelIds)
    (hL : w.engine.levels.lookup pending.result.outputLevelId = some L)
    (hread : w.engine.ReadAs L.blockIds blks)
    (hmerge : w.oracle.merge pending.newerRef pending.olderRef pending.outputRef = .ok o) :
    ∃ oracle w', (compare payload).run w = .ok oracle w' := by
  obtain ⟨contents, w₁, hcontents⟩ :=
    exists_readLevelContents (w := { w with pendingMerge := none }) hret hL hread
  obtain ⟨-, rfl⟩ := readLevelContents_eq_ok hcontents
  have hfinish : ∃ s w', (finishMerge pending).run w = .ok s w' := by
    rw [finishMerge, run_modify_bind, run_bind_of_ok hcontents,
      run_bind_of_ok (onOracle_eq_ok (u := ()).mpr ⟨o, hmerge, rfl⟩)]
    exact ⟨_, _, rfl⟩
  obtain ⟨s, w', hfinish⟩ := hfinish
  rw [compare, run_get_bind, hpending]
  exact ⟨_, _, run_bind_of_ok hfinish _⟩

namespace Sound

variable {pre post : List LevelId} {newer older : LevelId} {ε : Nat}

/-- A query goes through when every level with blocks has been declared queryable. -/
theorem exists_doQuery (h : Sound config w ids) (hkeys : op.keys ≠ [])
    (hqueryable : ∀ l ∈ ids, w.engine.hasBlocks l = true → l ∈ w.queryable) :
    ∃ r w', (doQuery op).run w = .ok r w' := by
  obtain ⟨key, rest, hkeys⟩ := List.exists_cons_of_ne_nil hkeys
  obtain ⟨batches, hserves⟩ := h.serves
  obtain ⟨result, e, hrun, hanswers⟩ := hserves.run_lookupLevels
    (fun l hl hblocks ↦ (h.queryable l hl).mp (hqueryable l hl hblocks)) ⟨key⟩
  -- the levels that are searched have references
  have hlevels : (∀ l ∈ result.searchedLevelIds, l ∈ ids) ∧ ∀ l ∈ result.hitLevelId, l ∈ ids := by
    have hfilter : ∀ l ∈ ids.filter w.engine.hasBlocks, l ∈ ids := fun l hl ↦
      (List.mem_filter.mp hl).1
    cases hfound : result.found with
    | false =>
      obtain ⟨hhit, hsearched⟩ := hanswers.miss hfound
      rw [hhit, hsearched]
      exact ⟨hfilter, fun l hl ↦ by cases hl⟩
    | true =>
      obtain ⟨front, l, back, hplan, hhit, hsearched, -⟩ := hanswers.hit hfound
      rw [hplan] at hfilter
      rw [hhit, hsearched]
      refine ⟨fun l' hl' ↦ hfilter l' ?_, fun l' hl' ↦ hfilter l' ?_⟩
      · rcases List.mem_append.mp hl' with hl' | hl'
        · exact List.mem_append_left _ hl'
        · exact List.mem_append_right _ (List.mem_singleton.mp hl' ▸ List.mem_cons_self)
      · cases hl'
        exact List.mem_append_right _ List.mem_cons_self
  obtain ⟨searchedRefs, hsearched⟩ :=
    exists_mapM_eq_ok fun l hl ↦ h.toTracks.exists_ref (hlevels.1 l hl)
  have hhit : ∃ hitRef, result.hitLevelId.mapM w.levelRef = .ok hitRef := by
    cases hlevel : result.hitLevelId with
    | none => exact ⟨none, rfl⟩
    | some l =>
      obtain ⟨ref, href⟩ := h.toTracks.exists_ref (hlevels.2 l hlevel)
      exact ⟨some ref, by rw [Option.mapM_some, href]; rfl⟩
  obtain ⟨hitRef, hhit⟩ := hhit
  have hcheck : ∀ l ∈ ids, ∀ w₁, w₁ = w → ∃ w₂, (checkQueryable l).run w₁ = .ok ⟨⟩ w₂ ∧ w₂ = w := by
    rintro l hl _ rfl
    rcases h.run_checkQueryable hl with ⟨hrun, -⟩ | ⟨-, hnot⟩
    · exact ⟨_, hrun, rfl⟩
    · exact absurd (hqueryable l hl) hnot
  obtain ⟨w₁, hforM, hsame⟩ := exists_run_forM hcheck rfl
  subst w₁
  rw [doQuery, hkeys]
  simp only [run_get_bind]
  rw [h.plan, run_bind_of_ok (run_liftExcept_ok _ _ _), run_bind_of_ok hforM,
    run_bind_of_ok (onEngine_eq_ok.mpr ⟨e, hrun, rfl⟩), hhit,
    run_bind_of_ok (run_liftExcept_ok _ _ _), hsearched, run_bind_of_ok (run_liftExcept_ok _ _ _)]
  exact ⟨_, _, rfl⟩

end Sound

/-! ## One call -/

namespace Sound

variable {call : Call} {payload : OperationResult} {oracle : Option OracleSummary}
  {w₁ : BaselineWorkloadRunner} {ε : Nat}

/-- A call that is accepted returns. -/
theorem exists_dispatch (h : Sound config w ids) (hε : config.pgmEpsilon = some ε)
    (hfresh : call.Binds → op.boundRef w.nextRef ∉ w.refs) (haccepts : w.Accepts ids op call) :
    ∃ payload w₁, (dispatch op call).run w = .ok payload w₁ := by
  cases call with
  | buildInitial records => exact h.exists_buildLevel (hfresh trivial) haccepts
  | upsert records => exact h.exists_createUpdateLevel (hfresh trivial) haccepts.1 haccepts.2
  | buildPgm l => exact h.exists_buildPgm hε haccepts
  | merge newer older =>
    obtain ⟨pre, post, rfl⟩ := haccepts
    exact h.exists_doMerge hε
  | query => exact h.exists_doQuery haccepts.1 haccepts.2
  | unknown => exact absurd haccepts id

/-- What has returned is compared with the oracle. -/
theorem exists_compared (h : Sound config w ids) (hpending : w.pendingMerge = none)
    (hrun : (dispatch op call).run w = .ok payload w₁) :
    ∃ oracle w', (compare payload).run w₁.cleared = .ok oracle w' := by
  have hnone : w₁.pendingMerge = none →
      ∃ oracle w', (compare payload).run w₁.cleared = .ok oracle w' := by
    intro hnone
    have hcleared : w₁.cleared.pendingMerge = none := hnone
    rw [compare, run_get_bind, hcleared]
    exact ⟨_, _, rfl⟩
  cases call with
  | buildInitial records =>
    obtain ⟨l, e, o, n, -, -, -, rfl⟩ := publish_eq_ok hrun
    exact hnone hpending
  | upsert records =>
    obtain ⟨l, e, o, n, -, -, -, rfl⟩ := publish_eq_ok hrun
    exact hnone hpending
  | buildPgm l =>
    obtain ⟨index, e, ref, n, -, -, rfl⟩ := doBuildPgm_eq_ok hrun
    exact hnone hpending
  | merge newer older =>
    obtain ⟨newerRef, olderRef, newerMap, olderMap, result, e, n, hcheck, -, -, hmerge, -, rfl⟩ :=
      doMerge_eq_ok hrun
    obtain ⟨pre, post, front, back, c₁, c₂, rfl, hlevels, hnewerRef, holderRef, -⟩ :=
      h.toTracks.neighbours hcheck
    obtain ⟨batches, hserves⟩ := h.serves
    obtain ⟨rfl, hp⟩ := hserves.merge_eq_ok hmerge
    obtain ⟨L, blks, hret, hL, hread, -⟩ := hp.merged_output
    exact exists_compare rfl hret hL hread
      (LogicalOracle.merge_neighbours hlevels hnewerRef holderRef _)
  | query =>
    obtain ⟨key, rest, plan, result, e, hitRef, searchedRefs, -, -, -, -, -, rfl⟩ :=
      doQuery_eq_ok hrun
    exact hnone hpending
  | unknown => cases hrun

end Sound

/-- A call that returns has made one call of the engine, and has recorded and counted nothing. -/
theorem exists_engineCall {call : Call} {payload : OperationResult} {w₁ : BaselineWorkloadRunner}
    (hrun : (dispatch op call).run w = .ok payload w₁) :
    ∃ engineCall, w₁.engine = w.engine.after engineCall ∧ w₁.records = w.records ∧
      w₁.mismatches = w.mismatches := by
  cases call with
  | buildInitial records =>
    obtain ⟨l, e, o, n, hcall, -, -, rfl⟩ := publish_eq_ok hrun
    exact ⟨.buildLevel records none, congrArg finalState hcall.symm, rfl, rfl⟩
  | upsert records =>
    obtain ⟨l, e, o, n, hcall, -, -, rfl⟩ := publish_eq_ok hrun
    exact ⟨.createUpdateLevel records, congrArg finalState hcall.symm, rfl, rfl⟩
  | buildPgm l =>
    obtain ⟨index, e, ref, n, hcall, -, rfl⟩ := doBuildPgm_eq_ok hrun
    exact ⟨.buildLevelPgm l, congrArg finalState hcall.symm, rfl, rfl⟩
  | merge newer older =>
    obtain ⟨newerRef, olderRef, newerMap, olderMap, result, e, n, -, -, -, hcall, -, rfl⟩ :=
      doMerge_eq_ok hrun
    exact ⟨.mergeLevelsBlocking newer older, congrArg finalState hcall.symm, rfl, rfl⟩
  | query =>
    obtain ⟨key, rest, plan, result, e, hitRef, searchedRefs, -, -, hcall, -, -, rfl⟩ :=
      doQuery_eq_ok hrun
    exact ⟨.lookupLevels plan ⟨key⟩, congrArg finalState hcall.symm, rfl, rfl⟩
  | unknown => cases hrun

/-- The references after a call, the levels that are declared queryable and the next new level. -/
structure Named (w : BaselineWorkloadRunner) (op : WorkloadOperation) (call : Call)
    (w' : BaselineWorkloadRunner) : Prop where
  nextLevelId : w'.engine.nextLevelId = w.engine.nextLevelId + if call.Binds then 1 else 0
  refs : w'.refs =
    if call.Binds then w.refs.insert (op.boundRef w.nextRef) ⟨w.engine.nextLevelId⟩ else w.refs
  queryable : w'.queryable = w.queryable ∪ call.declares ⟨w.engine.nextLevelId⟩

theorem Tracks.named {call : Call} {payload : OperationResult} {w₁ : BaselineWorkloadRunner}
    (h : Tracks config w ids) (hrun : (dispatch op call).run w = .ok payload w₁) :
    Named w op call w₁ := by
  obtain ⟨batches, hserves⟩ := h.serves
  cases call with
  | buildInitial records =>
    obtain ⟨l, e, o, n, hcall, -, -, rfl⟩ := publish_eq_ok hrun
    obtain ⟨rfl, -, hadded⟩ := hserves.buildLevel_eq_ok hcall
    exact ⟨hadded.nextLevelId, (if_pos trivial).symm, (Finset.union_empty _).symm⟩
  | upsert records =>
    obtain ⟨l, e, o, n, hcall, -, -, rfl⟩ := publish_eq_ok hrun
    obtain ⟨rfl, -, hadded⟩ := hserves.createUpdateLevel_eq_ok hcall
    exact ⟨hadded.nextLevelId, (if_pos trivial).symm, (Finset.union_empty _).symm⟩
  | buildPgm l =>
    obtain ⟨index, e, ref, n, hcall, -, rfl⟩ := doBuildPgm_eq_ok hrun
    obtain ⟨ε, L, blks, -, -, -, -, -, rfl⟩ := Engine.buildLevelPgm_eq_ok.mp hcall
    exact ⟨(Int.add_zero _).symm, (if_neg id).symm, (Finset.union_singleton ..).symm⟩
  | merge newer older =>
    obtain ⟨newerRef, olderRef, newerMap, olderMap, result, e, n, hcheck, -, -, hcall, -, rfl⟩ :=
      doMerge_eq_ok hrun
    obtain ⟨pre, post, -, -, -, -, rfl, -⟩ := h.neighbours hcheck
    obtain ⟨rfl, hp⟩ := hserves.merge_eq_ok hcall
    exact ⟨hp.nextLevelId, (if_pos trivial).symm, (Finset.union_singleton ..).symm⟩
  | query =>
    obtain ⟨key, rest, plan, result, e, hitRef, searchedRefs, -, hplan, hcall, hsearched, -, rfl⟩ :=
      doQuery_eq_ok hrun
    cases h.plan.symm.trans hplan
    obtain ⟨-, -, -, hsame⟩ := h.queried hcall hsearched
    have hnext : e.clearTrace.nextLevelId = w.engine.clearTrace.nextLevelId :=
      congrArg Engine.nextLevelId hsame
    exact ⟨hnext.trans (Int.add_zero _).symm, (if_neg id).symm, (Finset.union_empty _).symm⟩
  | unknown => cases hrun

/-- The comparison with the oracle leaves the names alone. -/
theorem Named.compared {call : Call} {payload : OperationResult} {oracle : Option OracleSummary}
    {w₀ : BaselineWorkloadRunner} (h : Named w₀ op call w)
    (hcompare : (compare payload).run w = .ok oracle w') : Named w₀ op call w' := by
  cases hpending : w.pendingMerge with
  | none =>
    obtain ⟨-, rfl⟩ := compare_of_none hcompare hpending
    exact h
  | some pending =>
    obtain ⟨o, -, -, rfl⟩ := compare_of_some hcompare hpending
    exact ⟨h.nextLevelId, h.refs, h.queryable⟩

/-- The comparison with the oracle leaves nothing in the trace. -/
theorem compare_engine {payload : OperationResult} {oracle : Option OracleSummary}
    (h : (compare payload).run w.cleared = .ok oracle w') :
    w'.engine = w.engine.clearTrace := by
  cases hpending : w.pendingMerge with
  | none =>
    obtain ⟨-, rfl⟩ := compare_of_none (w := w.cleared) h hpending
    rfl
  | some pending =>
    obtain ⟨o, -, -, rfl⟩ := compare_of_some (w := w.cleared) h hpending
    rfl

/-- A call that is not accepted raises, and leaves the runner as it was but for the trace. -/
theorem run_rejected {call : Call} (h : Sound config w ids) (hcall : ¬ w.Accepts ids op call) :
    ∃ err, (run op call).run w = .error err w.opened := by
  have hopened : ¬ w.opened.Accepts ids op call := by
    cases call <;> exact hcall
  obtain ⟨err, hrun⟩ := h.opened.dispatch_rejected hopened
  rw [run, run_modify_bind, clearTrace, run_modify_bind]
  refine ⟨err, run_bind_of_error ?_ _⟩
  exact (run_tryCatch_of_error hrun _).trans rfl

/-- The levels of the oracle after a call, the reference of a new one being `ref`. -/
def levelsAfter (w : BaselineWorkloadRunner) (ref : String) :
    Call → List (String × FinDict Int String)
  | .buildInitial records | .upsert records => (ref, contentsOf records) :: w.oracle.levels
  | .merge newer older => mergeAt (w.refOf.lookup newer) (w.refOf.lookup older) ref w.oracle.levels
  | .buildPgm _ | .query | .unknown => w.oracle.levels

/-- A call has been performed and compared with the oracle, and nothing is recorded yet. -/
structure Advanced (config : Config) (w : BaselineWorkloadRunner) (op : WorkloadOperation)
    (call : Call) (oracle : Option OracleSummary) (w' : BaselineWorkloadRunner) : Prop where
  tracks : ∃ ids, Tracks config w' ids
  nextRef : w'.nextRef = w.nextRef + if call.Binds then 1 else 0
  levels : w'.oracle.levels = w.levelsAfter (op.boundRef w.nextRef) call
  compared : Compared w.oracle.levels op oracle

section Advanced

variable {payload : OperationResult} {oracle : Option OracleSummary} {w₁ : BaselineWorkloadRunner}

theorem advanced_publish {publication : EngineM String LevelId} {records : List (Record String)}
    {call : Call} (h : Tracks config w ids) (hpending : w.pendingMerge = none) (hbinds : call.Binds)
    (hclass : op.operationClass = some .buildInitial ∨ op.operationClass = some .upsert)
    (hlevels : w.levelsAfter (op.boundRef w.nextRef) call =
      (op.boundRef w.nextRef, contentsOf records) :: w.oracle.levels)
    (hfresh : op.boundRef w.nextRef ∉ w.refs)
    (hpublication : ∀ {batches l e}, Engine.Serves config w.engine ids batches →
      publication.run w.engine = .ok l e → l = ⟨w.engine.nextLevelId⟩ ∧
        (∃ batches', Engine.Serves config e (⟨w.engine.nextLevelId⟩ :: ids) batches') ∧
        Engine.BatchAdded w.engine e ids records)
    (hrun : (publish publication op records).run w = .ok payload w₁)
    (hcompare : (compare payload).run w₁.cleared = .ok oracle w') :
    Advanced config w op call oracle w' := by
  obtain ⟨l, e, o, n, hpublish, ho, rfl, rfl⟩ := publish_eq_ok hrun
  obtain ⟨batches, hserves⟩ := h.serves
  obtain ⟨rfl, hserves', hadded⟩ := hpublication hserves hpublish
  obtain ⟨hnew, htracks⟩ := h.published hfresh hserves' hadded ho
  obtain ⟨rfl, rfl⟩ := compare_of_none hcompare hpending
  refine ⟨⟨_, htracks.cleared⟩, ?_, hnew.trans hlevels.symm, ?_, ?_, fun _ _ ↦ rfl⟩
  · rw [if_pos hbinds]
    rfl
  · intro hmerge
    rcases hclass with hclass | hclass <;> cases hclass.symm.trans hmerge
  · intro hquery
    rcases hclass with hclass | hclass <;> cases hclass.symm.trans hquery

theorem advanced_merge {newer older : LevelId} (h : Tracks config w ids)
    (hclass : op.operationClass = some .merge) (hfresh : op.boundRef w.nextRef ∉ w.refs)
    (hrun : (doMerge op newer older).run w = .ok payload w₁)
    (hcompare : (compare payload).run w₁.cleared = .ok oracle w') :
    Advanced config w op (.merge newer older) oracle w' := by
  obtain ⟨newerRef, olderRef, newerMap, olderMap, result, e, n, hcheck, hnewerMap, holderMap,
    hmerge, rfl, rfl⟩ := doMerge_eq_ok hrun
  obtain ⟨o, ho, rfl, rfl⟩ := compare_of_some hcompare rfl
  obtain ⟨⟨front, back, c₁, c₂, hlevels, hfront, hlevels'⟩, hmatches, ids', htracks⟩ :=
    h.merged hcheck hnewerMap holderMap hmerge hfresh ho
  obtain ⟨hnewerRef, holderRef, -⟩ := Tracks.checkMerge_eq_ok hcheck
  refine ⟨⟨ids', htracks.cleared.congr rfl rfl rfl rfl rfl⟩, ?_, ?_, ?_, ?_, ?_⟩
  · exact congrArg (w.nextRef + ·) (if_pos trivial).symm
  · rw [levelsAfter, hnewerRef, holderRef, hlevels, mergeAt_neighbours hfront]
    exact hlevels'
  · exact fun _ ↦ ⟨_, rfl, hmatches⟩
  · intro hquery
    cases hclass.symm.trans hquery
  · exact fun hne ↦ absurd hclass hne

/-- An operation that publishes nothing leaves the levels as they are. -/
theorem Performed.live_of_unbound (h : Performed config w op oracle w')
    (hop : op.operationClass = some .buildPgm ∨ op.operationClass = some .query) :
    w'.live = w.live := by
  rw [h.live, LiveLevels.next]
  rcases hop with hop | hop <;> rw [hop]

/-- A call that binds nothing has been performed as an operation of a script. -/
theorem Advanced.of_performed {call : Call} (h : Performed config w op oracle w')
    (hbinds : ¬ call.Binds) (hop : op.operationClass = some .buildPgm ∨
      op.operationClass = some .query) : Advanced config w op call oracle w' where
  tracks := h.tracks
  nextRef := by
    rw [if_neg hbinds]
    exact congrArg LiveLevels.published (h.live_of_unbound hop)
  levels := by
    have hlevels : w.levelsAfter (op.boundRef w.nextRef) call = w.oracle.levels := by
      cases call with
      | buildPgm | query | unknown => rfl
      | buildInitial | upsert | merge => exact absurd trivial hbinds
    rw [hlevels]
    exact congrArg LiveLevels.levels (h.live_of_unbound hop)
  compared := h.compared

end Advanced

/-- What a call that returns has done. -/
theorem Tracks.advanced {call : Call} {payload : OperationResult} {oracle : Option OracleSummary}
    {w₁ : BaselineWorkloadRunner} (h : Tracks config w ids) (hpending : w.pendingMerge = none)
    (hclass : op.operationClass = call.operationClass)
    (hfresh : call.Binds → op.boundRef w.nextRef ∉ w.refs)
    (hrun : (dispatch op call).run w = .ok payload w₁)
    (hcompare : (compare payload).run w₁.cleared = .ok oracle w') :
    Advanced config w op call oracle w' := by
  cases call with
  | buildInitial records =>
    refine advanced_publish h hpending trivial (Or.inl hclass) rfl (hfresh trivial) ?_ hrun hcompare
    intro batches l e hserves hpublish
    obtain ⟨rfl, hserves', hadded⟩ := hserves.buildLevel_eq_ok hpublish
    exact ⟨rfl, ⟨_, hserves'⟩, hadded⟩
  | upsert records =>
    refine advanced_publish h hpending trivial (Or.inr hclass) rfl (hfresh trivial) ?_ hrun hcompare
    exact fun hserves hpublish ↦ hserves.createUpdateLevel_eq_ok hpublish
  | buildPgm l =>
    exact Advanced.of_performed (performed_buildPgm h hpending hclass hrun hcompare) id
      (Or.inl hclass)
  | merge newer older => exact advanced_merge h hclass (hfresh trivial) hrun hcompare
  | query =>
    exact Advanced.of_performed (performed_query h hpending hclass hrun hcompare) id
      (Or.inr hclass)
  | unknown => cases hrun

/-- A call that goes through has been performed in a window of its own, compared and verified,
and its record is the last one. -/
structure Went (config : Config) (w : BaselineWorkloadRunner) (op : WorkloadOperation)
    (call : Call) (w' : BaselineWorkloadRunner) (r : OperationRecord) : Prop where
  sound : ∃ ids, Sound config w' ids
  named : Named w op call w'
  nextRef : w'.nextRef = w.nextRef + if call.Binds then 1 else 0
  levels : w'.oracle.levels = w.levelsAfter (op.boundRef w.nextRef) call
  records : w'.records = w.records ++ [r]
  verified : r.verification.ok = true
  compared : Compared w.oracle.levels op r.oracle
  mismatches : w'.mismatches = w.mismatches +
    if ∀ s ∈ r.oracle, s.matchesOracle = true then 0 else 1

/-- A record that is verified adds a failure unless it matches the oracle. -/
theorem mismatches_addRecord {r : OperationRecord} (hok : r.verification.ok = true) :
    (w.addRecord r).mismatches =
      w.mismatches + if ∀ s ∈ r.oracle, s.matchesOracle = true then 0 else 1 := by
  have hany : (∀ s ∈ r.oracle, s.matchesOracle = true) ↔
      r.oracle.any (! ·.matchesOracle) = false := by
    cases r.oracle <;> simp
  simp only [mismatches, addRecord, hok, hany]
  cases r.oracle.any (! ·.matchesOracle) with
  | false => simp
  | true =>
    by_cases hmerge : r.kind = OperationClass.merge.text <;> simp [hmerge] <;> omega

/-- A call that is accepted goes through. -/
theorem Sound.run_accepted {call : Call} {ε : Nat} (h : Sound config w ids)
    (hε : config.pgmEpsilon = some ε) (hclass : op.operationClass = call.operationClass)
    (hfresh : call.Binds → op.boundRef w.nextRef ∉ w.refs) (hcall : w.Accepts ids op call) :
    ∃ w' r, (run op call).run w = .ok ⟨⟩ w' ∧ Went config w op call w' r := by
  have haccepts : w.opened.Accepts ids op call := by
    cases call <;> exact hcall
  obtain ⟨payload, w₁, hrun⟩ := h.opened.exists_dispatch hε hfresh haccepts
  obtain ⟨oracle, w₂, hcompare⟩ := h.opened.exists_compared rfl hrun
  have hadvanced := h.opened.toTracks.advanced rfl hclass hfresh hrun hcompare
  obtain ⟨engineCall, hengine, hrecords, hmismatches⟩ := exists_engineCall hrun
  obtain ⟨ids', htracks⟩ := hadvanced.tracks
  have hsound : Sound config w₂ ids' :=
    h.opened.of_after htracks (hengine ▸ compare_engine hcompare)
  obtain ⟨v, hv, hok⟩ := hsound.run_verifyState
  obtain ⟨hrecords', htally⟩ := Prod.ext_iff.mp (compare_eq_ok hcompare)
  have hrecorded : w₂.records = w.records := hrecords'.trans hrecords
  have hcounted : w₂.mismatches = w.mismatches :=
    (congrArg Prod.fst htally).trans hmismatches
  let r : OperationRecord := {
    index := w₂.cleared.records.length
    kind := op.kind
    operation := op
    events := w₁.engine.storage.trace
    result := payload
    verification := v
    oracle := oracle }
  have hnamed : Named w op call w₂ := by
    have hcleared : Named w op call w₁.cleared :=
      have hrun := h.opened.toTracks.named hrun
      ⟨hrun.nextLevelId, hrun.refs, hrun.queryable⟩
    exact hcleared.compared hcompare
  have hlevels : w₂.oracle.levels = w.levelsAfter (op.boundRef w.nextRef) call := by
    rw [hadvanced.levels]
    cases call <;> rfl
  refine ⟨w₂.cleared.addRecord r, r, ?_, ⟨ids', ?_⟩,
    ⟨hnamed.nextLevelId, hnamed.refs, hnamed.queryable⟩, hadvanced.nextRef, hlevels,
    congrArg (· ++ [r]) hrecorded, hok, hadvanced.compared, ?_⟩
  · rw [run, run_modify_bind, clearTrace, run_modify_bind]
    refine (run_bind_of_ok (run_tryCatch_of_ok hrun _) _).trans ?_
    rw [run_get_bind, run_modify_bind]
    refine (run_bind_of_ok hcompare _).trans ?_
    rw [run_bind_of_ok hv]
    rfl
  · exact ⟨hsound.cleared.toTracks.congr rfl rfl rfl rfl rfl, hsound.cleared.consistent,
      hsound.cleared.named⟩
  · rw [mismatches_addRecord hok]
    exact congrArg (· + _) hcounted

end BaselineWorkloadRunner

end EnhancedLetIndex
