import EnhancedLetIndex.Engine.Merge

/-!
# Sessions

A `Session` is a run that publishes batches in fresh levels and merges neighbours of the
newest-first order, with that order and the batches published so far.  `Serves` is its
invariant: the levels of the order are the active ones, they are canonical with the right PGMs,
and for every key they give the record of the latest batch that has it.

Each operation changes one place of the order.  The other levels are as before (`SameLevel`),
and what a merge puts in the place of two levels gives what the two have given.
-/

namespace EnhancedLetIndex

variable {V : Type}

namespace Engine

variable {e e' : Engine V} {l : LevelId} {key : RecordKey}

/-! ## Levels that stay -/

/-- The level has the same blocks, with the same contents, and the same PGM. -/
structure SameLevel (e e' : Engine V) (l : LevelId) : Prop where
  level : e'.levels.lookup l = e.levels.lookup l
  pgm : e'.pgmIndexes.lookup l = e.pgmIndexes.lookup l
  blocks : ∀ L, e.levels.lookup l = some L → ∀ b ∈ L.blockIds, e'.blockAt b = e.blockAt b

namespace SameLevel

theorem recordsOf (h : SameLevel e e' l) : e'.recordsOf l = e.recordsOf l := by
  unfold Engine.recordsOf
  rw [h.level]
  cases hL : e.levels.lookup l with
  | none => rfl
  | some L => exact congrArg blockRecords (List.filterMap_congr (h.blocks L hL))

theorem recordAt (h : SameLevel e e' l) : e'.recordAt key l = e.recordAt key l := by
  unfold Engine.recordAt
  rw [h.recordsOf]

end SameLevel

/-- The levels of a list give the same record. -/
theorem findSome?_congr {ls : List LevelId} (h : ∀ l ∈ ls, SameLevel e e' l) :
    ls.findSome? (e'.recordAt key) = ls.findSome? (e.recordAt key) := by
  rw [← List.head?_filterMap, ← List.head?_filterMap,
    List.filterMap_congr fun l hl ↦ (h l hl).recordAt]

/-- Level `l` is canonical, and its PGM, if it has one, is the one of its records. -/
structure Indexed (e : Engine V) (l : LevelId) (L : Level) : Prop where
  canonical : ∃ blks, e.ReadAs L.blockIds blks ∧ CanonicalBlocks e.config.blockCapacity blks
  pgm : ∀ blks idx, e.ReadAs L.blockIds blks → e.pgmIndexes.lookup l = some idx →
    ∃ ε, buildBatchPgm ((blockRecords blks).map (·.key)) ε = .ok idx

/-- A state is queryable if each of its levels is. -/
theorem Coherent.queryable (h : e.Coherent)
    (hlevels : ∀ l L, e.levels.lookup l = some L → e.Indexed l L) : e.Queryable where
  bijective := h.bijective
  occupied := h.occupied
  canonical l L hL := (hlevels l L hL).canonical
  pgm l L blks idx hL hread hidx := (hlevels l L hL).pgm blks idx hread hidx

theorem Queryable.indexed (h : e.Queryable) {L : Level} (hL : e.levels.lookup l = some L) :
    e.Indexed l L :=
  ⟨h.canonical l L hL, fun blks idx hread hidx ↦ h.pgm l L blks idx hL hread hidx⟩

/-- A level that stays is as queryable as it was. -/
theorem SameLevel.indexed (h : SameLevel e e' l) (hconfig : e'.config = e.config) {L : Level}
    (hL : e.levels.lookup l = some L) (hi : e.Indexed l L) : e'.Indexed l L := by
  have hread : ∀ {blks}, e'.ReadAs L.blockIds blks ↔ e.ReadAs L.blockIds blks := fun {blks} ↦
    ⟨fun hr ↦ hr.congr fun b hb ↦ (h.blocks L hL b hb).symm, fun hr ↦ hr.congr (h.blocks L hL)⟩
  constructor
  · obtain ⟨blks, hr, hcanon⟩ := hi.canonical
    exact ⟨blks, hread.mpr hr, hconfig ▸ hcanon⟩
  · exact fun blks idx hr hidx ↦ hi.pgm blks idx (hread.mp hr) (h.pgm ▸ hidx)

/-! ## Sessions -/

/-- Runs of legal calls, with the active levels, newest first, and the batches published so far,
the latest first. -/
inductive Session (config : Config) :
    Engine V → List LevelId → List (List (Record V)) → Prop
  | init : Session config (Engine.init config) [] []
  | buildLevel {e e' : Engine V} {plan batches records l} (h : Session config e plan batches)
    (hnodup : (records.map (·.key)).Nodup) (hrun : (buildLevel records none).run e = .ok l e') :
    Session config e' (l :: plan) (records :: batches)
  | createUpdateLevel {e e' : Engine V} {plan batches records l}
    (h : Session config e plan batches) (hne : records ≠ [])
    (hnodup : (records.map (·.key)).Nodup)
    (hrun : (createUpdateLevel records).run e = .ok l e') :
    Session config e' (l :: plan) (records :: batches)
  | buildLevelPgm {e e' : Engine V} {plan batches l idx} (h : Session config e plan batches)
    (hrun : (buildLevelPgm l).run e = .ok idx e') : Session config e' plan batches
  | merge {e e' : Engine V} {pre newer older post batches r}
    (h : Session config e (pre ++ newer :: older :: post) batches)
    (hrun : (mergeLevelsBlocking newer older).run e = .ok r e') :
    Session config e' (pre ++ r.outputLevelId :: post) batches

/-- The invariant of sessions. -/
structure Serves (config : Config) (e : Engine V) (plan : List LevelId)
    (batches : List (List (Record V))) : Prop where
  wellFormed : e.WellFormed
  config : e.config = config
  nodup : plan.Nodup
  active : ∀ l, l ∈ e.levels ↔ l ∈ plan
  not_retired : ∀ l ∈ plan, l ∉ e.retiredLevelIds
  queryable : e.Queryable
  answers : ∀ key, plan.findSome? (e.recordAt key) = batches.findSome? (findKey (·.key) key)

variable {config : Config} {plan : List LevelId} {batches : List (List (Record V))}
  {records : List (Record V)}

namespace Serves

theorem init (config : Config) : Serves config (Engine.init config : Engine V) [] [] where
  wellFormed := WellFormed.init config
  config := rfl
  nodup := List.nodup_nil
  active _ := iff_of_false Finmap.notMem_empty List.not_mem_nil
  not_retired _ hl := absurd hl List.not_mem_nil
  queryable := (WellFormed.init config).toCoherent.queryable fun _ _ hL ↦
    absurd (Finmap.mem_of_lookup_eq_some hL) Finmap.notMem_empty
  answers _ := rfl

/-- The levels of the order are active and canonical. -/
theorem canonicalLevel (h : Serves config e plan batches) (hl : l ∈ plan) :
    e.CanonicalLevel l := by
  obtain ⟨L, hL⟩ := Finmap.mem_iff.mp ((h.active l).mpr hl)
  obtain ⟨blks, hread, hcanon⟩ := h.queryable.canonical l L hL
  exact ⟨blks, ⟨h.not_retired l hl, L, hL, hread⟩, hcanon⟩

end Serves

/-! ### Publishing a batch -/

/-- A record is found in a batch or in the sorted batch alike. -/
theorem findKey_sortRecords (hnodup : (records.map (·.key)).Nodup) (key : RecordKey) :
    findKey (·.key) key (sortRecords records) = findKey (·.key) key records :=
  (findKey_perm (List.perm_insertionSort _ records).symm hnodup key).symm

/-- The records of a level. -/
theorem recordAt_eq {L : Level} {blks : List (Block V)} (hL : e.levels.lookup l = some L)
    (hread : e.ReadAs L.blockIds blks) :
    e.recordAt key l = findKey (·.key) key (blockRecords blks) := by
  rw [recordAt, recordsOf_eq hL hread]

/-- A new level leaves the others alone. -/
theorem Serves.sameLevel_created (h : Serves config e plan batches) {blks : List (Block V)}
    (hc : Created e.withNewLevel e' ⟨e.nextLevelId⟩ [] blks) (hl : l ∈ plan) :
    SameLevel e e' l := by
  have hwf := h.wellFormed.withNewLevel
  have hne : l ≠ ⟨e.nextLevelId⟩ := fun heq ↦
    h.wellFormed.fresh_level (heq ▸ (h.active l).mpr hl)
  refine ⟨(hc.levels l hne).trans (Finmap.lookup_insert_of_ne _ hne), hc.pgms l hne, ?_⟩
  intro L hL b hb
  exact hc.blockAt_old hwf.toCoherent (hwf.free_slots _) (h.wellFormed.mapped l L hL b hb)

/-- The records of a new level are those of its batch, sorted. -/
theorem Created.sorted_batch {blks : List (Block V)}
    (hc : Created e.withNewLevel e' ⟨e.nextLevelId⟩ [] blks)
    (hrecs : blks.map (·.records) = chunks e.config.blockCapacity (sortRecords records)) :
    ∃ L, e'.levels.lookup ⟨e.nextLevelId⟩ = some L ∧ e'.ReadAs L.blockIds blks ∧
      blockRecords blks = sortRecords records := by
  obtain ⟨L, hL, hids⟩ := hc.level
  replace hids : L.blockIds = e.newBlockIds blks.length := hids
  refine ⟨L, hL, hids ▸ hc.forall₂_new, ?_⟩
  rw [blockRecords, hrecs, flatten_chunks e.config.blockCapacity_pos]

/-- A new level with the blocks of a batch is the newest one. -/
theorem Serves.created (h : Serves config e plan batches)
    (hnodup : (records.map (·.key)).Nodup) {blks : List (Block V)}
    (hc : Created e.withNewLevel e' ⟨e.nextLevelId⟩ [] blks)
    (hrecs : blks.map (·.records) = chunks e.config.blockCapacity (sortRecords records)) :
    Serves config e' (⟨e.nextLevelId⟩ :: plan) (records :: batches) := by
  have hwf := h.wellFormed
  obtain ⟨L, hL, hread, hflat⟩ := hc.sorted_batch hrecs
  have hsame : ∀ l ∈ plan, SameLevel e e' l := fun l ↦ h.sameLevel_created hc
  have hold : ∀ l, l ≠ ⟨e.nextLevelId⟩ → e'.levels.lookup l = e.levels.lookup l := fun l hne ↦
    (hc.levels l hne).trans (Finmap.lookup_insert_of_ne _ hne)
  exact {
    wellFormed := hwf.withNewLevel.created (L := Level.empty _) (Finmap.lookup_insert _) hc
    config := hc.config.trans h.config
    nodup := List.nodup_cons.mpr ⟨fun hmem ↦ hwf.fresh_level ((h.active _).mpr hmem), h.nodup⟩
    active := fun l ↦ by
      rw [List.mem_cons, Finmap.mem_iff]
      by_cases hl : l = ⟨e.nextLevelId⟩
      · rw [hl, hL]; simp
      · rw [hold l hl, ← h.active, Finmap.mem_iff]; simp [hl]
    not_retired := fun l hl ↦ by
      rw [hc.retired]
      rcases List.mem_cons.mp hl with rfl | hl
      · exact hwf.fresh_retired
      · exact h.not_retired l hl
    queryable := hc.coherent.queryable fun l L' hL' ↦ by
      by_cases hl : l = ⟨e.nextLevelId⟩
      · subst hl
        cases hL.symm.trans hL'
        refine ⟨⟨blks, hread, ?_, ?_, ?_⟩, fun blks' idx _ hidx ↦ ?_⟩
        · rw [hc.config]; exact hc.capacity
        · rw [hrecs, hc.config]; exact packed_chunks e.config.blockCapacity_pos _
        · rw [hflat]; exact sortedBy_insertionSort hnodup
        · exact absurd (Finmap.mem_of_lookup_eq_some (hc.pgm idx hidx)) hwf.fresh_pgm
      · rw [hold l hl] at hL'
        exact (hsame l ((h.active l).mp (Finmap.mem_of_lookup_eq_some hL'))).indexed hc.config hL'
          (h.queryable.indexed hL')
    answers := fun key ↦ by
      rw [List.findSome?_cons, List.findSome?_cons, recordAt_eq hL hread, hflat,
        findKey_sortRecords hnodup, findSome?_congr hsame, h.answers] }

/-- `create_update_level` is `build_level` on the sorted batch. -/
theorem run_createUpdateLevel (hne : records ≠ []) (hnodup : (records.map (·.key)).Nodup) :
    (createUpdateLevel records).run e = (buildLevel (sortRecords records) none).run e := by
  have hd : Dataset.fromRecords records =
      .ok ⟨sortRecords records, sortedBy_insertionSort hnodup⟩ :=
    fromRecords_eq_ok.mpr ⟨hnodup, rfl⟩
  unfold createUpdateLevel
  extract_lets body
  rw [if_neg hne]
  simp only [body, hd]
  rfl

theorem Serves.run_buildLevel (h : Serves config e plan batches)
    (hnodup : (records.map (·.key)).Nodup) :
    ∃ e', (buildLevel records none).run e = .ok ⟨e.nextLevelId⟩ e' ∧
      Serves config e' (⟨e.nextLevelId⟩ :: plan) (records :: batches) := by
  obtain ⟨e', blks, hrun, hc, hrecs⟩ := h.wellFormed.run_buildLevel hnodup
  exact ⟨e', hrun, h.created hnodup hc hrecs⟩

theorem Serves.run_createUpdateLevel (h : Serves config e plan batches) (hne : records ≠ [])
    (hnodup : (records.map (·.key)).Nodup) :
    ∃ e', (createUpdateLevel records).run e = .ok ⟨e.nextLevelId⟩ e' ∧
      Serves config e' (⟨e.nextLevelId⟩ :: plan) (records :: batches) := by
  have hsorted : SortedBy (·.key) (sortRecords records) := sortedBy_insertionSort hnodup
  obtain ⟨e', blks, hrun, hc, hrecs⟩ := h.wellFormed.run_buildLevel hsorted.nodup_keys
  rw [sortRecords_eq hsorted] at hrecs
  exact ⟨e', (Engine.run_createUpdateLevel hne hnodup).trans hrun, h.created hnodup hc hrecs⟩

/-- A batch has become the newest level, which has no PGM yet; the other levels stay. -/
structure BatchAdded (e e' : Engine V) (plan : List LevelId) (records : List (Record V)) : Prop where
  nodup : (records.map (·.key)).Nodup
  same : ∀ l ∈ plan, SameLevel e e' l
  recordsOf : e'.recordsOf ⟨e.nextLevelId⟩ = sortRecords records
  no_pgm : (⟨e.nextLevelId⟩ : LevelId) ∉ e'.pgmIndexes
  retired : e'.retiredLevelIds = e.retiredLevelIds
  nextLevelId : e'.nextLevelId = e.nextLevelId + 1

/-- What a returned `build_level` has done. -/
theorem Serves.buildLevel_eq_ok (h : Serves config e plan batches)
    (hrun : (buildLevel records none).run e = .ok l e') : l = ⟨e.nextLevelId⟩ ∧
      Serves config e' (⟨e.nextLevelId⟩ :: plan) (records :: batches) ∧
      BatchAdded e e' plan records := by
  obtain ⟨d, hd, -⟩ := run_liftExcept_bind_eq_ok.mp hrun
  obtain ⟨hnodup, -⟩ := fromRecords_eq_ok.mp hd
  obtain ⟨e₁, blks, hrun₁, hc, hrecs⟩ := h.wellFormed.run_buildLevel hnodup
  cases hrun.symm.trans hrun₁
  obtain ⟨L, hL, hread, hflat⟩ := hc.sorted_batch hrecs
  refine ⟨rfl, h.created hnodup hc hrecs, hnodup, fun l ↦ h.sameLevel_created hc, ?_, ?_,
    hc.retired, hc.nextLevelId⟩
  · rw [recordsOf_eq hL hread, hflat]
  · intro hmem
    obtain ⟨idx, hidx⟩ := Finmap.mem_iff.mp hmem
    exact h.wellFormed.fresh_pgm (Finmap.mem_of_lookup_eq_some (hc.pgm idx hidx))

/-- What a returned `create_update_level` has done. -/
theorem Serves.createUpdateLevel_eq_ok (h : Serves config e plan batches)
    (hrun : (createUpdateLevel records).run e = .ok l e') : l = ⟨e.nextLevelId⟩ ∧
      (∃ batches', Serves config e' (⟨e.nextLevelId⟩ :: plan) batches') ∧
      BatchAdded e e' plan records := by
  have hne : records ≠ [] := by
    rintro rfl
    cases hrun
  have hnodup : (records.map (·.key)).Nodup := by
    have hbody := hrun
    unfold createUpdateLevel at hbody
    extract_lets body at hbody
    rw [if_neg hne] at hbody
    obtain ⟨d, hd, -⟩ := run_liftExcept_bind_eq_ok.mp hbody
    exact (fromRecords_eq_ok.mp hd).1
  have hsorted : SortedBy (·.key) (sortRecords records) := sortedBy_insertionSort hnodup
  rw [Engine.run_createUpdateLevel hne hnodup] at hrun
  obtain ⟨rfl, hserves, hadded⟩ := h.buildLevel_eq_ok hrun
  refine ⟨rfl, ⟨_, hserves⟩, hnodup, hadded.same, ?_, hadded.no_pgm, hadded.retired,
    hadded.nextLevelId⟩
  rw [hadded.recordsOf, sortRecords_eq hsorted]

/-! ### Building a PGM -/

/-- The state after a PGM has been built. -/
theorem Serves.buildLevelPgm (h : Serves config e plan batches) {idx : BatchPgmIndex}
    (hrun : (buildLevelPgm l).run e = .ok idx e') : Serves config e' plan batches := by
  obtain ⟨ε, L, blks, hε, hret, hL, hread, hidx, rfl⟩ := buildLevelPgm_eq_ok.mp hrun
  have hblocks : ∀ b, ((e.afterReads (e.slotsOf L.blockIds)).setPgm l idx).blockAt b =
      e.blockAt b := fun b ↦ afterReads_blockAt e _ b
  have hrecord : ∀ key, ((e.afterReads (e.slotsOf L.blockIds)).setPgm l idx).recordAt key =
      e.recordAt key := fun key ↦ (sameContents_afterReads e _).recordAt
  have hwf : ((e.afterReads (e.slotsOf L.blockIds)).setPgm l idx).WellFormed :=
    (h.wellFormed.afterReads _).setPgm (Finmap.mem_of_lookup_eq_some hL) idx
  exact {
    wellFormed := hwf
    config := h.config
    nodup := h.nodup
    active := h.active
    not_retired := h.not_retired
    queryable := hwf.toCoherent.queryable fun l' L' hL' ↦ by
      by_cases hl : l' = l
      · subst hl
        cases hL.symm.trans hL'
        obtain ⟨blks', hread', hcanon⟩ := h.queryable.canonical l' L hL
        refine ⟨⟨blks', hread'.congr fun b _ ↦ hblocks b, hcanon⟩, fun blks₁ idx₁ hr₁ hidx₁ ↦ ?_⟩
        change (e.pgmIndexes.insert l' idx).lookup l' = some idx₁ at hidx₁
        rw [Finmap.lookup_insert] at hidx₁
        cases hidx₁
        cases hread.unique (hr₁.congr fun b _ ↦ (hblocks b).symm)
        exact ⟨ε, hidx⟩
      · have hsame : SameLevel e ((e.afterReads (e.slotsOf L.blockIds)).setPgm l idx) l' :=
          ⟨rfl, Finmap.lookup_insert_of_ne _ hl, fun _ _ b _ ↦ hblocks b⟩
        exact hsame.indexed rfl hL' (h.queryable.indexed hL')
    answers := fun key ↦ by rw [hrecord, h.answers] }

/-- The PGM of an active level can be built when epsilon is configured. -/
theorem Serves.run_buildLevelPgm (h : Serves config e plan batches) {ε : Nat}
    (hε : config.pgmEpsilon = some ε) (hl : l ∈ plan) :
    ∃ idx e', (Engine.buildLevelPgm l).run e = .ok idx e' := by
  obtain ⟨blks, ⟨hret, L, hL, hread⟩, hcanon⟩ := h.canonicalLevel hl
  obtain ⟨idx, hidx, -⟩ := buildBatchPgm_spec hcanon.sorted.map_keys ε
  exact ⟨idx, _, buildLevelPgm_eq_ok.mpr ⟨ε, L, blks, h.config ▸ hε, hret, hL, hread, hidx, rfl⟩⟩

/-! ### Merging neighbours -/

section Merge

variable {pre post : List LevelId} {newer older : LevelId}

theorem CanonicalLevel.sorted (h : e.CanonicalLevel l) : SortedBy (·.key) (e.recordsOf l) := by
  obtain ⟨blks, ⟨-, L, hL, hread⟩, hcanon⟩ := h
  rw [recordsOf_eq hL hread]
  exact hcanon.sorted

/-- The output of a merge is active and canonical, and holds the merged records. -/
theorem Published.merged_output (hp : Published e e' newer older) : ∃ L blks,
    (⟨e.nextLevelId⟩ : LevelId) ∉ e'.retiredLevelIds ∧
      e'.levels.lookup ⟨e.nextLevelId⟩ = some L ∧ e'.ReadAs L.blockIds blks ∧
      CanonicalBlocks e.config.blockCapacity blks ∧
      blockRecords blks = e.mergedRecords newer older := by
  obtain ⟨blks, ⟨hret, L, hL, hread⟩, hcanon, hrecs⟩ := hp.output
  refine ⟨L, blks, hret, hL, hread, hcanon, ?_⟩
  rw [blockRecords, hrecs, mergedBlocks, flatten_chunks e.config.blockCapacity_pos]

theorem Published.recordsOf_output (hp : Published e e' newer older) :
    e'.recordsOf ⟨e.nextLevelId⟩ = e.mergedRecords newer older := by
  obtain ⟨L, blks, -, hL, hread, -, hflat⟩ := hp.merged_output
  rw [recordsOf_eq hL hread, hflat]

/-- The output of a merge gives what its inputs have given, the newer one first. -/
theorem Published.recordAt_output (hp : Published e e' newer older)
    (hn : e.CanonicalLevel newer) (ho : e.CanonicalLevel older) (key : RecordKey) :
    e'.recordAt key ⟨e.nextLevelId⟩ = (e.recordAt key newer).or (e.recordAt key older) := by
  rw [recordAt, hp.recordsOf_output, mergedRecords, findKey_unionNewer hn.sorted ho.sorted]
  rfl

/-- The order without the two neighbours has neither of them. -/
theorem Serves.neighbours (h : Serves config e (pre ++ newer :: older :: post) batches) :
    newer ∉ older :: (pre ++ post) ∧ older ∉ pre ++ post ∧ (pre ++ post).Nodup := by
  have hperm : (pre ++ newer :: older :: post).Perm (newer :: older :: (pre ++ post)) :=
    List.perm_middle.trans (List.perm_middle.cons newer)
  have hnodup := hperm.nodup_iff.mp h.nodup
  rw [List.nodup_cons, List.nodup_cons] at hnodup
  exact hnodup

theorem mem_neighbours (hl : l ∈ pre ++ post) : l ∈ pre ++ newer :: older :: post := by
  rw [List.mem_append] at hl ⊢
  exact hl.imp_right fun hl ↦ List.mem_cons_of_mem _ (List.mem_cons_of_mem _ hl)

/-- A merge leaves the levels other than its inputs alone. -/
theorem Serves.sameLevel_merged (h : Serves config e (pre ++ newer :: older :: post) batches)
    (hp : Published e e' newer older) (hl : l ∈ pre ++ post) : SameLevel e e' l := by
  obtain ⟨hn, ho, -⟩ := h.neighbours
  have hln : l ≠ newer := fun heq ↦ hn (heq ▸ List.mem_cons_of_mem _ hl)
  have hlo : l ≠ older := fun heq ↦ ho (heq ▸ hl)
  have hout : l ≠ ⟨e.nextLevelId⟩ := fun heq ↦
    h.wellFormed.fresh_level (heq ▸ (h.active l).mpr (mem_neighbours hl))
  obtain ⟨hlevel, hpgm⟩ := hp.levels l hln hlo hout
  exact ⟨hlevel, hpgm, fun L hL ↦ hp.blocks l L hln hlo hL⟩

/-- The output takes the place of the two levels. -/
theorem Serves.merged (h : Serves config e (pre ++ newer :: older :: post) batches)
    (hp : Published e e' newer older) :
    Serves config e' (pre ++ ⟨e.nextLevelId⟩ :: post) batches := by
  have hnewer : e.CanonicalLevel newer := h.canonicalLevel (by simp)
  have holder : e.CanonicalLevel older := h.canonicalLevel (by simp)
  have hperm : (pre ++ newer :: older :: post).Perm (newer :: older :: (pre ++ post)) :=
    List.perm_middle.trans (List.perm_middle.cons newer)
  obtain ⟨hn, ho, hnodup⟩ := h.neighbours
  have hfresh : ∀ l ∈ pre ++ newer :: older :: post, l ≠ ⟨e.nextLevelId⟩ := fun l hl heq ↦
    h.wellFormed.fresh_level (heq ▸ (h.active l).mpr hl)
  have hother : ∀ {l}, l ∈ pre ++ post → l ≠ newer ∧ l ≠ older := fun hl ↦
    ⟨fun heq ↦ hn (heq ▸ List.mem_cons_of_mem _ hl), fun heq ↦ ho (heq ▸ hl)⟩
  have hsame : ∀ l ∈ pre ++ post, SameLevel e e' l := fun l hl ↦ h.sameLevel_merged hp hl
  obtain ⟨L, blks, houtret, hL, hread, hcanon, hflat⟩ := hp.merged_output
  have hout : (pre ++ ⟨e.nextLevelId⟩ :: post).Perm (⟨e.nextLevelId⟩ :: (pre ++ post)) :=
    List.perm_middle
  have hactive : ∀ l, l ∈ e'.levels ↔ l = ⟨e.nextLevelId⟩ ∨ l ∈ pre ++ post := fun l ↦ by
    by_cases hlout : l = ⟨e.nextLevelId⟩
    · rw [hlout]
      exact iff_of_true (Finmap.mem_of_lookup_eq_some hL) (Or.inl rfl)
    by_cases hln : l = newer
    · rw [hln]
      refine iff_of_false hp.newer_gone ?_
      rintro (heq | hmem)
      · exact hlout (hln.trans heq)
      · exact hn (List.mem_cons_of_mem _ hmem)
    by_cases hlo : l = older
    · rw [hlo]
      refine iff_of_false hp.older_gone ?_
      rintro (heq | hmem)
      · exact hlout (hlo.trans heq)
      · exact ho hmem
    have hstays : l ∈ e'.levels ↔ l ∈ e.levels := by
      rw [Finmap.mem_iff, Finmap.mem_iff, (hp.levels l hln hlo hlout).1]
    rw [hstays, h.active, hperm.mem_iff]
    simp [hln, hlo, hlout]
  exact {
    wellFormed := hp.wellFormed
    config := hp.config.trans h.config
    nodup := hout.nodup_iff.mpr
      (List.nodup_cons.mpr ⟨fun hmem ↦ hfresh _ (mem_neighbours hmem) rfl, hnodup⟩)
    active := fun l ↦ by rw [hactive, hout.mem_iff, List.mem_cons]
    not_retired := fun l hl ↦ by
      rcases List.mem_cons.mp (hout.mem_iff.mp hl) with rfl | hl
      · exact houtret
      · obtain ⟨hln, hlo⟩ := hother hl
        rw [hp.retired, Finset.mem_insert, Finset.mem_insert, not_or, not_or]
        exact ⟨hlo, hln, h.not_retired l (mem_neighbours hl)⟩
    queryable := hp.wellFormed.toCoherent.queryable fun l L' hL' ↦ by
      rcases (hactive l).mp (Finmap.mem_of_lookup_eq_some hL') with rfl | hl
      · cases hL.symm.trans hL'
        refine ⟨⟨blks, hread, hp.config ▸ hcanon⟩, fun blks' idx' hread' hidx' ↦ ?_⟩
        obtain ⟨ε, idx, -, hidx, hpgm⟩ := hp.index
        cases hpgm.symm.trans hidx'
        cases hread.unique hread'
        rw [hflat]
        exact ⟨ε, hidx⟩
      · have hL := (hsame l hl).level ▸ hL'
        exact (hsame l hl).indexed hp.config hL (h.queryable.indexed hL)
    answers := fun key ↦ by
      have hpre : ∀ l ∈ pre, SameLevel e e' l := fun l hl ↦ hsame l (List.mem_append_left _ hl)
      have hpost : ∀ l ∈ post, SameLevel e e' l := fun l hl ↦ hsame l (List.mem_append_right _ hl)
      rw [← h.answers, List.findSome?_append, List.findSome?_append, List.findSome?_cons,
        List.findSome?_cons, List.findSome?_cons, findSome?_congr hpre, findSome?_congr hpost,
        hp.recordAt_output hnewer holder]
      cases e.recordAt key newer <;> rfl }

/-- Neighbours of the order can be merged when epsilon is configured. -/
theorem Serves.run_merge (h : Serves config e (pre ++ newer :: older :: post) batches) {ε : Nat}
    (hε : config.pgmEpsilon = some ε) :
    ∃ r e', (mergeLevelsBlocking newer older).run e = .ok r e' ∧
      Serves config e' (pre ++ r.outputLevelId :: post) batches := by
  have hne : newer ≠ older := by
    have := (List.nodup_append.mp h.nodup).2.1
    rintro rfl
    simp at this
  have ha : MergeAccepted .none e newer older := {
    distinct := hne
    canonical_newer := h.canonicalLevel (by simp)
    canonical_older := h.canonicalLevel (by simp)
    epsilon := by rw [h.config, hε]; simp
    createBlock := fun _ _ ↦ rfl
    buildLevelPgm := rfl }
  obtain ⟨-, n, o, e₂, e₄, e₅, blks, idx, hsteps, hrun⟩ | ⟨hnot, -⟩ :=
    h.wellFormed.mergeBlockingWith_cases .none newer older
  · exact ⟨_, _, hrun, h.merged (hsteps.published h.wellFormed hne)⟩
  · exact absurd ha hnot

/-- What a returned merge of neighbours has done. -/
theorem Serves.merge_eq_ok (h : Serves config e (pre ++ newer :: older :: post) batches)
    {r : MergeResult} (hrun : (mergeLevelsBlocking newer older).run e = .ok r e') :
    r = e.mergeResult newer older ∧ Published e e' newer older := by
  obtain ⟨ha, n, o, e₂, e₄, e₅, blks, idx, hsteps, hrun₁⟩ | ⟨-, err, e₁, hrun₁, -⟩ :=
    h.wellFormed.mergeBlockingWith_cases .none newer older
  · cases hrun.symm.trans hrun₁
    exact ⟨rfl, hsteps.published h.wellFormed ha.distinct⟩
  · cases hrun.symm.trans hrun₁

end Merge

/-! ## Runs of legal calls -/

/-- Every session serves its batches. -/
theorem Session.serves (h : Session config e plan batches) {ε : Nat}
    (hε : config.pgmEpsilon = some ε) : Serves config e plan batches := by
  induction h with
  | init => exact Serves.init config
  | buildLevel _ hnodup hrun ih =>
    obtain ⟨e', hrun', hserves⟩ := ih.run_buildLevel hnodup
    cases hrun.symm.trans hrun'
    exact hserves
  | createUpdateLevel _ hne hnodup hrun ih =>
    obtain ⟨e', hrun', hserves⟩ := ih.run_createUpdateLevel hne hnodup
    cases hrun.symm.trans hrun'
    exact hserves
  | buildLevelPgm _ hrun ih => exact ih.buildLevelPgm hrun
  | merge _ hrun ih =>
    obtain ⟨r, e', hrun', hserves⟩ := ih.run_merge hε
    cases hrun.symm.trans hrun'
    exact hserves

/-- The result of a query for the key: the record of the latest batch that has it, found in
the first of the non-empty levels that has it. -/
structure Answers (e : Engine V) (plan : List LevelId) (batches : List (List (Record V)))
    (key : RecordKey) (r : MultiLevelLookupResult V) : Prop where
  record : r.record = batches.findSome? fun batch ↦ batch.find? fun record ↦ record.key = key
  found : r.found = true ↔ ∃ batch ∈ batches, ∃ record ∈ batch, record.key = key
  miss : r.found = false → r.hitLevelId = none ∧ r.searchedLevelIds = plan.filter e.hasBlocks
  hit : r.found = true → ∃ pre l post, plan.filter e.hasBlocks = pre ++ l :: post ∧
    r.hitLevelId = some l ∧ r.searchedLevelIds = pre ++ [l] ∧ e.recordAt key l = r.record ∧
    ∀ l' ∈ pre, e.recordAt key l' = none

/-- A level without blocks has no records. -/
theorem recordsOf_of_not_hasBlocks (h : e.hasBlocks l = false) : e.recordsOf l = [] := by
  unfold hasBlocks at h
  unfold recordsOf
  cases hL : e.levels.lookup l with
  | none => rfl
  | some L =>
    simp only [hL, ne_eq, decide_not, Bool.not_eq_false', decide_eq_true_eq] at h
    simp only [h, List.filterMap_nil, blockRecords_nil]

theorem recordAt_of_not_hasBlocks (h : e.hasBlocks l = false) : e.recordAt key l = none := by
  rw [recordAt, recordsOf_of_not_hasBlocks h]
  rfl

/-- The blocks of a canonical level are not empty. -/
theorem CanonicalLevel.hasBlocks_iff (h : e.CanonicalLevel l) :
    e.hasBlocks l = true ↔ e.recordsOf l ≠ [] := by
  constructor
  · intro hblocks hnil
    obtain ⟨blks, ⟨-, L, hL, hread⟩, hcanon⟩ := h
    rw [recordsOf_eq hL hread] at hnil
    simp only [hasBlocks, hL] at hblocks
    generalize L.blockIds = ids at hread hblocks
    cases hread with
    | nil => cases hblocks
    | cons _ _ =>
      have hpos := hcanon.packed.length_pos e.config.blockCapacity_pos _ List.mem_cons_self
      rw [blockRecords_cons] at hnil
      exact List.ne_nil_of_length_pos hpos (List.append_eq_nil_iff.mp hnil).1
  · intro hne
    rw [← Bool.not_eq_false]
    exact fun hblocks ↦ hne (recordsOf_of_not_hasBlocks hblocks)

theorem findSome?_filter_hasBlocks (ls : List LevelId) :
    (ls.filter e.hasBlocks).findSome? (e.recordAt key) = ls.findSome? (e.recordAt key) := by
  induction ls with
  | nil => rfl
  | cons l ls ih =>
    cases h : e.hasBlocks l with
    | false =>
      rw [List.filter_cons_of_neg (by simp [h]), List.findSome?_cons,
        recordAt_of_not_hasBlocks h, ih]
    | true => rw [List.filter_cons_of_pos h, List.findSome?_cons, List.findSome?_cons, ih]

/-- The search ends with the first level that has the key. -/
theorem searchedLevels_of_hit {pre post : List LevelId}
    (hpre : ∀ l' ∈ pre, e.recordAt key l' = none) (hl : (e.recordAt key l).isSome) : e.searchedLevels key (pre ++ l :: post) = pre ++ [l] := by
  induction pre with
  | nil => rw [List.nil_append, searchedLevels, if_pos hl]; rfl
  | cons l' pre ih =>
    obtain ⟨hl', hpre⟩ := List.forall_mem_cons.mp hpre
    rw [List.cons_append, searchedLevels, hl', if_neg (by simp), ih hpre]
    rfl

theorem searchedLevels_of_miss {ls : List LevelId} (h : ∀ l ∈ ls, e.recordAt key l = none) :
    e.searchedLevels key ls = ls := by
  induction ls with
  | nil => rfl
  | cons l ls ih =>
    obtain ⟨hl, hls⟩ := List.forall_mem_cons.mp h
    rw [searchedLevels, hl, if_neg (by simp), ih hls]

/-- A query over all active levels, newest first. -/
theorem Serves.run_lookupLevels (h : Serves config e plan batches)
    (hpgm : ∀ l ∈ plan, e.hasBlocks l = true → l ∈ e.pgmIndexes) (key : RecordKey) :
    ∃ r e', (lookupLevels plan key).run e = .ok r e' ∧ Answers e plan batches key r := by
  have hall : ∀ l ∈ plan, e.planError l = none := fun l hl ↦ by
    obtain ⟨L, hL⟩ := Finmap.mem_iff.mp ((h.active l).mpr hl)
    simp only [planError, hL]
    split_ifs with hblocks hret hidx
    · rfl
    · exact absurd hret (h.not_retired l hl)
    · rfl
    · exact absurd (hpgm l hl (by simp [hasBlocks, hL, hblocks])) hidx
  have hrecord : (plan.filter e.hasBlocks).findSome? (e.recordAt key) =
      batches.findSome? (findKey (·.key) key) := by
    rw [findSome?_filter_hasBlocks, h.answers]
  refine ⟨_, _, h.queryable.run_lookupLevels h.nodup hall key, hrecord, ?_, fun hfound ↦ ?_,
    fun hfound ↦ ?_⟩
  · rw [queryAnswer, hrecord, List.findSome?_isSome_iff]
    simp only [findKey_isSome, List.mem_map]
  · have hnone := Option.not_isSome_iff_eq_none.mp (ne_true_of_eq_false hfound)
    rw [List.findSome?_eq_none_iff] at hnone
    refine ⟨List.find?_eq_none.mpr fun l hl ↦ ?_, searchedLevels_of_miss hnone⟩
    rw [hnone l hl]
    simp
  · obtain ⟨record, hsome⟩ := Option.isSome_iff_exists.mp hfound
    obtain ⟨pre, l, post, hsplit, hl, hpre⟩ := List.findSome?_eq_some_iff.mp hsome
    have hisSome : (e.recordAt key l).isSome := by rw [hl]; rfl
    refine ⟨pre, l, post, hsplit, ?_, ?_, ?_, hpre⟩
    · refine List.find?_eq_some_iff_append.mpr ⟨hisSome, pre, post, hsplit, fun l' hl' ↦ ?_⟩
      rw [hpre l' hl']
      rfl
    · rw [queryAnswer, hsplit]
      exact searchedLevels_of_hit hpre hisSome
    · exact hl.trans hsome.symm

/-- Every query over all active levels that returns, returns their answer. -/
theorem Serves.answers_of_run (h : Serves config e plan batches)
    {r : MultiLevelLookupResult V} (hrun : (lookupLevels plan key).run e = .ok r e') :
    Answers e plan batches key r := by
  have hpgm : ∀ l ∈ plan, e.hasBlocks l = true → l ∈ e.pgmIndexes := fun l hl hblocks ↦ by
    have herr := (plan_of_run_eq_ok hrun).2 l hl
    obtain ⟨L, hL⟩ := Finmap.mem_iff.mp ((h.active l).mpr hl)
    simp only [hasBlocks, hL, ne_eq, decide_not, Bool.not_eq_true', decide_eq_false_iff_not]
      at hblocks
    simp only [planError, hL, if_neg hblocks, if_neg (h.not_retired l hl)] at herr
    split_ifs at herr with hidx
    exact hidx
  obtain ⟨r', e'', hrun', hanswers⟩ := h.run_lookupLevels hpgm key
  cases hrun.symm.trans hrun'
  exact hanswers

/-- In a run of legal calls every further legal call returns, the newest-first order lists the
active levels, and a query over them gives the record of the latest batch that has the key.
Since the batches alone decide what is found, merges never change an answer. -/
theorem lookupLevels_newest_first {ε : Nat} (hε : config.pgmEpsilon = some ε)
    (h : Session config e plan batches) :
    ((∀ records, (records.map (·.key)).Nodup → ∃ l e', (buildLevel records none).run e = .ok l e') ∧
      (∀ records, records ≠ [] → (records.map (·.key)).Nodup →
        ∃ l e', (createUpdateLevel records).run e = .ok l e') ∧
      (∀ l ∈ plan, ∃ idx e', (buildLevelPgm l).run e = .ok idx e') ∧
      ∀ pre newer older post, plan = pre ++ newer :: older :: post →
        ∃ r e', (mergeLevelsBlocking newer older).run e = .ok r e') ∧
    (∀ l, l ∈ e.levels ↔ l ∈ plan) ∧
    ((∀ l ∈ plan, e.hasBlocks l = true → l ∈ e.pgmIndexes) → ∀ key,
      (∃ r e', (lookupLevels plan key).run e = .ok r e' ∧ Answers e plan batches key r) ∧
      ∀ e₂ plan₂ r r₂ e' e₂', Session config e₂ plan₂ batches →
        (lookupLevels plan key).run e = .ok r e' →
        (lookupLevels plan₂ key).run e₂ = .ok r₂ e₂' →
        r₂.found = r.found ∧ r₂.record = r.record) := by
  have hs := h.serves hε
  refine ⟨⟨fun records hnodup ↦ ?_, fun records hne hnodup ↦ ?_, fun l hl ↦ ?_, ?_⟩, hs.active,
    fun hpgm key ↦ ⟨hs.run_lookupLevels hpgm key, ?_⟩⟩
  · obtain ⟨e', hrun, -⟩ := hs.run_buildLevel hnodup
    exact ⟨_, e', hrun⟩
  · obtain ⟨e', hrun, -⟩ := hs.run_createUpdateLevel hne hnodup
    exact ⟨_, e', hrun⟩
  · exact hs.run_buildLevelPgm hε hl
  · rintro pre newer older post rfl
    obtain ⟨r, e', hrun, -⟩ := hs.run_merge hε
    exact ⟨r, e', hrun⟩
  · intro e₂ plan₂ r r₂ e' e₂' h₂ hrun hrun₂
    have ha := hs.answers_of_run hrun
    have ha₂ := (h₂.serves hε).answers_of_run hrun₂
    exact ⟨Bool.eq_iff_iff.mpr (ha₂.found.trans ha.found.symm), ha₂.record.trans ha.record.symm⟩

section TwoBatches

/-- Two batches, the latest first. -/
def newBatch : List (Record Nat) := [{ key := ⟨2⟩, value := 1 }, { key := ⟨3⟩, value := 1 }]

def oldBatch : List (Record Nat) := [{ key := ⟨1⟩, value := 0 }, { key := ⟨2⟩, value := 0 }]

/-- The states after the old batch, after both batches, and after their merge. -/
def oldPublished : Engine Nat :=
  finalState ((buildLevel oldBatch none).run (Engine.init ⟨1, some 0, Nat.one_pos⟩))

def bothPublished : Engine Nat := finalState ((buildLevel newBatch none).run oldPublished)

def bothMerged : Engine Nat := finalState ((mergeLevelsBlocking ⟨1⟩ ⟨0⟩).run bothPublished)

theorem session_bothMerged :
    Session ⟨1, some 0, Nat.one_pos⟩ bothMerged [⟨2⟩] [newBatch, oldBatch] := by
  have hold : outcome ((buildLevel oldBatch none).run (Engine.init ⟨1, some 0, Nat.one_pos⟩)) =
      .ok ⟨0⟩ := by decide +kernel
  have hnew : outcome ((buildLevel newBatch none).run oldPublished) = .ok ⟨1⟩ := by
    decide +kernel
  have hmerge : outcome ((mergeLevelsBlocking ⟨1⟩ ⟨0⟩).run bothPublished) =
      .ok ⟨⟨2⟩, ⟨1⟩, ⟨0⟩, 2, 2, 3, 1⟩ := by decide +kernel
  have h₁ : Session ⟨1, some 0, Nat.one_pos⟩ oldPublished [⟨0⟩] [oldBatch] :=
    Session.init.buildLevel (by decide) (outcome_eq_ok.mp hold)
  have h₂ : Session ⟨1, some 0, Nat.one_pos⟩ bothPublished ([] ++ ⟨1⟩ :: ⟨0⟩ :: [])
      [newBatch, oldBatch] := h₁.buildLevel (by decide) (outcome_eq_ok.mp hnew)
  exact h₂.merge (outcome_eq_ok.mp hmerge)

/-- The key 2 is found in the merged level, with the value published last. -/
theorem lookupLevels_bothMerged :
    ∃ r e', (lookupLevels [⟨2⟩] ⟨2⟩).run bothMerged = .ok r e' ∧
      Answers bothMerged [⟨2⟩] [newBatch, oldBatch] ⟨2⟩ r ∧
      r.record = some { key := ⟨2⟩, value := 1 } := by
  obtain ⟨r, e', hrun, hanswers⟩ :=
    ((lookupLevels_newest_first rfl session_bothMerged).2.2 (by decide +kernel) ⟨2⟩).1
  exact ⟨r, e', hrun, hanswers, hanswers.record.trans (by decide)⟩

end TwoBatches

end Engine

end EnhancedLetIndex
