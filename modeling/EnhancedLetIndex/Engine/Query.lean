import EnhancedLetIndex.Engine.Lookup

/-!
# Queries over several levels

`lookup_levels` checks the whole plan before it reads anything: `planError` is what it raises
for one level of a plan without repetitions.  An accepted plan returns `queryAnswer`, the first
record with the key in plan order, and reads what `levelReads` lists for each level up to the
hit.

Neither depends on where the blocks are stored beyond the order of the reads, and the reads
depend on the key only through the search intervals and the hit level.
-/

namespace EnhancedLetIndex

variable {V : Type}

namespace Engine

variable {e : Engine V} {l : LevelId} {plan : List LevelId} {key : RecordKey}

/-! ## The checks of a plan -/

theorem firstDuplicate_eq_none {seen plan : List LevelId} :
    firstDuplicate seen plan = none ↔ plan.Nodup ∧ ∀ l ∈ plan, l ∉ seen := by
  induction plan generalizing seen with
  | nil => simp [firstDuplicate]
  | cons l plan ih =>
    rw [firstDuplicate]
    split_ifs with hl
    · simp [hl]
    · rw [ih]
      simp only [List.mem_cons, not_or, List.nodup_cons, forall_eq_or_imp, hl, not_false_eq_true,
        true_and]
      constructor
      · exact fun h ↦ ⟨⟨fun hmem ↦ (h.2 l hmem).1 rfl, h.1⟩, fun l' hl' ↦ (h.2 l' hl').2⟩
      · rintro ⟨⟨hnot, hnodup⟩, hseen⟩
        exact ⟨hnodup, fun l' hl' ↦ ⟨fun heq ↦ hnot (heq ▸ hl'), hseen l' hl'⟩⟩

/-- The id of a repetition occurs at least twice. -/
theorem count_of_firstDuplicate {seen plan : List LevelId} (h : firstDuplicate seen plan = some l) :
    1 < (seen ++ plan).count l := by
  induction plan generalizing seen with
  | nil => cases h
  | cons l' plan ih =>
    rw [firstDuplicate] at h
    split_ifs at h with hl
    · cases h
      rw [List.count_append, List.count_cons_self]
      have := List.count_pos_iff.mpr hl
      omega
    · have := ih h
      rw [List.cons_append, List.count_cons] at this
      rw [List.count_append, List.count_cons, ← Nat.add_assoc, ← List.count_append]
      exact this

/-- What `lookup_levels` raises for one level of its plan, before it reads anything. -/
def planError (e : Engine V) (l : LevelId) : Option EngineError :=
  match e.levels.lookup l with
  | none => if l ∈ e.retiredLevelIds then some (.retiredLevel l) else some (.unknownLevel l)
  | some L =>
    if L.blockIds = [] then none
    else if l ∈ e.retiredLevelIds then some (.retiredLevel l)
    else if l ∈ e.pgmIndexes then none
    else some (.key l)

/-- The level has blocks. -/
def hasBlocks (e : Engine V) (l : LevelId) : Bool :=
  match e.levels.lookup l with
  | none => false
  | some L => L.blockIds ≠ []

/-- Phase B accepts a plan whose levels raise nothing, and keeps the levels with blocks. -/
theorem run_searchableLevels (h : ∀ l ∈ plan, e.planError l = none) :
    (searchableLevels plan).run e = .ok (plan.filter e.hasBlocks) e := by
  induction plan with
  | nil => rfl
  | cons l plan ih =>
    obtain ⟨hl, hplan⟩ := List.forall_mem_cons.mp h
    rw [searchableLevels, EStateM.run_bind, EStateM.run_get]
    unfold planError at hl
    cases hL : e.levels.lookup l with
    | none => rw [hL] at hl; simp only at hl; split_ifs at hl
    | some L =>
      simp only [hL] at hl ⊢
      by_cases hblocks : L.blockIds = []
      · have hfilter : e.hasBlocks l = false := by simp [hasBlocks, hL, hblocks]
        rw [if_pos hblocks, List.filter_cons_of_neg (by simp [hfilter]), ih hplan]
      · have hfilter : e.hasBlocks l = true := by simp [hasBlocks, hL, hblocks]
        rw [if_neg hblocks] at hl
        split_ifs at hl with hret hpgm
        obtain ⟨idx, hidx⟩ := Finmap.mem_iff.mp hpgm
        rw [if_neg hblocks, run_bind_of_ok (run_pgmIndex hret hidx), run_bind_of_ok (ih hplan),
          List.filter_cons_of_pos hfilter]
        rfl

/-- Phase B raises what the first level with an error raises. -/
theorem run_searchableLevels_error {pre post : List LevelId} {err : EngineError}
    (hpre : ∀ l' ∈ pre, e.planError l' = none) (hl : e.planError l = some err) :
    (searchableLevels (pre ++ l :: post)).run e = .error err e := by
  induction pre with
  | nil =>
    rw [List.nil_append, searchableLevels, EStateM.run_bind, EStateM.run_get]
    unfold planError at hl
    cases hL : e.levels.lookup l with
    | none =>
      simp only [hL] at hl ⊢
      split_ifs at hl ⊢ <;> cases hl <;> rfl
    | some L =>
      simp only [hL] at hl ⊢
      split_ifs at hl with hblocks hret hpgm
      · cases hl
        rw [if_neg hblocks]
        refine run_bind_of_error ?_ _
        simp only [pgmIndex, EStateM.run_bind, EStateM.run_get, if_pos hret, run_throw']
      · cases hl
        rw [if_neg hblocks]
        refine run_bind_of_error ?_ _
        simp only [pgmIndex, EStateM.run_bind, EStateM.run_get, if_neg hret,
          Finmap.lookup_eq_none.mpr hpgm, run_throw']
  | cons l' pre ih =>
    obtain ⟨hl', hpre⟩ := List.forall_mem_cons.mp hpre
    rw [List.cons_append, searchableLevels, EStateM.run_bind, EStateM.run_get]
    unfold planError at hl'
    cases hL : e.levels.lookup l' with
    | none => rw [hL] at hl'; simp only at hl'; split_ifs at hl'
    | some L =>
      simp only [hL] at hl' ⊢
      by_cases hblocks : L.blockIds = []
      · rw [if_pos hblocks, ih hpre]
      · rw [if_neg hblocks] at hl'
        split_ifs at hl' with hret hpgm
        obtain ⟨idx, hidx⟩ := Finmap.mem_iff.mp hpgm
        rw [if_neg hblocks, run_bind_of_ok (run_pgmIndex hret hidx),
          run_bind_of_error (ih hpre)]

/-- Either no level of the plan raises anything, or there is a first one that does. -/
theorem planError_cases (e : Engine V) (plan : List LevelId) :
    (∀ l ∈ plan, e.planError l = none) ∨
      ∃ pre l post err, plan = pre ++ l :: post ∧ (∀ l' ∈ pre, e.planError l' = none) ∧
        e.planError l = some err := by
  induction plan with
  | nil => exact Or.inl fun l hl ↦ absurd hl List.not_mem_nil
  | cons l plan ih =>
    cases hl : e.planError l with
    | some err => exact Or.inr ⟨[], l, plan, err, rfl, by simp, hl⟩
    | none =>
      obtain hall | ⟨pre, l', post, err, rfl, hpre, hl'⟩ := ih
      · exact Or.inl (List.forall_mem_cons.mpr ⟨hl, hall⟩)
      · exact Or.inr ⟨l :: pre, l', post, err, rfl, List.forall_mem_cons.mpr ⟨hl, hpre⟩, hl'⟩

/-! ## The search -/

/-- The mapping and the storage describe the same blocks, every active level is canonical, and
every PGM is the one of the current records of its level. -/
structure Queryable (e : Engine V) : Prop where
  bijective : e.mapping.Bijective
  occupied : ∀ s, s ∈ e.storage.slots ↔ s ∈ e.mapping.physicalToLogical
  canonical : ∀ l L, e.levels.lookup l = some L →
    ∃ blks, e.ReadAs L.blockIds blks ∧ CanonicalBlocks e.config.blockCapacity blks
  pgm : ∀ l L blks idx, e.levels.lookup l = some L → e.ReadAs L.blockIds blks →
    e.pgmIndexes.lookup l = some idx →
    ∃ ε, buildBatchPgm ((blockRecords blks).map (·.key)) ε = .ok idx

/-- The records of a level. -/
def recordsOf (e : Engine V) (l : LevelId) : List (Record V) :=
  match e.levels.lookup l with
  | none => []
  | some L => blockRecords (L.blockIds.filterMap e.blockAt)

/-- The slots that a lookup of the key in the level reads. -/
def levelReads (e : Engine V) (key : RecordKey) (l : LevelId) : List SlotId :=
  match e.levels.lookup l, e.pgmIndexes.lookup l with
  | some L, some idx =>
    match idx.search key with
    | .ok sr => e.readSlots L.blockIds sr
    | .error _ => []
  | _, _ => []

/-- The record of the key in the level. -/
def recordAt (e : Engine V) (key : RecordKey) (l : LevelId) : Option (Record V) :=
  findKey (·.key) key (e.recordsOf l)

/-- The levels up to the first one that has the key. -/
def searchedLevels (e : Engine V) (key : RecordKey) : List LevelId → List LevelId
  | [] => []
  | l :: rest => if (e.recordAt key l).isSome then [l] else l :: searchedLevels e key rest

/-- The answer of the levels, the first one that has the key winning. -/
def queryAnswer (e : Engine V) (key : RecordKey) (ls : List LevelId) : MultiLevelLookupResult V where
  found := (ls.findSome? (e.recordAt key)).isSome
  record := ls.findSome? (e.recordAt key)
  hitLevelId := ls.find? fun l ↦ (e.recordAt key l).isSome
  searchedLevelIds := e.searchedLevels key ls

/-! ### What the answer depends on -/

/-- The two states differ at most in the places and the trace of the blocks. -/
structure SameContents (e e' : Engine V) : Prop where
  config : e'.config = e.config
  levels : e'.levels = e.levels
  retired : e'.retiredLevelIds = e.retiredLevelIds
  pgmIndexes : e'.pgmIndexes = e.pgmIndexes
  blockAt : e'.blockAt = e.blockAt

theorem sameContents_afterReads (e : Engine V) (xs : List SlotId) :
    SameContents e (e.afterReads xs) :=
  ⟨rfl, rfl, rfl, rfl, funext fun b ↦ afterReads_blockAt e xs b⟩

namespace SameContents

variable {e' : Engine V}

theorem planError (h : SameContents e e') (l : LevelId) : e'.planError l = e.planError l := by
  simp only [Engine.planError, h.levels, h.retired, h.pgmIndexes]

theorem hasBlocks (h : SameContents e e') : e'.hasBlocks = e.hasBlocks := by
  funext l
  simp only [Engine.hasBlocks, h.levels]

theorem recordsOf (h : SameContents e e') : e'.recordsOf = e.recordsOf := by
  funext l
  simp only [Engine.recordsOf, h.levels, h.blockAt]

theorem recordAt (h : SameContents e e') : e'.recordAt key = e.recordAt key := by
  funext l
  simp only [Engine.recordAt, h.recordsOf]

theorem searchedLevels (h : SameContents e e') (ls : List LevelId) :
    e'.searchedLevels key ls = e.searchedLevels key ls := by
  induction ls with
  | nil => rfl
  | cons l ls ih => simp only [Engine.searchedLevels, h.recordAt, ih]

theorem queryAnswer (h : SameContents e e') (ls : List LevelId) :
    e'.queryAnswer key ls = e.queryAnswer key ls := by
  simp only [Engine.queryAnswer, h.recordAt, h.searchedLevels]

end SameContents

theorem levelReads_afterReads (xs : List SlotId) :
    (e.afterReads xs).levelReads key = e.levelReads key := rfl

/-! ### Phase C -/

theorem ReadAs.filterMap {ids : List BlockId} {blks : List (Block V)} (h : e.ReadAs ids blks) :
    ids.filterMap e.blockAt = blks := by
  induction h with
  | nil => rfl
  | cons hat _ ih => rw [List.filterMap_cons_some hat, ih]

theorem recordsOf_eq {L : Level} {blks : List (Block V)} (hL : e.levels.lookup l = some L)
    (hread : e.ReadAs L.blockIds blks) : e.recordsOf l = blockRecords blks := by
  simp only [recordsOf, hL, hread.filterMap]

theorem CanonicalBlocks.length_le {c : Nat} {blks : List (Block V)}
    (h : CanonicalBlocks c blks) : ∀ blk ∈ blks, blk.records.length ≤ c := by
  simpa using h.packed.length_le

theorem CanonicalBlocks.fullBefore {c : Nat} {blks : List (Block V)}
    (h : CanonicalBlocks c blks) : FullBefore c blks := h.packed.pairwise

theorem Queryable.afterReads (h : e.Queryable) (xs : List SlotId) :
    (e.afterReads xs).Queryable where
  bijective := h.bijective
  occupied s := by rw [afterReads_slots]; exact h.occupied s
  canonical l L hL := by
    obtain ⟨blks, hread, hcanon⟩ := h.canonical l L hL
    exact ⟨blks, afterReads_readAs.mpr hread, hcanon⟩
  pgm l L blks idx hL hread hidx := h.pgm l L blks idx hL (afterReads_readAs.mp hread) hidx

/-- A level that passes phase B and has blocks is canonical and has its PGM. -/
theorem Queryable.exists_index (h : e.Queryable) (hl : e.planError l = none)
    (hblocks : e.hasBlocks l = true) : ∃ L blks ε idx, l ∉ e.retiredLevelIds ∧
      e.levels.lookup l = some L ∧ e.ReadAs L.blockIds blks ∧
      CanonicalBlocks e.config.blockCapacity blks ∧ e.pgmIndexes.lookup l = some idx ∧
      buildBatchPgm ((blockRecords blks).map (·.key)) ε = .ok idx := by
  unfold planError at hl
  unfold hasBlocks at hblocks
  cases hL : e.levels.lookup l with
  | none => rw [hL] at hblocks; cases hblocks
  | some L =>
    simp only [hL, decide_eq_true_eq] at hl hblocks
    rw [if_neg hblocks] at hl
    split_ifs at hl with hret hpgm
    obtain ⟨idx, hidx⟩ := Finmap.mem_iff.mp hpgm
    obtain ⟨blks, hread, hcanon⟩ := h.canonical l L hL
    obtain ⟨ε, hindex⟩ := h.pgm l L blks idx hL hread hidx
    exact ⟨L, blks, ε, idx, hret, rfl, hread, hcanon, hidx, hindex⟩

/-- A level that passes phase B and has blocks can be looked up in. -/
theorem Queryable.run_lookupLevel (h : e.Queryable) (hl : e.planError l = none)
    (hblocks : e.hasBlocks l = true) (key : RecordKey) :
    ∃ sr, (lookupLevel l key).run e =
      .ok (levelAnswer (e.recordsOf l) key sr) (e.afterReads (e.levelReads key l)) := by
  obtain ⟨L, blks, ε, idx, hret, hL, hread, hcanon, hidx, hindex⟩ := h.exists_index hl hblocks
  obtain ⟨sr, hsearch, hsr, hrun⟩ := Engine.run_lookupLevel hret hL hread hcanon.length_le hidx
    (builtOn_of_buildBatchPgm hindex) key
  rw [levelResult_of_fullBefore hcanon.length_le hcanon.sorted hsr hcanon.fullBefore] at hrun
  refine ⟨sr, ?_⟩
  rw [hrun, recordsOf_eq hL hread]
  simp only [levelReads, hL, hidx, hsearch]

/-- One round of phase C. -/
theorem run_searchLevels_cons {searched ls : List LevelId} {r : SingleLevelLookupResult V}
    {e' : Engine V} (h : (lookupLevel l key).run e = .ok r e') :
    (searchLevels key searched (l :: ls)).run e =
      if r.found then .ok ⟨true, r.record, some l, searched ++ [l]⟩ e'
      else (searchLevels key (searched ++ [l]) ls).run e' := by
  rw [searchLevels, run_bind_of_ok h]
  simp only
  split <;> rfl

/-- Phase C over levels that passed phase B. -/
theorem Queryable.run_searchLevels (h : e.Queryable) {ls searched : List LevelId}
    (hls : ∀ l ∈ ls, e.planError l = none ∧ e.hasBlocks l = true) :
    (searchLevels key searched ls).run e = .ok
      { e.queryAnswer key ls with searchedLevelIds := searched ++ e.searchedLevels key ls }
      (e.afterReads ((e.searchedLevels key ls).flatMap (e.levelReads key))) := by
  induction ls generalizing e searched with
  | nil => simp [searchLevels, searchedLevels, queryAnswer]
  | cons l ls ih =>
    obtain ⟨hl, hrest⟩ := List.forall_mem_cons.mp hls
    obtain ⟨sr, hrun⟩ := h.run_lookupLevel hl.1 hl.2 key
    have hfound : (levelAnswer (e.recordsOf l) key sr).found = (e.recordAt key l).isSome := rfl
    have hrecord : (levelAnswer (e.recordsOf l) key sr).record = e.recordAt key l := rfl
    rw [run_searchLevels_cons hrun, hfound, hrecord]
    cases hrec : e.recordAt key l with
    | some r => simp [queryAnswer, searchedLevels, hrec]
    | none =>
      have hsame := sameContents_afterReads e (e.levelReads key l)
      rw [if_neg (by simp), ih (h.afterReads _) fun l' hl' ↦ by
        rw [hsame.planError, hsame.hasBlocks]; exact hrest l' hl']
      simp [queryAnswer, searchedLevels, hrec, hsame.recordAt, hsame.searchedLevels,
        levelReads_afterReads, afterReads_append]

/-! ## The reads -/

/-- The slots of mapped blocks. -/
theorem map_some_slotsOf {ids : List BlockId} (h : ∀ b ∈ ids, b ∈ e.mapping.logicalToPhysical) :
    (e.slotsOf ids).map some = ids.map e.mapping.logicalToPhysical.lookup := by
  induction ids with
  | nil => rfl
  | cons b ids ih =>
    obtain ⟨hb, hids⟩ := List.forall_mem_cons.mp h
    obtain ⟨s, hs⟩ := Finmap.mem_iff.mp hb
    rw [slotsOf_cons hs, List.map_cons, List.map_cons, ih hids, hs]

theorem nodup_slotsOf (h : e.mapping.Bijective) {ids : List BlockId} (hids : ids.Nodup) :
    (e.slotsOf ids).Nodup :=
  hids.filterMap fun _ _ _ hs hs' ↦ Inverse.injective h hs hs'

/-- A lookup of the key reads each block of the ranks `lo // c .. (hi - 1) // c` once, in strictly
ascending slot order, and nothing if its interval `[lo, hi)` is empty. -/
def ReadsInterval (e : Engine V) (key : RecordKey) (l : LevelId) : Prop :=
  ∃ L idx sr, e.levels.lookup l = some L ∧ e.pgmIndexes.lookup l = some idx ∧
    idx.search key = .ok sr ∧ sr.lo ≤ sr.hi ∧
    (e.levelReads key l).Pairwise (fun s s' ↦ s.value < s'.value) ∧
    (sr.lo = sr.hi → e.levelReads key l = []) ∧
    (sr.lo < sr.hi → ((e.levelReads key l).map some).Perm
      ((List.range' (sr.lo / e.config.blockCapacity)
        ((sr.hi - 1) / e.config.blockCapacity + 1 - sr.lo / e.config.blockCapacity)).map
        fun rank ↦ L.blockIds[rank]?.bind e.mapping.logicalToPhysical.lookup))

theorem map_range'_getElem? {α β : Type} (f : α → Option β) {l : List α} {first n : Nat}
    (h : first + n ≤ l.length) :
    (List.range' first n).map (fun i ↦ l[i]?.bind f) = ((l.drop first).take n).map f := by
  induction n generalizing first with
  | zero => simp
  | succ n ih =>
    have hlt : first < l.length := by omega
    rw [List.range'_succ, List.map_cons, ih (by omega), List.drop_eq_getElem_cons hlt,
      List.take_succ_cons, List.map_cons, List.getElem?_eq_getElem hlt, Option.bind_some]

theorem Queryable.readsInterval (h : e.Queryable) (hl : e.planError l = none)
    (hblocks : e.hasBlocks l = true) (key : RecordKey) : e.ReadsInterval key l := by
  obtain ⟨L, blks, ε, idx, -, hL, hread, hcanon, hidx, hindex⟩ := h.exists_index hl hblocks
  obtain ⟨sr, hsearch, hsr⟩ := (builtOn_of_buildBatchPgm hindex).brackets key
  have hreads : e.levelReads key l = e.readSlots L.blockIds sr := by
    simp only [levelReads, hL, hidx, hsearch]
  have hnodup : (e.slotsOf (candidateIds e.config.blockCapacity L.blockIds sr)).Nodup := by
    refine nodup_slotsOf h.bijective ?_
    unfold candidateIds
    split_ifs
    · exact List.nodup_nil
    · exact L.nodup.sublist ((List.take_sublist _ _).trans (List.drop_sublist _ _))
  refine ⟨L, idx, sr, hL, hidx, hsearch, hsr.lo_le.trans hsr.le_hi, ?_, fun heq ↦ ?_,
    fun hlt ↦ ?_⟩
  · rw [hreads]
    exact sortedBy_insertionSort (hnodup.map fun s s' ↦ SlotId.ext)
  · rw [hreads, readSlots, candidateIds, if_pos heq]
    rfl
  · have hlast := lastBlock_lt e.config.blockCapacity_pos hcanon.length_le
      (Nat.zero_lt_of_lt hlt) (by simpa using hsr.hi_le)
    have hfirst : sr.lo / e.config.blockCapacity ≤ (sr.hi - 1) / e.config.blockCapacity :=
      Nat.div_le_div_right (by omega)
    rw [hreads, readSlots, map_range'_getElem? _ (by rw [hread.length_eq]; omega),
      ← map_some_slotsOf fun b hb ↦
        hread.mapped b (List.mem_of_mem_drop (List.mem_of_mem_take hb)),
      candidateIds, if_neg hlt.ne]
    exact (List.perm_insertionSort _ _).map some

/-- The two keys have the same search interval in the level. -/
def SameInterval (e : Engine V) (key key' : RecordKey) (l : LevelId) : Prop :=
  ∀ idx, e.pgmIndexes.lookup l = some idx → ∃ sr sr', idx.search key = .ok sr ∧
    idx.search key' = .ok sr' ∧ sr.lo = sr'.lo ∧ sr.hi = sr'.hi

theorem SameInterval.levelReads {key' : RecordKey} (h : e.SameInterval key key' l) :
    e.levelReads key l = e.levelReads key' l := by
  unfold Engine.levelReads
  cases hL : e.levels.lookup l with
  | none => rfl
  | some L =>
    cases hidx : e.pgmIndexes.lookup l with
    | none => rfl
    | some idx =>
      obtain ⟨sr, sr', hsr, hsr', hlo, hhi⟩ := h idx hidx
      simp only [hsr, hsr', readSlots, candidateIds, hlo, hhi]

/-- The levels searched are determined by the hit. -/
theorem searchedLevels_congr {key' : RecordKey} {ls : List LevelId} (hls : ls.Nodup)
    (h : (ls.find? fun l ↦ (e.recordAt key l).isSome) =
      ls.find? fun l ↦ (e.recordAt key' l).isSome) :
    e.searchedLevels key ls = e.searchedLevels key' ls := by
  induction ls with
  | nil => rfl
  | cons l ls ih =>
    obtain ⟨hl, hls⟩ := List.nodup_cons.mp hls
    have hmem : ∀ {p : LevelId → Bool}, ls.find? p = some l → False :=
      fun hfind ↦ hl (List.mem_of_find?_eq_some hfind)
    rw [List.find?_cons, List.find?_cons] at h
    rw [searchedLevels, searchedLevels]
    cases hk : (e.recordAt key l).isSome <;> cases hk' : (e.recordAt key' l).isSome <;>
      simp only [hk, hk', if_true, if_false, Bool.false_eq_true] at h ⊢
    · rw [ih hls h]
    · exact (hmem h).elim
    · exact (hmem h.symm).elim

/-! ## Queries -/

/-- A plan with a repetition is rejected before its levels are looked at. -/
theorem run_lookupLevels_duplicate (hdup : ¬ plan.Nodup) (key : RecordKey) :
    ∃ l, 1 < plan.count l ∧
      (lookupLevels plan key).run e = .error (.duplicateLevelInPlan l) e := by
  unfold lookupLevels
  cases h : firstDuplicate [] plan with
  | some l => exact ⟨l, by simpa using count_of_firstDuplicate h, rfl⟩
  | none => exact absurd (firstDuplicate_eq_none.mp h).1 hdup

theorem run_lookupLevels_of_nodup (hnodup : plan.Nodup) (key : RecordKey) :
    (lookupLevels plan key).run e = (searchableLevels plan >>= searchLevels key []).run e := by
  unfold lookupLevels
  rw [firstDuplicate_eq_none.mpr ⟨hnodup, by simp⟩]

/-- A plan without repetitions is rejected for its first level with an error. -/
theorem run_lookupLevels_error {pre post : List LevelId} {err : EngineError}
    (hnodup : (pre ++ l :: post).Nodup) (hpre : ∀ l' ∈ pre, e.planError l' = none)
    (hl : e.planError l = some err) (key : RecordKey) :
    (lookupLevels (pre ++ l :: post) key).run e = .error err e := by
  rw [run_lookupLevels_of_nodup hnodup, run_bind_of_error (run_searchableLevels_error hpre hl)]

/-- An accepted plan is answered. -/
theorem Queryable.run_lookupLevels (h : e.Queryable) (hnodup : plan.Nodup)
    (hall : ∀ l ∈ plan, e.planError l = none) (key : RecordKey) :
    (lookupLevels plan key).run e =
      .ok (e.queryAnswer key (plan.filter e.hasBlocks)) (e.afterReads
        ((e.searchedLevels key (plan.filter e.hasBlocks)).flatMap (e.levelReads key))) := by
  rw [run_lookupLevels_of_nodup hnodup, run_bind_of_ok (run_searchableLevels hall),
    h.run_searchLevels fun l hl ↦ ⟨hall l (List.mem_filter.mp hl).1, (List.mem_filter.mp hl).2⟩]
  rfl

theorem mem_of_mem_searchedLevels {ls : List LevelId} (h : l ∈ e.searchedLevels key ls) :
    l ∈ ls := by
  induction ls with
  | nil => exact h
  | cons l' ls ih =>
    rw [searchedLevels] at h
    split_ifs at h
    · exact List.mem_cons.mpr (Or.inl (List.mem_singleton.mp h))
    · rcases List.mem_cons.mp h with rfl | h
      · exact List.mem_cons_self
      · exact List.mem_cons_of_mem _ (ih h)

/-- States that differ in the places of the blocks have the same outcome. -/
theorem Queryable.outcome_congr {e' : Engine V} (h : e.Queryable) (h' : e'.Queryable)
    (hsame : SameContents e e') (plan : List LevelId) (key : RecordKey) :
    outcome ((lookupLevels plan key).run e') = outcome ((lookupLevels plan key).run e) := by
  by_cases hnodup : plan.Nodup
  · obtain hall | ⟨pre, l, post, err, rfl, hpre, hl⟩ := e.planError_cases plan
    · rw [h.run_lookupLevels hnodup hall, h'.run_lookupLevels hnodup fun l hl ↦
        (hsame.planError l).trans (hall l hl), hsame.hasBlocks, hsame.queryAnswer]
      rfl
    · rw [run_lookupLevels_error hnodup hpre hl, run_lookupLevels_error hnodup
        (fun l' hl' ↦ (hsame.planError l').trans (hpre l' hl')) ((hsame.planError l).trans hl)]
      rfl
  · cases hdup : firstDuplicate [] plan with
    | none => exact absurd (firstDuplicate_eq_none.mp hdup).1 hnodup
    | some l => simp only [lookupLevels, hdup, run_throw', outcome_error]

/-- A query that returns had an accepted plan. -/
theorem plan_of_run_eq_ok {r : MultiLevelLookupResult V} {e' : Engine V}
    (h : (lookupLevels plan key).run e = .ok r e') :
    plan.Nodup ∧ ∀ l ∈ plan, e.planError l = none := by
  by_cases hnodup : plan.Nodup
  · refine ⟨hnodup, ?_⟩
    obtain hall | ⟨pre, l, post, err, rfl, hpre, hl⟩ := e.planError_cases plan
    · exact hall
    · rw [run_lookupLevels_error hnodup hpre hl] at h
      cases h
  · obtain ⟨l, -, hrun⟩ := run_lookupLevels_duplicate (e := e) hnodup key
    rw [hrun] at h
    cases h

/-- Keys with the same intervals and the same hit level have the same reads. -/
theorem Queryable.reads_congr (h : e.Queryable) {key' : RecordKey}
    {r r' : MultiLevelLookupResult V} {e₁ e₂ : Engine V}
    (hr : (lookupLevels plan key).run e = .ok r e₁)
    (hr' : (lookupLevels plan key').run e = .ok r' e₂) (hhit : r.hitLevelId = r'.hitLevelId)
    (hint : ∀ l ∈ r.searchedLevelIds, e.SameInterval key key' l) : e₁ = e₂ := by
  obtain ⟨hnodup, hall⟩ := plan_of_run_eq_ok hr
  rw [h.run_lookupLevels hnodup hall] at hr hr'
  cases hr
  cases hr'
  have hsearched := searchedLevels_congr (hnodup.filter _) hhit
  rw [← hsearched]
  congr 1
  exact List.flatMap_congr fun l hl ↦ (hint l hl).levelReads

/-- `lookup_levels` over a well-formed state with canonical levels.

It raises before it reads anything, for a repeated id anywhere in the plan or else for the
first level in plan order that is unknown, retired or without its PGM; or it returns the answer
of the levels after reading, for each searched level, the blocks of its search interval.
States that differ in the places of the blocks have the same outcome, and keys with the same
intervals and the same hit level the same reads. -/
theorem lookupLevels_spec (h : e.Queryable) (plan : List LevelId) (key : RecordKey) :
    (¬ plan.Nodup → ∃ l, 1 < plan.count l ∧
      (lookupLevels plan key).run e = .error (.duplicateLevelInPlan l) e) ∧
    (plan.Nodup → ∀ pre l post err, plan = pre ++ l :: post →
      (∀ l' ∈ pre, e.planError l' = none) → e.planError l = some err →
      (lookupLevels plan key).run e = .error err e) ∧
    (plan.Nodup → (∀ l ∈ plan, e.planError l = none) →
      (lookupLevels plan key).run e =
        .ok (e.queryAnswer key (plan.filter e.hasBlocks)) (e.afterReads
          ((e.searchedLevels key (plan.filter e.hasBlocks)).flatMap (e.levelReads key))) ∧
      ∀ l ∈ e.searchedLevels key (plan.filter e.hasBlocks), e.ReadsInterval key l) ∧
    (∀ e', Queryable e' → SameContents e e' →
      outcome ((lookupLevels plan key).run e') = outcome ((lookupLevels plan key).run e)) ∧
    (∀ key' r r' e₁ e₂, (lookupLevels plan key).run e = .ok r e₁ →
      (lookupLevels plan key').run e = .ok r' e₂ → r.hitLevelId = r'.hitLevelId →
      (∀ l ∈ r.searchedLevelIds, e.SameInterval key key' l) → e₁ = e₂) := by
  refine ⟨fun hdup ↦ run_lookupLevels_duplicate hdup key, ?_, fun hnodup hall ↦ ⟨?_, ?_⟩,
    fun e' h' hsame ↦ h.outcome_congr h' hsame plan key, fun _ _ _ _ _ ↦ h.reads_congr⟩
  · rintro hnodup pre l post err rfl hpre hl
    exact run_lookupLevels_error hnodup hpre hl key
  · exact h.run_lookupLevels hnodup hall key
  · intro l hl
    obtain ⟨hplan, hblocks⟩ := List.mem_filter.mp (mem_of_mem_searchedLevels hl)
    exact h.readsInterval (hall l hplan) hblocks key

section ThreeKeys

/-- A level of capacity 2 with the blocks `[1, 2]` and `[3]`, and its PGM. -/
def threeKeys : Engine Unit :=
  (Engine.init ⟨2, some 0, Nat.two_pos⟩).afterAll
    [.buildLevel [{ key := ⟨1⟩, value := () }, { key := ⟨2⟩, value := () },
      { key := ⟨3⟩, value := () }] none, .buildLevelPgm ⟨0⟩]

/-- The blocks of this level. -/
def threeKeysBlocks : List (Block Unit) :=
  [⟨⟨⟨0⟩, 2, [{ key := ⟨1⟩, value := () }, { key := ⟨2⟩, value := () }]⟩,
      RawBlock.validate_eq_ok.mp (by decide)⟩,
    ⟨⟨⟨1⟩, 2, [{ key := ⟨3⟩, value := () }]⟩, RawBlock.validate_eq_ok.mp (by decide)⟩]

theorem levels_threeKeys {L : Level} (hL : threeKeys.levels.lookup l = some L) :
    l = ⟨0⟩ ∧ L.blockIds = [⟨0⟩, ⟨1⟩] := by
  have hlevels : threeKeys.levels =
      (∅ : FinDict LevelId Level).insert ⟨0⟩ ⟨⟨0⟩, [⟨0⟩, ⟨1⟩], by decide⟩ := by decide +kernel
  rw [hlevels] at hL
  by_cases hl : l = ⟨0⟩
  · subst hl
    rw [Finmap.lookup_insert] at hL
    cases hL
    exact ⟨rfl, rfl⟩
  · rw [Finmap.lookup_insert_of_ne _ hl] at hL
    cases hL

theorem readAs_threeKeys : threeKeys.ReadAs [⟨0⟩, ⟨1⟩] threeKeysBlocks :=
  .cons (by decide +kernel) (.cons (by decide +kernel) .nil)

theorem queryable_threeKeys : threeKeys.Queryable where
  bijective := (reachable_afterAll _ _).consistent.bijective
  occupied := (reachable_afterAll _ _).consistent.occupied
  canonical l L hL := by
    obtain ⟨-, hids⟩ := levels_threeKeys hL
    refine ⟨threeKeysBlocks, hids ▸ readAs_threeKeys, by decide +kernel, ?_, ?_⟩
    · exact ⟨rfl, by decide, by decide⟩
    · exact SortedBy.of_map_keys (by decide)
  pgm l L blks idx hL hread hidx := by
    obtain ⟨rfl, hids⟩ := levels_threeKeys hL
    rw [hids] at hread
    cases hread.unique readAs_threeKeys
    have hbuild : (buildBatchPgm ((blockRecords threeKeysBlocks).map (·.key)) 0).toOption =
        threeKeys.pgmIndexes.lookup ⟨0⟩ := by decide +kernel
    rw [hidx] at hbuild
    refine ⟨0, ?_⟩
    cases h : buildBatchPgm ((blockRecords threeKeysBlocks).map (·.key)) 0 with
    | error err => rw [h] at hbuild; cases hbuild
    | ok idx' => rw [h] at hbuild; cases hbuild; rfl

/-- The search for the key 4 has the empty interval `[3, 3)`: it reads nothing, although the
block rank 1 is between `3 // 2` and `(3 - 1) // 2`. -/
theorem lookupLevels_reads_nothing_threeKeys :
    threeKeys.Queryable ∧ ∃ r e' idx sr, (lookupLevels [⟨0⟩] ⟨4⟩).run threeKeys = .ok r e' ∧
      r.searchedLevelIds = [⟨0⟩] ∧ e'.storage.trace = threeKeys.storage.trace ∧
      threeKeys.pgmIndexes.lookup ⟨0⟩ = some idx ∧ idx.search ⟨4⟩ = .ok sr ∧
      1 ∈ List.range' (sr.lo / 2) ((sr.hi - 1) / 2 + 1 - sr.lo / 2) := by
  have hrun : outcome ((lookupLevels [⟨0⟩] ⟨4⟩).run threeKeys) =
      .ok ⟨false, none, none, [⟨0⟩]⟩ := by decide +kernel
  have htrace : (finalState ((lookupLevels [⟨0⟩] ⟨4⟩).run threeKeys)).storage.trace =
      threeKeys.storage.trace := by decide +kernel
  have hidx : (threeKeys.pgmIndexes.lookup ⟨0⟩).map (·.search ⟨4⟩) =
      some (.ok ⟨3, 3, 3⟩) := by decide +kernel
  obtain ⟨idx, hlookup, hsearch⟩ := Option.map_eq_some_iff.mp hidx
  exact ⟨queryable_threeKeys, _, _, idx, _, outcome_eq_ok.mp hrun, rfl, htrace, hlookup, hsearch,
    by decide⟩

/-- The specification at this state. -/
theorem lookupLevels_spec_threeKeys :
    (lookupLevels [⟨0⟩] ⟨3⟩).run threeKeys =
      .ok (threeKeys.queryAnswer ⟨3⟩ ([⟨0⟩].filter threeKeys.hasBlocks)) (threeKeys.afterReads
        ((threeKeys.searchedLevels ⟨3⟩ ([⟨0⟩].filter threeKeys.hasBlocks)).flatMap
          (threeKeys.levelReads ⟨3⟩))) :=
  ((lookupLevels_spec queryable_threeKeys [⟨0⟩] ⟨3⟩).2.2.1 (by decide) (by decide +kernel)).1

end ThreeKeys

end Engine

end EnhancedLetIndex
