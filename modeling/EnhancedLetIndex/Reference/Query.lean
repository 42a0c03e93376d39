import EnhancedLetIndex.Reference.Searcher

/-!
# Lookups in a reference index

`lookup_level` and `query` of `letindex_ref.py`, and the evaluator's answers about one level
(`ref_truth.py`).  A lookup in a level returns the rank of the key among the level's keys
(`lookupLevel_spec`).  A query scans the levels in ascending order and stops at the first hit
(`queryLoop_spec`).
-/

namespace EnhancedLetIndex

/-- `LevelLookupOutcome`. -/
structure LevelLookupOutcome where
  level : Int
  pos : Nat
  found : Bool
  value : Option String
  interval : Nat × Nat
  path : String
  events : List (EventOperation × Int)
  probes : List Nat
  fetchedBlocks : List Nat
  prefetchSize : Option Nat
deriving DecidableEq, Repr

/-- `ReferenceQueryOutcome`. -/
structure ReferenceQueryOutcome where
  key : Int
  found : Bool
  value : Option String
  hitLevel : Option Int
  searchedLevels : List Int
  skippedEmptyLevels : List Int
  paths : List (Int × String)
  events : List (EventOperation × Int)
  probes : List (Int × Nat)
  levelOutcomes : List LevelLookupOutcome
deriving DecidableEq, Repr

namespace ReferenceIndex

open LevelSearcher

/-- `pgm_interval`. -/
def pgmInterval (l : ReferenceLevel) (query : Int) : Except ReferenceError SearchResult :=
  match l.pgm with
  | some idx => (idx.search ⟨query⟩).mapError .pgm
  | none => .error (.noPgm l.level)

/-- `_level_outcome`. -/
def levelOutcome (l : ReferenceLevel) (query : Int) (pos : Nat) (interval : Nat × Nat)
    (path : String) (s : LevelSearcher) : LevelLookupOutcome :=
  let found := pos ≠ l.itemCount ∧ l.keys[pos]? = some ⟨query⟩
  { level := l.level
    pos
    found := decide found
    value := if found then l.values[pos]? else none
    interval
    path
    events := s.events
    probes := s.probes
    fetchedBlocks := s.fetchedBlocks
    prefetchSize := s.prefetchCounts.head? }

/-- A search opened on the empty buffers, with its outcome. -/
def runSearch (l : ReferenceLevel) (query : Int) (interval : Nat × Nat) (path : String)
    (search : SearchM Nat) : Except ReferenceError LevelLookupOutcome :=
  match search.run {} with
  | .ok pos s => .ok (levelOutcome l query pos interval path s)
  | .error e _ => .error e

/-- `lookup_level_with_interval`. -/
def lookupLevelWithInterval (idx : ReferenceIndex) (level query : Int) (first last : Nat) :
    Except ReferenceError LevelLookupOutcome := do
  let l ← idx.level level
  require (first ≤ last ∧ last ≤ l.itemCount) (.outsideLevel level first last l.itemCount)
  runSearch l query (first, last) "pgm_bounded"
    (lowerBoundPgmBounded l idx.projection first last query)

/-- `lookup_level`. -/
def lookupLevel (idx : ReferenceIndex) (level query : Int) :
    Except ReferenceError LevelLookupOutcome := do
  let l ← idx.level level
  if l.hasPgm then do
    let interval ← pgmInterval l query
    idx.lookupLevelWithInterval level query interval.lo interval.hi
  else
    runSearch l query (0, l.itemCount) "full_level" (lowerBoundFullLevel l idx.projection query)

/-- The outcome of a query with one more searched level. -/
def extend (acc : ReferenceQueryOutcome) (o : LevelLookupOutcome) : ReferenceQueryOutcome :=
  { acc with
    searchedLevels := acc.searchedLevels ++ [o.level]
    paths := acc.paths ++ [(o.level, o.path)]
    events := acc.events ++ o.events
    probes := acc.probes ++ o.probes.map fun probe ↦ (o.level, probe)
    levelOutcomes := acc.levelOutcomes ++ [o] }

/-- The outcome of a query with one more skipped level. -/
def skip (acc : ReferenceQueryOutcome) (level : Int) : ReferenceQueryOutcome :=
  { acc with skippedEmptyLevels := acc.skippedEmptyLevels ++ [level] }

/-- The level of the scan, when it is declared and not empty. -/
def occupied (idx : ReferenceIndex) (level : Int) : Option ReferenceLevel :=
  (findKey ReferenceLevel.level level idx.levels).filter fun l ↦ l.itemCount ≠ 0

/-- The loop of `query`. -/
def queryLoop (idx : ReferenceIndex) (query : Int) :
    List Int → ReferenceQueryOutcome → Except ReferenceError ReferenceQueryOutcome
  | [], acc => pure acc
  | level :: levels, acc =>
    match idx.occupied level with
    | none => queryLoop idx query levels (skip acc level)
    | some _ => do
      let o ← idx.lookupLevel level query
      if o.found then
        pure { extend acc o with found := true, value := o.value, hitLevel := some level }
      else queryLoop idx query levels (extend acc o)

/-- The outcome of a query before its first level. -/
def started (key : Int) : ReferenceQueryOutcome :=
  ⟨key, false, none, none, [], [], [], [], [], []⟩

/-- `query`. -/
def query (idx : ReferenceIndex) (key : Int) : Except ReferenceError ReferenceQueryOutcome :=
  queryLoop idx key idx.scannedLevels (started key)

/-- `item_rank_of`. -/
def itemRankOf (idx : ReferenceIndex) (level key : Int) : Except ReferenceError (Option Nat) := do
  let l ← idx.level level
  let lo := bisect (below key) l.keys
  pure (if lo < l.itemCount ∧ l.keys[lo]? = some ⟨key⟩ then some lo else none)

/-! ## One level -/

/-- What the outcome of a level lookup says about the level. -/
structure Answers (l : ReferenceLevel) (query : Int) (o : LevelLookupOutcome) : Prop where
  level : o.level = l.level
  pos : o.pos = lowerRank l.keys ⟨query⟩
  found_iff : o.found = true ↔ ⟨query⟩ ∈ l.keys
  value : o.value = if o.found then l.values[o.pos]? else none

variable {p : ReferenceProfile} {levels : LevelMap} {idx : ReferenceIndex}
  {l : ReferenceLevel} {entry : Int × List (Int × String)} {r : LevelRegion}

theorem answers_levelOutcome (hl : l.BuiltFrom p entry) (query : Int) (interval : Nat × Nat)
    (path : String) (s : LevelSearcher) :
    Answers l query (levelOutcome l query (lowerRank l.keys ⟨query⟩) interval path s) := by
  refine ⟨rfl, rfl, ?_, ?_⟩
  · rw [levelOutcome, decide_eq_true_iff, mem_iff_getElem?_lowerRank hl.sorted]
    refine ⟨And.right, fun hget ↦ ⟨?_, hget⟩⟩
    exact (List.getElem?_eq_some_iff.mp hget).1.ne
  · simp only [levelOutcome, decide_eq_true_eq]

/-- A search that finds the rank of the query answers the lookup. -/
theorem runSearch_spec (hl : l.BuiltFrom p entry) {query : Int} {search : SearchM Nat}
    (hsearch : Keeps (ReadsIn r) search (lowerRank l.keys ⟨query⟩)) (interval : Nat × Nat)
    (path : String) : ∃ o, runSearch l query interval path search = .ok o ∧
      Answers l query o ∧ ∀ e ∈ o.events, e.1 = .read ∧ r.Contains e.2 := by
  obtain ⟨s, hs, hreads⟩ := hsearch {} fun e he ↦ absurd he List.not_mem_nil
  exact ⟨_, by rw [runSearch, hs], answers_levelOutcome hl query interval path s, hreads⟩

namespace BuiltFrom

variable (h : idx.BuiltFrom p levels)

include h

/-- The region of a scanned level. -/
theorem exists_backed (hl : l ∈ idx.levels) (hlt : l.level < idx.usedLevels) :
    ∃ r ∈ idx.projection.regions, r.level = l.level ∧ l.Backed idx.projection r := by
  obtain ⟨r, hr, hlevel, hcount⟩ := h.mem_regions.mpr ⟨l, hl, hlt, rfl, rfl⟩
  exact ⟨r, hr, hlevel, hcount, fun offset hoffset ↦
    hlevel ▸ h.tiles.slot_eq hr (hcount ▸ hoffset)⟩

/-- A lookup in a level with items returns the rank of the key, on either path, and reads in
the level's own region. -/
theorem lookupLevel_spec (hl : l ∈ idx.levels) (hne : 0 < l.itemCount) (query : Int) :
    ∃ o, idx.lookupLevel l.level query = .ok o ∧ Answers l query o ∧
      ∃ r ∈ idx.projection.regions, r.level = l.level ∧
        ∀ e ∈ o.events, e.1 = .read ∧ r.Contains e.2 := by
  obtain ⟨entry, -, hbuilt⟩ := h.exists_entry hl
  obtain ⟨r, hr, hlevel, hb⟩ := h.exists_backed hl (h.lt_usedLevels hl hne)
  rw [lookupLevel, h.level_eq hl, ok_bind]
  cases hpgm : l.pgm with
  | none =>
    rw [if_neg (by simp [ReferenceLevel.hasPgm, hpgm])]
    obtain ⟨o, ho, hanswers, hreads⟩ := runSearch_spec hbuilt
      (keeps_lowerBoundFullLevel hbuilt hb query) (0, l.itemCount) "full_level"
    exact ⟨o, ho, hanswers, r, hr, hlevel, hreads⟩
  | some model =>
    obtain ⟨sr, hsr, hbrackets⟩ := (hbuilt.builtOn hpgm).brackets ⟨query⟩
    rw [if_pos (by simp [ReferenceLevel.hasPgm, hpgm]), pgmInterval, hpgm]
    simp only [hsr, Except.mapError, ok_bind]
    have hwindow : sr.lo ≤ sr.hi ∧ sr.hi ≤ l.itemCount :=
      ⟨hbrackets.lo_le.trans hbrackets.le_hi, hbrackets.hi_le⟩
    rw [lookupLevelWithInterval, h.level_eq hl, ok_bind, require_of hwindow, ok_bind]
    obtain ⟨o, ho, hanswers, hreads⟩ := runSearch_spec hbuilt
      (keeps_lowerBoundPgmBounded hbuilt hb hbrackets.hi_le hbrackets.lo_le hbrackets.le_hi)
      (sr.lo, sr.hi) "pgm_bounded"
    exact ⟨o, ho, hanswers, r, hr, hlevel, hreads⟩

/-- The evaluator's rank of a key is the rank of the lookup, when the level has the key. -/
theorem itemRankOf_eq (hl : l ∈ idx.levels) (key : Int) : idx.itemRankOf l.level key =
    .ok (if ⟨key⟩ ∈ l.keys then some (lowerRank l.keys ⟨key⟩) else none) := by
  obtain ⟨entry, -, hbuilt⟩ := h.exists_entry hl
  rw [itemRankOf, h.level_eq hl, ok_bind, (isCut_below hbuilt key).bisect_eq]
  have hmem := mem_iff_getElem?_lowerRank hbuilt.sorted (x := ⟨key⟩)
  by_cases hk : ⟨key⟩ ∈ l.keys
  · have hget := hmem.mp hk
    simp only [if_pos hk, hget, and_true, ReferenceLevel.itemCount,
      if_pos (List.getElem?_eq_some_iff.mp hget).1, pure_eq_ok]
  · simp only [if_neg hk, hmem.not.mp hk, and_false, if_false, pure_eq_ok]

theorem occupied_eq_some {level : Int} (hl : idx.occupied level = some l) :
    l ∈ idx.levels ∧ l.level = level ∧ 0 < l.itemCount := by
  obtain ⟨hfind, hne⟩ := Option.filter_eq_some_iff.mp hl
  obtain ⟨hmem, hlevel⟩ := (findKey_eq_some h.nodup_level).mp hfind
  exact ⟨hmem, hlevel, Nat.pos_of_ne_zero (of_decide_eq_true hne)⟩

theorem occupied_of_mem (hl : l ∈ idx.levels) (hne : 0 < l.itemCount) :
    idx.occupied l.level = some l :=
  Option.filter_eq_some_iff.mpr ⟨h.findKey_level hl, decide_eq_true hne.ne'⟩

end BuiltFrom

/-! ## The scan -/

/-- The outcome `out` goes on from `acc` by the visited levels and the lookups `os` in them. -/
structure Scanned (idx : ReferenceIndex) (query : Int) (visited : List Int)
    (os : List LevelLookupOutcome) (acc out : ReferenceQueryOutcome) : Prop where
  levels : os.map (·.level) = visited.filter fun level ↦ (idx.occupied level).isSome
  lookups : ∀ o ∈ os, idx.lookupLevel o.level query = .ok o
  searchedLevels : out.searchedLevels = acc.searchedLevels ++ os.map (·.level)
  skippedEmptyLevels : out.skippedEmptyLevels =
    acc.skippedEmptyLevels ++ visited.filter fun level ↦ ¬ (idx.occupied level).isSome
  events : out.events = acc.events ++ os.flatMap (·.events)
  levelOutcomes : out.levelOutcomes = acc.levelOutcomes ++ os

/-- The scan went through all the levels without a hit. -/
structure Missed (os : List LevelLookupOutcome) (acc out : ReferenceQueryOutcome) : Prop where
  misses : ∀ o ∈ os, o.found = false
  found : out.found = acc.found
  value : out.value = acc.value
  hitLevel : out.hitLevel = acc.hitLevel

/-- The scan stopped at its last lookup, which hit. -/
structure Hit (visited : List Int) (os : List LevelLookupOutcome) (o : LevelLookupOutcome)
    (out : ReferenceQueryOutcome) : Prop where
  misses : ∃ before, os = before ++ [o] ∧ ∀ o' ∈ before, o'.found = false
  last : ∃ before, visited = before ++ [o.level]
  hit : o.found = true
  found : out.found = true
  value : out.value = o.value
  hitLevel : out.hitLevel = some o.level

variable {query : Int} {visited : List Int} {os : List LevelLookupOutcome}
  {acc out : ReferenceQueryOutcome}

theorem Scanned.skip {level : Int} (hnone : idx.occupied level = none)
    (hs : Scanned idx query visited os (skip acc level) out) :
    Scanned idx query (level :: visited) os acc out := by
  refine ⟨?_, hs.lookups, hs.searchedLevels, ?_, hs.events, hs.levelOutcomes⟩
  · rw [List.filter_cons_of_neg (by simp [hnone]), hs.levels]
  · rw [List.filter_cons_of_pos (by simp [hnone]), hs.skippedEmptyLevels]
    simp [ReferenceIndex.skip]

theorem Scanned.extend {o : LevelLookupOutcome} (hsome : (idx.occupied o.level).isSome)
    (ho : idx.lookupLevel o.level query = .ok o)
    (hs : Scanned idx query visited os (extend acc o) out) :
    Scanned idx query (o.level :: visited) (o :: os) acc out := by
  refine ⟨?_, ?_, ?_, ?_, ?_, ?_⟩
  · rw [List.filter_cons_of_pos (by simpa using hsome), List.map_cons, hs.levels]
  · rintro o' (_ | ⟨_, ho'⟩)
    exacts [ho, hs.lookups o' ho']
  · rw [hs.searchedLevels, ReferenceIndex.extend, List.append_assoc]
    rfl
  · rw [List.filter_cons_of_neg (by simp [hsome]), hs.skippedEmptyLevels]
    rfl
  · rw [hs.events, ReferenceIndex.extend, List.append_assoc, List.flatMap_cons]
  · rw [hs.levelOutcomes, ReferenceIndex.extend, List.append_assoc]
    rfl

/-- The scan visits the levels in order, looks in the ones that are not empty, and ends at the
first hit or at the end. -/
theorem queryLoop_spec {levels : List Int} (hlookup : ∀ level ∈ levels,
      (idx.occupied level).isSome → ∃ o, idx.lookupLevel level query = .ok o ∧ o.level = level)
    (acc : ReferenceQueryOutcome) :
    ∃ visited rest os out, levels = visited ++ rest ∧
      queryLoop idx query levels acc = .ok out ∧ Scanned idx query visited os acc out ∧
      (rest = [] ∧ Missed os acc out ∨ ∃ o, Hit visited os o out) := by
  induction levels generalizing acc with
  | nil =>
    exact ⟨[], [], [], acc, rfl, rfl, ⟨rfl, by simp, by simp, by simp, by simp, by simp⟩,
      .inl ⟨rfl, by simp, rfl, rfl, rfl⟩⟩
  | cons level levels ih =>
    have ih := ih fun level' hlevel' ↦ hlookup level' (List.mem_cons_of_mem _ hlevel')
    rw [queryLoop]
    cases hocc : idx.occupied level with
    | none =>
      obtain ⟨visited, rest, os, out, rfl, hrun, hscan, hend⟩ := ih (skip acc level)
      refine ⟨level :: visited, rest, os, out, rfl, hrun, hscan.skip hocc, ?_⟩
      rcases hend with ⟨hrest, hmiss⟩ | ⟨o, hhit⟩
      · exact .inl ⟨hrest, hmiss.misses, hmiss.found, hmiss.value, hmiss.hitLevel⟩
      · obtain ⟨before, hbefore⟩ := hhit.last
        exact .inr ⟨o, { hhit with last := ⟨level :: before, by rw [hbefore]; rfl⟩ }⟩
    | some l =>
      obtain ⟨o, ho, rfl⟩ := hlookup level List.mem_cons_self (by rw [hocc]; rfl)
      have hsome : (idx.occupied o.level).isSome := by rw [hocc]; rfl
      simp only [ho, ok_bind]
      by_cases hfound : o.found = true
      · rw [if_pos hfound]
        refine ⟨[o.level], levels, [o], _, rfl, rfl, ?_, .inr ⟨o, ⟨[], rfl, by simp⟩,
          ⟨[], rfl⟩, hfound, rfl, rfl, rfl⟩⟩
        exact Scanned.extend hsome ho
          ⟨rfl, by simp, by simp, by simp, by simp, by simp⟩
      · rw [if_neg hfound]
        obtain ⟨visited, rest, os, out, rfl, hrun, hscan, hend⟩ := ih (extend acc o)
        refine ⟨o.level :: visited, rest, o :: os, out, rfl, hrun, hscan.extend hsome ho, ?_⟩
        have hmiss₀ : o.found = false := Bool.eq_false_iff.mpr hfound
        rcases hend with ⟨hrest, hmiss⟩ | ⟨o', hhit⟩
        · refine .inl ⟨hrest, ?_, hmiss.found, hmiss.value, hmiss.hitLevel⟩
          rintro o' (_ | ⟨_, ho'⟩)
          exacts [hmiss₀, hmiss.misses o' ho']
        · obtain ⟨before, hbefore⟩ := hhit.last
          obtain ⟨before', rfl, hmisses⟩ := hhit.misses
          refine .inr ⟨o', { hhit with
            last := ⟨o.level :: before, by rw [hbefore]; rfl⟩
            misses := ⟨o :: before', rfl, ?_⟩ }⟩
          rintro o'' (_ | ⟨_, ho''⟩)
          exacts [hmiss₀, hmisses o'' ho'']

/-! ## Every query answers -/

/-- What the answer to a query says about the items the index was built from. -/
structure AnswersQuery (idx : ReferenceIndex) (levels : LevelMap) (key : Int)
    (out : ReferenceQueryOutcome) : Prop where
  found_iff : out.found = true ↔ ∃ entry ∈ levels.entries, key ∈ entry.2.map Prod.fst
  hit : out.found = true → ∃ entry ∈ levels.entries, ∃ value, (key, value) ∈ entry.2 ∧
    out.hitLevel = some entry.1 ∧ out.value = some value ∧
    ∀ other ∈ levels.entries, key ∈ other.2.map Prod.fst → entry.1 ≤ other.1
  miss : out.found = false → out.hitLevel = none ∧ out.value = none
  searched : out.levelOutcomes.map (·.level) = out.searchedLevels
  ranks : ∀ o ∈ out.levelOutcomes, ∃ entry ∈ levels.entries, o.level = entry.1 ∧
    (o.pos = entry.2.countP fun item ↦ item.1 < key) ∧
    (o.found = true ↔ key ∈ entry.2.map Prod.fst) ∧
    idx.itemRankOf o.level key = .ok (if o.found then some o.pos else none)
  visited : (out.searchedLevels ++ out.skippedEmptyLevels).Perm
    (intRange idx.profile.minLevel
      (out.hitLevel.elim idx.usedLevels (· + 1) - idx.profile.minLevel).toNat)

section Query

variable (h : idx.BuiltFrom p levels)

include h

/-- Every looked up level answers for the items it was built from. -/
theorem BuiltFrom.answers_of_scanned {key : Int} (hscan : Scanned idx key visited os acc out)
    {o : LevelLookupOutcome} (ho : o ∈ os) :
    ∃ entry ∈ levels.entries, ∃ l ∈ idx.levels, l.BuiltFrom p entry ∧ Answers l key o := by
  have hlevel : o.level ∈ os.map (·.level) := List.mem_map_of_mem ho
  rw [hscan.levels] at hlevel
  obtain ⟨l, hl⟩ := Option.isSome_iff_exists.mp (List.mem_filter.mp hlevel).2
  obtain ⟨hmem, hlevel, hne⟩ := h.occupied_eq_some hl
  obtain ⟨entry, hentry, hbuilt⟩ := h.exists_entry hmem
  obtain ⟨o', ho', hanswers, -⟩ := h.lookupLevel_spec hmem hne key
  rw [hlevel, hscan.lookups o ho] at ho'
  cases ho'
  exact ⟨entry, hentry, l, hmem, hbuilt, hanswers⟩

/-- A level of the scan that has the key is looked up. -/
theorem BuiltFrom.mem_of_visited {key : Int} (hscan : Scanned idx key visited os acc out)
    {entry : Int × List (Int × String)} (hentry : entry ∈ levels.entries)
    (hkey : key ∈ entry.2.map Prod.fst) (hvisited : entry.1 ∈ visited) :
    ∃ o ∈ os, o.level = entry.1 ∧ o.found = true := by
  obtain ⟨l, hl, hbuilt⟩ := h.exists_level hentry
  have hmem := hbuilt.mem_keys_iff.mpr hkey
  have hocc := h.occupied_of_mem hl (List.length_pos_of_mem hmem)
  have hlevel : l.level ∈ visited.filter fun level ↦ (idx.occupied level).isSome :=
    List.mem_filter.mpr ⟨hbuilt.level ▸ hvisited, by rw [hocc]; rfl⟩
  rw [← hscan.levels] at hlevel
  obtain ⟨o, ho, holevel⟩ := List.mem_map.mp hlevel
  obtain ⟨-, -, l', hl', -, hanswers⟩ := h.answers_of_scanned hscan ho
  have hsame : l' = l := List.inj_on_of_nodup_map h.nodup_level hl' hl
    (hanswers.level.symm.trans holevel)
  exact ⟨o, ho, holevel.trans hbuilt.level, hanswers.found_iff.mpr (hsame ▸ hmem)⟩

/-- Every level with the key is in the range of the scan. -/
theorem BuiltFrom.mem_scannedLevels {key : Int} {entry : Int × List (Int × String)}
    (hentry : entry ∈ levels.entries) (hkey : key ∈ entry.2.map Prod.fst) :
    entry.1 ∈ idx.scannedLevels := by
  obtain ⟨l, hl, hbuilt⟩ := h.exists_level hentry
  have hlt := h.lt_usedLevels hl (List.length_pos_of_mem (hbuilt.mem_keys_iff.mpr hkey))
  have hmin := hbuilt.minLevel_le
  rw [scannedLevels, mem_intRange, h.profile, ← hbuilt.level]
  omega

/-- A scan without a hit went through all the levels. -/
theorem BuiltFrom.answers_of_missed {key : Int}
    (hscan : Scanned idx key idx.scannedLevels os (started key) out)
    (hmiss : Missed os (started key) out) :
    (¬ ∃ entry ∈ levels.entries, key ∈ entry.2.map Prod.fst) ∧ out.found = false ∧
      out.hitLevel = none ∧ out.value = none := by
  refine ⟨?_, hmiss.found, hmiss.hitLevel, hmiss.value⟩
  rintro ⟨entry, hentry, hkey⟩
  obtain ⟨o, ho, -, hfound⟩ :=
    h.mem_of_visited hscan hentry hkey (h.mem_scannedLevels hentry hkey)
  rw [hmiss.misses o ho] at hfound
  cases hfound

/-- A scan that hit stopped at the first level with the key. -/
theorem BuiltFrom.answers_of_hit {key : Int} {rest : List Int} {o : LevelLookupOutcome}
    (hlevels : idx.scannedLevels = visited ++ rest)
    (hscan : Scanned idx key visited os acc out) (hhit : Hit visited os o out) :
    ∃ entry ∈ levels.entries, ∃ value, (key, value) ∈ entry.2 ∧
      out.hitLevel = some entry.1 ∧ out.value = some value ∧
      ∀ other ∈ levels.entries, key ∈ other.2.map Prod.fst → entry.1 ≤ other.1 := by
  obtain ⟨before, rfl⟩ := hhit.last
  obtain ⟨before', rfl, hmisses⟩ := hhit.misses
  obtain ⟨entry, hentry, l, hl, hbuilt, hanswers⟩ :=
    h.answers_of_scanned hscan (List.mem_append_right before' (List.mem_singleton_self o))
  have hlevel : o.level = entry.1 := hanswers.level.trans hbuilt.level
  have hkey := hanswers.found_iff.mp hhit.hit
  have hpos : l.keys[o.pos]? = some ⟨key⟩ :=
    hanswers.pos ▸ (mem_iff_getElem?_lowerRank hbuilt.sorted).mp hkey
  obtain ⟨value, hvalue, hitem⟩ := hbuilt.exists_value hpos
  refine ⟨entry, hentry, value, hitem, hlevel ▸ hhit.hitLevel, ?_, fun other hother hkey' ↦ ?_⟩
  · rw [hhit.value, hanswers.value, if_pos hhit.hit, hvalue]
  · by_contra hlt
    -- an earlier level with the key would have been visited, and hit, before
    have hscanned := h.mem_scannedLevels hother hkey'
    have hstart := intRange_of_start hlevels
    have hvisited : other.1 ∈ before ++ [o.level] := by
      rw [hstart, mem_intRange]
      have := mem_intRange.mp hscanned
      omega
    obtain ⟨o', ho', holevel, hfound⟩ := h.mem_of_visited hscan hother hkey' hvisited
    rcases List.mem_append.mp ho' with ho' | ho'
    · rw [hmisses o' ho'] at hfound
      cases hfound
    · rw [List.mem_singleton.mp ho', hlevel] at holevel
      exact hlt holevel.le

/-- Every query returns, with the answer the items of the levels give. -/
theorem BuiltFrom.query_spec (key : Int) :
    ∃ visited rest os out, idx.scannedLevels = visited ++ rest ∧ idx.query key = .ok out ∧
      Scanned idx key visited os (started key) out ∧
      AnswersQuery idx levels key out := by
  have hlookup : ∀ level ∈ idx.scannedLevels, (idx.occupied level).isSome →
      ∃ o, idx.lookupLevel level key = .ok o ∧ o.level = level := by
    intro level _ hsome
    obtain ⟨l, hocc⟩ := Option.isSome_iff_exists.mp hsome
    obtain ⟨hl, rfl, hne⟩ := h.occupied_eq_some hocc
    obtain ⟨o, ho, hanswers, -⟩ := h.lookupLevel_spec hl hne key
    exact ⟨o, ho, hanswers.level⟩
  obtain ⟨visited, rest, os, out, hlevels, hrun, hscan, hend⟩ :=
    queryLoop_spec hlookup (started key)
  refine ⟨visited, rest, os, out, hlevels, hrun, hscan, ?_⟩
  have houtcomes : out.levelOutcomes = os := hscan.levelOutcomes
  have hsearched : out.searchedLevels = os.map (·.level) := hscan.searchedLevels
  have hperm : (out.searchedLevels ++ out.skippedEmptyLevels).Perm visited := by
    rw [hscan.searchedLevels, hscan.skippedEmptyLevels, hscan.levels]
    simp only [decide_not, Bool.decide_eq_true]
    exact List.filter_append_perm _ _
  have hranks : ∀ o ∈ out.levelOutcomes, ∃ entry ∈ levels.entries, o.level = entry.1 ∧
      (o.pos = entry.2.countP fun item ↦ item.1 < key) ∧
      (o.found = true ↔ key ∈ entry.2.map Prod.fst) ∧
      idx.itemRankOf o.level key = .ok (if o.found then some o.pos else none) := by
    intro o ho
    obtain ⟨entry, hentry, l, hl, hbuilt, hanswers⟩ := h.answers_of_scanned hscan (houtcomes ▸ ho)
    refine ⟨entry, hentry, hanswers.level.trans hbuilt.level,
      hanswers.pos.trans (hbuilt.lowerRank_keys key),
      hanswers.found_iff.trans hbuilt.mem_keys_iff, ?_⟩
    rw [hanswers.level, h.itemRankOf_eq hl, hanswers.pos]
    simp only [hanswers.found_iff]
  rcases hend with ⟨rfl, hmiss⟩ | ⟨o, hhit⟩
  · rw [List.append_nil] at hlevels
    subst hlevels
    obtain ⟨hnone, hfound, hhit, hvalue⟩ := h.answers_of_missed hscan hmiss
    refine ⟨iff_of_false (by rw [hfound]; decide) hnone, fun hf ↦ ?_, fun _ ↦ ⟨hhit, hvalue⟩,
      by rw [houtcomes, hsearched], hranks, ?_⟩
    · rw [hfound] at hf
      cases hf
    · rw [hhit]
      exact hperm
  · obtain ⟨entry, hentry, value, hitem, hlevel, hvalue, hmin⟩ :=
      h.answers_of_hit hlevels hscan hhit
    refine ⟨iff_of_true hhit.found ⟨entry, hentry, List.mem_map_of_mem hitem⟩,
      fun _ ↦ ⟨entry, hentry, value, hitem, hlevel, hvalue, hmin⟩, fun hf ↦ ?_,
      by rw [houtcomes, hsearched], hranks, ?_⟩
    · rw [hhit.found] at hf
      cases hf
    · obtain ⟨before, rfl⟩ := hhit.last
      rw [hhit.hitLevel]
      exact (intRange_of_start hlevels) ▸ hperm

end Query

/-- A query of a built index returns, finds a key exactly when some level holds it, at the
smallest such level and with its value there, and every level it searches reports the rank of
the key. -/
theorem query_correct {shuffle : Shuffle} (hbuild : build p shuffle levels = .ok idx)
    (key : Int) : ∃ out, idx.query key = .ok out ∧ AnswersQuery idx levels key out := by
  obtain ⟨-, -, -, out, -, hrun, -, hanswers⟩ := (build_eq_ok hbuild).query_spec key
  exact ⟨out, hrun, hanswers⟩

/-! ## A small index -/

/-- A labelled variant with two items in a block, indexed from level 3 on. -/
def smallFields (layout : Layout) (prpKey : Option Int) : ProfileFields where
  base := 4
  minLevel := 1
  minIndexLevel := 3
  itemsPerBlock := 2
  epsilon := 0
  layout := layout
  prpKey := prpKey
  variantLabel := some "small"

/-- The shuffle that turns every range around. -/
def reversal : Shuffle := ⟨fun _ n ↦ (List.range n).reverse, fun _ _ ↦ List.reverse_perm _⟩

/-- Three levels, the middle one empty; 5 is in the first and in the last. -/
def smallLevels : LevelMap :=
  ⟨[(3, [(5, "d"), (2, "e"), (7, "f"), (8, "g"), (11, "h")]), (2, []),
    (1, [(5, "a"), (1, "b"), (9, "c")])], by decide⟩

/-- The small levels are accepted in either layout. -/
theorem isOk_build_small : (build ⟨smallFields .staticPrp (some 7), by decide⟩ reversal
    smallLevels).isOk = true ∧ (build ⟨smallFields .ordered none, by decide⟩ reversal
      smallLevels).isOk = true := by
  decide +kernel

theorem query_correct_small : ∃ idx out, build ⟨smallFields .staticPrp (some 7), by decide⟩
    reversal smallLevels = .ok idx ∧ idx.query 8 = .ok out ∧
      AnswersQuery idx smallLevels 8 out := by
  obtain ⟨idx, hidx⟩ := exists_of_isOk isOk_build_small.1
  obtain ⟨out, hout, hanswers⟩ := query_correct hidx 8
  exact ⟨idx, out, hidx, hout, hanswers⟩

end ReferenceIndex

end EnhancedLetIndex
