import EnhancedLetIndex.Reference.View

/-!
# What the attack-facing view depends on

Two experiments that differ in the values of their records only have the same view.  Two that
differ in the layout key only have views that differ in the events of the queries and in what is
counted of them: the public configuration is a function of the shape of the levels, which has no
values and no placement (`ReferenceLevel.shape`).
-/

namespace EnhancedLetIndex

/-! ## The shape of a level -/

namespace ReferenceLevel

/-- The level without its values and with its blocks in order. -/
def shape (l : ReferenceLevel) : ReferenceLevel :=
  { l with values := [], placement := List.range l.blockCount }

variable (l : ReferenceLevel)

@[simp] theorem shape_level : l.shape.level = l.level := rfl

@[simp] theorem shape_itemCount : l.shape.itemCount = l.itemCount := rfl

@[simp] theorem shape_hasPgm : l.shape.hasPgm = l.hasPgm := rfl

@[simp] theorem shape_blockCount : l.shape.blockCount = l.blockCount := List.length_range

/-- The metadata of a level are those of its shape. -/
theorem filter_toDict_shape :
    (l.shape.toDict.filter fun f ↦ f.1 ≠ "placement") =
      l.toDict.filter fun f ↦ f.1 ≠ "placement" := by
  rw [filter_toDict, filter_toDict, shape_blockCount]
  rfl

end ReferenceLevel

/-- Two profiles that may differ in the layout key only. -/
def ReferenceProfile.SameButKey (p p' : ReferenceProfile) : Prop :=
  p'.toProfileFields = { p.toProfileFields with prpKey := p'.prpKey }

/-- Two declared levels that may differ in values only. -/
def SameKeys (entry entry' : Int × List (Int × String)) : Prop :=
  entry.1 = entry'.1 ∧ entry.2.map Prod.fst = entry'.2.map Prod.fst

/-- The keys of sorted items are the sorted keys. -/
theorem map_fst_sortedItems (items : List (Int × String)) :
    (sortedItems items).map Prod.fst = (items.map Prod.fst).insertionSort (· ≤ ·) := by
  have hperm : ((sortedItems items).map Prod.fst).Perm
      ((items.map Prod.fst).insertionSort (· ≤ ·)) :=
    ((perm_sortedItems items).map Prod.fst).trans (List.perm_insertionSort _ _).symm
  apply hperm.eq_of_pairwise' _ (List.pairwise_insertionSort (· ≤ ·) _)
  have hle := List.pairwise_insertionSort (fun a b : Int × String ↦ toLex a ≤ toLex b) items
  refine List.pairwise_map.mpr (hle.imp fun {a b} hab ↦ ?_)
  rcases Prod.Lex.toLex_le_toLex.mp hab with hlt | ⟨heq, -⟩
  · exact hlt.le
  · exact heq.le

namespace ReferenceIndex

variable {p p' : ReferenceProfile} {shuffle : Shuffle} {entry entry' : Int × List (Int × String)}
  {l : ReferenceLevel}

/-- A declared level is built alike from other values and with another layout key: only the
values and the placement may differ, and the placement only with the key. -/
theorem buildLevel_shape (hp : p.SameButKey p') (hentry : SameKeys entry entry')
    (h : buildLevel p shuffle entry = .ok l) : ∃ l', buildLevel p' shuffle entry' = .ok l' ∧
      l'.shape = l.shape ∧ (p'.prpKey = p.prpKey → l'.placement = l.placement) := by
  obtain ⟨level, items⟩ := entry
  obtain ⟨level', items'⟩ := entry'
  obtain ⟨hlevel, hkeys⟩ := hentry
  obtain rfl : level = level' := hlevel
  have hsorted : (sortedItems items').map Prod.fst = (sortedItems items).map Prod.fst := by
    rw [map_fst_sortedItems, map_fst_sortedItems, hkeys]
  have hlength : (sortedItems items').length = (sortedItems items).length := by
    simpa using congrArg List.length hsorted
  have hrecords : ((sortedItems items').map fun pair ↦ RecordKey.mk pair.1) =
      (sortedItems items).map fun pair ↦ RecordKey.mk pair.1 := by
    have hmap := congrArg (List.map RecordKey.mk) hsorted
    rwa [List.map_map, List.map_map] at hmap
  obtain ⟨hmin, h⟩ := require_bind_eq_ok.mp h
  obtain ⟨hnodup, h⟩ := require_bind_eq_ok.mp h
  obtain ⟨capacity, hcapacity, h⟩ := bind_eq_ok.mp h
  obtain ⟨hfits, h⟩ := require_bind_eq_ok.mp h
  obtain ⟨order, horder, h⟩ := bind_eq_ok.mp h
  obtain ⟨pgm, hpgm, h⟩ := bind_eq_ok.mp h
  cases h
  have hminLevel : p'.minLevel = p.minLevel := congrArg (·.minLevel) hp
  have hcapacity' : p'.maxSize level = .ok capacity := by
    rw [← hcapacity, ReferenceProfile.maxSize, ReferenceProfile.maxSize,
      show p'.base = p.base from congrArg (·.base) hp]
  have hitems : p'.itemsPerBlock = p.itemsPerBlock := congrArg (·.itemsPerBlock) hp
  have hcount : p'.blockCount (sortedItems items').length =
      p.blockCount (sortedItems items).length := by
    rw [ReferenceProfile.blockCount, ReferenceProfile.blockCount, hitems, hlength]
  have hpgm' : p'.levelPgm level ((sortedItems items').map fun pair ↦ RecordKey.mk pair.1) =
      .ok pgm := by
    rw [← hpgm, hrecords, ReferenceProfile.levelPgm, ReferenceProfile.levelPgm,
      ReferenceProfile.hasIndex, ReferenceProfile.hasIndex,
      show p'.minIndexLevel = p.minIndexLevel from congrArg (·.minIndexLevel) hp,
      show p'.epsilon = p.epsilon from congrArg (·.epsilon) hp]
  have hbacking : p'.levelBacking level = p.levelBacking level := by
    rw [ReferenceProfile.levelBacking, ReferenceProfile.levelBacking,
      show p'.minDiskLevel = p.minDiskLevel from congrArg (·.minDiskLevel) hp]
  obtain ⟨order', horder', hperm', -⟩ :=
    p'.placement_eq shuffle level (p'.blockCount (sortedItems items').length)
  obtain ⟨order'', horder'', hperm, -⟩ :=
    p.placement_eq shuffle level (p.blockCount (sortedItems items).length)
  obtain rfl := Except.ok.inj (horder.symm.trans horder'')
  refine ⟨{
    level
    itemsPerBlock := p'.itemsPerBlock.toNat
    keys := (sortedItems items').map fun pair ↦ RecordKey.mk pair.1
    values := (sortedItems items').map Prod.snd
    pgm
    placement := order'
    backing := p'.levelBacking level }, ?_, ?_, ?_⟩
  · have hmin' : p'.minLevel ≤ level := hminLevel ▸ hmin
    have hnodup' : ((sortedItems items').map Prod.fst).Nodup := hsorted ▸ hnodup
    have hfits' : (sortedItems items').length ≤ capacity := hlength ▸ hfits
    simp only [buildLevel, require_of hmin', require_of hnodup', require_of hfits', ok_bind,
      hcapacity', horder', hpgm', pure_eq_ok]
  · have hlen : order'.length = order.length := by
      rw [hperm'.length_eq, hperm.length_eq, hcount]
    simp only [ReferenceLevel.shape, ReferenceLevel.blockCount, hitems, hrecords, hbacking, hlen]
  · intro hkey
    have hplacement : p'.placement shuffle level (p'.blockCount (sortedItems items').length) =
        p.placement shuffle level (p.blockCount (sortedItems items).length) := by
      rw [ReferenceProfile.placement, ReferenceProfile.placement, ReferenceProfile.buildKey,
        ReferenceProfile.buildKey, ReferenceProfile.layoutKey, ReferenceProfile.layoutKey, hkey,
        show p'.layout = p.layout from congrArg (·.layout) hp, hcount]
    rw [horder, horder'] at hplacement
    exact Except.ok.inj hplacement

/-- Levels built one by one from other values and with another layout key. -/
theorem mapM_buildLevel_shape (hp : p.SameButKey p')
    {entries entries' : List (Int × List (Int × String))}
    (hentries : List.Forall₂ SameKeys entries entries') {built : List ReferenceLevel}
    (h : entries.mapM (buildLevel p shuffle) = .ok built) :
    ∃ built', entries'.mapM (buildLevel p' shuffle) = .ok built' ∧
      built'.map ReferenceLevel.shape = built.map ReferenceLevel.shape ∧
      (p'.prpKey = p.prpKey →
        built'.map ReferenceLevel.placement = built.map ReferenceLevel.placement) := by
  induction hentries generalizing built with
  | nil =>
    cases h
    exact ⟨[], rfl, rfl, fun _ ↦ rfl⟩
  | cons hentry _ ih =>
    rw [List.mapM_cons] at h
    obtain ⟨l, hl, h⟩ := bind_eq_ok.mp h
    obtain ⟨rest, hrest, h⟩ := bind_eq_ok.mp h
    cases h
    obtain ⟨l', hl', hshape, hplacement⟩ := buildLevel_shape hp hentry hl
    obtain ⟨rest', hrest', hshapes, hplacements⟩ := ih hrest
    refine ⟨l' :: rest', ?_, ?_, fun hkey ↦ ?_⟩
    · rw [List.mapM_cons, hl', ok_bind, hrest', ok_bind]
      rfl
    · rw [List.map_cons, List.map_cons, hshape, hshapes]
    · rw [List.map_cons, List.map_cons, hplacement hkey, hplacements hkey]

theorem usedLevelsOf_shape (levels : List ReferenceLevel) :
    usedLevelsOf p (levels.map ReferenceLevel.shape) = usedLevelsOf p levels := by
  rw [usedLevelsOf, usedLevelsOf, List.filter_map, List.map_map]
  rfl

theorem scannedCounts_shape (levels : List ReferenceLevel) (usedLevels : Int) :
    scannedCounts (levels.map ReferenceLevel.shape) usedLevels =
      scannedCounts levels usedLevels := by
  rw [scannedCounts, scannedCounts, List.filter_map, List.map_map]
  refine List.map_congr_left fun l _ ↦ ?_
  show (l.level, l.shape.blockCount) = (l.level, l.blockCount)
  rw [l.shape_blockCount]

/-- Two indexes of one shape, whose profiles may differ in the layout key. -/
structure Alike (idx idx' : ReferenceIndex) : Prop where
  profile : idx.profile.SameButKey idx'.profile
  shape : idx'.levels.map ReferenceLevel.shape = idx.levels.map ReferenceLevel.shape
  usedLevels : idx'.usedLevels = idx.usedLevels
  projection : idx'.projection = idx.projection

/-- Declared levels that may differ in values only are built alike, whatever the layout key. -/
theorem build_alike (hp : p.SameButKey p') {levels levels' : LevelMap}
    (hlevels : List.Forall₂ SameKeys levels.entries levels'.entries) {idx : ReferenceIndex}
    (h : build p shuffle levels = .ok idx) : ∃ idx', build p' shuffle levels' = .ok idx' ∧
      idx.Alike idx' ∧ (p'.prpKey = p.prpKey →
        idx'.levels.map ReferenceLevel.placement = idx.levels.map ReferenceLevel.placement) := by
  obtain ⟨built, hbuilt, h⟩ := bind_eq_ok.mp h
  cases h
  obtain ⟨built', hbuilt', hshape, hplacement⟩ := mapM_buildLevel_shape hp hlevels hbuilt
  have hminLevel : p'.minLevel = p.minLevel := congrArg (·.minLevel) hp
  have hused : usedLevelsOf p' built' = usedLevelsOf p built := by
    rw [← usedLevelsOf_shape built', hshape, usedLevelsOf_shape, usedLevelsOf, usedLevelsOf,
      hminLevel]
  have hcounts : scannedCounts built' (usedLevelsOf p' built') =
      scannedCounts built (usedLevelsOf p built) := by
    rw [← scannedCounts_shape built', hshape, scannedCounts_shape, hused]
  refine ⟨_, by rw [build, hbuilt', ok_bind]; rfl, ⟨hp, hshape, hused, ?_⟩, hplacement⟩
  exact congrArg SlotProjection.fromBlockCounts hcounts

namespace Alike

variable {idx idx' : ReferenceIndex} (h : idx.Alike idx')

include h

theorem declared : idx'.declared = idx.declared := by
  have hlevel : idx'.levels.map (·.level) = idx.levels.map (·.level) := by
    have hmap := congrArg (List.map ReferenceLevel.level) h.shape
    rwa [List.map_map, List.map_map] at hmap
  rw [ReferenceIndex.declared, ReferenceIndex.declared, hlevel]

theorem scannedLevels : idx'.scannedLevels = idx.scannedLevels := by
  have hminLevel : idx'.profile.minLevel = idx.profile.minLevel := congrArg (·.minLevel) h.profile
  rw [ReferenceIndex.scannedLevels, ReferenceIndex.scannedLevels, h.usedLevels, hminLevel]

/-- The level of a number has the same shape in both indexes. -/
theorem findKey_level (level : Int) :
    (findKey ReferenceLevel.level level idx'.levels).map ReferenceLevel.shape =
      (findKey ReferenceLevel.level level idx.levels).map ReferenceLevel.shape := by
  have hfind := congrArg (findKey ReferenceLevel.level level) h.shape
  rw [findKey, findKey, List.find?_map, List.find?_map] at hfind
  exact hfind

theorem occupied (level : Int) : (idx'.occupied level).map ReferenceLevel.shape =
    (idx.occupied level).map ReferenceLevel.shape := by
  have hoccupied : ∀ idx : ReferenceIndex, (idx.occupied level).map ReferenceLevel.shape =
      ((findKey ReferenceLevel.level level idx.levels).map ReferenceLevel.shape).filter
        fun l ↦ l.itemCount ≠ 0 := by
    intro idx
    unfold ReferenceIndex.occupied
    cases findKey ReferenceLevel.level level idx.levels with
    | none => rfl
    | some l =>
      rw [Option.map_some, Option.filter, Option.filter, l.shape_itemCount]
      split_ifs <;> rfl
  rw [hoccupied, hoccupied, h.findKey_level]

/-- Loading a level does not depend on its values or its placement. -/
theorem loadLevel {levels levels' : LevelMap} (hbuilt : idx.BuiltFrom p levels)
    (hbuilt' : idx'.BuiltFrom p' levels') (operations : List ObservedOperation) (level : Int) :
    idx'.loadLevel operations level = idx.loadLevel operations level := by
  have hfind := h.findKey_level level
  rw [ReferenceIndex.loadLevel, ReferenceIndex.loadLevel, ReferenceIndex.level,
    ReferenceIndex.level, h.projection]
  cases hl : findKey ReferenceLevel.level level idx.levels with
  | none =>
    rw [hl, Option.map_none, Option.map_eq_none_iff] at hfind
    rw [hfind]
  | some l =>
    rw [hl, Option.map_some, Option.map_eq_some_iff] at hfind
    obtain ⟨l', hl', hshape⟩ := hfind
    rw [hl']
    have hmem := (findKey_eq_some hbuilt.nodup_level).mp hl
    have hmem' := (findKey_eq_some hbuilt'.nodup_level).mp hl'
    have hitems : l'.itemCount = l.itemCount := by
      rw [← l'.shape_itemCount, hshape, l.shape_itemCount]
    have hblocks : l'.blockCount = l.blockCount := by
      rw [← l'.shape_blockCount, hshape, l.shape_blockCount]
    have hpgm : l'.hasPgm = l.hasPgm := by rw [← l'.shape_hasPgm, hshape, l.shape_hasPgm]
    simp only [ok_bind, hitems, hpgm, hbuilt.sorted_placement hmem.1,
      hbuilt'.sorted_placement hmem'.1, hblocks]

end Alike

end ReferenceIndex

/-! ## Without the values -/

/-- A level without its values. -/
def ReferenceLevel.eraseValues (l : ReferenceLevel) : ReferenceLevel := { l with values := [] }

@[simp] theorem ReferenceLevel.itemCount_eraseValues (l : ReferenceLevel) :
    l.eraseValues.itemCount = l.itemCount := rfl

/-- The outcome of a level lookup without its value. -/
def LevelLookupOutcome.eraseValue (o : LevelLookupOutcome) : LevelLookupOutcome :=
  { o with value := none }

/-- The outcome of a query without its values. -/
def ReferenceQueryOutcome.eraseValue (out : ReferenceQueryOutcome) : ReferenceQueryOutcome :=
  { out with
    value := none
    levelOutcomes := out.levelOutcomes.map LevelLookupOutcome.eraseValue }

namespace ReferenceIndex

/-- An index without its values. -/
def eraseValues (idx : ReferenceIndex) : ReferenceIndex :=
  { idx with levels := idx.levels.map ReferenceLevel.eraseValues }

variable (idx : ReferenceIndex) (level query : Int)

theorem findKey_eraseValues : findKey ReferenceLevel.level level idx.eraseValues.levels =
    (findKey ReferenceLevel.level level idx.levels).map ReferenceLevel.eraseValues :=
  List.find?_map

theorem level_eraseValues :
    idx.eraseValues.level level = (idx.level level).map ReferenceLevel.eraseValues := by
  rw [ReferenceIndex.level, ReferenceIndex.level, findKey_eraseValues]
  cases findKey ReferenceLevel.level level idx.levels <;> rfl

theorem occupied_eraseValues : idx.eraseValues.occupied level =
    (idx.occupied level).map ReferenceLevel.eraseValues := by
  rw [occupied, occupied, findKey_eraseValues]
  cases findKey ReferenceLevel.level level idx.levels with
  | none => rfl
  | some l =>
    show Option.filter (fun l ↦ l.itemCount ≠ 0) (some l.eraseValues) = _
    rw [Option.filter, Option.filter, l.itemCount_eraseValues]
    split_ifs <;> rfl

theorem runSearch_eraseValues (l : ReferenceLevel) (interval : Nat × Nat) (path : String)
    (search : SearchM Nat) : runSearch l.eraseValues query interval path search =
      (runSearch l query interval path search).map LevelLookupOutcome.eraseValue := by
  rw [runSearch, runSearch]
  cases search.run {} with
  | error e s => rfl
  | ok pos s =>
    have hvalue : (levelOutcome l.eraseValues query pos interval path s).value = none := by
      show (if _ then ([] : List String)[pos]? else none) = none
      split_ifs <;> rfl
    have heq : levelOutcome l.eraseValues query pos interval path s =
        (levelOutcome l.eraseValues query pos interval path s).eraseValue := by
      rw [LevelLookupOutcome.eraseValue, ← hvalue]
    exact congrArg Except.ok heq

/-- A lookup in an index without values is the lookup without its value. -/
theorem lookupLevel_eraseValues : idx.eraseValues.lookupLevel level query =
    (idx.lookupLevel level query).map LevelLookupOutcome.eraseValue := by
  rw [lookupLevel, lookupLevel, level_eraseValues]
  cases hl : idx.level level with
  | error e => rfl
  | ok l =>
    show (if l.hasPgm then _ else runSearch l.eraseValues query _ _ _) =
      Except.map _ (if l.hasPgm then _ else _)
    split_ifs
    · show (pgmInterval l query >>= fun interval ↦ _) =
        Except.map _ (pgmInterval l query >>= fun interval ↦ _)
      cases pgmInterval l query with
      | error e => rfl
      | ok interval =>
        simp only [ok_bind, lookupLevelWithInterval, level_eraseValues, hl]
        show (require _ _ >>= fun _ ↦ _) = Except.map _ (require _ _ >>= fun _ ↦ _)
        rw [l.itemCount_eraseValues]
        by_cases hwindow : interval.lo ≤ interval.hi ∧ interval.hi ≤ l.itemCount
        · rw [require_of hwindow]
          exact runSearch_eraseValues query l _ _ _
        · rw [require, if_neg hwindow]
          rfl
    · exact runSearch_eraseValues query l _ _ _

theorem queryLoop_eraseValues (levels : List Int) (acc : ReferenceQueryOutcome) :
    idx.eraseValues.queryLoop query levels acc.eraseValue =
      (idx.queryLoop query levels acc).map ReferenceQueryOutcome.eraseValue := by
  induction levels generalizing acc with
  | nil => rfl
  | cons level levels ih =>
    rw [queryLoop, queryLoop, occupied_eraseValues]
    cases idx.occupied level with
    | none => exact ih (skip acc level)
    | some l =>
      rw [Option.map_some, lookupLevel_eraseValues]
      cases idx.lookupLevel level query with
      | error e => rfl
      | ok o =>
        have hextend : extend acc.eraseValue o.eraseValue = (extend acc o).eraseValue := by
          simp [extend, ReferenceQueryOutcome.eraseValue, LevelLookupOutcome.eraseValue]
        show (if o.found then _ else _) = Except.map _ (if o.found then _ else _)
        rw [hextend]
        split_ifs
        · rfl
        · exact ih (extend acc o)

/-- A query of an index without values is the query without its values. -/
theorem query_eraseValues (key : Int) : idx.eraseValues.query key =
    (idx.query key).map ReferenceQueryOutcome.eraseValue :=
  queryLoop_eraseValues idx key idx.scannedLevels (started key)

/-- Two indexes of one shape and one placement are one index without their values. -/
theorem Alike.eraseValues_eq {idx idx' : ReferenceIndex} (h : idx.Alike idx')
    (hprofile : idx'.profile = idx.profile) (hplacement : idx'.levels.map
      ReferenceLevel.placement = idx.levels.map ReferenceLevel.placement) :
    idx'.eraseValues = idx.eraseValues := by
  have hzip : ∀ levels : List ReferenceLevel, levels.map ReferenceLevel.eraseValues =
      List.zipWith (fun l placement ↦ { l with placement }) (levels.map ReferenceLevel.shape)
        (levels.map ReferenceLevel.placement) := by
    intro levels
    rw [List.zipWith_map, List.zipWith_self]
    rfl
  rw [eraseValues, eraseValues, hzip, hzip, h.shape, hplacement, hprofile, h.usedLevels,
    h.projection]

/-- Indexes that are one without their values answer the same queries with the same events. -/
theorem map_events_of_eraseValues {idx idx' : ReferenceIndex}
    (h : idx'.eraseValues = idx.eraseValues) {keys : List Int}
    {outs outs' : List ReferenceQueryOutcome}
    (houts : List.Forall₂ (fun key out ↦ idx.query key = .ok out) keys outs)
    (houts' : List.Forall₂ (fun key out ↦ idx'.query key = .ok out) keys outs') :
    outs'.map (·.events) = outs.map (·.events) := by
  induction houts generalizing outs' with
  | nil =>
    cases houts'
    rfl
  | @cons key out keys outs hout _ ih =>
    obtain _ | ⟨hout', hrest'⟩ := houts'
    have herase := query_eraseValues idx key
    rw [← h, query_eraseValues, hout, hout'] at herase
    have hevents := congrArg ReferenceQueryOutcome.events (Except.ok.inj herase)
    rw [List.map_cons, List.map_cons, ih hrest']
    exact congrArg (· :: _) hevents

end ReferenceIndex

/-! ## Two experiments -/

/-- Two experiments that may differ in the values of the records only. -/
structure ReferenceExperiment.SameButValues (e e' : ReferenceExperiment) : Prop where
  rest : e' = { e with levels := e'.levels }
  levels : List.Forall₂ SameKeys e.levels e'.levels

/-- Two experiments with a permuted layout that may differ in the layout key only. -/
structure ReferenceExperiment.SameButKey (e e' : ReferenceExperiment) : Prop where
  rest : e' = { e with profile := e'.profile }
  profile : e.profile.SameButKey e'.profile
  layout : e.profile.layout = .staticPrp

/-- The view without the events of the operations and what is counted of them. -/
def AdversaryInput.hideEvents (v : AdversaryInput) : AdversaryInput :=
  { v with transcript := { v.transcript with
    operations := v.transcript.operations.map fun o ↦
      { o with events := [], readCount := 0, writeCount := 0 }
    summary := v.transcript.summary.filter fun f ↦
      f.1 ∉ ["total_reads", "total_writes", "distinct_slots"] } }

theorem sameKeys_storeEntry {entries entries' : List (Int × List (Int × String))}
    {entry entry' : Int × List (Int × String)} (h : List.Forall₂ SameKeys entries entries')
    (hentry : SameKeys entry entry') :
    List.Forall₂ SameKeys (storeEntry entries entry) (storeEntry entries' entry') := by
  have hkeys : entries'.map Prod.fst = entries.map Prod.fst :=
    (map_eq_of_forall₂ (h.imp fun _ _ hsame ↦ hsame.1)).symm
  unfold storeEntry
  rw [hkeys, ← hentry.1]
  split_ifs
  · refine List.forall₂_map_left_iff.mpr (List.forall₂_map_right_iff.mpr (h.imp fun a b hsame ↦ ?_))
    rw [← hsame.1]
    split_ifs
    · exact hentry
    · exact hsame
  · exact List.rel_append h (.cons hentry .nil)

theorem sameKeys_levelMap {e e' : ReferenceExperiment}
    (h : List.Forall₂ SameKeys e.levels e'.levels) :
    List.Forall₂ SameKeys e.levelMap.entries e'.levelMap.entries := by
  have hfold : ∀ entries entries' : List (Int × List (Int × String)),
      List.Forall₂ SameKeys entries entries' → List.Forall₂ SameKeys
        (e.levels.foldl storeEntry entries) (e'.levels.foldl storeEntry entries') := by
    generalize e.levels = levels, e'.levels = levels' at h
    induction h with
    | nil => exact fun _ _ ↦ id
    | cons hentry _ ih => exact fun _ _ hentries ↦ ih _ _ (sameKeys_storeEntry hentries hentry)
  exact hfold [] [] .nil

namespace ReferenceTraceBuilder

/-- The operations of queries are a function of their events. -/
theorem queryOperations_congr {outs outs' : List ReferenceQueryOutcome}
    (h : outs'.map (·.events) = outs.map (·.events)) (start : Nat) :
    queryOperations start outs' = queryOperations start outs := by
  induction outs generalizing outs' start with
  | nil =>
    rw [List.map_nil, List.map_eq_nil_iff] at h
    rw [h]
  | cons out outs ih =>
    cases outs' with
    | nil => cases h
    | cons out' outs' =>
      obtain ⟨hevents, hrest⟩ := List.cons.inj h
      have hevents : out'.events = out.events := hevents
      rw [queryOperations, queryOperations, ih hrest, queryOperation, queryOperation, hevents]

/-- Without their events, the operations of queries are a function of their number. -/
theorem map_hide_queryOperations {outs outs' : List ReferenceQueryOutcome}
    (h : outs'.length = outs.length) (start : Nat) :
    (queryOperations start outs').map (fun o ↦
      { o with events := [], readCount := 0, writeCount := 0 }) =
    (queryOperations start outs).map fun o ↦
      { o with events := [], readCount := 0, writeCount := 0 } := by
  induction outs generalizing outs' start with
  | nil => rw [List.length_eq_zero_iff.mp h]
  | cons out outs ih =>
    obtain ⟨out', outs', rfl⟩ := List.exists_cons_of_length_eq_add_one h
    rw [queryOperations, queryOperations, List.map_cons, List.map_cons,
      ih (Nat.succ.inj h)]
    rfl

/-- Runs of alike experiments whose operations agree without their events have one view without
the events. -/
theorem hideEvents_view {b b' : ReferenceTraceBuilder} (hconfig : b'.publicConfig = b.publicConfig)
    (hmetadata : b'.runMetadata = b.runMetadata)
    (h : b'.operations.map (fun o ↦ { o with events := [], readCount := 0, writeCount := 0 }) =
      b.operations.map fun o ↦ { o with events := [], readCount := 0, writeCount := 0 }) :
    b'.view.hideEvents = b.view.hideEvents := by
  have hclasses : b'.operations.map (·.operationClass) = b.operations.map (·.operationClass) := by
    have hmap := congrArg (List.map ObservedOperation.operationClass) h
    rwa [List.map_map, List.map_map] at hmap
  have hlength : b'.operations.length = b.operations.length := by
    simpa using congrArg List.length hclasses
  have hqueries : ∀ operations : List ObservedOperation,
      operations.countP (fun o ↦ o.operationClass = .query) =
        (operations.map (·.operationClass)).countP (· = .query) := by
    intro operations
    rw [List.countP_map]
    rfl
  have hcount : b'.operations.countP (fun o ↦ o.operationClass = .query) =
      b.operations.countP (fun o ↦ o.operationClass = .query) := by
    rw [hqueries, hqueries, hclasses]
  have hsummary : ∀ operations : List ObservedOperation,
      ((summarizeOperations operations).fields.map fun f ↦ (f.1, Json.int f.2)).filter
        (fun f ↦ f.1 ∉ ["total_reads", "total_writes", "distinct_slots"]) =
      [("operation_count", .int operations.length),
        ("query_count", .int (operations.countP fun o ↦ o.operationClass = .query)),
        ("merge_count", .int 0)] := fun _ ↦ rfl
  simp only [AdversaryInput.hideEvents, view, hconfig, hmetadata, h, hsummary, hlength, hcount]

/-- A loaded and queried run with a family has a view when it has an operation. -/
theorem complete_of_loaded {b : ReferenceTraceBuilder} {slots : List Int}
    {new : List ObservedOperation} {outs : List ReferenceQueryOutcome}
    (hoperations : b.operations = new ++ queryOperations new.length outs)
    (hnew : Loaded 0 slots new) (hfamily : b.experiment.family ≠ "") (hne : b.operations ≠ []) :
    b.Complete := by
  refine ⟨hfamily, ?_, hne, ?_⟩
  · rw [hoperations]
    apply hnew.toRecorded.append
    rw [Nat.zero_add]
    exact recorded_queryOperations new.length outs
  · rw [hoperations]
    refine List.forall_mem_append.mpr ⟨fun o ho ↦ ?_, fun o ho ↦ ?_⟩
    · have hclass := hnew.classes o ho
      simp only [List.mem_cons, List.not_mem_nil, or_false] at hclass
      rcases hclass with hclass | hclass <;> rw [hclass] <;> decide
    · rw [class_queryOperations o ho]
      decide

/-- Two runs that load alike and answer the same queries. -/
structure Alike (b b' : ReferenceTraceBuilder) : Prop where
  family : b'.experiment.family = b.experiment.family
  profile : b.experiment.profile.SameButKey b'.experiment.profile
  index : b.index.Alike b'.index
  eraseValues : b'.experiment.profile = b.experiment.profile →
    b'.index.eraseValues = b.index.eraseValues
  queryKeys : b'.experiment.queryKeys = b.experiment.queryKeys
  queries : List.Forall₂ (fun key out ↦ b.index.query key = .ok out) b.experiment.queryKeys
    b.outcomes
  queries' : List.Forall₂ (fun key out ↦ b'.index.query key = .ok out) b'.experiment.queryKeys
    b'.outcomes
  operations : ∃ slots new, Loaded 0 slots new ∧
    b.operations = new ++ queryOperations new.length b.outcomes ∧
    b'.operations = new ++ queryOperations new.length b'.outcomes

namespace Alike

variable {b b' : ReferenceTraceBuilder} (h : b.Alike b')

include h

/-- The public configuration is a function of the shape of the levels. -/
theorem publicConfig : b'.publicConfig = b.publicConfig := by
  have hmetadata : ∀ b : ReferenceTraceBuilder, b.levelMetadata =
      (b.index.declared.filterMap fun level ↦ (b.index.occupied level).map
        ReferenceLevel.shape).map fun l ↦ .obj (l.toDict.filter fun f ↦ f.1 ≠ "placement") := by
    intro b
    rw [levelMetadata, ← List.map_filterMap, List.map_map, List.map_map]
    exact List.map_congr_left fun l _ ↦ congrArg Json.obj l.filter_toDict_shape.symm
  have hpublic : b'.experiment.profile.publicDict = b.experiment.profile.publicDict := by
    rw [h.profile]
    rfl
  rw [ReferenceTraceBuilder.publicConfig, ReferenceTraceBuilder.publicConfig, hmetadata, hmetadata,
    hpublic, h.index.usedLevels, h.index.scannedLevels, h.index.declared]
  simp only [h.index.occupied]

/-- The metadata of a run has no layout key. -/
theorem runMetadata : b'.runMetadata = b.runMetadata := by
  rw [ReferenceTraceBuilder.runMetadata, ReferenceTraceBuilder.runMetadata, h.family, h.profile]

/-- With one profile, alike runs have the same operations. -/
theorem operations_eq (hprofile : b'.experiment.profile = b.experiment.profile) :
    b'.operations = b.operations := by
  obtain ⟨-, new, -, hnew, hnew'⟩ := h.operations
  have hevents := ReferenceIndex.map_events_of_eraseValues (h.eraseValues hprofile) h.queries
    (h.queryKeys ▸ h.queries')
  rw [hnew, hnew', queryOperations_congr hevents]

/-- Without their events, alike runs have the same operations. -/
theorem map_hide_operations :
    b'.operations.map (fun o ↦ { o with events := [], readCount := 0, writeCount := 0 }) =
      b.operations.map fun o ↦ { o with events := [], readCount := 0, writeCount := 0 } := by
  obtain ⟨-, new, -, hnew, hnew'⟩ := h.operations
  have hlength : b'.outcomes.length = b.outcomes.length := by
    rw [← h.queries'.length_eq, ← h.queries.length_eq, h.queryKeys]
  rw [hnew, hnew', List.map_append, List.map_append, map_hide_queryOperations hlength]

theorem complete (hb : b.Complete) : b'.Complete := by
  obtain ⟨slots, new, hloaded, -, hnew'⟩ := h.operations
  apply complete_of_loaded hnew' hloaded (h.family ▸ hb.family_ne)
  intro hnil
  have hhide := h.map_hide_operations
  rw [hnil, List.map_nil, eq_comm, List.map_eq_nil_iff] at hhide
  exact hb.ne_nil hhide

end Alike

end ReferenceTraceBuilder

namespace ReferenceExperiment

open ReferenceTraceBuilder

/-- Two experiments that are loaded alike and ask the same queries. -/
structure Alike (e e' : ReferenceExperiment) : Prop where
  family : e'.family = e.family
  queryKeys : e'.queryKeys = e.queryKeys
  profile : e.profile.SameButKey e'.profile
  levels : List.Forall₂ SameKeys e.levels e'.levels

variable {shuffle : Shuffle} {e e' : ReferenceExperiment} {idx : ReferenceIndex}

theorem SameButValues.alike (h : e.SameButValues e') : e.Alike e' := by
  have hprofile : e'.profile = e.profile := congrArg (·.profile) h.rest
  exact ⟨congrArg (·.family) h.rest, congrArg (·.queryKeys) h.rest, by rw [hprofile]; rfl, h.levels⟩

theorem SameButKey.alike (h : e.SameButKey e') : e.Alike e' := by
  have hlevels : e'.levels = e.levels := congrArg (·.levels) h.rest
  refine ⟨congrArg (·.family) h.rest, congrArg (·.queryKeys) h.rest, h.profile, ?_⟩
  rw [hlevels]
  exact List.forall₂_same.mpr fun _ _ ↦ ⟨rfl, rfl⟩

/-- Alike experiments have alike runs. -/
theorem Alike.run (h : e.Alike e') {b : ReferenceTraceBuilder}
    (hbuild : ReferenceIndex.build e.profile shuffle e.levelMap = .ok idx)
    (hrun : e.run shuffle = .ok b) :
    ∃ b', e'.run shuffle = .ok b' ∧ b'.experiment = e' ∧ b.Alike b' := by
  obtain ⟨idx', hbuild', hsame, hplacement⟩ :=
    ReferenceIndex.build_alike h.profile (sameKeys_levelMap h.levels) hbuild
  obtain ⟨new, outs, hload, hnew, houts, hrun₁⟩ := run_spec hbuild
  obtain ⟨new', outs', hload', -, houts', hrun'⟩ := run_spec hbuild'
  obtain rfl := Except.ok.inj (hrun.symm.trans hrun₁)
  have hbuilt := ReferenceIndex.build_eq_ok hbuild
  have hbuilt' := ReferenceIndex.build_eq_ok hbuild'
  have hstep : idx'.loadLevel = idx.loadLevel := by
    funext operations level
    exact hsame.loadLevel hbuilt hbuilt' operations level
  rw [hsame.declared, hstep, hload] at hload'
  obtain rfl := Except.ok.inj hload'
  refine ⟨_, hrun', rfl, h.family, h.profile, hsame, fun hprofile ↦ ?_, h.queryKeys, houts, houts',
    _, new, hnew, rfl, rfl⟩
  apply hsame.eraseValues_eq
  · exact hbuilt'.profile.trans (hprofile.trans hbuilt.profile.symm)
  · exact hplacement (congrArg (·.prpKey) hprofile)

/-- Every run of an accepted experiment has a view when it has an operation.  The view does not
depend on the values of the records, and on the layout key only in the events of the operations
and in what is counted of them. -/
theorem view_of_run (hfamily : e.family ≠ "")
    (hbuild : ReferenceIndex.build e.profile shuffle e.levelMap = .ok idx) :
    ∃ b, e.run shuffle = .ok b ∧ (b.operations ≠ [] →
      validateReferenceTranscript b.transcriptDict = .ok () ∧
      b.transcriptPayload = .ok b.transcriptDict ∧
      ∃ artifact v, b.artifact = .ok artifact ∧
        AdversaryInput.fromReferenceArtifact artifact = .ok v ∧
        (∀ e', e.SameButValues e' → ∃ b' artifact', e'.run shuffle = .ok b' ∧
          b'.artifact = .ok artifact' ∧
          AdversaryInput.fromReferenceArtifact artifact' = .ok v) ∧
        ∀ e', e.SameButKey e' → ∃ b' artifact' v', e'.run shuffle = .ok b' ∧
          b'.artifact = .ok artifact' ∧
          AdversaryInput.fromReferenceArtifact artifact' = .ok v' ∧
          v'.publicConfig = v.publicConfig ∧
          v'.transcript.runMetadata = v.transcript.runMetadata ∧
          v'.hideEvents = v.hideEvents) := by
  obtain ⟨new, outs, -, hnew, -, hrun⟩ := run_spec hbuild
  refine ⟨_, hrun, fun hne ↦ ?_⟩
  have hcomplete := complete_of_loaded rfl hnew hfamily hne
  obtain ⟨artifact, hartifact, hview⟩ := hcomplete.fromReferenceArtifact
  refine ⟨hcomplete.validate, hcomplete.transcriptPayload, artifact, _, hartifact, hview,
    fun e' he ↦ ?_, fun e' he ↦ ?_⟩
  · obtain ⟨b', hrun', hexperiment, halike⟩ := he.alike.run hbuild hrun
    obtain ⟨artifact', hartifact', hview'⟩ := (halike.complete hcomplete).fromReferenceArtifact
    have hprofile : e'.profile = e.profile := congrArg (·.profile) he.rest
    refine ⟨b', artifact', hrun', hartifact', hview'.trans (congrArg Except.ok ?_)⟩
    rw [view, view, halike.runMetadata, halike.publicConfig,
      halike.operations_eq (hexperiment ▸ hprofile)]
  · obtain ⟨b', hrun', -, halike⟩ := he.alike.run hbuild hrun
    obtain ⟨artifact', hartifact', hview'⟩ := (halike.complete hcomplete).fromReferenceArtifact
    exact ⟨b', artifact', _, hrun', hartifact', hview', halike.publicConfig, halike.runMetadata,
      hideEvents_view halike.publicConfig halike.runMetadata halike.map_hide_operations⟩

/-- The small experiment, with other values. -/
def otherValues : ReferenceExperiment :=
  { ReferenceIndex.smallExperiment with
    levels := [(3, [(5, "v"), (2, "w"), (7, "x"), (8, "y"), (11, "z")]), (2, []),
      (1, [(5, "s"), (1, "t"), (9, "u")])] }

/-- The small experiment, with another layout key. -/
def otherKey : ReferenceExperiment :=
  { ReferenceIndex.smallExperiment with
    profile := ⟨ReferenceIndex.smallFields .staticPrp (some 8), by decide⟩ }

open ReferenceIndex in
theorem view_of_run_small : ∃ b artifact v, smallExperiment.run reversal = .ok b ∧
    b.artifact = .ok artifact ∧ AdversaryInput.fromReferenceArtifact artifact = .ok v ∧
    (∃ b' artifact', otherValues.run reversal = .ok b' ∧ b'.artifact = .ok artifact' ∧
      AdversaryInput.fromReferenceArtifact artifact' = .ok v) ∧
    ∃ b' artifact' v', otherKey.run reversal = .ok b' ∧ b'.artifact = .ok artifact' ∧
      AdversaryInput.fromReferenceArtifact artifact' = .ok v' ∧
      v'.hideEvents = v.hideEvents := by
  obtain ⟨idx, hidx⟩ := exists_of_isOk isOk_build_small.1
  obtain ⟨b, hb, hview⟩ := view_of_run (e := smallExperiment) (by decide) hidx
  have hne : b.operations ≠ [] := by
    obtain ⟨new, outs, -, -, houts, hrun⟩ := run_spec (e := smallExperiment) hidx
    obtain rfl := Except.ok.inj (hb.symm.trans hrun)
    obtain _ | ⟨-, -⟩ := houts
    simp [queryOperations]
  obtain ⟨-, -, artifact, v, hartifact, hv, hvalues, hkey⟩ := hview hne
  have hother : List.Forall₂ SameKeys smallExperiment.levels otherValues.levels :=
    .cons ⟨rfl, rfl⟩ (.cons ⟨rfl, rfl⟩ (.cons ⟨rfl, rfl⟩ .nil))
  obtain ⟨b', artifact', v', hb', hartifact', hv', -, -, hhide⟩ := hkey otherKey ⟨rfl, rfl, rfl⟩
  exact ⟨b, artifact, v, hb, hartifact, hv, hvalues otherValues ⟨rfl, hother⟩, b', artifact', v',
    hb', hartifact', hv', hhide⟩

end ReferenceExperiment

end EnhancedLetIndex
