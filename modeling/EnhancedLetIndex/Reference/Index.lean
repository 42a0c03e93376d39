import Mathlib.Data.Prod.Lex
import Mathlib.Data.String.Basic
import EnhancedLetIndex.Pgm.Search
import EnhancedLetIndex.Reference.Projection

/-!
# The levels of a reference index

`ReferenceIndex.build` of `letindex_ref.py`.  The shuffle of Python's generator is a parameter:
all that is used of it is that it permutes (`Shuffle`).  What an accepted build says about a
level is `ReferenceLevel.BuiltFrom`, and about the whole index `ReferenceIndex.BuiltFrom`.
-/

namespace EnhancedLetIndex

/-- `random.Random(seed).shuffle` on `range(n)`: any function of the seed that permutes. -/
structure Shuffle where
  order : Int → Nat → List Nat
  perm : ∀ seed n, (order seed n).Perm (List.range n)

/-- The items of the declared levels: a mapping, in its order of insertion. -/
structure LevelMap where
  entries : List (Int × List (Int × String))
  nodup : (entries.map Prod.fst).Nodup

/-- `ReferenceLevel`: sorted items, an optional model and the physical placement, which maps
the logical rank of a block to its physical offset. -/
structure ReferenceLevel where
  level : Int
  itemsPerBlock : Nat
  keys : List RecordKey
  values : List String
  pgm : Option BatchPgmIndex
  placement : List Nat
  backing : String
deriving DecidableEq

namespace ReferenceLevel

/-- `item_count`. -/
def itemCount (l : ReferenceLevel) : Nat := l.keys.length

/-- `block_count`. -/
def blockCount (l : ReferenceLevel) : Nat := l.placement.length

/-- `has_pgm`. -/
def hasPgm (l : ReferenceLevel) : Bool := l.pgm.isSome

/-- `physical_block`. -/
def physicalBlock (l : ReferenceLevel) (logical : Nat) : Except ReferenceError Nat :=
  match l.placement[logical]? with
  | some physical => .ok physical
  | none => .error .index

/-- `logical_block`. -/
def logicalBlock (l : ReferenceLevel) (physical : Nat) : Except ReferenceError Nat := do
  require (physical < l.blockCount) (.noPhysicalBlock l.level physical l.blockCount)
  match l.placement.idxOf? physical with
  | some logical => pure logical
  | none => throw .index

/-- `key_at`. -/
def keyAt (l : ReferenceLevel) (position : Nat) : Except ReferenceError RecordKey :=
  match l.keys[position]? with
  | some key => .ok key
  | none => .error .index

end ReferenceLevel

/-- `ReferenceIndex`.  `levels` keeps the order of declaration. -/
structure ReferenceIndex where
  profile : ReferenceProfile
  levels : List ReferenceLevel
  usedLevels : Int
  projection : SlotProjection

/-! ## Building -/

/-- `sorted` on pairs: by key, then by value. -/
def sortedItems (items : List (Int × String)) : List (Int × String) :=
  items.insertionSort fun a b ↦ toLex a ≤ toLex b

namespace ReferenceProfile

/-- `SeededPermutation(block_count, seed).as_tuple()` where the layout permutes. -/
def placement (p : ReferenceProfile) (shuffle : Shuffle) (level : Int) (blockCount : Nat) :
    Except ReferenceError (List Nat) := do
  let layoutKey ← p.buildKey
  let permutation := shuffle.order (levelSeed layoutKey level) blockCount
  pure (if p.layout = .staticPrp then permutation else List.range blockCount)

/-- The model of a level: none for an empty level or below the first indexed one. -/
def levelPgm (p : ReferenceProfile) (level : Int) (keys : List RecordKey) :
    Except ReferenceError (Option BatchPgmIndex) :=
  if p.hasIndex level ∧ keys ≠ [] then
    ((buildBatchPgm keys p.epsilon.toNat).mapError .pgm).map some
  else pure none

end ReferenceProfile

namespace ReferenceIndex

/-- The body of the loop of `build`: one declared level. -/
def buildLevel (p : ReferenceProfile) (shuffle : Shuffle) (entry : Int × List (Int × String)) :
    Except ReferenceError ReferenceLevel := do
  let (level, items) := entry
  require (p.minLevel ≤ level) (.belowMinLevel level p.minLevel)
  let pairs := sortedItems items
  require (pairs.map Prod.fst).Nodup (.duplicateKeys level)
  let capacity ← p.maxSize level
  require (pairs.length ≤ capacity) (.overCapacity level pairs.length capacity)
  let placement ← p.placement shuffle level (p.blockCount pairs.length)
  let keys := pairs.map fun pair ↦ RecordKey.mk pair.1
  let pgm ← p.levelPgm level keys
  pure {
    level
    itemsPerBlock := p.itemsPerBlock.toNat
    keys
    values := pairs.map Prod.snd
    pgm
    placement
    backing := p.levelBacking level }

/-- One past the last level with items, or the first level when there is none. -/
def usedLevelsOf (p : ReferenceProfile) (levels : List ReferenceLevel) : Int :=
  match ((levels.filter fun l ↦ 0 < l.itemCount).map (·.level)).max? with
  | some level => level + 1
  | none => p.minLevel

/-- `block_counts`: the declared levels of the scan. -/
def scannedCounts (levels : List ReferenceLevel) (usedLevels : Int) : List (Int × Nat) :=
  (levels.filter fun l ↦ l.level < usedLevels).map fun l ↦ (l.level, l.blockCount)

/-- `ReferenceIndex.build`. -/
def build (p : ReferenceProfile) (shuffle : Shuffle) (levels : LevelMap) :
    Except ReferenceError ReferenceIndex := do
  let built ← levels.entries.mapM (buildLevel p shuffle)
  let usedLevels := usedLevelsOf p built
  pure {
    profile := p
    levels := built
    usedLevels
    projection := .fromBlockCounts (scannedCounts built usedLevels) }

/-- `level`. -/
def level (idx : ReferenceIndex) (level : Int) : Except ReferenceError ReferenceLevel :=
  match findKey ReferenceLevel.level level idx.levels with
  | some l => .ok l
  | none => .error (.noLevel level)

/-- `levels()`: the declared levels in ascending order. -/
def declared (idx : ReferenceIndex) : List Int :=
  (idx.levels.map (·.level)).insertionSort (· ≤ ·)

/-- `scanned_levels`. -/
def scannedLevels (idx : ReferenceIndex) : List Int :=
  intRange idx.profile.minLevel (idx.usedLevels - idx.profile.minLevel).toNat

end ReferenceIndex

/-! ## What an accepted build says -/

theorem perm_sortedItems (items : List (Int × String)) : (sortedItems items).Perm items :=
  List.perm_insertionSort _ _

/-- Sorted by pairs, items with distinct keys are sorted by their keys. -/
theorem pairwise_sortedItems {items : List (Int × String)}
    (h : ((sortedItems items).map Prod.fst).Nodup) :
    (sortedItems items).Pairwise fun a b ↦ a.1 < b.1 := by
  have hle := List.pairwise_insertionSort (fun a b : Int × String ↦ toLex a ≤ toLex b) items
  have hne : (sortedItems items).Pairwise fun a b ↦ a.1 ≠ b.1 := List.pairwise_map.mp h
  refine (hle.and hne).imp fun {a b} hab ↦ ?_
  rcases Prod.Lex.toLex_le_toLex.mp hab.1 with hlt | ⟨heq, -⟩
  · exact hlt
  · exact absurd heq hab.2

namespace ReferenceLevel

/-- A declared level as `build` materialises it. -/
structure BuiltFrom (p : ReferenceProfile) (entry : Int × List (Int × String))
    (l : ReferenceLevel) : Prop where
  level : l.level = entry.1
  minLevel_le : p.minLevel ≤ l.level
  level_nonneg : 0 ≤ l.level
  nodup : ((sortedItems entry.2).map Prod.fst).Nodup
  itemsPerBlock : l.itemsPerBlock = p.itemsPerBlock.toNat
  keys : l.keys = (sortedItems entry.2).map fun pair ↦ ⟨pair.1⟩
  values : l.values = (sortedItems entry.2).map Prod.snd
  pgm : p.levelPgm l.level l.keys = .ok l.pgm
  backing : l.backing = p.levelBacking l.level
  placement : l.placement.Perm (List.range (p.blockCount l.itemCount))
  ordered : p.layout = .ordered → l.placement = List.range (p.blockCount l.itemCount)

namespace BuiltFrom

variable {p : ReferenceProfile} {entry : Int × List (Int × String)} {l : ReferenceLevel}

theorem blockCount (h : l.BuiltFrom p entry) : l.blockCount = p.blockCount l.itemCount := by
  rw [ReferenceLevel.blockCount, h.placement.length_eq, List.length_range]

theorem itemsPerBlock_pos (h : l.BuiltFrom p entry) : 0 < l.itemsPerBlock :=
  h.itemsPerBlock ▸ p.itemsPerBlock_pos

theorem sorted (h : l.BuiltFrom p entry) : l.keys.Pairwise (· < ·) := by
  rw [h.keys]
  exact List.pairwise_map.mpr (pairwise_sortedItems h.nodup)

/-- A level has a model when it is indexed and not empty. -/
theorem pgm_eq_none_iff (h : l.BuiltFrom p entry) :
    l.pgm = none ↔ ¬ (p.hasIndex l.level ∧ l.keys ≠ []) := by
  have hpgm := h.pgm
  unfold ReferenceProfile.levelPgm at hpgm
  split_ifs at hpgm with hc
  · obtain ⟨idx, hidx, -⟩ := buildBatchPgm_spec h.sorted p.epsilon.toNat
    have hsome : some idx = l.pgm := Except.ok.inj (hidx ▸ hpgm)
    rw [← hsome]
    exact iff_of_false (Option.some_ne_none _) (not_not.mpr hc)
  · exact iff_of_true (Except.ok.inj hpgm).symm hc

theorem builtOn (h : l.BuiltFrom p entry) {idx : BatchPgmIndex} (hidx : l.pgm = some idx) :
    idx.BuiltOn p.epsilon.toNat l.keys := by
  have hc : p.hasIndex l.level ∧ l.keys ≠ [] := by
    by_contra hc
    exact absurd (h.pgm_eq_none_iff.mpr hc) (by simp [hidx])
  obtain ⟨idx', hidx', hbuilt⟩ := buildBatchPgm_spec h.sorted p.epsilon.toNat
  have hpgm : p.levelPgm l.level l.keys = .ok (some idx') := by
    rw [ReferenceProfile.levelPgm, if_pos hc, hidx']
    rfl
  have hsome : some idx' = l.pgm := Except.ok.inj (hpgm.symm.trans h.pgm)
  rw [hidx] at hsome
  exact Option.some.inj hsome ▸ hbuilt

theorem mem_keys_iff (h : l.BuiltFrom p entry) {key : Int} :
    ⟨key⟩ ∈ l.keys ↔ key ∈ entry.2.map Prod.fst := by
  rw [h.keys, ((perm_sortedItems entry.2).map _).mem_iff, List.mem_map, List.mem_map]
  simp only [RecordKey.mk.injEq]

/-- The rank of a key is the number of items of the level with a smaller key. -/
theorem lowerRank_keys (h : l.BuiltFrom p entry) (key : Int) :
    lowerRank l.keys ⟨key⟩ = entry.2.countP fun item ↦ item.1 < key := by
  rw [lowerRank, h.keys, List.countP_map, (perm_sortedItems entry.2).countP_eq]
  rfl

/-- The value at the position of a key is one the level was given for the key. -/
theorem exists_value (h : l.BuiltFrom p entry) {pos : Nat} {key : Int}
    (hkey : l.keys[pos]? = some ⟨key⟩) :
    ∃ value, l.values[pos]? = some value ∧ (key, value) ∈ entry.2 := by
  rw [h.keys, List.getElem?_map, Option.map_eq_some_iff] at hkey
  obtain ⟨⟨key', value⟩, hitem, hkey'⟩ := hkey
  cases hkey'
  refine ⟨value, by rw [h.values, List.getElem?_map, hitem]; rfl, ?_⟩
  exact (perm_sortedItems entry.2).mem_iff.mp (List.mem_of_getElem? hitem)

/-- The blocks of the items: the block of every item is one of the level. -/
theorem div_lt (h : l.BuiltFrom p entry) {pos : Nat} (hpos : pos < l.itemCount) :
    pos / l.itemsPerBlock < l.blockCount := by
  have hB := h.itemsPerBlock_pos
  rw [h.blockCount, ReferenceProfile.blockCount, ← h.itemsPerBlock,
    Nat.div_lt_iff_lt_mul hB]
  have := Nat.lt_div_mul_add (a := l.itemCount + l.itemsPerBlock - 1) hB
  omega

theorem physicalBlock_eq (h : l.BuiltFrom p entry) {logical : Nat}
    (hlogical : logical < l.blockCount) :
    ∃ physical, l.physicalBlock logical = .ok physical ∧ physical < l.blockCount ∧
      l.placement[logical]? = some physical := by
  have hget : l.placement[logical]? = some (l.placement.get ⟨logical, hlogical⟩) :=
    List.getElem?_eq_getElem hlogical
  refine ⟨_, ?_, ?_, hget⟩
  · rw [physicalBlock, hget]
  · have hmem := h.placement.mem_iff.mp (List.get_mem l.placement ⟨logical, hlogical⟩)
    rw [h.blockCount]
    exact List.mem_range.mp hmem

end BuiltFrom

end ReferenceLevel

namespace ReferenceProfile

variable (p : ReferenceProfile) (shuffle : Shuffle) (level : Int) (n : Nat)

/-- The placement of a level permutes its blocks, and leaves them alone in the ordered
layout. -/
theorem placement_eq : ∃ order, p.placement shuffle level n = .ok order ∧
    order.Perm (List.range n) ∧ (p.layout = .ordered → order = List.range n) := by
  obtain ⟨key, hkey⟩ := p.buildKey_eq_ok
  rw [placement, hkey, ok_bind]
  refine ⟨_, rfl, ?_, fun hordered ↦ if_neg (by rw [hordered]; decide)⟩
  split_ifs
  · exact shuffle.perm _ _
  · exact .refl _

end ReferenceProfile

namespace ReferenceIndex

variable {p : ReferenceProfile} {shuffle : Shuffle}

/-- What `build` accepts of a declared level, and what it makes of it. -/
theorem buildLevel_eq_ok {entry : Int × List (Int × String)} {l : ReferenceLevel}
    (h : buildLevel p shuffle entry = .ok l) : l.BuiltFrom p entry := by
  obtain ⟨level, items⟩ := entry
  obtain ⟨hmin, h⟩ := require_bind_eq_ok.mp h
  obtain ⟨hnodup, h⟩ := require_bind_eq_ok.mp h
  obtain ⟨capacity, hcapacity, h⟩ := bind_eq_ok.mp h
  obtain ⟨-, h⟩ := require_bind_eq_ok.mp h
  obtain ⟨order, horder, h⟩ := bind_eq_ok.mp h
  obtain ⟨pgm, hpgm, h⟩ := bind_eq_ok.mp h
  cases h
  obtain ⟨hnonneg, -⟩ := require_bind_eq_ok.mp hcapacity
  obtain ⟨order', horder', hperm, hordered⟩ :=
    p.placement_eq shuffle level (p.blockCount (sortedItems items).length)
  rw [horder] at horder'
  cases horder'
  have hcount : ((sortedItems items).map fun pair ↦ RecordKey.mk pair.1).length =
      (sortedItems items).length := List.length_map _
  exact ⟨rfl, hmin, hnonneg, hnodup, rfl, rfl, rfl, hpgm, rfl, by
    rw [ReferenceLevel.itemCount, hcount]; exact hperm, fun ho ↦ by
    rw [ReferenceLevel.itemCount, hcount]; exact hordered ho⟩

/-- An index that `build` accepted. -/
structure BuiltFrom (p : ReferenceProfile) (levels : LevelMap) (idx : ReferenceIndex) :
    Prop where
  profile : idx.profile = p
  levels : List.Forall₂ (fun entry l ↦ l.BuiltFrom p entry) levels.entries idx.levels
  usedLevels : idx.usedLevels = usedLevelsOf p idx.levels
  projection : idx.projection = .fromBlockCounts (scannedCounts idx.levels idx.usedLevels)

theorem build_eq_ok {levels : LevelMap} {idx : ReferenceIndex}
    (h : build p shuffle levels = .ok idx) : idx.BuiltFrom p levels := by
  obtain ⟨built, hbuilt, h⟩ := bind_eq_ok.mp h
  cases h
  exact ⟨rfl, (mapM_eq_ok_iff.mp hbuilt).imp fun _ _ ↦ buildLevel_eq_ok, rfl, rfl⟩

namespace BuiltFrom

variable {levels : LevelMap} {idx : ReferenceIndex} (h : idx.BuiltFrom p levels)

include h

theorem map_level : idx.levels.map (·.level) = levels.entries.map Prod.fst :=
  (map_eq_of_forall₂ (h.levels.imp fun _ _ hl ↦ hl.level.symm)).symm

theorem nodup_level : (idx.levels.map (·.level)).Nodup := h.map_level ▸ levels.nodup

theorem exists_entry {l : ReferenceLevel} (hl : l ∈ idx.levels) :
    ∃ entry ∈ levels.entries, l.BuiltFrom p entry := exists_mem_left h.levels hl

theorem exists_level {entry : Int × List (Int × String)} (hentry : entry ∈ levels.entries) :
    ∃ l ∈ idx.levels, l.BuiltFrom p entry := exists_mem_right h.levels hentry

theorem findKey_level {l : ReferenceLevel} (hl : l ∈ idx.levels) :
    findKey ReferenceLevel.level l.level idx.levels = some l :=
  (findKey_eq_some h.nodup_level).mpr ⟨hl, rfl⟩

theorem level_eq {l : ReferenceLevel} (hl : l ∈ idx.levels) : idx.level l.level = .ok l := by
  rw [ReferenceIndex.level, h.findKey_level hl]

/-- Every level with items is below `used_levels`. -/
theorem lt_usedLevels {l : ReferenceLevel} (hl : l ∈ idx.levels) (hne : 0 < l.itemCount) :
    l.level < idx.usedLevels := by
  have hmem : l.level ∈ (idx.levels.filter fun l ↦ 0 < l.itemCount).map (·.level) :=
    List.mem_map_of_mem (List.mem_filter.mpr ⟨hl, decide_eq_true hne⟩)
  rw [h.usedLevels, usedLevelsOf]
  cases hmax : ((idx.levels.filter fun l ↦ 0 < l.itemCount).map (·.level)).max? with
  | none => exact absurd (List.max?_eq_none_iff.mp hmax ▸ hmem) List.not_mem_nil
  | some level =>
    have := (List.max?_eq_some_iff.mp hmax).2 _ hmem
    exact Int.lt_add_one_of_le this

theorem nodup_scannedCounts :
    ((scannedCounts idx.levels idx.usedLevels).map Prod.fst).Nodup := by
  rw [scannedCounts, List.map_map]
  exact ((List.filter_sublist).map _).nodup h.nodup_level

/-- The projection tiles the slots by the block counts of the scanned levels. -/
theorem tiles : idx.projection.Tiles
    ((scannedCounts idx.levels idx.usedLevels).insertionSort fun a b ↦ a.1 ≤ b.1) := by
  rw [h.projection]
  exact SlotProjection.tiles_fromBlockCounts h.nodup_scannedCounts 0

theorem base_eq : idx.projection.base = 0 := by
  rw [h.projection]
  rfl

theorem mem_regions {level : Int} {count : Nat} :
    (∃ r ∈ idx.projection.regions, r.level = level ∧ r.blockCount = count) ↔
      ∃ l ∈ idx.levels, l.level < idx.usedLevels ∧ l.level = level ∧ l.blockCount = count := by
  rw [← h.tiles.mem_iff, List.mem_insertionSort, scannedCounts, List.mem_map]
  simp only [List.mem_filter, decide_eq_true_eq, Prod.mk.injEq, and_assoc]

end BuiltFrom

end ReferenceIndex

/-! ## What `build` accepts -/

namespace ReferenceIndex

variable {p : ReferenceProfile} {shuffle : Shuffle}

/-- A level that `build` accepts. -/
structure Buildable (p : ReferenceProfile) (entry : Int × List (Int × String)) : Prop where
  minLevel_le : p.minLevel ≤ entry.1
  level_nonneg : 0 ≤ entry.1
  nodup : (entry.2.map Prod.fst).Nodup
  length_le : (entry.2.length : Int) ≤ p.base ^ entry.1.toNat

theorem exists_buildLevel_iff {entry : Int × List (Int × String)} :
    (∃ l, buildLevel p shuffle entry = .ok l) ↔ Buildable p entry := by
  obtain ⟨level, items⟩ := entry
  have hperm := perm_sortedItems items
  constructor
  · rintro ⟨l, h⟩
    obtain ⟨hmin, h⟩ := require_bind_eq_ok.mp h
    obtain ⟨hnodup, h⟩ := require_bind_eq_ok.mp h
    obtain ⟨capacity, hcapacity, h⟩ := bind_eq_ok.mp h
    obtain ⟨hlength, -⟩ := require_bind_eq_ok.mp h
    obtain ⟨hnonneg, hcapacity⟩ := require_bind_eq_ok.mp hcapacity
    cases hcapacity
    rw [hperm.length_eq] at hlength
    exact ⟨hmin, hnonneg, (hperm.map _).nodup_iff.mp hnodup, hlength⟩
  · rintro ⟨hmin, hnonneg, hnodup, hlength⟩
    replace hnodup : ((sortedItems items).map Prod.fst).Nodup := (hperm.map _).nodup_iff.mpr hnodup
    have hsorted : ((sortedItems items).map fun pair ↦ RecordKey.mk pair.1).Pairwise (· < ·) :=
      List.pairwise_map.mpr (pairwise_sortedItems hnodup)
    obtain ⟨placement, hplacement, -⟩ :=
      p.placement_eq shuffle level (p.blockCount (sortedItems items).length)
    obtain ⟨pgm, hpgm⟩ : ∃ pgm, p.levelPgm level
        ((sortedItems items).map fun pair ↦ RecordKey.mk pair.1) = .ok pgm := by
      obtain ⟨pgm, hpgm, -⟩ := buildBatchPgm_spec hsorted p.epsilon.toNat
      rw [ReferenceProfile.levelPgm]
      split_ifs
      · exact ⟨some pgm, by rw [hpgm]; rfl⟩
      · exact ⟨none, rfl⟩
    have hcapacity : p.maxSize level = .ok (p.base ^ level.toNat) :=
      require_bind_eq_ok.mpr ⟨hnonneg, rfl⟩
    rw [← hperm.length_eq] at hlength
    exact ⟨_, require_bind_eq_ok.mpr ⟨hmin, require_bind_eq_ok.mpr ⟨hnodup, bind_eq_ok.mpr
      ⟨_, hcapacity, require_bind_eq_ok.mpr ⟨hlength, bind_eq_ok.mpr
        ⟨placement, hplacement, bind_eq_ok.mpr ⟨pgm, hpgm, rfl⟩⟩⟩⟩⟩⟩⟩

/-- Levels are built exactly when every one of them is accepted by itself. -/
theorem exists_build_iff {levels : LevelMap} :
    (∃ idx, build p shuffle levels = .ok idx) ↔ ∀ entry ∈ levels.entries, Buildable p entry := by
  constructor
  · rintro ⟨idx, hidx⟩ entry hentry
    obtain ⟨built, hbuilt, -⟩ := bind_eq_ok.mp hidx
    obtain ⟨l, -, hl⟩ := exists_mem_right (mapM_eq_ok_iff.mp hbuilt) hentry
    exact exists_buildLevel_iff.mp ⟨l, hl⟩
  · intro h
    have hlevel : ∀ entry ∈ levels.entries, ∃ l, buildLevel p shuffle entry = .ok l ∧ True := by
      intro entry hentry
      obtain ⟨l, hl⟩ := exists_buildLevel_iff.mpr (h entry hentry)
      exact ⟨l, hl, trivial⟩
    obtain ⟨built, hbuilt, -⟩ := exists_mapM_related hlevel
    exact ⟨_, bind_eq_ok.mpr ⟨built, hbuilt, rfl⟩⟩

end ReferenceIndex

end EnhancedLetIndex
