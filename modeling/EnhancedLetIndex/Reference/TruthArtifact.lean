import EnhancedLetIndex.Basic.Chunks
import EnhancedLetIndex.Reference.Adversary
import EnhancedLetIndex.Reference.Evaluator

/-!
# The artifact of the evaluator's truth

`to_dict` of `ref_truth.py`.  It is returned for every built index and all query keys
(`artifact_truth`): its blocks are the slots of the projection, each once, the blocks of a level
cut the items of the level in order, and the reader of the adversary refuses it.
-/

namespace EnhancedLetIndex

/-! ## Its parts -/

/-- An entry of `levels`. -/
structure LevelArtifact where
  level : Int
  itemCount : Nat
  blockCount : Nat
  itemsPerBlock : Nat
  backing : String
  hasPgm : Bool
  regionStart : Int
  placement : List Nat
  blocks : List BlockTruth

/-- The truth about an index and some queries. -/
structure TruthArtifact where
  layout : Layout
  prpKey : Option Int
  projection : SlotProjection
  levels : List LevelArtifact
  queries : List QueryTruth

namespace ReferenceIndex

/-- An entry of `levels`, for a level that is not empty. -/
def levelArtifact (idx : ReferenceIndex) (l : ReferenceLevel) :
    Except ReferenceError LevelArtifact := do
  let r ← idx.projection.region l.level
  let blocks ← (List.range l.blockCount).mapM (idx.blockKeyInterval l.level)
  pure {
    level := l.level
    itemCount := l.itemCount
    blockCount := l.blockCount
    itemsPerBlock := l.itemsPerBlock
    backing := l.backing
    hasPgm := l.hasPgm
    regionStart := r.regionStart
    placement := l.placement
    blocks }

/-- `to_dict`, before it is written as JSON. -/
def truthArtifact (idx : ReferenceIndex) (queryKeys : List Int) :
    Except ReferenceError TruthArtifact := do
  let levels ← (idx.declared.filterMap idx.occupied).mapM idx.levelArtifact
  let queries ← queryKeys.mapM idx.queryTruth
  pure ⟨idx.profile.layout, idx.profile.prpKey, idx.projection, levels, queries⟩

end ReferenceIndex

/-! ## Its JSON -/

/-- `to_dict` of a region. -/
def LevelRegion.toDict (r : LevelRegion) : Json :=
  .obj [("level", .int r.level), ("region_start", .int r.regionStart),
    ("block_count", .int r.blockCount)]

/-- `to_dict` of the projection. -/
def SlotProjection.toDict (proj : SlotProjection) : Json :=
  .obj [("base", .int proj.base), ("regions", .arr (proj.regions.map LevelRegion.toDict))]

/-- A natural number or null. -/
def natOrNull : Option Nat → Json := orNull fun n ↦ .int n

/-- An entry of `blocks`. -/
def BlockTruth.toDict (b : BlockTruth) : Json :=
  .obj [("level", .int b.level), ("block_rank", .int b.blockRank),
    ("logical_block_rank", .int b.blockRank),
    ("physical_block_offset", .int b.physicalBlockOffset), ("slot_id", .int b.slotId.value),
    ("item_start", .int b.itemStart), ("item_end", .int b.itemEnd),
    ("item_count", .int b.itemCount), ("key_lo", orNull (fun key ↦ .int key.value) b.keyLo),
    ("key_hi", orNull (fun key ↦ .int key.value) b.keyHi)]

/-- An entry of `per_level`. -/
def LevelTruth.toDict (t : LevelTruth) : Json :=
  .obj [("level", .int t.level), ("path", .str t.path),
    ("interval", .arr [.int t.interval.1, .int t.interval.2]), ("pos", .int t.pos),
    ("found", .bool t.found), ("item_rank", .int t.itemRank),
    ("block_rank", natOrNull t.blockRank),
    ("physical_block_offset", natOrNull t.physicalBlockOffset),
    ("slot_id", orNull (fun slot ↦ .int slot.value) t.slotId),
    ("probes", .arr (t.probes.map fun probe ↦ .int probe)), ("read_count", .int t.readCount)]

/-- An entry of `queries`. -/
def QueryTruth.toDict (t : QueryTruth) : Json :=
  .obj [("key", .int t.key), ("found", .bool t.found), ("value", orNull .str t.value),
    ("hit_level", orNull .int t.hitLevel),
    ("hit_item_rank", natOrNull (t.hit.map (·.itemRank))),
    ("hit_block_rank", natOrNull (t.hit.map (·.blockRank))),
    ("hit_physical_block_offset", natOrNull (t.hit.map (·.physicalBlockOffset))),
    ("hit_slot_id", orNull (fun hit ↦ .int hit.slotId.value) t.hit),
    ("searched_levels", .arr (t.searchedLevels.map .int)),
    ("skipped_empty_levels", .arr (t.skippedEmptyLevels.map .int)),
    ("per_level", .arr (t.perLevel.map LevelTruth.toDict))]

/-- An entry of `levels`. -/
def LevelArtifact.toDict (d : LevelArtifact) : Json :=
  .obj [("level", .int d.level), ("item_count", .int d.itemCount),
    ("block_count", .int d.blockCount), ("items_per_block", .int d.itemsPerBlock),
    ("backing", .str d.backing), ("has_pgm", .bool d.hasPgm),
    ("region_start", .int d.regionStart),
    ("placement", .arr (d.placement.map fun physical ↦ .int physical)),
    ("blocks", .arr (d.blocks.map BlockTruth.toDict))]

/-- `TRUTH_SCHEMA_VERSION`. -/
def truthSchemaVersion : String := "g2b0-truth-1"

/-- The JSON of the artifact. -/
def TruthArtifact.toDict (t : TruthArtifact) : Json :=
  .obj [("schema_version", .str truthSchemaVersion), ("profile", .str profileName),
    ("upstream", .obj [("repo", .str "https://github.com/chiiips/LETIndex"),
      ("commit", .str "9b28fce03638a3cd97402d43c10bca644d0a95a5")]),
    ("classification", .obj [("truth", .str "EVALUATOR-ONLY"), ("layout", .str t.layout.text),
      ("prp_key", orNull .int t.prpKey),
      ("note", .str ("evaluator-only scoring/debug data; must never be consumed by an " ++
        "adversary-facing path (see ref_adversary).  block ranks are logical " ++
        "ranks; physical offsets and SlotIds apply the level placement"))]),
    ("projection", t.projection.toDict), ("levels", .arr (t.levels.map LevelArtifact.toDict)),
    ("queries", .arr (t.queries.map QueryTruth.toDict))]

/-! ## Blocks of a level -/

namespace ReferenceIndex

variable {p : ReferenceProfile} {levels : LevelMap} {idx : ReferenceIndex} {l : ReferenceLevel}

/-- A block of the truth, by its rank in the level. -/
structure TellsBlock (idx : ReferenceIndex) (l : ReferenceLevel) (rank : Nat) (b : BlockTruth) :
    Prop where
  blockRank : b.blockRank = rank
  places : idx.Places l rank b.physicalBlockOffset b.slotId
  describes : Describes l rank b

theorem physicalBlock_eq_ok {rank physical : Nat} :
    l.physicalBlock rank = .ok physical ↔ l.placement[rank]? = some physical := by
  rw [ReferenceLevel.physicalBlock]
  cases l.placement[rank]? with
  | none => simp only [reduceCtorEq]
  | some physical' => rw [Except.ok.injEq, Option.some.injEq]

section Blocks

variable {blocks : List BlockTruth}
  (hblocks : List.Forall₂ (idx.TellsBlock l) (List.range l.blockCount) blocks)

include hblocks

theorem tells_getElem {i : Nat} (hi : i < blocks.length) : idx.TellsBlock l i blocks[i] := by
  have hi' : i < (List.range l.blockCount).length := hblocks.length_eq ▸ hi
  have hget := hblocks.get hi' hi
  rwa [List.get_eq_getElem, List.get_eq_getElem, List.getElem_range] at hget

theorem map_physicalBlockOffset : blocks.map (·.physicalBlockOffset) = l.placement := by
  have hlength : blocks.length = l.placement.length := by
    rw [← hblocks.length_eq, List.length_range, ReferenceLevel.blockCount]
  refine List.ext_getElem (by rw [List.length_map, hlength]) fun i hi hi' ↦ ?_
  rw [List.length_map] at hi
  have hget := physicalBlock_eq_ok.mp (tells_getElem hblocks hi).places.physicalBlock
  rw [List.getElem?_eq_getElem hi', Option.some.injEq] at hget
  rw [List.getElem_map, hget]

/-- The blocks of a level stand at the slots of its region, in some order. -/
theorem perm_slots {r : LevelRegion} (hb : l.Backed idx.projection r)
    (hperm : l.placement.Perm (List.range l.blockCount)) :
    (blocks.map (·.slotId.value)).Perm r.slots := by
  have hslots : blocks.map (·.slotId.value) =
      l.placement.map fun physical : Nat ↦ r.regionStart + (physical : Int) := by
    rw [← map_physicalBlockOffset hblocks, List.map_map]
    refine List.map_congr_left fun b hb' ↦ ?_
    obtain ⟨i, hi, rfl⟩ := List.getElem_of_mem hb'
    have hplaces := (tells_getElem hblocks hi).places
    have hmem := List.mem_of_getElem? (physicalBlock_eq_ok.mp hplaces.physicalBlock)
    rw [hplaces.slot_eq hb (List.mem_range.mp (hperm.mem_iff.mp hmem))]
    rfl
  rw [hslots, LevelRegion.slots, hb.blockCount]
  exact hperm.map _

/-- The blocks of a level cut its items. -/
theorem flatMap_items {entry : Int × List (Int × String)} (hbuilt : l.BuiltFrom p entry) :
    (blocks.flatMap fun b ↦ List.range' b.itemStart b.itemCount) = List.range l.itemCount := by
  have hB := hbuilt.itemsPerBlock_pos
  have hall : min (l.blockCount * l.itemsPerBlock) l.itemCount = l.itemCount := by
    have hceil := Nat.lt_div_mul_add (a := l.itemCount + l.itemsPerBlock - 1) hB
    rw [hbuilt.blockCount, ReferenceProfile.blockCount, ← hbuilt.itemsPerBlock]
    omega
  rw [← hall, ← flatMap_range'_min]
  refine congrArg List.flatten (map_eq_of_forall₂ (hblocks.imp fun rank b htells ↦ ?_)).symm
  obtain ⟨-, -, hdescribes⟩ := htells
  rw [hdescribes.itemCount, hdescribes.itemStart, hdescribes.itemEnd]

/-- The blocks of a level are in ascending order of their keys. -/
theorem pairwise_keys (hsorted : l.keys.Pairwise (· < ·)) : blocks.Pairwise fun a b ↦
    ∃ hi lo, a.keyHi = some hi ∧ b.keyLo = some lo ∧ hi < lo := by
  rw [List.pairwise_iff_getElem]
  intro i j hi hj hij
  have hdescribes := (tells_getElem hblocks hi).describes
  have hdescribes' := (tells_getElem hblocks hj).describes
  have hnext : (i + 1) * l.itemsPerBlock ≤ j * l.itemsPerBlock := Nat.mul_le_mul_right _ hij
  have hend := hdescribes.itemEnd
  have hstart := hdescribes'.itemStart
  have hend' := hdescribes'.itemEnd
  have hlt := hdescribes.lt
  have hlt' := hdescribes'.lt
  rw [Nat.succ_mul] at hnext
  rw [ReferenceLevel.itemCount] at hend hend'
  have hlo : blocks[j].itemStart < l.keys.length := by omega
  have hhi : blocks[i].itemEnd - 1 < l.keys.length := by omega
  refine ⟨l.keys[blocks[i].itemEnd - 1], l.keys[blocks[j].itemStart], ?_, ?_,
    List.pairwise_iff_getElem.mp hsorted _ _ hhi hlo (by omega)⟩
  · rw [hdescribes.keyHi, List.getElem?_eq_getElem hhi]
  · rw [hdescribes'.keyLo, List.getElem?_eq_getElem hlo]

end Blocks

/-- What the artifact says of the items of a level and of their blocks. -/
structure TellsItems (levels : LevelMap) (d : LevelArtifact) : Prop where
  entry : ∃ entry ∈ levels.entries, entry.1 = d.level ∧ entry.2.length = d.itemCount ∧
    0 < d.itemCount ∧ ∀ item ∈ entry.2, ∃ b ∈ d.blocks, ∃ lo hi,
      b.itemStart ≤ entry.2.countP (fun other ↦ other.1 < item.1) ∧
      entry.2.countP (fun other ↦ other.1 < item.1) < b.itemEnd ∧
      b.keyLo = some lo ∧ b.keyHi = some hi ∧ lo.value ≤ item.1 ∧ item.1 ≤ hi.value
  ranks : d.blocks.map (·.blockRank) = List.range d.blockCount
  items : (d.blocks.flatMap fun b ↦ List.range' b.itemStart b.itemCount) = List.range d.itemCount
  keys : d.blocks.Pairwise fun a b ↦ ∃ hi lo, a.keyHi = some hi ∧ b.keyLo = some lo ∧ hi < lo

namespace BuiltFrom

variable (h : idx.BuiltFrom p levels)

include h

/-- The truth about a level that is not empty. -/
theorem levelArtifact_spec (hl : l ∈ idx.levels) (hne : 0 < l.itemCount) :
    ∃ d, idx.levelArtifact l = .ok d ∧ d.level = l.level ∧ TellsItems levels d ∧
      (d.blocks.map (·.slotId.value)).Perm (idx.projection.levelSlots l.level) := by
  obtain ⟨entry, hentry, hbuilt⟩ := h.exists_entry hl
  obtain ⟨r, hr, hlevel, hb⟩ := h.exists_backed hl (h.lt_usedLevels hl hne)
  obtain ⟨blocks, hmap, hblocks⟩ : ∃ blocks,
      (List.range l.blockCount).mapM (idx.blockKeyInterval l.level) = .ok blocks ∧
        List.Forall₂ (idx.TellsBlock l) (List.range l.blockCount) blocks := by
    refine exists_mapM_related fun rank hrank ↦ ?_
    obtain ⟨b, hblock, -, hrank', hplaces, hdescribes⟩ :=
      h.blockKeyInterval_spec hl (List.mem_range.mp hrank)
    exact ⟨b, hblock, hrank', hplaces, hdescribes⟩
  have hregion : idx.projection.region l.level = .ok r := hlevel ▸ h.tiles.region_eq hr
  have hperm := hbuilt.placement
  rw [← hbuilt.blockCount] at hperm
  have hslots := perm_slots hblocks hb hperm
  have hcount : entry.2.length = l.itemCount := by
    rw [ReferenceLevel.itemCount, hbuilt.keys, List.length_map,
      (perm_sortedItems entry.2).length_eq]
  refine ⟨_, by rw [levelArtifact, hregion, ok_bind, hmap]; rfl, rfl, ⟨?_, ?_, ?_, ?_⟩, ?_⟩
  · refine ⟨entry, hentry, hbuilt.level.symm, hcount, hne, fun item hitem ↦ ?_⟩
    have hkey : ⟨item.1⟩ ∈ l.keys := hbuilt.mem_keys_iff.mpr (List.mem_map_of_mem hitem)
    have hget := (mem_iff_getElem?_lowerRank hbuilt.sorted).mp hkey
    have hlt : lowerRank l.keys ⟨item.1⟩ < l.itemCount := (List.getElem?_eq_some_iff.mp hget).1
    have hrank := List.mem_range.mpr (hbuilt.div_lt hlt)
    obtain ⟨b, hbmem, -, -, hdescribes⟩ := exists_mem_right hblocks hrank
    have hbounds := hdescribes.bounds hbuilt.itemsPerBlock_pos hlt
    obtain ⟨lo, hi, hlo, hhi, hle, hge⟩ := hdescribes.key_bounds hbuilt.sorted hget hbounds
    rw [hbuilt.lowerRank_keys] at hbounds
    exact ⟨b, hbmem, lo, hi, hbounds.1, hbounds.2, hlo, hhi, hle, hge⟩
  · have hranks := map_eq_of_forall₂ (f := id) (hblocks.imp fun _ _ ht ↦ ht.blockRank.symm)
    exact hranks.symm.trans (List.map_id _)
  · exact flatMap_items hblocks hbuilt
  · exact pairwise_keys hblocks hbuilt.sorted
  · rwa [← hlevel, h.levelSlots_eq hr]

/-- Levels without items have no slots. -/
theorem flatMap_levelSlots_occupied {L : List Int} (hL : ∀ level ∈ L, level ∈ idx.declared) :
    (L.filterMap idx.occupied).flatMap (fun l ↦ idx.projection.levelSlots l.level) =
      L.flatMap idx.projection.levelSlots := by
  induction L with
  | nil => rfl
  | cons level L ih =>
    obtain ⟨hlevel, hrest⟩ := List.forall_mem_cons.mp hL
    rw [declared, List.mem_insertionSort] at hlevel
    obtain ⟨l, hl, rfl⟩ := List.mem_map.mp hlevel
    rw [List.flatMap_cons, ← ih hrest]
    by_cases hempty : l.itemCount = 0
    · have hnone : idx.occupied l.level = none := by
        rw [occupied, h.findKey_level hl]
        exact Option.filter_eq_none_iff.mpr fun l' hl' ↦ by cases hl'; simpa using hempty
      rw [List.filterMap_cons_none hnone, h.levelSlots_of_empty hl hempty, List.nil_append]
    · rw [List.filterMap_cons_some (h.occupied_of_mem hl (Nat.pos_of_ne_zero hempty)),
        List.flatMap_cons]

theorem pairwise_declared : idx.declared.Pairwise (· < ·) := by
  have hperm := List.perm_insertionSort (· ≤ ·) (idx.levels.map (·.level))
  exact (List.pairwise_insertionSort (· ≤ ·) _).and (hperm.nodup_iff.mpr h.nodup_level) |>.imp
    fun hab ↦ lt_of_le_of_ne hab.1 hab.2

end BuiltFrom

/-- What the artifact says of the index and of the queries. -/
structure TellsIndex (idx : ReferenceIndex) (levels : LevelMap) (queryKeys : List Int)
    (t : TruthArtifact) : Prop where
  ascending : (t.levels.map (·.level)).Pairwise (· < ·)
  occupied : ∀ entry ∈ levels.entries, entry.2 ≠ [] → ∃ d ∈ t.levels, d.level = entry.1
  items : ∀ d ∈ t.levels, TellsItems levels d
  slots : ((t.levels.flatMap (·.blocks)).map (·.slotId.value)).Perm
    (intRange 0 idx.projection.totalBlocks)
  queries : List.Forall₂ (fun key q ↦ ∃ out, idx.query key = .ok out ∧
    TellsQuery idx levels key out q) queryKeys t.queries

/-- The artifact is returned for all query keys and is right about the items, the slots and the
queries. -/
theorem BuiltFrom.truthArtifact_spec (h : idx.BuiltFrom p levels) (queryKeys : List Int) :
    ∃ t, idx.truthArtifact queryKeys = .ok t ∧ TellsIndex idx levels queryKeys t := by
  obtain ⟨queries, hqueries, htellsQueries⟩ : ∃ queries, queryKeys.mapM idx.queryTruth =
      .ok queries ∧ List.Forall₂ (fun key q ↦ ∃ out, idx.query key = .ok out ∧
        TellsQuery idx levels key out q) queryKeys queries := by
    refine exists_mapM_related fun key _ ↦ ?_
    obtain ⟨out, truth, hout, htruth, htells⟩ := h.exists_queryTruth key
    exact ⟨truth, htruth, out, hout, htells⟩
  obtain ⟨ds, hds, htells⟩ := exists_mapM_related fun l hl ↦ by
    obtain ⟨level, -, hocc⟩ := List.mem_filterMap.mp hl
    obtain ⟨hmem, -, hne⟩ := h.occupied_eq_some hocc
    exact h.levelArtifact_spec hmem hne
  refine ⟨_, by rw [truthArtifact, hds, ok_bind, hqueries]; rfl, ⟨?_, ?_, ?_, ?_, htellsQueries⟩⟩
  · have hlevels : (idx.declared.filterMap idx.occupied).map (·.level) = ds.map (·.level) :=
      map_eq_of_forall₂ (htells.imp fun _ _ hd ↦ hd.1.symm)
    rw [← hlevels, List.pairwise_map]
    refine h.pairwise_declared.filterMap _ fun a b hab l hl l' hl' ↦ ?_
    rwa [(h.occupied_eq_some hl).2.1, (h.occupied_eq_some hl').2.1]
  · intro entry hentry hne
    obtain ⟨l, hl, hbuilt⟩ := h.exists_level hentry
    have hcount : 0 < l.itemCount := by
      rw [ReferenceLevel.itemCount, hbuilt.keys, List.length_map,
        (perm_sortedItems entry.2).length_eq]
      exact List.length_pos_of_ne_nil hne
    have hdeclared : l.level ∈ idx.declared := by
      rw [declared, List.mem_insertionSort]
      exact List.mem_map_of_mem hl
    obtain ⟨d, hd, hlevel, -⟩ := exists_mem_right htells
      (List.mem_filterMap.mpr ⟨_, hdeclared, h.occupied_of_mem hl hcount⟩)
    exact ⟨d, hd, hlevel.trans hbuilt.level⟩
  · intro d hd
    obtain ⟨l, -, -, hitems, -⟩ := exists_mem_left htells hd
    exact hitems
  · have hslots := perm_flatMap_of_forall₂ (htells.flip.imp fun _ _ hd ↦ hd.2.2)
    rw [h.flatMap_levelSlots_occupied fun _ ↦ id, h.flatMap_levelSlots] at hslots
    rwa [List.map_flatMap]

/-- The adversary does not read the artifact. -/
theorem fromReferenceArtifact_truth (t : TruthArtifact) :
    AdversaryInput.fromReferenceArtifact t.toDict = .error .schemaVersion := rfl

/-- The artifact is returned for all query keys, is right about the items, the slots and the
queries, and is nothing that the adversary reads. -/
theorem artifact_truth {shuffle : Shuffle} (hbuild : build p shuffle levels = .ok idx)
    (queryKeys : List Int) : ∃ t, idx.truthArtifact queryKeys = .ok t ∧
      TellsIndex idx levels queryKeys t ∧
      AdversaryInput.fromReferenceArtifact t.toDict = .error .schemaVersion := by
  obtain ⟨t, ht, htells⟩ := (build_eq_ok hbuild).truthArtifact_spec queryKeys
  exact ⟨t, ht, htells, fromReferenceArtifact_truth t⟩

theorem artifact_truth_small : ∃ idx t, build ⟨smallFields .staticPrp (some 7), by decide⟩
    reversal smallLevels = .ok idx ∧ idx.truthArtifact [8, 4] = .ok t ∧
      TellsIndex idx smallLevels [8, 4] t ∧
      AdversaryInput.fromReferenceArtifact t.toDict = .error .schemaVersion := by
  obtain ⟨idx, hidx⟩ := exists_of_isOk isOk_build_small.1
  obtain ⟨t, ht, htells, hrefused⟩ := artifact_truth hidx [8, 4]
  exact ⟨idx, t, hidx, ht, htells, hrefused⟩

end ReferenceIndex

end EnhancedLetIndex
