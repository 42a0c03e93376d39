import EnhancedLetIndex.Reference.Trace

/-!
# The evaluator's truth about slots

`slot_of` and `locate` of `ref_truth.py`: a block of a level is placed inside the level and the
level inside the projection.  The two are inverse to each other, loading writes every slot once,
and a lookup reads only slots of its own level.
-/

namespace EnhancedLetIndex

namespace ReferenceIndex

/-- `physical_offset_of`. -/
def physicalOffsetOf (idx : ReferenceIndex) (level blockRank : Int) :
    Except ReferenceError Nat := do
  let l ← idx.level level
  require (0 ≤ blockRank ∧ blockRank < l.blockCount) (.noBlockRank level blockRank l.blockCount)
  l.physicalBlock blockRank.toNat

/-- `slot_of`. -/
def slotOf (idx : ReferenceIndex) (level blockRank : Int) : Except ReferenceError SlotId := do
  let physical ← idx.physicalOffsetOf level blockRank
  idx.projection.slot level physical

/-- `locate`. -/
def locate (idx : ReferenceIndex) (slot : SlotId) : Except ReferenceError (Int × Nat) := do
  let located ← idx.projection.locate slot
  let l ← idx.level located.1
  let logical ← l.logicalBlock located.2
  pure (located.1, logical)

/-- The blocks of the levels that are not empty, by level and logical rank. -/
def blocks (idx : ReferenceIndex) : Set (Int × Nat) :=
  {b | ∃ l ∈ idx.levels, l.level = b.1 ∧ 0 < l.itemCount ∧ b.2 < l.blockCount}

/-- The slots of the projection. -/
def slots (idx : ReferenceIndex) : Set SlotId :=
  {slot | 0 ≤ slot.value ∧ slot.value < idx.projection.totalBlocks}

namespace BuiltFrom

variable {p : ReferenceProfile} {levels : LevelMap} {idx : ReferenceIndex} {l : ReferenceLevel}
  (h : idx.BuiltFrom p levels)

include h

theorem itemCount_pos (hl : l ∈ idx.levels) (hcount : 0 < l.blockCount) : 0 < l.itemCount := by
  apply Nat.pos_of_ne_zero
  intro hempty
  exact hcount.ne' (h.blockCount_eq_zero hl hempty)

/-- The placement of a level is a permutation, so it is inverted by the search in it. -/
theorem logicalBlock_of_get (hl : l ∈ idx.levels) {logical physical : Nat}
    (hget : l.placement[logical]? = some physical) : l.logicalBlock physical = .ok logical := by
  obtain ⟨entry, -, hbuilt⟩ := h.exists_entry hl
  have hperm := hbuilt.placement
  rw [← hbuilt.blockCount] at hperm
  obtain ⟨hlt, hvalue⟩ := List.getElem?_eq_some_iff.mp hget
  have hphysical : physical < l.blockCount :=
    List.mem_range.mp (hperm.mem_iff.mp (hvalue ▸ List.getElem_mem hlt))
  have hidx : l.placement.idxOf? physical = some logical := by
    rw [List.idxOf?_eq_some_iff]
    refine ⟨hlt, hvalue, fun j hj heq ↦ ?_⟩
    have hnodup : l.placement.Nodup := hperm.nodup_iff.mpr List.nodup_range
    have hsame : j = logical := hnodup.getElem_inj_iff.mp (heq.trans hvalue.symm)
    exact hj.ne hsame
  rw [ReferenceLevel.logicalBlock, require_of hphysical, ok_bind, hidx]
  rfl

/-- A block is found again at its slot. -/
theorem locate_slotOf {block : Int × Nat} (hblock : block ∈ idx.blocks) :
    ∃ slot ∈ idx.slots, idx.slotOf block.1 block.2 = .ok slot ∧ idx.locate slot = .ok block := by
  obtain ⟨level, rank⟩ := block
  obtain ⟨l, hl, hlevel, hne, hrank⟩ := hblock
  obtain rfl : l.level = level := hlevel
  obtain ⟨entry, -, hbuilt⟩ := h.exists_entry hl
  obtain ⟨physical, hphysical, hlt, hget⟩ := hbuilt.physicalBlock_eq hrank
  obtain ⟨r, hr, hlevel, hb⟩ := h.exists_backed hl (h.lt_usedLevels hl hne)
  have hcontains : r.Contains (r.regionStart + physical) :=
    LevelRegion.contains_add (hb.blockCount ▸ hlt)
  refine ⟨⟨r.regionStart + physical⟩, ?_, ?_, ?_⟩
  · have := h.tiles.slot_lt hr hcontains
    rw [h.base_eq] at this
    exact ⟨this.1, by simpa using this.2⟩
  · have hcheck : (0 : Int) ≤ (rank : Int) ∧ (rank : Int) < l.blockCount := by
      have : rank < l.blockCount := hrank
      omega
    rw [slotOf, physicalOffsetOf, h.level_eq hl, ok_bind, require_of hcheck, ok_bind,
      Int.toNat_natCast, hphysical, ok_bind, hb.slot physical hlt]
  · rw [locate, h.tiles.locate_eq hr hcontains, ok_bind, hlevel, h.level_eq hl, ok_bind]
    have hoffset : (r.regionStart + (physical : Int) - r.regionStart).toNat = physical := by omega
    rw [hoffset, h.logicalBlock_of_get hl hget]
    rfl

/-- A slot belongs to the block it is located at. -/
theorem slotOf_locate {slot : SlotId} (hslot : slot ∈ idx.slots) :
    ∃ block ∈ idx.blocks, idx.locate slot = .ok block ∧
      idx.slotOf block.1 block.2 = .ok slot := by
  obtain ⟨r, hr, hcontains⟩ := h.tiles.exists_region (h.base_eq ▸ hslot.1)
    (by rw [h.base_eq, zero_add]; exact hslot.2)
  obtain ⟨l, hl, -, hlevel, -⟩ := h.mem_regions.mp ⟨r, hr, rfl, rfl⟩
  have hcount := h.blockCount_region hr hl hlevel.symm
  obtain ⟨offset, hoffset⟩ : ∃ offset : Nat, slot.value = r.regionStart + offset :=
    ⟨(slot.value - r.regionStart).toNat, by have := hcontains.1; omega⟩
  have hlt : offset < l.blockCount := by
    have := hcontains.2
    unfold LevelRegion.regionEnd at this
    omega
  -- the placement has the offset at some logical rank
  obtain ⟨entry, -, hbuilt⟩ := h.exists_entry hl
  have hperm := hbuilt.placement
  rw [← hbuilt.blockCount] at hperm
  obtain ⟨rank, hrank, hget⟩ :=
    List.mem_iff_getElem.mp (hperm.mem_iff.mpr (List.mem_range.mpr hlt))
  have hblock : (l.level, rank) ∈ idx.blocks :=
    ⟨l, hl, rfl, h.itemCount_pos hl (by omega), hrank⟩
  obtain ⟨slot', hslot', hslotOf, hlocate⟩ := h.locate_slotOf hblock
  have hslot'_eq : slot' = slot := by
    obtain ⟨physical, hphysical, -, hget'⟩ := hbuilt.physicalBlock_eq hrank
    rw [List.getElem?_eq_getElem hrank, hget] at hget'
    cases hget'
    have hcheck : (0 : Int) ≤ (rank : Int) ∧ (rank : Int) < l.blockCount := by
      have : rank < l.blockCount := hrank
      omega
    have hslot_eq := h.tiles.slot_eq hr (hcount ▸ hlt)
    rw [slotOf, physicalOffsetOf, h.level_eq hl, ok_bind, require_of hcheck, ok_bind,
      Int.toNat_natCast, hphysical, ok_bind, hlevel, hslot_eq, ← hoffset] at hslotOf
    exact (Except.ok.inj hslotOf).symm
  exact ⟨_, hblock, hslot'_eq ▸ hlocate, hslot'_eq ▸ hslotOf⟩

/-! ## Reads -/

/-- A lookup in a level reads slots of the region of the level only. -/
theorem lookupLevel_region {level query : Int} {o : LevelLookupOutcome}
    (ho : idx.lookupLevel level query = .ok o) :
    ∀ e ∈ o.events, e.1 = .read ∧ ∃ r ∈ idx.projection.regions, r.level = level ∧
      r.Contains e.2 := by
  obtain ⟨l, hlevel, -⟩ := bind_eq_ok.mp ho
  obtain ⟨hl, rfl⟩ : l ∈ idx.levels ∧ l.level = level := by
    unfold ReferenceIndex.level at hlevel
    split at hlevel
    · rename_i l' hfind
      cases hlevel
      exact (findKey_eq_some h.nodup_level).mp hfind
    · cases hlevel
  by_cases hempty : l.itemCount = 0
  · -- an empty level has no model, and the search of no item reads nothing
    obtain ⟨entry, -, hbuilt⟩ := h.exists_entry hl
    have hkeys : l.keys = [] := List.eq_nil_of_length_eq_zero hempty
    have hpgm : l.pgm = none := hbuilt.pgm_eq_none_iff.mpr fun hc ↦ hc.2 hkeys
    rw [lookupLevel, h.level_eq hl, ok_bind, if_neg (by simp [ReferenceLevel.hasPgm, hpgm]),
      runSearch, LevelSearcher.lowerBoundFullLevel, if_pos hempty.symm] at ho
    cases ho
    intro e he
    exact absurd he List.not_mem_nil
  · obtain ⟨o', ho', -, r, hr, hlevel, hreads⟩ :=
      h.lookupLevel_spec hl (Nat.pos_of_ne_zero hempty) query
    rw [ho] at ho'
    cases ho'
    exact fun e he ↦ ⟨(hreads e he).1, r, hr, hlevel, (hreads e he).2⟩

end BuiltFrom

variable {p : ReferenceProfile} {shuffle : Shuffle} {levels : LevelMap} {idx : ReferenceIndex}

/-- The truth about slots is a bijection, loading writes each slot once and in order, and every
read of a query is of a slot of the level that is looked in, which loading has written. -/
theorem slots_truth (hbuild : build p shuffle levels = .ok idx)
    (experiment : ReferenceExperiment) :
    (∀ block ∈ idx.blocks, ∃ slot ∈ idx.slots,
      idx.slotOf block.1 block.2 = .ok slot ∧ idx.locate slot = .ok block) ∧
    (∀ slot ∈ idx.slots, ∃ block ∈ idx.blocks,
      idx.locate slot = .ok block ∧ idx.slotOf block.1 block.2 = .ok slot) ∧
    ∃ b, ({ experiment, index := idx } : ReferenceTraceBuilder).load = .ok b ∧
      (∀ o ∈ b.operations, ∀ e ∈ o.events, e.operation = .write) ∧
      (b.operations.flatMap (·.events)).map (·.slotId) =
        intRange 0 idx.projection.totalBlocks ∧
      (∀ level key o, idx.lookupLevel level key = .ok o → ∀ e ∈ o.events, e.1 = .read ∧
        e.2 ∈ (b.operations.flatMap (·.events)).map (·.slotId) ∧
        ∃ r ∈ idx.projection.regions, r.level = level ∧ r.Contains e.2) ∧
      ∀ key, ∃ out, idx.query key = .ok out ∧
        out.events = out.levelOutcomes.flatMap (·.events) ∧
        ∀ o ∈ out.levelOutcomes, idx.lookupLevel o.level key = .ok o := by
  have h := build_eq_ok hbuild
  obtain ⟨new, hload, hnew⟩ := ReferenceTraceBuilder.load_spec
    (b := { experiment, index := idx }) h rfl
  refine ⟨fun _ ↦ h.locate_slotOf, fun _ ↦ h.slotOf_locate, _, hload, hnew.writes, hnew.slots_eq,
    fun level key o ho e he ↦ ?_, fun key ↦ ?_⟩
  · obtain ⟨hread, r, hr, hlevel, hcontains⟩ := h.lookupLevel_region ho e he
    refine ⟨hread, ?_, r, hr, hlevel, hcontains⟩
    rw [List.nil_append, hnew.slots_eq, ← h.base_eq, ← h.tiles.flatMap_slots]
    exact List.mem_flatMap.mpr ⟨r, hr, LevelRegion.mem_slots.mpr hcontains⟩
  · obtain ⟨_, _, os, out, -, hrun, hscan, -⟩ := h.query_spec key
    have houtcomes : out.levelOutcomes = os := hscan.levelOutcomes
    exact ⟨out, hrun, houtcomes ▸ hscan.events, houtcomes ▸ hscan.lookups⟩

/-- The small levels, with two queries. -/
def smallExperiment : ReferenceExperiment where
  profile := ⟨smallFields .staticPrp (some 7), by decide⟩
  levels := smallLevels.entries
  queryKeys := [8, 4]

theorem slots_truth_small : ∃ idx b, build ⟨smallFields .staticPrp (some 7), by decide⟩ reversal
    smallLevels = .ok idx ∧ ({ experiment := smallExperiment, index := idx } :
      ReferenceTraceBuilder).load = .ok b ∧ (b.operations.flatMap (·.events)).map (·.slotId) =
        intRange 0 idx.projection.totalBlocks := by
  obtain ⟨idx, hidx⟩ := exists_of_isOk isOk_build_small.1
  obtain ⟨-, -, b, hb, -, hslots, -⟩ := slots_truth hidx smallExperiment
  exact ⟨idx, b, hidx, hb, hslots⟩

end ReferenceIndex

end EnhancedLetIndex
