import EnhancedLetIndex.Engine.Levels

/-!
# Well-formed states

`WellFormed` says what a state must satisfy for levels to be built, merged and retired without
one level damaging another: the mapping and the storage describe the same live blocks, what the
counters will still hand out is unused, and the active levels list disjoint sets of mapped
blocks.  Creating a level, filling one and retiring one keep it, and leave the blocks of the
other levels as they are.
-/

namespace EnhancedLetIndex

variable {V : Type}

namespace Engine

/-- Active levels have disjoint lists of mapped blocks. -/
structure Exclusive (e : Engine V) : Prop where
  mapped : ∀ l L, e.levels.lookup l = some L → ∀ b ∈ L.blockIds, b ∈ e.mapping.logicalToPhysical
  disjoint : ∀ l l' L L', e.levels.lookup l = some L → e.levels.lookup l' = some L' → l ≠ l' →
    L.blockIds.Disjoint L'.blockIds

/-- The mapping and the storage describe the same live blocks, every slot, block id and level id
that the counters will still hand out is unused, and active levels have disjoint lists of
mapped blocks. -/
structure WellFormed (e : Engine V) : Prop extends Coherent e, Exclusive e where
  slots_lt : ∀ s ∈ e.storage.slots, s.value < e.storage.nextFreeSlot
  levels_lt : ∀ l ∈ e.levels, l.value < e.nextLevelId
  retired_lt : ∀ l ∈ e.retiredLevelIds, l.value < e.nextLevelId
  pgm_lt : ∀ l ∈ e.pgmIndexes, l.value < e.nextLevelId

/-- The state after a new empty level has been registered. -/
def withNewLevel (e : Engine V) : Engine V :=
  { e with
    nextLevelId := e.nextLevelId + 1
    levels := e.levels.insert ⟨e.nextLevelId⟩ (Level.empty ⟨e.nextLevelId⟩) }

variable {e e' : Engine V} {l : LevelId} {L : Level}

theorem Coherent.withNewLevel (h : e.Coherent) : e.withNewLevel.Coherent :=
  h.of_eq rfl rfl le_rfl

/-! ## Exclusive blocks -/

namespace Exclusive

theorem init (config : Config) : (Engine.init config : Engine V).Exclusive where
  mapped _ _ hL := absurd (Finmap.mem_of_lookup_eq_some hL) Finmap.notMem_empty
  disjoint _ _ _ _ hL := absurd (Finmap.mem_of_lookup_eq_some hL) Finmap.notMem_empty

/-- Changes that leave the lists of the levels alone and unmap no block. -/
theorem of_eq (h : e.Exclusive) (hlevels : e'.levels = e.levels)
    (hmapped : ∀ b ∈ e.mapping.logicalToPhysical, b ∈ e'.mapping.logicalToPhysical) :
    e'.Exclusive where
  mapped l L hL b hb := hmapped b (h.mapped l L (hlevels ▸ hL) b hb)
  disjoint := by rw [hlevels]; exact h.disjoint

theorem withNewLevel (h : e.Exclusive) : e.withNewLevel.Exclusive where
  mapped l L hL b hb := by
    change (e.levels.insert _ _).lookup l = some L at hL
    by_cases hl : l = ⟨e.nextLevelId⟩
    · rw [hl, Finmap.lookup_insert] at hL
      cases hL
      exact absurd hb List.not_mem_nil
    · rw [Finmap.lookup_insert_of_ne _ hl] at hL
      exact h.mapped l L hL b hb
  disjoint l l' L L' hL hL' hne := by
    change (e.levels.insert _ _).lookup l = some L at hL
    change (e.levels.insert _ _).lookup l' = some L' at hL'
    by_cases hl : l = ⟨e.nextLevelId⟩
    · rw [hl, Finmap.lookup_insert] at hL
      cases hL
      exact List.disjoint_nil_left _
    by_cases hl' : l' = ⟨e.nextLevelId⟩
    · rw [hl', Finmap.lookup_insert] at hL'
      cases hL'
      exact List.disjoint_nil_right _
    rw [Finmap.lookup_insert_of_ne _ hl] at hL
    rw [Finmap.lookup_insert_of_ne _ hl'] at hL'
    exact h.disjoint l l' L L' hL hL' hne

/-- The active levels after one has been forgotten. -/
theorem lookup_forget (hd : Dropped e e' L.blockIds) {l' : LevelId} {L' : Level}
    (hL' : (e'.forget l).levels.lookup l' = some L') : l' ≠ l ∧ e.levels.lookup l' = some L' := by
  change (e'.levels.erase l).lookup l' = some L' at hL'
  by_cases hl' : l' = l
  · rw [hl', Finmap.lookup_erase] at hL'
    cases hL'
  · rw [Finmap.lookup_erase_ne hl', hd.levels] at hL'
    exact ⟨hl', hL'⟩

/-- The blocks of a level that is not retired are not among the retired ones. -/
theorem forget (h : e.Exclusive) (hL : e.levels.lookup l = some L)
    (hd : Dropped e e' L.blockIds) : (e'.forget l).Exclusive where
  mapped l' L' hL' b hb := by
    obtain ⟨hne, hL'⟩ := lookup_forget hd hL'
    have hnot : b ∉ L.blockIds := h.disjoint l' l L' L hL' hL hne hb
    change b ∈ e'.mapping.logicalToPhysical
    rw [Finmap.mem_iff, hd.mapped, if_neg hnot]
    exact Finmap.mem_iff.mp (h.mapped l' L' hL' b hb)
  disjoint l₁ l₂ L₁ L₂ hL₁ hL₂ :=
    h.disjoint l₁ l₂ L₁ L₂ (lookup_forget hd hL₁).2 (lookup_forget hd hL₂).2

end Exclusive

/-! ## Well-formed states -/

namespace WellFormed

theorem init (config : Config) : (Engine.init config : Engine V).WellFormed where
  bijective := Inverse.empty
  occupied _ := iff_of_false Finmap.notMem_empty Finmap.notMem_empty
  blocks_lt _ hb := absurd hb Finmap.notMem_empty
  toExclusive := Exclusive.init config
  slots_lt _ hs := absurd hs Finmap.notMem_empty
  levels_lt _ hl := absurd hl Finmap.notMem_empty
  retired_lt _ hl := absurd hl (Finset.notMem_empty _)
  pgm_lt _ hl := absurd hl Finmap.notMem_empty

theorem afterReads (h : e.WellFormed) (slots : List SlotId) : (e.afterReads slots).WellFormed where
  toCoherent := h.toCoherent.afterReads slots
  slots_lt s hs := by
    rw [afterReads_slots] at hs
    rw [afterReads_nextFreeSlot]
    exact h.slots_lt s hs
  levels_lt := h.levels_lt
  retired_lt := h.retired_lt
  pgm_lt := h.pgm_lt
  toExclusive := h.toExclusive.of_eq rfl fun _ hb ↦ hb

/-- The id of the next level is unused. -/
theorem fresh_level (h : e.WellFormed) : (⟨e.nextLevelId⟩ : LevelId) ∉ e.levels :=
  fun hmem ↦ lt_irrefl _ (h.levels_lt _ hmem)

theorem fresh_retired (h : e.WellFormed) : (⟨e.nextLevelId⟩ : LevelId) ∉ e.retiredLevelIds :=
  fun hmem ↦ lt_irrefl _ (h.retired_lt _ hmem)

theorem fresh_pgm (h : e.WellFormed) : (⟨e.nextLevelId⟩ : LevelId) ∉ e.pgmIndexes :=
  fun hmem ↦ lt_irrefl _ (h.pgm_lt _ hmem)

/-- Listed blocks are below the block counter. -/
theorem listed_lt (h : e.WellFormed) (hL : e.levels.lookup l = some L) :
    ∀ b ∈ L.blockIds, b.value < e.nextBlockId :=
  fun b hb ↦ h.blocks_lt b (h.mapped l L hL b hb)

/-- The next slots are free. -/
theorem free_slots (h : e.WellFormed) (n : Nat) :
    ∀ s ∈ e.storage.slots, ¬ InNext e.storage.nextFreeSlot n s.value :=
  fun s hs hnext ↦ absurd (h.slots_lt s hs) (not_lt.mpr hnext.1)

theorem withNewLevel (h : e.WellFormed) : e.withNewLevel.WellFormed where
  toCoherent := h.toCoherent.withNewLevel
  slots_lt := h.slots_lt
  levels_lt l hl := by
    change l.value < e.nextLevelId + 1
    rcases Finmap.mem_insert.mp hl with rfl | hl
    · exact lt_add_one _
    · exact (h.levels_lt l hl).trans (lt_add_one _)
  retired_lt l hl := (h.retired_lt l hl).trans (lt_add_one _)
  pgm_lt l hl := (h.pgm_lt l hl).trans (lt_add_one _)
  toExclusive := h.toExclusive.withNewLevel

/-- New blocks in a level. -/
theorem created (h : e.WellFormed) (hL : e.levels.lookup l = some L) {blks : List (Block V)}
    (hc : Created e e' l L.blockIds blks) : e'.WellFormed := by
  obtain ⟨L₁, hL₁, hids⟩ := hc.level
  have hlevel : ∀ l',
      (∃ L', e'.levels.lookup l' = some L') ↔ ∃ L', e.levels.lookup l' = some L' := by
    intro l'
    by_cases hl' : l' = l
    · rw [hl', hL, hL₁]; simp
    · rw [hc.levels l' hl']
  -- a block listed afterwards was listed before, or is new
  have hlisted : ∀ l' L', e'.levels.lookup l' = some L' → ∃ L₀, e.levels.lookup l' = some L₀ ∧
      ∀ b ∈ L'.blockIds, b ∈ L₀.blockIds ∨ l' = l ∧ b ∈ e.newBlockIds blks.length := by
    intro l' L' hL'
    by_cases hl' : l' = l
    · rw [hl', hL₁] at hL'
      cases hL'
      refine ⟨L, hl' ▸ hL, fun b hb ↦ ?_⟩
      rw [hids, List.mem_append] at hb
      exact hb.imp_right fun hb ↦ ⟨hl', hb⟩
    · rw [hc.levels l' hl'] at hL'
      exact ⟨L', hL', fun b hb ↦ Or.inl hb⟩
  have hnew : ∀ b ∈ e.newBlockIds blks.length, ∀ l' L₀, e.levels.lookup l' = some L₀ →
      b ∉ L₀.blockIds := fun b hb l' L₀ hL₀ hmem ↦
    absurd (h.listed_lt hL₀ b hmem) (not_lt.mpr (mem_newBlockIds.mp hb).1)
  exact {
    toCoherent := hc.coherent
    slots_lt := fun s hs ↦ by
      obtain ⟨blk, hblk⟩ := Finmap.mem_iff.mp hs
      rw [hc.slots] at hblk
      rw [hc.nextFreeSlot]
      by_cases hnext : InNext e.storage.nextFreeSlot blks.length s.value
      · exact hnext.2
      · rw [if_neg hnext] at hblk
        have := h.slots_lt s (Finmap.mem_of_lookup_eq_some hblk)
        omega
    levels_lt := fun l' hl' ↦ by
      rw [hc.nextLevelId]
      exact h.levels_lt l' (Finmap.mem_iff.mpr ((hlevel l').mp (Finmap.mem_iff.mp hl')))
    retired_lt := by rw [hc.retired, hc.nextLevelId]; exact h.retired_lt
    pgm_lt := fun l' hl' ↦ by
      rw [hc.nextLevelId]
      obtain ⟨index, hindex⟩ := Finmap.mem_iff.mp hl'
      by_cases heq : l' = l
      · subst heq
        exact h.pgm_lt l' (Finmap.mem_of_lookup_eq_some (hc.pgm index hindex))
      · rw [hc.pgms l' heq] at hindex
        exact h.pgm_lt l' (Finmap.mem_of_lookup_eq_some hindex)
    mapped := fun l' L' hL' b hb ↦ by
      obtain ⟨L₀, hL₀, hmem⟩ := hlisted l' L' hL'
      rw [Finmap.mem_iff]
      rcases hmem b hb with hb | ⟨-, hb⟩
      · rw [hc.mapped_old h.toCoherent (h.mapped l' L₀ hL₀ b hb)]
        exact Finmap.mem_iff.mp (h.mapped l' L₀ hL₀ b hb)
      · rw [hc.mapped, if_pos (mem_newBlockIds.mp hb)]
        exact ⟨_, rfl⟩
    disjoint := fun l₁ l₂ L₁ L₂ hL₁ hL₂ hne b hb₁ hb₂ ↦ by
      obtain ⟨M₁, hM₁, hmem₁⟩ := hlisted l₁ L₁ hL₁
      obtain ⟨M₂, hM₂, hmem₂⟩ := hlisted l₂ L₂ hL₂
      rcases hmem₁ b hb₁ with hb₁ | ⟨rfl, hb₁⟩
      · rcases hmem₂ b hb₂ with hb₂ | ⟨-, hb₂⟩
        · exact h.disjoint l₁ l₂ M₁ M₂ hM₁ hM₂ hne hb₁ hb₂
        · exact hnew b hb₂ l₁ M₁ hM₁ hb₁
      · rcases hmem₂ b hb₂ with hb₂ | ⟨rfl, -⟩
        · exact hnew b hb₁ l₂ M₂ hM₂ hb₂
        · exact hne rfl }

theorem setPgm (h : e.WellFormed) (hl : l ∈ e.levels) (index : BatchPgmIndex) :
    (e.setPgm l index).WellFormed :=
  { h with
    pgm_lt := fun l' hl' ↦ by
      rcases Finmap.mem_insert.mp hl' with rfl | hl'
      · exact h.levels_lt _ hl
      · exact h.pgm_lt l' hl' }

theorem forget (h : e.WellFormed) (hL : e.levels.lookup l = some L)
    (hd : Dropped e e' L.blockIds) : (e'.forget l).WellFormed where
  toCoherent := hd.coherent.of_eq rfl rfl le_rfl
  toExclusive := h.toExclusive.forget hL hd
  slots_lt s hs := by
    obtain ⟨blk, hblk⟩ := Finmap.mem_iff.mp hs
    change e'.storage.slots.lookup s = some blk at hblk
    rw [hd.slots] at hblk
    split_ifs at hblk
    exact hd.nextFreeSlot ▸ h.slots_lt s (Finmap.mem_of_lookup_eq_some hblk)
  levels_lt l' hl' := by
    obtain ⟨L', hL'⟩ := Finmap.mem_iff.mp hl'
    change l'.value < e'.nextLevelId
    rw [hd.nextLevelId]
    exact h.levels_lt l' (Finmap.mem_of_lookup_eq_some (Exclusive.lookup_forget hd hL').2)
  retired_lt l' hl' := by
    rw [hd.rest] at hl' ⊢
    rcases Finset.mem_insert.mp hl' with rfl | hl'
    · exact h.levels_lt _ (Finmap.mem_of_lookup_eq_some hL)
    · exact h.retired_lt l' hl'
  pgm_lt l' hl' := by
    rw [hd.rest] at hl' ⊢
    exact h.pgm_lt l' (Finmap.mem_erase.mp hl').2

/-- `build_level` into a fresh level, over records without repeated keys. -/
theorem run_buildLevel (h : e.WellFormed) {records : List (Record V)}
    (hnodup : (records.map (·.key)).Nodup) :
    ∃ e' blks, (buildLevel records none).run e = .ok ⟨e.nextLevelId⟩ e' ∧
      Created e.withNewLevel e' ⟨e.nextLevelId⟩ [] blks ∧
      blks.map (·.records) = chunks e.config.blockCapacity (sortRecords records) := by
  have hsorted : SortedBy (·.key) (sortRecords records) := sortedBy_insertionSort hnodup
  have hd : Dataset.fromRecords records = .ok ⟨sortRecords records, hsorted⟩ :=
    fromRecords_eq_ok.mpr ⟨hnodup, rfl⟩
  have hstart : (buildLevel records none).run e =
      (buildLevelWith .none records (some ⟨e.nextLevelId⟩)).run e.withNewLevel := by
    rw [buildLevel, buildLevelWith, buildLevelWith, hd]
    rfl
  obtain ⟨e', blks, hc, ⟨hrun, hrecs, -⟩ | ⟨-, hfault, -⟩⟩ :=
    buildLevelWith_spec .none h.withNewLevel.toCoherent (L := Level.empty _)
      (Finmap.lookup_insert _) h.fresh_retired (fun b hb ↦ absurd hb List.not_mem_nil) hd
      (h.withNewLevel.free_slots _)
  · exact ⟨e', blks, hstart.trans hrun, hc, hrecs⟩
  · cases hfault

theorem after_buildLevel (h : e.WellFormed) {records : List (Record V)}
    (hnodup : (records.map (·.key)).Nodup) : (e.after (.buildLevel records none)).WellFormed := by
  obtain ⟨e', blks, hrun, hc, -⟩ := h.run_buildLevel hnodup
  rw [Engine.after, hrun]
  exact h.withNewLevel.created (L := Level.empty _) (Finmap.lookup_insert _) hc

end WellFormed

end Engine

end EnhancedLetIndex
