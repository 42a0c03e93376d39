import EnhancedLetIndex.Engine.Merge

/-!
# The trace and the frame of a merge

What a merge of two canonical levels does to the storage that is observed: the inputs are read,
the output is written, read again for its PGM, and the inputs are cleared, in this order and
nothing else (`MergeTraced`).  The output is new in every respect and no other level is touched.
-/

namespace EnhancedLetIndex

variable {V : Type}

namespace Engine

variable {e e' e₂ e₄ e₅ : Engine V} {b : BlockId} {s : SlotId}

/-- The trace and the frame of a merge with result `r`, whose inputs list the blocks of `n` and
`o` in the slots `ns` and `os` and whose output lists those of `out` in `outs`. -/
structure MergeTraced (e e' : Engine V) (r : MergeResult) (n o out : Level)
    (ns os outs : List SlotId) : Prop where
  newer_level : e.levels.lookup r.newerLevelId = some n
  older_level : e.levels.lookup r.olderLevelId = some o
  output_level : e'.levels.lookup r.outputLevelId = some out
  newer_slots : ns.map some = n.blockIds.map e.mapping.logicalToPhysical.lookup
  older_slots : os.map some = o.blockIds.map e.mapping.logicalToPhysical.lookup
  output_slots : outs.map some = out.blockIds.map e'.mapping.logicalToPhysical.lookup
  observed : e'.storage.observed = e.storage.observed ++
    (ns.map (.read, ·) ++ os.map (.read, ·) ++ outs.map (.write, ·) ++ outs.map (.read, ·) ++
      ns.map (.write, ·) ++ os.map (.write, ·))
  /-- The output lists its blocks in the order of their construction. -/
  output_blocks : out.blockIds =
    e.newBlockIds (e.mergedBlocks r.newerLevelId r.olderLevelId).length
  fresh_level : r.outputLevelId ∉ e.levels ∧ r.outputLevelId ∉ e.retiredLevelIds
  fresh_blocks : ∀ b ∈ out.blockIds, e.nextBlockId ≤ b.value ∧ b ∉ e.mapping.logicalToPhysical
  fresh_slots : ∀ s ∈ outs, e.storage.nextFreeSlot ≤ s.value ∧ s ∉ e.storage.slots
  other_levels : ∀ l, l ≠ r.newerLevelId → l ≠ r.olderLevelId → l ≠ r.outputLevelId →
    e'.levels.lookup l = e.levels.lookup l ∧ e'.pgmIndexes.lookup l = e.pgmIndexes.lookup l
  other_blocks : ∀ l L, l ≠ r.newerLevelId → l ≠ r.olderLevelId → e.levels.lookup l = some L →
    ∀ b ∈ L.blockIds, ∃ s, e.mapping.logicalToPhysical.lookup b = some s ∧
      e'.mapping.logicalToPhysical.lookup b = some s ∧
      e'.storage.slots.lookup s = e.storage.slots.lookup s
  unmapped : ∀ b ∈ n.blockIds ++ o.blockIds, b ∉ e'.mapping.logicalToPhysical
  emptied : ∀ s ∈ ns ++ os, s ∉ e'.storage.slots

/-! ## Blocks that stay -/

/-- A block keeps its slot and what is stored there. -/
def StaysPut (e e' : Engine V) (b : BlockId) : Prop :=
  ∀ s, e.mapping.logicalToPhysical.lookup b = some s →
    e'.mapping.logicalToPhysical.lookup b = some s ∧
      e'.storage.slots.lookup s = e.storage.slots.lookup s

theorem StaysPut.trans {e e' e'' : Engine V} (h : StaysPut e e' b) (h' : StaysPut e' e'' b) :
    StaysPut e e'' b := by
  intro s hs
  obtain ⟨hmap, hslot⟩ := h s hs
  obtain ⟨hmap', hslot'⟩ := h' s hmap
  exact ⟨hmap', hslot'.trans hslot⟩

theorem Dropped.staysPut {bs : List BlockId} (h : Dropped e e' bs) (hc : e.Coherent) (hb : b ∉ bs) :
    StaysPut e e' b := by
  intro s hs
  refine ⟨by rw [h.mapped, if_neg hb, hs], (h.slots s).trans (if_neg ?_)⟩
  rintro ⟨b', hb', hs'⟩
  rw [Inverse.injective hc.bijective hs hs'] at hb
  exact hb hb'

theorem Created.staysPut {l : LevelId} {ids : List BlockId} {blks : List (Block V)}
    (h : Created e e' l ids blks) (hc : e.Coherent)
    (hfree : ∀ s ∈ e.storage.slots, ¬ InNext e.storage.nextFreeSlot blks.length s.value)
    (b : BlockId) : StaysPut e e' b := by
  intro s hs
  refine ⟨(h.mapped_old hc (Finmap.mem_of_lookup_eq_some hs)).trans hs, h.slots_old hfree ?_⟩
  rw [hc.occupied]
  exact Finmap.mem_of_lookup_eq_some ((hc.bijective b s).mp hs)

/-- The slots of the new blocks. -/
theorem Created.slotsOf {l : LevelId} {ids : List BlockId} {blks : List (Block V)}
    (h : Created e e' l ids blks) : e'.slotsOf (e.newBlockIds blks.length) =
      (List.range blks.length).map fun i : Nat ↦ ⟨e.storage.nextFreeSlot + i⟩ := by
  rw [Engine.slotsOf, newBlockIds, List.filterMap_map, ← List.filterMap_eq_map]
  refine List.filterMap_congr fun i hi ↦ ?_
  have hnext : InNext e.nextBlockId blks.length (e.nextBlockId + i) := by
    have hlt := List.mem_range.mp hi
    exact ⟨by omega, by omega⟩
  rw [Function.comp_apply, h.mapped, if_pos hnext, add_sub_cancel_left]
  rfl

theorem Created.observed_slotsOf {l : LevelId} {ids : List BlockId} {blks : List (Block V)}
    (h : Created e e' l ids blks) : e'.storage.observed = e.storage.observed ++
      (e'.slotsOf (e.newBlockIds blks.length)).map (.write, ·) := by
  rw [h.slotsOf, List.map_map, h.observed]
  rfl

/-- Blocks that keep their slots have the same ones. -/
theorem slotsOf_congr {ids : List BlockId} (h : ∀ b ∈ ids, StaysPut e e' b)
    (hmapped : ∀ b ∈ ids, b ∈ e.mapping.logicalToPhysical) : e'.slotsOf ids = e.slotsOf ids := by
  refine List.filterMap_congr fun b hb ↦ ?_
  obtain ⟨s, hs⟩ := Finmap.mem_iff.mp (hmapped b hb)
  rw [hs]
  exact (h b hb s hs).1

theorem mem_slotsOf {ids : List BlockId} :
    s ∈ e.slotsOf ids ↔ ∃ b ∈ ids, e.mapping.logicalToPhysical.lookup b = some s :=
  List.mem_filterMap

/-! ## The steps of a merge -/

namespace MergeSteps

variable {newer older : LevelId} {n o : Level} {blks : List (Block V)} {idx : BatchPgmIndex}
  (hs : MergeSteps e newer older n o e₂ e₄ e₅ blks idx) (h : e.WellFormed)

include hs h

/-- No block moves while the output is built. -/
theorem staysPut_created (b : BlockId) : StaysPut e ((e₂.afterReads
    (e₂.slotsOf (e.newBlockIds blks.length))).setPgm ⟨e.nextLevelId⟩ idx) b := by
  have hwf := (h.afterReads (e.slotsOf n.blockIds ++ e.slotsOf o.blockIds)).withNewLevel
  have hkeeps := hs.created.staysPut hwf.toCoherent (hwf.free_slots _) b
  intro s hlookup
  obtain ⟨hmap, hslot⟩ := hkeeps s hlookup
  refine ⟨hmap, ?_⟩
  show (e₂.afterReads _).storage.slots.lookup s = _
  rw [afterReads_slots, hslot]
  exact congrArg (·.lookup s) (afterReads_slots e _)

/-- A block that is no block of the newer input keeps its place while that is retired. -/
theorem staysPut_newer (hbn : b ∉ n.blockIds) : StaysPut e (e₄.forget newer) b :=
  (hs.staysPut_created h b).trans (hs.newer_dropped.staysPut hs.coherent_created hbn)

/-- A block of neither input keeps its place. -/
theorem staysPut (hbn : b ∉ n.blockIds) (hbo : b ∉ o.blockIds) :
    StaysPut e (e₅.forget older) b := by
  have holder := hs.older_dropped.staysPut hs.coherent_newer hbo
  exact (hs.staysPut_newer h hbn).trans holder

theorem disjoint (hne : newer ≠ older) : n.blockIds.Disjoint o.blockIds :=
  h.disjoint newer older n o hs.newer_level hs.older_level hne

/-- The slots of an input while it is retired are those it had before the merge. -/
theorem slotsOf_inputs (hne : newer ≠ older) :
    ((e₂.afterReads (e₂.slotsOf (e.newBlockIds blks.length))).setPgm ⟨e.nextLevelId⟩ idx).slotsOf
        n.blockIds = e.slotsOf n.blockIds ∧
      (e₄.forget newer).slotsOf o.blockIds = e.slotsOf o.blockIds := by
  constructor
  · apply slotsOf_congr
    · exact fun b _ ↦ hs.staysPut_created h b
    · exact h.mapped newer n hs.newer_level
  · apply slotsOf_congr
    · exact fun b hb ↦ hs.staysPut_newer h fun hbn ↦ hs.disjoint h hne hbn hb
    · exact h.mapped older o hs.older_level

/-- Everything that is observed of a merge. -/
theorem observed (hne : newer ≠ older) : (e₅.forget older).storage.observed =
    e.storage.observed ++ ((e.slotsOf n.blockIds).map (TraceOperation.read, ·) ++
      (e.slotsOf o.blockIds).map (TraceOperation.read, ·) ++
      (e₂.slotsOf (e.newBlockIds blks.length)).map (TraceOperation.write, ·) ++
      (e₂.slotsOf (e.newBlockIds blks.length)).map (TraceOperation.read, ·) ++
      (e.slotsOf n.blockIds).map (TraceOperation.write, ·) ++
      (e.slotsOf o.blockIds).map (TraceOperation.write, ·)) := by
  obtain ⟨hnewer, holder⟩ := hs.slotsOf_inputs h hne
  have hreads : ∀ (e : Engine V) (xs : List SlotId), (e.afterReads xs).storage.observed =
      e.storage.observed ++ xs.map (.read, ·) := fun e xs ↦
    UntrustedStorage.recordAll_observed e.storage .read xs
  have hcreated : e₂.storage.observed = e.storage.observed ++
      ((e.slotsOf n.blockIds).map (.read, ·) ++ (e.slotsOf o.blockIds).map (.read, ·)) ++
      (e₂.slotsOf (e.newBlockIds blks.length)).map (.write, ·) := by
    rw [← List.map_append, ← hreads]
    exact hs.created.observed_slotsOf
  calc (e₅.forget older).storage.observed
      = (e₄.forget newer).storage.observed ++ (e.slotsOf o.blockIds).map (.write, ·) := by
        rw [← holder]
        exact hs.older_dropped.observed
    _ = (e₂.afterReads (e₂.slotsOf (e.newBlockIds blks.length))).storage.observed ++
          (e.slotsOf n.blockIds).map (.write, ·) ++ (e.slotsOf o.blockIds).map (.write, ·) := by
        rw [← hnewer]
        exact congrArg (· ++ _) hs.newer_dropped.observed
    _ = _ := by
        rw [hreads, hcreated]
        simp only [List.append_assoc]

/-- The blocks of the output are mapped to no slot yet, and stay where they are built. -/
theorem new_blocks (hb : b ∈ e.newBlockIds blks.length) :
    b ∉ e.mapping.logicalToPhysical ∧ StaysPut e₂ (e₅.forget older) b := by
  have hnew : b ∉ e.mapping.logicalToPhysical := fun hmem ↦
    absurd (h.blocks_lt b hmem) (not_lt.mpr (mem_newBlockIds.mp hb).1)
  have hbn : b ∉ n.blockIds := fun hmem ↦ hnew (h.mapped newer n hs.newer_level b hmem)
  have hbo : b ∉ o.blockIds := fun hmem ↦ hnew (h.mapped older o hs.older_level b hmem)
  have hread : StaysPut e₂ ((e₂.afterReads (e₂.slotsOf (e.newBlockIds blks.length))).setPgm
      ⟨e.nextLevelId⟩ idx) b := fun s hlookup ↦
    ⟨hlookup, congrArg (·.lookup s) (afterReads_slots e₂ _)⟩
  have hnewer : StaysPut e₂ (e₄.forget newer) b :=
    hread.trans (hs.newer_dropped.staysPut hs.coherent_created hbn)
  exact ⟨hnew, hnewer.trans (hs.older_dropped.staysPut hs.coherent_newer hbo)⟩

theorem mem_newSlots (hslot : s ∈ e₂.slotsOf (e.newBlockIds blks.length)) :
    e.storage.nextFreeSlot ≤ s.value ∧ s ∉ e.storage.slots := by
  have hrange : s ∈ e₂.slotsOf ((e.afterReads (e.slotsOf n.blockIds ++
      e.slotsOf o.blockIds)).withNewLevel.newBlockIds blks.length) := hslot
  rw [hs.created.slotsOf, List.mem_map] at hrange
  obtain ⟨i, -, rfl⟩ := hrange
  have hle : e.storage.nextFreeSlot ≤
      (e.afterReads (e.slotsOf n.blockIds ++ e.slotsOf o.blockIds)).storage.nextFreeSlot + i := by
    rw [afterReads_nextFreeSlot]
    exact Int.le_add_of_nonneg_right (Int.natCast_nonneg i)
  exact ⟨hle, fun hmem ↦ absurd (h.slots_lt _ hmem) (not_lt.mpr hle)⟩

/-- The inputs are gone from the mapping and from their slots. -/
theorem inputs_gone (hne : newer ≠ older) :
    (∀ b ∈ n.blockIds ++ o.blockIds, b ∉ (e₅.forget older).mapping.logicalToPhysical) ∧
      ∀ s ∈ e.slotsOf n.blockIds ++ e.slotsOf o.blockIds,
        s ∉ (e₅.forget older).storage.slots := by
  obtain ⟨hnewer, holder⟩ := hs.slotsOf_inputs h hne
  constructor
  · intro b hb
    apply Finmap.lookup_eq_none.mp
    show e₅.mapping.logicalToPhysical.lookup b = none
    rw [hs.older_dropped.mapped]
    split_ifs with hbo
    · rfl
    · show e₄.mapping.logicalToPhysical.lookup b = none
      rw [hs.newer_dropped.mapped, if_pos ((List.mem_append.mp hb).resolve_right hbo)]
  · intro s hslot
    apply Finmap.lookup_eq_none.mp
    show e₅.storage.slots.lookup s = none
    rw [hs.older_dropped.slots]
    split_ifs with hso
    · rfl
    · show e₄.storage.slots.lookup s = none
      rw [← holder, List.mem_append, ← hnewer] at hslot
      rw [hs.newer_dropped.slots, if_pos]
      exact mem_slotsOf.mp (hslot.resolve_right fun hmem ↦ hso (mem_slotsOf.mp hmem))

theorem traced (hne : newer ≠ older) : ∃ out, MergeTraced e (e₅.forget older)
    (e.mergeResult newer older) n o out (e.slotsOf n.blockIds) (e.slotsOf o.blockIds)
    (e₂.slotsOf (e.newBlockIds blks.length)) := by
  have hpublished := hs.published h hne
  obtain ⟨out, hout, hids⟩ := hs.created.level
  replace hids : out.blockIds = e.newBlockIds blks.length := hids
  obtain ⟨hnout, hoout⟩ := hs.ne_output h.fresh_level
  have hmapped : ∀ b ∈ out.blockIds, b ∈ e₂.mapping.logicalToPhysical := by
    intro b hb
    rw [hids] at hb
    rw [Finmap.mem_iff, hs.created.mapped]
    exact ⟨_, if_pos (mem_newBlockIds.mp hb)⟩
  have houtputs : ∀ b ∈ out.blockIds, b ∉ e.mapping.logicalToPhysical ∧
      StaysPut e₂ (e₅.forget older) b := by
    rw [hids]
    exact fun b hb ↦ hs.new_blocks h hb
  have hlength : blks.length = (e.mergedBlocks newer older).length := by
    rw [← hs.records, List.length_map]
  obtain ⟨hunmapped, hemptied⟩ := hs.inputs_gone h hne
  refine ⟨out, {
    newer_level := hs.newer_level
    older_level := hs.older_level
    output_level := (hs.levels hnout.symm hoout.symm).1.trans hout
    newer_slots := map_some_slotsOf (h.mapped newer n hs.newer_level)
    older_slots := map_some_slotsOf (h.mapped older o hs.older_level)
    output_slots := ?_
    observed := hs.observed h hne
    output_blocks := hids.trans (congrArg _ hlength)
    fresh_level := ⟨h.fresh_level, h.fresh_retired⟩
    fresh_blocks := fun b hb ↦ ⟨(mem_newBlockIds.mp (hids ▸ hb)).1, (houtputs b hb).1⟩
    fresh_slots := fun s hslot ↦ hs.mem_newSlots h hslot
    other_levels := hpublished.levels
    other_blocks := ?_
    unmapped := hunmapped
    emptied := hemptied }⟩
  · rw [← hids, ← slotsOf_congr (fun b hb ↦ (houtputs b hb).2) hmapped]
    apply map_some_slotsOf
    intro b hb
    obtain ⟨s, hlookup⟩ := Finmap.mem_iff.mp (hmapped b hb)
    exact Finmap.mem_of_lookup_eq_some ((houtputs b hb).2 s hlookup).1
  · intro l L hln hlo hL b hb
    obtain ⟨s, hlookup⟩ := Finmap.mem_iff.mp (h.mapped l L hL b hb)
    exact ⟨s, hlookup, hs.staysPut h (h.disjoint l newer L n hL hs.newer_level hln hb)
      (h.disjoint l older L o hL hs.older_level hlo hb) s hlookup⟩

end MergeSteps

/-- A merge of two canonical levels of a well-formed state succeeds with exactly its baseline
trace, and touches nothing but its inputs and what is new. -/
theorem mergeLevelsBlocking_traced (h : e.WellFormed) {newer older : LevelId}
    (hne : newer ≠ older) (hnewer : e.CanonicalLevel newer) (holder : e.CanonicalLevel older)
    (hε : e.config.pgmEpsilon ≠ none) : ∃ r e' n o out ns os outs,
      (mergeLevelsBlocking newer older).run e = .ok r e' ∧ r.newerLevelId = newer ∧
        r.olderLevelId = older ∧ MergeTraced e e' r n o out ns os outs := by
  obtain ⟨-, n, o, e₂, e₄, e₅, blks, idx, hsteps, hrun⟩ | ⟨hrefused, -⟩ :=
    h.mergeBlockingWith_cases .none newer older
  · obtain ⟨out, htraced⟩ := hsteps.traced h hne
    exact ⟨_, _, n, o, out, _, _, _, hrun, rfl, rfl, htraced⟩
  · exact absurd ⟨hne, hnewer, holder, hε, fun _ _ ↦ rfl, rfl⟩ hrefused

theorem mergeLevelsBlocking_traced_twoLevels : ∃ r e' n o out ns os outs,
    (mergeLevelsBlocking ⟨1⟩ ⟨0⟩).run twoLevels = .ok r e' ∧ r.newerLevelId = ⟨1⟩ ∧
      r.olderLevelId = ⟨0⟩ ∧ MergeTraced twoLevels e' r n o out ns os outs := by
  have ha := mergeAccepted_twoLevels
  exact mergeLevelsBlocking_traced wellFormed_twoLevels ha.distinct ha.canonical_newer
    ha.canonical_older ha.epsilon

end Engine

end EnhancedLetIndex
