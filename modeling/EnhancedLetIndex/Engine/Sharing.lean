import EnhancedLetIndex.Engine.Merge

/-!
# Blocks of several levels

A level is an ordered list of block ids, and nothing in the engine keeps `add_block_to_level`
from listing a block in a second level.  Retiring the first level then clears the block under
the second one.

Runs that attach only mapped blocks of no other level (`AttachesOwn`) keep the lists of the
active levels disjoint, whatever else they do, and in their states a retired level takes no
block of another level with it.
-/

namespace EnhancedLetIndex

variable {V : Type}

namespace Engine

/-- The invariant of runs that share no block. -/
structure Owned (e : Engine V) : Prop extends Consistent e, Exclusive e

/-- `add_block_to_level` is given a mapped block that no other active level lists. -/
def AttachesOwn (e : Engine V) : EngineOp V → Prop
  | .addBlockToLevel l b => b ∈ e.mapping.logicalToPhysical ∧
    ∀ l' L', l' ≠ l → e.levels.lookup l' = some L' → b ∉ L'.blockIds
  | _ => True

variable {e e' : Engine V} {l : LevelId} {L : Level} {b : BlockId}

/-! ## The invariant -/

theorem Exclusive.attach (h : e.Exclusive) {L' : Level} (hL : e.levels.lookup l = some L)
    (hadd : L.addBlock b = .ok L') (hb : b ∈ e.mapping.logicalToPhysical)
    (hown : ∀ l' L', l' ≠ l → e.levels.lookup l' = some L' → b ∉ L'.blockIds) :
    (e.attach l L').Exclusive := by
  have hids : L'.blockIds = L.blockIds ++ [b] := by
    unfold Level.addBlock at hadd
    split_ifs at hadd
    cases hadd
    rfl
  -- what is listed afterwards was listed before, or is `b` in `l`
  have hlisted : ∀ l₁ L₁, (e.attach l L').levels.lookup l₁ = some L₁ →
      ∃ M, e.levels.lookup l₁ = some M ∧
        ∀ b' ∈ L₁.blockIds, b' ∈ M.blockIds ∨ l₁ = l ∧ b' = b := by
    intro l₁ L₁ hL₁
    change (e.levels.insert l L').lookup l₁ = some L₁ at hL₁
    by_cases hl : l₁ = l
    · rw [hl, Finmap.lookup_insert] at hL₁
      cases hL₁
      refine ⟨L, hl ▸ hL, fun b' hb' ↦ ?_⟩
      rw [hids, List.mem_append, List.mem_singleton] at hb'
      exact hb'.imp_right fun hb' ↦ ⟨hl, hb'⟩
    · rw [Finmap.lookup_insert_of_ne _ hl] at hL₁
      exact ⟨L₁, hL₁, fun b' hb' ↦ Or.inl hb'⟩
  constructor
  · intro l₁ L₁ hL₁ b' hb'
    obtain ⟨M, hM, hmem⟩ := hlisted l₁ L₁ hL₁
    rcases hmem b' hb' with hb' | ⟨-, rfl⟩
    · exact h.mapped l₁ M hM b' hb'
    · exact hb
  · intro l₁ l₂ L₁ L₂ hL₁ hL₂ hne b' hb₁ hb₂
    obtain ⟨M₁, hM₁, hmem₁⟩ := hlisted l₁ L₁ hL₁
    obtain ⟨M₂, hM₂, hmem₂⟩ := hlisted l₂ L₂ hL₂
    rcases hmem₁ b' hb₁ with hb₁ | ⟨rfl, rfl⟩
    · rcases hmem₂ b' hb₂ with hb₂ | ⟨rfl, rfl⟩
      · exact h.disjoint l₁ l₂ M₁ M₂ hM₁ hM₂ hne hb₁ hb₂
      · exact hown l₁ M₁ hne hM₁ hb₁
    · rcases hmem₂ b' hb₂ with hb₂ | ⟨rfl, -⟩
      · exact hown l₂ M₂ hne.symm hM₂ hb₂
      · exact hne rfl

/-- The block that is created next is listed by no level. -/
theorem Owned.fresh (h : e.Owned) (hL : e.levels.lookup l = some L) :
    (⟨e.nextBlockId⟩ : BlockId) ∉ L.blockIds := fun hmem ↦
  lt_irrefl _ (h.blocks_lt _ (h.mapped l L hL _ hmem))

theorem owned_of_consistent {α : Type} {x : EngineM V α} (hx : Along (Keeps Consistent) x)
    (hex : ∀ e : Engine V, e.Owned → (finalState (x.run e)).Exclusive) :
    Along (Keeps Owned) x := fun e h ↦ ⟨hx e h.toConsistent, hex e h⟩

theorem ReadsOnly.owned (h : ReadsOnly e e') (ho : e.Owned) : e'.Owned := by
  refine ⟨h.keeps_consistent e e' ho.toConsistent, ?_⟩
  obtain ⟨slots, rfl⟩ := h
  exact ho.toExclusive.of_eq rfl fun _ hb ↦ hb

theorem Owned.addBlockToLevel (h : e.Owned) (hb : b ∈ e.mapping.logicalToPhysical)
    (hown : ∀ l' L', l' ≠ l → e.levels.lookup l' = some L' → b ∉ L'.blockIds) :
    (finalState ((addBlockToLevel l b).run e)).Exclusive := by
  obtain ⟨L, L', -, hL, hadd, hrun⟩ | ⟨-, err, hrun⟩ := addBlockToLevel_cases l b e
  · rw [hrun]; exact h.toExclusive.attach hL hadd hb hown
  · rw [hrun]; exact h.toExclusive

theorem owned_createBlock {records : List (Record V)} {l : Option LevelId} :
    Along (Keeps Owned) (createBlock records l) := by
  refine owned_of_consistent consistent_createBlock fun e h ↦ ?_
  obtain ⟨err, -, hrun⟩ | ⟨blk, owner, -, -, hrun⟩ | ⟨blk, hblk, hfree, hrun⟩ :=
    createBlock_cases h.toCoherent records l
  · rw [hrun]; exact h.toExclusive.of_eq rfl fun _ hb ↦ hb
  · rw [hrun]; exact h.toExclusive.of_eq rfl fun _ hb ↦ hb
  · rw [hrun]
    have hmem : ∀ b ∈ e.mapping.logicalToPhysical, b ∈ (e.put blk).mapping.logicalToPhysical :=
      fun b hb ↦ Finmap.mem_insert.mpr (Or.inr hb)
    have hput : (e.put blk).Owned := by
      refine ⟨h.toConsistent.of_coherent (h.toCoherent.put hfree) (h.sized.overwrite ?_)
        rfl rfl rfl rfl, h.toExclusive.of_eq rfl hmem⟩
      rw [sortedBlock_eq_ok.mp hblk]
    cases l with
    | none => exact hput.toExclusive
    | some l =>
      have hadd := hput.addBlockToLevel (l := l) (b := ⟨e.nextBlockId⟩)
        (Finmap.mem_insert.mpr (Or.inl rfl)) fun l' L' _ hL' ↦ h.fresh hL'
      exact (finalState_bind_pure _ _ _).symm ▸ hadd

theorem owned_relocateBlock {b : BlockId} {s : SlotId} :
    Along (Keeps Owned) (relocateBlock b s : EngineM V Unit) := by
  refine owned_of_consistent consistent_relocateBlock fun e h ↦ ?_
  obtain ⟨old, blk, -, -, -, -, -, hrun⟩ | hrun | ⟨err, e', hrun, hr⟩ :=
    relocateBlock_cases h.toCoherent b s
  · rw [hrun]
    exact h.toExclusive.of_eq rfl fun b' hb' ↦ Finmap.mem_insert.mpr (Or.inr hb')
  · rw [hrun]; exact h.toExclusive
  · rw [hrun]; exact (hr.owned h).toExclusive

theorem owned_buildLevelPgm {l : LevelId} :
    Along (Keeps Owned) (buildLevelPgm l : EngineM V BatchPgmIndex) := by
  refine owned_of_consistent consistent_buildLevelPgm fun e h ↦ ?_
  obtain ⟨_, L, keys, e₁, index, -, -, -, -, hr, -, hrun⟩ | ⟨err, e', hrun, hr⟩ :=
    buildLevelPgm_cases l e
  · rw [hrun]; exact (hr.owned h).toExclusive.of_eq rfl fun _ hb ↦ hb
  · rw [hrun]; exact (hr.owned h).toExclusive

/-- `retire_level` on a state that shares no block: the level is gone, or was not active. -/
theorem Owned.retireLevel_cases (h : e.Owned) (l : LevelId) :
    (∃ L e', e.levels.lookup l = some L ∧ Dropped e e' L.blockIds ∧
      (retireLevel l).run e = .ok L.blockIds.length (e'.forget l)) ∨
    ∃ err, (retireLevel l).run e = .error err e := by
  by_cases hl : l ∈ e.retiredLevelIds ∨ l ∉ e.levels
  · exact Or.inr ⟨_, run_bind_of_error (run_level_error hl) _⟩
  push Not at hl
  obtain ⟨L, hL⟩ := Finmap.mem_iff.mp hl.2
  obtain ⟨e', hd, hrun⟩ := retireLevel_spec h.toCoherent hL hl.1 (h.mapped l L hL)
  exact Or.inl ⟨L, e', hL, hd, hrun⟩

theorem owned_retireLevel {l : LevelId} :
    Along (Keeps Owned) (retireLevel l : EngineM V Nat) := by
  refine owned_of_consistent consistent_retireLevel fun e h ↦ ?_
  obtain ⟨L, e', hL, hd, hrun⟩ | ⟨err, hrun⟩ := h.retireLevel_cases l
  · rw [hrun]; exact h.toExclusive.forget hL hd
  · rw [hrun]; exact h.toExclusive

theorem stable_owned : Stable (Owned : Engine V → Prop) where
  readsOnly _ _ h ho := h.owned ho
  createLevel := owned_of_consistent consistent_createLevel fun _ h ↦ h.toExclusive.withNewLevel
  createBlock _ _ := owned_createBlock
  relocateBlock _ _ := owned_relocateBlock
  buildLevelPgm _ := owned_buildLevelPgm
  retireLevel _ := owned_retireLevel

/-- In runs that attach only mapped blocks of no other level, no block is shared. -/
theorem Reachable.owned {config : Config} (h : Reachable AttachesOwn config e) : e.Owned := by
  induction h with
  | init => exact ⟨Consistent.init config, Exclusive.init config⟩
  | @step e op _ hop ih =>
    refine stable_owned.after ih op ?_
    rintro l b rfl
    exact ⟨ih.toConsistent.after _, ih.addBlockToLevel hop.1 hop.2⟩

/-! ## What retiring a level leaves alone -/

/-- The level keeps its list, and its blocks are read as before. -/
def Spares (l : LevelId) (L : Level) (e e' : Engine V) : Prop :=
  e.Owned → e.levels.lookup l = some L →
    e'.Owned ∧ e'.levels.lookup l = some L ∧ ∀ b ∈ L.blockIds, e'.blockAt b = e.blockAt b

theorem Spares.refl (l : LevelId) (L : Level) (e : Engine V) : Spares l L e e :=
  fun h hL ↦ ⟨h, hL, fun _ _ ↦ rfl⟩

theorem Spares.trans (l : LevelId) (L : Level) (e e' e'' : Engine V) (h : Spares l L e e')
    (h' : Spares l L e' e'') : Spares l L e e'' := fun ho hL ↦ by
  obtain ⟨ho', hL', hread'⟩ := h ho hL
  obtain ⟨ho'', hL'', hread''⟩ := h' ho' hL'
  exact ⟨ho'', hL'', fun b hb ↦ (hread'' b hb).trans (hread' b hb)⟩

theorem ReadsOnly.spares (h : ReadsOnly e e') (l : LevelId) (L : Level) : Spares l L e e' := by
  intro ho hL
  refine ⟨h.owned ho, ?_⟩
  obtain ⟨slots, rfl⟩ := h
  exact ⟨hL, fun b _ ↦ afterReads_blockAt e slots b⟩

/-- Retiring another level, whether it returns or raises. -/
theorem spares_retireLevel {l' : LevelId} (hne : l ≠ l') :
    Along (Spares l L) (retireLevel l' : EngineM V Nat) := by
  intro e ho hL
  refine ⟨owned_retireLevel e ho, ?_⟩
  obtain ⟨L', e', hL', hd, hrun⟩ | ⟨err, hrun⟩ := ho.retireLevel_cases l'
  · rw [hrun]
    refine ⟨?_, fun b hb ↦ hd.blockAt ho.toCoherent (ho.disjoint l l' L L' hL hL' hne hb)⟩
    change (e'.levels.erase l').lookup l = some L
    rw [Finmap.lookup_erase_ne hne, hd.levels]
    exact hL
  · rw [hrun]
    exact ⟨hL, fun _ _ ↦ rfl⟩

/-- A block that is created in another level has found a free slot. -/
theorem spares_createBlock {records : List (Record V)} {l' : LevelId} (hne : l ≠ l') :
    Returns (Spares l L) (createBlock records (some l')) := by
  intro e b e' hrun ho hL
  have howned : (finalState ((createBlock records (some l')).run e)).Owned := owned_createBlock e ho
  rw [hrun] at howned
  refine ⟨howned, ?_⟩
  obtain ⟨err, -, hcase⟩ | ⟨blk, owner, -, -, hcase⟩ | ⟨blk, -, hfree, hcase⟩ :=
    createBlock_cases ho.toCoherent records (some l')
  · rw [hcase] at hrun; cases hrun
  · rw [hcase] at hrun; cases hrun
  · have hput : ∀ b ∈ L.blockIds, (e.put blk).blockAt b = e.blockAt b := fun b hb ↦
      ho.toCoherent.blockAt_put hfree (ho.mapped l L hL b hb)
    obtain ⟨u, e₁, hadd, hpure⟩ := run_bind_eq_ok.mp (hcase.symm.trans hrun)
    cases hpure
    obtain ⟨M, M', -, -, -, hattach⟩ | ⟨-, err, hattach⟩ :=
      addBlockToLevel_cases l' ⟨e.nextBlockId⟩ (e.put blk)
    · cases hattach.symm.trans hadd
      exact ⟨(Finmap.lookup_insert_of_ne _ hne).trans hL, hput⟩
    · cases hattach.symm.trans hadd

theorem spares_createBlocks {faults : FaultPlan} {l' : LevelId} (hne : l ≠ l') {n : Nat}
    {parts : List (List (Record V))} :
    Returns (Spares l L) (createBlocks faults l' n parts) := by
  induction parts generalizing n with
  | nil => exact Returns.of_along (Along.pure (Spares.refl l L) _)
  | cons p ps ih =>
    rw [createBlocks]
    exact Returns.guard ((spares_createBlock hne).bind (Spares.trans l L) fun _ ↦ ih)

theorem spares_of_readsOnly {α : Type} {x : EngineM V α} (hx : Along ReadsOnly x) :
    Along (Spares l L) x := fun e ↦ (hx e).spares l L

theorem spares_buildLevelPgm {l' : LevelId} :
    Along (Spares l L) (buildLevelPgm l' : EngineM V BatchPgmIndex) := by
  intro e ho hL
  refine ⟨owned_buildLevelPgm e ho, ?_⟩
  obtain ⟨_, M, keys, e₁, index, -, -, -, -, hr, -, hrun⟩ | ⟨err, e', hrun, hr⟩ :=
    buildLevelPgm_cases l' e
  · rw [hrun]; exact (hr.spares l L ho hL).2
  · rw [hrun]; exact (hr.spares l L ho hL).2

theorem spares_publishOutput {faults : FaultPlan} {merged : List (Record V)} {l' : LevelId}
    (hne : l ≠ l') : Returns (Spares l L) (publishOutput faults merged l') := by
  have hpure : ∀ {α : Type} (a : α), Returns (Spares l L) (pure a : EngineM V α) :=
    fun a ↦ Returns.of_along (Along.pure (Spares.refl l L) a)
  refine Returns.bind (Spares.trans l L) ?_ fun _ ↦ ?_
  · refine Returns.bind (Spares.trans l L)
      (Returns.of_along (Along.liftExcept (Spares.refl l L) _ _)) fun d ↦ ?_
    have hget : Returns (Spares l L) (get : EngineM V (Engine V)) :=
      Returns.of_along (Along.get (Spares.refl l L))
    extract_lets body
    change Returns (Spares l L) (pure l' >>= body)
    rw [pure_bind]
    refine hget.bind (Spares.trans l L) fun e ↦ ?_
    exact (spares_createBlocks hne).bind (Spares.trans l L) fun _ ↦ hpure _
  · refine Returns.bind (Spares.trans l L)
      (Returns.of_along (spares_of_readsOnly along_assertCanonicalOutput)) fun _ ↦ ?_
    refine Returns.guard ?_
    exact (Returns.of_along spares_buildLevelPgm).bind (Spares.trans l L) fun _ ↦ hpure _

/-- A merge that returns, of two other levels. -/
theorem spares_mergeBlockingWith {faults : FaultPlan} {newer older : LevelId}
    (hnewer : l ≠ newer) (holder : l ≠ older) :
    Returns (Spares l L) (mergeBlockingWith faults newer older : EngineM V MergeResult) := by
  have hreads : ∀ {α : Type} {x : EngineM V α}, Along ReadsOnly x → Returns (Spares l L) x :=
    fun hx ↦ Returns.of_along (spares_of_readsOnly hx)
  unfold mergeBlockingWith
  extract_lets body
  refine Returns.guard ?_
  refine (hreads along_level).bind (Spares.trans l L) fun n ↦ ?_
  refine (hreads along_level).bind (Spares.trans l L) fun o ↦ ?_
  refine (hreads along_readLevelRecords).bind (Spares.trans l L) fun newerRecords ↦ ?_
  refine (hreads along_readLevelRecords).bind (Spares.trans l L) fun olderRecords ↦ ?_
  -- the id of the output is not the one of the level, since that level is active
  intro e r e' hrun ho hL
  rw [run_bind_of_ok (run_createLevel e)] at hrun
  have hne : l ≠ ⟨e.nextLevelId⟩ := fun heq ↦
    lt_irrefl _ (ho.levels_lt ⟨e.nextLevelId⟩ (heq ▸ Finmap.mem_of_lookup_eq_some hL))
  have hcreate : Spares l L e e.withNewLevel := fun ho hL ↦
    ⟨stable_owned.createLevel e ho, (Finmap.lookup_insert_of_ne _ hne).trans hL, fun _ _ ↦ rfl⟩
  refine Spares.trans l L _ _ _ hcreate ?_ ho hL
  refine Returns.bind (Spares.trans l L) ?_ (fun _ ↦ ?_) _ _ _ hrun
  · refine Returns.tryCatch (spares_publishOutput hne) fun err s a s' hcatch ↦ ?_
    obtain ⟨_, _, -, hthrow⟩ := run_bind_eq_ok.mp hcatch
    cases hthrow
  · refine Returns.bind (Spares.trans l L) (Returns.of_along (spares_retireLevel hnewer)) fun _ ↦ ?_
    refine Returns.bind (Spares.trans l L) (Returns.of_along (spares_retireLevel holder)) fun _ ↦ ?_
    exact Returns.of_along (Along.pure (Spares.refl l L) _)

/-- The blocks of the level can be read. -/
theorem Owned.readable (h : e.Owned) (hL : e.levels.lookup l = some L) :
    ∃ blks, e.ReadAs L.blockIds blks := by
  have hread : ∀ b ∈ L.blockIds, ∃ blk, e.blockAt b = some blk := by
    intro b hb
    obtain ⟨s, hs⟩ := Finmap.mem_iff.mp (h.mapped l L hL b hb)
    obtain ⟨blk, hblk⟩ := Finmap.mem_iff.mp
      ((h.occupied s).mpr (Finmap.mem_iff.mpr ⟨b, (h.bijective b s).mp hs⟩))
    exact ⟨blk, blockAt_eq_some.mpr ⟨s, hs, hblk⟩⟩
  generalize L.blockIds = ids at hread
  induction ids with
  | nil => exact ⟨[], List.Forall₂.nil⟩
  | cons b ids ih =>
    obtain ⟨blk, hblk⟩ := hread b List.mem_cons_self
    obtain ⟨blks, hblks⟩ := ih fun b hb ↦ hread b (List.mem_cons_of_mem _ hb)
    exact ⟨blk :: blks, List.Forall₂.cons hblk hblks⟩

theorem Spares.readAs (h : Spares l L e e') (ho : e.Owned) (hL : e.levels.lookup l = some L) :
    e'.levels.lookup l = some L ∧
      ∃ blks, e.ReadAs L.blockIds blks ∧ e'.ReadAs L.blockIds blks := by
  obtain ⟨-, hL', hblocks⟩ := h ho hL
  obtain ⟨blks, hread⟩ := ho.readable hL
  exact ⟨hL', blks, hread, hread.congr hblocks⟩

/-- In runs that attach only mapped blocks of no other level, no block is in two active levels,
and retiring a level, by itself or in a merge, leaves every other active level readable with
the blocks that it had. -/
theorem retireLevel_spares_others {config : Config} (h : Reachable AttachesOwn config e) :
    (∀ l l' L L', e.levels.lookup l = some L → e.levels.lookup l' = some L' → l ≠ l' →
      L.blockIds.Disjoint L'.blockIds) ∧
    (∀ l l' L, l ≠ l' → e.levels.lookup l = some L →
      (e.after (.retireLevel l')).levels.lookup l = some L ∧ ∃ blks,
        e.ReadAs L.blockIds blks ∧ (e.after (.retireLevel l')).ReadAs L.blockIds blks) ∧
    (∀ l newer older L r e', l ≠ newer → l ≠ older → e.levels.lookup l = some L →
      (mergeLevelsBlocking newer older).run e = .ok r e' →
      e'.levels.lookup l = some L ∧ ∃ blks,
        e.ReadAs L.blockIds blks ∧ e'.ReadAs L.blockIds blks) := by
  have ho := h.owned
  refine ⟨ho.disjoint, fun l l' L hne hL ↦ ?_, fun l newer older L r e' hn hold hL hrun ↦ ?_⟩
  · exact (spares_retireLevel hne e).readAs ho hL
  · exact (spares_mergeBlockingWith hn hold e r e' hrun).readAs ho hL

section SharedBlock

/-- The block 0 of level 0, attached to level 1 as well. -/
def sharedBlock : Engine Unit :=
  (Engine.init ⟨1, some 0, Nat.one_pos⟩).afterAll
    [.buildLevel [{ key := ⟨1⟩, value := () }] none, .createLevel, .addBlockToLevel ⟨1⟩ ⟨0⟩]

/-- Retiring level 0 makes level 1 unreadable. -/
theorem retireLevel_sharedBlock :
    Reachable (fun _ _ ↦ True) ⟨1, some 0, Nat.one_pos⟩ sharedBlock ∧
      (sharedBlock.levels.lookup ⟨0⟩).map (·.blockIds) = some [⟨0⟩] ∧
      (sharedBlock.levels.lookup ⟨1⟩).map (·.blockIds) = some [⟨0⟩] ∧
      (sharedBlock.blockAt ⟨0⟩).isSome = true ∧
      ((sharedBlock.after (.retireLevel ⟨0⟩)).levels.lookup ⟨1⟩).map (·.blockIds) = some [⟨0⟩] ∧
      (sharedBlock.after (.retireLevel ⟨0⟩)).blockAt ⟨0⟩ = none :=
  ⟨reachable_afterAll _ _, by decide +kernel, by decide +kernel, by decide +kernel,
    by decide +kernel, by decide +kernel⟩

end SharedBlock

section TwoLevels

theorem reachable_twoLevels : Reachable AttachesOwn ⟨1, some 0, Nat.one_pos⟩ twoLevels := by
  rw [twoLevels, afterAll, List.foldl_cons, List.foldl_cons, List.foldl_nil]
  exact (Reachable.init.step trivial).step trivial

/-- Level 1 stays as it is when level 0 is retired. -/
theorem retireLevel_twoLevels : ∃ L, twoLevels.levels.lookup ⟨1⟩ = some L ∧
    (twoLevels.after (.retireLevel ⟨0⟩)).levels.lookup ⟨1⟩ = some L ∧ ∃ blks,
      twoLevels.ReadAs L.blockIds blks ∧
        (twoLevels.after (.retireLevel ⟨0⟩)).ReadAs L.blockIds blks := by
  obtain ⟨L, hL⟩ := Option.isSome_iff_exists.mp
    (show (twoLevels.levels.lookup ⟨1⟩).isSome = true by decide +kernel)
  exact ⟨L, hL, (retireLevel_spares_others reachable_twoLevels).2.1 ⟨1⟩ ⟨0⟩ L (by decide) hL⟩

end TwoLevels

end Engine

end EnhancedLetIndex
