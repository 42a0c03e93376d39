import EnhancedLetIndex.Engine.Build

/-!
# Runs of a trusted engine

`EngineOp` is the alphabet of the public operations and `Engine.after` the state one of them
ends in, whether it returns or raises.  `Reachable P` are the states of the runs all of whose
steps satisfy `P`.

`Consistent` is the invariant that every operation keeps without any assumption on its
arguments: the mapping is a bijection onto the occupied slots, every stored block has the
capacity of the configuration, and no identifier in use is one that a counter still has to
hand out.
-/

namespace EnhancedLetIndex

variable {V : Type}

/-- The public operations. -/
inductive EngineOp (V : Type) where
  | createLevel
  | buildLevel (records : List (Record V)) (levelId : Option LevelId)
  | createBlock (records : List (Record V)) (levelId : Option LevelId)
  | createUpdateLevel (records : List (Record V))
  | addBlockToLevel (levelId : LevelId) (blockId : BlockId)
  | readBlock (blockId : BlockId)
  | relocateBlock (blockId : BlockId) (newSlot : SlotId)
  | buildLevelPgm (levelId : LevelId)
  | mergeLevelsBlocking (newer older : LevelId)
  | retireLevel (levelId : LevelId)
  | lookupLevel (levelId : LevelId) (key : RecordKey)
  | lookupLevels (plan : List LevelId) (key : RecordKey)

namespace Engine

/-- The state an operation ends in, whether it returns or raises. -/
def after (e : Engine V) : EngineOp V → Engine V
  | .createLevel => finalState (createLevel.run e)
  | .buildLevel records l => finalState ((buildLevel records l).run e)
  | .createBlock records l => finalState ((createBlock records l).run e)
  | .createUpdateLevel records => finalState ((createUpdateLevel records).run e)
  | .addBlockToLevel l b => finalState ((addBlockToLevel l b).run e)
  | .readBlock b => finalState ((readBlock b).run e)
  | .relocateBlock b s => finalState ((relocateBlock b s).run e)
  | .buildLevelPgm l => finalState ((buildLevelPgm l).run e)
  | .mergeLevelsBlocking newer older => finalState ((mergeLevelsBlocking newer older).run e)
  | .retireLevel l => finalState ((retireLevel l).run e)
  | .lookupLevel l key => finalState ((lookupLevel l key).run e)
  | .lookupLevels plan key => finalState ((lookupLevels plan key).run e)

/-- The states of the runs from a new engine all of whose steps satisfy `P`. -/
inductive Reachable (P : Engine V → EngineOp V → Prop) (config : Config) : Engine V → Prop
  | init : Reachable P config (Engine.init config)
  | step {e : Engine V} {op : EngineOp V} (h : Reachable P config e) (hop : P e op) :
    Reachable P config (e.after op)

/-- The state after some operations, one after the other, whatever their outcomes. -/
def afterAll (e : Engine V) (ops : List (EngineOp V)) : Engine V := ops.foldl after e

/-- What a finite run of operations reaches. -/
theorem reachable_afterAll (config : Config) (ops : List (EngineOp V)) :
    Reachable (fun _ _ ↦ True) config ((Engine.init config).afterAll ops) := by
  induction ops using List.reverseRecOn with
  | nil => exact .init
  | append_singleton ops op ih =>
    rw [afterAll, List.foldl_append]
    exact .step ih trivial

/-- Every stored block has the configured capacity. -/
def Sized (e : Engine V) : Prop :=
  ∀ s blk, e.storage.slots.lookup s = some blk → blk.capacity = e.config.blockCapacity

/-- The invariant of all operations. -/
structure Consistent (e : Engine V) : Prop extends Coherent e where
  sized : e.Sized
  levels_lt : ∀ l ∈ e.levels, l.value < e.nextLevelId
  retired_lt : ∀ l ∈ e.retiredLevelIds, l.value < e.nextLevelId
  not_retired : ∀ l ∈ e.levels, l ∉ e.retiredLevelIds
  pgm_active : ∀ l ∈ e.pgmIndexes, l ∈ e.levels

/-- What holds of the first state holds of the second. -/
def Keeps (I : Engine V → Prop) (e e' : Engine V) : Prop := I e → I e'

theorem Keeps.refl {I : Engine V → Prop} (e : Engine V) : Keeps I e e := id

theorem Keeps.trans {I : Engine V → Prop} (e e' e'' : Engine V) (h : Keeps I e e')
    (h' : Keeps I e' e'') : Keeps I e e'' := h' ∘ h

/-- Every stored block satisfies `p`. -/
def Stored (p : Block V → Prop) (e : Engine V) : Prop :=
  ∀ s blk, e.storage.slots.lookup s = some blk → p blk

namespace Stored

variable {p : Block V → Prop} {e : Engine V}

theorem afterReads (h : e.Stored p) (slots : List SlotId) : (e.afterReads slots).Stored p := by
  intro s blk hs
  rw [afterReads_slots] at hs
  exact h s blk hs

theorem overwrite (h : e.Stored p) {blk : Block V} (hblk : p blk) :
    (e.overwrite blk).Stored p := by
  intro s blk' hs
  change (e.storage.slots.insert (⟨e.storage.nextFreeSlot⟩ : SlotId) blk).lookup s = _ at hs
  by_cases hss : s = ⟨e.storage.nextFreeSlot⟩
  · rw [hss, Finmap.lookup_insert] at hs
    exact Option.some.inj hs ▸ hblk
  · rw [Finmap.lookup_insert_of_ne _ hss] at hs
    exact h s blk' hs

theorem drop (h : e.Stored p) {b : BlockId} {s : SlotId} : (e.drop b s).Stored p := by
  intro s' blk hs
  change (e.storage.slots.erase s).lookup s' = _ at hs
  by_cases hss : s' = s
  · rw [hss, Finmap.lookup_erase] at hs
    cases hs
  · rw [Finmap.lookup_erase_ne hss] at hs
    exact h s' blk hs

theorem relocated (h : e.Stored p) {b : BlockId} {old new : SlotId} {blk : Block V}
    (hblk : e.storage.slots.lookup old = some blk) : (e.relocated b old new blk).Stored p := by
  intro s blk' hs
  change ((e.storage.slots.insert new blk).erase old).lookup s = _ at hs
  by_cases hold : s = old
  · rw [hold, Finmap.lookup_erase] at hs
    cases hs
  rw [Finmap.lookup_erase_ne hold] at hs
  by_cases hnew : s = new
  · rw [hnew, Finmap.lookup_insert] at hs
    exact h old blk' (hblk.trans hs)
  · rw [Finmap.lookup_insert_of_ne _ hnew] at hs
    exact h s blk' hs

end Stored

namespace Sized

variable {e : Engine V}

theorem afterReads (h : e.Sized) (slots : List SlotId) : (e.afterReads slots).Sized :=
  Stored.afterReads h slots

theorem overwrite (h : e.Sized) {blk : Block V} (hblk : blk.capacity = e.config.blockCapacity) :
    (e.overwrite blk).Sized := Stored.overwrite h hblk

theorem drop (h : e.Sized) {b : BlockId} {s : SlotId} : (e.drop b s).Sized := Stored.drop h

theorem relocated (h : e.Sized) {b : BlockId} {old new : SlotId} {blk : Block V}
    (hblk : e.storage.slots.lookup old = some blk) : (e.relocated b old new blk).Sized :=
  Stored.relocated h hblk

end Sized

namespace Consistent

variable {e : Engine V}

theorem init (config : Config) : (Engine.init config : Engine V).Consistent where
  bijective := Inverse.empty
  occupied _ := iff_of_false Finmap.notMem_empty Finmap.notMem_empty
  blocks_lt _ hb := absurd hb Finmap.notMem_empty
  sized _ _ hs := absurd (Finmap.mem_of_lookup_eq_some hs) Finmap.notMem_empty
  levels_lt _ hl := absurd hl Finmap.notMem_empty
  retired_lt _ hl := absurd hl (Finset.notMem_empty _)
  not_retired _ hl := absurd hl Finmap.notMem_empty
  pgm_active _ hl := absurd hl Finmap.notMem_empty

/-- Changes that leave the levels alone. -/
theorem of_coherent {e' : Engine V} (h : e.Consistent) (hc : e'.Coherent) (hs : e'.Sized)
    (hlevels : e'.levels = e.levels) (hret : e'.retiredLevelIds = e.retiredLevelIds)
    (hpgm : e'.pgmIndexes = e.pgmIndexes) (hnext : e'.nextLevelId = e.nextLevelId) :
    e'.Consistent where
  toCoherent := hc
  sized := hs
  levels_lt := by rw [hlevels, hnext]; exact h.levels_lt
  retired_lt := by rw [hret, hnext]; exact h.retired_lt
  not_retired := by rw [hlevels, hret]; exact h.not_retired
  pgm_active := by rw [hlevels, hpgm]; exact h.pgm_active

theorem attach (h : e.Consistent) {l : LevelId} (hl : l ∈ e.levels) (L : Level) :
    (e.attach l L).Consistent where
  toCoherent := h.toCoherent.attach l L
  sized := h.sized
  levels_lt l' hl' := by
    rcases Finmap.mem_insert.mp hl' with rfl | hl'
    · exact h.levels_lt _ hl
    · exact h.levels_lt l' hl'
  retired_lt := h.retired_lt
  not_retired l' hl' := by
    rcases Finmap.mem_insert.mp hl' with rfl | hl'
    · exact h.not_retired _ hl
    · exact h.not_retired l' hl'
  pgm_active l' hl' :=
    Finmap.mem_insert.mpr (Or.inr (h.pgm_active l' (Finmap.mem_erase.mp hl').2))

/-- The end of `retire_level`. -/
theorem forget (h : e.Consistent) {l : LevelId} (hl : l ∈ e.levels) :
    (e.forget l).Consistent where
  toCoherent := h.toCoherent.of_eq rfl rfl le_rfl
  sized := h.sized
  levels_lt l' hl' := h.levels_lt l' (Finmap.mem_erase.mp hl').2
  retired_lt l' hl' := by
    rcases Finset.mem_insert.mp hl' with rfl | hl'
    · exact h.levels_lt _ hl
    · exact h.retired_lt l' hl'
  not_retired l' hl' hret := by
    obtain ⟨hne, hl'⟩ := Finmap.mem_erase.mp hl'
    rcases Finset.mem_insert.mp hret with rfl | hret
    · exact hne rfl
    · exact h.not_retired l' hl' hret
  pgm_active l' hl' := by
    obtain ⟨hne, hl'⟩ := Finmap.mem_erase.mp hl'
    exact Finmap.mem_erase.mpr ⟨hne, h.pgm_active l' hl'⟩

end Consistent

/-! ## Invariants of the elementary operations -/

/-- The elementary operations keep `I`, whether they return or raise. -/
structure Stable (I : Engine V → Prop) : Prop where
  readsOnly : ∀ e e', ReadsOnly e e' → I e → I e'
  createLevel : Along (Keeps I) (createLevel : EngineM V LevelId)
  createBlock : ∀ records l, Along (Keeps I) (createBlock records l : EngineM V BlockId)
  relocateBlock : ∀ b s, Along (Keeps I) (relocateBlock b s : EngineM V Unit)
  buildLevelPgm : ∀ l, Along (Keeps I) (buildLevelPgm l : EngineM V BatchPgmIndex)
  retireLevel : ∀ l, Along (Keeps I) (retireLevel l : EngineM V Nat)

namespace Stable

variable {I : Engine V → Prop}

theorem of_readsOnly (h : Stable I) {α : Type} {x : EngineM V α} (hx : Along ReadsOnly x) :
    Along (Keeps I) x := fun e ↦ h.readsOnly _ _ (hx e)

theorem createBlocks (h : Stable I) {faults : FaultPlan} {l : LevelId} {n : Nat}
    {parts : List (List (Record V))} : Along (Keeps I) (createBlocks faults l n parts) := by
  induction parts generalizing n with
  | nil => exact Along.pure Keeps.refl _
  | cons p ps ih =>
    rw [Engine.createBlocks]
    exact Along.guard Keeps.refl Keeps.trans ((h.createBlock _ _).bind Keeps.trans fun _ ↦ ih)

theorem buildLevelWith (h : Stable I) {faults : FaultPlan} {records : List (Record V)}
    {l : Option LevelId} : Along (Keeps I) (buildLevelWith faults records l) := by
  refine (Along.liftExcept Keeps.refl _ _).bind Keeps.trans fun d ↦ ?_
  have hrest : ∀ l, Along (Keeps I) (do
      let e ← get
      Engine.createBlocks faults l 0 (d.partitions e.config.blockCapacity)
      pure l : EngineM V LevelId) := fun l ↦
    (Along.get Keeps.refl).bind Keeps.trans fun e ↦
      h.createBlocks.bind Keeps.trans fun _ ↦ Along.pure Keeps.refl _
  cases l with
  | none => exact h.createLevel.bind Keeps.trans hrest
  | some l => exact hrest l

theorem createUpdateLevel (h : Stable I) {records : List (Record V)} :
    Along (Keeps I) (createUpdateLevel records) := by
  unfold Engine.createUpdateLevel
  extract_lets body
  refine Along.guard Keeps.refl Keeps.trans ?_
  exact (Along.liftExcept Keeps.refl _ _).bind Keeps.trans fun _ ↦ h.buildLevelWith

theorem mergeBlockingWith (h : Stable I) {faults : FaultPlan} {newer older : LevelId} :
    Along (Keeps I) (mergeBlockingWith faults newer older : EngineM V MergeResult) := by
  have hread : ∀ {L : Level} {role : String},
      Along (Keeps I) (readLevelRecords L role : EngineM V (List (Record V))) :=
    h.of_readsOnly along_readLevelRecords
  have hlevel : ∀ {l : LevelId}, Along (Keeps I) (level l : EngineM V Level) :=
    h.of_readsOnly along_level
  unfold Engine.mergeBlockingWith
  extract_lets body
  refine Along.guard Keeps.refl Keeps.trans ?_
  refine hlevel.bind Keeps.trans fun n ↦ hlevel.bind Keeps.trans fun o ↦ ?_
  refine hread.bind Keeps.trans fun newerRecords ↦ hread.bind Keeps.trans fun olderRecords ↦ ?_
  refine h.createLevel.bind Keeps.trans fun output ↦ ?_
  refine Along.bind Keeps.trans (Along.tryCatch Keeps.trans ?_ fun err ↦ ?_) fun _ ↦ ?_
  · refine h.buildLevelWith.bind Keeps.trans fun _ ↦ ?_
    refine (h.of_readsOnly along_assertCanonicalOutput).bind Keeps.trans fun _ ↦ ?_
    refine Along.guard Keeps.refl Keeps.trans ?_
    exact (h.buildLevelPgm _).bind Keeps.trans fun _ ↦ Along.pure Keeps.refl _
  · refine Along.bind Keeps.trans ?_ fun _ ↦ Along.throw Keeps.refl _
    refine (Along.get Keeps.refl).bind Keeps.trans fun e ↦ Along.ite ?_ (Along.pure Keeps.refl _)
    exact Along.tryCatch Keeps.trans ((h.retireLevel _).bind Keeps.trans fun _ ↦
      Along.pure Keeps.refl _) fun _ ↦ Along.pure Keeps.refl _
  · exact (h.retireLevel _).bind Keeps.trans fun _ ↦
      (h.retireLevel _).bind Keeps.trans fun _ ↦ Along.pure Keeps.refl _

/-- All operations but `add_block_to_level` are made of the elementary ones. -/
theorem after (h : Stable I) {e : Engine V} (he : I e) (op : EngineOp V)
    (hadd : ∀ l b, op = .addBlockToLevel l b → I (e.after op)) : I (e.after op) := by
  cases op with
  | createLevel => exact h.createLevel e he
  | buildLevel records l => exact h.buildLevelWith e he
  | createBlock records l => exact h.createBlock records l e he
  | createUpdateLevel records => exact h.createUpdateLevel e he
  | addBlockToLevel l b => exact hadd l b rfl
  | readBlock b => exact h.of_readsOnly along_readBlock e he
  | relocateBlock b s => exact h.relocateBlock b s e he
  | buildLevelPgm l => exact h.buildLevelPgm l e he
  | mergeLevelsBlocking newer older => exact h.mergeBlockingWith e he
  | retireLevel l => exact h.retireLevel l e he
  | lookupLevel l key => exact h.of_readsOnly along_lookupLevel e he
  | lookupLevels plan key => exact h.of_readsOnly along_lookupLevels e he

end Stable

/-! ## Every operation keeps `Consistent` -/

section Along

theorem ReadsOnly.keeps_consistent (e e' : Engine V) (h : ReadsOnly e e') :
    Keeps Consistent e e' := by
  obtain ⟨slots, rfl⟩ := h
  exact fun hc ↦ hc.of_coherent (hc.toCoherent.afterReads slots) (hc.sized.afterReads slots)
    rfl rfl rfl rfl

theorem consistent_createLevel : Along (Keeps Consistent) (createLevel : EngineM V LevelId) := by
  intro e h
  rw [run_createLevel, finalState_ok]
  exact {
    toCoherent := h.toCoherent.of_eq rfl rfl le_rfl
    sized := h.sized
    levels_lt := fun l hl ↦ by
      change l.value < e.nextLevelId + 1
      rcases Finmap.mem_insert.mp hl with rfl | hl
      · exact lt_add_one _
      · exact (h.levels_lt l hl).trans (lt_add_one _)
    retired_lt := fun l hl ↦ (h.retired_lt l hl).trans (lt_add_one _)
    not_retired := fun l hl hret ↦ by
      rcases Finmap.mem_insert.mp hl with rfl | hl
      · exact lt_irrefl _ (h.retired_lt _ hret)
      · exact h.not_retired l hl hret
    pgm_active := fun l hl ↦ Finmap.mem_insert.mpr (Or.inr (h.pgm_active l hl)) }

theorem consistent_addBlockToLevel {l : LevelId} {b : BlockId} :
    Along (Keeps Consistent) (addBlockToLevel l b : EngineM V Unit) := by
  intro e h
  obtain ⟨L, L', -, hL, -, hrun⟩ | ⟨-, err, hrun⟩ := addBlockToLevel_cases l b e
  · rw [hrun]; exact h.attach (Finmap.mem_of_lookup_eq_some hL) L'
  · rw [hrun]; exact h

theorem consistent_createBlock {records : List (Record V)} {l : Option LevelId} :
    Along (Keeps Consistent) (createBlock records l) := by
  intro e h
  have hcap : ∀ {blk : Block V},
      Block.sortedBlock ⟨e.nextBlockId⟩ records e.config.blockCapacity = .ok blk →
        blk.capacity = e.config.blockCapacity := fun hblk ↦ by rw [sortedBlock_eq_ok.mp hblk]
  obtain ⟨err, -, hrun⟩ | ⟨blk, owner, hblk, howner, hrun⟩ | ⟨blk, hblk, hfree, hrun⟩ :=
    createBlock_cases h.toCoherent records l
  · rw [hrun]
    exact h.of_coherent (h.toCoherent.of_eq rfl rfl (lt_add_one _).le) h.sized rfl rfl rfl rfl
  · rw [hrun]
    have hocc := (h.occupied _).mpr (Finmap.mem_of_lookup_eq_some howner)
    exact h.of_coherent (h.toCoherent.overwrite hocc) (h.sized.overwrite (hcap hblk))
      rfl rfl rfl rfl
  · rw [hrun]
    have hput := h.of_coherent (h.toCoherent.put hfree)
      (h.sized.overwrite (hcap hblk)) rfl rfl rfl rfl
    refine Along.bind Keeps.trans ?_ (fun _ ↦ Along.pure Keeps.refl _) _ hput
    cases l with
    | none => exact Along.pure Keeps.refl _
    | some l => exact consistent_addBlockToLevel

theorem consistent_buildLevelPgm {l : LevelId} :
    Along (Keeps Consistent) (buildLevelPgm l : EngineM V BatchPgmIndex) := by
  intro e h
  obtain ⟨_, L, keys, e₁, index, -, -, hL, -, hr, -, hrun⟩ | ⟨err, e', hrun, hr⟩ :=
    buildLevelPgm_cases l e
  · rw [hrun]
    have h₁ := hr.keeps_consistent _ _ h
    have hmem : l ∈ e₁.levels := by
      obtain ⟨slots, rfl⟩ := hr
      exact Finmap.mem_of_lookup_eq_some hL
    exact { h₁ with
      pgm_active := fun l' hl' ↦ by
        rcases Finmap.mem_insert.mp hl' with rfl | hl'
        · exact hmem
        · exact h₁.pgm_active l' hl' }
  · rw [hrun]
    exact hr.keeps_consistent _ _ h

/-- What holds on after a block is dropped holds throughout the loop of `retire_level`. -/
theorem keeps_retireBlocks {I : Engine V → Prop} (hcoherent : ∀ e, I e → e.Coherent)
    (hdrop : ∀ e b s, I e → e.mapping.logicalToPhysical.lookup b = some s → I (e.drop b s))
    (bs : List BlockId) : Along (Keeps I) (retireBlocks bs : EngineM V Unit) := by
  induction bs with
  | nil => exact fun e h ↦ h
  | cons b bs ih =>
    intro e h
    by_cases hb : b ∈ e.mapping.logicalToPhysical
    · obtain ⟨s, hs⟩ := Finmap.mem_iff.mp hb
      rw [run_retireBlocks_cons (hcoherent e h) hs]
      exact ih (e.drop b s) (hdrop e b s h hs)
    · rw [run_retireBlocks_of_unmapped hb]
      exact h

/-- `retire_level` raises at once, or in its loop, or forgets the level after the loop. -/
theorem retireLevel_cases (l : LevelId) (e : Engine V) :
    (∃ err, (retireLevel l).run e = .error err e) ∨
      ∃ L, e.levels.lookup l = some L ∧
        ((∃ err e', (retireBlocks L.blockIds).run e = .error err e' ∧
            (retireLevel l).run e = .error err e') ∨
          ∃ e', (retireBlocks L.blockIds).run e = .ok () e' ∧
            (retireLevel l).run e = .ok L.blockIds.length (e'.forget l)) := by
  by_cases hl : l ∈ e.retiredLevelIds ∨ l ∉ e.levels
  · exact .inl ⟨_, run_bind_of_error (run_level_error hl) _⟩
  push Not at hl
  obtain ⟨L, hL⟩ := Finmap.mem_iff.mp hl.2
  refine .inr ⟨L, hL, ?_⟩
  rw [retireLevel, run_bind_of_ok (run_level hL hl.1)]
  cases hrun : (retireBlocks L.blockIds).run e with
  | error err e' => exact .inl ⟨err, e', rfl, run_bind_of_error hrun _⟩
  | ok u e' => exact .inr ⟨e', rfl, run_bind_of_ok hrun _⟩

theorem consistent_retireLevel {l : LevelId} :
    Along (Keeps Consistent) (retireLevel l : EngineM V Nat) := by
  intro e h
  have hkeeps (bs : List BlockId) := keeps_retireBlocks
    (I := fun e' : Engine V ↦ e'.Consistent ∧ e'.levels = e.levels) (fun _ h ↦ h.1.toCoherent)
    (fun _ _ _ h hs ↦
      ⟨h.1.of_coherent (h.1.toCoherent.drop hs) h.1.sized.drop rfl rfl rfl rfl, h.2⟩) bs e ⟨h, rfl⟩
  obtain ⟨err, hrun⟩ | ⟨L, hL, ⟨err, e', hblocks, hrun⟩ | ⟨e', hblocks, hrun⟩⟩ :=
    retireLevel_cases l e
  · rw [hrun]
    exact h
  · rw [hrun]
    have hloop := hkeeps L.blockIds
    rw [hblocks] at hloop
    exact hloop.1
  · rw [hrun]
    have hloop := hkeeps L.blockIds
    rw [hblocks] at hloop
    exact hloop.1.forget (hloop.2 ▸ Finmap.mem_of_lookup_eq_some hL)

theorem consistent_relocateBlock {b : BlockId} {s : SlotId} :
    Along (Keeps Consistent) (relocateBlock b s : EngineM V Unit) := by
  intro e h
  obtain ⟨old, blk, hold, hne, hnew, hblk, -, hrun⟩ | hrun | ⟨err, e', hrun, hr⟩ :=
    relocateBlock_cases h.toCoherent b s
  · rw [hrun]
    exact h.of_coherent (h.toCoherent.relocated hold hne hnew) (h.sized.relocated hblk)
      rfl rfl rfl rfl
  · rw [hrun]; exact h
  · rw [hrun]; exact hr.keeps_consistent _ _ h

theorem stable_consistent : Stable (Consistent : Engine V → Prop) where
  readsOnly := ReadsOnly.keeps_consistent
  createLevel := consistent_createLevel
  createBlock _ _ := consistent_createBlock
  relocateBlock _ _ := consistent_relocateBlock
  buildLevelPgm _ := consistent_buildLevelPgm
  retireLevel _ := consistent_retireLevel

/-- Every operation keeps the invariant, whether it returns or raises. -/
theorem Consistent.after {e : Engine V} (h : e.Consistent) (op : EngineOp V) :
    (e.after op).Consistent :=
  stable_consistent.after h op fun l b hop ↦ by
    subst hop
    exact consistent_addBlockToLevel e h

/-- Every reachable state is consistent. -/
theorem Reachable.consistent {P : Engine V → EngineOp V → Prop} {config : Config} {e : Engine V}
    (h : Reachable P config e) : e.Consistent := by
  induction h with
  | init => exact Consistent.init config
  | step _ _ ih => exact ih.after _

end Along

end Engine

end EnhancedLetIndex
