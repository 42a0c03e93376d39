import EnhancedLetIndex.Engine.Overwrite

/-!
# Refused blocks

`create_block` stores and maps its block before it resolves the level, so a level that refuses
the block leaves it behind, stored and mapped and of no level.  A call of `create_block`,
`build_level` or `create_update_level` that raises has left the state as it was exactly when it
had no block to create; whether a call with blocks to create raises can be read off the slots
of the next blocks and the target level (`Admits`).
-/

namespace EnhancedLetIndex

variable {V : Type}

namespace Engine

variable {e e' : Engine V} {l : LevelId} {L : Level}

/-! ## Ids of stored blocks -/

/-- The block counter is past every stored block, mapped to its slot or not. -/
def Numbered (e : Engine V) : Prop :=
  e.Consistent ∧ e.Stored fun blk ↦ blk.blockId.value < e.nextBlockId

theorem Stored.numbered {n n' : Int} (h : e.Stored fun blk ↦ blk.blockId.value < n)
    (hn : n ≤ n') : e.Stored fun blk ↦ blk.blockId.value < n' :=
  fun s blk hs ↦ (h s blk hs).trans_le hn

theorem numbered_addBlockToLevel {b : BlockId} :
    Along (Keeps Numbered) (addBlockToLevel l b : EngineM V Unit) := by
  intro e h
  refine ⟨consistent_addBlockToLevel e h.1, ?_⟩
  obtain ⟨L, L', -, -, -, hrun⟩ | ⟨-, err, hrun⟩ := addBlockToLevel_cases l b e
  · rw [hrun]
    exact h.2
  · rw [hrun]
    exact h.2

theorem numbered_createBlock {records : List (Record V)} {l : Option LevelId} :
    Along (Keeps Numbered) (createBlock records l) := by
  intro e h
  refine ⟨consistent_createBlock e h.1, ?_⟩
  have hnext : e.nextBlockId ≤ e.nextBlockId + 1 := (lt_add_one _).le
  have hnew {blk : Block V}
      (hblk : Block.sortedBlock ⟨e.nextBlockId⟩ records e.config.blockCapacity = .ok blk) :
      blk.blockId.value < e.nextBlockId + 1 := by
    rw [sortedBlock_eq_ok.mp hblk]
    exact lt_add_one _
  obtain ⟨err, -, hrun⟩ | ⟨blk, owner, hblk, -, hrun⟩ | ⟨blk, hblk, hfree, hrun⟩ :=
    createBlock_cases h.1.toCoherent records l
  · rw [hrun]
    exact h.2.numbered hnext
  · rw [hrun]
    exact Stored.overwrite (h.2.numbered hnext) (hnew hblk)
  · have hcreate := finalState_createBlock (l := l) h.1.toCoherent hfree hblk
    obtain ⟨levels, pgmIndexes, hfinal⟩ := hcreate
    rw [hfinal]
    exact Stored.overwrite (h.2.numbered hnext) (hnew hblk)

theorem numbered_retireBlocks (bs : List BlockId) :
    Along (Keeps Numbered) (retireBlocks bs : EngineM V Unit) := by
  apply keeps_retireBlocks
  · exact fun e h ↦ h.1.toCoherent
  · exact fun e b s h hs ↦
      ⟨h.1.of_coherent (h.1.toCoherent.drop hs) h.1.sized.drop rfl rfl rfl rfl, h.2.drop⟩

theorem numbered_retireLevel : Along (Keeps Numbered) (retireLevel l : EngineM V Nat) := by
  intro e h
  refine ⟨consistent_retireLevel e h.1, ?_⟩
  obtain ⟨err, hrun⟩ | ⟨L, -, ⟨err, e', hblocks, hrun⟩ | ⟨e', hblocks, hrun⟩⟩ :=
    retireLevel_cases l e
  · rw [hrun]
    exact h.2
  · rw [hrun]
    have hloop := numbered_retireBlocks L.blockIds e h
    rw [hblocks] at hloop
    exact hloop.2
  · rw [hrun]
    have hloop := numbered_retireBlocks L.blockIds e h
    rw [hblocks] at hloop
    exact hloop.2

theorem numbered_relocateBlock {b : BlockId} {s : SlotId} :
    Along (Keeps Numbered) (relocateBlock b s : EngineM V Unit) := by
  intro e h
  refine ⟨consistent_relocateBlock e h.1, ?_⟩
  obtain ⟨old, blk, -, -, -, hblk, -, hrun⟩ | hrun | ⟨err, e', hrun, slots, rfl⟩ :=
    relocateBlock_cases h.1.toCoherent b s
  · rw [hrun]
    exact Stored.relocated h.2 hblk
  · rw [hrun]
    exact h.2
  · rw [hrun]
    exact h.2.afterReads slots

theorem numbered_buildLevelPgm :
    Along (Keeps Numbered) (buildLevelPgm l : EngineM V BatchPgmIndex) := by
  intro e h
  refine ⟨consistent_buildLevelPgm e h.1, ?_⟩
  obtain ⟨_, L, keys, e₁, index, -, -, -, -, ⟨slots, rfl⟩, -, hrun⟩ | ⟨err, e', hrun, slots, rfl⟩ :=
    buildLevelPgm_cases l e
  · rw [hrun]
    exact h.2.afterReads slots
  · rw [hrun]
    exact h.2.afterReads slots

theorem stable_numbered : Stable (Numbered : Engine V → Prop) where
  readsOnly e e' hr h := by
    refine ⟨hr.keeps_consistent e e' h.1, ?_⟩
    obtain ⟨slots, rfl⟩ := hr
    exact h.2.afterReads slots
  createLevel e h := ⟨consistent_createLevel e h.1, h.2⟩
  createBlock _ _ := numbered_createBlock
  relocateBlock _ _ := numbered_relocateBlock
  buildLevelPgm _ := numbered_buildLevelPgm
  retireLevel _ := numbered_retireLevel

theorem Reachable.numbered {P : Engine V → EngineOp V → Prop} {config : Config}
    (h : Reachable P config e) : e.Numbered := by
  induction h with
  | init => exact ⟨Consistent.init config, fun s blk hs ↦
      absurd (Finmap.mem_of_lookup_eq_some hs) Finmap.notMem_empty⟩
  | @step e op _ _ ih =>
    refine stable_numbered.after ih op ?_
    rintro l b rfl
    exact numbered_addBlockToLevel e ih

/-! ## Calls that raise -/

/-- A block has been stored: no slot has been cleared, and they do not hold what they held. -/
structure Disturbed (e e' : Engine V) : Prop where
  occupied : ∀ s ∈ e.storage.slots, s ∈ e'.storage.slots
  changed : e'.storage.slots ≠ e.storage.slots

/-- The next `n` blocks find their slots free, and the level, if there is one, is active and
lists none of their ids. -/
def Admits (e : Engine V) (n : Nat) (l : Option LevelId) : Prop :=
  e.RoomFor n ∧ ∀ l' ∈ l, l' ∉ e.retiredLevelIds ∧
    ∃ L, e.levels.lookup l' = some L ∧ ∀ b ∈ e.newBlockIds n, b ∉ L.blockIds

theorem RoomFor.mono {m n : Nat} (h : e.RoomFor n) (hmn : m ≤ n) : e.RoomFor m :=
  fun i hi ↦ h i (hi.trans_le hmn)

theorem Admits.mono {m n : Nat} {l : Option LevelId} (h : e.Admits n l) (hmn : m ≤ n) :
    e.Admits m l := by
  refine ⟨h.1.mono hmn, fun l' hl' ↦ ?_⟩
  obtain ⟨hret, L, hL, hids⟩ := h.2 l' hl'
  refine ⟨hret, L, hL, fun b hb ↦ hids b ?_⟩
  rw [mem_newBlockIds] at hb ⊢
  exact ⟨hb.1, hb.2.trans_le (by omega)⟩

theorem roomFor_one : e.RoomFor 1 ↔ (⟨e.storage.nextFreeSlot⟩ : SlotId) ∉ e.storage.slots := by
  simp [RoomFor]

theorem mem_newBlockIds_one {b : BlockId} : b ∈ e.newBlockIds 1 ↔ b = ⟨e.nextBlockId⟩ := by
  rw [mem_newBlockIds, inNext_one]
  exact ⟨fun h ↦ BlockId.ext h, fun h ↦ congrArg BlockId.value h⟩

/-- A block in an occupied slot is replaced by another one. -/
theorem Numbered.disturbed_overwrite (h : e.Numbered) {records : List (Record V)}
    {blk : Block V}
    (hblk : Block.sortedBlock ⟨e.nextBlockId⟩ records e.config.blockCapacity = .ok blk) :
    Disturbed e (e.overwrite blk) := by
  refine ⟨fun s hs ↦ Finmap.mem_insert.mpr (.inr hs), fun heq ↦ ?_⟩
  have hnew : e.storage.slots.lookup ⟨e.storage.nextFreeSlot⟩ = some blk := by
    rw [← heq]
    exact Finmap.lookup_insert _
  have hlt : blk.blockId.value < e.nextBlockId := h.2 _ _ hnew
  rw [sortedBlock_eq_ok.mp hblk] at hlt
  exact lt_irrefl _ hlt

/-- `create_block` with valid records creates the block, or raises with a block stored. -/
theorem Numbered.createBlock_cases (h : e.Numbered) {records : List (Record V)} {blk : Block V}
    (hblk : Block.sortedBlock ⟨e.nextBlockId⟩ records e.config.blockCapacity = .ok blk)
    (l : Option LevelId) :
    (e.Admits 1 l ∧ ∃ e₁, (attachTo ⟨e.nextBlockId⟩ l).run (e.put blk) = .ok () e₁ ∧
        (createBlock records l).run e = .ok ⟨e.nextBlockId⟩ e₁) ∨
      ¬ e.Admits 1 l ∧ ∃ err e', (createBlock records l).run e = .error err e' ∧
        Disturbed e e' := by
  obtain ⟨err, herr, -⟩ | ⟨blk', owner, hblk', howner, hrun⟩ | ⟨blk', hblk', hfree, hrun⟩ :=
    Engine.createBlock_cases h.1.toCoherent records l
  · rw [hblk] at herr
    cases herr
  · have hocc := (h.1.occupied _).mpr (Finmap.mem_of_lookup_eq_some howner)
    exact .inr ⟨fun hadmits ↦ roomFor_one.mp hadmits.1 hocc, _, _, hrun,
      h.disturbed_overwrite hblk'⟩
  rw [hblk] at hblk'
  cases hblk'
  have hdisturbed : Disturbed e (e.put blk) :=
    ⟨(h.disturbed_overwrite hblk).occupied, (h.disturbed_overwrite hblk).changed⟩
  cases l with
  | none => exact .inl ⟨⟨roomFor_one.mpr hfree, fun l' hl' ↦ by cases hl'⟩, _, rfl, hrun⟩
  | some l =>
    obtain ⟨L, L', hret, hL, hadd, hattach⟩ | ⟨hbad, err, hattach⟩ :=
      addBlockToLevel_cases l ⟨e.nextBlockId⟩ (e.put blk)
    · refine .inl ⟨⟨roomFor_one.mpr hfree, ?_⟩, _, hattach,
        hrun.trans (run_bind_of_ok hattach _)⟩
      rintro _ ⟨⟩
      refine ⟨hret, L, hL, fun b hb hmem ↦ ?_⟩
      rw [mem_newBlockIds_one.mp hb] at hmem
      rw [Level.addBlock, dif_pos hmem] at hadd
      cases hadd
    · refine .inr ⟨fun hadmits ↦ ?_, err, e.put blk, ?_, hdisturbed⟩
      · obtain ⟨hret, L, hL, hids⟩ := hadmits.2 l rfl
        obtain hretired | hunknown | ⟨L', hL', hmem⟩ := hbad
        · exact hret hretired
        · exact hunknown (Finmap.mem_of_lookup_eq_some hL)
        · cases hL.symm.trans hL'
          exact hids _ (mem_newBlockIds_one.mpr rfl) hmem
      · rw [hrun]
        exact run_bind_of_error hattach _

/-- One block after the other. -/
theorem admits_succ {blk : Block V} {L' : Level} {n : Nat} (hone : e.Admits 1 (some l))
    (hL : e.levels.lookup l = some L) (hids : L'.blockIds = L.blockIds ++ [⟨e.nextBlockId⟩]) :
    e.Admits (n + 1) (some l) ↔ ((e.put blk).attach l L').Admits n (some l) := by
  obtain ⟨hfree, hret⟩ := hone
  have hroom : e.RoomFor (n + 1) ↔ ((e.put blk).attach l L').RoomFor n := by
    have hslot (i : Nat) : (⟨e.storage.nextFreeSlot + 1 + i⟩ : SlotId) =
        ⟨e.storage.nextFreeSlot + (i + 1 : Nat)⟩ := by
      ext
      simp only
      push_cast
      ring
    constructor
    · intro h i hi hmem
      obtain heq | hmem := Finmap.mem_insert.mp hmem
      · have hvalue : e.storage.nextFreeSlot + 1 + i = e.storage.nextFreeSlot :=
          congrArg SlotId.value heq
        omega
      · exact h (i + 1) (Nat.succ_lt_succ hi) (hslot i ▸ hmem)
    · rintro h (_ | i) hi
      · exact hfree 0 Nat.one_pos
      · intro hmem
        exact h i (Nat.lt_of_succ_lt_succ hi) (Finmap.mem_insert.mpr (.inr (hslot i ▸ hmem)))
  have hnew (b : BlockId) : b ∈ e.newBlockIds (n + 1) ↔
      b ∈ e.newBlockIds 1 ∨ b ∈ ((e.put blk).attach l L').newBlockIds n := by
    rw [mem_newBlockIds, mem_newBlockIds, mem_newBlockIds, Nat.add_comm, inNext_add]
    rfl
  obtain ⟨hactive, L₁, hL₁, hfresh⟩ := hret l rfl
  cases hL.symm.trans hL₁
  have hL' : ((e.put blk).attach l L').levels.lookup l = some L' := Finmap.lookup_insert _
  constructor
  · rintro ⟨hr, hlevel⟩
    obtain ⟨-, L₂, hL₂, hlisted⟩ := hlevel l rfl
    cases hL.symm.trans hL₂
    refine ⟨hroom.mp hr, ?_⟩
    rintro _ ⟨⟩
    refine ⟨hactive, L', hL', fun b hb hmem ↦ ?_⟩
    rw [hids, List.mem_append, List.mem_singleton] at hmem
    rcases hmem with hmem | rfl
    · exact hlisted b ((hnew b).mpr (.inr hb)) hmem
    · -- the next ids are past the one that has been taken
      exact absurd (mem_newBlockIds.mp hb).1 (not_le.mpr (lt_add_one e.nextBlockId))
  · rintro ⟨hr, hlevel⟩
    obtain ⟨-, L₂, hL₂, hlisted⟩ := hlevel l rfl
    cases hL'.symm.trans hL₂
    refine ⟨hroom.mpr hr, ?_⟩
    rintro _ ⟨⟩
    refine ⟨hactive, L, hL, fun b hb hmem ↦ ?_⟩
    rcases (hnew b).mp hb with hb | hb
    · exact hfresh b hb hmem
    · exact hlisted b hb (hids ▸ List.mem_append_left _ hmem)

/-- The loop of `LevelBuilder.build` creates all blocks, or raises with a block stored. -/
theorem Numbered.createBlocks_cases (h : e.Numbered) (n : Nat) {parts : List (List (Record V))}
    (hparts : ∀ p ∈ parts, p.length ≤ e.config.blockCapacity ∧ SortedBy (·.key) p) :
    (parts = [] ∨ e.Admits parts.length (some l)) ∧
        (∃ e', (createBlocks .none l n parts).run e = .ok () e') ∨
      ¬ (parts = [] ∨ e.Admits parts.length (some l)) ∧
        ∃ err e', (createBlocks .none l n parts).run e = .error err e' ∧ Disturbed e e' := by
  induction parts generalizing e n with
  | nil => exact .inl ⟨.inl rfl, e, rfl⟩
  | cons p ps ih =>
    obtain ⟨hlen, hsorted⟩ := hparts p List.mem_cons_self
    obtain ⟨blk, hblk⟩ :
        ∃ blk, Block.sortedBlock ⟨e.nextBlockId⟩ p e.config.blockCapacity = .ok blk :=
      ⟨_, sortedBlock_ok e.config.blockCapacity_pos hlen hsorted⟩
    have hcons : (p :: ps = [] ∨ e.Admits (p :: ps).length (some l)) ↔
        e.Admits (ps.length + 1) (some l) := or_iff_right (List.cons_ne_nil p ps)
    have hstep : (createBlocks .none l n (p :: ps)).run e =
        (createBlock p (some l) >>= fun _ ↦ createBlocks .none l (n + 1) ps).run e := by
      rw [createBlocks]
      rfl
    rw [hcons, hstep]
    obtain ⟨hone, e₁, hput, hcreate⟩ | ⟨hnot, err, e', hrun, hdisturbed⟩ :=
      h.createBlock_cases hblk (some l)
    · obtain ⟨hactive, L, hL, hfresh⟩ := hone.2 l rfl
      obtain ⟨L', hadd, hids⟩ := addBlock_of_notMem (hfresh _ (mem_newBlockIds_one.mpr rfl))
      cases hput.symm.trans (run_addBlockToLevel (e := e.put blk) hL hactive hadd)
      have h₁ : ((e.put blk).attach l L').Numbered := by
        have hnumbered : Numbered (finalState ((createBlock p (some l)).run e)) :=
          numbered_createBlock e h
        rwa [hcreate] at hnumbered
      have hactive₁ : ps = [] → ((e.put blk).attach l L').Admits ps.length (some l) := by
        rintro rfl
        exact (admits_succ hone hL hids).mp hone
      have hrest : e.Admits (ps.length + 1) (some l) ↔
          ((e.put blk).attach l L').Admits ps.length (some l) := admits_succ hone hL hids
      rw [run_bind_of_ok hcreate, hrest, ← or_iff_right_of_imp hactive₁]
      obtain hok | ⟨hnot, err, e', hrun', hdisturbed⟩ := ih h₁ (n + 1)
        fun q hq ↦ hparts q (List.mem_cons_of_mem p hq)
      · exact .inl hok
      · refine .inr ⟨hnot, err, e', hrun', fun s hs ↦ ?_, fun heq ↦ ?_⟩
        · exact hdisturbed.occupied s (Finmap.mem_insert.mpr (.inr hs))
        · -- the first block is still there
          have hfirst := hdisturbed.occupied ⟨e.storage.nextFreeSlot⟩
            (Finmap.mem_insert.mpr (.inl rfl))
          rw [heq] at hfirst
          exact roomFor_one.mp hone.1 hfirst
    · exact .inr ⟨fun hadmits ↦ hnot (hadmits.mono (Nat.succ_pos _)), err, e',
        run_bind_of_error hrun _, hdisturbed⟩

/-- `LevelBuilder.build` creates all blocks, or raises with a block stored. -/
theorem Numbered.buildLevel_cases (h : e.Numbered) (records : List (Record V))
    (l : Option LevelId) :
    (∃ err, (buildLevel records l).run e = .error err e) ∧ e.partitionsOf records = [] ∨
      (e.partitionsOf records = [] ∨ e.Admits (e.partitionsOf records).length l) ∧
        (∃ l' e', (buildLevel records l).run e = .ok l' e') ∨
      ¬ (e.partitionsOf records = [] ∨ e.Admits (e.partitionsOf records).length l) ∧
        ∃ err e', (buildLevel records l).run e = .error err e' ∧ Disturbed e e' := by
  cases hd : Dataset.fromRecords records with
  | error err =>
    exact .inl ⟨⟨_, run_buildLevel_error hd⟩, by rw [partitionsOf, hd]⟩
  | ok d =>
    refine .inr ?_
    have hvalid := partitions_valid d e.config.blockCapacity_pos
    rw [partitionsOf_eq hd]
    cases l with
    | some l =>
      rw [run_buildLevel_some hd]
      obtain ⟨hadmits, e', hok⟩ | ⟨hnot, err, e', herror, hdisturbed⟩ :=
        h.createBlocks_cases (l := l) 0 hvalid
      · exact .inl ⟨hadmits, l, e', run_bind_of_ok hok _⟩
      · exact .inr ⟨hnot, err, e', run_bind_of_error herror _, hdisturbed⟩
    | none =>
      have hnew : e.withNewLevel.Numbered := stable_numbered.createLevel e h
      -- the new level is active and empty
      have hiff (n : Nat) : e.withNewLevel.Admits n (some ⟨e.nextLevelId⟩) ↔ e.Admits n none := by
        constructor
        · exact fun hadmits ↦ ⟨hadmits.1, by rintro _ ⟨⟩⟩
        · refine fun hadmits ↦ ⟨hadmits.1, ?_⟩
          rintro _ ⟨⟩
          exact ⟨fun hmem ↦ lt_irrefl _ (h.1.retired_lt _ hmem), Level.empty _,
            Finmap.lookup_insert _, fun b _ ↦ List.not_mem_nil⟩
      have hloop := hnew.createBlocks_cases (l := ⟨e.nextLevelId⟩) 0 hvalid
      rw [hiff] at hloop
      rw [run_buildLevel_none hd]
      obtain ⟨hadmits, e', hok⟩ | ⟨hnot, err, e', herror, hdisturbed⟩ := hloop
      · exact .inl ⟨hadmits, _, e', run_bind_of_ok hok _⟩
      · exact .inr ⟨hnot, err, e', run_bind_of_error herror _, hdisturbed.occupied,
          hdisturbed.changed⟩

/-- The calls of `create_block`, `build_level` and `create_update_level` that leave the state as
it was when they raise: those without a block to create, and those whose blocks and level are
ready for each other, which do not raise.  Every other call raises and has stored a block. -/
theorem refused_unchanged_iff {config : Config} (he : Reachable (fun _ _ ↦ True) config e) :
    (∀ records l, (∀ err e', (createBlock records l).run e = .error err e' → Unchanged e e') ↔
        e.creations (.createBlock records l) = [] ∨ e.Admits 1 l) ∧
      (∀ records l, (∀ err e', (buildLevel records l).run e = .error err e' → Unchanged e e') ↔
        e.partitionsOf records = [] ∨ e.Admits (e.partitionsOf records).length l) ∧
      ∀ records, (∀ err e', (createUpdateLevel records).run e = .error err e' →
          Unchanged e e') ↔
        e.partitionsOf records = [] ∨ e.RoomFor (e.partitionsOf records).length := by
  have h := he.numbered
  have hbuild (records : List (Record V)) (l : Option LevelId) :
      (∀ err e', (buildLevel records l).run e = .error err e' → Unchanged e e') ↔
        e.partitionsOf records = [] ∨ e.Admits (e.partitionsOf records).length l := by
    obtain ⟨⟨err, hrun⟩, hnil⟩ | ⟨hadmits, l', e', hrun⟩ | ⟨hnot, err, e', hrun, hdisturbed⟩ :=
      h.buildLevel_cases records l
    · refine iff_of_true (fun err' e' herror ↦ ?_) (.inl hnil)
      cases hrun.symm.trans herror
      exact ReadsOnly.unchanged (ReadsOnly.refl e)
    · refine iff_of_true (fun err' e'' herror ↦ ?_) hadmits
      cases hrun.symm.trans herror
    · exact iff_of_false (fun hall ↦ hdisturbed.changed (hall err e' hrun).slots) hnot
  refine ⟨fun records l ↦ ?_, hbuild, fun records ↦ ?_⟩
  · cases hblk : Block.sortedBlock ⟨e.nextBlockId⟩ records e.config.blockCapacity with
    | error err =>
      obtain ⟨err', -, hrun⟩ | ⟨blk, owner, hok, -, -⟩ | ⟨blk, hok, -, -⟩ :=
        Engine.createBlock_cases h.1.toCoherent records l
      · rw [creations, hblk]
        refine iff_of_true (fun err'' e' herror ↦ ?_) (.inl rfl)
        cases hrun.symm.trans herror
        exact ⟨rfl, rfl, fun _ _ ↦ Iff.rfl, rfl, rfl, rfl⟩
      · cases hblk.symm.trans hok
      · cases hblk.symm.trans hok
    | ok blk =>
      rw [creations, hblk, or_iff_right (List.cons_ne_nil _ _)]
      obtain ⟨hadmits, e₁, -, hrun⟩ | ⟨hnot, err, e', hrun, hdisturbed⟩ :=
        h.createBlock_cases hblk l
      · refine iff_of_true (fun err e' herror ↦ ?_) hadmits
        cases hrun.symm.trans herror
      · exact iff_of_false (fun hall ↦ hdisturbed.changed (hall err e' hrun).slots) hnot
  · have hnone (n : Nat) : e.Admits n none ↔ e.RoomFor n :=
      and_iff_left (by rintro _ ⟨⟩)
    obtain ⟨hnil, err, hrun⟩ | ⟨d, hsame, hrun⟩ := createUpdateLevel_cases records e
    · refine iff_of_true (fun err' e' herror ↦ ?_) (.inl hnil)
      cases hrun.symm.trans herror
      exact ReadsOnly.unchanged (ReadsOnly.refl e)
    · rw [hrun, hsame, ← hnone]
      exact hbuild d.records none

/-- A new engine with the capacity 1, and a call for a level that it does not know. -/
theorem refused_unchanged_iff_init :
    (∀ err e', (createBlock [({ key := ⟨1⟩, value := () } : Record Unit)] none).run
        (Engine.init ⟨1, none, Nat.one_pos⟩) = .error err e' →
          Unchanged (Engine.init ⟨1, none, Nat.one_pos⟩) e') ∧
      ¬ ∀ err e', (buildLevel [({ key := ⟨1⟩, value := () } : Record Unit)] (some ⟨99⟩)).run
        (Engine.init ⟨1, none, Nat.one_pos⟩) = .error err e' →
          Unchanged (Engine.init ⟨1, none, Nat.one_pos⟩) e' := by
  obtain ⟨hcreate, hbuild, -⟩ := refused_unchanged_iff
    (Reachable.init : Reachable (fun _ _ ↦ True) _
      (Engine.init ⟨1, none, Nat.one_pos⟩ : Engine Unit))
  refine ⟨(hcreate _ none).mpr (.inr ⟨by decide +kernel, by rintro _ ⟨⟩⟩), fun hall ↦ ?_⟩
  rcases (hbuild _ _).mp hall with hnil | ⟨-, hactive⟩
  · revert hnil
    decide +kernel
  · obtain ⟨-, L, hL, -⟩ := hactive ⟨99⟩ rfl
    cases hL

/-- A block for an unknown level is stored and mapped before the level is looked up. -/
theorem createBlock_orphan :
    ∃ err e', (createBlock [({ key := ⟨1⟩, value := () } : Record Unit)] (some ⟨99⟩)).run
        (Engine.init ⟨1, none, Nat.one_pos⟩) = .error err e' ∧
      e'.mapping.logicalToPhysical.lookup ⟨0⟩ = some ⟨0⟩ ∧
      ¬ Unchanged (Engine.init ⟨1, none, Nat.one_pos⟩) e' := by
  obtain ⟨err, e', hrun⟩ := createBlock_inactive
    (Consistent.init ⟨1, none, Nat.one_pos⟩ : (Engine.init _ : Engine Unit).Consistent).toCoherent
    (show ¬ ((⟨99⟩ : LevelId) ∈ (Engine.init _ : Engine Unit).levels ∧ _) from
      fun h ↦ Finmap.notMem_empty h.1) [{ key := ⟨1⟩, value := () }]
  have hmap : (finalState ((createBlock [({ key := ⟨1⟩, value := () } : Record Unit)]
      (some ⟨99⟩)).run (Engine.init ⟨1, none, Nat.one_pos⟩))).mapping.logicalToPhysical.lookup
        ⟨0⟩ = some ⟨0⟩ := by
    decide +kernel
  rw [hrun] at hmap
  refine ⟨err, e', hrun, hmap, fun hsame ↦ ?_⟩
  rw [finalState_error, hsame.mapping] at hmap
  cases hmap

end Engine

end EnhancedLetIndex
