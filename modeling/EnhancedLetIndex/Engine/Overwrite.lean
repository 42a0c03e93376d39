import EnhancedLetIndex.Engine.Merge

/-!
# Overwritten blocks

`create_block` stores a block at the next slot of the allocator without looking at it, and
`relocate_block` takes any free slot, also one that the allocator has not handed out yet.  A
block relocated ahead of the allocator is overwritten when the allocator arrives there.

`Logged` are the runs together with a log of the records that every block was created with.
As long as each step finds the slots of its new blocks free (`HasRoom`), every mapped block
is stored under its own id with the records that the log has for it.
-/

namespace EnhancedLetIndex

variable {V : Type}

namespace Engine

/-! ## What a step creates -/

/-- The blocks of a dataset of these records. -/
def partitionsOf (e : Engine V) (records : List (Record V)) : List (List (Record V)) :=
  match Dataset.fromRecords records with
  | .ok dataset => dataset.partitions e.config.blockCapacity
  | .error _ => []

/-- The first half of `merge_blocking`: the records of both inputs. -/
def readInputs (newer older : LevelId) : EngineM V (List (Record V) × List (Record V)) := do
  let n ← level newer
  let o ← level older
  let newerRecords ← readLevelRecords n "newer"
  let olderRecords ← readLevelRecords o "older"
  pure (newerRecords, olderRecords)

/-- The records of the blocks that an operation stores, one after the other.  A level that is
not active refuses the first block, which is stored by then. -/
def creations (e : Engine V) : EngineOp V → List (List (Record V))
  | .createBlock records _ =>
    match Block.sortedBlock ⟨e.nextBlockId⟩ records e.config.blockCapacity with
    | .ok block => [block.records]
    | .error _ => []
  | .buildLevel records none => e.partitionsOf records
  | .buildLevel records (some l) =>
    if l ∈ e.levels ∧ l ∉ e.retiredLevelIds then e.partitionsOf records
    else (e.partitionsOf records).take 1
  | .createUpdateLevel records => e.partitionsOf records
  | .mergeLevelsBlocking newer older =>
    if newer = older then []
    else
      match outcome ((readInputs newer older).run e) with
      | .ok (newerRecords, olderRecords) => e.partitionsOf (mergeSorted newerRecords olderRecords).1
      | .error _ => []
  | _ => []

/-- No live block is in a slot that the next `n` blocks are going to get. -/
def RoomFor (e : Engine V) (n : Nat) : Prop :=
  ∀ i < n, (⟨e.storage.nextFreeSlot + i⟩ : SlotId) ∉ e.storage.slots

/-- The slots of the blocks that the operation creates are free. -/
def HasRoom (e : Engine V) (op : EngineOp V) : Prop := e.RoomFor (e.creations op).length

instance (e : Engine V) (n : Nat) : Decidable (e.RoomFor n) :=
  inferInstanceAs (Decidable (∀ i < n, _))

instance (e : Engine V) (op : EngineOp V) : Decidable (e.HasRoom op) :=
  inferInstanceAs (Decidable (e.RoomFor _))

/-- What every block was created with. -/
abbrev Log (V : Type) := BlockId → Option (List (Record V))

/-- The log after an operation. -/
def logAfter (e : Engine V) (op : EngineOp V) (log : Log V) : Log V := fun b ↦
  if b.value < e.nextBlockId then log b
  else (e.creations op)[(b.value - e.nextBlockId).toNat]?

/-- The runs from a new engine all of whose steps satisfy `P`, with their logs. -/
inductive Logged (P : Engine V → EngineOp V → Prop) (config : Config) :
    Engine V → Log V → Prop
  | init : Logged P config (Engine.init config) fun _ ↦ none
  | step {e : Engine V} {log : Log V} {op : EngineOp V} (h : Logged P config e log)
    (hop : P e op) : Logged P config (e.after op) (e.logAfter op log)

theorem Logged.reachable {P : Engine V → EngineOp V → Prop} {config : Config} {e : Engine V}
    {log : Log V} (h : Logged P config e log) : Reachable P config e := by
  induction h with
  | init => exact .init
  | step _ hop ih => exact ih.step hop

/-- Every mapped block is stored under its id, with the records it was created with. -/
def Intact (e : Engine V) (log : Log V) : Prop :=
  ∀ b s, e.mapping.logicalToPhysical.lookup b = some s →
    ∃ blk, e.storage.slots.lookup s = some blk ∧ blk.blockId = b ∧ log b = some blk.records

variable {e e' e'' : Engine V} {b : BlockId} {l : LevelId}

/-! ## Steps that create nothing -/

/-- Blocks may have gone, the others are as they were. -/
def Fewer (e e' : Engine V) : Prop :=
  e.Coherent → e'.Coherent ∧ ∀ b blk, e'.blockAt b = some blk → e.blockAt b = some blk

theorem Fewer.refl (e : Engine V) : Fewer e e := fun h ↦ ⟨h, fun _ _ hb ↦ hb⟩

theorem Fewer.trans (e e' e'' : Engine V) (h : Fewer e e') (h' : Fewer e' e'') :
    Fewer e e'' := fun hc ↦ by
  obtain ⟨hc', hb'⟩ := h hc
  obtain ⟨hc'', hb''⟩ := h' hc'
  exact ⟨hc'', fun b blk hb ↦ hb' b blk (hb'' b blk hb)⟩

/-- Changes of other parts of the state. -/
theorem Fewer.of_eq (hm : e'.mapping = e.mapping) (hs : e'.storage.slots = e.storage.slots)
    (hb : e.nextBlockId ≤ e'.nextBlockId) : Fewer e e' := fun h ↦
  ⟨h.of_eq hm hs hb, fun b blk hblk ↦ by rw [blockAt, hm, hs] at hblk; exact hblk⟩

theorem ReadsOnly.fewer (h : ReadsOnly e e') : Fewer e e' := by
  obtain ⟨slots, rfl⟩ := h
  exact Fewer.of_eq rfl (by simp) le_rfl

theorem fewer_of_readsOnly {α : Type} {x : EngineM V α} (hx : Along ReadsOnly x) :
    Along Fewer x := fun e ↦ (hx e).fewer

theorem fewer_createLevel : Along Fewer (createLevel : EngineM V LevelId) := fun _ ↦
  Fewer.of_eq rfl rfl le_rfl

theorem fewer_addBlockToLevel : Along Fewer (addBlockToLevel l b : EngineM V Unit) := fun e ↦ by
  obtain ⟨L, L', -, -, -, hrun⟩ | ⟨-, err, hrun⟩ := addBlockToLevel_cases l b e
  · rw [hrun]; exact Fewer.of_eq rfl rfl le_rfl
  · rw [hrun]; exact Fewer.refl e

theorem fewer_relocateBlock {s : SlotId} : Along Fewer (relocateBlock b s : EngineM V Unit) := by
  intro e h
  obtain ⟨old, blk, hold, hne, hnew, hblk, -, hrun⟩ | hrun | ⟨err, e', hrun, hr⟩ :=
    relocateBlock_cases h b s
  · rw [hrun]
    refine ⟨h.relocated hold hne hnew, fun b' blk' hb' ↦ ?_⟩
    obtain ⟨s', hs', hblk'⟩ := blockAt_eq_some.mp hb'
    change (e.mapping.logicalToPhysical.insert b s).lookup b' = some s' at hs'
    change ((e.storage.slots.insert s blk).erase old).lookup s' = some blk' at hblk'
    by_cases hbb : b' = b
    · subst hbb
      rw [Finmap.lookup_insert] at hs'
      cases hs'
      rw [Finmap.lookup_erase_ne hne.symm, Finmap.lookup_insert] at hblk'
      exact blockAt_eq_some.mpr ⟨old, hold, hblk'.symm ▸ hblk⟩
    · rw [Finmap.lookup_insert_of_ne _ hbb] at hs'
      have hss : s' ≠ s := fun heq ↦ hnew ((h.occupied s).mpr
        (Finmap.mem_iff.mpr ⟨b', (h.bijective b' s).mp (heq ▸ hs')⟩))
      have hso : s' ≠ old := fun heq ↦ hbb (Inverse.injective h.bijective hs' (heq ▸ hold))
      rw [Finmap.lookup_erase_ne hso, Finmap.lookup_insert_of_ne _ hss] at hblk'
      exact blockAt_eq_some.mpr ⟨s', hs', hblk'⟩
  · rw [hrun]; exact Fewer.refl e h
  · rw [hrun]; exact hr.fewer h

theorem fewer_buildLevelPgm : Along Fewer (buildLevelPgm l : EngineM V BatchPgmIndex) := by
  intro e
  obtain ⟨_, L, keys, e₁, index, -, -, -, -, hr, -, hrun⟩ | ⟨err, e', hrun, hr⟩ :=
    buildLevelPgm_cases l e
  · rw [hrun]
    exact Fewer.trans _ _ _ hr.fewer (Fewer.of_eq rfl rfl le_rfl)
  · rw [hrun]; exact hr.fewer

theorem fewer_drop {s : SlotId} (hb : e.mapping.logicalToPhysical.lookup b = some s) :
    Fewer e (e.drop b s) := fun h ↦ by
  refine ⟨h.drop hb, fun b' blk hblk ↦ ?_⟩
  obtain ⟨s', hs', hblk⟩ := blockAt_eq_some.mp hblk
  change (e.mapping.logicalToPhysical.erase b).lookup b' = some s' at hs'
  change (e.storage.slots.erase s).lookup s' = some blk at hblk
  have hbb : b' ≠ b := by
    rintro rfl
    rw [Finmap.lookup_erase] at hs'
    cases hs'
  have hss : s' ≠ s := by
    rintro rfl
    rw [Finmap.lookup_erase] at hblk
    cases hblk
  rw [Finmap.lookup_erase_ne hbb] at hs'
  rw [Finmap.lookup_erase_ne hss] at hblk
  exact blockAt_eq_some.mpr ⟨s', hs', hblk⟩

theorem fewer_retireBlocks {bs : List BlockId} :
    Along Fewer (retireBlocks bs : EngineM V Unit) := by
  intro e h
  have hkeeps := keeps_retireBlocks (I := fun e' ↦ e'.Coherent ∧ Fewer e e') (fun _ h ↦ h.1)
    (fun _ _ _ h' hs ↦ ⟨h'.1.drop hs, Fewer.trans _ _ _ h'.2 (fewer_drop hs)⟩) bs e
    ⟨h, Fewer.refl e⟩
  exact hkeeps.2 h

theorem fewer_retireLevel : Along Fewer (retireLevel l : EngineM V Nat) := by
  refine (fewer_of_readsOnly along_level).bind Fewer.trans fun L ↦ ?_
  refine fewer_retireBlocks.bind Fewer.trans fun _ ↦ ?_
  exact Along.bind Fewer.trans (fun e ↦ Fewer.of_eq rfl rfl le_rfl) fun _ ↦
    Along.pure Fewer.refl _

/-! ## Steps that create blocks -/

/-- The blocks of `e'` are blocks of `e`, or have been created with the records `parts` and the
next ids. -/
structure Grown (e e' : Engine V) (parts : List (List (Record V))) : Prop where
  coherent : e'.Coherent
  blocks : ∀ b blk, e'.blockAt b = some blk → e.blockAt b = some blk ∨
    ∃ i : Nat, b = ⟨e.nextBlockId + i⟩ ∧ blk.blockId = b ∧ parts[i]? = some blk.records

namespace Grown

variable {parts : List (List (Record V))}

theorem of_fewer (hc : e.Coherent) (h : Fewer e e') : Grown e e' parts :=
  ⟨(h hc).1, fun b blk hb ↦ Or.inl ((h hc).2 b blk hb)⟩

theorem fewer (h : Grown e e' parts) (h' : Fewer e' e'') : Grown e e'' parts :=
  ⟨(h' h.coherent).1, fun b blk hb ↦ h.blocks b blk ((h' h.coherent).2 b blk hb)⟩

/-- After changes of the levels and the trace. -/
theorem of_eq (h : Grown e' e'' parts) (hm : e'.mapping = e.mapping)
    (hs : e'.storage.slots = e.storage.slots) (hn : e'.nextBlockId = e.nextBlockId) :
    Grown e e'' parts := by
  refine ⟨h.coherent, fun b blk hb ↦ ?_⟩
  have hblocks := h.blocks b blk hb
  rw [blockAt, hm, hs, hn] at hblocks
  exact hblocks

end Grown

/-- What can be read after a block has been stored in a free slot. -/
theorem blockAt_put (h : e.Coherent) {blk blk' : Block V}
    (hfree : (⟨e.storage.nextFreeSlot⟩ : SlotId) ∉ e.storage.slots)
    (hb : (e.put blk).blockAt b = some blk') :
    e.blockAt b = some blk' ∨ b = ⟨e.nextBlockId⟩ ∧ blk' = blk := by
  obtain ⟨s, hs, hblk⟩ := blockAt_eq_some.mp hb
  change (e.mapping.logicalToPhysical.insert _ _).lookup b = some s at hs
  change (e.storage.slots.insert (⟨e.storage.nextFreeSlot⟩ : SlotId) blk).lookup s = _ at hblk
  by_cases hnew : b = ⟨e.nextBlockId⟩
  · rw [hnew, Finmap.lookup_insert] at hs
    cases hs
    rw [Finmap.lookup_insert] at hblk
    exact Or.inr ⟨hnew, (Option.some.inj hblk).symm⟩
  · rw [Finmap.lookup_insert_of_ne _ hnew] at hs
    rw [h.blockAt_put hfree (Finmap.mem_of_lookup_eq_some hs)] at hb
    exact Or.inl hb

/-- `create_block` at a free slot stores and maps the block, whatever becomes of the level. -/
theorem finalState_createBlock (h : e.Coherent) {records : List (Record V)} {l : Option LevelId}
    {blk : Block V} (hfree : (⟨e.storage.nextFreeSlot⟩ : SlotId) ∉ e.storage.slots)
    (hblk : Block.sortedBlock ⟨e.nextBlockId⟩ records e.config.blockCapacity = .ok blk) :
    ∃ levels pgmIndexes, finalState ((createBlock records l).run e) =
      { e.put blk with levels := levels, pgmIndexes := pgmIndexes } := by
  obtain ⟨err, herr, -⟩ | ⟨blk', owner, -, howner, -⟩ | ⟨blk', hblk', -, hrun⟩ :=
    createBlock_cases h records l
  · rw [hblk] at herr; cases herr
  · exact absurd ((h.occupied _).mpr (Finmap.mem_of_lookup_eq_some howner)) hfree
  rw [hblk] at hblk'
  cases hblk'
  rw [hrun, finalState_bind_pure]
  cases l with
  | none => exact ⟨_, _, rfl⟩
  | some l =>
    obtain ⟨L, L', -, -, -, hattach⟩ | ⟨-, err, hattach⟩ :=
      addBlockToLevel_cases l ⟨e.nextBlockId⟩ (e.put blk)
    · rw [attachTo, hattach]; exact ⟨_, _, rfl⟩
    · rw [attachTo, hattach]; exact ⟨_, _, rfl⟩

/-- `create_block` with room for its block. -/
theorem grown_createBlock (h : e.Coherent) {records : List (Record V)} {l : Option LevelId}
    (hroom : e.HasRoom (.createBlock records l)) :
    Grown e (e.after (.createBlock records l)) (e.creations (.createBlock records l)) := by
  unfold HasRoom at hroom
  change Grown e (finalState ((createBlock records l).run e)) _
  cases hblk : Block.sortedBlock ⟨e.nextBlockId⟩ records e.config.blockCapacity with
  | error err =>
    obtain ⟨err', -, hrun⟩ | ⟨blk, owner, hok, -, -⟩ | ⟨blk, hok, -, -⟩ :=
      createBlock_cases h records l
    · rw [hrun]
      exact Grown.of_fewer h (Fewer.of_eq rfl rfl (lt_add_one _).le)
    · rw [hblk] at hok; cases hok
    · rw [hblk] at hok; cases hok
  | ok blk =>
    have hc : e.creations (.createBlock records l) = [blk.records] := by rw [creations, hblk]
    rw [hc] at hroom ⊢
    have hfree : (⟨e.storage.nextFreeSlot⟩ : SlotId) ∉ e.storage.slots := by
      simpa using hroom 0 Nat.one_pos
    obtain ⟨levels, pgmIndexes, hrun⟩ := finalState_createBlock (l := l) h hfree hblk
    rw [hrun]
    refine ⟨(h.put hfree).of_eq rfl rfl le_rfl, fun b blk' hb ↦ ?_⟩
    refine (blockAt_put h hfree hb).imp_right ?_
    rintro ⟨rfl, rfl⟩
    exact ⟨0, by simp, by rw [sortedBlock_eq_ok.mp hblk], rfl⟩

/-- The loop of `LevelBuilder.build` with room for all blocks. -/
theorem grown_createBlocks {parts : List (List (Record V))} (n : Nat) (h : e.Coherent)
    (hroom : e.RoomFor parts.length)
    (hparts : ∀ p ∈ parts, p.length ≤ e.config.blockCapacity ∧ SortedBy (·.key) p) :
    Grown e (finalState ((createBlocks .none l n parts).run e)) parts := by
  induction parts generalizing e n with
  | nil => exact Grown.of_fewer h (Fewer.refl e)
  | cons p ps ih =>
    have hfree : (⟨e.storage.nextFreeSlot⟩ : SlotId) ∉ e.storage.slots := by
      simpa using hroom 0 (Nat.succ_pos _)
    obtain ⟨hlen, hsorted⟩ := hparts p List.mem_cons_self
    have hblk := sortedBlock_ok (b := ⟨e.nextBlockId⟩) e.config.blockCapacity_pos hlen hsorted
    generalize hgen : (⟨⟨⟨e.nextBlockId⟩, e.config.blockCapacity, p⟩, _⟩ : Block V) = blk at hblk
    obtain ⟨levels, pgmIndexes, hfinal⟩ := finalState_createBlock (l := some l) h hfree hblk
    have hput : (e.put blk).Coherent := h.put hfree
    have hfirst : ∀ b blk', (e.put blk).blockAt b = some blk' → e.blockAt b = some blk' ∨
        ∃ i : Nat, b = ⟨e.nextBlockId + i⟩ ∧ blk'.blockId = b ∧
          (p :: ps)[i]? = some blk'.records := fun b blk' hb ↦ by
      refine (blockAt_put h hfree hb).imp_right ?_
      rintro ⟨rfl, rfl⟩
      exact ⟨0, by simp, by rw [← hgen], by rw [← hgen]; rfl⟩
    have hstep : (createBlocks .none l n (p :: ps)).run e =
        (createBlock p (some l) >>= fun _ ↦ createBlocks .none l (n + 1) ps).run e := by
      rw [createBlocks]; rfl
    rw [hstep]
    cases hrun : (createBlock p (some l)).run e with
    | error err e₁ =>
      rw [hrun] at hfinal
      cases hfinal
      rw [run_bind_of_error hrun]
      exact ⟨hput.of_eq rfl rfl le_rfl, hfirst⟩
    | ok b₁ e₁ =>
      rw [hrun] at hfinal
      cases hfinal
      rw [run_bind_of_ok hrun]
      have hc₁ : ({ e.put blk with levels := levels, pgmIndexes := pgmIndexes } :
          Engine V).Coherent := hput.of_eq rfl rfl le_rfl
      have hrest := ih (n + 1) hc₁ (fun i hi ↦ ?_) fun q hq ↦ hparts q (List.mem_cons_of_mem _ hq)
      · refine ⟨hrest.coherent, fun b blk' hb ↦ ?_⟩
        obtain hb | ⟨i, rfl, hid, hi⟩ := hrest.blocks b blk' hb
        · exact hfirst b blk' hb
        · refine Or.inr ⟨i + 1, ?_, hid, hi⟩
          ext
          change e.nextBlockId + 1 + i = _
          push_cast
          ring
      · -- the next slots are free after the first one has been taken
        change _ ∉ e.storage.slots.insert (⟨e.storage.nextFreeSlot⟩ : SlotId) blk
        rw [Finmap.mem_insert, not_or]
        constructor
        · intro heq
          have := congrArg SlotId.value heq
          change e.storage.nextFreeSlot + 1 + i = e.storage.nextFreeSlot at this
          omega
        · have := hroom (i + 1) (by simpa using hi)
          rw [show ((i + 1 : Nat) : Int) = 1 + i by push_cast; ring, ← add_assoc] at this
          exact this

/-- A level that is not active refuses the first block. -/
theorem createBlock_inactive (h : e.Coherent) (hl : ¬ (l ∈ e.levels ∧ l ∉ e.retiredLevelIds))
    (p : List (Record V)) : ∃ err e', (createBlock p (some l)).run e = .error err e' := by
  obtain ⟨err, -, hrun⟩ | ⟨blk, owner, -, -, hrun⟩ | ⟨blk, -, -, hrun⟩ :=
    createBlock_cases h p (some l)
  · exact ⟨_, _, hrun⟩
  · exact ⟨_, _, hrun⟩
  · have hbad : l ∈ (e.put blk).retiredLevelIds ∨ l ∉ (e.put blk).levels := by
      rw [not_and_not_right] at hl
      by_cases hmem : l ∈ e.levels
      · exact Or.inl (hl hmem)
      · exact Or.inr hmem
    exact ⟨_, _, hrun.trans (run_bind_of_error (run_bind_of_error (run_level_error hbad) _) _)⟩

theorem grown_createBlocks_inactive (h : e.Coherent) {parts : List (List (Record V))} (n : Nat)
    (hl : ¬ (l ∈ e.levels ∧ l ∉ e.retiredLevelIds)) (hroom : e.RoomFor (parts.take 1).length)
    (hparts : ∀ p ∈ parts, p.length ≤ e.config.blockCapacity ∧ SortedBy (·.key) p) :
    Grown e (finalState ((createBlocks .none l n parts).run e)) (parts.take 1) := by
  rcases parts with _ | ⟨p, ps⟩
  · exact grown_createBlocks n h hroom hparts
  · obtain ⟨err, e', hrun⟩ := createBlock_inactive h hl p
    have hone : ∀ qs, (createBlocks .none l n (p :: qs)).run e = .error err e' := fun qs ↦ by
      rw [createBlocks]
      exact run_bind_of_error hrun _
    have := grown_createBlocks (l := l) n h hroom fun q hq ↦ hparts q (List.mem_of_mem_take hq)
    rw [List.take_succ_cons, hone] at this
    rw [hone]
    exact this

section Build

variable {records : List (Record V)} {d : Dataset V}

theorem partitionsOf_eq (hd : Dataset.fromRecords records = .ok d) :
    e.partitionsOf records = d.partitions e.config.blockCapacity := by
  rw [partitionsOf, hd]

theorem run_buildLevel_error {l : Option LevelId} {err : DuplicateKeyError}
    (hd : Dataset.fromRecords records = .error err) :
    (buildLevel records l).run e = .error (.duplicateKey err) e := by
  rw [buildLevel, buildLevelWith, hd]
  rfl

theorem run_buildLevel_some (hd : Dataset.fromRecords records = .ok d) (l : LevelId) :
    (buildLevel records (some l)).run e =
      (createBlocks .none l 0 (d.partitions e.config.blockCapacity) >>= fun _ ↦ pure l).run e := by
  rw [buildLevel, buildLevelWith, hd]
  rfl

theorem run_buildLevel_none (hd : Dataset.fromRecords records = .ok d) :
    (buildLevel records none).run e =
      (createBlocks .none ⟨e.nextLevelId⟩ 0 (d.partitions e.config.blockCapacity) >>=
        fun _ ↦ pure ⟨e.nextLevelId⟩).run e.withNewLevel := by
  rw [buildLevel, buildLevelWith, hd]
  rfl

end Build

/-- `LevelBuilder.build` with room for its blocks. -/
theorem grown_buildLevel (h : e.Consistent) {records : List (Record V)} {l : Option LevelId}
    (hroom : e.HasRoom (.buildLevel records l)) :
    Grown e (finalState ((buildLevel records l).run e)) (e.creations (.buildLevel records l)) := by
  unfold HasRoom at hroom
  cases hd : Dataset.fromRecords records with
  | error err =>
    rw [run_buildLevel_error hd]
    exact Grown.of_fewer h.toCoherent (Fewer.refl e)
  | ok d =>
    have hvalid := partitions_valid d e.config.blockCapacity_pos
    cases l with
    | none =>
      change e.RoomFor (e.partitionsOf records).length at hroom
      change Grown e _ (e.partitionsOf records)
      rw [partitionsOf_eq hd] at hroom ⊢
      rw [run_buildLevel_none hd, finalState_bind_pure]
      have hc : e.withNewLevel.Coherent := h.toCoherent.of_eq rfl rfl le_rfl
      exact (grown_createBlocks 0 hc hroom hvalid).of_eq rfl rfl rfl
    | some l =>
      rw [run_buildLevel_some hd, finalState_bind_pure]
      rw [creations, partitionsOf_eq hd] at hroom ⊢
      by_cases hl : l ∈ e.levels ∧ l ∉ e.retiredLevelIds
      · rw [if_pos hl] at hroom ⊢
        exact grown_createBlocks 0 h.toCoherent hroom hvalid
      · rw [if_neg hl] at hroom ⊢
        exact grown_createBlocks_inactive h.toCoherent 0 hl hroom hvalid

/-- `create_update_level` refuses its records, or builds a new level from them. -/
theorem createUpdateLevel_cases (records : List (Record V)) (e : Engine V) :
    (e.partitionsOf records = [] ∧ ∃ err, (createUpdateLevel records).run e = .error err e) ∨
      ∃ d : Dataset V, e.partitionsOf records = e.partitionsOf d.records ∧
        (createUpdateLevel records).run e = (buildLevel d.records none).run e := by
  unfold createUpdateLevel
  extract_lets body
  split_ifs with hnil
  · subst hnil
    refine .inl ⟨?_, _, rfl⟩
    rw [partitionsOf, fromRecords_of_sorted
      (show SortedBy (·.key) ([] : List (Record V)) from List.Pairwise.nil)]
    exact chunks_nil e.config.blockCapacity_pos
  · cases hd : Dataset.fromRecords records with
    | error err =>
      refine .inl ⟨by rw [partitionsOf, hd], .duplicateKey err, ?_⟩
      simp only [body, hd]
      rfl
    | ok d =>
      refine .inr ⟨d, ?_, ?_⟩
      · rw [partitionsOf, partitionsOf, hd, fromRecords_of_sorted d.sorted]
      · simp only [body, hd]
        rfl

theorem grown_createUpdateLevel (h : e.Consistent) {records : List (Record V)}
    (hroom : e.HasRoom (.createUpdateLevel records)) :
    Grown e (finalState ((createUpdateLevel records).run e))
      (e.creations (.createUpdateLevel records)) := by
  obtain ⟨-, err, hrun⟩ | ⟨d, hsame, hrun⟩ := createUpdateLevel_cases records e
  · rw [hrun]
    exact Grown.of_fewer h.toCoherent (Fewer.refl e)
  · have hcreations : e.creations (.createUpdateLevel records) =
        e.creations (.buildLevel d.records none) := hsame
    unfold HasRoom at hroom
    rw [hrun]
    rw [hcreations] at hroom ⊢
    exact grown_buildLevel h hroom

theorem along_readInputs {newer older : LevelId} :
    Along ReadsOnly (readInputs newer older : EngineM V (List (Record V) × List (Record V))) := by
  refine along_level.bind ReadsOnly.trans fun n ↦ ?_
  refine along_level.bind ReadsOnly.trans fun o ↦ ?_
  refine along_readLevelRecords.bind ReadsOnly.trans fun newerRecords ↦ ?_
  exact along_readLevelRecords.bind ReadsOnly.trans fun olderRecords ↦
    Along.pure ReadsOnly.refl _

theorem run_merge_readInputs {newer older : LevelId} (hne : newer ≠ older) :
    (mergeLevelsBlocking newer older).run e = (readInputs newer older >>= fun inputs ↦
      finishMerge .none newer older inputs.1 inputs.2).run e := by
  rw [mergeLevelsBlocking, run_mergeBlockingWith_of_ne _ hne]
  simp only [readInputs, bind_assoc, pure_bind]

/-- What a merge does after its output has been built. -/
theorem fewer_finishMerge {newer older : LevelId} {newerRecords olderRecords : List (Record V)} :
    Fewer (finalState ((buildLevelWith .none (mergeSorted newerRecords olderRecords).1
        (some ⟨e.nextLevelId⟩)).run e.withNewLevel))
      (finalState ((finishMerge .none newer older newerRecords olderRecords).run e)) := by
  have hcreate : createLevel.run e = .ok ⟨e.nextLevelId⟩ e.withNewLevel := rfl
  have hpure : ∀ {α : Type} (a : α), Along Fewer (pure a : EngineM V α) :=
    fun a ↦ Along.pure Fewer.refl a
  rw [finishMerge, run_bind_of_ok hcreate]
  refine Fewer.trans _ _ _ ?_ (Along.after_bind Fewer.refl _ (fun _ ↦ ?_) _)
  · refine Fewer.trans _ _ _ ?_ (Along.after_tryCatch Fewer.refl _ (fun err ↦ ?_) _)
    · refine Along.after_bind Fewer.refl _ (fun _ ↦ ?_) _
      refine (fewer_of_readsOnly along_assertCanonicalOutput).bind Fewer.trans fun _ ↦ ?_
      refine Along.guard Fewer.refl Fewer.trans ?_
      exact fewer_buildLevelPgm.bind Fewer.trans fun _ ↦ hpure _
    · refine Along.bind Fewer.trans ?_ fun _ ↦ Along.throw Fewer.refl _
      refine (Along.get Fewer.refl).bind Fewer.trans fun e ↦ Along.ite ?_ (hpure _)
      exact Along.tryCatch Fewer.trans (fewer_retireLevel.bind Fewer.trans fun _ ↦ hpure _)
        fun _ ↦ hpure _
  · exact fewer_retireLevel.bind Fewer.trans fun _ ↦
      fewer_retireLevel.bind Fewer.trans fun _ ↦ hpure _

/-- A merge with room for the blocks of its output. -/
theorem grown_merge (h : e.Consistent) {newer older : LevelId}
    (hroom : e.HasRoom (.mergeLevelsBlocking newer older)) :
    Grown e (finalState ((mergeLevelsBlocking newer older).run e))
      (e.creations (.mergeLevelsBlocking newer older)) := by
  by_cases hne : newer = older
  · subst hne
    rw [mergeLevelsBlocking, run_mergeBlockingWith_same]
    exact Grown.of_fewer h.toCoherent (Fewer.refl e)
  unfold HasRoom at hroom
  rw [run_merge_readInputs hne]
  rw [creations, if_neg hne] at hroom ⊢
  cases hread : (readInputs newer older).run e with
  | error err e₁ =>
    rw [run_bind_of_error hread]
    exact Grown.of_fewer h.toCoherent (along_readInputs.of_run_eq_error hread).fewer
  | ok inputs e₁ =>
    obtain ⟨slots, rfl⟩ := along_readInputs.of_run_eq_ok hread
    obtain ⟨newerRecords, olderRecords⟩ := inputs
    rw [run_bind_of_ok hread]
    rw [hread] at hroom
    change e.RoomFor (e.partitionsOf (mergeSorted newerRecords olderRecords).1).length at hroom
    change Grown e _ (e.partitionsOf (mergeSorted newerRecords olderRecords).1)
    have h₁ : (e.afterReads slots).Consistent := (ReadsOnly.keeps_consistent _ _ ⟨slots, rfl⟩) h
    have h₂ : (e.afterReads slots).withNewLevel.Consistent := consistent_createLevel _ h₁
    have hslots : (e.afterReads slots).withNewLevel.storage.slots = e.storage.slots :=
      afterReads_slots e slots
    have hnext : (e.afterReads slots).withNewLevel.storage.nextFreeSlot =
        e.storage.nextFreeSlot := afterReads_nextFreeSlot e slots
    -- the output level is active
    have hactive : (⟨e.nextLevelId⟩ : LevelId) ∈ (e.afterReads slots).withNewLevel.levels ∧
        (⟨e.nextLevelId⟩ : LevelId) ∉ (e.afterReads slots).withNewLevel.retiredLevelIds :=
      ⟨Finmap.mem_insert.mpr (Or.inl rfl), fun hmem ↦ lt_irrefl _ (h.retired_lt _ hmem)⟩
    have hroom₂ : (e.afterReads slots).withNewLevel.HasRoom
        (.buildLevel (mergeSorted newerRecords olderRecords).1 (some ⟨e.nextLevelId⟩)) := by
      unfold HasRoom
      rw [creations, if_pos hactive]
      intro i hi
      rw [hslots, hnext]
      exact hroom i hi
    have hbuilt := grown_buildLevel h₂ hroom₂
    rw [creations, if_pos hactive] at hbuilt
    exact (Grown.of_eq hbuilt (e := e) rfl hslots rfl).fewer fewer_finishMerge

/-! ## Runs -/

/-- What a step with room for its blocks does to the blocks. -/
theorem grown_after (h : e.Consistent) {op : EngineOp V} (hroom : e.HasRoom op) :
    Grown e (e.after op) (e.creations op) := by
  have hfewer : ∀ {α : Type} {x : EngineM V α}, Along Fewer x →
      ∀ {parts}, Grown e (finalState (x.run e)) parts := fun hx ↦ Grown.of_fewer h.toCoherent (hx e)
  cases op with
  | createLevel => exact hfewer fewer_createLevel
  | buildLevel records l => exact grown_buildLevel h hroom
  | createBlock records l => exact grown_createBlock h.toCoherent hroom
  | createUpdateLevel records => exact grown_createUpdateLevel h hroom
  | addBlockToLevel l b => exact hfewer fewer_addBlockToLevel
  | readBlock b => exact hfewer (fewer_of_readsOnly along_readBlock)
  | relocateBlock b s => exact hfewer fewer_relocateBlock
  | buildLevelPgm l => exact hfewer fewer_buildLevelPgm
  | mergeLevelsBlocking newer older => exact grown_merge h hroom
  | retireLevel l => exact hfewer fewer_retireLevel
  | lookupLevel l key => exact hfewer (fewer_of_readsOnly along_lookupLevel)
  | lookupLevels plan key => exact hfewer (fewer_of_readsOnly along_lookupLevels)

/-- A step with room for its blocks keeps every block intact. -/
theorem Intact.after {log : Log V} (hi : e.Intact log) (h : e.Consistent) {op : EngineOp V}
    (hroom : e.HasRoom op) : (e.after op).Intact (e.logAfter op log) := by
  have hg := grown_after h hroom
  intro b s hs
  have hocc : s ∈ (e.after op).storage.slots := (hg.coherent.occupied s).mpr
    (Finmap.mem_iff.mpr ⟨b, (hg.coherent.bijective b s).mp hs⟩)
  obtain ⟨blk, hblk⟩ := Finmap.mem_iff.mp hocc
  refine ⟨blk, hblk, ?_⟩
  obtain hold | ⟨i, rfl, hid, hrec⟩ := hg.blocks b blk (blockAt_eq_some.mpr ⟨s, hs, hblk⟩)
  · obtain ⟨s', hs', hblk'⟩ := blockAt_eq_some.mp hold
    obtain ⟨blk', hblk'', hid, hlog⟩ := hi b s' hs'
    rw [hblk'] at hblk''
    cases hblk''
    exact ⟨hid, (if_pos (h.blocks_lt b (Finmap.mem_of_lookup_eq_some hs'))).trans hlog⟩
  · refine ⟨hid, (if_neg (by simp)).trans ?_⟩
    rw [add_sub_cancel_left, Int.toNat_natCast, hrec]

/-- In every run the mapping is a bijection onto the occupied slots.  In the runs whose steps
find the slots of their new blocks free, every mapped block is also stored under its own id with
the records that it was created with. -/
theorem mapped_blocks_intact (config : Config) :
    (∀ (e : Engine V) log, Logged (fun _ _ ↦ True) config e log →
      e.mapping.Bijective ∧ ∀ s, s ∈ e.storage.slots ↔ s ∈ e.mapping.physicalToLogical) ∧
    ∀ (e : Engine V) log, Logged HasRoom config e log → e.Intact log := by
  refine ⟨fun e log h ↦ ⟨h.reachable.consistent.bijective, h.reachable.consistent.occupied⟩,
    fun e log h ↦ ?_⟩
  induction h with
  | init => exact fun b s hs ↦ absurd (Finmap.mem_of_lookup_eq_some hs) Finmap.notMem_empty
  | step h hroom ih => exact ih.after h.reachable.consistent hroom

section Relocated

/-- Two blocks, the first of them relocated to `slot` before the second one is created. -/
def twoBlocks (slot : SlotId) : Engine Unit :=
  (((Engine.init ⟨1, none, Nat.one_pos⟩).after
    (.createBlock [{ key := ⟨1⟩, value := () }] none)).after (.relocateBlock ⟨0⟩ slot)).after
    (.createBlock [{ key := ⟨2⟩, value := () }] none)

/-- Ahead of the allocator, the first block is overwritten by the second one. -/
theorem twoBlocks_overwritten :
    ∃ log, Logged (fun _ _ ↦ True) ⟨1, none, Nat.one_pos⟩ (twoBlocks ⟨1⟩) log ∧
      log ⟨0⟩ = some [{ key := ⟨1⟩, value := () }] ∧
      (twoBlocks ⟨1⟩).mapping.logicalToPhysical.lookup ⟨0⟩ = some ⟨1⟩ ∧
      ((twoBlocks ⟨1⟩).storage.slots.lookup ⟨1⟩).map (fun blk ↦ (blk.blockId, blk.records)) =
        some (⟨1⟩, [{ key := ⟨2⟩, value := () }]) ∧
      ¬ (twoBlocks ⟨1⟩).Intact log := by
  have hmap : (twoBlocks ⟨1⟩).mapping.logicalToPhysical.lookup ⟨0⟩ = some ⟨1⟩ := by decide +kernel
  have hslot : ((twoBlocks ⟨1⟩).storage.slots.lookup ⟨1⟩).map
      (fun blk ↦ (blk.blockId, blk.records)) = some (⟨1⟩, [{ key := ⟨2⟩, value := () }]) := by
    decide +kernel
  refine ⟨_, ((Logged.init.step trivial).step trivial).step trivial, by decide +kernel, hmap,
    hslot, fun h ↦ ?_⟩
  obtain ⟨blk, hblk, hid, -⟩ := h ⟨0⟩ ⟨1⟩ hmap
  rw [hblk, Option.map_some, hid] at hslot
  cases hslot

/-- Further ahead it is not, in a run whose steps all have room. -/
theorem twoBlocks_intact : ∃ log blk,
    Logged HasRoom ⟨1, none, Nat.one_pos⟩ (twoBlocks ⟨5⟩) log ∧
      (twoBlocks ⟨5⟩).storage.slots.lookup ⟨5⟩ = some blk ∧ blk.blockId = ⟨0⟩ ∧
      log ⟨0⟩ = some blk.records := by
  let config : Config := ⟨1, none, Nat.one_pos⟩
  let create (key : Int) : EngineOp Unit := .createBlock [{ key := ⟨key⟩, value := () }] none
  have h₁ : Logged HasRoom config ((Engine.init config).after (create 1)) _ :=
    Logged.init.step (by decide +kernel)
  have h₂ : Logged HasRoom config
      (((Engine.init config).after (create 1)).after (.relocateBlock ⟨0⟩ ⟨5⟩)) _ :=
    h₁.step (by decide +kernel)
  have h₃ : Logged HasRoom config (twoBlocks ⟨5⟩) _ := h₂.step (by decide +kernel)
  have hmap : (twoBlocks ⟨5⟩).mapping.logicalToPhysical.lookup ⟨0⟩ = some ⟨5⟩ := by decide +kernel
  obtain ⟨blk, hblk, hid, hlog⟩ := (mapped_blocks_intact config).2 _ _ h₃ ⟨0⟩ ⟨5⟩ hmap
  exact ⟨_, blk, h₃, hblk, hid, hlog⟩

end Relocated

end Engine

end EnhancedLetIndex
