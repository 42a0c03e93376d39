import EnhancedLetIndex.Engine.Steps

/-!
# Building blocks and taking them back

Every elementary change of the state keeps `Coherent`.  `Created` describes, entry by entry,
the state after the blocks of some partitions have been created in a level: the new blocks
have the next ids, stand in the next slots, and nothing else has moved.  `Dropped` describes
the state after the blocks of a level have been cleared.  The loops of `LevelBuilder.build` and
`retire_level` end in such states.
-/

namespace EnhancedLetIndex

variable {V : Type}

/-! ## Valid blocks -/

theorem sortRecords_eq {records : List (Record V)} (h : SortedBy (·.key) records) :
    sortRecords records = records := h.insertionSort_eq

/-- `Block.sorted_block` accepts exactly distinct keys within the capacity. -/
theorem sortedBlock_eq_ok {b : BlockId} {records : List (Record V)} {capacity : Nat}
    {blk : Block V} :
    Block.sortedBlock b records capacity = .ok blk ↔
      blk.toRawBlock = ⟨b, capacity, sortRecords records⟩ := by
  unfold Block.sortedBlock
  extract_lets raw
  split
  · next err herr =>
    refine iff_of_false (by simp) fun h ↦ ?_
    have hvalid := RawBlock.validate_eq_ok.mpr (h ▸ blk.valid)
    rw [hvalid] at herr
    cases herr
  · next hok =>
    obtain ⟨raw, hraw⟩ := blk
    simp only [Except.ok.injEq, Block.mk.injEq]
    exact eq_comm

theorem sortedBlock_ok {b : BlockId} {records : List (Record V)} {capacity : Nat}
    (hcap : 0 < capacity) (hlen : records.length ≤ capacity) (h : SortedBy (·.key) records) :
    Block.sortedBlock b records capacity =
      .ok ⟨⟨b, capacity, records⟩, ⟨hcap, hlen, h⟩⟩ := by
  rw [sortedBlock_eq_ok, sortRecords_eq h]

namespace Engine

variable {e : Engine V} {b : BlockId} {s : SlotId}

/-! ## Elementary changes keep `Coherent` -/

namespace Coherent

theorem of_eq {e' : Engine V} (h : e.Coherent) (hm : e'.mapping = e.mapping)
    (hs : e'.storage.slots = e.storage.slots) (hb : e.nextBlockId ≤ e'.nextBlockId) :
    e'.Coherent where
  bijective := hm ▸ h.bijective
  occupied s := by rw [hs, hm]; exact h.occupied s
  blocks_lt b hmem := by rw [hm] at hmem; exact (h.blocks_lt b hmem).trans_le hb

theorem afterReads (h : e.Coherent) (slots : List SlotId) : (e.afterReads slots).Coherent :=
  h.of_eq rfl (by simp) le_rfl

theorem attach (h : e.Coherent) (l : LevelId) (L : Level) : (e.attach l L).Coherent :=
  h.of_eq rfl rfl le_rfl

theorem overwrite (h : e.Coherent) {blk : Block V}
    (hocc : (⟨e.storage.nextFreeSlot⟩ : SlotId) ∈ e.storage.slots) :
    (e.overwrite blk).Coherent where
  bijective := h.bijective
  occupied s := by
    rw [Engine.overwrite, ← h.occupied]
    simp only [Finmap.mem_insert, or_iff_right_iff_imp]
    rintro rfl; exact hocc
  blocks_lt b hmem := (h.blocks_lt b hmem).trans (lt_add_one _)

theorem put (h : e.Coherent) {blk : Block V}
    (hfree : (⟨e.storage.nextFreeSlot⟩ : SlotId) ∉ e.storage.slots) : (e.put blk).Coherent where
  bijective := h.bijective.insert h.fresh fun hmem ↦ hfree ((h.occupied _).mpr hmem)
  occupied s := by
    change s ∈ e.storage.slots.insert (⟨e.storage.nextFreeSlot⟩ : SlotId) blk ↔
      s ∈ e.mapping.physicalToLogical.insert _ _
    rw [Finmap.mem_insert, Finmap.mem_insert, h.occupied]
  blocks_lt b hmem := by
    change b ∈ e.mapping.logicalToPhysical.insert _ _ at hmem
    change b.value < e.nextBlockId + 1
    rcases Finmap.mem_insert.mp hmem with rfl | hmem
    · exact lt_add_one _
    · exact (h.blocks_lt b hmem).trans (lt_add_one _)

theorem drop (h : e.Coherent) (hb : e.mapping.logicalToPhysical.lookup b = some s) :
    (e.drop b s).Coherent where
  bijective := h.bijective.erase hb
  occupied s' := by
    change s' ∈ e.storage.slots.erase s ↔ s' ∈ e.mapping.physicalToLogical.erase s
    rw [Finmap.mem_erase, Finmap.mem_erase, h.occupied]
  blocks_lt b' hmem := h.blocks_lt b' (Finmap.mem_erase.mp hmem).2

theorem relocated (h : e.Coherent) {new : SlotId} {blk : Block V}
    (hb : e.mapping.logicalToPhysical.lookup b = some s) (hne : s ≠ new)
    (hnew : new ∉ e.storage.slots) : (e.relocated b s new blk).Coherent where
  bijective := h.bijective.moved hb fun hmem ↦ hnew ((h.occupied _).mpr hmem)
  occupied s' := by
    change s' ∈ (e.storage.slots.insert new blk).erase s ↔
      s' ∈ (e.mapping.physicalToLogical.erase s).insert new b
    rw [Finmap.mem_erase, Finmap.mem_insert, Finmap.mem_insert, Finmap.mem_erase, h.occupied]
    constructor
    · rintro ⟨hs, rfl | hmem⟩
      · exact Or.inl rfl
      · exact Or.inr ⟨hs, hmem⟩
    · rintro (rfl | ⟨hs, hmem⟩)
      · exact ⟨hne.symm, Or.inl rfl⟩
      · exact ⟨hs, Or.inr hmem⟩
  blocks_lt b' hmem := by
    rcases Finmap.mem_insert.mp hmem with rfl | hmem
    · exact h.blocks_lt _ (Finmap.mem_of_lookup_eq_some hb)
    · exact h.blocks_lt b' hmem

end Coherent

/-! ## Created blocks -/

/-- The ids of the next `n` blocks. -/
def newBlockIds (e : Engine V) (n : Nat) : List BlockId :=
  (List.range n).map fun i : Nat ↦ ⟨e.nextBlockId + i⟩

/-- `x` is one of the `n` integers from `a` on. -/
def InNext (a : Int) (n : Nat) (x : Int) : Prop := a ≤ x ∧ x < a + n

instance (a : Int) (n : Nat) (x : Int) : Decidable (InNext a n x) :=
  inferInstanceAs (Decidable (_ ∧ _))

theorem inNext_add {a x : Int} {m n : Nat} :
    InNext a (m + n) x ↔ InNext a m x ∨ InNext (a + m) n x := by
  simp only [InNext]; omega

theorem mem_newBlockIds {n : Nat} : b ∈ e.newBlockIds n ↔ InNext e.nextBlockId n b.value := by
  simp only [newBlockIds, List.mem_map, List.mem_range, InNext]
  constructor
  · rintro ⟨i, hi, rfl⟩; simp only; omega
  · rintro ⟨h₁, h₂⟩
    refine ⟨(b.value - e.nextBlockId).toNat, by omega, ?_⟩
    ext
    simp only
    omega

/-- The state `e'` after the blocks `blks` have been created from `e` in the level `l`, which
listed the blocks `ids`. -/
structure Created (e e' : Engine V) (l : LevelId) (ids : List BlockId)
    (blks : List (Block V)) : Prop where
  blockIds : blks.map (·.blockId) = e.newBlockIds blks.length
  capacity : ∀ blk ∈ blks, blk.capacity = e.config.blockCapacity
  config : e'.config = e.config
  retired : e'.retiredLevelIds = e.retiredLevelIds
  nextLevelId : e'.nextLevelId = e.nextLevelId
  nextBlockId : e'.nextBlockId = e.nextBlockId + blks.length
  nextFreeSlot : e'.storage.nextFreeSlot = e.storage.nextFreeSlot + blks.length
  coherent : e'.Coherent
  mapped : ∀ b, e'.mapping.logicalToPhysical.lookup b =
    if InNext e.nextBlockId blks.length b.value then
      some ⟨e.storage.nextFreeSlot + (b.value - e.nextBlockId)⟩
    else e.mapping.logicalToPhysical.lookup b
  slots : ∀ s, e'.storage.slots.lookup s =
    if InNext e.storage.nextFreeSlot blks.length s.value then
      blks[(s.value - e.storage.nextFreeSlot).toNat]?
    else e.storage.slots.lookup s
  level : ∃ L, e'.levels.lookup l = some L ∧ L.blockIds = ids ++ e.newBlockIds blks.length
  levels : ∀ l', l' ≠ l → e'.levels.lookup l' = e.levels.lookup l'
  pgms : ∀ l', l' ≠ l → e'.pgmIndexes.lookup l' = e.pgmIndexes.lookup l'
  pgm : ∀ index, e'.pgmIndexes.lookup l = some index → e.pgmIndexes.lookup l = some index
  observed : e'.storage.observed = e.storage.observed ++ (List.range blks.length).map
    fun i : Nat ↦ (.write, ⟨e.storage.nextFreeSlot + i⟩)

/-- The next ids, some and then some more. -/
theorem newBlockIds_add {e' : Engine V} {m n : Nat} (h : e'.nextBlockId = e.nextBlockId + m) :
    e.newBlockIds (m + n) = e.newBlockIds m ++ e'.newBlockIds n := by
  rw [newBlockIds, newBlockIds, newBlockIds, List.range_add, List.map_append, List.map_map, h]
  congr 1
  apply List.map_congr_left
  intro i _
  simp only [Function.comp_apply, BlockId.mk.injEq]
  push_cast
  ring

namespace Created

variable {e' e'' : Engine V} {l : LevelId} {ids : List BlockId} {ps qs : List (Block V)}

/-- No block created. -/
theorem refl (h : e.Coherent) {L : Level} (hl : e.levels.lookup l = some L) :
    Created e e l L.blockIds [] where
  blockIds := rfl
  capacity _ hblk := absurd hblk List.not_mem_nil
  config := rfl
  retired := rfl
  nextLevelId := rfl
  nextBlockId := by simp
  nextFreeSlot := by simp
  coherent := h
  mapped b := by rw [if_neg]; simp only [InNext, List.length_nil]; omega
  slots s := by rw [if_neg]; simp only [InNext, List.length_nil]; omega
  level := ⟨L, hl, by simp [newBlockIds]⟩
  levels _ _ := rfl
  pgms _ _ := rfl
  pgm _ h := h
  observed := by simp

/-- First some blocks, then some more. -/
theorem trans (h : Created e e' l ids ps)
    (h' : Created e' e'' l (ids ++ e.newBlockIds ps.length) qs) :
    Created e e'' l ids (ps ++ qs) where
  blockIds := by
    rw [List.map_append, h.blockIds, h'.blockIds, List.length_append,
      newBlockIds_add h.nextBlockId]
  capacity blk hblk := by
    rcases List.mem_append.mp hblk with hblk | hblk
    · exact h.capacity blk hblk
    · rw [h'.capacity blk hblk, h.config]
  config := h'.config.trans h.config
  retired := h'.retired.trans h.retired
  nextLevelId := h'.nextLevelId.trans h.nextLevelId
  nextBlockId := by rw [h'.nextBlockId, h.nextBlockId, List.length_append]; push_cast; ring
  nextFreeSlot := by rw [h'.nextFreeSlot, h.nextFreeSlot, List.length_append]; push_cast; ring
  coherent := h'.coherent
  mapped b := by
    rw [h'.mapped, h.mapped, h.nextBlockId, h.nextFreeSlot, List.length_append]
    by_cases h₂ : InNext (e.nextBlockId + ps.length) qs.length b.value
    · rw [if_pos h₂, if_pos (inNext_add.mpr (Or.inr h₂))]
      congr 2; ring
    rw [if_neg h₂]
    by_cases h₁ : InNext e.nextBlockId ps.length b.value
    · rw [if_pos h₁, if_pos (inNext_add.mpr (Or.inl h₁))]
    · rw [if_neg h₁, if_neg fun h ↦ (inNext_add.mp h).elim h₁ h₂]
  slots s := by
    rw [h'.slots, h.slots, h.nextFreeSlot, List.length_append]
    by_cases h₂ : InNext (e.storage.nextFreeSlot + ps.length) qs.length s.value
    · rw [if_pos h₂, if_pos (inNext_add.mpr (Or.inr h₂))]
      obtain ⟨h₃, h₄⟩ := h₂
      rw [List.getElem?_append_right (by omega)]
      congr 1; omega
    rw [if_neg h₂]
    by_cases h₁ : InNext e.storage.nextFreeSlot ps.length s.value
    · rw [if_pos h₁, if_pos (inNext_add.mpr (Or.inl h₁))]
      obtain ⟨h₃, h₄⟩ := h₁
      rw [List.getElem?_append_left (by omega)]
    · rw [if_neg h₁, if_neg fun h ↦ (inNext_add.mp h).elim h₁ h₂]
  level := by
    obtain ⟨L, hL, hids⟩ := h'.level
    refine ⟨L, hL, ?_⟩
    rw [hids, List.append_assoc, List.length_append, newBlockIds_add h.nextBlockId]
  levels l' hl' := (h'.levels l' hl').trans (h.levels l' hl')
  pgms l' hl' := (h'.pgms l' hl').trans (h.pgms l' hl')
  pgm index hindex := h.pgm index (h'.pgm index hindex)
  observed := by
    rw [h'.observed, h.observed, List.append_assoc, List.length_append, List.range_add,
      List.map_append, List.map_map, h.nextFreeSlot]
    congr 2
    apply List.map_congr_left
    intro i _
    simp only [Function.comp_apply, Prod.mk.injEq, SlotId.mk.injEq, true_and]
    push_cast
    ring

/-- The blocks created so far are below the block counter. -/
theorem ids_lt (h : Created e e' l ids ps) (hids : ∀ b ∈ ids, b.value < e.nextBlockId) :
    ∀ b ∈ ids ++ e.newBlockIds ps.length, b.value < e'.nextBlockId := by
  intro b hb
  rw [h.nextBlockId]
  rcases List.mem_append.mp hb with hb | hb
  · have := hids b hb; omega
  · exact (mem_newBlockIds.mp hb).2

/-- Blocks that were mapped before keep their slots. -/
theorem mapped_old (h : Created e e' l ids ps) (hc : e.Coherent)
    (hb : b ∈ e.mapping.logicalToPhysical) :
    e'.mapping.logicalToPhysical.lookup b = e.mapping.logicalToPhysical.lookup b := by
  rw [h.mapped, if_neg]
  intro hnext
  exact absurd (hc.blocks_lt b hb) (not_lt.mpr hnext.1)

/-- When the new slots were free, blocks that were stored before keep their contents. -/
theorem slots_old (h : Created e e' l ids ps)
    (hfree : ∀ s ∈ e.storage.slots, ¬ InNext e.storage.nextFreeSlot ps.length s.value)
    (hs : s ∈ e.storage.slots) : e'.storage.slots.lookup s = e.storage.slots.lookup s := by
  rw [h.slots, if_neg (hfree s hs)]

/-- The new blocks are mapped to the new slots. -/
theorem exists_slot_iff (h : Created e e' l ids ps) :
    (∃ b ∈ e.newBlockIds ps.length, e'.mapping.logicalToPhysical.lookup b = some s) ↔
      InNext e.storage.nextFreeSlot ps.length s.value := by
  constructor
  · rintro ⟨b, hb, hs⟩
    obtain ⟨h₁, h₂⟩ := mem_newBlockIds.mp hb
    rw [h.mapped, if_pos ⟨h₁, h₂⟩] at hs
    cases hs
    exact ⟨by simp only; omega, by simp only; omega⟩
  · rintro ⟨h₁, h₂⟩
    have hnext : InNext e.nextBlockId ps.length
        (e.nextBlockId + (s.value - e.storage.nextFreeSlot)) := ⟨by omega, by omega⟩
    refine ⟨⟨_⟩, mem_newBlockIds.mpr hnext, ?_⟩
    rw [h.mapped, if_pos hnext]
    congr 1
    ext
    simp only
    ring

/-- A new block can be read. -/
theorem blockAt_new (h : Created e e' l ids ps) {i : Nat} (hi : i < ps.length) :
    e'.blockAt ⟨e.nextBlockId + i⟩ = some ps[i] := by
  have hnext : ∀ a : Int, InNext a ps.length (a + i) := fun a ↦ ⟨by omega, by omega⟩
  refine blockAt_eq_some.mpr ⟨⟨e.storage.nextFreeSlot + i⟩, ?_, ?_⟩
  · rw [h.mapped, if_pos (hnext _)]
    congr 2; ring
  · rw [h.slots, if_pos (hnext _), add_sub_cancel_left, Int.toNat_natCast,
      List.getElem?_eq_getElem hi]

/-- The new blocks are what reading their ids returns. -/
theorem forall₂_new (h : Created e e' l ids ps) :
    List.Forall₂ (fun b blk ↦ e'.blockAt b = some blk) (e.newBlockIds ps.length) ps := by
  rw [List.forall₂_iff_get]
  refine ⟨by simp [newBlockIds], fun i _ hi ↦ ?_⟩
  simpa [newBlockIds] using h.blockAt_new hi

theorem blockAt_old (h : Created e e' l ids ps) (hc : e.Coherent)
    (hfree : ∀ s ∈ e.storage.slots, ¬ InNext e.storage.nextFreeSlot ps.length s.value)
    (hb : b ∈ e.mapping.logicalToPhysical) : e'.blockAt b = e.blockAt b := by
  obtain ⟨s, hs⟩ := Finmap.mem_iff.mp hb
  have hocc : s ∈ e.storage.slots :=
    (hc.occupied s).mpr (Finmap.mem_iff.mpr ⟨b, (hc.bijective b s).mp hs⟩)
  rw [blockAt, blockAt, h.mapped_old hc hb, hs]
  exact h.slots_old hfree hocc

end Created

theorem addBlock_of_notMem {L : Level} (hb : b ∉ L.blockIds) :
    ∃ L', L.addBlock b = .ok L' ∧ L'.blockIds = L.blockIds ++ [b] := ⟨_, dif_neg hb, rfl⟩

theorem inNext_one {a x : Int} : InNext a 1 x ↔ x = a := by
  simp only [InNext]; omega

/-- `create_block` into an active level, at a free slot. -/
theorem createBlock_created (h : e.Coherent) {l : LevelId} {L : Level} {part : List (Record V)}
    (hl : e.levels.lookup l = some L) (hret : l ∉ e.retiredLevelIds)
    (hids : ∀ b ∈ L.blockIds, b.value < e.nextBlockId)
    (hfree : (⟨e.storage.nextFreeSlot⟩ : SlotId) ∉ e.storage.slots)
    (hlen : part.length ≤ e.config.blockCapacity) (hpart : SortedBy (·.key) part) :
    ∃ e' blk, (createBlock part (some l)).run e = .ok ⟨e.nextBlockId⟩ e' ∧
      blk.records = part ∧ Created e e' l L.blockIds [blk] := by
  have hblk := sortedBlock_ok (b := ⟨e.nextBlockId⟩) e.config.blockCapacity_pos hlen hpart
  have hadd : (⟨e.nextBlockId⟩ : BlockId) ∉ L.blockIds :=
    fun hmem ↦ lt_irrefl _ (hids _ hmem)
  obtain ⟨err, herr, -⟩ | ⟨blk, owner, -, howner, -⟩ | ⟨blk, hok, -, hrun⟩ :=
    createBlock_cases h part (some l)
  · rw [hblk] at herr; cases herr
  · exact absurd ((h.occupied _).mpr (Finmap.mem_of_lookup_eq_some howner)) hfree
  have hraw := sortedBlock_eq_ok.mp hok
  rw [sortRecords_eq hpart] at hraw
  obtain ⟨L', hL', hids'⟩ := addBlock_of_notMem hadd
  have hattach := run_addBlockToLevel (e := e.put blk) hl hret hL'
  have hself : ∀ a : Int, InNext a [blk].length a := fun a ↦ inNext_one.mpr rfl
  refine ⟨(e.put blk).attach l L', blk, ?_, by rw [hraw], ?_⟩
  · rw [hrun, attachTo, run_bind_of_ok hattach]
    rfl
  · exact {
      blockIds := by simp [hraw, newBlockIds]
      capacity := by simp [hraw]
      config := rfl
      retired := rfl
      nextLevelId := rfl
      nextBlockId := rfl
      nextFreeSlot := rfl
      coherent := (h.put hfree).attach _ _
      mapped := fun b ↦ by
        change (e.mapping.logicalToPhysical.insert _ _).lookup b = _
        by_cases hb : b = ⟨e.nextBlockId⟩
        · subst hb
          rw [Finmap.lookup_insert, if_pos (hself _)]
          simp
        · rw [Finmap.lookup_insert_of_ne _ hb, if_neg]
          exact fun hnext ↦ hb (BlockId.ext (inNext_one.mp hnext))
      slots := fun s ↦ by
        change (e.storage.slots.insert (⟨e.storage.nextFreeSlot⟩ : SlotId) blk).lookup s = _
        by_cases hs : s = ⟨e.storage.nextFreeSlot⟩
        · subst hs
          rw [Finmap.lookup_insert, if_pos (hself _)]
          simp
        · rw [Finmap.lookup_insert_of_ne _ hs, if_neg]
          exact fun hnext ↦ hs (SlotId.ext (inNext_one.mp hnext))
      level := ⟨L', Finmap.lookup_insert _, by simp [hids', newBlockIds]⟩
      levels := fun l' hl' ↦ Finmap.lookup_insert_of_ne _ hl'
      pgms := fun l' hl' ↦ Finmap.lookup_erase_ne hl'
      pgm := fun index hindex ↦ by
        change (e.pgmIndexes.erase l).lookup l = some index at hindex
        rw [Finmap.lookup_erase] at hindex
        cases hindex
      observed := (UntrustedStorage.record_observed e.storage .write _).trans (by simp) }

/-- The loop of `LevelBuilder.build`: it creates the blocks of all partitions, or of the ones
before an exception from outside. -/
theorem createBlocks_spec (faults : FaultPlan) (n : Nat) {parts : List (List (Record V))}
    (h : e.Coherent) {l : LevelId} {L : Level} (hl : e.levels.lookup l = some L)
    (hret : l ∉ e.retiredLevelIds) (hids : ∀ b ∈ L.blockIds, b.value < e.nextBlockId)
    (hfree : ∀ s ∈ e.storage.slots, ¬ InNext e.storage.nextFreeSlot parts.length s.value)
    (hparts : ∀ p ∈ parts, p.length ≤ e.config.blockCapacity ∧ SortedBy (·.key) p) :
    ∃ e' blks, Created e e' l L.blockIds blks ∧
      ((createBlocks faults l n parts).run e = .ok () e' ∧ blks.map (·.records) = parts ∧
          (∀ j < parts.length, faults.createBlock (n + j) = false) ∨
        blks.length < parts.length ∧ faults.createBlock (n + blks.length) = true ∧
          (createBlocks faults l n parts).run e = .error .fault e') := by
  induction parts generalizing e L n with
  | nil => exact ⟨e, [], .refl h hl, Or.inl ⟨rfl, rfl, by simp⟩⟩
  | cons p ps ih =>
    by_cases hfault : faults.createBlock n = true
    · refine ⟨e, [], .refl h hl, Or.inr ⟨by simp, hfault, ?_⟩⟩
      rw [createBlocks, if_pos hfault]
      rfl
    obtain ⟨hplen, hpsorted⟩ := hparts p List.mem_cons_self
    have hslot : (⟨e.storage.nextFreeSlot⟩ : SlotId) ∉ e.storage.slots := fun hmem ↦
      hfree _ hmem ⟨le_rfl, by simp only [List.length_cons]; omega⟩
    obtain ⟨e₁, blk, hrun₁, hrec, hc₁⟩ := createBlock_created h hl hret hids hslot hplen hpsorted
    obtain ⟨L₁, hl₁, hids₁⟩ := hc₁.level
    have hbelow := hc₁.ids_lt hids
    rw [← hids₁] at hbelow
    have hfree₁ : ∀ s ∈ e₁.storage.slots,
        ¬ InNext e₁.storage.nextFreeSlot ps.length s.value := by
      intro s hs hnext
      rw [hc₁.nextFreeSlot] at hnext
      obtain ⟨held, hheld⟩ := Finmap.mem_iff.mp hs
      rw [hc₁.slots] at hheld
      by_cases hone : InNext e.storage.nextFreeSlot [blk].length s.value
      · have := hone.2; have := hnext.1; omega
      · rw [if_neg hone] at hheld
        refine hfree s (Finmap.mem_of_lookup_eq_some hheld) ?_
        rw [List.length_cons, Nat.add_comm]
        exact inNext_add.mpr (Or.inr hnext)
    obtain ⟨e₂, blks, hc₂, hrest⟩ := ih (n + 1) hc₁.coherent hl₁ (by rw [hc₁.retired]; exact hret)
      hbelow hfree₁ (by
        rw [hc₁.config]; exact fun q hq ↦ hparts q (List.mem_cons_of_mem _ hq))
    rw [hids₁] at hc₂
    have hstep : (createBlocks faults l n (p :: ps)).run e =
        (createBlocks faults l (n + 1) ps).run e₁ := by
      rw [createBlocks, if_neg hfault]
      exact (run_bind_of_ok rfl _).trans (run_bind_of_ok hrun₁ _)
    refine ⟨e₂, blk :: blks, hc₁.trans hc₂, ?_⟩
    rw [hstep]
    rcases hrest with ⟨hrun₂, hrecs, hno⟩ | ⟨hi, hfault', hrun₂⟩
    · refine Or.inl ⟨hrun₂, by rw [List.map_cons, hrec, hrecs], fun j hj ↦ ?_⟩
      rcases j with _ | j
      · simpa using hfault
      · rw [← Nat.add_assoc, Nat.add_right_comm]
        exact hno j (by simpa using hj)
    · refine Or.inr ⟨by simpa using hi, ?_, hrun₂⟩
      rw [List.length_cons, ← Nat.add_assoc, Nat.add_right_comm]
      exact hfault'

/-! ## Dropped blocks -/

/-- The state `e'` after the blocks `bs` have been cleared and unmapped. -/
structure Dropped (e e' : Engine V) (bs : List BlockId) : Prop where
  rest : e' = { e with mapping := e'.mapping, storage := e'.storage }
  nextFreeSlot : e'.storage.nextFreeSlot = e.storage.nextFreeSlot
  coherent : e'.Coherent
  mapped : ∀ b, e'.mapping.logicalToPhysical.lookup b =
    if b ∈ bs then none else e.mapping.logicalToPhysical.lookup b
  slots : ∀ s, e'.storage.slots.lookup s =
    if ∃ b ∈ bs, e.mapping.logicalToPhysical.lookup b = some s then none
    else e.storage.slots.lookup s
  observed : e'.storage.observed = e.storage.observed ++
    (bs.filterMap e.mapping.logicalToPhysical.lookup).map (.write, ·)

namespace Dropped

variable {e' : Engine V} {bs : List BlockId}

theorem config (h : Dropped e e' bs) : e'.config = e.config := by rw [h.rest]

theorem levels (h : Dropped e e' bs) : e'.levels = e.levels := by rw [h.rest]

theorem retired (h : Dropped e e' bs) : e'.retiredLevelIds = e.retiredLevelIds := by rw [h.rest]

theorem pgmIndexes (h : Dropped e e' bs) : e'.pgmIndexes = e.pgmIndexes := by rw [h.rest]

theorem nextLevelId (h : Dropped e e' bs) : e'.nextLevelId = e.nextLevelId := by rw [h.rest]

/-- Blocks that are not dropped can be read as before. -/
theorem blockAt (h : Dropped e e' bs) (hc : e.Coherent) (hb : b ∉ bs) :
    e'.blockAt b = e.blockAt b := by
  rw [Engine.blockAt, Engine.blockAt, h.mapped, if_neg hb]
  cases hs : e.mapping.logicalToPhysical.lookup b with
  | none => rfl
  | some s =>
    refine (h.slots s).trans (if_neg ?_)
    rintro ⟨b', hb', hs'⟩
    rw [Inverse.injective hc.bijective hs hs'] at hb
    exact hb hb'

end Dropped

/-- The loop of `retire_level`, over mapped blocks. -/
theorem retireBlocks_spec {bs : List BlockId} (h : e.Coherent) (hnodup : bs.Nodup)
    (hmapped : ∀ b ∈ bs, b ∈ e.mapping.logicalToPhysical) :
    ∃ e', (retireBlocks bs).run e = .ok () e' ∧ Dropped e e' bs := by
  induction bs generalizing e with
  | nil => exact ⟨e, rfl, ⟨rfl, rfl, h, by simp, by simp, by simp⟩⟩
  | cons b bs ih =>
    obtain ⟨hb, hnodup⟩ := List.nodup_cons.mp hnodup
    obtain ⟨s, hs⟩ := Finmap.mem_iff.mp (hmapped b List.mem_cons_self)
    have hlookup : ∀ b', b' ≠ b → (e.drop b s).mapping.logicalToPhysical.lookup b' =
        e.mapping.logicalToPhysical.lookup b' := fun b' hne ↦ Finmap.lookup_erase_ne hne
    have hrest : ∀ b' ∈ bs, b' ≠ b := fun b' hb' heq ↦ hb (heq ▸ hb')
    obtain ⟨e', hrun, hd⟩ := ih (h.drop hs) hnodup fun b' hb' ↦
      Finmap.mem_erase.mpr ⟨hrest b' hb', hmapped b' (List.mem_cons_of_mem _ hb')⟩
    refine ⟨e', (run_retireBlocks_cons h hs).trans hrun, ?_, hd.nextFreeSlot, hd.coherent,
      fun b' ↦ ?_, fun s' ↦ ?_, ?_⟩
    · rw [hd.rest]; rfl
    · rw [hd.mapped]
      by_cases hbb : b' = b
      · subst hbb
        rw [if_neg hb, if_pos List.mem_cons_self]
        exact Finmap.lookup_erase _ _
      · rw [hlookup b' hbb]
        simp only [List.mem_cons, hbb, false_or]
    · rw [hd.slots]
      have hother : (∃ b' ∈ bs, (e.drop b s).mapping.logicalToPhysical.lookup b' = some s') ↔
          ∃ b' ∈ bs, e.mapping.logicalToPhysical.lookup b' = some s' :=
        exists_congr fun b' ↦ and_congr_right fun hb' ↦ by rw [hlookup b' (hrest b' hb')]
      by_cases hss : s' = s
      · subst hss
        rw [if_pos (⟨b, List.mem_cons_self, hs⟩ :
          ∃ b' ∈ b :: bs, e.mapping.logicalToPhysical.lookup b' = some s')]
        split
        · rfl
        · exact Finmap.lookup_erase _ _
      · have hcons : (∃ b' ∈ b :: bs, e.mapping.logicalToPhysical.lookup b' = some s') ↔
            ∃ b' ∈ bs, e.mapping.logicalToPhysical.lookup b' = some s' := by
          simp only [List.mem_cons, exists_eq_or_imp, hs, Option.some.injEq]
          exact or_iff_right (Ne.symm hss)
        have herase : (e.drop b s).storage.slots.lookup s' = e.storage.slots.lookup s' :=
          Finmap.lookup_erase_ne hss
        simp only [hother, hcons, herase]
    · have hobs : (e.drop b s).storage.observed = e.storage.observed ++ [(.write, s)] :=
        UntrustedStorage.record_observed e.storage .write s
      have htail : bs.filterMap (e.drop b s).mapping.logicalToPhysical.lookup =
          bs.filterMap e.mapping.logicalToPhysical.lookup :=
        List.filterMap_congr fun b' hb' ↦ hlookup b' (hrest b' hb')
      rw [hd.observed, hobs, htail, List.append_assoc]
      simp [hs]

/-- The state after an active level has been declared retired. -/
def forget (e : Engine V) (l : LevelId) : Engine V :=
  { e with
    pgmIndexes := e.pgmIndexes.erase l
    levels := e.levels.erase l
    retiredLevelIds := insert l e.retiredLevelIds }

/-- The other levels after the blocks of a level are dropped and the level is forgotten. -/
theorem Dropped.lookup_forget {e' : Engine V} {bs : List BlockId} (h : Dropped e e' bs)
    {l l' : LevelId} (hne : l' ≠ l) : (e'.forget l).levels.lookup l' = e.levels.lookup l' := by
  rw [← h.levels]
  exact Finmap.lookup_erase_ne hne

/-- `retire_level` on an active level whose blocks are mapped. -/
theorem retireLevel_spec {l : LevelId} {L : Level} (h : e.Coherent)
    (hl : e.levels.lookup l = some L) (hret : l ∉ e.retiredLevelIds)
    (hmapped : ∀ b ∈ L.blockIds, b ∈ e.mapping.logicalToPhysical) :
    ∃ e', Dropped e e' L.blockIds ∧
      (retireLevel l).run e = .ok L.blockIds.length (e'.forget l) := by
  obtain ⟨e', hrun, hd⟩ := retireBlocks_spec h L.nodup hmapped
  refine ⟨e', hd, ?_⟩
  rw [retireLevel, run_bind_of_ok (run_level hl hret), run_bind_of_ok hrun]
  rfl

/-! ## Datasets -/

theorem firstRepeated_eq_none {keys : List RecordKey} (h : keys.Nodup) :
    firstRepeated keys = none := by
  fun_induction firstRepeated keys with
  | case1 right rest => simp at h
  | case2 left right rest hne ih => exact ih (List.nodup_cons.mp h).2
  | case3 => rfl

theorem fromRecords_eq_ok {records : List (Record V)} {d : Dataset V} :
    Dataset.fromRecords records = .ok d ↔
      (records.map (·.key)).Nodup ∧ d.records = sortRecords records := by
  have hperm : ((sortRecords records).map (·.key)).Perm (records.map (·.key)) :=
    (List.perm_insertionSort _ records).map _
  obtain ⟨ds, hds⟩ := d
  unfold Dataset.fromRecords
  split
  · next key hkey =>
    simp only [reduceCtorEq, false_iff, not_and]
    intro hnodup
    rw [firstRepeated_eq_none (hperm.nodup_iff.mpr hnodup)] at hkey
    cases hkey
  · next hnone =>
    have hnodup := (sortedBy_of_firstRepeated hnone).nodup_keys
    simp only [Except.ok.injEq, Dataset.mk.injEq, hperm.nodup_iff.mp hnodup, true_and]
    exact eq_comm

theorem fromRecords_of_sorted {records : List (Record V)} (h : SortedBy (·.key) records) :
    Dataset.fromRecords records = .ok ⟨records, h⟩ :=
  fromRecords_eq_ok.mpr ⟨h.nodup_keys, (sortRecords_eq h).symm⟩

/-- The partitions are valid blocks. -/
theorem partitions_valid (d : Dataset V) {capacity : Nat} (hcap : 0 < capacity) :
    ∀ p ∈ d.partitions capacity, p.length ≤ capacity ∧ SortedBy (·.key) p := by
  intro p hp
  refine ⟨(packed_chunks hcap d.records).length_le p hp, d.sorted.sublist ?_⟩
  obtain ⟨i, -, rfl⟩ := List.mem_map.mp hp
  exact (List.take_sublist _ _).trans (List.drop_sublist _ _)

/-- `LevelBuilder.build` on an active level. -/
theorem buildLevelWith_spec (faults : FaultPlan) {records : List (Record V)} {d : Dataset V}
    (h : e.Coherent) {l : LevelId} {L : Level} (hl : e.levels.lookup l = some L)
    (hret : l ∉ e.retiredLevelIds) (hids : ∀ b ∈ L.blockIds, b.value < e.nextBlockId)
    (hd : Dataset.fromRecords records = .ok d)
    (hfree : ∀ s ∈ e.storage.slots,
      ¬ InNext e.storage.nextFreeSlot (d.partitions e.config.blockCapacity).length s.value) :
    ∃ e' blks, Created e e' l L.blockIds blks ∧
      ((buildLevelWith faults records (some l)).run e = .ok l e' ∧
          blks.map (·.records) = d.partitions e.config.blockCapacity ∧
          (∀ j < (d.partitions e.config.blockCapacity).length, faults.createBlock j = false) ∨
        blks.length < (d.partitions e.config.blockCapacity).length ∧
          faults.createBlock blks.length = true ∧
          (buildLevelWith faults records (some l)).run e = .error .fault e') := by
  obtain ⟨e', blks, hc, hrun⟩ := createBlocks_spec faults 0 h hl hret hids hfree
    (partitions_valid d e.config.blockCapacity_pos)
  refine ⟨e', blks, hc, ?_⟩
  have hstart : (buildLevelWith faults records (some l)).run e =
      (createBlocks faults l 0 (d.partitions e.config.blockCapacity) >>= fun _ ↦ pure l).run e := by
    rw [buildLevelWith, hd]
    rfl
  rw [hstart]
  rcases hrun with ⟨hrun, hrecs, hno⟩ | ⟨hlen, hfault, hrun⟩
  · refine Or.inl ⟨?_, hrecs, by simpa using hno⟩
    rw [run_bind_of_ok hrun]
    rfl
  · exact Or.inr ⟨hlen, by simpa using hfault, run_bind_of_error hrun _⟩

end Engine

end EnhancedLetIndex
