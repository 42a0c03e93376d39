import EnhancedLetIndex.Engine.Levels

/-!
# Checking a level

The translation of `validate_level` of `builder.py`.  It reads every block of the level, and
accepts the level exactly when its blocks are its own, none of them is empty, their ranges
ascend and all but the last are full (`validateLevel_eq_ok`).
-/

namespace EnhancedLetIndex

variable {V : Type}

namespace RawBlock

/-- `min_key`. -/
def minKey (b : RawBlock V) : Option RecordKey := b.records.head?.map (·.key)

/-- `max_key`. -/
def maxKey (b : RawBlock V) : Option RecordKey := b.records.getLast?.map (·.key)

end RawBlock

/-- `LevelValidationError`. -/
inductive LevelValidationError where
  | duplicateBlocks (levelId : LevelId)
  | unmapped (levelId : LevelId) (blockId : BlockId)
  | wrongBlock (levelId : LevelId) (blockId held : BlockId)
  | emptyBlock (levelId : LevelId) (blockId : BlockId)
  | keys (levelId : LevelId) (blockId : BlockId) (left right : RecordKey)
  | ranges (levelId : LevelId) (leftMin leftMax rightMin rightMax : Option RecordKey)
  | notFull (levelId : LevelId) (blockId : BlockId) (size capacity : Nat)
  | finalSize (levelId : LevelId) (blockId : BlockId) (size capacity : Nat)
deriving DecidableEq, Repr

/-- What `validate_level` raises: an error of its own, or one of the engine it reads. -/
inductive ValidationError where
  | level (e : LevelValidationError)
  | engine (e : EngineError)
deriving DecidableEq, Repr

namespace Engine

/-- A program of the engine that checks it. -/
abbrev ValidateM (V : Type) := EStateM ValidationError (Engine V)

def onEngine {α : Type} (x : EngineM V α) : ValidateM V α := zoom id (fun e _ ↦ e) .engine x

/-- The block of a level, which is mapped, its own and not empty. -/
def validateBlock (levelId : LevelId) (blockId : BlockId) : ValidateM V (Block V) := do
  let e ← get
  if blockId ∉ e.mapping.logicalToPhysical then throw (.level (.unmapped levelId blockId))
  else
    let block ← onEngine (readBlock blockId)
    if block.blockId ≠ blockId then throw (.level (.wrongBlock levelId blockId block.blockId))
    else if block.isEmpty then throw (.level (.emptyBlock levelId blockId))
    else pure block

/-- Keys are strictly increasing within a block. -/
def validateKeys (levelId : LevelId) (block : Block V) : Except LevelValidationError Unit :=
  match firstNotIncreasing (block.records.map (·.key)) with
  | some (left, right) => .error (.keys levelId block.blockId left right)
  | none => .ok ()

/-- `left < right` of two ends of blocks, neither of which is empty. -/
def endBefore (left right : Option RecordKey) : Prop :=
  ∃ x ∈ left, ∃ y ∈ right, x < y

instance : DecidableRel endBefore := fun left right ↦
  match left, right with
  | some x, some y => decidable_of_iff (x < y) (by simp [endBefore])
  | none, _ => isFalse (by simp [endBefore])
  | some _, none => isFalse (by simp [endBefore])

/-- Neighboring ranges are strictly ordered. -/
def validateRanges (levelId : LevelId) : List (Block V) → Except LevelValidationError Unit
  | left :: right :: rest => do
    require (endBefore left.maxKey right.minKey)
      (.ranges levelId left.minKey left.maxKey right.minKey right.maxKey)
    validateRanges levelId (right :: rest)
  | _ => pure ()

/-- A block that isn't the last one is full. -/
def validateFull (levelId : LevelId) (block : Block V) : Except LevelValidationError Unit :=
  require (block.isFull = true) (.notFull levelId block.blockId block.size block.capacity)

/-- The size of the last block. -/
def validateFinal (levelId : LevelId) (capacity : Nat) (block : Block V) :
    Except LevelValidationError Unit :=
  require (¬ (block.size < 1 ∨ block.size > capacity))
    (.finalSize levelId block.blockId block.size capacity)

/-- The checks of `validate_level` on the blocks that it has read. -/
def validateBlocks (levelId : LevelId) (capacity : Nat) (blocks : List (Block V)) :
    Except LevelValidationError Unit := do
  blocks.forM (validateKeys levelId)
  validateRanges levelId blocks
  blocks.dropLast.forM (validateFull levelId)
  blocks.getLast?.toList.forM (validateFinal levelId capacity)

/-- `validate_level`. -/
def validateLevel (levelId : LevelId) : ValidateM V Unit := do
  let l ← onEngine (level levelId)
  if ¬ l.blockIds.Nodup then throw (.level (.duplicateBlocks levelId))
  else if l.blockIds = [] then pure ()
  else
    let blocks ← l.blockIds.mapM (validateBlock levelId)
    let e ← get
    liftExcept .level (validateBlocks levelId e.config.blockCapacity blocks)

/-! ## The checks on the blocks -/

variable {e : Engine V} {l : LevelId}

theorem validateKeys_eq_ok {block : Block V} : validateKeys l block = .ok () := by
  rw [validateKeys, firstNotIncreasing_eq_none.mpr block.valid.sorted.map_keys]

theorem endBefore_iff {left right : Block V} (hleft : left.records ≠ [])
    (hright : right.records ≠ []) : endBefore left.maxKey right.minKey ↔
      ∀ x ∈ left.records.getLast?, ∀ y ∈ right.records.head?, x.key < y.key := by
  rw [RawBlock.maxKey, RawBlock.minKey, List.getLast?_eq_some_getLast hleft,
    List.head?_eq_some_head hright]
  simp [endBefore]

theorem validateRanges_eq_ok {blocks : List (Block V)} :
    validateRanges l blocks = .ok () ↔
      blocks.IsChain fun left right ↦ endBefore left.maxKey right.minKey :=
  isChain_iff_of_require rfl (fun _ ↦ rfl) (fun _ _ _ ↦ rfl) blocks

/-- Blocks that follow one another: none is empty, their ranges ascend, all but the last are
full, and the last one is not too long. -/
structure Follow (capacity : Nat) (blocks : List (Block V)) : Prop where
  ascending : blocks.IsChain fun left right ↦ endBefore left.maxKey right.minKey
  full : ∀ b ∈ blocks.dropLast, b.isFull = true
  final : ∀ b ∈ blocks.getLast?, 1 ≤ b.size ∧ b.size ≤ capacity

/-- No blocks follow one another. -/
theorem Follow.nil {capacity : Nat} : Follow capacity ([] : List (Block V)) where
  ascending := .nil
  full := List.forall_mem_nil _
  final b hb := by cases hb

theorem validateBlocks_eq_ok {capacity : Nat} {blocks : List (Block V)} :
    validateBlocks l capacity blocks = .ok () ↔ Follow capacity blocks := by
  have hkeys : blocks.forM (validateKeys l) = .ok () :=
    forM_eq_ok_iff.mpr fun _ _ ↦ validateKeys_eq_ok
  have hfinal : blocks.getLast?.toList.forM (validateFinal l capacity) = .ok () ↔
      ∀ b ∈ blocks.getLast?, 1 ≤ b.size ∧ b.size ≤ capacity := by
    rw [forM_eq_ok_iff]
    simp only [Option.mem_toList, validateFinal, require_eq_ok, not_or, not_lt, Option.mem_def]
  rw [validateBlocks, hkeys, ok_bind]
  constructor
  · intro h
    obtain ⟨_, hranges, h⟩ := bind_eq_ok.mp h
    obtain ⟨_, hfull, h⟩ := bind_eq_ok.mp h
    exact ⟨validateRanges_eq_ok.mp hranges,
      fun b hb ↦ require_eq_ok.mp (forM_eq_ok_iff.mp hfull b hb), hfinal.mp h⟩
  · rintro ⟨hranges, hfull, h⟩
    have hfull' : blocks.dropLast.forM (validateFull l) = .ok () :=
      forM_eq_ok_iff.mpr fun b hb ↦ require_eq_ok.mpr (hfull b hb)
    rw [validateRanges_eq_ok.mpr hranges, ok_bind, hfull', ok_bind, hfinal.mpr h]

/-! ## Reading the blocks -/

theorem onEngine_eq_ok {α : Type} {x : EngineM V α} {a : α} {e' : Engine V} :
    (onEngine x).run e = .ok a e' ↔ x.run e = .ok a e' := by
  rw [onEngine, run_zoom_eq_ok]
  constructor
  · rintro ⟨t, h, rfl⟩
    exact h
  · intro h
    exact ⟨e', h, rfl⟩

/-- The block of a level is the one that is stored for it. -/
theorem validateBlock_eq_ok {b : BlockId} {blk : Block V} {e' : Engine V} :
    (validateBlock l b).run e = .ok blk e' ↔
      e.blockAt b = some blk ∧ blk.blockId = b ∧ blk.records ≠ [] ∧
        e' = e.afterReads (e.slotsOf [b]) := by
  have hempty {blk : Block V} : ¬ blk.isEmpty = true ↔ blk.records ≠ [] := by
    rw [RawBlock.isEmpty, List.isEmpty_iff]
  constructor
  · intro h
    obtain ⟨_, _, hget, h⟩ := run_bind_eq_ok.mp h
    cases hget
    obtain ⟨-, h⟩ := run_guard_eq_ok.mp h
    obtain ⟨blk', e₁, hread, h⟩ := run_bind_eq_ok.mp h
    obtain ⟨hat, s, hs, rfl⟩ := readBlock_eq_ok (onEngine_eq_ok.mp hread)
    obtain ⟨hid, h⟩ := run_guard_eq_ok.mp h
    obtain ⟨hne, h⟩ := run_guard_eq_ok.mp h
    cases h
    exact ⟨hat, not_not.mp hid, hempty.mp hne, by rw [slotsOf_cons hs]; rfl⟩
  · rintro ⟨hat, rfl, hne, rfl⟩
    obtain ⟨s, hs, hslot⟩ := blockAt_eq_some.mp hat
    rw [validateBlock, EStateM.run_bind, EStateM.run_get]
    refine run_guard_eq_ok.mpr ⟨not_not.mpr (Finmap.mem_of_lookup_eq_some hs), ?_⟩
    rw [run_bind_of_ok (onEngine_eq_ok.mpr (run_readBlock hs hslot)), slotsOf_cons hs]
    refine run_guard_eq_ok.mpr ⟨not_not.mpr rfl, run_guard_eq_ok.mpr ⟨hempty.mpr hne, ?_⟩⟩
    rfl

/-- The blocks of a level are those stored for it. -/
theorem mapM_validateBlock_eq_ok {ids : List BlockId} {blks : List (Block V)} {e' : Engine V} :
    (ids.mapM (validateBlock l)).run e = .ok blks e' ↔
      e.ReadAs ids blks ∧ blks.map (·.blockId) = ids ∧ (∀ blk ∈ blks, blk.records ≠ []) ∧
        e' = e.afterReads (e.slotsOf ids) := by
  induction ids generalizing e blks e' with
  | nil =>
    rw [List.mapM_nil, EStateM.run_pure]
    constructor
    · rintro ⟨⟩
      exact ⟨.nil, rfl, List.forall_mem_nil _, rfl⟩
    · rintro ⟨hread, -, -, rfl⟩
      cases hread
      rfl
  | cons b ids ih =>
    rw [List.mapM_cons]
    constructor
    · intro h
      obtain ⟨blk, e₁, hblk, h⟩ := run_bind_eq_ok.mp h
      obtain ⟨blks', e₂, hblks, h⟩ := run_bind_eq_ok.mp h
      cases h
      obtain ⟨hat, rfl, hne, rfl⟩ := validateBlock_eq_ok.mp hblk
      obtain ⟨hread, rfl, hnes, rfl⟩ := ih.mp hblks
      obtain ⟨s, hs, -⟩ := blockAt_eq_some.mp hat
      refine ⟨.cons hat (afterReads_readAs.mp hread), rfl, List.forall_mem_cons.mpr ⟨hne, hnes⟩, ?_⟩
      rw [afterReads_slotsOf, afterReads_append, slotsOf_cons hs, slotsOf_cons hs]
      rfl
    · rintro ⟨hread, hids, hne, rfl⟩
      cases hread with
      | @cons _ blk _ blks hat hread =>
      obtain ⟨hne, hnes⟩ := List.forall_mem_cons.mp hne
      rw [List.map_cons] at hids
      obtain ⟨hid, hids⟩ := List.cons.inj hids
      obtain ⟨s, hs, -⟩ := blockAt_eq_some.mp hat
      rw [run_bind_of_ok (validateBlock_eq_ok.mpr ⟨hat, hid, hne, rfl⟩),
        run_bind_of_ok (ih.mpr ⟨afterReads_readAs.mpr hread, hids, hnes, rfl⟩), afterReads_slotsOf,
        afterReads_append, slotsOf_cons hs, slotsOf_cons hs]
      rfl

/-- `validate_level` accepts an active level whose blocks are stored for it, are not empty and
follow one another.  It only reads them. -/
theorem validateLevel_eq_ok {e' : Engine V} :
    (validateLevel l).run e = .ok () e' ↔
      ∃ L blks, l ∉ e.retiredLevelIds ∧ e.levels.lookup l = some L ∧ e.ReadAs L.blockIds blks ∧
        blks.map (·.blockId) = L.blockIds ∧ (∀ blk ∈ blks, blk.records ≠ []) ∧
        Follow e.config.blockCapacity blks ∧ e' = e.afterReads (e.slotsOf L.blockIds) := by
  constructor
  · intro hrun
    obtain ⟨L, e₁, hL, h⟩ := run_bind_eq_ok.mp hrun
    obtain ⟨hret, hlookup, rfl⟩ := level_eq_ok.mp (onEngine_eq_ok.mp hL)
    obtain ⟨-, h⟩ := run_guard_eq_ok.mp h
    split_ifs at h with hnil
    · cases h
      refine ⟨L, [], hret, hlookup, ?_, hnil.symm, List.forall_mem_nil _, .nil, ?_⟩
      · rw [hnil]
        exact .nil
      · rw [hnil]
        exact (afterReads_nil _).symm
    · obtain ⟨blks, e₂, hblks, h⟩ := run_bind_eq_ok.mp h
      obtain ⟨hread, hids, hne, rfl⟩ := mapM_validateBlock_eq_ok.mp hblks
      obtain ⟨_, _, hget, h⟩ := run_bind_eq_ok.mp h
      cases hget
      obtain ⟨hcheck, rfl⟩ := liftExcept_eq_ok.mp h
      exact ⟨L, blks, hret, hlookup, hread, hids, hne, validateBlocks_eq_ok.mp hcheck, rfl⟩
  · rintro ⟨L, blks, hret, hlookup, hread, hids, hne, hfollow, rfl⟩
    rw [validateLevel, run_bind_of_ok (onEngine_eq_ok.mpr (run_level hlookup hret))]
    refine run_guard_eq_ok.mpr ⟨not_not.mpr L.nodup, ?_⟩
    split_ifs with hnil
    · rw [hnil]
      exact congrArg _ (afterReads_nil e).symm
    · rw [run_bind_of_ok (mapM_validateBlock_eq_ok.mpr ⟨hread, hids, hne, rfl⟩), EStateM.run_bind,
        EStateM.run_get]
      exact liftExcept_eq_ok.mpr ⟨validateBlocks_eq_ok.mpr hfollow, rfl⟩

/-! ## Canonical levels -/

/-- The blocks hold increasing keys, all are full but the last one, and that is not empty. -/
structure InOrder (blks : List (Block V)) : Prop where
  increasing : ((blockRecords blks).map (·.key)).Pairwise (· < ·)
  full : ∀ b ∈ blks.dropLast, b.isFull = true
  last : ∀ b ∈ blks.getLast?, b.isEmpty = false

/-- No blocks are in order. -/
theorem InOrder.nil : InOrder ([] : List (Block V)) where
  increasing := .nil
  full := List.forall_mem_nil _
  last b hb := by cases hb

section Canonical

variable {c : Nat} {blks : List (Block V)}

theorem isFull_iff {b : Block V} (hcap : b.capacity = c) :
    b.isFull = true ↔ b.records.length = c := by
  have hle := b.valid.size_le
  rw [RawBlock.isFull, RawBlock.size, decide_eq_true_eq, ← hcap]
  exact ⟨fun h ↦ le_antisymm hle h, ge_of_eq⟩

theorem isEmpty_eq_false {b : Block V} : b.isEmpty = false ↔ b.records ≠ [] := by
  rw [RawBlock.isEmpty, List.isEmpty_eq_false_iff]

/-- The order of the blocks, as `_read_level_records` checks it. -/
theorem canonicalBlocks_iff_inOrder (hcap : ∀ b ∈ blks, b.capacity = c) :
    CanonicalBlocks c blks ↔ InOrder blks := by
  have hpacked : Packed c (blks.map (·.records)) ↔
      (∀ b ∈ blks.dropLast, b.isFull = true) ∧ ∀ b ∈ blks.getLast?, b.isEmpty = false := by
    rw [packed_iff_dropLast, ← List.map_dropLast, List.getLast?_map, List.forall_mem_map,
      Option.forall_mem_map]
    refine and_congr (forall₂_congr fun b hb ↦ ?_) ?_
    · exact (isFull_iff (hcap b (List.dropLast_subset _ hb))).symm
    · refine forall₂_congr fun b hb ↦ ?_
      have hle : b.records.length ≤ c := hcap b (List.mem_of_getLast? hb) ▸ b.valid.size_le
      rw [isEmpty_eq_false, and_iff_left hle, Nat.one_le_iff_ne_zero, ne_eq,
        List.length_eq_zero_iff]
  constructor
  · intro h
    exact ⟨h.sorted.map_keys, (hpacked.mp h.packed).1, (hpacked.mp h.packed).2⟩
  · intro h
    exact ⟨hcap, hpacked.mpr ⟨h.full, h.last⟩, .of_map_keys h.increasing⟩

/-- The blocks of an ordered level are not empty. -/
theorem InOrder.ne_nil (h : InOrder blks) : ∀ b ∈ blks, b.records ≠ [] := by
  intro b hb
  obtain ⟨last, hlast⟩ := Option.ne_none_iff_exists'.mp
    (mt List.getLast?_eq_none_iff.mp (List.ne_nil_of_mem hb))
  rw [← List.dropLast_append_getLast? last hlast, List.mem_append, List.mem_singleton] at hb
  rcases hb with hb | rfl
  · have hfull := (isFull_iff rfl).mp (h.full b hb)
    exact List.ne_nil_of_length_pos (hfull ▸ b.valid.capacity_pos)
  · exact isEmpty_eq_false.mp (h.last b hlast)

/-- The keys of blocks increase when their ranges ascend. -/
theorem increasing_iff_ends (hne : ∀ b ∈ blks, b.records ≠ []) :
    ((blockRecords blks).map (·.key)).Pairwise (· < ·) ↔
      blks.IsChain fun left right ↦
        ∀ x ∈ left.records.getLast?, ∀ y ∈ right.records.head?, x.key < y.key := by
  have hkeys : (blockRecords blks).map (·.key) =
      (blks.map fun b ↦ b.records.map (·.key)).flatten := by
    rw [blockRecords, List.map_flatten, List.map_map]
    rfl
  have hnil : [] ∉ blks.map fun b ↦ b.records.map (·.key) := by
    intro hmem
    obtain ⟨b, hb, heq⟩ := List.mem_map.mp hmem
    exact hne b hb (List.map_eq_nil_iff.mp heq)
  have hblocks : ∀ l ∈ blks.map fun b ↦ b.records.map (·.key), l.IsChain (· < ·) :=
    List.forall_mem_map.mpr fun b _ ↦ b.valid.sorted.map_keys.isChain
  rw [hkeys, ← List.isChain_iff_pairwise, List.isChain_flatten hnil, and_iff_right hblocks,
    List.isChain_map]
  refine List.IsChain.iff fun left right ↦ ?_
  rw [List.getLast?_map, List.head?_map, Option.forall_mem_map]
  exact forall₂_congr fun x _ ↦ Option.forall_mem_map

/-- The order of the blocks, as `validate_level` checks it. -/
theorem follow_iff_inOrder (hcap : ∀ b ∈ blks, b.capacity = c) :
    ((∀ b ∈ blks, b.records ≠ []) ∧ Follow c blks) ↔ InOrder blks := by
  have hends (hne : ∀ b ∈ blks, b.records ≠ []) :
      (blks.IsChain fun left right ↦ endBefore left.maxKey right.minKey) ↔
        ((blockRecords blks).map (·.key)).Pairwise (· < ·) := by
    rw [increasing_iff_ends hne]
    exact List.IsChain.iff_of_mem_imp fun left right hleft hright ↦
      endBefore_iff (hne left hleft) (hne right hright)
  constructor
  · rintro ⟨hne, hfollow⟩
    exact ⟨(hends hne).mp hfollow.ascending, hfollow.full,
      fun b hb ↦ isEmpty_eq_false.mpr (hne b (List.mem_of_getLast? hb))⟩
  · intro h
    refine ⟨h.ne_nil, (hends h.ne_nil).mpr h.increasing, h.full, fun b hb ↦ ?_⟩
    have hmem := List.mem_of_getLast? hb
    exact ⟨List.length_pos_of_ne_nil (h.ne_nil b hmem), hcap b hmem ▸ b.valid.size_le⟩

end Canonical

end Engine

end EnhancedLetIndex
