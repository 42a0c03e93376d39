import EnhancedLetIndex.Engine.Lookup
import EnhancedLetIndex.Engine.Validate
import EnhancedLetIndex.Swat.Run

/-!
# Views of the blocks of a level

The constructors of `LogicalBlockSnapshot` and `LogicalBlockRunView`, and their agreement with
the two other checks of a level, `validate_level` and the one of `_read_level_records`: the
three accept the same levels (`canonical_checks_agree`).
-/

namespace EnhancedLetIndex

variable {V : Type}

/-- `ContentScheduleError`, by the check of a snapshot or of a run that raises it. -/
inductive RunViewError where
  | belowMinimum (name : String) (value minimum : Int)
  | aboveCapacity (blockId : BlockId) (size capacity : Nat)
  | keys (blockId : BlockId) (previous key : RecordKey)
  | capacity (blockId : BlockId) (capacity itemsPerBlock : Nat)
  | emptyBlock (blockId : BlockId)
  | duplicateBlocks
  | overlap (left right : BlockId)
  | notFull (blockId : BlockId) (size capacity : Nat)
  | finalSize (size capacity : Nat)
deriving DecidableEq, Repr

/-- The check of an integer that is at least `minimum`. -/
def requireAtLeast (value : Int) (name : String) (minimum : Nat) :
    Except RunViewError {n : Nat // minimum ≤ n} :=
  if h : (minimum : Int) ≤ value then .ok ⟨value.toNat, Int.toNat_le_toNat h⟩
  else .error (.belowMinimum name value minimum)

theorem requireAtLeast_of {n minimum : Nat} {name : String} (h : minimum ≤ n) :
    requireAtLeast n name minimum = .ok ⟨n, h⟩ := by
  rw [requireAtLeast, dif_pos (Int.ofNat_le.mpr h)]
  rfl

/-- A check that yields that it succeeds. -/
def checked (x : Except RunViewError Unit) : Except RunViewError (PLift (x = .ok ())) :=
  match x with
  | .ok () => .ok ⟨rfl⟩
  | .error e => .error e

theorem checked_bind_eq_ok {β : Type} {x : Except RunViewError Unit}
    {f : PLift (x = .ok ()) → Except RunViewError β} {b : β} :
    (checked x >>= f) = .ok b ↔ ∃ h : x = .ok (), f ⟨h⟩ = .ok b := by
  cases x with
  | error e =>
    constructor
    · rintro ⟨⟩
    · rintro ⟨⟨⟩, -⟩
  | ok u => exact ⟨fun h ↦ ⟨rfl, h⟩, fun ⟨_, h⟩ ↦ h⟩

/-- `LogicalBlockSnapshot.__post_init__`. -/
def LogicalBlockSnapshot.make (blockId : BlockId) (capacity : Int) (records : List (Record V)) :
    Except RunViewError (LogicalBlockSnapshot V) := do
  let ⟨capacity, capacity_pos⟩ ← requireAtLeast capacity "capacity" 1
  let ⟨length_le⟩ ← prove (records.length ≤ capacity)
    (.aboveCapacity blockId records.length capacity)
  match h : firstNotIncreasing (records.map (·.key)) with
  | some (previous, key) => throw (.keys blockId previous key)
  | none => pure {
      blockId, capacity, records, capacity_pos, length_le
      sorted := firstNotIncreasing_eq_none.mp h }

/-- `LogicalBlockSnapshot.from_block`. -/
def LogicalBlockSnapshot.fromBlock (block : Block V) :
    Except RunViewError (LogicalBlockSnapshot V) :=
  make block.blockId block.capacity block.records

namespace LogicalBlockRunView

/-- A block of a run, as a snapshot. -/
def snapshot : Block V ⊕ LogicalBlockSnapshot V → Except RunViewError (LogicalBlockSnapshot V)
  | .inl block => LogicalBlockSnapshot.fromBlock block
  | .inr snapshot => pure snapshot

/-- A block of a run has the capacity of the run, and isn't empty. -/
def checkBlock (itemsPerBlock : Nat) (b : LogicalBlockSnapshot V) : Except RunViewError Unit := do
  require (b.capacity = itemsPerBlock) (.capacity b.blockId b.capacity itemsPerBlock)
  require (b.records ≠ []) (.emptyBlock b.blockId)

/-- Neighbouring blocks do not overlap. -/
def checkOverlap : List (LogicalBlockSnapshot V) → Except RunViewError Unit
  | left :: right :: rest => do
    require (∀ x ∈ left.records.getLast?, ∀ y ∈ right.records.head?, x.key < y.key)
      (.overlap left.blockId right.blockId)
    checkOverlap (right :: rest)
  | _ => pure ()

/-- A block that isn't the last one is full. -/
def checkFull (itemsPerBlock : Nat) (b : LogicalBlockSnapshot V) : Except RunViewError Unit :=
  require (b.records.length ≥ b.capacity) (.notFull b.blockId b.records.length itemsPerBlock)

/-- The size of the last block. -/
def checkFinal (itemsPerBlock : Nat) (b : LogicalBlockSnapshot V) : Except RunViewError Unit :=
  require (1 ≤ b.records.length ∧ b.records.length ≤ itemsPerBlock)
    (.finalSize b.records.length itemsPerBlock)

theorem checkBlock_eq_ok {c : Nat} {b : LogicalBlockSnapshot V} :
    checkBlock c b = .ok () ↔ b.capacity = c ∧ b.records ≠ [] := by
  rw [checkBlock, require_bind_eq_ok, require_eq_ok]

theorem checkOverlap_eq_ok {blocks : List (LogicalBlockSnapshot V)} :
    checkOverlap blocks = .ok () ↔ blocks.IsChain fun left right ↦
      ∀ x ∈ left.records.getLast?, ∀ y ∈ right.records.head?, x.key < y.key :=
  isChain_iff_of_require rfl (fun _ ↦ rfl) (fun _ _ _ ↦ rfl) blocks

theorem length_eq_of_checkFull {c : Nat} {b : LogicalBlockSnapshot V}
    (h : checkFull c b = .ok ()) : b.records.length = b.capacity :=
  le_antisymm b.length_le (require_eq_ok.mp h)

/-- `LogicalBlockRunView.__post_init__`. -/
def make (level : Int) (blocks : List (Block V ⊕ LogicalBlockSnapshot V)) (itemsPerBlock : Int) :
    Except RunViewError (LogicalBlockRunView V) := do
  let ⟨level, _⟩ ← requireAtLeast level "level" 0
  let ⟨itemsPerBlock, itemsPerBlock_pos⟩ ← requireAtLeast itemsPerBlock "items_per_block" 1
  let blocks ← blocks.mapM snapshot
  let ⟨hblocks⟩ ← checked (blocks.forM (checkBlock itemsPerBlock))
  let ⟨nodup⟩ ← prove (blocks.map (·.blockId)).Nodup .duplicateBlocks
  let ⟨hoverlap⟩ ← checked (checkOverlap blocks)
  let ⟨hfull⟩ ← checked (blocks.dropLast.forM (checkFull itemsPerBlock))
  blocks.getLast?.toList.forM (checkFinal itemsPerBlock)
  pure {
    level, blocks, itemsPerBlock, itemsPerBlock_pos, nodup
    capacity_eq := fun b hb ↦ (checkBlock_eq_ok.mp (forM_eq_ok_iff.mp hblocks b hb)).1
    records_ne_nil := fun b hb ↦ (checkBlock_eq_ok.mp (forM_eq_ok_iff.mp hblocks b hb)).2
    ascending := checkOverlap_eq_ok.mp hoverlap
    full := fun b hb ↦ length_eq_of_checkFull (forM_eq_ok_iff.mp hfull b hb) }

end LogicalBlockRunView

/-! ## The snapshots of blocks -/

/-- The snapshot of a block: it is valid, and so passes every check. -/
def LogicalBlockSnapshot.ofBlock (block : Block V) : LogicalBlockSnapshot V where
  blockId := block.blockId
  capacity := block.capacity
  records := block.records
  capacity_pos := block.valid.capacity_pos
  length_le := block.valid.size_le
  sorted := block.valid.sorted.map_keys

theorem LogicalBlockSnapshot.fromBlock_eq_ok (block : Block V) :
    fromBlock block = .ok (ofBlock block) := by
  have hsorted := firstNotIncreasing_eq_none.mpr block.valid.sorted.map_keys
  have hpos : 1 ≤ block.capacity := block.valid.capacity_pos
  rw [fromBlock, make, requireAtLeast_of hpos, ok_bind]
  dsimp only
  have hsize : block.records.length ≤ block.capacity := block.valid.size_le
  rw [prove_of hsize, ok_bind]
  split
  next hkeys =>
    rw [hsorted] at hkeys
    cases hkeys
  next => rfl

namespace LogicalBlockRunView

open Engine

theorem mapM_snapshot (blks : List (Block V)) :
    (blks.map Sum.inl).mapM snapshot = .ok (blks.map LogicalBlockSnapshot.ofBlock) := by
  have h := mapM_eq_ok (f := snapshot) (l := blks.map Sum.inl)
    (g := Sum.elim LogicalBlockSnapshot.ofBlock id)
    (List.forall_mem_map.mpr fun b _ ↦ LogicalBlockSnapshot.fromBlock_eq_ok b)
  rwa [List.map_map] at h

/-- The checks of a run, on the snapshots of blocks. -/
theorem forM_checkBlock_eq_ok {blks : List (Block V)} {c : Nat} :
    (blks.map LogicalBlockSnapshot.ofBlock).forM (checkBlock c) = .ok () ↔
      ∀ b ∈ blks, b.capacity = c ∧ b.records ≠ [] := by
  rw [forM_eq_ok_iff, List.forall_mem_map]
  exact forall₂_congr fun b _ ↦ checkBlock_eq_ok

theorem checkOverlap_map_eq_ok {blks : List (Block V)} (hne : ∀ b ∈ blks, b.records ≠ []) :
    checkOverlap (blks.map LogicalBlockSnapshot.ofBlock) = .ok () ↔
      ((blockRecords blks).map (·.key)).Pairwise (· < ·) := by
  rw [checkOverlap_eq_ok, List.isChain_map, increasing_iff_ends hne]
  exact Iff.rfl

theorem forM_checkFull_eq_ok {blks : List (Block V)} {c : Nat} :
    (blks.map LogicalBlockSnapshot.ofBlock).dropLast.forM (checkFull c) = .ok () ↔
      ∀ b ∈ blks.dropLast, b.isFull = true := by
  rw [forM_eq_ok_iff, ← List.map_dropLast, List.forall_mem_map]
  refine forall₂_congr fun b _ ↦ ?_
  rw [checkFull, require_eq_ok, RawBlock.isFull, decide_eq_true_eq]
  exact Iff.rfl

/-- A run of blocks is accepted exactly when they are distinct and in order. -/
theorem exists_make_iff {level : Nat} {blks : List (Block V)} {c : Nat} (hc : 1 ≤ c)
    (hcap : ∀ b ∈ blks, b.capacity = c) (hnodup : (blks.map (·.blockId)).Nodup) :
    (∃ run, make level (blks.map .inl) c = .ok run) ↔ InOrder blks := by
  have hids : ((blks.map LogicalBlockSnapshot.ofBlock).map (·.blockId)).Nodup := by
    rwa [List.map_map]
  rw [make, requireAtLeast_of (Nat.zero_le level), ok_bind]
  dsimp only
  rw [requireAtLeast_of hc, ok_bind]
  dsimp only
  rw [mapM_snapshot, ok_bind]
  constructor
  · rintro ⟨run, h⟩
    obtain ⟨hblocks, h⟩ := checked_bind_eq_ok.mp h
    obtain ⟨_, h⟩ := prove_bind_eq_ok.mp h
    obtain ⟨hoverlap, h⟩ := checked_bind_eq_ok.mp h
    obtain ⟨hfull, h⟩ := checked_bind_eq_ok.mp h
    have hne : ∀ b ∈ blks, b.records ≠ [] := fun b hb ↦ (forM_checkBlock_eq_ok.mp hblocks b hb).2
    exact ⟨(checkOverlap_map_eq_ok hne).mp hoverlap, forM_checkFull_eq_ok.mp hfull,
      fun b hb ↦ isEmpty_eq_false.mpr (hne b (List.mem_of_getLast? hb))⟩
  · intro h
    have hne := h.ne_nil
    have hfinal : (blks.map LogicalBlockSnapshot.ofBlock).getLast?.toList.forM (checkFinal c) =
        .ok () := by
      rw [forM_eq_ok_iff, List.getLast?_map]
      intro b hb
      rw [Option.mem_toList, Option.map_eq_some_iff] at hb
      obtain ⟨blk, hblk, rfl⟩ := hb
      have hmem := List.mem_of_getLast? hblk
      exact require_eq_ok.mpr ⟨List.length_pos_of_ne_nil (hne blk hmem),
        hcap blk hmem ▸ blk.valid.size_le⟩
    have hblocks := forM_checkBlock_eq_ok.mpr fun b hb ↦ ⟨hcap b hb, hne b hb⟩
    have hoverlap := (checkOverlap_map_eq_ok hne).mpr h.increasing
    have hfull := forM_checkFull_eq_ok (c := c).mpr h.full
    exact ⟨_, checked_bind_eq_ok.mpr ⟨hblocks, prove_bind_eq_ok.mpr ⟨hids,
      checked_bind_eq_ok.mpr ⟨hoverlap, checked_bind_eq_ok.mpr ⟨hfull,
        bind_eq_ok.mpr ⟨⟨⟩, hfinal, rfl⟩⟩⟩⟩⟩⟩

end LogicalBlockRunView

/-- `validate_level`, `_read_level_records` and the view of its blocks accept the same levels:
those without blocks, and those whose blocks are in order. -/
theorem canonical_checks_agree {e : Engine V} {l : LevelId} {L : Level} {blks : List (Block V)}
    (hactive : l ∉ e.retiredLevelIds) (hL : e.levels.lookup l = some L)
    (hread : e.ReadAs L.blockIds blks) (hids : blks.map (·.blockId) = L.blockIds)
    (hcap : ∀ b ∈ blks, b.capacity = e.config.blockCapacity) (role : String) (level : Nat) :
    ((∃ e', (Engine.validateLevel l).run e = .ok () e') ↔
        L.blockIds = [] ∨ Engine.InOrder blks) ∧
      ((∃ records e', (Engine.readLevelRecords L role).run e = .ok records e') ↔
        L.blockIds = [] ∨ Engine.InOrder blks) ∧
      ((∃ run, LogicalBlockRunView.make level (blks.map .inl) e.config.blockCapacity = .ok run) ↔
        L.blockIds = [] ∨ Engine.InOrder blks) := by
  have hempty : L.blockIds = [] ∨ Engine.InOrder blks ↔ Engine.InOrder blks := by
    refine or_iff_right_of_imp fun hnil ↦ ?_
    rw [← hids, List.map_eq_nil_iff] at hnil
    rw [hnil]
    exact .nil
  rw [hempty]
  refine ⟨?_, ?_, LogicalBlockRunView.exists_make_iff e.config.blockCapacity_pos hcap
    (hids ▸ L.nodup)⟩
  · constructor
    · rintro ⟨e', h⟩
      obtain ⟨L', blks', -, hL', hread', -, hne, hfollow, -⟩ := Engine.validateLevel_eq_ok.mp h
      cases hL.symm.trans hL'
      cases hread.unique hread'
      exact (Engine.follow_iff_inOrder hcap).mp ⟨hne, hfollow⟩
    · intro h
      obtain ⟨hne, hfollow⟩ := (Engine.follow_iff_inOrder hcap).mpr h
      exact ⟨_, Engine.validateLevel_eq_ok.mpr
        ⟨L, blks, hactive, hL, hread, hids, hne, hfollow, rfl⟩⟩
  · constructor
    · rintro ⟨records, e', h⟩
      obtain ⟨blks', hread', hcanon, -, -⟩ := Engine.readLevelRecords_eq_ok.mp h
      cases hread.unique hread'
      exact (Engine.canonicalBlocks_iff_inOrder hcap).mp hcanon
    · intro h
      exact ⟨_, _, Engine.readLevelRecords_eq_ok.mpr
        ⟨blks, hread, (Engine.canonicalBlocks_iff_inOrder hcap).mpr h, rfl, rfl⟩⟩

/-- A level whose first block isn't full is refused three times. -/
theorem canonical_checks_agree_shortBlock :
    (¬ ∃ e', (Engine.validateLevel ⟨0⟩).run Engine.shortBlock = .ok () e') ∧
      (¬ ∃ records e', (Engine.readLevelRecords ⟨⟨0⟩, [⟨0⟩, ⟨1⟩], by decide⟩ "newer").run
        Engine.shortBlock = .ok records e') ∧
      ¬ ∃ run, LogicalBlockRunView.make 0 (Engine.shortBlocks.map .inl) 2 = .ok run := by
  obtain ⟨hvalidate, hread, hview⟩ := canonical_checks_agree (e := Engine.shortBlock)
    (L := ⟨⟨0⟩, [⟨0⟩, ⟨1⟩], by decide⟩) (l := ⟨0⟩)
    (by decide +kernel) (by decide +kernel)
    (show Engine.shortBlock.ReadAs [⟨0⟩, ⟨1⟩] Engine.shortBlocks from
      .cons (by decide +kernel) (.cons (by decide +kernel) .nil)) rfl (by decide) "newer" 0
  have hnot : ¬ ([⟨0⟩, ⟨1⟩] = ([] : List BlockId) ∨ Engine.InOrder Engine.shortBlocks) := by
    rintro (hnil | horder)
    · cases hnil
    · exact absurd (horder.full _ List.mem_cons_self) (by decide)
  exact ⟨mt hvalidate.mp hnot, mt hread.mp hnot, mt hview.mp hnot⟩

end EnhancedLetIndex
