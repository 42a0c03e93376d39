import EnhancedLetIndex.Basic.SortedUnion
import EnhancedLetIndex.Reference.Profile

/-!
# The slots of the levels

`SlotProjection` of `letindex_ref.py`: every level owns a region of consecutive slots and the
regions follow each other in ascending order of level.  The regions tile the slots from the
base on (`flatMap_slots`), so `slot` and `locate` are inverse to each other.
-/

namespace EnhancedLetIndex

/-- The `n` consecutive integers from `start` on. -/
def intRange (start : Int) (n : Nat) : List Int := (List.range n).map fun i : Nat ↦ start + i

theorem mem_intRange {start slot : Int} {n : Nat} :
    slot ∈ intRange start n ↔ start ≤ slot ∧ slot < start + n := by
  rw [intRange, List.mem_map]
  constructor
  · rintro ⟨i, hi, rfl⟩
    have := List.mem_range.mp hi
    omega
  · rintro ⟨hlo, hhi⟩
    exact ⟨(slot - start).toNat, List.mem_range.mpr (by omega), by omega⟩

/-- A range goes on where its first part ends. -/
theorem intRange_add (start : Int) (m n : Nat) :
    intRange start (m + n) = intRange start m ++ intRange (start + m) n := by
  rw [intRange, intRange, intRange, List.range_add, List.map_append, List.map_map]
  congr 1
  refine List.map_congr_left fun i _ ↦ ?_
  show start + ((m + i : Nat) : Int) = start + m + i
  omega

/-- The first part of a range that ends with `x` is the range up to `x`. -/
theorem intRange_of_start {start x : Int} {n : Nat} {before rest : List Int}
    (h : intRange start n = (before ++ [x]) ++ rest) :
    before ++ [x] = intRange start (x + 1 - start).toNat := by
  have hlen : before.length < (intRange start n).length := by
    rw [h]
    simp
  have hget : (intRange start n)[before.length] = x := by simp [h]
  have hx : start + (before.length : Int) = x := by
    rw [← hget]
    simp [intRange]
  have hcount : (x + 1 - start).toNat = before.length + 1 := by omega
  have hn : before.length < n := by simpa [intRange] using hlen
  calc before ++ [x] = (intRange start n).take (before.length + 1) := by
        rw [h, List.take_left' (by simp)]
    _ = intRange start (x + 1 - start).toNat := by
        rw [hcount, intRange, ← List.map_take, List.take_range, Nat.min_eq_left hn]
        rfl

/-- `LevelRegion`: the slots of one level. -/
structure LevelRegion where
  level : Int
  regionStart : Int
  blockCount : Nat
deriving DecidableEq, Repr

namespace LevelRegion

/-- `region_end`. -/
def regionEnd (r : LevelRegion) : Int := r.regionStart + r.blockCount

/-- Whether a slot lies in the region. -/
def Contains (r : LevelRegion) (slot : Int) : Prop := r.regionStart ≤ slot ∧ slot < r.regionEnd

instance (r : LevelRegion) (slot : Int) : Decidable (r.Contains slot) :=
  inferInstanceAs (Decidable (_ ∧ _))

/-- The slots of a region in ascending order. -/
def slots (r : LevelRegion) : List Int := intRange r.regionStart r.blockCount

theorem contains_add {r : LevelRegion} {offset : Nat} (h : offset < r.blockCount) :
    r.Contains (r.regionStart + offset) := by
  unfold Contains regionEnd
  omega

theorem mem_slots {r : LevelRegion} {slot : Int} : slot ∈ r.slots ↔ r.Contains slot :=
  mem_intRange

end LevelRegion

/-- `SlotProjection`. -/
structure SlotProjection where
  regions : List LevelRegion
  base : Int
deriving DecidableEq, Repr

namespace SlotProjection

/-- The loop of `from_block_counts`: one region after the other from `cursor` on. -/
def regionsFrom : Int → List (Int × Nat) → List LevelRegion
  | _, [] => []
  | cursor, (level, count) :: counts =>
    ⟨level, cursor, count⟩ :: regionsFrom (cursor + count) counts

/-- `from_block_counts`. -/
def fromBlockCounts (counts : List (Int × Nat)) (base : Int := 0) : SlotProjection :=
  ⟨regionsFrom base (counts.insertionSort fun a b ↦ a.1 ≤ b.1), base⟩

/-- `region`. -/
def region (proj : SlotProjection) (level : Int) : Except ReferenceError LevelRegion :=
  match findKey LevelRegion.level level proj.regions with
  | some r => .ok r
  | none => .error (.noRegion level)

/-- `total_blocks`. -/
def totalBlocks (proj : SlotProjection) : Nat := (proj.regions.map (·.blockCount)).sum

/-- `slot`. -/
def slot (proj : SlotProjection) (level : Int) (offset : Nat) : Except ReferenceError SlotId := do
  let r ← proj.region level
  require (offset < r.blockCount) (.noBlockOffset level offset r.blockCount)
  pure ⟨r.regionStart + offset⟩

/-- `locate`: the first region that contains the slot. -/
def locate (proj : SlotProjection) (slot : SlotId) : Except ReferenceError (Int × Nat) :=
  match proj.regions.find? (·.Contains slot.value) with
  | some r => .ok (r.level, (slot.value - r.regionStart).toNat)
  | none => .error (.outsideProjection slot.value)

/-! ## The regions tile the slots -/

variable {counts : List (Int × Nat)} {cursor : Int}

theorem map_regionsFrom (cursor : Int) (counts : List (Int × Nat)) :
    (regionsFrom cursor counts).map (fun r ↦ (r.level, r.blockCount)) = counts := by
  induction counts generalizing cursor with
  | nil => rfl
  | cons x counts ih => rw [regionsFrom, List.map_cons, ih]

theorem map_level_regionsFrom (cursor : Int) (counts : List (Int × Nat)) :
    (regionsFrom cursor counts).map (·.level) = counts.map Prod.fst := by
  conv_rhs => rw [← map_regionsFrom cursor counts, List.map_map]
  rfl

theorem map_blockCount_regionsFrom (cursor : Int) (counts : List (Int × Nat)) :
    (regionsFrom cursor counts).map (·.blockCount) = counts.map Prod.snd := by
  conv_rhs => rw [← map_regionsFrom cursor counts, List.map_map]
  rfl

/-- One region after the other, the slots are consecutive. -/
theorem flatMap_slots_regionsFrom (cursor : Int) (counts : List (Int × Nat)) :
    (regionsFrom cursor counts).flatMap LevelRegion.slots =
      intRange cursor (counts.map Prod.snd).sum := by
  induction counts generalizing cursor with
  | nil => rfl
  | cons x counts ih =>
    rw [regionsFrom, List.flatMap_cons, ih, List.map_cons, List.sum_cons, intRange_add]
    rfl

theorem regionStart_ge {r : LevelRegion} (h : r ∈ regionsFrom cursor counts) :
    cursor ≤ r.regionStart := by
  induction counts generalizing cursor with
  | nil => cases h
  | cons x counts ih =>
    rcases List.mem_cons.mp h with rfl | h
    · exact le_rfl
    · have := ih h
      omega

/-- A slot belongs to one region, which the scan of the regions finds. -/
theorem find?_contains {r : LevelRegion} (h : r ∈ regionsFrom cursor counts) {slot : Int}
    (hslot : r.Contains slot) : (regionsFrom cursor counts).find? (·.Contains slot) = some r := by
  induction counts generalizing cursor with
  | nil => cases h
  | cons x counts ih =>
    rw [regionsFrom]
    rcases List.mem_cons.mp h with rfl | h
    · exact List.find?_cons_of_pos (decide_eq_true hslot)
    · rw [List.find?_cons_of_neg, ih h]
      have hstart := regionStart_ge h
      intro hmem
      have hhi : slot < cursor + x.2 := (of_decide_eq_true hmem).2
      exact absurd hslot.1 (by omega)

/-- A projection whose regions were laid out for block counts of distinct levels. -/
structure Tiles (proj : SlotProjection) (counts : List (Int × Nat)) : Prop where
  regions : proj.regions = regionsFrom proj.base counts
  nodup : (counts.map Prod.fst).Nodup

theorem tiles_fromBlockCounts (hnodup : (counts.map Prod.fst).Nodup) (base : Int) :
    (fromBlockCounts counts base).Tiles (counts.insertionSort fun a b ↦ a.1 ≤ b.1) :=
  ⟨rfl, ((List.perm_insertionSort _ _).map Prod.fst).nodup_iff.mpr hnodup⟩

namespace Tiles

variable {proj : SlotProjection} (h : proj.Tiles counts)

include h

/-- The regions are the block counts. -/
theorem mem_iff {level : Int} {count : Nat} :
    (level, count) ∈ counts ↔ ∃ r ∈ proj.regions, r.level = level ∧ r.blockCount = count := by
  conv_lhs => rw [← map_regionsFrom proj.base counts, ← h.regions]
  simp only [List.mem_map, Prod.mk.injEq]

theorem region_eq {r : LevelRegion} (hr : r ∈ proj.regions) : proj.region r.level = .ok r := by
  have hnodup : (proj.regions.map (·.level)).Nodup := by
    rw [h.regions, map_level_regionsFrom]
    exact h.nodup
  rw [region, (findKey_eq_some hnodup).mpr ⟨hr, rfl⟩]

theorem slot_eq {r : LevelRegion} (hr : r ∈ proj.regions) {offset : Nat}
    (hoffset : offset < r.blockCount) :
    proj.slot r.level offset = .ok ⟨r.regionStart + offset⟩ := by
  rw [slot, h.region_eq hr, ok_bind, require_of hoffset]
  rfl

theorem locate_eq {r : LevelRegion} (hr : r ∈ proj.regions) {slot : SlotId}
    (hslot : r.Contains slot.value) :
    proj.locate slot = .ok (r.level, (slot.value - r.regionStart).toNat) := by
  rw [locate, h.regions, find?_contains (h.regions ▸ hr) hslot]

/-- The slots of the regions are the slots from the base on, each once and in order. -/
theorem flatMap_slots :
    proj.regions.flatMap LevelRegion.slots = intRange proj.base proj.totalBlocks := by
  rw [totalBlocks, h.regions, flatMap_slots_regionsFrom, map_blockCount_regionsFrom]

theorem exists_region {slot : Int} (hlo : proj.base ≤ slot)
    (hhi : slot < proj.base + proj.totalBlocks) : ∃ r ∈ proj.regions, r.Contains slot := by
  have hmem : slot ∈ proj.regions.flatMap LevelRegion.slots := by
    rw [h.flatMap_slots]
    exact mem_intRange.mpr ⟨hlo, hhi⟩
  obtain ⟨r, hr, hslot⟩ := List.mem_flatMap.mp hmem
  exact ⟨r, hr, LevelRegion.mem_slots.mp hslot⟩

theorem slot_lt {r : LevelRegion} (hr : r ∈ proj.regions) {slot : Int} (hslot : r.Contains slot) :
    proj.base ≤ slot ∧ slot < proj.base + proj.totalBlocks := by
  have hmem : slot ∈ proj.regions.flatMap LevelRegion.slots :=
    List.mem_flatMap.mpr ⟨r, hr, LevelRegion.mem_slots.mpr hslot⟩
  rw [h.flatMap_slots] at hmem
  exact mem_intRange.mp hmem

end Tiles

end SlotProjection

end EnhancedLetIndex
