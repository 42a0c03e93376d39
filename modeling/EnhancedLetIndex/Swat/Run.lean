import EnhancedLetIndex.Identifiers
import EnhancedLetIndex.Swat.Plan

/-!
# Runs of blocks and what is bound to them

`LogicalBlockRunView`, `BoundBlockBin`, the interior points and `BoundBlockAllocation` of
`content_schedule.py`.  Each carries what its constructor checks as fields.  The constructors
that the program calls are the functions `make`.
-/

namespace EnhancedLetIndex

/-- `SIDES`: the source is the newer level. -/
inductive Side where
  | source
  | target
deriving DecidableEq, Repr

/-- `ContentScheduleError`, by the check that raises it. -/
inductive ScheduleError where
  | blockCount (plan run : Nat)
  | belowMinimum (name : String) (value minimum : Int)
  | boundBlocks (bin real held : Nat)
  | interval (bin start stop real : Nat)
  | slots (bin real dummy capacity : Nat)
  | loadAboveCapacity (bin load capacity : Nat)
  | keysNotIncreasing (bin : Nat)
  | boundBins (planned bound : Nat)
  | binOrder
  | pointsUnsampled
  | interiorCount (held bins : Nat)
  | taggedCount (held bins : Nat)
  | taggedSide (side : Side)
  | alreadySampled
  | samplerOutside (index : Int) (records : Nat)
  | sideSlot (side : Side)
  | notSampled (side : Side)
  | readOutside
  | notOnce (side : Side)
  | sequence (expected held : Nat)
deriving DecidableEq, Repr

/-! ## Runs -/

/-- `LogicalBlockSnapshot`. -/
structure LogicalBlockSnapshot (V : Type) where
  blockId : BlockId
  capacity : Nat
  records : List (Record V)
  capacity_pos : 1 ≤ capacity
  length_le : records.length ≤ capacity
  sorted : (records.map (·.key)).Pairwise (· < ·)

/-- `LogicalBlockRunView`: blocks that are full but for the last, with ascending keys. -/
structure LogicalBlockRunView (V : Type) where
  level : Nat
  blocks : List (LogicalBlockSnapshot V)
  itemsPerBlock : Nat
  itemsPerBlock_pos : 1 ≤ itemsPerBlock
  capacity_eq : ∀ b ∈ blocks, b.capacity = itemsPerBlock
  records_ne_nil : ∀ b ∈ blocks, b.records ≠ []
  nodup : (blocks.map (·.blockId)).Nodup
  ascending : blocks.IsChain fun left right ↦
    ∀ x ∈ left.records.getLast?, ∀ y ∈ right.records.head?, x.key < y.key
  full : ∀ b ∈ blocks.dropLast, b.records.length = b.capacity

namespace LogicalBlockSnapshot

variable {V : Type} (b : LogicalBlockSnapshot V)

theorem pairwise_le : b.records.Pairwise fun x y ↦ x.key ≤ y.key :=
  (List.pairwise_map.mp b.sorted).imp le_of_lt

theorem le_getLast {x : Record V} (hx : x ∈ b.records) :
    x.key ≤ (b.records.getLast (List.ne_nil_of_mem hx)).key := by
  have : Std.Refl fun x y : Record V ↦ x.key ≤ y.key := ⟨fun _ ↦ le_rfl⟩
  exact b.pairwise_le.rel_getLast hx

theorem head_le {x : Record V} (hx : x ∈ b.records) :
    (b.records.head (List.ne_nil_of_mem hx)).key ≤ x.key := by
  have : Std.Refl fun x y : Record V ↦ x.key ≤ y.key := ⟨fun _ ↦ le_rfl⟩
  exact b.pairwise_le.rel_head hx

/-- Blocks follow each other: every key of the first is below every key of the second. -/
def Before (left right : LogicalBlockSnapshot V) : Prop :=
  right.records ≠ [] ∧ ∀ x ∈ left.records, ∀ y ∈ right.records, x.key < y.key

instance : IsTrans (LogicalBlockSnapshot V) Before where
  trans a b c hab hbc := by
    refine ⟨hbc.1, fun x hx z hz ↦ ?_⟩
    obtain ⟨y, hy⟩ := List.exists_mem_of_ne_nil _ hab.1
    exact (hab.2 x hx y hy).trans (hbc.2 y hy z hz)

end LogicalBlockSnapshot

namespace LogicalBlockRunView

variable {V : Type} (run : LogicalBlockRunView V)

/-- `block_count`. -/
def blockCount : Nat := run.blocks.length

/-- `records`. -/
def records : List (Record V) := run.blocks.flatMap (·.records)

/-- Every block of a run is before every later one. -/
theorem pairwise_before : run.blocks.Pairwise LogicalBlockSnapshot.Before := by
  apply List.isChain_iff_pairwise.mp
  have hne := run.records_ne_nil
  have hchain := run.ascending
  generalize run.blocks = blocks at hne hchain
  induction hchain with
  | nil => exact .nil
  | singleton b => exact .singleton b
  | @cons_cons left right blocks hends _ ih =>
    obtain ⟨hleft, hrest⟩ := List.forall_mem_cons.mp hne
    refine .cons_cons ⟨hrest right List.mem_cons_self, fun x hx y hy ↦ ?_⟩ (ih hrest)
    have hlast := hends _ (List.getLast?_eq_some_getLast hleft) _
      (List.head?_eq_some_head (List.ne_nil_of_mem hy))
    exact (left.le_getLast hx).trans_lt (hlast.trans_le (right.head_le hy))

/-- The keys of some blocks of a run ascend, when the blocks are in the order of the run. -/
theorem sorted_of_sublist {blocks : List (LogicalBlockSnapshot V)}
    (h : blocks.Sublist run.blocks) :
    ((blocks.flatMap (·.records)).map (·.key)).Pairwise (· < ·) := by
  rw [List.pairwise_map, List.pairwise_flatMap]
  refine ⟨fun b _ ↦ List.pairwise_map.mp b.sorted, ?_⟩
  exact (run.pairwise_before.sublist h).imp fun hbefore ↦ hbefore.2

end LogicalBlockRunView

end EnhancedLetIndex
