import Mathlib.Tactic
import EnhancedLetIndex.Basic.EndToEnd
import EnhancedLetIndex.Basic.Except

/-!
# The plan of the bins of a run

`BlockBinPlan` and `BlockAllocationPlan` of `bin_allocator.py`.  A plan carries what its
constructor checks as fields, and the constructor is `make`, which takes any integers.  It checks
the counts of every bin and their total, and nothing about where the intervals lie.
-/

namespace EnhancedLetIndex

/-- `BlockAllocationError`, by the check that raises it, with `InsufficientSampledCapacity` and
the index error of the lists. -/
inductive AllocationError where
  | belowMinimum (name : String) (value minimum : Int)
  | loadAboveCapacity (bin load capacity : Nat)
  | realAboveLoad (bin real load : Nat)
  | slots (bin real dummy capacity : Nat)
  | interval (bin start stop real : Nat)
  | binCount (reported held : Nat)
  | loadCount (reported held : Nat)
  | noisyCount (expected held : Nat)
  | notCovered
  | loadOutside (load capacity : Int)
  | notFinite
  | insufficientSampledCapacity (blockCount : Nat) (sampledCapacity : Int)
    (binCount capacity seed : Nat)
  | index
deriving DecidableEq, Repr

/-- `_require_plain_int` with a minimum. -/
def requirePlainInt (value : Int) (name : String) (minimum : Nat) :
    Except AllocationError {n : Nat // minimum ≤ n} :=
  if h : (minimum : Int) ≤ value then .ok ⟨value.toNat, by omega⟩
  else .error (.belowMinimum name value minimum)

theorem requirePlainInt_of {n minimum : Nat} {name : String} (h : minimum ≤ n) :
    requirePlainInt n name minimum = .ok ⟨n, h⟩ := by
  rw [requirePlainInt, dif_pos (Int.ofNat_le.mpr h)]
  rfl

/-- `BlockBinPlan`: an interval of ranks and its padding. -/
structure BlockBinPlan where
  binIndex : Nat
  logicalRankStart : Nat
  logicalRankStop : Nat
  sampledLoad : Nat
  realCount : Nat
  dummyCount : Nat
  capacity : Nat
  two_le_capacity : 2 ≤ capacity
  load_le : sampledLoad ≤ capacity
  real_le : realCount ≤ sampledLoad
  slots_eq : realCount + dummyCount = capacity
  stop_eq : logicalRankStop = logicalRankStart + realCount

namespace BlockBinPlan

/-- The constructor, with its checks. -/
def make (binIndex logicalRankStart logicalRankStop sampledLoad realCount dummyCount
    capacity : Int) : Except AllocationError BlockBinPlan := do
  let index ← requirePlainInt binIndex "bin_index" 0
  let start ← requirePlainInt logicalRankStart "logical_rank_start" 0
  let stop ← requirePlainInt logicalRankStop "logical_rank_stop" 0
  let load ← requirePlainInt sampledLoad "sampled_load" 0
  let real ← requirePlainInt realCount "real_count" 0
  let dummy ← requirePlainInt dummyCount "dummy_count" 0
  let capacity ← requirePlainInt capacity "capacity" 2
  let hload ← prove (load.1 ≤ capacity.1) (.loadAboveCapacity index load capacity)
  let hreal ← prove (real.1 ≤ load.1) (.realAboveLoad index real load)
  let hslots ← prove (real.1 + dummy = capacity) (.slots index real dummy capacity)
  let hstop ← prove (stop.1 = start + real) (.interval index start stop real)
  pure ⟨index, start, stop, load, real, dummy, capacity, capacity.2, hload.down, hreal.down,
    hslots.down, hstop.down⟩

/-- `rank_range`. -/
def rankRange (bin : BlockBinPlan) : List Nat :=
  List.range' bin.logicalRankStart (bin.logicalRankStop - bin.logicalRankStart)

theorem stop_sub_start (bin : BlockBinPlan) :
    bin.logicalRankStop - bin.logicalRankStart = bin.realCount := by
  rw [bin.stop_eq, Nat.add_sub_cancel_left]

/-- The constructor accepts what is a plan of a bin. -/
theorem make_self (bin : BlockBinPlan) : make bin.binIndex bin.logicalRankStart
    bin.logicalRankStop bin.sampledLoad bin.realCount bin.dummyCount bin.capacity = .ok bin := by
  simp only [make, requirePlainInt_of (Nat.zero_le _), requirePlainInt_of bin.two_le_capacity,
    ok_bind, prove_of bin.load_le, prove_of bin.real_le, prove_of bin.slots_eq,
    prove_of bin.stop_eq, pure_eq_ok]

end BlockBinPlan

/-- `SwatBlockAllocationConfig`, over the numbers of its floating-point fields. -/
structure SwatBlockAllocationConfig (F : Type) where
  securityLambda : Nat
  privacyEpsilon : F
  privacyDelta : F
  seed : Nat
deriving DecidableEq

/-- `BlockAllocationPlan`: the bins of a run of `blockCount` blocks and how they were sampled. -/
structure BlockAllocationPlan (F : Type) where
  blockCount : Nat
  binCapacityBlocks : Nat
  binCount : Nat
  factor : F
  bins : List BlockBinPlan
  sampledLoads : List Int
  noisyPrefixSums : List Int
  additiveErrorBlocks : Nat
  config : SwatBlockAllocationConfig F
  two_le_capacity : 2 ≤ binCapacityBlocks
  length_bins : bins.length = binCount
  length_sampledLoads : sampledLoads.length = binCount
  length_noisyPrefixSums : noisyPrefixSums.length = binCount + 1
  sum_realCount : (bins.map (·.realCount)).sum = blockCount

namespace BlockAllocationPlan

variable {F : Type}

/-- The constructor, with its checks. -/
def make (blockCount binCapacityBlocks binCount : Int) (factor : F) (bins : List BlockBinPlan)
    (sampledLoads noisyPrefixSums : List Int) (additiveErrorBlocks : Int)
    (config : SwatBlockAllocationConfig F) : Except AllocationError (BlockAllocationPlan F) := do
  let blocks ← requirePlainInt blockCount "block_count" 0
  let capacity ← requirePlainInt binCapacityBlocks "bin_capacity_blocks" 2
  let count ← requirePlainInt binCount "bin_count" 0
  let error ← requirePlainInt additiveErrorBlocks "additive_error_blocks" 0
  let hbins ← prove (bins.length = count.1) (.binCount count bins.length)
  let hloads ← prove (sampledLoads.length = count.1) (.loadCount count sampledLoads.length)
  let hnoisy ← prove (noisyPrefixSums.length = count.1 + 1)
    (.noisyCount (count + 1) noisyPrefixSums.length)
  let hsum ← prove ((bins.map (·.realCount)).sum = blocks.1) .notCovered
  pure ⟨blocks, capacity, count, factor, bins, sampledLoads, noisyPrefixSums, error, config,
    capacity.2, hbins.down, hloads.down, hnoisy.down, hsum.down⟩

/-- The constructor accepts what is a plan. -/
theorem make_self (plan : BlockAllocationPlan F) : make plan.blockCount plan.binCapacityBlocks
    plan.binCount plan.factor plan.bins plan.sampledLoads plan.noisyPrefixSums
    plan.additiveErrorBlocks plan.config = .ok plan := by
  simp only [make, requirePlainInt_of (Nat.zero_le _), requirePlainInt_of plan.two_le_capacity,
    ok_bind, prove_of plan.length_bins, prove_of plan.length_sampledLoads,
    prove_of plan.length_noisyPrefixSums, prove_of plan.sum_realCount, pure_eq_ok]

/-- The constructor keeps the bins and the loads. -/
theorem of_make {blockCount binCapacityBlocks binCount : Int} {factor : F}
    {bins : List BlockBinPlan} {sampledLoads noisyPrefixSums : List Int}
    {additiveErrorBlocks : Int} {config : SwatBlockAllocationConfig F}
    {plan : BlockAllocationPlan F}
    (h : make blockCount binCapacityBlocks binCount factor bins sampledLoads noisyPrefixSums
      additiveErrorBlocks config = .ok plan) :
    plan.bins = bins ∧ plan.sampledLoads = sampledLoads := by
  obtain ⟨blocks, -, h⟩ := bind_eq_ok.mp h
  obtain ⟨capacity, -, h⟩ := bind_eq_ok.mp h
  obtain ⟨count, -, h⟩ := bind_eq_ok.mp h
  obtain ⟨error, -, h⟩ := bind_eq_ok.mp h
  obtain ⟨hbins, h⟩ := prove_bind_eq_ok.mp h
  obtain ⟨hloads, h⟩ := prove_bind_eq_ok.mp h
  obtain ⟨hnoisy, h⟩ := prove_bind_eq_ok.mp h
  obtain ⟨hsum, h⟩ := prove_bind_eq_ok.mp h
  cases h
  exact ⟨rfl, rfl⟩

/-- `planned_slots`. -/
def plannedSlots (plan : BlockAllocationPlan F) : Nat := plan.binCount * plan.binCapacityBlocks

/-- `dummy_count`. -/
def dummyCount (plan : BlockAllocationPlan F) : Nat := (plan.bins.map (·.dummyCount)).sum

/-- `covered_ranks`. -/
def coveredRanks (plan : BlockAllocationPlan F) : List Nat := plan.bins.flatMap (·.rankRange)

/-- The ranks of a run are covered in order exactly when the bins are end to end. -/
theorem coveredRanks_eq_range_iff (plan : BlockAllocationPlan F) :
    plan.coveredRanks = List.range plan.blockCount ↔
      EndToEnd (·.logicalRankStart) (·.realCount) 0 plan.bins := by
  have hranks : plan.coveredRanks =
      plan.bins.flatMap fun bin ↦ List.range' bin.logicalRankStart bin.realCount :=
    List.flatMap_congr fun bin _ ↦ by rw [BlockBinPlan.rankRange, bin.stop_sub_start]
  rw [hranks, ← plan.sum_realCount, List.range_eq_range', endToEnd_iff_flatMap_range']

end BlockAllocationPlan

end EnhancedLetIndex
