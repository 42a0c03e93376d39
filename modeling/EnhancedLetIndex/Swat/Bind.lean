import EnhancedLetIndex.Swat.Run

/-!
# Binding a plan to a run

`bind_block_allocation` of `content_schedule.py`.  A plan need not have been allocated: its
constructor checks counts only, and so do the constructors of what is bound.  The blocks of a
bound run are bound once and in order exactly when the intervals of the plan are end to end, or
the plan is refused (`bindsExactly_iff`).
-/

namespace EnhancedLetIndex

/-! ## Bound bins -/

/-- `BoundBlockBin`: a planned bin with the blocks of its interval. -/
structure BoundBlockBin (V : Type) where
  binIndex : Nat
  logicalRankStart : Nat
  logicalRankStop : Nat
  sampledLoad : Nat
  realBlockCount : Nat
  dummyBlockCount : Nat
  binCapacityBlocks : Nat
  blocks : List (LogicalBlockSnapshot V)
  two_le_capacity : 2 ≤ binCapacityBlocks
  length_blocks : blocks.length = realBlockCount
  stop_eq : logicalRankStop = logicalRankStart + realBlockCount
  slots_eq : realBlockCount + dummyBlockCount = binCapacityBlocks
  load_le : sampledLoad ≤ binCapacityBlocks

namespace BoundBlockBin

variable {V : Type}

/-- The constructor, with its checks. -/
def make (binIndex start stop load real dummy capacity : Nat)
    (blocks : List (LogicalBlockSnapshot V)) : Except ScheduleError (BoundBlockBin V) := do
  let hcapacity ← prove (2 ≤ capacity) (.belowMinimum "bin_capacity_blocks" capacity 2)
  let hblocks ← prove (blocks.length = real) (.boundBlocks binIndex real blocks.length)
  let hstop ← prove (stop = start + real) (.interval binIndex start stop real)
  let hslots ← prove (real + dummy = capacity) (.slots binIndex real dummy capacity)
  let hload ← prove (load ≤ capacity) (.loadAboveCapacity binIndex load capacity)
  pure ⟨binIndex, start, stop, load, real, dummy, capacity, blocks, hcapacity.down, hblocks.down,
    hstop.down, hslots.down, hload.down⟩

/-- The constructor succeeds when its checks do. -/
theorem make_eq_ok {binIndex start stop load real dummy capacity : Nat}
    {blocks : List (LogicalBlockSnapshot V)} {bin : BoundBlockBin V} :
    make binIndex start stop load real dummy capacity blocks = .ok bin ↔
      ∃ hcapacity hblocks hstop hslots hload, ⟨binIndex, start, stop, load, real, dummy,
        capacity, blocks, hcapacity, hblocks, hstop, hslots, hload⟩ = bin := by
  simp only [make, prove_bind_eq_ok, pure_eq_ok, Except.ok.injEq]

/-- `real_records`. -/
def realRecords (bin : BoundBlockBin V) : List (Record V) := bin.blocks.flatMap (·.records)

/-- `real_keys`. -/
def realKeys (bin : BoundBlockBin V) : List RecordKey := bin.realRecords.map (·.key)

/-- `is_empty_real`. -/
def isEmptyReal (bin : BoundBlockBin V) : Bool := bin.realBlockCount = 0

end BoundBlockBin

/-! ## Interior points -/

/-- The key of an interior point: a record key, or the sentinel `DUMMY_POS_INF`. -/
inductive PointKey where
  | real (key : RecordKey)
  | dummyPosInf
deriving DecidableEq

/-- `InteriorPoint`. -/
structure InteriorPoint where
  key : PointKey
  recordIndex : Option Nat
  index_eq : key = .dummyPosInf → recordIndex = none
deriving DecidableEq

/-- The signed tag of a bin: positive for the source, negative for the target. -/
def Side.signedTag : Side → Nat → Int
  | .source, index => index + 1
  | .target, index => -(index + 1)

/-- `TaggedBinInteriorPoint`. -/
structure TaggedBinInteriorPoint where
  side : Side
  binIndex : Nat
  interiorPoint : InteriorPoint
  signedTag : Int
  tag_eq : signedTag = side.signedTag binIndex
deriving DecidableEq

/-- `BoundBlockAllocation`: the bins of a side, and their interior points once it is sampled. -/
structure BoundBlockAllocation (F V : Type) where
  side : Side
  level : Nat
  itemsPerBlock : Nat
  bins : List (BoundBlockBin V)
  plan : BlockAllocationPlan F
  interiors : List InteriorPoint
  tagged : List TaggedBinInteriorPoint
  sampled : Bool
  itemsPerBlock_pos : 1 ≤ itemsPerBlock
  length_bins : bins.length = plan.binCount
  binIndex : bins.map (·.binIndex) = List.range bins.length
  unsampled : sampled = false → interiors = [] ∧ tagged = []
  length_interiors : sampled = true → interiors.length = bins.length
  length_tagged : sampled = true → tagged.length = bins.length
  sides : sampled = true → ∀ point ∈ tagged, point.side = side

namespace BoundBlockAllocation

variable {F V : Type}

/-- The constructor, with its checks. -/
def make (side : Side) (level itemsPerBlock : Nat) (bins : List (BoundBlockBin V))
    (plan : BlockAllocationPlan F) (interiors : List InteriorPoint)
    (tagged : List TaggedBinInteriorPoint) (sampled : Bool) :
    Except ScheduleError (BoundBlockAllocation F V) := do
  let hitems ← prove (1 ≤ itemsPerBlock) (.belowMinimum "items_per_block" itemsPerBlock 1)
  let hbins ← prove (bins.length = plan.binCount) (.boundBins plan.binCount bins.length)
  let hindex ← prove (bins.map (·.binIndex) = List.range bins.length) .binOrder
  let hunsampled ← prove (sampled = false → interiors = [] ∧ tagged = []) .pointsUnsampled
  let hinteriors ← prove (sampled = true → interiors.length = bins.length)
    (.interiorCount interiors.length bins.length)
  let htagged ← prove (sampled = true → tagged.length = bins.length)
    (.taggedCount tagged.length bins.length)
  let hsides ← prove (sampled = true → ∀ point ∈ tagged, point.side = side) (.taggedSide side)
  pure ⟨side, level, itemsPerBlock, bins, plan, interiors, tagged, sampled, hitems.down,
    hbins.down, hindex.down, hunsampled.down, hinteriors.down, htagged.down, hsides.down⟩

/-- The constructor succeeds when its checks do. -/
theorem make_eq_ok {side : Side} {level itemsPerBlock : Nat} {bins : List (BoundBlockBin V)}
    {plan : BlockAllocationPlan F} {interiors : List InteriorPoint}
    {tagged : List TaggedBinInteriorPoint} {sampled : Bool} {bound : BoundBlockAllocation F V} :
    make side level itemsPerBlock bins plan interiors tagged sampled = .ok bound ↔
      ∃ hitems hbins hindex hunsampled hinteriors htagged hsides, ⟨side, level, itemsPerBlock,
        bins, plan, interiors, tagged, sampled, hitems, hbins, hindex, hunsampled, hinteriors,
        htagged, hsides⟩ = bound := by
  simp only [make, prove_bind_eq_ok, pure_eq_ok, Except.ok.injEq]

/-- `bin_count`. -/
def binCount (bound : BoundBlockAllocation F V) : Nat := bound.bins.length

/-- `sampled_loads`. -/
def sampledLoads (bound : BoundBlockAllocation F V) : List Int := bound.plan.sampledLoads

/-- `noisy_prefix_sums`. -/
def noisyPrefixSums (bound : BoundBlockAllocation F V) : List Int := bound.plan.noisyPrefixSums

/-- `additive_error_blocks`. -/
def additiveErrorBlocks (bound : BoundBlockAllocation F V) : Nat := bound.plan.additiveErrorBlocks

/-- `bound_ranks`. -/
def boundRanks (bound : BoundBlockAllocation F V) : List Nat :=
  bound.bins.flatMap fun bin ↦
    List.range' bin.logicalRankStart (bin.logicalRankStop - bin.logicalRankStart)

/-- `real_records`. -/
def realRecords (bound : BoundBlockAllocation F V) : List (Record V) :=
  bound.bins.flatMap (·.realRecords)

end BoundBlockAllocation

/-! ## Binding -/

variable {F V : Type}

/-- The body of the loop of `bind_block_allocation`: a bin with the blocks of its interval, whose
keys have to ascend. -/
def bindBin (run : LogicalBlockRunView V) (capacity : Nat) (bin : BlockBinPlan) :
    Except ScheduleError (BoundBlockBin V) := do
  let blocks := (run.blocks.drop bin.logicalRankStart).take
    (bin.logicalRankStop - bin.logicalRankStart)
  let bound ← BoundBlockBin.make bin.binIndex bin.logicalRankStart bin.logicalRankStop
    bin.sampledLoad bin.realCount bin.dummyCount capacity blocks
  require (bound.realKeys = bound.realKeys.dedup.insertionSort (· ≤ ·))
    (.keysNotIncreasing bound.binIndex)
  pure bound

/-- `bind_block_allocation`. -/
def bindBlockAllocation (run : LogicalBlockRunView V) (plan : BlockAllocationPlan F)
    (side : Side) : Except ScheduleError (BoundBlockAllocation F V) := do
  require (plan.blockCount = run.blockCount) (.blockCount plan.blockCount run.blockCount)
  let bins ← plan.bins.mapM (bindBin run plan.binCapacityBlocks)
  BoundBlockAllocation.make side run.level run.itemsPerBlock bins plan [] [] false

/-! ## What is bound -/

/-- A planned bin and what is bound of it. -/
structure BoundBlockBin.Binds (run : LogicalBlockRunView V) (bin : BlockBinPlan)
    (bound : BoundBlockBin V) : Prop where
  binIndex : bound.binIndex = bin.binIndex
  start : bound.logicalRankStart = bin.logicalRankStart
  stop : bound.logicalRankStop = bin.logicalRankStop
  realBlockCount : bound.realBlockCount = bin.realCount
  blocks : bound.blocks = (run.blocks.drop bin.logicalRankStart).take bin.realCount

/-- A bin can be bound when it has the capacity and lies in the run; an empty one may lie
anywhere. -/
def BlockBinPlan.Fits (bin : BlockBinPlan) (run : LogicalBlockRunView V) (capacity : Nat) : Prop :=
  bin.capacity = capacity ∧ (0 < bin.realCount → bin.logicalRankStop ≤ run.blockCount)

variable {run : LogicalBlockRunView V} {capacity : Nat} {bin : BlockBinPlan}

theorem length_slice : ((run.blocks.drop bin.logicalRankStart).take bin.realCount).length =
    bin.realCount ↔ (0 < bin.realCount → bin.logicalRankStop ≤ run.blockCount) := by
  have hstop := bin.stop_eq
  rw [List.length_take, List.length_drop, LogicalBlockRunView.blockCount]
  omega

theorem bindBin_eq_ok {bound : BoundBlockBin V} (h : bindBin run capacity bin = .ok bound) :
    bin.Fits run capacity ∧ bound.Binds run bin := by
  rw [bindBin, bin.stop_sub_start] at h
  obtain ⟨bound', hmake, h⟩ := bind_eq_ok.mp h
  obtain ⟨-, h⟩ := require_bind_eq_ok.mp h
  obtain rfl := Except.ok.inj h
  obtain ⟨hcapacity, hlength, hstop, hslots, hload, rfl⟩ := BoundBlockBin.make_eq_ok.mp hmake
  exact ⟨⟨bin.slots_eq.symm.trans hslots, length_slice.mp hlength⟩, rfl, rfl, rfl, rfl, rfl⟩

/-- A bin that fits is bound: the keys of consecutive blocks of a run ascend. -/
theorem exists_bindBin (hcapacity : 2 ≤ capacity) (h : bin.Fits run capacity) :
    ∃ bound, bindBin run capacity bin = .ok bound := by
  obtain ⟨hbin, hinside⟩ := h
  have hlength := length_slice.mpr hinside
  have hslots : bin.realCount + bin.dummyCount = capacity := bin.slots_eq.trans hbin
  have hload : bin.sampledLoad ≤ capacity := hbin ▸ bin.load_le
  have hsublist : ((run.blocks.drop bin.logicalRankStart).take bin.realCount).Sublist run.blocks :=
    (List.take_sublist _ _).trans (List.drop_sublist _ _)
  have hsorted := run.sorted_of_sublist hsublist
  rw [bindBin, bin.stop_sub_start]
  refine ⟨_, bind_eq_ok.mpr ⟨_, BoundBlockBin.make_eq_ok.mpr
    ⟨hcapacity, hlength, bin.stop_eq, hslots, hload, rfl⟩, require_bind_eq_ok.mpr ⟨?_, rfl⟩⟩⟩
  show List.map _ (List.flatMap _ _) = (List.map _ (List.flatMap _ _)).dedup.insertionSort _
  rw [hsorted.nodup.dedup]
  exact (hsorted.imp le_of_lt).insertionSort_eq.symm

/-- A plan can be bound to a run when it is for as many blocks, its bins are in order, and each
has the capacity of the plan and lies in the run. -/
structure BlockAllocationPlan.Fits (plan : BlockAllocationPlan F) (run : LogicalBlockRunView V) :
    Prop where
  blockCount : plan.blockCount = run.blockCount
  binIndex : plan.bins.map (·.binIndex) = List.range plan.bins.length
  bins : ∀ bin ∈ plan.bins, bin.Fits run plan.binCapacityBlocks

/-- Every bin with real blocks starts after the real blocks of the bins before it. -/
def BlockAllocationPlan.Consecutive (plan : BlockAllocationPlan F) : Prop :=
  ∀ i bin, plan.bins[i]? = some bin → 0 < bin.realCount →
    bin.logicalRankStart = ((plan.bins.take i).map (·.realCount)).sum

variable {plan : BlockAllocationPlan F} {side : Side} {bound : BoundBlockAllocation F V}

theorem consecutive_iff : plan.Consecutive ↔
    EndToEnd (·.logicalRankStart) (·.realCount) 0 plan.bins := by
  rw [endToEnd_iff_getElem]
  simp only [BlockAllocationPlan.Consecutive, Nat.zero_add]

/-- A bound allocation of a run. -/
structure BoundBlockAllocation.Binds (run : LogicalBlockRunView V) (plan : BlockAllocationPlan F)
    (side : Side) (bound : BoundBlockAllocation F V) : Prop where
  side_eq : bound.side = side
  plan_eq : bound.plan = plan
  bins : List.Forall₂ (fun bin b ↦ b.Binds run bin) plan.bins bound.bins
  unsampled : bound.sampled = false

theorem bindBlockAllocation_eq_ok (h : bindBlockAllocation run plan side = .ok bound) :
    plan.Fits run ∧ bound.Binds run plan side := by
  obtain ⟨hcount, h⟩ := require_bind_eq_ok.mp h
  obtain ⟨bins, hbins, h⟩ := bind_eq_ok.mp h
  obtain ⟨-, -, hindex, -, -, -, -, rfl⟩ := BoundBlockAllocation.make_eq_ok.mp h
  have hforall := (mapM_eq_ok_iff.mp hbins).imp fun _ _ ↦ bindBin_eq_ok
  have hbinds : List.Forall₂ (fun bin b ↦ BoundBlockBin.Binds run bin b) plan.bins bins :=
    hforall.imp fun _ _ ↦ And.right
  refine ⟨⟨hcount, ?_, fun bin hbin ↦ ?_⟩, rfl, rfl, hbinds, rfl⟩
  · have hsame : plan.bins.map (·.binIndex) = bins.map (·.binIndex) :=
      map_eq_of_forall₂ (hbinds.imp fun _ _ hb ↦ hb.binIndex.symm)
    rw [hsame, hindex, hbinds.length_eq]
  · obtain ⟨b, -, hfits, -⟩ := exists_mem_right hforall hbin
    exact hfits

/-- A plan that fits a run is bound to it. -/
theorem exists_bindBlockAllocation (h : plan.Fits run) (side : Side) :
    ∃ bound, bindBlockAllocation run plan side = .ok bound := by
  obtain ⟨bins, hbins⟩ := exists_mapM_eq_ok fun bin hbin ↦
    exists_bindBin plan.two_le_capacity (h.bins bin hbin)
  have hforall := (mapM_eq_ok_iff.mp hbins).imp fun _ _ ↦ bindBin_eq_ok
  have hlength : bins.length = plan.binCount := hforall.length_eq.symm.trans plan.length_bins
  have hindex : bins.map (·.binIndex) = List.range bins.length := by
    have hsame : plan.bins.map (·.binIndex) = bins.map (·.binIndex) :=
      map_eq_of_forall₂ (hforall.imp fun _ _ hb ↦ hb.2.binIndex.symm)
    rw [← hsame, h.binIndex, hforall.length_eq]
  rw [bindBlockAllocation, require_of h.blockCount, ok_bind, hbins, ok_bind]
  exact ⟨_, BoundBlockAllocation.make_eq_ok.mpr ⟨run.itemsPerBlock_pos, hlength, hindex,
    fun _ ↦ ⟨rfl, rfl⟩, nofun, nofun, nofun, rfl⟩⟩

namespace BoundBlockAllocation.Binds

theorem boundRanks (h : bound.Binds run plan side) : bound.boundRanks = plan.coveredRanks := by
  have hbins := h.bins
  rw [BoundBlockAllocation.boundRanks, BlockAllocationPlan.coveredRanks]
  generalize bound.bins = bound, plan.bins = bins at hbins
  induction hbins with
  | nil => rfl
  | cons hb _ ih => rw [List.flatMap_cons, List.flatMap_cons, ih, hb.start, hb.stop]; rfl

theorem realRecords (h : bound.Binds run plan side) : bound.realRecords =
    (plan.bins.flatMap fun bin ↦
      (run.blocks.drop bin.logicalRankStart).take bin.realCount).flatMap (·.records) := by
  have hbins := h.bins
  rw [BoundBlockAllocation.realRecords]
  generalize bound.bins = bound, plan.bins = bins at hbins
  induction hbins with
  | nil => rfl
  | cons hb _ ih =>
    rw [List.flatMap_cons, List.flatMap_cons, List.flatMap_append, ih, BoundBlockBin.realRecords,
      hb.blocks]

end BoundBlockAllocation.Binds

/-- Every block of the run is bound once and in order, with its records and the evidence of the
plan. -/
def BindsExactly (run : LogicalBlockRunView V) (plan : BlockAllocationPlan F) (side : Side) :
    Prop := ∀ bound, bindBlockAllocation run plan side = .ok bound →
  bound.boundRanks = List.range run.blockCount ∧ bound.realRecords = run.records ∧
    bound.sampledLoads = plan.sampledLoads ∧ bound.noisyPrefixSums = plan.noisyPrefixSums ∧
    bound.additiveErrorBlocks = plan.additiveErrorBlocks

/-- A run is bound exactly when its plan is refused or has consecutive bins. -/
theorem bindsExactly_iff (run : LogicalBlockRunView V) (plan : BlockAllocationPlan F)
    (side : Side) : BindsExactly run plan side ↔ (plan.Fits run → plan.Consecutive) := by
  constructor
  · intro h hfits
    obtain ⟨bound, hbound⟩ := exists_bindBlockAllocation hfits side
    have hcovered := (h bound hbound).1
    rw [(bindBlockAllocation_eq_ok hbound).2.boundRanks, ← hfits.blockCount,
      plan.coveredRanks_eq_range_iff] at hcovered
    exact consecutive_iff.mpr hcovered
  · intro h bound hbound
    obtain ⟨hfits, hbinds⟩ := bindBlockAllocation_eq_ok hbound
    have hend := consecutive_iff.mp (h hfits)
    refine ⟨?_, ?_, ?_, ?_, ?_⟩
    · rw [hbinds.boundRanks, plan.coveredRanks_eq_range_iff.mpr hend, hfits.blockCount]
    · rw [hbinds.realRecords, hend.flatMap_slice, plan.sum_realCount, hfits.blockCount,
        List.drop_zero, LogicalBlockRunView.blockCount, List.take_length,
        LogicalBlockRunView.records]
    · rw [BoundBlockAllocation.sampledLoads, hbinds.plan_eq]
    · rw [BoundBlockAllocation.noisyPrefixSums, hbinds.plan_eq]
    · rw [BoundBlockAllocation.additiveErrorBlocks, hbinds.plan_eq]

/-- A block of one record. -/
def unitBlock (n : Int) (value : String) : LogicalBlockSnapshot String :=
  { blockId := ⟨n⟩
    capacity := 1
    records := [⟨⟨n⟩, value, none, false⟩]
    capacity_pos := le_rfl
    length_le := le_rfl
    sorted := List.pairwise_singleton _ _ }

/-- A run of two blocks. -/
def twoBlocks : LogicalBlockRunView String :=
  { level := 4
    blocks := [unitBlock 1 "a", unitBlock 2 "b"]
    itemsPerBlock := 1
    itemsPerBlock_pos := le_rfl
    capacity_eq := by simp [unitBlock]
    records_ne_nil := by simp [unitBlock]
    nodup := by decide
    ascending := by simp [unitBlock, RecordKey.lt_def]
    full := by simp [unitBlock] }

/-- A bin of the first block of a run. -/
def firstBlockBin (index : Nat) : BlockBinPlan :=
  ⟨index, 0, 1, 1, 1, 1, 2, le_rfl, by decide, le_rfl, rfl, rfl⟩

/-- A plan for two blocks, both of whose bins are of the first. -/
def repeatedPlan : BlockAllocationPlan ℚ :=
  { blockCount := 2
    binCapacityBlocks := 2
    binCount := 2
    factor := 1
    bins := [firstBlockBin 0, firstBlockBin 1]
    sampledLoads := [1, 1]
    noisyPrefixSums := [0, 1, 2]
    additiveErrorBlocks := 0
    config := ⟨512, 1, 1 / 1000, 7⟩
    two_le_capacity := le_rfl
    length_bins := rfl
    length_sampledLoads := rfl
    length_noisyPrefixSums := rfl
    sum_realCount := rfl }

theorem fits_repeatedPlan : repeatedPlan.Fits twoBlocks := by
  refine ⟨rfl, rfl, fun bin hbin ↦ ?_⟩
  simp only [repeatedPlan, List.mem_cons, List.not_mem_nil, or_false] at hbin
  rcases hbin with rfl | rfl <;> exact ⟨rfl, fun _ ↦ by decide⟩

theorem not_bindsExactly_repeatedPlan : ¬ BindsExactly twoBlocks repeatedPlan .source := by
  obtain ⟨bound, hbound⟩ := exists_bindBlockAllocation fits_repeatedPlan .source
  intro h
  have hranks := (h bound hbound).1
  rw [(bindBlockAllocation_eq_ok hbound).2.boundRanks] at hranks
  exact absurd hranks (by decide)

end EnhancedLetIndex
