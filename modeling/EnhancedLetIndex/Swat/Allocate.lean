import EnhancedLetIndex.Swat.Noise

/-!
# Allocating the bins of a run

`allocate_block_bins` of `bin_allocator.py`.  The sizes it computes in floating point first are
given (`BinSizing`), and so are the loads its sampler returns and the noise.  The bins take the
ranks of the run from left to right (`Allots`), so that the loads suffice exactly when a plan is
returned (`allocateBlockBins_partitions`).
-/

namespace EnhancedLetIndex

/-- The sizes that `allocate_block_bins` computes first: the capacity of a bin, the factor, and
`ceil(factor * n)` for the `n` blocks of a run. -/
structure BinSizing (F : Type) where
  capacity : Nat
  two_le_capacity : 2 ≤ capacity
  factor : F
  ceil : Nat → Nat

/-- `compute_bin_count`. -/
def BinSizing.binCount {F : Type} (sizing : BinSizing F) (blocks : Nat) : Nat :=
  if blocks = 0 then 0 else sizing.ceil blocks

/-- The loop over the sampled loads, from a bin on and with some ranks handed out already. -/
def allotBins (capacity blocks : Nat) : Nat → Int → List Int →
    Except AllocationError (List BlockBinPlan)
  | _, _, [] => pure []
  | index, consumed, load :: loads => do
    let real := min load (blocks - consumed)
    let bin ← BlockBinPlan.make index consumed (consumed + real) load real (capacity - real)
      capacity
    let bins ← allotBins capacity blocks (index + 1) (consumed + real) loads
    pure (bin :: bins)

/-- `allocate_block_bins`, with the loads that the sampler returns and the noise. -/
def allocateBlockBins {F : Type} [NoiseArithmetic F] (sizing : BinSizing F) (blockCount : Int)
    (config : SwatBlockAllocationConfig F) (sampler : Nat → Int) (noise : Nat → F) :
    Except AllocationError (BlockAllocationPlan F) := do
  let blocks ← requirePlainInt blockCount "block_count" 0
  if blocks.1 = 0 then
    BlockAllocationPlan.make 0 sizing.capacity 0 sizing.factor [] [] [0] 0 config
  else do
    let sampledLoads ← (List.range (sizing.binCount blocks)).mapM fun i ↦
      requireLoad sizing.capacity (sampler i)
    require ((blocks.1 : Int) ≤ sampledLoads.sum) (.insufficientSampledCapacity blocks
      sampledLoads.sum (sizing.binCount blocks) sizing.capacity config.seed)
    let (prefixSums, error) ← computeNoisyPrefixSums sizing.capacity noise sampledLoads
    let bins ← allotBins sizing.capacity blocks 0 0 sampledLoads
    BlockAllocationPlan.make blocks sizing.capacity (sizing.binCount blocks) sizing.factor bins
      sampledLoads prefixSums error config

/-! ## From left to right -/

/-- Bins that take the ranks of a run of `n` blocks in order, each as many as its load and the
rest of the run allow, from bin `index` and rank `consumed` on. -/
inductive Allots (n capacity : Nat) : Nat → Nat → List Int → List BlockBinPlan → Prop
  | nil (index consumed : Nat) : Allots n capacity index consumed [] []
  | cons {index consumed : Nat} {load : Int} {loads : List Int} {bin : BlockBinPlan}
      {bins : List BlockBinPlan} (hindex : bin.binIndex = index)
      (hstart : bin.logicalRankStart = consumed) (hload : (bin.sampledLoad : Int) = load)
      (hreal : bin.realCount = min bin.sampledLoad (n - consumed))
      (hcapacity : bin.capacity = capacity)
      (htail : Allots n capacity (index + 1) (consumed + bin.realCount) loads bins) :
      Allots n capacity index consumed (load :: loads) (bin :: bins)

/-- No check of a bin fails when the loads are within the capacity. -/
theorem allotBins_spec {capacity n : Nat} (index : Nat) {consumed : Nat}
    (hcapacity : 2 ≤ capacity) (hconsumed : consumed ≤ n) {loads : List Int}
    (hloads : ∀ load ∈ loads, 0 ≤ load ∧ load ≤ capacity) :
    ∃ bins, allotBins capacity n index consumed loads = .ok bins ∧
      Allots n capacity index consumed loads bins := by
  induction loads generalizing index consumed with
  | nil => exact ⟨[], rfl, .nil index consumed⟩
  | cons load loads ih =>
    obtain ⟨⟨hnonneg, hle⟩, hrest⟩ := List.forall_mem_cons.mp hloads
    obtain ⟨k, rfl⟩ := Int.eq_ofNat_of_zero_le hnonneg
    have hk : k ≤ capacity := Int.ofNat_le.mp hle
    let bin : BlockBinPlan :=
      { binIndex := index
        logicalRankStart := consumed
        logicalRankStop := consumed + min k (n - consumed)
        sampledLoad := k
        realCount := min k (n - consumed)
        dummyCount := capacity - min k (n - consumed)
        capacity
        two_le_capacity := hcapacity
        load_le := hk
        real_le := min_le_left _ _
        slots_eq := Nat.add_sub_cancel' ((min_le_left _ _).trans hk)
        stop_eq := rfl }
    have hmin : min (k : Int) (n - consumed) = (min k (n - consumed) : Nat) := by omega
    have hmake : BlockBinPlan.make index consumed (consumed + (min k (n - consumed) : Nat)) k
        (min k (n - consumed) : Nat) (capacity - (min k (n - consumed) : Nat)) capacity =
          .ok bin := by
      have hself := bin.make_self
      rwa [show (bin.dummyCount : Int) = capacity - (min k (n - consumed) : Nat) from
        Int.ofNat_sub ((min_le_left _ _).trans hk)] at hself
    have hconsumed' : consumed + min k (n - consumed) ≤ n := by omega
    obtain ⟨bins, hbins, hallots⟩ := ih (index + 1) hconsumed' hrest
    refine ⟨bin :: bins, ?_, .cons rfl rfl rfl rfl rfl hallots⟩
    rw [allotBins]
    simp only [hmin, hmake, ok_bind]
    rw [show (consumed : Int) + (min k (n - consumed) : Nat) =
      (consumed + min k (n - consumed) : Nat) from rfl, hbins]
    rfl

namespace Allots

variable {n capacity index consumed : Nat} {loads : List Int} {bins : List BlockBinPlan}

theorem length_eq (h : Allots n capacity index consumed loads bins) :
    bins.length = loads.length := by
  induction h with
  | nil => rfl
  | cons _ _ _ _ _ _ ih => rw [List.length_cons, List.length_cons, ih]

theorem map_sampledLoad (h : Allots n capacity index consumed loads bins) :
    (bins.map fun bin ↦ (bin.sampledLoad : Int)) = loads := by
  induction h with
  | nil => rfl
  | cons _ _ hload _ _ _ ih => rw [List.map_cons, hload, ih]

theorem map_binIndex (h : Allots n capacity index consumed loads bins) :
    bins.map (·.binIndex) = List.range' index bins.length := by
  induction h with
  | nil => rfl
  | cons hindex _ _ _ _ _ ih => rw [List.map_cons, hindex, ih, List.length_cons, List.range'_succ]

theorem capacity_eq (h : Allots n capacity index consumed loads bins) :
    ∀ bin ∈ bins, bin.capacity = capacity := by
  induction h with
  | nil => simp
  | cons _ _ _ _ hcapacity _ ih => exact List.forall_mem_cons.mpr ⟨hcapacity, ih⟩

theorem endToEnd (h : Allots n capacity index consumed loads bins) :
    EndToEnd (·.logicalRankStart) (·.realCount) consumed bins := by
  induction h with
  | nil => exact endToEnd_nil
  | cons _ hstart _ _ _ _ ih => exact endToEnd_cons.mpr ⟨fun _ ↦ hstart, ih⟩

/-- Every bin starts where the one before it stops. -/
theorem isChain (h : Allots n capacity index consumed loads bins) :
    (∀ bin ∈ bins.head?, bin.logicalRankStart = consumed) ∧
      bins.IsChain fun bin next ↦ next.logicalRankStart = bin.logicalRankStop := by
  induction h with
  | nil => simp
  | @cons index consumed load loads bin bins _ hstart _ _ _ _ ih =>
    refine ⟨by simpa using hstart, List.isChain_cons.mpr ⟨fun next hnext ↦ ?_, ih.2⟩⟩
    rw [ih.1 next hnext, bin.stop_eq, hstart]

/-- A bin that stops before the end of the run is as full as its load. -/
theorem real_eq_load (h : Allots n capacity index consumed loads bins) :
    ∀ bin ∈ bins, bin.logicalRankStop < n → bin.realCount = bin.sampledLoad := by
  induction h with
  | nil => simp
  | @cons index consumed load loads bin bins _ hstart _ hreal _ _ ih =>
    refine List.forall_mem_cons.mpr ⟨fun hlt ↦ ?_, ih⟩
    rw [bin.stop_eq, hstart] at hlt
    omega

/-- At the end of the run the bins are empty. -/
theorem realCount_of_le (h : Allots n capacity index consumed loads bins) (hn : n ≤ consumed) :
    ∀ bin ∈ bins, bin.realCount = 0 := by
  induction h with
  | nil => simp
  | cons _ _ _ hreal _ _ ih =>
    rw [Nat.sub_eq_zero_of_le hn, Nat.min_zero] at hreal
    refine List.forall_mem_cons.mpr ⟨hreal, ih ?_⟩
    rw [hreal]
    exact hn

/-- A bin that holds some of the run lies in it. -/
theorem stop_le (h : Allots n capacity index consumed loads bins) :
    ∀ bin ∈ bins, 0 < bin.realCount → bin.logicalRankStop ≤ n := by
  induction h with
  | nil => simp
  | @cons index consumed load loads bin bins _ hstart _ hreal _ _ ih =>
    refine List.forall_mem_cons.mpr ⟨fun hpos ↦ ?_, ih⟩
    rw [bin.stop_eq, hstart]
    omega

/-- Before a bin that holds some of the run, the bins are as full as their loads. -/
theorem real_eq_load_of_append {front back : List BlockBinPlan} {bin : BlockBinPlan}
    (h : Allots n capacity index consumed loads (front ++ bin :: back))
    (hbin : 0 < bin.realCount) : ∀ b ∈ front, b.realCount = b.sampledLoad := by
  induction front generalizing index consumed loads with
  | nil => simp
  | cons b front ih =>
    cases h with
    | cons _ _ _ hreal _ htail =>
      refine List.forall_mem_cons.mpr ⟨?_, ih htail⟩
      by_contra hne
      have hfull : n ≤ consumed + b.realCount := by omega
      have hzero := htail.realCount_of_le hfull bin (List.mem_append_right _ List.mem_cons_self)
      exact hbin.ne' hzero

/-- The bins hold as much of the run as their loads allow. -/
theorem sum_realCount (h : Allots n capacity index consumed loads bins) (hconsumed : consumed ≤ n) :
    (((bins.map (·.realCount)).sum : Nat) : Int) = min loads.sum (n - consumed) := by
  induction h with
  | nil => simp; omega
  | @cons index consumed load loads bin bins _ _ hload hreal _ htail ih =>
    have hnonneg : 0 ≤ loads.sum := by
      rw [← htail.map_sampledLoad]
      exact List.sum_nonneg fun x hx ↦ by
        obtain ⟨bin, -, rfl⟩ := List.mem_map.mp hx
        exact Int.natCast_nonneg _
    have hsum := ih (by omega)
    rw [List.map_cons, List.sum_cons, List.sum_cons, Nat.cast_add, hsum]
    omega

end Allots

/-! ## The plan -/

/-- What a plan of a run of `n` blocks says, which was sampled with some loads: the intervals of
its bins follow each other and partition the ranks of the run, and every bin is padded. -/
structure BlockAllocationPlan.Partitions {F : Type} (plan : BlockAllocationPlan F)
    (n binCapacity : Nat) (loads : List Int) : Prop where
  blockCount : plan.blockCount = n
  capacity : plan.binCapacityBlocks = binCapacity
  sampledLoads : plan.sampledLoads = loads
  sampledLoad : plan.bins.map (fun bin ↦ (bin.sampledLoad : Int)) = loads
  binIndex : plan.bins.map (·.binIndex) = List.range plan.binCount
  first : ∀ bin ∈ plan.bins.head?, bin.logicalRankStart = 0
  consecutive : plan.bins.IsChain fun bin next ↦ next.logicalRankStart = bin.logicalRankStop
  covered : plan.coveredRanks = List.range n
  real_le : ∀ bin ∈ plan.bins, bin.realCount ≤ bin.sampledLoad
  padded : ∀ bin ∈ plan.bins, bin.realCount + bin.dummyCount = binCapacity
  full : ∀ bin ∈ plan.bins, bin.logicalRankStop < n → bin.realCount = bin.sampledLoad
  slots : plan.plannedSlots = n + plan.dummyCount

variable {F : Type}

/-- A plan whose bins are handed out from left to right partitions the run. -/
theorem partitions_of_allots {plan : BlockAllocationPlan F} {capacity : Nat} {loads : List Int}
    (hcapacity : plan.binCapacityBlocks = capacity) (hloads : plan.sampledLoads = loads)
    (h : Allots plan.blockCount capacity 0 0 loads plan.bins) :
    plan.Partitions plan.blockCount capacity loads := by
  have hpadded : ∀ bin ∈ plan.bins, bin.realCount + bin.dummyCount = capacity :=
    fun bin hbin ↦ bin.slots_eq.trans (h.capacity_eq bin hbin)
  refine ⟨rfl, hcapacity, hloads, h.map_sampledLoad, ?_, h.isChain.1, h.isChain.2,
    plan.coveredRanks_eq_range_iff.mpr h.endToEnd, fun bin _ ↦ bin.real_le, hpadded,
    h.real_eq_load, ?_⟩
  · rw [h.map_binIndex, plan.length_bins, List.range_eq_range']
  · have hsum : (plan.bins.map fun bin ↦ bin.realCount + bin.dummyCount).sum =
        (plan.bins.map (·.realCount)).sum + (plan.bins.map (·.dummyCount)).sum :=
      List.sum_map_add
    have hconst : plan.bins.map (fun bin ↦ bin.realCount + bin.dummyCount) =
        plan.bins.map fun _ ↦ capacity := List.map_congr_left hpadded
    rw [hconst, List.map_const', List.sum_replicate, plan.length_bins, plan.sum_realCount,
      smul_eq_mul] at hsum
    rw [BlockAllocationPlan.plannedSlots, hcapacity, hsum, BlockAllocationPlan.dummyCount]

/-- The loads that are sampled for a run. -/
def BinSizing.sampledLoads (sizing : BinSizing F) (blocks : Nat) (sampler : Nat → Int) :
    List Int := (List.range (sizing.binCount blocks)).map sampler

variable {sizing : BinSizing F} {n : Nat} {sampler : Nat → Int}

/-- Loads within the capacity are accepted. -/
theorem mapM_requireLoad (hloads : ∀ i < sizing.binCount n,
    0 ≤ sampler i ∧ sampler i ≤ sizing.capacity) :
    ((List.range (sizing.binCount n)).mapM fun i ↦ requireLoad sizing.capacity (sampler i)) =
      .ok (sizing.sampledLoads n sampler) :=
  mapM_eq_ok fun i hi ↦ by
    obtain ⟨hnonneg, hle⟩ := hloads i (List.mem_range.mp hi)
    rw [requireLoad, require_of hnonneg, ok_bind, require_of hle, ok_bind, pure_eq_ok]

variable [NoiseArithmetic F] {noise : Nat → F} (config : SwatBlockAllocationConfig F)

/-- Too few sampled loads are refused. -/
theorem allocateBlockBins_insufficient (hloads : ∀ i < sizing.binCount n,
    0 ≤ sampler i ∧ sampler i ≤ sizing.capacity) (hn : 0 < n)
    (hsum : (sizing.sampledLoads n sampler).sum < n) :
    allocateBlockBins sizing n config sampler noise = .error (.insufficientSampledCapacity n
      (sizing.sampledLoads n sampler).sum (sizing.binCount n) sizing.capacity config.seed) := by
  rw [allocateBlockBins, requirePlainInt_of n.zero_le, ok_bind, if_neg hn.ne',
    mapM_requireLoad hloads, ok_bind, require, if_neg (not_le.mpr hsum)]
  rfl

/-- Every estimate of the noisy prefix sums of the sampled loads is finite. -/
def BinSizing.FiniteNoise (sizing : BinSizing F) (n : Nat) (sampler : Nat → Int)
    (noise : Nat → F) : Prop :=
  NoisySums.FiniteFrom noise 1 (sizing.sampledLoads n sampler)
    (.zeros (Nat.clog 2 ((sizing.sampledLoads n sampler).length + 1)))

/-- Sampled loads that suffice are a plan. -/
theorem allocateBlockBins_eq_ok (hloads : ∀ i < sizing.binCount n,
    0 ≤ sampler i ∧ sampler i ≤ sizing.capacity) (hfinite : sizing.FiniteNoise n sampler noise)
    (hsum : ¬ (0 < n ∧ (sizing.sampledLoads n sampler).sum < n)) :
    ∃ plan, allocateBlockBins sizing n config sampler noise = .ok plan ∧
      plan.blockCount = n ∧ plan.binCapacityBlocks = sizing.capacity ∧
      plan.sampledLoads = sizing.sampledLoads n sampler ∧
      Allots n sizing.capacity 0 0 (sizing.sampledLoads n sampler) plan.bins := by
  have hlength : (sizing.sampledLoads n sampler).length = sizing.binCount n := by
    rw [BinSizing.sampledLoads, List.length_map, List.length_range]
  have hmem : ∀ load ∈ sizing.sampledLoads n sampler, 0 ≤ load ∧ load ≤ sizing.capacity := by
    intro load hload
    obtain ⟨i, hi, rfl⟩ := List.mem_map.mp hload
    exact hloads i (List.mem_range.mp hi)
  rw [allocateBlockBins, requirePlainInt_of n.zero_le, ok_bind]
  split_ifs with hzero
  · obtain rfl : n = 0 := hzero
    let plan : BlockAllocationPlan F :=
      { blockCount := 0
        binCapacityBlocks := sizing.capacity
        binCount := 0
        factor := sizing.factor
        bins := []
        sampledLoads := []
        noisyPrefixSums := [0]
        additiveErrorBlocks := 0
        config
        two_le_capacity := sizing.two_le_capacity
        length_bins := rfl
        length_sampledLoads := rfl
        length_noisyPrefixSums := rfl
        sum_realCount := rfl }
    exact ⟨plan, plan.make_self, rfl, rfl, rfl, .nil 0 0⟩
  · have hn : 0 < n := Nat.pos_of_ne_zero hzero
    have hsum : (n : Int) ≤ (sizing.sampledLoads n sampler).sum := not_lt.mp fun hlt ↦ hsum ⟨hn, hlt⟩
    obtain ⟨sums, error, hnoisy, hsums, herror⟩ := computeNoisyPrefixSums_spec hmem hfinite
    obtain ⟨bins, hbins, hallots⟩ := allotBins_spec 0 sizing.two_le_capacity
      n.zero_le hmem
    have hcover : (bins.map (·.realCount)).sum = n := by
      have hreal := hallots.sum_realCount n.zero_le
      omega
    let plan : BlockAllocationPlan F :=
      { blockCount := n
        binCapacityBlocks := sizing.capacity
        binCount := sizing.binCount n
        factor := sizing.factor
        bins
        sampledLoads := sizing.sampledLoads n sampler
        noisyPrefixSums := sums
        additiveErrorBlocks := error.toNat
        config
        two_le_capacity := sizing.two_le_capacity
        length_bins := hallots.length_eq.trans hlength
        length_sampledLoads := hlength
        length_noisyPrefixSums := hsums.trans (congrArg (· + 1) hlength)
        sum_realCount := hcover }
    refine ⟨plan, ?_, rfl, rfl, rfl, hallots⟩
    have hself := plan.make_self
    rw [show ((plan.additiveErrorBlocks : Nat) : Int) = error from Int.toNat_of_nonneg herror]
      at hself
    rw [mapM_requireLoad hloads, ok_bind, require_of hsum, ok_bind, hnoisy, ok_bind]
    show (allotBins sizing.capacity n 0 0 (sizing.sampledLoads n sampler) >>= fun bins ↦ _) = _
    rw [Nat.cast_zero] at hbins
    rw [hbins, ok_bind, ← hself]

theorem requireLoad_eq_ok {capacity : Nat} {load load' : Int}
    (h : requireLoad capacity load = .ok load') : load' = load ∧ 0 ≤ load ∧ load ≤ capacity := by
  obtain ⟨hnonneg, h⟩ := require_bind_eq_ok.mp h
  obtain ⟨hle, h⟩ := require_bind_eq_ok.mp h
  cases h
  exact ⟨rfl, hnonneg, hle⟩

/-- The bins of a plan are handed out from left to right. -/
theorem allots_of_allocateBlockBins {plan : BlockAllocationPlan F}
    (h : allocateBlockBins sizing n config sampler noise = .ok plan) :
    Allots n sizing.capacity 0 0 plan.sampledLoads plan.bins := by
  rw [allocateBlockBins, requirePlainInt_of n.zero_le, ok_bind] at h
  split_ifs at h with hzero
  · obtain ⟨hbins, hloads⟩ := BlockAllocationPlan.of_make h
    rw [hbins, hloads]
    exact .nil 0 0
  · obtain ⟨loads, hloads, h⟩ := bind_eq_ok.mp h
    obtain ⟨-, h⟩ := require_bind_eq_ok.mp h
    obtain ⟨⟨sums, error⟩, -, h⟩ := bind_eq_ok.mp h
    obtain ⟨bins, hbins, h⟩ := bind_eq_ok.mp h
    have hbounds : ∀ load ∈ loads, 0 ≤ load ∧ load ≤ sizing.capacity := by
      intro load hload
      obtain ⟨i, -, hi⟩ := exists_of_mem_mapM hloads hload
      obtain ⟨rfl, hbound⟩ := requireLoad_eq_ok hi
      exact hbound
    obtain ⟨bins', hbins', hallots⟩ := allotBins_spec 0 sizing.two_le_capacity n.zero_le hbounds
    rw [Nat.cast_zero, hbins] at hbins'
    obtain rfl := Except.ok.inj hbins'
    obtain ⟨hplan, hsampled⟩ := BlockAllocationPlan.of_make h
    rw [hplan, hsampled]
    exact hallots

/-- An allocation is refused for its sampled loads exactly when the run has blocks and the loads
do not suffice.  Every other allocation is a plan whose bins partition the run. -/
theorem allocateBlockBins_partitions (hloads : ∀ i < sizing.binCount n,
    0 ≤ sampler i ∧ sampler i ≤ sizing.capacity) (hfinite : sizing.FiniteNoise n sampler noise) :
    ((∃ blocks capacity bins z seed, allocateBlockBins sizing n config sampler noise =
        .error (.insufficientSampledCapacity blocks capacity bins z seed)) ↔
      0 < n ∧ (sizing.sampledLoads n sampler).sum < n) ∧
    (¬ (0 < n ∧ (sizing.sampledLoads n sampler).sum < n) →
      ∃ plan, allocateBlockBins sizing n config sampler noise = .ok plan ∧
        plan.binCount = sizing.binCount n ∧
        plan.Partitions n sizing.capacity (sizing.sampledLoads n sampler)) := by
  have hplan : ¬ (0 < n ∧ (sizing.sampledLoads n sampler).sum < n) →
      ∃ plan, allocateBlockBins sizing n config sampler noise = .ok plan ∧
        plan.binCount = sizing.binCount n ∧
        plan.Partitions n sizing.capacity (sizing.sampledLoads n sampler) := by
    intro hsum
    obtain ⟨plan, hok, rfl, hcapacity, hsampled, hallots⟩ :=
      allocateBlockBins_eq_ok config hloads hfinite hsum
    refine ⟨plan, hok, ?_, partitions_of_allots hcapacity hsampled hallots⟩
    rw [← plan.length_sampledLoads, hsampled, BinSizing.sampledLoads, List.length_map,
      List.length_range]
  refine ⟨⟨?_, fun ⟨hn, hsum⟩ ↦ ?_⟩, hplan⟩
  · rintro ⟨_, _, _, _, _, herror⟩
    by_contra hsum
    obtain ⟨plan, hok, -⟩ := hplan hsum
    rw [hok] at herror
    cases herror
  · exact ⟨_, _, _, _, _, allocateBlockBins_insufficient config hloads hn hsum⟩

/-- Bins of four blocks, as many as the run has blocks. -/
def smallSizing : BinSizing ℚ := ⟨4, by decide, 1, id⟩

/-- Loads that start with an empty bin. -/
def smallSampler : Nat → Int := fun i ↦ [0, 2, 3].getD i 0

def smallConfig : SwatBlockAllocationConfig ℚ := ⟨512, 1, 1 / 1000, 7⟩

theorem allocateBlockBins_partitions_small :
    (∃ plan, allocateBlockBins smallSizing (3 : Nat) smallConfig smallSampler (fun _ ↦ 0) =
      .ok plan ∧ plan.binCount = 3 ∧ plan.Partitions 3 4 [0, 2, 3]) ∧
    ∃ blocks capacity bins z seed, allocateBlockBins smallSizing (2 : Nat) smallConfig
      (fun _ ↦ 0) (fun _ ↦ 0) = .error (.insufficientSampledCapacity blocks capacity bins z seed)
    := by
  have hfinite : ∀ n sampler, smallSizing.FiniteNoise n sampler fun _ ↦ 0 := fun n sampler ↦
    NoisySums.finiteFrom_of_forall (fun _ ↦ rfl) _ _ _ _
  have hloads : ∀ i < smallSizing.binCount 3,
      0 ≤ smallSampler i ∧ smallSampler i ≤ smallSizing.capacity := by decide
  exact ⟨(allocateBlockBins_partitions smallConfig hloads (hfinite _ _)).2 (by decide),
    (allocateBlockBins_partitions smallConfig (by decide) (hfinite _ _)).1.mpr (by decide)⟩

end EnhancedLetIndex
