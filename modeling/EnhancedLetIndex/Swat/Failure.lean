import EnhancedLetIndex.Swat.Sampler

/-!
# How often sampled loads do not suffice

`allocate_block_bins` with the sampler of its configuration, over the real numbers and independent
uniform draws.  The probability that the loads do not suffice is computed from `geom_conv`
(`insufficient_probability`).  For one block it is the tail that the sizing tests, divided by a
power of the total weight, which is at most one: it is never less than the tail.
-/

namespace EnhancedLetIndex

/-! ## What an allocation raises -/

/-- The loads do not suffice. -/
def AllocationError.IsInsufficient : AllocationError → Prop
  | .insufficientSampledCapacity .. => True
  | _ => False

/-- `InsufficientSampledCapacity` is raised. -/
def RaisesInsufficient {α : Type} (x : Except AllocationError α) : Prop :=
  ∃ error, x = .error error ∧ error.IsInsufficient

section Allocate

variable {F : Type} [NoiseArithmetic F] {noise : Nat → F} {capacity n t : Nat}

open NoiseArithmetic

theorem NoiseState.step_notFinite {s : NoiseState F} (load : Int) (h : s.Room n) (ht : 0 < t)
    (htn : t ≤ n)
    (hfinite : isFinite ((s.sums.absorb (trailingZeros t) load (noise t)).running t) ≠ true) :
    s.step capacity noise t load = .error .notFinite := by
  have hindex : trailingZeros t < s.sums.blockSums.length := by
    rw [h.blockSums]
    exact lt_clog_of_two_pow_le (two_pow_trailingZeros_le ht) htn
  obtain ⟨-, hnoisy⟩ := s.sums.length_absorb (trailingZeros t) load (noise t)
  have hlog : t.log2 < (s.sums.absorb (trailingZeros t) load (noise t)).noisySums.length := by
    rw [hnoisy, h.noisySums]
    exact lt_clog_of_two_pow_le (Nat.log2_self_le ht.ne') htn
  have hcast : pinnedUint32Cast ((s.sums.absorb (trailingZeros t) load (noise t)).running t) =
      .error .notFinite := by
    rw [pinnedUint32Cast, require, if_neg hfinite]
    rfl
  rw [step]
  simp only [require_of hindex, require_of hlog, hcast, ok_bind]
  rfl

/-- An estimate that is not finite is refused. -/
theorem noiseLoop_notFinite {loads : List Int} {s : NoiseState F} (h : s.Room n) (ht : 0 < t)
    (htn : t + loads.length ≤ n + 1) (hfinite : ¬ NoisySums.FiniteFrom noise t loads s.sums) :
    noiseLoop capacity noise t loads s = .error .notFinite := by
  induction loads generalizing t s with
  | nil => exact absurd trivial hfinite
  | cons load loads ih =>
    rw [List.length_cons] at htn
    by_cases hstep :
        isFinite ((s.sums.absorb (trailingZeros t) load (noise t)).running t) = true
    · obtain ⟨s₁, hs₁, hroom, hsums⟩ :=
        NoiseState.step_spec capacity noise load h ht (by omega) hstep
      rw [noiseLoop, hs₁, ok_bind]
      exact ih hroom t.succ_pos (by omega) fun hrest ↦ hfinite ⟨hstep, hsums ▸ hrest⟩
    · rw [noiseLoop, NoiseState.step_notFinite load h ht (by omega) hstep]
      rfl

theorem computeNoisyPrefixSums_notFinite {loads : List Int}
    (hloads : ∀ load ∈ loads, 0 ≤ load ∧ load ≤ capacity)
    (hfinite : ¬ NoisySums.FiniteFrom noise 1 loads (.zeros (Nat.clog 2 (loads.length + 1)))) :
    computeNoisyPrefixSums capacity noise loads = .error .notFinite := by
  have hne : loads ≠ [] := by
    rintro rfl
    exact hfinite trivial
  have hroom : NoiseState.Room loads.length
      ⟨.zeros (Nat.clog 2 (loads.length + 1)), .replicate (loads.length + 1) 0, 0, 0⟩ (F := F) :=
    ⟨List.length_replicate, List.length_replicate, List.length_replicate, le_rfl⟩
  rw [computeNoisyPrefixSums, mapM_requireLoad_self hloads, ok_bind, if_neg hne,
    noiseLoop_notFinite hroom Nat.one_pos (by omega) hfinite]
  rfl

/-- Sampled loads are refused for want of capacity exactly when they do not suffice. -/
theorem raisesInsufficient_iff {sizing : BinSizing F} {config : SwatBlockAllocationConfig F}
    {sampler : Nat → Int} (hloads : ∀ i < sizing.binCount n,
      0 ≤ sampler i ∧ sampler i ≤ sizing.capacity) :
    RaisesInsufficient (allocateBlockBins sizing n config sampler noise) ↔
      (sizing.sampledLoads n sampler).sum < n := by
  constructor
  · rintro ⟨error, herror, hkind⟩
    by_contra hsum
    by_cases hfinite : sizing.FiniteNoise n sampler noise
    · obtain ⟨plan, hplan, -⟩ :=
        allocateBlockBins_eq_ok config hloads hfinite fun hboth ↦ hsum hboth.2
      cases hplan.symm.trans herror
    · have hn : n ≠ 0 := by
        rintro rfl
        exact hfinite trivial
      have hmem : ∀ load ∈ sizing.sampledLoads n sampler, 0 ≤ load ∧ load ≤ sizing.capacity := by
        intro load hload
        obtain ⟨i, hi, rfl⟩ := List.mem_map.mp hload
        exact hloads i (List.mem_range.mp hi)
      rw [allocateBlockBins, requirePlainInt_of n.zero_le, ok_bind, if_neg hn,
        mapM_requireLoad hloads, ok_bind, require_of (not_lt.mp hsum), ok_bind,
        computeNoisyPrefixSums_notFinite hmem hfinite] at herror
      cases herror
      exact hkind
  · intro hsum
    have hn : 0 < n := by
      rcases Nat.eq_zero_or_pos n with rfl | hn
      · exact absurd hsum (lt_irrefl 0)
      · exact hn
    exact ⟨_, allocateBlockBins_insufficient config hloads hn hsum, trivial⟩

end Allocate

/-! ## A configuration over the real numbers -/

/-- Exact arithmetic of real numbers. -/
noncomputable instance realNoise : NoiseArithmetic ℝ where
  zero := 0
  add := (· + ·)
  ofInt n := n
  isFinite _ := true
  nonpos x := decide (x ≤ 0)
  saturates x := decide ((2 ^ 32 - 1 : Nat) ≤ x)
  truncate x := ⌊x⌋

namespace SwatBlockAllocationConfig

variable (config : SwatBlockAllocationConfig ℝ)

/-- What `__post_init__` checks. -/
structure Valid : Prop where
  two_le_lambda : 2 ≤ config.securityLambda
  epsilon_pos : 0 < config.privacyEpsilon
  delta_pos : 0 < config.privacyDelta
  delta_lt_one : config.privacyDelta < 1
  one_lt_sq : 1 < Real.log config.securityLambda ^ 2

/-- The exponential of minus epsilon. -/
noncomputable def alpha : ℝ := Real.exp (-config.privacyEpsilon)

/-- The numbers of the configuration. -/
noncomputable def numbers (h : config.Valid) : SizingNumbers ℝ where
  logLambda := Real.log config.securityLambda
  epsilon := config.privacyEpsilon
  alpha := config.alpha
  delta := config.privacyDelta
  one_lt_sq := h.one_lt_sq
  epsilon_pos := h.epsilon_pos

variable {config}

theorem alpha_pos : 0 < config.alpha := Real.exp_pos _

theorem Valid.alpha_lt_one (h : config.Valid) : config.alpha < 1 :=
  Real.exp_lt_one_iff.mpr (neg_neg_iff_pos.mpr h.epsilon_pos)

/-- The sampler of the configuration. -/
theorem Valid.exists_sampler (h : config.Valid) : ∃ sampler,
    GeometricLoadSampler.make (config.numbers h).sizing.capacity config.alpha = .ok sampler ∧
      sampler.binCapacityBlocks = (config.numbers h).sizing.capacity ∧
      sampler.Draws (computeWeight config.alpha (config.numbers h).sizing.capacity) :=
  GeometricLoadSampler.exists_make alpha_pos h.alpha_lt_one
    (config.numbers h).even_computeBinCapacityBlocks (config.numbers h).sizing.two_le_capacity

end SwatBlockAllocationConfig

/-- The loads that are sampled with some draws. -/
noncomputable def GeometricLoadSampler.loads {B : Nat} (sampler : GeometricLoadSampler ℝ)
    (draws : Fin B → ℝ) (i : Nat) : Int :=
  if h : i < B then sampler.sample (draws ⟨i, h⟩) else 0

theorem GeometricLoadSampler.sum_sampledLoads (sampler : GeometricLoadSampler ℝ)
    (sizing : BinSizing ℝ) {n : Nat} (draws : Fin (sizing.binCount n) → ℝ) :
    (sizing.sampledLoads n (sampler.loads draws)).sum =
      ((∑ i, sampler.sample (draws i) : Nat) : Int) := by
  have hrange : (sizing.sampledLoads n (sampler.loads draws)).sum =
      ∑ i ∈ Finset.range (sizing.binCount n), sampler.loads draws i := rfl
  rw [hrange, Finset.sum_range, Nat.cast_sum]
  exact Finset.sum_congr rfl fun i _ ↦ dif_pos i.isLt

section Probability

open MeasureTheory Finset

variable {sizing : BinSizing ℝ} {alpha : ℝ} {sampler : GeometricLoadSampler ℝ} {n : Nat}

/-- The probability that sampled loads do not suffice. -/
theorem GeometricLoadSampler.Draws.real_raisesInsufficient
    (h : sampler.Draws (computeWeight alpha sizing.capacity)) (heven : Even sizing.capacity)
    (hcount : 0 < n → 1 ≤ sizing.binCount n) (config : SwatBlockAllocationConfig ℝ)
    (noise : Nat → ℝ) :
    (uniformDraws (sizing.binCount n)).real {draws |
        RaisesInsufficient (allocateBlockBins sizing n config (sampler.loads draws) noise)} =
      (∑ s ∈ range n, (geomConv alpha sizing.capacity (sizing.binCount n)).getD s 0) /
        sampler.total ^ sizing.binCount n := by
  have hloads (draws : Fin (sizing.binCount n) → ℝ) : ∀ i < sizing.binCount n,
      0 ≤ sampler.loads draws i ∧ sampler.loads draws i ≤ sizing.capacity := by
    intro i hi
    have hlt := h.sample_lt (draws ⟨i, hi⟩)
    rw [length_computeWeight heven] at hlt
    rw [GeometricLoadSampler.loads, dif_pos hi]
    exact ⟨Int.natCast_nonneg _, Int.ofNat_le.mpr (Nat.le_of_lt_succ hlt)⟩
  have hevent : {draws : Fin (sizing.binCount n) → ℝ |
      RaisesInsufficient (allocateBlockBins sizing n config (sampler.loads draws) noise)} =
        {draws | ∑ i, sampler.sample (draws i) ∈ range n} := by
    ext draws
    refine (raisesInsufficient_iff (hloads draws)).trans ?_
    rw [sampler.sum_sampledLoads, Int.ofNat_lt]
    exact mem_range.symm
  rw [hevent, h.real_sum_mem]
  congr 1
  refine sum_congr rfl fun s hs ↦ ?_
  have hn : 0 < n := Nat.zero_lt_of_lt (mem_range.mp hs)
  rw [← generating_geomConv alpha sizing.capacity (hcount hn), coeff_generating]

namespace SizingNumbers

variable (numbers : SizingNumbers ℝ)

theorem binCount_pos (hn : 0 < n) : 1 ≤ numbers.sizing.binCount n := by
  have hfactor := numbers.computeFactor_pos
    (Nat.zero_lt_of_lt numbers.sizing.two_le_capacity)
  rw [BinSizing.binCount, if_neg hn.ne']
  exact Nat.ceil_pos.mpr (mul_pos hfactor (Nat.cast_pos.mpr hn))

end SizingNumbers

namespace SwatBlockAllocationConfig

variable {config : SwatBlockAllocationConfig ℝ}

/-- The probability that an allocation of `n` blocks raises `InsufficientSampledCapacity`. -/
noncomputable def failureProbability (h : config.Valid) (sampler : GeometricLoadSampler ℝ)
    (n : Nat) (noise : Nat → ℝ) : ℝ :=
  (uniformDraws ((config.numbers h).sizing.binCount n)).real {draws | RaisesInsufficient
    (allocateBlockBins (config.numbers h).sizing n config (sampler.loads draws) noise)}

theorem failureProbability_eq (h : config.Valid) {sampler : GeometricLoadSampler ℝ}
    (hdraws : sampler.Draws (computeWeight config.alpha (config.numbers h).sizing.capacity))
    (n : Nat) (noise : Nat → ℝ) : failureProbability h sampler n noise =
      (∑ s ∈ range n, (geomConv config.alpha (config.numbers h).sizing.capacity
          ((config.numbers h).sizing.binCount n)).getD s 0) /
        sampler.total ^ (config.numbers h).sizing.binCount n :=
  hdraws.real_raisesInsufficient (config.numbers h).even_computeBinCapacityBlocks
    (config.numbers h).binCount_pos config noise

end SwatBlockAllocationConfig

end Probability

open SwatBlockAllocationConfig

variable {config : SwatBlockAllocationConfig ℝ}

/-- Sampled loads add up to what `geom_conv` says, normalised, and so the probability that the
loads of a run do not suffice is a tail of it. -/
theorem insufficient_probability (h : config.Valid) : ∃ sampler,
    GeometricLoadSampler.make (config.numbers h).sizing.capacity config.alpha = .ok sampler ∧
      (∀ count s, 1 ≤ count →
        (uniformDraws count).real {draws | ∑ i, sampler.sample (draws i) = s} =
          (geomConv config.alpha (config.numbers h).sizing.capacity count).getD s 0 /
            sampler.total ^ count) ∧
      ∀ n noise, failureProbability h sampler n noise =
        (∑ s ∈ Finset.range n, (geomConv config.alpha (config.numbers h).sizing.capacity
            ((config.numbers h).sizing.binCount n)).getD s 0) /
          sampler.total ^ (config.numbers h).sizing.binCount n := by
  obtain ⟨sampler, hmake, -, hdraws⟩ := h.exists_sampler
  refine ⟨sampler, hmake, fun count s hcount ↦ ?_, failureProbability_eq h hdraws⟩
  have hsum := hdraws.real_sum_mem count {s}
  rw [Finset.sum_singleton, ← generating_geomConv _ _ hcount, coeff_generating] at hsum
  rw [← hsum]
  simp only [Finset.mem_singleton]

/-- `swat_reference_config`. -/
noncomputable def swatReferenceConfig (seed : Nat) : SwatBlockAllocationConfig ℝ :=
  ⟨512, 1, 1 / 10 ^ 12, seed⟩

theorem valid_swatReferenceConfig (seed : Nat) : (swatReferenceConfig seed).Valid where
  two_le_lambda := by norm_num [swatReferenceConfig]
  epsilon_pos := one_pos
  delta_pos := by norm_num [swatReferenceConfig]
  delta_lt_one := by norm_num [swatReferenceConfig]
  one_lt_sq := by
    have hlog : Real.log ((512 : Nat) : ℝ) = 9 * Real.log 2 := by
      rw [show ((512 : Nat) : ℝ) = 2 ^ 9 by norm_num, Real.log_pow]
      norm_num
    have hlarge : 1 < Real.log ((512 : Nat) : ℝ) := by
      rw [hlog]
      linarith [Real.log_two_gt_d9]
    exact one_lt_pow₀ hlarge two_ne_zero

theorem insufficient_probability_reference : ∃ sampler : GeometricLoadSampler ℝ, ∀ noise,
    failureProbability (valid_swatReferenceConfig 7) sampler 0 noise = 0 ∧
      failureProbability (valid_swatReferenceConfig 7) sampler 1 noise =
        (geomConv (swatReferenceConfig 7).alpha
            ((swatReferenceConfig 7).numbers (valid_swatReferenceConfig 7)).sizing.capacity
            (((swatReferenceConfig 7).numbers (valid_swatReferenceConfig 7)).sizing.binCount
              1)).getD 0 0 /
          sampler.total ^ ((swatReferenceConfig 7).numbers
            (valid_swatReferenceConfig 7)).sizing.binCount 1 := by
  obtain ⟨sampler, -, -, hprobability⟩ := insufficient_probability (valid_swatReferenceConfig 7)
  refine ⟨sampler, fun noise ↦ ⟨?_, ?_⟩⟩
  · rw [hprobability 0 noise, Finset.range_zero, Finset.sum_empty, zero_div]
  · rw [hprobability 1 noise, Finset.sum_range_one]

end EnhancedLetIndex
