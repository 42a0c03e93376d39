import EnhancedLetIndex.Swat.Failure
import EnhancedLetIndex.Swat.PrefixSums

/-!
# How accurate the noisy prefix sums are

`compute_noisy_prefix_sums` over the real numbers, with the noise of `LaplaceSampler`.  An estimate
is off by the noise of as many draws as its number has bits (`NoisySums.Near.running`), and what the
loop makes of the estimates is no worse than the worst of them (`NoiseState.Near.step`).  So the
additive error is small with high probability (`additiveError_probability`).
-/

namespace EnhancedLetIndex

/-! ## The open blocks -/

namespace NoisySums

/-- The blocks open after `t` loads: each holds its loads, and noise within a bound. -/
structure Near (P : Nat → Int) (x : ℝ) (t : Nat) (s : NoisySums ℝ) : Prop where
  blockSums (l : Nat) : s.blockSums.getD l 0 = P (alignedTo t l) - P (alignedTo t (l + 1))
  noisySums {l : Nat} (h : t.testBit l = true) : |s.noisySums.getD l NoiseArithmetic.zero -
    ((P (alignedTo t l) - P (alignedTo t (l + 1)) : Int) : ℝ)| ≤ x

namespace Near

variable {P : Nat → Int} {x noise : ℝ} {t : Nat} {s : NoisySums ℝ} {load : Int}

theorem zeros (levels : Nat) : Near P x 0 (.zeros levels) where
  blockSums l := by
    rw [alignedTo_eq_zero (Nat.two_pow_pos l), alignedTo_eq_zero (Nat.two_pow_pos _), sub_self,
      List.getD_eq_getElem?_getD]
    exact List.getElem?_getD_replicate_default_eq 0 levels l
  noisySums h := by
    rw [Nat.zero_testBit] at h
    cases h

/-- The load that opens the next block, with those of the blocks it closes. -/
theorem sum_closed (h : Near P x t s) {level : Nat} (hP : P (t + 1) = P t + load)
    (hlevel : LowestBit (t + 1) level) :
    load + ((List.range level).map (s.blockSums.getD · 0)).sum =
      P (alignedTo (t + 1) level) - P (alignedTo (t + 1) (level + 1)) := by
  have hsum := sum_map_blocks P t level
  rw [funext h.blockSums, hsum, hlevel.alignedTo_eq_self le_rfl, hlevel.alignedTo_succ,
    Nat.add_sub_cancel, hP]
  ring

/-- A load with noise within the bound keeps the blocks near. -/
theorem absorb (h : Near P x t s) (hP : P (t + 1) = P t + load) (hnoise : |noise| ≤ x)
    (hblock : trailingZeros (t + 1) < s.blockSums.length)
    (hnoisy : trailingZeros (t + 1) < s.noisySums.length) :
    Near P x (t + 1) (s.absorb (trailingZeros (t + 1)) load noise) := by
  have hlevel : LowestBit (t + 1) (trailingZeros (t + 1)) := lowestBit_trailingZeros t.succ_pos
  generalize trailingZeros (t + 1) = level at hblock hnoisy hlevel
  have hclosed := h.sum_closed hP hlevel
  constructor
  · intro l
    rcases Nat.lt_trichotomy l level with hl | rfl | hl
    · rw [getD_blockSums_absorb (Nat.ne_of_gt hl), if_pos hl, hlevel.alignedTo_eq_self hl.le,
        hlevel.alignedTo_eq_self hl, sub_self]
    · rw [getD_blockSums_absorb_self hblock, hclosed]
    · rw [getD_blockSums_absorb (Nat.ne_of_lt hl), if_neg (Nat.lt_asymm hl), h.blockSums,
        hlevel.alignedTo_pred hl, hlevel.alignedTo_pred (Nat.lt_succ_of_lt hl), Nat.add_sub_cancel]
  · intro l hbit
    rcases Nat.lt_trichotomy l level with hl | rfl | hl
    · rw [hlevel.testBit_of_lt hl] at hbit
      cases hbit
    · rw [getD_noisySums_absorb_self hnoisy, hclosed]
      show |((P _ - P _ : Int) : ℝ) + noise - _| ≤ x
      rwa [add_sub_cancel_left]
    · rw [hlevel.testBit_pred hl, Nat.add_sub_cancel] at hbit
      rw [getD_noisySums_absorb hl, hlevel.alignedTo_pred hl,
        hlevel.alignedTo_pred (Nat.lt_succ_of_lt hl), Nat.add_sub_cancel]
      exact h.noisySums hbit

/-- The noisy sums of the bits below a level are off by the bound at most once for each. -/
theorem foldl_running (h : Near P x t s) (level : Nat) :
    |(List.range level).foldl (fun sum l ↦
        if t.testBit l then NoiseArithmetic.add sum (s.noisySums.getD l NoiseArithmetic.zero)
        else sum) (NoiseArithmetic.zero : ℝ) - ((P t - P (alignedTo t level) : Int) : ℝ)| ≤
      ((List.range level).filter t.testBit).length * x := by
  induction level with
  | zero =>
    rw [alignedTo_zero, sub_self, Int.cast_zero, sub_zero, List.range_zero, List.filter_nil,
      List.length_nil, Nat.cast_zero, zero_mul]
    exact (abs_zero (α := ℝ)).le
  | succ level ih =>
    rw [List.range_succ, List.foldl_append, List.foldl_cons, List.foldl_nil, List.filter_append,
      List.length_append]
    generalize (List.range level).foldl _ _ = sum at ih ⊢
    split_ifs with hbit
    · rw [List.filter_singleton, hbit, cond_true, List.length_singleton]
      have hnoisy := h.noisySums hbit
      have hsplit : ((P t - P (alignedTo t (level + 1)) : Int) : ℝ) =
          ((P t - P (alignedTo t level) : Int) : ℝ) +
            ((P (alignedTo t level) - P (alignedTo t (level + 1)) : Int) : ℝ) := by
        push_cast
        ring
      rw [hsplit, Nat.cast_add, Nat.cast_one, add_mul, one_mul]
      show |sum + s.noisySums.getD level NoiseArithmetic.zero - _| ≤ _
      rw [add_sub_add_comm]
      exact (abs_add_le _ _).trans (add_le_add ih hnoisy)
    · rw [Bool.not_eq_true] at hbit
      rw [List.filter_singleton, hbit, cond_false, List.length_nil, Nat.add_zero,
        alignedTo_succ_of_not_testBit hbit]
      exact ih

/-- An estimate is off by the bound at most once for each bit of its number. -/
theorem running (h : Near P x t s) (hP : P 0 = 0) (hx : 0 ≤ x) :
    |s.running t - P t| ≤ (t.log2 + 1) * x := by
  have hsum := h.foldl_running (t.log2 + 1)
  rw [alignedTo_eq_zero Nat.lt_log2_self, hP, sub_zero] at hsum
  refine hsum.trans (mul_le_mul_of_nonneg_right ?_ hx)
  exact_mod_cast (List.length_filter_le _ _).trans_eq List.length_range

end Near

end NoisySums

/-! ## What the loop makes of an estimate -/

/-- A cast is at most as far from an integer that it can return as what is cast. -/
theorem abs_pinnedUint32Cast_sub_le {estimate : ℝ} {value target : Int} {d : Nat}
    (h : pinnedUint32Cast estimate = .ok value) (hnonneg : 0 ≤ target) (hle : target ≤ 2 ^ 32 - 1)
    (hnear : |estimate - target| ≤ d) : |value - target| ≤ d := by
  obtain ⟨hlow, hhigh⟩ := abs_le.mp hnear
  have hlow' : ((target - d : Int) : ℝ) ≤ estimate := by
    push_cast
    linarith
  have hhigh' : estimate ≤ ((target + d : Int) : ℝ) := by
    push_cast
    linarith
  obtain ⟨-, h⟩ := require_bind_eq_ok.mp h
  cases h
  rw [abs_le]
  split_ifs with hnonpos hsaturates
  · have hzero := hlow'.trans (of_decide_eq_true hnonpos : estimate ≤ 0)
    rw [Int.cast_nonpos] at hzero
    omega
  · have hmost := (of_decide_eq_true hsaturates : ((2 ^ 32 - 1 : Nat) : ℝ) ≤ estimate).trans hhigh'
    have hmost' : (2 ^ 32 - 1 : Int) ≤ target + d := by exact_mod_cast hmost
    omega
  · have hfloor : target - d ≤ ⌊estimate⌋ := Int.le_floor.mpr hlow'
    have hfloor' : ⌊estimate⌋ ≤ target + d := Int.cast_le.mp ((Int.floor_le estimate).trans hhigh')
    show -(d : Int) ≤ ⌊estimate⌋ - target ∧ ⌊estimate⌋ - target ≤ d
    omega

theorem abs_clipPrefixSum_le (capacity : Nat) {d : Nat} {currentSum value : Int}
    (h : |value - currentSum| ≤ d) : |clipPrefixSum capacity currentSum value - currentSum| ≤ d := by
  rw [abs_le] at h ⊢
  rw [clipPrefixSum]
  split_ifs <;> omega

namespace NoiseState

/-- The prefix sums set so far are within a distance of the true ones. -/
structure Near (P : Nat → Int) (d t : Nat) (s : NoiseState ℝ) : Prop where
  currentSum : s.currentSum = P t
  near {j : Nat} (h : j ≤ t) : |s.prefixSums.getD j 0 - P j| ≤ d
  error : s.additiveError ≤ d

variable {P : Nat → Int} {capacity d n t : Nat} {noise : Nat → ℝ} {x : ℝ} {s s' : NoiseState ℝ}
  {load : Int}

theorem near_start (hP : P 0 = 0) (d n : Nat) : (start n : NoiseState ℝ).Near P d 0 where
  currentSum := hP.symm
  near h := by
    rw [Nat.le_zero.mp h, hP]
    exact (abs_zero (α := ℤ)).trans_le (Int.natCast_nonneg d)
  error := Int.natCast_nonneg d

/-- A step whose estimate is near sets a sum that is near. -/
theorem Near.step (h : s.Near P d t) (hroom : s.Room n) (htn : t + 1 ≤ n)
    (hP : P (t + 1) = P t + load) (hload : 0 ≤ load) (hnonneg : 0 ≤ P (t + 1))
    (hle : P (t + 1) ≤ 2 ^ 32 - 1)
    (hnear : |(s.sums.absorb (trailingZeros (t + 1)) load (noise (t + 1))).running (t + 1) -
      P (t + 1)| ≤ d) : ∃ s', s.step capacity noise (t + 1) load = .ok s' ∧ s'.Room n ∧
        s'.sums = s.sums.absorb (trailingZeros (t + 1)) load (noise (t + 1)) ∧
        s'.Near P d (t + 1) := by
  have ht : 0 < t + 1 := t.succ_pos
  obtain ⟨s', hstep, hroom', hsums⟩ := step_spec capacity noise load hroom ht htn rfl
  refine ⟨s', hstep, hroom', hsums, ?_⟩
  rw [NoiseState.step] at hstep
  obtain ⟨-, hstep⟩ := require_bind_eq_ok.mp hstep
  obtain ⟨-, hstep⟩ := require_bind_eq_ok.mp hstep
  obtain ⟨estimate, hcast, hstep⟩ := bind_eq_ok.mp hstep
  obtain ⟨hlength, hstep⟩ := require_bind_eq_ok.mp hstep
  have hcurrent : s.currentSum + load = P (t + 1) := by rw [h.currentSum, hP]
  have hestimate := abs_le.mp (abs_pinnedUint32Cast_sub_le hcast hnonneg hle hnear)
  have hbefore := abs_le.mp (h.near le_rfl)
  rw [hcurrent, Nat.add_sub_cancel] at hstep
  -- the sum before is no worse than the estimate that it replaces
  have hvalue : |(if estimate < s.prefixSums.getD t 0 then s.prefixSums.getD t 0 else estimate) -
      P (t + 1)| ≤ d := by
    rw [abs_le]
    split_ifs <;> omega
  have hclip := abs_clipPrefixSum_le capacity hvalue
  cases hstep
  refine ⟨rfl, fun {j} hj ↦ ?_, max_le h.error ((abs_sub_comm _ _).trans_le hclip)⟩
  rcases Nat.le_succ_iff.mp hj with hle | rfl
  · rw [getD_set_of_ne (Nat.ne_of_gt (Nat.lt_succ_of_le hle))]
    exact h.near hle
  · rw [getD_set_self hlength]
    exact hclip

end NoiseState

/-! ## The loop -/

section Loop

open NoiseState

variable {capacity d n : Nat} {noise : Nat → ℝ} {x : ℝ} {P : Nat → Int}

/-- The loop from load `t` on, with noise within a bound. -/
theorem noiseLoop_near (hx : 0 ≤ x) (hnoise : ∀ t, 0 < t → t ≤ n → |noise t| ≤ x)
    (hd : (n.log2 + 1) * x ≤ d) (hzero : P 0 = 0) (hrange : ∀ t ≤ n, 0 ≤ P t ∧ P t ≤ 2 ^ 32 - 1)
    {loads : List Int} {t : Nat} {s : NoiseState ℝ} (hroom : s.Room n)
    (hn : t + loads.length = n) (hloads : ∀ load ∈ loads, 0 ≤ load)
    (hP : ∀ (j : Nat) (hj : j < loads.length), P (t + j + 1) = P (t + j) + loads[j])
    (hsums : s.sums.Near P x t) (hnear : s.Near P d t) :
    ∃ s', noiseLoop capacity noise (t + 1) loads s = .ok s' ∧ s'.Near P d n := by
  induction loads generalizing t s with
  | nil =>
    obtain rfl : t = n := hn
    exact ⟨s, rfl, hnear⟩
  | cons load loads ih =>
    obtain ⟨hload, hloads⟩ := List.forall_mem_cons.mp hloads
    rw [List.length_cons] at hn
    have htn : t + 1 ≤ n := by omega
    have hnext : P (t + 1) = P t + load := hP 0 (Nat.succ_pos _)
    have hlevel : trailingZeros (t + 1) < Nat.clog 2 (n + 1) :=
      lt_clog_of_two_pow_le (two_pow_trailingZeros_le t.succ_pos) htn
    have habsorbed := hsums.absorb hnext (hnoise (t + 1) t.succ_pos htn)
      (hroom.blockSums.symm ▸ hlevel) (hroom.noisySums.symm ▸ hlevel)
    have hlog : ((t + 1).log2 + 1) * x ≤ d := by
      refine (mul_le_mul_of_nonneg_right ?_ hx).trans hd
      have hmono : (t + 1).log2 ≤ n.log2 := by
        rw [Nat.log2_eq_log_two, Nat.log2_eq_log_two]
        exact Nat.log_mono_right htn
      exact_mod_cast Nat.succ_le_succ hmono
    obtain ⟨hnonneg, hle⟩ := hrange (t + 1) htn
    obtain ⟨s₁, hstep, hroom₁, hsums₁, hnear₁⟩ := hnear.step hroom htn hnext hload hnonneg hle
      ((habsorbed.running hzero hx).trans hlog)
    rw [noiseLoop, hstep, ok_bind]
    refine ih hroom₁ (by omega) hloads (fun j hj ↦ ?_) (hsums₁ ▸ habsorbed) hnear₁
    rw [Nat.add_right_comm t 1 j]
    exact hP (j + 1) (Nat.succ_lt_succ hj)

/-- With noise within a bound every prefix sum is near the true one. -/
theorem computeNoisyPrefixSums_near {loads : List Int} (hx : 0 ≤ x)
    (hnoise : ∀ t, 0 < t → t ≤ loads.length → |noise t| ≤ x)
    (hd : (loads.length.log2 + 1) * x ≤ d)
    (hloads : ∀ load ∈ loads, 0 ≤ load ∧ load ≤ capacity) (hsum : loads.sum ≤ 2 ^ 32 - 1) :
    ∃ sums error, computeNoisyPrefixSums capacity noise loads = .ok (sums, error) ∧ error ≤ d ∧
      ∀ t ≤ loads.length, |sums.getD t 0 - truePrefixSum loads t| ≤ d := by
  have hnonneg : ∀ load ∈ loads, 0 ≤ load := fun load hload ↦ (hloads load hload).1
  have hrange : ∀ t ≤ loads.length, 0 ≤ truePrefixSum loads t ∧
      truePrefixSum loads t ≤ 2 ^ 32 - 1 := fun t ht ↦ by
    refine ⟨List.sum_nonneg fun load hload ↦ hnonneg load (List.mem_of_mem_take hload), ?_⟩
    refine (sum_take_mono hnonneg ht).trans ?_
    rwa [List.take_length]
  have hroom : (start loads.length : NoiseState ℝ).Room loads.length :=
    ⟨List.length_replicate, List.length_replicate, List.length_replicate, le_rfl⟩
  obtain ⟨s, hs, hnear⟩ := noiseLoop_near hx hnoise hd (truePrefixSum_zero loads) hrange hroom
    (Nat.zero_add _) hnonneg (fun j hj ↦ by rw [Nat.zero_add]; exact truePrefixSum_succ hj)
    (.zeros _) (near_start (truePrefixSum_zero loads) d loads.length)
  refine ⟨s.prefixSums, s.additiveError, ?_, hnear.error, fun t ht ↦ hnear.near ht⟩
  rw [computeNoisyPrefixSums, mapM_requireLoad_self hloads, ok_bind]
  split_ifs with hnil
  · subst hnil
    cases hs
    rfl
  · exact (congrArg (· >>= _) hs).trans rfl

end Loop

/-! ## Laplace noise -/

/-- `_SMALLEST_POSITIVE_UNIFORM`, the least positive number that the stream returns. -/
noncomputable def smallestPositiveUniform : ℝ := 1 / (2 ^ 53 : Nat)

/-- `LaplaceSampler.sample`, with what the stream returns. -/
noncomputable def laplaceSample (scale random : ℝ) : ℝ :=
  let half : ℝ := 1 / (2 : Nat)
  let draw := if random ≤ 0 then smallestPositiveUniform else random
  let sign := if draw > half then 1 else -1;
  -scale * sign * Real.log (1 - (2 : Nat) * |draw - half|)

/-- The draws whose noise is within a bound. -/
theorem abs_laplaceSample_le {scale x random : ℝ} (hscale : 0 < scale)
    (hrandom : random ∈ Set.Icc (Real.exp (-x / scale) / 2) (1 - Real.exp (-x / scale) / 2)) :
    |laplaceSample scale random| ≤ x := by
  obtain ⟨hlow, hhigh⟩ := hrandom
  have hexp : 0 < Real.exp (-x / scale) := Real.exp_pos _
  have hpos : ¬ random ≤ 0 := by linarith
  have hnear : |random - 1 / 2| ≤ 1 / 2 - Real.exp (-x / scale) / 2 := by
    rw [abs_le]
    constructor <;> linarith
  have htail : Real.exp (-x / scale) ≤ 1 - 2 * |random - 1 / 2| := by linarith
  have hlog : -x / scale ≤ Real.log (1 - 2 * |random - 1 / 2|) :=
    (Real.le_log_iff_exp_le (hexp.trans_le htail)).mpr htail
  have hlog' : Real.log (1 - 2 * |random - 1 / 2|) ≤ 0 :=
    Real.log_nonpos (hexp.le.trans htail) (by linarith [abs_nonneg (random - 1 / 2)])
  rw [div_le_iff₀ hscale] at hlog
  simp only [laplaceSample, if_neg hpos, Nat.cast_ofNat, abs_le]
  split_ifs <;> constructor <;> nlinarith

/-- The noise of the steps of the loop, one draw for each. -/
noncomputable def laplaceNoise {n : Nat} (epsilon : ℝ) (draws : Fin n → ℝ) (t : Nat) : ℝ :=
  if h : t - 1 < n then laplaceSample (1 / epsilon) (draws ⟨t - 1, h⟩) else 0

/-- The additive error is at most a bound, and so is the deviation of every prefix sum, unless one
of the draws is in the tail of the Laplace law. -/
theorem additiveError_probability {capacity : Nat} {epsilon : ℝ} (hepsilon : 0 < epsilon)
    {loads : List Int} (hloads : ∀ load ∈ loads, 0 ≤ load ∧ load ≤ capacity)
    (hsum : loads.sum ≤ 2 ^ 32 - 1) (d : Nat) :
    (1 - Real.exp (-(epsilon * d / (loads.length.log2 + 1)))) ^ loads.length ≤
      (uniformDraws loads.length).real {draws | ∃ sums error,
        computeNoisyPrefixSums capacity (laplaceNoise epsilon draws) loads = .ok (sums, error) ∧
          error ≤ d ∧ ∀ t ≤ loads.length, |sums.getD t 0 - truePrefixSum loads t| ≤ d} := by
  have hlevels : (0 : ℝ) < loads.length.log2 + 1 := by positivity
  let x : ℝ := d / (loads.length.log2 + 1)
  let a : ℝ := Real.exp (-x / (1 / epsilon)) / 2
  have hx : 0 ≤ x := by positivity
  have hexponent : -(epsilon * d / (loads.length.log2 + 1)) = -x / (1 / epsilon) := by
    rw [div_div_eq_mul_div, div_one, neg_mul, mul_comm x, mul_div_assoc]
  have hexp : Real.exp (-x / (1 / epsilon)) ≤ 1 := by
    rw [Real.exp_le_one_iff, neg_div]
    exact neg_nonpos.mpr (by positivity)
  have hpos : 0 < a := half_pos (Real.exp_pos _)
  have hle : a ≤ 1 - a := by
    show _ / 2 ≤ 1 - _ / 2
    linarith
  have hwidth : 1 - Real.exp (-(epsilon * d / (loads.length.log2 + 1))) = 1 - a - a := by
    rw [hexponent, sub_sub, add_halves]
  rw [hwidth, ← real_uniformDraws_pi_Icc _ hpos.le (sub_lt_self 1 hpos) hle]
  refine MeasureTheory.measureReal_mono fun draws hdraws ↦ ?_
  have hnoise : ∀ t, 0 < t → t ≤ loads.length → |laplaceNoise epsilon draws t| ≤ x := by
    intro t ht htn
    rw [laplaceNoise, dif_pos (Nat.sub_one_lt_of_le ht htn)]
    exact abs_laplaceSample_le (one_div_pos.mpr hepsilon) (hdraws _ trivial)
  exact computeNoisyPrefixSums_near hx hnoise (mul_div_cancel₀ _ hlevels.ne').le hloads hsum

theorem additiveError_probability_three :
    (1 - Real.exp (-(1 * (2 : Nat) / (([1, 2, 0] : List Int).length.log2 + 1)))) ^ 3 ≤
      (uniformDraws 3).real {draws | ∃ sums error,
        computeNoisyPrefixSums 2 (laplaceNoise 1 draws) [1, 2, 0] = .ok (sums, error) ∧
          error ≤ (2 : Nat)} := by
  have hloads : ∀ load ∈ ([1, 2, 0] : List Int), 0 ≤ load ∧ load ≤ ((2 : Nat) : Int) := by decide
  have hbound := additiveError_probability one_pos hloads (by decide) 2
  refine hbound.trans (MeasureTheory.measureReal_mono ?_)
  rintro draws ⟨sums, error, hsums, herror, -⟩
  exact ⟨sums, error, hsums, herror⟩

end EnhancedLetIndex
