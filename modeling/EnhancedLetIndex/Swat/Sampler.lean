import EnhancedLetIndex.Basic.Sampling
import EnhancedLetIndex.Swat.Geometric

/-!
# The load sampler

`GeometricLoadSampler` of `distribution.py`, over exact numbers.  A draw falls on a load in
proportion to its weight, so the sum of the loads of some bins has the law that `geom_conv`
computes, up to the normalisation of the weights (`GeometricLoadSampler.Draws.real_sum_mem`).
-/

namespace EnhancedLetIndex

open Polynomial

/-! ## Convolutions are products -/

section Convolution

variable {K : Type} [Field K] [DecidableEq K]

theorem generating_convolveRow {right result : List K} {l : K × Nat}
    (hlength : l.2 + right.length ≤ result.length) :
    generating (convolveRow right result l) =
      generating result + C l.1 * X ^ l.2 * generating right := by
  suffices ∀ (right : List K) (j : Nat) (result : List K), l.2 + (j + right.length) ≤ result.length →
      generating ((right.zipIdx j).foldl (fun result r ↦
        result.set (l.2 + r.2) (result.getD (l.2 + r.2) 0 + l.1 * r.1)) result) =
        generating result + C l.1 * X ^ (l.2 + j) * generating right by
    rw [convolveRow]
    split_ifs with hzero
    · rw [hzero, C_0, zero_mul, zero_mul, add_zero]
    · exact this right 0 result (by rwa [Nat.zero_add])
  intro right
  induction right with
  | nil =>
    intro j result _
    rw [List.zipIdx_nil, List.foldl_nil, generating_nil, mul_zero, add_zero]
  | cons r right ih =>
    intro j result hlength
    rw [List.length_cons] at hlength
    rw [List.zipIdx_cons, List.foldl_cons, ih _ _ (by rw [List.length_set]; omega),
      generating_set_add (by omega), generating_cons, ← C_mul_X_pow_eq_monomial, C_mul]
    ring

/-- A convolution is a product of polynomials. -/
theorem generating_convolve (left right : List K) :
    generating (convolve left right) = generating left * generating right := by
  by_cases hempty : left.isEmpty || right.isEmpty
  · rw [convolve, if_pos hempty, generating_nil]
    rcases Bool.or_eq_true_iff.mp hempty with hnil | hnil
    · rw [List.isEmpty_iff.mp hnil, generating_nil, zero_mul]
    · rw [List.isEmpty_iff.mp hnil, generating_nil, mul_zero]
  · rw [convolve, if_neg hempty]
    have hright : right ≠ [] := fun hnil ↦ hempty (by simp [hnil])
    have hpos := List.length_pos_of_ne_nil hright
    suffices ∀ (left : List K) (i : Nat) (result : List K),
        i + left.length + right.length - 1 ≤ result.length →
        generating ((left.zipIdx i).foldl (convolveRow right) result) =
          generating result + X ^ i * generating left * generating right by
      rw [this left 0 _ (by rw [List.length_replicate, Nat.zero_add]), generating_replicate_zero,
        pow_zero, one_mul, zero_add]
    intro left
    induction left with
    | nil =>
      intro i result _
      rw [List.zipIdx_nil, List.foldl_nil, generating_nil, mul_zero, zero_mul, add_zero]
    | cons a left ih =>
      intro i result hlength
      rw [List.length_cons] at hlength
      rw [List.zipIdx_cons, List.foldl_cons, ih _ _ (by rw [length_convolveRow]; omega),
        generating_convolveRow (by show i + right.length ≤ _; omega), generating_cons]
      ring

/-- The convolution of some bins is a power. -/
theorem generating_geomConv (alpha : K) (capacity : Nat) {count : Nat} (hcount : 1 ≤ count) :
    generating (geomConv alpha capacity count) =
      generating (computeWeight alpha capacity) ^ count := by
  obtain ⟨k, rfl⟩ := Nat.exists_eq_add_of_le' hcount
  rw [geomConv, Nat.add_sub_cancel]
  clear hcount
  induction k with
  | zero => rw [List.range'_zero, List.foldl_nil, pow_one]
  | succ k ih =>
    rw [List.range'_1_concat, List.foldl_append, List.foldl_cons, List.foldl_nil,
      generating_convolve, ih, pow_succ _ (k + 1)]

end Convolution

/-! ## The weights of a capacity -/

section Weights

variable {K : Type} [Field K]

variable [LinearOrder K] [IsStrictOrderedRing K] {alpha : K} {capacity : Nat}

theorem pow_succ_le (hpos : 0 < alpha) (hlt : alpha < 1) (half : Nat) :
    alpha ^ (half + 1) ≤ alpha := by
  rw [pow_succ]
  exact mul_le_of_le_one_left hpos.le (pow_le_one₀ hpos.le hlt.le)

theorem centreWeight_pos (hpos : 0 < alpha) (hlt : alpha < 1) (half : Nat) :
    0 < centreWeight alpha half := by
  have hpow := pow_succ_le hpos hlt half
  rw [centreWeight, fastPower_eq_pow]
  exact div_pos (sub_pos.mpr hlt) (by linarith)

/-- The weights of a capacity are positive. -/
theorem computeWeight_pos (hpos : 0 < alpha) (hlt : alpha < 1) (heven : Even capacity) :
    ∀ w ∈ computeWeight alpha capacity, 0 < w := by
  have hcentre := centreWeight_pos hpos hlt (capacity / 2)
  intro w hw
  obtain ⟨i, hi, rfl⟩ := List.getElem_of_mem hw
  rw [length_computeWeight heven] at hi
  rw [← List.getD_eq_getElem _ 0]
  obtain ⟨half, hhalf⟩ := even_iff_exists_two_mul.mp heven
  have hmiddle : capacity / 2 = half := by omega
  rcases le_total half i with hle | hle
  · obtain ⟨d, rfl⟩ := Nat.exists_eq_add_of_le hle
    rw [← hmiddle, (getD_computeWeight alpha heven (by omega)).1]
    exact mul_pos hcentre (pow_pos hpos _)
  · have hat := (getD_computeWeight alpha heven (i := half - i) (by omega)).2
    rw [hmiddle, Nat.sub_sub_self hle] at hat
    rw [hat, ← hmiddle]
    exact mul_pos hcentre (pow_pos hpos _)

end Weights

/-! ## The sampler -/

/-- What the constructor of the sampler refuses. -/
inductive SamplerError where
  | belowMinimum (capacity : Int)
  | odd (capacity : Int)
  | zeroTotal
deriving DecidableEq, Repr

/-- `GeometricLoadSampler`, but for its stream. -/
structure GeometricLoadSampler (K : Type) where
  binCapacityBlocks : Nat
  weights : List K
  cumulative : List K
  total : K

namespace GeometricLoadSampler

variable {K : Type} [Field K] [LinearOrder K]

/-- The constructor, with the exponential of minus epsilon. -/
def make (binCapacityBlocks : Int) (alpha : K) :
    Except SamplerError (GeometricLoadSampler K) := do
  require (2 ≤ binCapacityBlocks) (.belowMinimum binCapacityBlocks)
  require (binCapacityBlocks % 2 = 0) (.odd binCapacityBlocks)
  let weights := computeWeight alpha binCapacityBlocks.toNat
  let cumulative := cumulativeSums 0 weights
  let total := cumulative.getLastD 0
  require (0 < total) .zeroTotal
  pure ⟨binCapacityBlocks.toNat, weights, cumulative, total⟩

/-- `sample`, with what the stream returns. -/
def sample (sampler : GeometricLoadSampler K) (random : K) : Nat :=
  let index := bisect (· ≤ random * sampler.total) sampler.cumulative
  if index ≥ sampler.weights.length then sampler.weights.length - 1 else index

/-- The sampler of some weights. -/
structure Draws (sampler : GeometricLoadSampler K) (weights : List K) : Prop where
  weights_eq : sampler.weights = weights
  cumulative_eq : sampler.cumulative = cumulativeSums 0 weights
  total_eq : sampler.total = weights.sum
  nonneg : ∀ w ∈ weights, 0 ≤ w
  sum_pos : 0 < weights.sum

variable {sampler : GeometricLoadSampler K} {weights : List K}

/-- A sample is the entry on which the draw falls. -/
theorem Draws.sample_eq [IsStrictOrderedRing K] (h : sampler.Draws weights) {k : Nat} {draw : K}
    (hk : k < weights.length) (hdraw : draw ∈ share weights k) : sampler.sample draw = k := by
  rw [sample, h.cumulative_eq, h.total_eq, bisect_cumulativeSums h.nonneg h.sum_pos hk hdraw,
    h.weights_eq, if_neg (not_le.mpr hk)]

/-- A sample is at most the last entry. -/
theorem Draws.sample_lt (h : sampler.Draws weights) (draw : K) :
    sampler.sample draw < weights.length := by
  have hpos : 0 < weights.length := by
    refine List.length_pos_of_ne_nil fun hnil ↦ ?_
    have := h.sum_pos
    rw [hnil] at this
    exact lt_irrefl 0 this
  rw [sample, h.weights_eq]
  split_ifs with hge
  · exact Nat.sub_lt hpos Nat.one_pos
  · exact not_le.mp hge

variable [IsStrictOrderedRing K]

/-- An even capacity has a sampler. -/
theorem exists_make {alpha : K} (hpos : 0 < alpha) (hlt : alpha < 1) {capacity : Nat}
    (heven : Even capacity) (hle : 2 ≤ capacity) : ∃ sampler, make capacity alpha = .ok sampler ∧
      sampler.binCapacityBlocks = capacity ∧ sampler.Draws (computeWeight alpha capacity) := by
  have hweights := computeWeight_pos hpos hlt heven
  have hne : computeWeight alpha capacity ≠ [] := by
    rw [← List.length_pos_iff, length_computeWeight heven]
    exact capacity.succ_pos
  have hsum : 0 < (computeWeight alpha capacity).sum := List.sum_pos _ hweights hne
  have htotal : (cumulativeSums 0 (computeWeight alpha capacity)).getLastD 0 =
      (computeWeight alpha capacity).sum := by
    rw [getLastD_cumulativeSums, zero_add]
  rw [make, require_of (by omega), ok_bind, require_of (by have := heven.two_dvd; omega), ok_bind]
  simp only [Int.toNat_natCast, htotal, require_of hsum, ok_bind, pure_eq_ok]
  exact ⟨_, rfl, rfl, rfl, rfl, rfl, fun w hw ↦ (hweights w hw).le, hsum⟩

end GeometricLoadSampler

/-! ## The law of the loads -/

section Law

open MeasureTheory

variable {sampler : GeometricLoadSampler ℝ} {weights : List ℝ}

/-- The law of a sum of samples. -/
theorem GeometricLoadSampler.Draws.real_sum_mem (h : sampler.Draws weights) (count : Nat)
    (sums : Finset Nat) :
    (uniformDraws count).real {draws | ∑ i, sampler.sample (draws i) ∈ sums} =
      (∑ s ∈ sums, (generating weights ^ count).coeff s) / sampler.total ^ count := by
  have hevent (draws : Fin count → ℝ) (entry : Fin count → Fin weights.length)
      (hentry : ∀ i, draws i ∈ share weights (entry i)) :
      draws ∈ {draws | ∑ i, sampler.sample (draws i) ∈ sums} ↔
        entry ∈ Finset.univ.filter fun entry : Fin count → Fin weights.length ↦
          ∑ i, (entry i : Nat) ∈ sums := by
    rw [Finset.mem_filter_univ, ← Finset.sum_congr rfl fun i _ ↦
      h.sample_eq (entry i).isLt (hentry i)]
    rfl
  have hsums : ∀ entry ∈ Finset.univ.filter fun entry : Fin count → Fin weights.length ↦
      ∑ i, (entry i : Nat) ∈ sums, ∑ i, (entry i : Nat) ∈ sums := fun entry hentry ↦
    (Finset.mem_filter_univ entry).mp hentry
  rw [real_uniformDraws (fun _ ↦ h.nonneg) (fun _ ↦ h.sum_pos) hevent, Finset.sum_div, h.total_eq,
    ← Finset.sum_fiberwise_of_maps_to hsums]
  refine Finset.sum_congr rfl fun s hs ↦ ?_
  rw [coeff_generating_pow, Finset.sum_div, Finset.filter_filter]
  refine Finset.sum_congr (Finset.filter_congr fun entry _ ↦ ?_) fun entry _ ↦ ?_
  · exact and_iff_right_of_imp fun hsum ↦ hsum ▸ hs
  · rw [Finset.prod_div_distrib, Fin.prod_const]

end Law

end EnhancedLetIndex
