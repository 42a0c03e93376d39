import EnhancedLetIndex.Basic.BinaryCounter
import EnhancedLetIndex.Basic.Related
import EnhancedLetIndex.Swat.Noise

/-!
# What the noisy prefix sums are

The sums of `compute_noisy_prefix_sums` over exact noise.  The open blocks count the loads in
binary (`NoisySums.Counts`), so that an estimate is off by the noise of the ends of its blocks
alone (`NoisySums.Counts.running_eq`), and what the loop makes of an estimate ascends within the
window around the true sum (`NoiseState.InWindow`).
-/

namespace EnhancedLetIndex

/-- The loads of the first bins, added up. -/
def truePrefixSum (loads : List Int) (t : Nat) : Int := (loads.take t).sum

theorem truePrefixSum_zero (loads : List Int) : truePrefixSum loads 0 = 0 := by
  rw [truePrefixSum, List.take_zero, List.sum_nil]

theorem truePrefixSum_succ {loads : List Int} {t : Nat} (h : t < loads.length) :
    truePrefixSum loads (t + 1) = truePrefixSum loads t + loads[t] :=
  List.sum_take_succ loads t h

/-! ## The lowest bit -/

theorem testBit_of_lt_trailingZerosFrom {value fuel count l : Nat} (hl : count ≤ l)
    (h : l < trailingZerosFrom value fuel count) : value.testBit l = false := by
  induction fuel generalizing count with
  | zero => exact absurd hl (Nat.not_le.mpr h)
  | succ fuel ih =>
    rw [trailingZerosFrom] at h
    split_ifs at h with hbit
    · exact absurd hl (Nat.not_le.mpr h)
    · rcases Nat.eq_or_lt_of_le hl with rfl | hlt
      · exact Bool.eq_false_iff.mpr hbit
      · exact ih hlt h

/-- `_trailing_zeros` finds the lowest bit. -/
theorem lowestBit_trailingZeros {t : Nat} (ht : 0 < t) : LowestBit t (trailingZeros t) := by
  apply LowestBit.of_testBit
  · refine testBit_trailingZerosFrom ⟨t.log2, Nat.zero_le _, ?_, Nat.testBit_log2 ht.ne'⟩
    rw [Nat.zero_add]
    exact (Nat.log2_lt ht.ne').mpr Nat.lt_two_pow_self
  · intro l hl
    exact testBit_of_lt_trailingZerosFrom (Nat.zero_le l) hl

/-! ## The open blocks -/

namespace NoisySums

section Absorb

variable {F : Type} [NoiseArithmetic F] (s : NoisySums F) (index : Nat) (load : Int) (noise : F)

theorem foldl_fold_succ : (List.range (index + 1)).foldl fold (load, s) =
    fold ((List.range index).foldl fold (load, s)) index := by
  rw [List.range_succ, List.foldl_append, List.foldl_cons, List.foldl_nil]

theorem getD_blockSums_fold (l : Nat) :
    ((List.range index).foldl fold (load, s)).2.blockSums.getD l 0 =
      if l < index then 0 else s.blockSums.getD l 0 := by
  induction index with
  | zero => rfl
  | succ index ih =>
    rw [foldl_fold_succ, fold]
    by_cases hl : index = l
    · subst hl
      rw [getD_set_default, if_pos index.lt_succ_self]
    · rw [getD_set_of_ne hl, ih]
      congr 1
      rw [Nat.lt_succ_iff_lt_or_eq, or_iff_left (Ne.symm hl)]

theorem getD_noisySums_fold {l : Nat} (hl : index ≤ l) :
    ((List.range index).foldl fold (load, s)).2.noisySums.getD l NoiseArithmetic.zero =
      s.noisySums.getD l NoiseArithmetic.zero := by
  induction index with
  | zero => rfl
  | succ index ih =>
    rw [foldl_fold_succ, fold, getD_set_of_ne (Nat.ne_of_lt hl)]
    exact ih (Nat.le_of_succ_le hl)

/-- The load a block is opened with: its own, and those of the blocks it closes. -/
theorem fst_fold : ((List.range index).foldl fold (load, s)).1 =
    load + ((List.range index).map (s.blockSums.getD · 0)).sum := by
  induction index with
  | zero => rw [List.range_zero, List.map_nil, List.sum_nil, add_zero]; rfl
  | succ index ih =>
    rw [foldl_fold_succ, fold, getD_blockSums_fold, if_neg (Nat.lt_irrefl index), ih,
      List.range_succ, List.map_append, List.sum_append, List.map_singleton, List.sum_singleton,
      add_assoc]

variable {s index load noise}

theorem getD_blockSums_absorb_self (h : index < s.blockSums.length) :
    (s.absorb index load noise).blockSums.getD index 0 =
      load + ((List.range index).map (s.blockSums.getD · 0)).sum := by
  rw [← fst_fold]
  exact getD_set_self ((length_fold (List.range index) (load, s)).1.symm ▸ h)

theorem getD_blockSums_absorb {l : Nat} (hl : index ≠ l) :
    (s.absorb index load noise).blockSums.getD l 0 =
      if l < index then 0 else s.blockSums.getD l 0 := by
  rw [← getD_blockSums_fold]
  exact getD_set_of_ne hl

theorem getD_noisySums_absorb_self (h : index < s.noisySums.length) :
    (s.absorb index load noise).noisySums.getD index NoiseArithmetic.zero =
      NoiseArithmetic.add (NoiseArithmetic.ofInt
        (load + ((List.range index).map (s.blockSums.getD · 0)).sum)) noise := by
  rw [← fst_fold]
  exact getD_set_self ((length_fold (List.range index) (load, s)).2.symm ▸ h)

theorem getD_noisySums_absorb {l : Nat} (hl : index < l) :
    (s.absorb index load noise).noisySums.getD l NoiseArithmetic.zero =
      s.noisySums.getD l NoiseArithmetic.zero := by
  rw [← getD_noisySums_fold s index load hl.le]
  exact getD_set_of_ne (Nat.ne_of_lt hl)

end Absorb

/-- The blocks open after `t` loads: each holds its loads, and the noise drawn when it was
opened. -/
structure Counts (P : Nat → Int) (noise : Nat → ℚ) (t : Nat) (s : NoisySums ℚ) : Prop where
  blockSums (l : Nat) : s.blockSums.getD l 0 = P (alignedTo t l) - P (alignedTo t (l + 1))
  noisySums {l : Nat} (h : t.testBit l = true) : s.noisySums.getD l 0 =
    ↑(P (alignedTo t l) - P (alignedTo t (l + 1))) + noise (alignedTo t l)

namespace Counts

variable {P : Nat → Int} {noise : Nat → ℚ} {t : Nat} {s : NoisySums ℚ}

/-- No block is open before the first load. -/
theorem zeros (levels : Nat) : Counts P noise 0 (.zeros levels) where
  blockSums l := by
    rw [alignedTo_eq_zero (Nat.two_pow_pos l), alignedTo_eq_zero (Nat.two_pow_pos _), sub_self,
      List.getD_eq_getElem?_getD]
    exact List.getElem?_getD_replicate_default_eq 0 levels l
  noisySums h := by
    rw [Nat.zero_testBit] at h
    cases h

/-- The load that opens the next block, with those of the blocks it closes. -/
theorem sum_closed (h : Counts P noise t s) {level : Nat} {load : Int}
    (hP : P (t + 1) = P t + load) (hlevel : LowestBit (t + 1) level) :
    load + ((List.range level).map (s.blockSums.getD · 0)).sum =
      P (alignedTo (t + 1) level) - P (alignedTo (t + 1) (level + 1)) := by
  have hsum := sum_map_blocks P t level
  rw [funext h.blockSums, hsum, hlevel.alignedTo_eq_self le_rfl, hlevel.alignedTo_succ,
    Nat.add_sub_cancel, hP]
  ring

/-- A load keeps the count. -/
theorem absorb (h : Counts P noise t s) {load : Int} (hP : P (t + 1) = P t + load)
    (hblock : trailingZeros (t + 1) < s.blockSums.length)
    (hnoisy : trailingZeros (t + 1) < s.noisySums.length) :
    Counts P noise (t + 1) (s.absorb (trailingZeros (t + 1)) load (noise (t + 1))) := by
  have hlevel : LowestBit (t + 1) (trailingZeros (t + 1)) := lowestBit_trailingZeros t.succ_pos
  generalize trailingZeros (t + 1) = level at hblock hnoisy hlevel
  have hclosed := h.sum_closed hP hlevel
  constructor
  · intro l
    rcases Nat.lt_trichotomy l level with hl | rfl | hl
    · rw [getD_blockSums_absorb (Nat.ne_of_gt hl), if_pos hl, hlevel.alignedTo_eq_self hl.le,
        hlevel.alignedTo_eq_self hl, sub_self]
    · rw [getD_blockSums_absorb_self hblock, hclosed]
    · rw [getD_blockSums_absorb (Nat.ne_of_lt hl), if_neg (Nat.lt_asymm hl), h.blockSums,
        hlevel.alignedTo_pred hl, hlevel.alignedTo_pred (Nat.lt_succ_of_lt hl), Nat.add_sub_cancel]
  · intro l hbit
    rcases Nat.lt_trichotomy l level with hl | rfl | hl
    · rw [hlevel.testBit_of_lt hl] at hbit
      cases hbit
    · refine (getD_noisySums_absorb_self hnoisy).trans ?_
      rw [hclosed, hlevel.alignedTo_eq_self le_rfl]
      rfl
    · rw [hlevel.testBit_pred hl, Nat.add_sub_cancel] at hbit
      refine (getD_noisySums_absorb hl).trans ?_
      rw [hlevel.alignedTo_pred hl, hlevel.alignedTo_pred (Nat.lt_succ_of_lt hl),
        Nat.add_sub_cancel]
      exact h.noisySums hbit

/-- The noisy sums of the bits below a level, added up. -/
theorem foldl_running (h : Counts P noise t s) (level : Nat) :
    (List.range level).foldl (fun sum l ↦
        if t.testBit l then NoiseArithmetic.add sum (s.noisySums.getD l NoiseArithmetic.zero)
        else sum) (NoiseArithmetic.zero : ℚ) =
      ↑(P t - P (alignedTo t level)) +
        (((List.range level).filter t.testBit).map (noise ∘ alignedTo t)).sum := by
  induction level with
  | zero =>
    rw [alignedTo_zero, sub_self, Int.cast_zero, zero_add]
    rfl
  | succ level ih =>
    rw [List.range_succ, List.foldl_append, ih, List.foldl_cons, List.foldl_nil,
      List.filter_append, List.map_append, List.sum_append]
    split_ifs with hbit
    · rw [List.filter_singleton, hbit, cond_true, List.map_singleton, List.sum_singleton,
        Function.comp_apply]
      refine (congrArg (_ + ·) (h.noisySums hbit)).trans ?_
      push_cast
      ring
    · rw [Bool.not_eq_true] at hbit
      rw [List.filter_singleton, hbit, cond_false, List.map_nil, List.sum_nil, add_zero,
        alignedTo_succ_of_not_testBit hbit]

/-- An estimate is off by the noise of the ends of its blocks. -/
theorem running_eq (h : Counts P noise t s) (hP : P 0 = 0) :
    s.running t = P t + ((clearings t).map noise).sum := by
  have hlt : t < 2 ^ (t.log2 + 1) := Nat.lt_log2_self
  rw [NoisySums.running, h.foldl_running, alignedTo_eq_zero hlt, hP, sub_zero,
    filter_testBit_range hlt, clearings_eq_map, List.map_map]

end Counts

end NoisySums

/-! ## The window -/

section Clip

variable {capacity : Nat} {currentSum value : Int}

theorem abs_clipPrefixSum_sub_le :
    |clipPrefixSum capacity currentSum value - currentSum| ≤ capacity := by
  rw [abs_le, clipPrefixSum]
  split_ifs <;> omega

/-- A value within the window is not passed downwards. -/
theorem le_clipPrefixSum {before : Int} (hvalue : before ≤ value)
    (hbefore : before ≤ currentSum + capacity) :
    before ≤ clipPrefixSum capacity currentSum value := by
  rw [clipPrefixSum]
  split_ifs <;> omega

end Clip

namespace NoiseState

variable {F : Type} [NoiseArithmetic F]

/-- What the loop starts with. -/
def start (n : Nat) : NoiseState F := ⟨.zeros (Nat.clog 2 (n + 1)), .replicate (n + 1) 0, 0, 0⟩

/-- The prefix sums set so far ascend from 0 within the window, and the error is the largest
deviation among them. -/
structure InWindow (capacity : Nat) (P : Nat → Int) (t : Nat) (s : NoiseState F) : Prop where
  currentSum : s.currentSum = P t
  first : s.prefixSums.getD 0 0 = 0
  mono {j : Nat} (h : j < t) : s.prefixSums.getD j 0 ≤ s.prefixSums.getD (j + 1) 0
  near {j : Nat} (h : j ≤ t) : |s.prefixSums.getD j 0 - P j| ≤ capacity
  error : IsGreatest {d | ∃ j ≤ t, d = |P j - s.prefixSums.getD j 0|} s.additiveError

variable {capacity n t : Nat} {noise : Nat → F} {s s' : NoiseState F} {load : Int}

/-- What a step of the loop sets. -/
theorem step_eq_ok (h : s.step capacity noise t load = .ok s') :
    trailingZeros t < s.sums.blockSums.length ∧ t < s.prefixSums.length ∧
      s'.sums = s.sums.absorb (trailingZeros t) load (noise t) ∧
      s'.currentSum = s.currentSum + load ∧
      ∃ value, s.prefixSums.getD (t - 1) 0 ≤ value ∧
        s'.prefixSums = s.prefixSums.set t (clipPrefixSum capacity s'.currentSum value) ∧
        s'.additiveError = max s.additiveError
          |s'.currentSum - clipPrefixSum capacity s'.currentSum value| := by
  rw [step] at h
  obtain ⟨hindex, h⟩ := require_bind_eq_ok.mp h
  obtain ⟨-, h⟩ := require_bind_eq_ok.mp h
  obtain ⟨estimate, -, h⟩ := bind_eq_ok.mp h
  obtain ⟨hlength, h⟩ := require_bind_eq_ok.mp h
  cases h
  refine ⟨hindex, hlength, rfl, rfl, _, ?_, rfl, rfl⟩
  split_ifs with hlt
  · exact le_rfl
  · exact not_lt.mp hlt

/-- Nothing is set but the first sum. -/
theorem inWindow_start {P : Nat → Int} (hP : P 0 = 0) :
    (start n : NoiseState F).InWindow capacity P 0 where
  currentSum := hP.symm
  first := rfl
  mono h := absurd h (Nat.not_lt_zero _)
  near h := by
    rw [Nat.le_zero.mp h, hP]
    exact (abs_zero (α := ℤ)).trans_le (Int.natCast_nonneg capacity)
  error := by
    refine ⟨⟨0, le_rfl, ?_⟩, ?_⟩
    · rw [hP]
      rfl
    · rintro d ⟨j, hj, rfl⟩
      rw [Nat.le_zero.mp hj, hP]
      exact le_rfl

/-- A step keeps the window: the step up to the sum before is undone by neither bound. -/
theorem InWindow.step {P : Nat → Int} (h : s.InWindow capacity P t)
    (hstep : s.step capacity noise (t + 1) load = .ok s') (hP : P (t + 1) = P t + load)
    (hload : 0 ≤ load) : s'.InWindow capacity P (t + 1) := by
  obtain ⟨-, hlength, -, hcurrent, value, hbefore, hsums, herror⟩ := step_eq_ok hstep
  have hcurrent' : s'.currentSum = P (t + 1) := by rw [hcurrent, h.currentSum, hP]
  rw [hcurrent'] at hsums herror
  rw [Nat.add_sub_cancel] at hbefore
  have hself : s'.prefixSums.getD (t + 1) 0 = clipPrefixSum capacity (P (t + 1)) value := by
    rw [hsums, getD_set_self hlength]
  have hkeep {j : Nat} (hj : j ≤ t) : s'.prefixSums.getD j 0 = s.prefixSums.getD j 0 := by
    rw [hsums, getD_set_of_ne (Nat.ne_of_gt (Nat.lt_succ_of_le hj))]
  refine ⟨hcurrent', ?_, fun {j} hj ↦ ?_, fun {j} hj ↦ ?_, ⟨?_, ?_⟩⟩
  · rw [hkeep (Nat.zero_le t), h.first]
  · rcases Nat.lt_succ_iff_lt_or_eq.mp hj with hlt | rfl
    · rw [hkeep hlt.le, hkeep hlt]
      exact h.mono hlt
    · have hnear := (abs_le.mp (h.near le_rfl)).2
      rw [hkeep le_rfl, hself]
      exact le_clipPrefixSum hbefore (by omega)
  · rcases Nat.le_succ_iff.mp hj with hle | rfl
    · rw [hkeep hle]
      exact h.near hle
    · rw [hself]
      exact abs_clipPrefixSum_sub_le
  · rw [herror]
    rcases max_choice s.additiveError |P (t + 1) - clipPrefixSum capacity (P (t + 1)) value|
      with heq | heq
    · obtain ⟨j, hj, hd⟩ := h.error.1
      exact ⟨j, Nat.le_succ_of_le hj, by rw [heq, hd, hkeep hj]⟩
    · exact ⟨t + 1, le_rfl, by rw [heq, hself]⟩
  · rintro d ⟨j, hj, rfl⟩
    rw [herror]
    rcases Nat.le_succ_iff.mp hj with hle | rfl
    · rw [hkeep hle]
      exact le_max_of_le_left (h.error.2 ⟨j, hle, rfl⟩)
    · rw [hself]
      exact le_max_right _ _

end NoiseState

/-! ## The sums -/

section Loop

open NoiseState

variable {n : Nat} (capacity : Nat) (noise : Nat → ℚ)

/-- The loop over exact noise, from load `t` on. -/
theorem noiseLoop_counts {P : Nat → Int} {loads : List Int} {t : Nat} {s : NoiseState ℚ}
    (hroom : s.Room n) (hn : t + loads.length ≤ n) (hloads : ∀ load ∈ loads, 0 ≤ load)
    (hP : ∀ (j : Nat) (hj : j < loads.length), P (t + j + 1) = P (t + j) + loads[j])
    (hcounts : s.sums.Counts P noise t) (hwindow : s.InWindow capacity P t) :
    ∃ s', noiseLoop capacity noise (t + 1) loads s = .ok s' ∧ s'.Room n ∧
      s'.sums.Counts P noise (t + loads.length) ∧ s'.InWindow capacity P (t + loads.length) := by
  induction loads generalizing t s with
  | nil => exact ⟨s, rfl, hroom, hcounts, hwindow⟩
  | cons load loads ih =>
    obtain ⟨hload, hloads⟩ := List.forall_mem_cons.mp hloads
    have hlength : t + (load :: loads).length = t + 1 + loads.length := by
      rw [List.length_cons, Nat.add_right_comm, Nat.add_assoc]
    have hnext : P (t + 1) = P t + load := hP 0 (Nat.succ_pos _)
    obtain ⟨s₁, hstep, hroom₁, hsums⟩ := step_spec capacity noise load hroom t.succ_pos (by omega) rfl
    have hblock := (step_eq_ok hstep).1
    have hnoisy : trailingZeros (t + 1) < s.sums.noisySums.length := by
      rwa [hroom.noisySums, ← hroom.blockSums]
    have hcounts₁ : s₁.sums.Counts P noise (t + 1) := by
      rw [hsums]
      exact hcounts.absorb hnext hblock hnoisy
    rw [noiseLoop, hstep, ok_bind, hlength]
    refine ih hroom₁ (hlength ▸ hn) hloads (fun j hj ↦ ?_) hcounts₁ (hwindow.step hstep hnext hload)
    rw [Nat.add_right_comm t 1 j]
    exact hP (j + 1) (Nat.succ_lt_succ hj)

/-- The loop over the first loads of a run of `n`. -/
theorem noiseLoop_take {loads : List Int} (hloads : ∀ load ∈ loads, 0 ≤ load) {t : Nat}
    (ht : t ≤ loads.length) :
    ∃ s, noiseLoop capacity noise 1 (loads.take t) (start loads.length) = .ok s ∧
      s.Room loads.length ∧ s.sums.Counts (truePrefixSum loads) noise t ∧
      s.InWindow capacity (truePrefixSum loads) t := by
  have hlength : (loads.take t).length = t := List.length_take_of_le ht
  have hroom : (start loads.length : NoiseState ℚ).Room loads.length :=
    ⟨List.length_replicate, List.length_replicate, List.length_replicate, le_rfl⟩
  have hP (j : Nat) (hj : j < (loads.take t).length) : truePrefixSum loads (0 + j + 1) =
      truePrefixSum loads (0 + j) + (loads.take t)[j] := by
    rw [Nat.zero_add, List.getElem_take]
    exact truePrefixSum_succ _
  obtain ⟨s, hs, hroom', hcounts, hwindow⟩ := noiseLoop_counts capacity noise hroom (by omega)
    (fun load hload ↦ hloads load (List.mem_of_mem_take hload)) hP (.zeros _) (inWindow_start (truePrefixSum_zero loads))
  rw [hlength, Nat.zero_add] at hcounts hwindow
  exact ⟨s, hs, hroom', hcounts, hwindow⟩

end Loop

open NoiseState in
/-- The noisy prefix sums of loads within a bin: as many as there are bins and one more,
ascending from 0 within the window around the true sums, with their largest deviation.  The
estimate at load `t`, before it is cast, is the true sum with the noise drawn at the numbers
that clearing the lowest bit of `t` leads through, one for each of its bits. -/
theorem computeNoisyPrefixSums_window (capacity : Nat) (noise : Nat → ℚ) (loads : List Int)
    (hloads : ∀ load ∈ loads, 0 ≤ load ∧ load ≤ capacity) :
    ∃ sums error, computeNoisyPrefixSums capacity noise loads = .ok (sums, error) ∧
      sums.length = loads.length + 1 ∧ sums.head? = some 0 ∧ sums.Pairwise (· ≤ ·) ∧
      (∀ t ≤ loads.length, |sums.getD t 0 - truePrefixSum loads t| ≤ capacity) ∧
      IsGreatest {d | ∃ t ≤ loads.length, d = |truePrefixSum loads t - sums.getD t 0|} error ∧
      ∀ t, 0 < t → t ≤ loads.length →
        ∃ s, noiseLoop capacity noise 1 (loads.take t) (start loads.length) = .ok s ∧
          s.sums.running t = truePrefixSum loads t + ((clearings t).map noise).sum ∧
          (clearings t).length = t.bitIndices.length := by
  have hnonneg : ∀ load ∈ loads, 0 ≤ load := fun load hload ↦ (hloads load hload).1
  obtain ⟨s, hs, hroom, hcounts, hwindow⟩ := noiseLoop_take capacity noise hnonneg le_rfl
  rw [List.take_length] at hs
  refine ⟨s.prefixSums, s.additiveError, ?_, hroom.prefixSums, ?_, ?_, fun t ht ↦ hwindow.near ht,
    hwindow.error, fun t hpos ht ↦ ?_⟩
  · rw [computeNoisyPrefixSums, mapM_requireLoad_self hloads, ok_bind]
    split_ifs with hnil
    · subst hnil
      cases hs
      rfl
    · exact (congrArg (· >>= _) hs).trans rfl
  · have hpos : 0 < s.prefixSums.length := by
      rw [hroom.prefixSums]
      exact Nat.succ_pos _
    rw [List.head?_eq_getElem?, List.getElem?_eq_getElem hpos, ← hwindow.first,
      List.getD_eq_getElem _ _ hpos]
  · rw [← List.isChain_iff_pairwise, List.isChain_iff_getElem]
    intro j hj
    have hlt : j < loads.length := by
      rw [hroom.prefixSums] at hj
      exact Nat.lt_of_succ_lt_succ hj
    have hmono := hwindow.mono hlt
    rwa [List.getD_eq_getElem _ _ hj, List.getD_eq_getElem _ _ (Nat.lt_of_succ_lt hj)] at hmono
  · obtain ⟨s, hs, -, hcounts, -⟩ := noiseLoop_take capacity noise hnonneg ht
    exact ⟨s, hs, hcounts.running_eq (truePrefixSum_zero loads), length_clearings t⟩

/-- Three loads, of which the first estimate is far too small. -/
theorem computeNoisyPrefixSums_window_three :
    ∃ sums error, computeNoisyPrefixSums 2 (fun t ↦ if t = 1 then -9 else 1 / 2 : Nat → ℚ)
        [1, 2, 0] = .ok (sums, error) ∧ sums.length = 4 ∧ sums.Pairwise (· ≤ ·) ∧
      |sums.getD 2 0 - 3| ≤ 2 := by
  obtain ⟨sums, error, hok, hlength, -, hmono, hnear, -⟩ := computeNoisyPrefixSums_window 2
    (fun t ↦ if t = 1 then -9 else 1 / 2) [1, 2, 0] (by decide)
  exact ⟨sums, error, hok, hlength, hmono, hnear 2 (by decide)⟩

end EnhancedLetIndex
