import Mathlib
import EnhancedLetIndex.Basic.Bisect
import EnhancedLetIndex.Basic.Related

/-!
# Sampling by inversion

A uniform draw is shared among the entries of a list in proportion to their weights (`share`).  The
probability of what independent draws fall on is a sum of products of weights
(`real_uniformDraws`), and that of what they add up to is a coefficient of a power of the
generating polynomial of the weights (`coeff_generating_pow`).
-/

namespace EnhancedLetIndex

/-! ## The share of an entry -/

/-- A longer part of a list has a larger sum. -/
theorem sum_take_mono {M : Type*} [AddCommMonoid M] [PartialOrder M] [IsOrderedAddMonoid M]
    {l : List M} (hnonneg : ∀ a ∈ l, 0 ≤ a) {i j : Nat} (h : i ≤ j) :
    (l.take i).sum ≤ (l.take j).sum := by
  obtain ⟨d, rfl⟩ := Nat.exists_eq_add_of_le h
  rw [List.take_add, List.sum_append]
  exact le_add_of_nonneg_right (List.sum_nonneg fun a ha ↦
    hnonneg a (List.mem_of_mem_drop (List.mem_of_mem_take ha)))

section Share

variable {K : Type*} [Field K] [LinearOrder K] [IsStrictOrderedRing K]

/-- The draws that fall on an entry, the draws below one being shared by weight. -/
def share (weights : List K) (k : Nat) : Set K :=
  Set.Ico ((weights.take k).sum / weights.sum) ((weights.take (k + 1)).sum / weights.sum)

variable {weights : List K} {i j k : Nat} {draw : K}

theorem mem_share_iff (hsum : 0 < weights.sum) : draw ∈ share weights k ↔
    (weights.take k).sum ≤ draw * weights.sum ∧
      draw * weights.sum < (weights.take (k + 1)).sum := by
  rw [share, Set.mem_Ico, div_le_iff₀ hsum, lt_div_iff₀ hsum]

/-- A draw falls on one entry. -/
theorem share_unique (hnonneg : ∀ w ∈ weights, 0 ≤ w) (hsum : 0 < weights.sum)
    (hi : draw ∈ share weights i) (hj : draw ∈ share weights j) : i = j := by
  rw [mem_share_iff hsum] at hi hj
  by_contra hne
  rcases Nat.lt_or_gt_of_ne hne with hlt | hlt
  · exact absurd (hi.2.trans_le (sum_take_mono hnonneg hlt)) (not_lt.mpr hj.1)
  · exact absurd (hj.2.trans_le (sum_take_mono hnonneg hlt)) (not_lt.mpr hi.1)

/-- Every draw below one falls on an entry. -/
theorem exists_share (hsum : 0 < weights.sum) (hdraw : draw ∈ Set.Ico 0 1) :
    ∃ k < weights.length, draw ∈ share weights k := by
  have hall : draw * weights.sum < weights.sum := mul_lt_of_lt_one_left hsum hdraw.2
  have hexists : ∃ k, draw * weights.sum < (weights.take (k + 1)).sum := by
    refine ⟨weights.length, ?_⟩
    rwa [List.take_of_length_le (Nat.le_succ _)]
  classical
  refine ⟨Nat.find hexists, ?_, (mem_share_iff hsum).mpr ⟨?_, Nat.find_spec hexists⟩⟩
  · have hlength : weights.length ≠ 0 := by
      intro hnil
      rw [List.length_eq_zero_iff.mp hnil] at hsum
      exact lt_irrefl 0 hsum
    obtain ⟨m, hm⟩ := Nat.exists_eq_succ_of_ne_zero hlength
    refine (Nat.find_min' hexists (m := m) ?_).trans_lt (by omega)
    rwa [List.take_of_length_le hm.le]
  · cases hfind : Nat.find hexists with
    | zero => exact mul_nonneg hdraw.1 hsum.le
    | succ m => exact not_lt.mp (Nat.find_min hexists (hfind ▸ m.lt_succ_self))

/-- The share of an entry is within the draws below one. -/
theorem share_subset (hnonneg : ∀ w ∈ weights, 0 ≤ w) (hsum : 0 < weights.sum) (k : Nat) :
    share weights k ⊆ Set.Ico 0 1 := by
  refine Set.Ico_subset_Ico (div_nonneg (List.sum_nonneg fun w hw ↦
    hnonneg w (List.mem_of_mem_take hw)) hsum.le) ((div_le_one hsum).mpr ?_)
  rcases le_total (k + 1) weights.length with hle | hle
  · exact (sum_take_mono hnonneg hle).trans_eq (by rw [List.take_length])
  · rw [List.take_of_length_le hle]

end Share

/-! ## Bisection over running sums -/

section Bisect

variable {K : Type} [Field K]

/-- The running sums of some weights. -/
def cumulativeSums (running : K) : List K → List K
  | [] => []
  | weight :: weights => (running + weight) :: cumulativeSums (running + weight) weights

theorem length_cumulativeSums (running : K) (weights : List K) :
    (cumulativeSums running weights).length = weights.length := by
  induction weights generalizing running with
  | nil => rfl
  | cons w weights ih => rw [cumulativeSums, List.length_cons, List.length_cons, ih]

theorem getElem_cumulativeSums (running : K) (weights : List K) (i : Nat)
    (hi : i < (cumulativeSums running weights).length) :
    (cumulativeSums running weights)[i] = running + (weights.take (i + 1)).sum := by
  induction weights generalizing running i with
  | nil => cases hi
  | cons w weights ih =>
    rw [List.take_succ_cons, List.sum_cons, ← add_assoc]
    cases i with
    | zero => rw [List.take_zero, List.sum_nil, add_zero]; rfl
    | succ i => exact ih (running + w) i (Nat.lt_of_succ_lt_succ hi)

theorem getLastD_cumulativeSums (running : K) (weights : List K) :
    (cumulativeSums running weights).getLastD running = running + weights.sum := by
  induction weights generalizing running with
  | nil => exact (add_zero running).symm
  | cons w weights ih =>
    rw [cumulativeSums, List.getLastD_cons, ih, List.sum_cons, add_assoc]

variable [LinearOrder K] [IsStrictOrderedRing K]

/-- The running sums are cut at the entry on which a draw falls. -/
theorem isCut_cumulativeSums {weights : List K} {k : Nat} {draw : K}
    (hnonneg : ∀ w ∈ weights, 0 ≤ w) (hsum : 0 < weights.sum) (hk : k < weights.length)
    (hdraw : draw ∈ share weights k) :
    IsCut (fun sum ↦ decide (sum ≤ draw * weights.sum)) (cumulativeSums 0 weights) k := by
  obtain ⟨hbelow, habove⟩ := (mem_share_iff hsum).mp hdraw
  refine ⟨by rw [length_cumulativeSums]; exact hk.le, fun i hi ↦ ?_⟩
  rw [getElem_cumulativeSums, zero_add, decide_eq_true_eq]
  constructor
  · intro hle
    by_contra hlt
    exact not_lt.mpr hle (habove.trans_le (sum_take_mono hnonneg (by omega)))
  · exact fun hlt ↦ (sum_take_mono hnonneg hlt).trans hbelow

/-- A bisection over the running sums finds the entry on which a draw falls. -/
theorem bisect_cumulativeSums {weights : List K} {k : Nat} {draw : K}
    (hnonneg : ∀ w ∈ weights, 0 ≤ w) (hsum : 0 < weights.sum) (hk : k < weights.length)
    (hdraw : draw ∈ share weights k) :
    bisect (· ≤ draw * weights.sum) (cumulativeSums 0 weights) = k :=
  (isCut_cumulativeSums hnonneg hsum hk hdraw).bisect_eq

end Bisect

/-! ## Independent draws -/

section Draws

open MeasureTheory

variable {n : Nat}

/-- Independent uniform draws. -/
noncomputable def uniformDraws (n : Nat) : Measure (Fin n → ℝ) :=
  Measure.pi fun _ ↦ volume.restrict (Set.Ico 0 1)

theorem volume_share {weights : List ℝ} {k : Nat} (hk : k < weights.length) :
    volume (share weights k) = ENNReal.ofReal (weights[k] / weights.sum) := by
  rw [share, Real.volume_Ico, ← sub_div, List.sum_take_succ weights k hk, add_sub_cancel_left]

theorem ae_uniformDraws : ∀ᵐ draws ∂uniformDraws n, ∀ i, draws i ∈ Set.Ico (0 : ℝ) 1 := by
  rw [ae_all_iff]
  intro i
  exact Measure.tendsto_eval_ae_ae.eventually (ae_restrict_mem measurableSet_Ico)

/-- The probability that every draw is in an interval. -/
theorem real_uniformDraws_pi_Icc (n : Nat) {a b : ℝ} (ha : 0 ≤ a) (hb : b < 1) (hab : a ≤ b) :
    (uniformDraws n).real (Set.univ.pi fun _ ↦ Set.Icc a b) = (b - a) ^ n := by
  have hinterval : (volume.restrict (Set.Ico (0 : ℝ) 1)) (Set.Icc a b) =
      ENNReal.ofReal (b - a) := by
    rw [Measure.restrict_eq_self _ ((Set.Icc_subset_Icc_left ha).trans (Set.Icc_subset_Ico_right hb)),
      Real.volume_Icc]
  rw [Measure.real, uniformDraws, Measure.pi_pi, Fin.prod_const, hinterval, ENNReal.toReal_pow,
    ENNReal.toReal_ofReal (sub_nonneg.mpr hab)]

instance : IsFiniteMeasure (uniformDraws n) :=
  inferInstanceAs (IsFiniteMeasure (Measure.pi fun _ ↦ volume.restrict (Set.Ico (0 : ℝ) 1)))

variable {weights : Fin n → List ℝ}

/-- The probability that every draw falls on a given entry. -/
theorem uniformDraws_pi_share (hnonneg : ∀ i, ∀ w ∈ weights i, 0 ≤ w)
    (hsum : ∀ i, 0 < (weights i).sum) (entry : ∀ i, Fin (weights i).length) :
    uniformDraws n (Set.univ.pi fun i ↦ share (weights i) (entry i)) =
      ENNReal.ofReal (∏ i, (weights i)[entry i] / (weights i).sum) := by
  have hweight : ∀ i ∈ Finset.univ, 0 ≤ (weights i)[entry i] / (weights i).sum := fun i _ ↦
    div_nonneg (hnonneg i _ (List.getElem_mem _)) (hsum i).le
  rw [uniformDraws, Measure.pi_pi]
  refine Eq.trans (Finset.prod_congr rfl fun i _ ↦ ?_) (ENNReal.ofReal_prod_of_nonneg hweight).symm
  rw [Measure.restrict_eq_self _ (share_subset (hnonneg i) (hsum i) _)]
  exact volume_share (entry i).isLt

/-- The probability of an event that only depends on the entries on which the draws fall. -/
theorem real_uniformDraws (hnonneg : ∀ i, ∀ w ∈ weights i, 0 ≤ w)
    (hsum : ∀ i, 0 < (weights i).sum) {event : Set (Fin n → ℝ)}
    {entries : Finset (∀ i, Fin (weights i).length)}
    (hevent : ∀ draws entry, (∀ i, draws i ∈ share (weights i) (entry i)) →
      (draws ∈ event ↔ entry ∈ entries)) :
    (uniformDraws n).real event =
      ∑ entry ∈ entries, ∏ i, (weights i)[entry i] / (weights i).sum := by
  let box (entry : ∀ i, Fin (weights i).length) : Set (Fin n → ℝ) :=
    Set.univ.pi fun i ↦ share (weights i) (entry i)
  have hboxes : event =ᵐ[uniformDraws n] ⋃ entry ∈ entries, box entry := by
    filter_upwards [ae_uniformDraws] with draws hdraws
    choose entry hlt hentry using fun i ↦ exists_share (hsum i) (hdraws i)
    let entry' (i : Fin n) : Fin (weights i).length := ⟨entry i, hlt i⟩
    have hboxed : draws ∈ (⋃ entry ∈ entries, box entry) ↔ entry' ∈ entries := by
      rw [Set.mem_iUnion₂]
      constructor
      · rintro ⟨other, hother, hbox⟩
        have hsame : other = entry' := funext fun i ↦ Fin.ext <|
          share_unique (hnonneg i) (hsum i) (hbox i trivial) (hentry i)
        exact hsame ▸ hother
      · exact fun hmem ↦ ⟨entry', hmem, fun i _ ↦ hentry i⟩
    exact propext ((hevent draws entry' hentry).trans hboxed.symm)
  have hdisjoint : (entries : Set (∀ i, Fin (weights i).length)).PairwiseDisjoint box := by
    rintro entry - other - hne
    rw [Function.onFun, Set.disjoint_left]
    intro draws hentry hother
    exact hne (funext fun i ↦ Fin.ext <|
      share_unique (hnonneg i) (hsum i) (hentry i trivial) (hother i trivial))
  have hmeasurable : ∀ entry ∈ entries, MeasurableSet (box entry) := fun entry _ ↦
    MeasurableSet.univ_pi fun i ↦ measurableSet_Ico
  have hweight (entry : ∀ i, Fin (weights i).length) :
      0 ≤ ∏ i, (weights i)[entry i] / (weights i).sum :=
    Finset.prod_nonneg fun i _ ↦ div_nonneg (hnonneg i _ (List.getElem_mem _)) (hsum i).le
  rw [Measure.real, measure_congr hboxes, measure_biUnion_finset hdisjoint hmeasurable,
    Finset.sum_congr rfl fun entry _ ↦ uniformDraws_pi_share hnonneg hsum entry,
    ← ENNReal.ofReal_sum_of_nonneg fun entry _ ↦ hweight entry,
    ENNReal.toReal_ofReal (Finset.sum_nonneg fun entry _ ↦ hweight entry)]

/-- The probability that the draws fall on given entries. -/
theorem real_uniformDraws_entries (hnonneg : ∀ i, ∀ w ∈ weights i, 0 ≤ w)
    (hsum : ∀ i, 0 < (weights i).sum) {event : Set (Fin n → ℝ)} (indexes : Fin n → Nat)
    (hevent : ∀ draws (entry : ∀ i, Fin (weights i).length),
      (∀ i, draws i ∈ share (weights i) (entry i)) →
        (draws ∈ event ↔ ∀ i, (entry i : Nat) = indexes i)) :
    (uniformDraws n).real event = ∏ i, (weights i).getD (indexes i) 0 / (weights i).sum := by
  have hentries : ∀ draws (entry : ∀ i, Fin (weights i).length),
      (∀ i, draws i ∈ share (weights i) (entry i)) → (draws ∈ event ↔
        entry ∈ Finset.univ.filter fun entry : ∀ i, Fin (weights i).length ↦
          ∀ i, (entry i : Nat) = indexes i) := by
    intro draws entry hentry
    rw [Finset.mem_filter_univ]
    exact hevent draws entry hentry
  rw [real_uniformDraws hnonneg hsum hentries]
  by_cases hall : ∀ i, indexes i < (weights i).length
  · have hone : (Finset.univ.filter fun entry : ∀ i, Fin (weights i).length ↦
        ∀ i, (entry i : Nat) = indexes i) = {fun i ↦ ⟨indexes i, hall i⟩} := by
      ext entry
      rw [Finset.mem_filter_univ, Finset.mem_singleton, funext_iff]
      exact forall_congr' fun i ↦ (Fin.ext_iff (b := ⟨indexes i, hall i⟩)).symm
    rw [hone, Finset.sum_singleton]
    exact Finset.prod_congr rfl fun i _ ↦
      congrArg (· / _) (List.getD_eq_getElem _ _ (hall i)).symm
  · obtain ⟨i, hi⟩ := not_forall.mp hall
    have hnone : (Finset.univ.filter fun entry : ∀ i, Fin (weights i).length ↦
        ∀ i, (entry i : Nat) = indexes i) = ∅ :=
      Finset.filter_false_of_mem fun entry _ hentry ↦ hi (hentry i ▸ (entry i).isLt)
    rw [hnone, Finset.sum_empty]
    refine (Finset.prod_eq_zero (Finset.mem_univ i) ?_).symm
    rw [List.getD_eq_default _ _ (not_lt.mp hi), zero_div]

end Draws

/-! ## Generating polynomials -/

section Generating

open Polynomial

variable {K : Type*} [CommSemiring K]

/-- The polynomial with the entries of a list as its coefficients. -/
noncomputable def generating (weights : List K) : K[X] :=
  ∑ k : Fin weights.length, monomial k weights[k]

theorem coeff_generating (weights : List K) (s : Nat) :
    (generating weights).coeff s = weights.getD s 0 := by
  rw [generating, finsetSum_coeff]
  simp only [coeff_monomial]
  by_cases hs : s < weights.length
  · rw [Finset.sum_eq_single_of_mem ⟨s, hs⟩ (Finset.mem_univ _) fun k _ hk ↦
      if_neg fun heq ↦ hk (Fin.ext heq), if_pos rfl, List.getD_eq_getElem _ _ hs]
    rfl
  · rw [List.getD_eq_default _ _ (not_lt.mp hs)]
    exact Finset.sum_eq_zero fun k _ ↦ if_neg fun heq : k.1 = s ↦ hs (heq ▸ k.isLt)

theorem generating_nil : generating ([] : List K) = 0 := by
  ext s
  rw [coeff_generating, coeff_zero, List.getD_nil]

theorem generating_cons (a : K) (l : List K) :
    generating (a :: l) = C a + X * generating l := by
  ext s
  rw [coeff_generating, coeff_add]
  cases s with
  | zero => rw [List.getD_cons_zero, coeff_C_zero, coeff_X_mul_zero, add_zero]
  | succ s => rw [List.getD_cons_succ, coeff_C_succ, coeff_X_mul, coeff_generating, zero_add]

theorem generating_replicate_zero (n : Nat) : generating (List.replicate n (0 : K)) = 0 := by
  ext s
  rw [coeff_generating, coeff_zero, List.getD_eq_getElem?_getD, List.getElem?_replicate]
  split_ifs <;> rfl

/-- Adding to an entry adds to a coefficient. -/
theorem generating_set_add {result : List K} {i : Nat} (hi : i < result.length) (x : K) :
    generating (result.set i (result.getD i 0 + x)) = generating result + monomial i x := by
  ext s
  rw [coeff_generating, coeff_add, coeff_generating, coeff_monomial]
  by_cases hs : i = s
  · subst hs
    rw [getD_set_self hi, if_pos rfl]
  · rw [getD_set_of_ne hs, if_neg hs, add_zero]

/-- A coefficient of a power is the weight of the choices that add up to its index. -/
theorem coeff_generating_pow (weights : List K) (n s : Nat) :
    ((generating weights) ^ n).coeff s = ∑ entry : Fin n → Fin weights.length with
      ∑ i, (entry i : Nat) = s, ∏ i, weights[entry i] := by
  have hpow : (generating weights) ^ n =
      ∑ entry : Fin n → Fin weights.length, monomial (∑ i, (entry i : Nat))
        (∏ i, weights[entry i]) := by
    rw [← Fin.prod_const, generating, Finset.prod_univ_sum, Fintype.piFinset_univ]
    refine Finset.sum_congr rfl fun entry _ ↦ ?_
    simp only [← C_mul_X_pow_eq_monomial, Finset.prod_mul_distrib, Finset.prod_pow_eq_pow_sum,
      map_prod]
  rw [hpow, finsetSum_coeff, Finset.sum_filter]
  exact Finset.sum_congr rfl fun entry _ ↦ coeff_monomial

end Generating

end EnhancedLetIndex
