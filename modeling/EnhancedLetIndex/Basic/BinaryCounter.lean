import Mathlib.Data.Nat.BitIndices
import Mathlib.Data.Nat.Bitwise
import Mathlib.Tactic

/-!
# Counting in binary

The bits of a count `t` cut the first `t` numbers into blocks: the block of a bit ends where the
bits below it are cleared (`alignedTo`).  These ends are the numbers that clearing the lowest
bit again and again leads through (`clearings_eq_map`), and a step of the count closes the
blocks below its lowest bit and opens the one of that bit (`LowestBit`).
-/

namespace EnhancedLetIndex

/-! ## Ends of blocks -/

/-- The number with its bits below a level cleared. -/
def alignedTo (t level : Nat) : Nat := t / 2 ^ level * 2 ^ level

@[simp] theorem alignedTo_zero (t : Nat) : alignedTo t 0 = t := by
  rw [alignedTo, pow_zero, Nat.div_one, mul_one]

theorem alignedTo_eq_zero {t level : Nat} (h : t < 2 ^ level) : alignedTo t level = 0 := by
  rw [alignedTo, Nat.div_eq_of_lt h, zero_mul]

theorem alignedTo_eq_self {t level : Nat} (h : 2 ^ level ∣ t) : alignedTo t level = t :=
  Nat.div_mul_cancel h

/-- A level up in a number is the level in its half. -/
theorem alignedTo_succ (t level : Nat) : alignedTo t (level + 1) = 2 * alignedTo (t / 2) level := by
  rw [alignedTo, alignedTo, Nat.div_div_eq_div_mul, ← pow_succ']
  ring

/-- The block of a bit that isn't set is empty. -/
theorem alignedTo_succ_of_not_testBit {t level : Nat} (h : t.testBit level = false) :
    alignedTo t (level + 1) = alignedTo t level := by
  have hmod : t / 2 ^ level % 2 = 0 := by
    rw [Nat.testBit_eq_decide_div_mod_eq, decide_eq_false_iff_not] at h
    omega
  have hdiv : t / 2 ^ level = 2 * (t / 2 ^ level / 2) := by omega
  rw [alignedTo, alignedTo, pow_succ, ← Nat.div_div_eq_div_mul]
  nth_rewrite 2 [hdiv]
  ring

/-- The blocks of the lowest levels, put together. -/
theorem sum_map_blocks {G : Type} [AddCommGroup G] (P : Nat → G) (t level : Nat) :
    ((List.range level).map fun l ↦ P (alignedTo t l) - P (alignedTo t (l + 1))).sum =
      P t - P (alignedTo t level) := by
  induction level with
  | zero => rw [List.range_zero, List.map_nil, List.sum_nil, alignedTo_zero, sub_self]
  | succ level ih =>
    rw [List.range_succ, List.map_append, List.sum_append, ih, List.map_singleton,
      List.sum_singleton, sub_add_sub_cancel]

/-! ## A step of the count -/

/-- The lowest bit of a number that is set. -/
def LowestBit (t level : Nat) : Prop := ∃ q, t = 2 ^ level * (2 * q + 1)

namespace LowestBit

variable {t level : Nat}

theorem of_testBit (hbit : t.testBit level = true) (hbelow : ∀ l < level, t.testBit l = false) :
    LowestBit t level := by
  refine ⟨t / 2 ^ level / 2, ?_⟩
  have hmod : t % 2 ^ level = 0 := by
    apply Nat.eq_of_testBit_eq
    intro l
    rw [Nat.testBit_mod_two_pow, Nat.zero_testBit, Bool.and_eq_false_imp, decide_eq_true_eq]
    exact hbelow l
  have hodd : t / 2 ^ level % 2 = 1 := by
    rwa [Nat.testBit_eq_decide_div_mod_eq, decide_eq_true_eq] at hbit
  calc t = 2 ^ level * (t / 2 ^ level) := (Nat.mul_div_cancel' (Nat.dvd_of_mod_eq_zero hmod)).symm
    _ = 2 ^ level * (2 * (t / 2 ^ level / 2) + 1) := by
      congr 1
      omega

/-- The blocks below the lowest bit are empty, and its own ends at the number. -/
theorem alignedTo_eq_self (h : LowestBit t level) {l : Nat} (hl : l ≤ level) :
    alignedTo t l = t := by
  obtain ⟨q, rfl⟩ := h
  exact EnhancedLetIndex.alignedTo_eq_self ((pow_dvd_pow 2 hl).mul_right _)

theorem div_pred {q level : Nat} : (2 ^ level * (2 * q + 1) - 1) / 2 ^ level = 2 * q := by
  have hpos := Nat.two_pow_pos level
  apply Nat.div_eq_of_lt_le
  · have : 2 * q * 2 ^ level = 2 ^ level * (2 * q + 1) - 2 ^ level := by
      rw [Nat.mul_succ, Nat.add_sub_cancel, Nat.mul_comm]
    omega
  · have : 2 ^ level * (2 * q + 1) = (2 * q + 1) * 2 ^ level := Nat.mul_comm _ _
    have : 0 < 2 ^ level * (2 * q + 1) := Nat.mul_pos hpos (Nat.succ_pos _)
    omega

/-- The blocks above the lowest bit are those of the number before. -/
theorem alignedTo_pred (h : LowestBit t level) {l : Nat} (hl : level < l) :
    alignedTo t l = alignedTo (t - 1) l := by
  obtain ⟨q, rfl⟩ := h
  obtain ⟨d, rfl⟩ := Nat.exists_eq_add_of_lt hl
  have hpow : 2 ^ (level + d + 1) = 2 ^ level * (2 * 2 ^ d) := by ring
  rw [alignedTo, alignedTo, hpow, ← Nat.div_div_eq_div_mul, ← Nat.div_div_eq_div_mul,
    ← Nat.div_div_eq_div_mul, ← Nat.div_div_eq_div_mul, div_pred,
    Nat.mul_div_cancel_left _ (Nat.two_pow_pos level)]
  congr 2
  omega

theorem testBit_of_lt (h : LowestBit t level) {l : Nat} (hl : l < level) :
    t.testBit l = false := by
  obtain ⟨q, rfl⟩ := h
  rw [Nat.testBit_two_pow_mul, decide_eq_false (Nat.not_le.mpr hl), Bool.false_and]

theorem testBit_pred (h : LowestBit t level) {l : Nat} (hl : level < l) :
    t.testBit l = (t - 1).testBit l := by
  have h₁ := h.alignedTo_pred hl
  rw [alignedTo, alignedTo] at h₁
  rw [Nat.testBit_eq_decide_div_mod_eq, Nat.testBit_eq_decide_div_mod_eq,
    Nat.mul_right_cancel (Nat.two_pow_pos l) h₁]

/-- The block of the lowest bit starts where the blocks it closes start. -/
theorem alignedTo_succ (h : LowestBit t level) :
    alignedTo t (level + 1) = alignedTo (t - 1) level := by
  rw [h.alignedTo_pred level.lt_succ_self]
  apply alignedTo_succ_of_not_testBit
  obtain ⟨q, rfl⟩ := h
  rw [Nat.testBit_eq_decide_div_mod_eq, div_pred, decide_eq_false_iff_not]
  omega

end LowestBit

/-! ## Clearing the lowest bit -/

/-- The numbers that clearing the lowest bit again and again leads through, from the number
itself on to the last one that isn't 0. -/
def clearings (t : Nat) : List Nat :=
  if t = 0 then [] else t :: clearings (t &&& (t - 1))
termination_by t
decreasing_by
  exact Nat.lt_of_le_of_lt Nat.and_le_right (by omega)

theorem clearings_zero : clearings 0 = [] := by rw [clearings, if_pos rfl]

theorem clearings_two_mul (n : Nat) : clearings (2 * n) = (clearings n).map (2 * ·) := by
  induction n using Nat.strong_induction_on with
  | _ n ih =>
    rcases Nat.eq_zero_or_pos n with rfl | hpos
    · rw [Nat.mul_zero, clearings_zero, List.map_nil]
    · have hpred : 2 * n &&& (2 * n - 1) = 2 * (n &&& (n - 1)) := by
        have hodd : 2 * n - 1 = Nat.bit true (n - 1) := by
          rw [Nat.bit_val, Bool.toNat_true]
          omega
        have heven : ∀ m, 2 * m = Nat.bit false m := fun _ ↦ rfl
        rw [hodd, heven, heven, Nat.land_bit, Bool.false_and]
      have hlt : n &&& (n - 1) < n := Nat.lt_of_le_of_lt Nat.and_le_right (by omega)
      rw [clearings, if_neg (by omega), hpred, ih _ hlt]
      conv_rhs => rw [clearings, if_neg hpos.ne', List.map_cons]

theorem clearings_two_mul_add_one (n : Nat) :
    clearings (2 * n + 1) = (2 * n + 1) :: (clearings n).map (2 * ·) := by
  have hpred : (2 * n + 1) &&& (2 * n + 1 - 1) = 2 * n := by
    have heven : 2 * n = Nat.bit false n := rfl
    have hodd : 2 * n + 1 = Nat.bit true n := rfl
    rw [Nat.add_sub_cancel, hodd, heven, Nat.land_bit, Bool.and_false, Nat.and_self]
  rw [clearings, if_neg (Nat.succ_ne_zero _), hpred, clearings_two_mul]

/-- Clearing the lowest bit leads through the ends of the blocks. -/
theorem clearings_eq_map (t : Nat) : clearings t = t.bitIndices.map (alignedTo t) := by
  induction t using Nat.strong_induction_on with
  | _ t ih =>
    rcases Nat.eq_zero_or_pos t with rfl | hpos
    · rw [clearings_zero, Nat.bitIndices_zero, List.map_nil]
    obtain ⟨n, rfl | rfl⟩ := Nat.even_or_odd' t
    · rw [clearings_two_mul, Nat.bitIndices_two_mul, ih n (by omega), List.map_map, List.map_map]
      refine List.map_congr_left fun l _ ↦ ?_
      rw [Function.comp_apply, Function.comp_apply, alignedTo_succ,
        Nat.mul_div_cancel_left n (by decide)]
    · rw [clearings_two_mul_add_one, Nat.bitIndices_two_mul_add_one, ih n (by omega),
        List.map_cons, List.map_map, List.map_map, alignedTo_zero]
      congr 1
      refine List.map_congr_left fun l _ ↦ ?_
      rw [Function.comp_apply, Function.comp_apply, alignedTo_succ]
      congr 2
      omega

/-- As many numbers as the count has bits. -/
theorem length_clearings (t : Nat) : (clearings t).length = t.bitIndices.length := by
  rw [clearings_eq_map, List.length_map]

/-- The bits of a number, by testing the levels below a bound. -/
theorem filter_testBit_range {t levels : Nat} (h : t < 2 ^ levels) :
    (List.range levels).filter t.testBit = t.bitIndices := by
  apply (List.pairwise_lt_range.filter t.testBit).sortedLT.eq_of_mem_iff Nat.bitIndices_sorted
  intro level
  rw [List.mem_filter, List.mem_range, Nat.mem_bitIndices, and_iff_right_iff_imp]
  intro hbit
  exact (Nat.pow_lt_pow_iff_right (a := 2) (by decide)).mp
    (Nat.lt_of_le_of_lt (Nat.ge_two_pow_of_testBit hbit) h)

end EnhancedLetIndex
