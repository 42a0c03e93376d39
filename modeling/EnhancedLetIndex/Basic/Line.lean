import Mathlib.Tactic

/-!
# Affine lines over an ordered field

The comparison lemmas for affine functions of one variable that tangent-line arguments
use: a line that starts below another one and is less steep stays below it to the right,
and a line that is below another at both ends of an interval is below it in between.
`Line.through` is the line through two points with distinct abscissae.
-/

namespace EnhancedLetIndex

/-- An affine function `x ↦ slope * x + icpt`. -/
@[ext]
structure Line (K : Type*) where
  slope : K
  icpt : K

namespace Line

variable {K : Type*} [Field K]

/-- The value of a line at `x`. -/
def eval (ℓ : Line K) (x : K) : K := ℓ.slope * x + ℓ.icpt

/-- The line of slope `m` through `(x, y)`. -/
def ofSlope (m x y : K) : Line K := ⟨m, y - m * x⟩

/-- The line through `(x₀, y₀)` and `(x₁, y₁)`. -/
def through (x₀ y₀ x₁ y₁ : K) : Line K := ofSlope ((y₁ - y₀) / (x₁ - x₀)) x₀ y₀

@[simp] theorem ofSlope_slope (m x y : K) : (ofSlope m x y).slope = m := rfl

@[simp] theorem ofSlope_eval_self (m x y : K) : (ofSlope m x y).eval x = y := by
  simp [ofSlope, eval]

/-- Two values of one line differ by the slope times the distance. -/
theorem eval_sub (ℓ : Line K) (x x' : K) : ℓ.eval x - ℓ.eval x' = ℓ.slope * (x - x') := by
  simp only [eval]; ring

theorem eval_eq_add (ℓ : Line K) (x x' : K) : ℓ.eval x = ℓ.eval x' + ℓ.slope * (x - x') := by
  rw [← eval_sub]; ring

@[simp] theorem through_eval_left (x₀ y₀ x₁ y₁ : K) :
    (through x₀ y₀ x₁ y₁).eval x₀ = y₀ := ofSlope_eval_self _ _ _

/-! ## Reflection in the horizontal axis -/

/-- The line reflected in the horizontal axis. -/
def neg (ℓ : Line K) : Line K := ⟨-ℓ.slope, -ℓ.icpt⟩

@[simp] theorem neg_slope (ℓ : Line K) : ℓ.neg.slope = -ℓ.slope := rfl

@[simp] theorem neg_eval (ℓ : Line K) (x : K) : ℓ.neg.eval x = -ℓ.eval x := by
  simp only [neg, eval]; ring

@[simp] theorem neg_neg (ℓ : Line K) : ℓ.neg.neg = ℓ := by
  simp [neg]

/-! ## Comparing two lines -/

variable [LinearOrder K] [IsStrictOrderedRing K]

theorem through_eval_right {x₀ x₁ : K} (y₀ y₁ : K) (h : x₀ < x₁) :
    (through x₀ y₀ x₁ y₁).eval x₁ = y₁ := by
  have hne : x₁ - x₀ ≠ 0 := (sub_pos.mpr h).ne'
  rw [eval_eq_add _ x₁ x₀, through_eval_left]
  simp only [through, ofSlope_slope]
  rw [div_mul_cancel₀ _ hne]
  ring

/-- Below at a point and not steeper: below everywhere to its right. -/
theorem eval_le_of_slope_le {f g : Line K} {x₀ x : K} (h₀ : f.eval x₀ ≤ g.eval x₀)
    (hs : f.slope ≤ g.slope) (hx : x₀ ≤ x) : f.eval x ≤ g.eval x := by
  rw [eval_eq_add f x x₀, eval_eq_add g x x₀]
  exact add_le_add h₀ (mul_le_mul_of_nonneg_right hs (sub_nonneg.mpr hx))

/-- Below at a point and not flatter: below everywhere to its left. -/
theorem eval_le_of_le_slope {f g : Line K} {u x : K} (h₀ : f.eval u ≤ g.eval u)
    (hs : g.slope ≤ f.slope) (hx : x ≤ u) : f.eval x ≤ g.eval x := by
  rw [eval_eq_add f x u, eval_eq_add g x u]
  exact add_le_add h₀ (mul_le_mul_of_nonpos_right hs (sub_nonpos.mpr hx))

/-- A line that ends above another after having started below it is steeper. -/
theorem slope_le_of_cross {f g : Line K} {x₀ x₁ : K} (hx : x₀ < x₁)
    (h₀ : g.eval x₀ ≤ f.eval x₀) (h₁ : f.eval x₁ ≤ g.eval x₁) : f.slope ≤ g.slope := by
  by_contra hlt
  rw [not_le] at hlt
  have hpos : 0 < (f.slope - g.slope) * (x₁ - x₀) :=
    mul_pos (sub_pos.mpr hlt) (sub_pos.mpr hx)
  have hf := eval_eq_add f x₁ x₀
  have hg := eval_eq_add g x₁ x₀
  nlinarith

/-- Below at both ends of an interval: below in between. -/
theorem eval_le_of_between {f g : Line K} {u x v : K} (hx₀ : u ≤ x) (hx₁ : x ≤ v)
    (h₀ : f.eval u ≤ g.eval u) (h₁ : f.eval v ≤ g.eval v) : f.eval x ≤ g.eval x := by
  rcases le_total f.slope g.slope with hs | hs
  · exact eval_le_of_slope_le h₀ hs hx₀
  · exact eval_le_of_le_slope h₁ hs hx₁

end Line

end EnhancedLetIndex
