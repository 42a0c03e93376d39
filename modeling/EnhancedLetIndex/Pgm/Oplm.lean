import EnhancedLetIndex.Pgm.Model

/-!
# The model keeps two feasible lines

`add_point` never stores the points it has accepted: it keeps the two hulls and the two
extreme lines of the rectangle.  The invariant `Oplm.Sides` says what these mean for the
accepted points: `maxLine` (through `rectangle[1]`, `rectangle[3]`) and `minLine` (through
`rectangle[0]`, `rectangle[2]`) both run inside the band of every accepted point, and the
active parts of the hulls are envelopes of the two band edges.  The first branch of
`add_point` registers the new point with the upper hull, the second with the lower one, so
the invariant carries one list of points for each.

The main results are `Oplm.Accepts.addPoint_spec`, what one call does, and
`Oplm.not_feasible_of_outside`: a point is rejected only when no line at all fits.
-/

namespace EnhancedLetIndex

open Point

/-! ## The band of a point -/

/-- The lower end of the band of the point `(key, rank)`, clipped at rank 0. -/
def bandLow (ε : Nat) (p : Point) : Point := ⟨p.x, if p.y ≤ ε then 0 else p.y - ε⟩

/-- The upper end of the band. -/
def bandHigh (ε : Nat) (p : Point) : Point := ⟨p.x, p.y + ε⟩

@[simp] theorem bandLow_x (ε : Nat) (p : Point) : (bandLow ε p).x = p.x := rfl
@[simp] theorem bandHigh_x (ε : Nat) (p : Point) : (bandHigh ε p).x = p.x := rfl

theorem bandLow_y (ε : Nat) (p : Point) : (bandLow ε p).y = max 0 (p.y - ε) := by
  simp only [bandLow]; split_ifs <;> omega

theorem bandLow_le (ε : Nat) {p : Point} (hp : 0 ≤ p.y) : (bandLow ε p).y ≤ p.y := by
  rw [bandLow_y]; omega

theorem le_bandHigh (ε : Nat) (p : Point) : p.y ≤ (bandHigh ε p).y := by
  simp only [bandHigh]; omega

theorem bandLow_le_bandHigh (ε : Nat) {p : Point} (hp : 0 ≤ p.y) :
    (bandLow ε p).y ≤ (bandHigh ε p).y := (bandLow_le ε hp).trans (le_bandHigh ε p)

/-- A line that runs inside the band of every point of `A`. -/
def Feasible (ε : Nat) (ℓ : Line ℚ) (A : List Point) : Prop :=
  ∀ p ∈ A, ((bandLow ε p).y : ℚ) ≤ ℓ.eval p.x ∧ ℓ.eval p.x ≤ (bandHigh ε p).y

theorem lineTo_flip (q p : Point) : lineTo q.flip p.flip = (lineTo q p).neg := by
  simp only [lineTo, Line.through, Line.ofSlope, Line.neg, flip_x, flip_y, Int.cast_neg]
  congr 1 <;> ring

namespace Oplm

/-! ## The two loops -/

/-- Slopes of the source compare as rational slopes when both points are to the left. -/
theorem subSlope_lt_iff {q p r t : Point} (h : q.x < p.x) (h' : r.x < t.x) :
    subSlope q p < subSlope r t ↔ slopeTo p q < slopeTo t r :=
  (slopeTo_lt_slopeTo h h').symm

/-- What the tangent scan returns: every step it made was not worse, the next one is. -/
theorem tangent_spec (worse : Slope → Slope → Bool) (hull : List Point) (p : Point) {s : Nat}
    (hs : s < hull.length) :
    s ≤ tangent worse hull s p ∧ tangent worse hull s p < hull.length ∧
      (∀ i, s ≤ i → i + 1 ≤ tangent worse hull s p →
        worse (subSlope (nth hull (i + 1)) p) (subSlope (nth hull i) p) = false) ∧
      (tangent worse hull s p + 1 < hull.length →
        worse (subSlope (nth hull (tangent worse hull s p + 1)) p)
          (subSlope (nth hull (tangent worse hull s p)) p) = true) := by
  unfold tangent
  -- induction on the part of the hull still to be scanned
  induction hn : hull.length - s generalizing s with
  | zero => omega
  | succ n ih =>
    by_cases hlast : s + 1 < hull.length
    · have hdrop : hull.drop (s + 1) = nth hull (s + 1) :: hull.drop (s + 1 + 1) := by
        rw [List.drop_eq_getElem_cons hlast]
        simp only [nth, List.getD_eq_getElem?_getD, List.getElem?_eq_getElem hlast,
          Option.getD_some]
      rw [hdrop]
      simp only [scan]
      split_ifs with hworse
      · exact ⟨le_rfl, hs, fun i hi hi' ↦ absurd hi' (by omega), fun _ ↦ hworse⟩
      · obtain ⟨h₁, h₂, h₃, h₄⟩ := ih hlast (by omega)
        refine ⟨by omega, h₂, fun i hi hi' ↦ ?_, h₄⟩
        rcases Nat.eq_or_lt_of_le hi with rfl | hlt
        · simpa using hworse
        · exact h₃ i hlt hi'
    · rw [List.drop_eq_nil_of_le (by omega)]
      exact ⟨le_rfl, hs, fun i hi hi' ↦ absurd hi' (by simp [scan]; omega),
        fun h ↦ absurd h (by simpa [scan] using hlast)⟩

/-- What the popping loop leaves: everything it removed turned the wrong way, what is left
does not, or is a single active point. -/
theorem popEnd_spec (wrong : Int → Bool) (hull : List Point) (s : Nat) (p : Point) {e : Nat}
    (hse : s < e) :
    s < popEnd wrong hull s p e ∧ popEnd wrong hull s p e ≤ e ∧
      (∀ j, popEnd wrong hull s p e ≤ j → j < e →
        wrong (cross (nth hull (j - 1)) (nth hull j) p) = true) ∧
      (s + 2 ≤ popEnd wrong hull s p e →
        wrong (cross (nth hull (popEnd wrong hull s p e - 2))
          (nth hull (popEnd wrong hull s p e - 1)) p) = false) := by
  induction e with
  | zero => omega
  | succ e ih =>
    rw [popEnd]
    split_ifs with hpop
    · obtain ⟨h₁, h₂, h₃, h₄⟩ := ih (by omega)
      refine ⟨h₁, by omega, fun j hj hje ↦ ?_, h₄⟩
      rcases Nat.lt_or_ge j e with hlt | hge
      · exact h₃ j hj hlt
      · obtain rfl : j = e := by omega
        exact hpop.2
    · refine ⟨hse, le_rfl, fun j hj hje ↦ absurd hje (by omega), fun hle ↦ ?_⟩
      simp only [not_and, Bool.not_eq_true] at hpop
      exact hpop hle

/-! ## The invariant -/

/-- The flattest line the rectangle describes. -/
def minLine (m : Oplm) : Line ℚ := lineTo m.rectangle.r0 m.rectangle.r2

/-- The steepest line the rectangle describes. -/
def maxLine (m : Oplm) : Line ℚ := lineTo m.rectangle.r1 m.rectangle.r3

/-- The state after at least two points: the lower hull knows the points of `L`, the upper
hull those of `U`. -/
structure Sides (m : Oplm) (L U : List Point) : Prop where
  lower_mem : ∀ q ∈ m.lower, ∃ p ∈ L, q = bandLow m.epsilon p
  upper_mem : ∀ q ∈ m.upper, ∃ p ∈ U, q = bandHigh m.epsilon p
  r0_eq : m.rectangle.r0 = nth m.upper m.upperStart
  r1_eq : m.rectangle.r1 = nth m.lower m.lowerStart
  r2_eq : m.rectangle.r2 = nth m.lower (m.lower.length - 1)
  r3_eq : m.rectangle.r3 = nth m.upper (m.upper.length - 1)
  r0_lt_r2 : m.rectangle.r0.x < m.rectangle.r2.x
  r1_lt_r3 : m.rectangle.r1.x < m.rectangle.r3.x
  min_above : ∀ p ∈ L, ((bandLow m.epsilon p).y : ℚ) ≤ m.minLine.eval p.x
  min_below : ∀ p ∈ U, m.minLine.eval p.x ≤ (bandHigh m.epsilon p).y
  max_above : ∀ p ∈ L, ((bandLow m.epsilon p).y : ℚ) ≤ m.maxLine.eval p.x
  max_below : ∀ p ∈ U, m.maxLine.eval p.x ≤ (bandHigh m.epsilon p).y
  lower_env : Envelope m.lower m.lowerStart (L.map (bandLow m.epsilon))
    m.minLine.slope m.maxLine.slope
  upper_env : Envelope (m.upper.map flip) m.upperStart (U.map (flip ∘ bandHigh m.epsilon))
    (-m.maxLine.slope) (-m.minLine.slope)

namespace Sides

variable {m : Oplm} {L U : List Point}

theorem lower_length (h : m.Sides L U) : m.lowerStart < m.lower.length := h.lower_env.lt_length

theorem upper_length (h : m.Sides L U) : m.upperStart < m.upper.length := by
  simpa using h.upper_env.lt_length

/-- The steepest line is above the lower hull. -/
theorem max_above_lower (h : m.Sides L U) : Above m.maxLine m.lower m.lowerStart := by
  intro i _ hi
  obtain ⟨p, hp, heq⟩ := h.lower_mem _ (nth_mem hi)
  rw [heq]; exact h.max_above p hp

theorem min_above_lower (h : m.Sides L U) : Above m.minLine m.lower m.lowerStart := by
  intro i _ hi
  obtain ⟨p, hp, heq⟩ := h.lower_mem _ (nth_mem hi)
  rw [heq]; exact h.min_above p hp

/-- The reflected lines are above the reflected upper hull. -/
theorem max_above_upper (h : m.Sides L U) :
    Above m.maxLine.neg (m.upper.map flip) m.upperStart := by
  intro i _ hi
  rw [List.length_map] at hi
  obtain ⟨p, hp, heq⟩ := h.upper_mem _ (nth_mem hi)
  rw [nth_map_flip, heq]
  simpa using h.max_below p hp

theorem min_above_upper (h : m.Sides L U) :
    Above m.minLine.neg (m.upper.map flip) m.upperStart := by
  intro i _ hi
  rw [List.length_map] at hi
  obtain ⟨p, hp, heq⟩ := h.upper_mem _ (nth_mem hi)
  rw [nth_map_flip, heq]
  simpa using h.min_below p hp

end Sides

/-! ## The two branches -/

/-- The bands of the points of `A` and of the new point `q` when it is not rejected. -/
structure Fits (m : Oplm) (A : List Point) (q : Point) : Prop where
  right : ∀ p ∈ A, p.x < q.x
  nonneg : 0 ≤ q.y
  min_le : m.minLine.eval q.x ≤ (bandHigh m.epsilon q).y
  le_max : ((bandLow m.epsilon q).y : ℚ) ≤ m.maxLine.eval q.x

section FirstBranch

variable {m : Oplm} {A : List Point} {q : Point}

/-- The first branch is taken exactly when the new upper corner is below the steepest line. -/
theorem Sides.first_iff {L U : List Point} (h : m.Sides L U) (hL : ∀ p ∈ L, p.x < q.x) :
    subSlope m.rectangle.r1 (bandHigh m.epsilon q) < subSlope m.rectangle.r1 m.rectangle.r3 ↔
      ((bandHigh m.epsilon q).y : ℚ) < m.maxLine.eval q.x := by
  obtain ⟨p, hp, h1⟩ := h.lower_mem _ (h.r1_eq ▸ nth_mem h.lower_length)
  have hx : m.rectangle.r1.x < (bandHigh m.epsilon q).x := by rw [h1]; exact hL p hp
  rw [subSlope_lt_iff hx h.r1_lt_r3]
  exact (lt_eval_iff (ℓ := m.maxLine) (lineTo_eval_left _ _) hx).symm

theorem Sides.x_lt_of_lower {L U : List Point} (h : m.Sides L U) (hL : ∀ p ∈ L, p.x < q.x)
    {i : Nat} (hi : i < m.lower.length) : (nth m.lower i).x < q.x := by
  obtain ⟨p, hp, heq⟩ := h.lower_mem _ (nth_mem hi)
  rw [heq]; exact hL p hp

theorem Sides.x_lt_of_upper {L U : List Point} (h : m.Sides L U) (hU : ∀ p ∈ U, p.x < q.x)
    {i : Nat} (hi : i < m.upper.length) : (nth m.upper i).x < q.x := by
  obtain ⟨p, hp, heq⟩ := h.upper_mem _ (nth_mem hi)
  rw [heq]; exact hU p hp

/-- The scan of the first branch is a walk along the lower hull. -/
theorem Sides.firstWalk (h : m.Sides A A) (hx : ∀ p ∈ A, p.x < q.x) :
    Walk m.lower m.lowerStart (bandHigh m.epsilon q) m.lower.length
      (tangent (fun val best ↦ val > best) m.lower m.lowerStart (bandHigh m.epsilon q)) := by
  obtain ⟨h₁, h₂, h₃, h₄⟩ := tangent_spec (fun val best ↦ val > best) m.lower
    (bandHigh m.epsilon q) h.lower_length
  have hleft : ∀ i, i < m.lower.length → (nth m.lower i).x < (bandHigh m.epsilon q).x :=
    fun i hi ↦ h.x_lt_of_lower hx hi
  refine ⟨le_rfl, fun i _ hi ↦ hleft i hi, fun i hi hi' ↦ absurd hi' (by omega), h₁, h₂, ?_, ?_⟩
  · intro i hi hle
    have hnot := h₃ i hi hle
    simp only [gt_iff_lt, decide_eq_false_iff_not] at hnot
    rw [subSlope_lt_iff (hleft i (by omega)) (hleft (i + 1) (by omega))] at hnot
    exact not_lt.mp hnot
  · intro hlt
    have hworse := h₄ hlt
    simp only [gt_iff_lt, decide_eq_true_eq] at hworse
    rwa [subSlope_lt_iff (hleft _ h₂) (hleft _ hlt)] at hworse

/-- Appending the popped upper hull and its reflection. -/
theorem map_flip_take_append (l : List Point) (e : Nat) (p : Point) :
    (l.take e ++ [p]).map flip = (l.map flip).take e ++ [p.flip] := by
  simp [List.map_take]

/-- Pushing the upper corner of a point to the right of the upper hull. -/
theorem Sides.push_upper (h : m.Sides A A) (hx : ∀ p ∈ A, p.x < q.x) :
    let e := popEnd (· ≤ 0) m.upper m.upperStart (bandHigh m.epsilon q) m.upper.length
    Envelope ((m.upper.take e ++ [bandHigh m.epsilon q]).map flip) m.upperStart
      ((q :: A).map (flip ∘ bandHigh m.epsilon)) (-m.maxLine.slope) (-m.minLine.slope) := by
  intro e
  obtain ⟨h₁, h₂, h₃, h₄⟩ := popEnd_spec (· ≤ 0) m.upper m.upperStart (bandHigh m.epsilon q)
    h.upper_length
  rw [map_flip_take_append, List.map_cons]
  refine h.upper_env.push (by simpa using h₂) h₁ ?_ ?_ ?_
  · intro i _ hi
    rw [List.length_map] at hi
    rw [nth_map_flip]; exact h.x_lt_of_upper hx hi
  · intro j hj hjl
    rw [List.length_map] at hjl
    have hcross := h₃ j hj hjl
    rw [decide_eq_true_eq] at hcross
    rw [nth_map_flip, nth_map_flip, cross_flip]; omega
  · intro hle
    have hcross : ¬ cross (nth m.upper (e - 2)) (nth m.upper (e - 1))
      (bandHigh m.epsilon q) ≤ 0 := of_decide_eq_false (h₄ hle)
    rw [nth_map_flip, nth_map_flip, cross_flip]; omega

/-- The first branch when it is taken: the steepest line becomes the tangent from the new
upper corner to the lower hull. -/
theorem Sides.firstBranch_taken (h : m.Sides A A) (hq : m.Fits A q)
    (hlt : ((bandHigh m.epsilon q).y : ℚ) < m.maxLine.eval q.x) :
    let minI := tangent (fun val best ↦ val > best) m.lower m.lowerStart (bandHigh m.epsilon q)
    let e := popEnd (· ≤ 0) m.upper m.upperStart (bandHigh m.epsilon q) m.upper.length
    Sides { m with
      rectangle := { m.rectangle with r1 := nth m.lower minI, r3 := bandHigh m.epsilon q }
      lowerStart := minI
      upper := m.upper.take e ++ [bandHigh m.epsilon q] } A (q :: A) := by
  intro minI e
  have w := h.firstWalk hq.right
  have hconc := h.lower_env.concave
  -- the tangent's slope stays in the range
  have hhi : (lineTo (nth m.lower minI) (bandHigh m.epsilon q)).slope ≤ m.maxLine.slope :=
    w.slope_le hconc (by rw [← h.r1_eq, maxLine, lineTo_eval_left]) hlt.le
  have hlo : m.minLine.slope ≤ (lineTo (nth m.lower minI) (bandHigh m.epsilon q)).slope :=
    w.le_slope h.min_above_lower hq.min_le
  obtain ⟨hse, hel, -, -⟩ := popEnd_spec (· ≤ 0) m.upper m.upperStart (bandHigh m.epsilon q)
    h.upper_length
  have hel : e ≤ m.upper.length := hel
  have hlen : (m.upper.take e ++ [bandHigh m.epsilon q]).length = e + 1 := by
    simp [min_eq_left hel]
  exact {
    lower_mem := h.lower_mem
    upper_mem := by
      intro u hu
      rcases List.mem_append.mp hu with hu | hu
      · obtain ⟨p, hp, heq⟩ := h.upper_mem u (List.mem_of_mem_take hu)
        exact ⟨p, List.mem_cons_of_mem _ hp, heq⟩
      · exact ⟨q, List.mem_cons_self, List.mem_singleton.mp hu⟩
    r0_eq := by
      change m.rectangle.r0 = nth (m.upper.take e ++ [bandHigh m.epsilon q]) m.upperStart
      rw [nth_take_append hel, if_pos hse]; exact h.r0_eq
    r1_eq := rfl
    r2_eq := h.r2_eq
    r3_eq := by
      change bandHigh m.epsilon q = nth (m.upper.take e ++ [bandHigh m.epsilon q])
        ((m.upper.take e ++ [bandHigh m.epsilon q]).length - 1)
      rw [hlen, nth_take_append hel, if_neg (by omega), if_pos (by omega)]
    r0_lt_r2 := h.r0_lt_r2
    r1_lt_r3 := w.stop_x_lt
    min_above := h.min_above
    min_below := by
      intro p hp
      rcases List.mem_cons.mp hp with rfl | hp
      · exact hq.min_le
      · exact h.min_below p hp
    max_above := fun p hp ↦ h.lower_env.guards _ hlo hhi (w.above hconc) _
      (List.mem_map_of_mem hp)
    max_below := by
      intro p hp
      rcases List.mem_cons.mp hp with rfl | hp
      · exact (lineTo_eval_right w.stop_x_lt).le
      · exact w.eval_le h.max_above_lower h.min_above_lower hlt.le hq.min_le
          (c := bandHigh m.epsilon p) (hq.right p hp).le (h.max_below p hp) (h.min_below p hp)
    lower_env := h.lower_env.advance w hhi
    upper_env := (h.push_upper hq.right).mono (neg_le_neg hhi) le_rfl }

/-- The first branch when it is not taken: the new upper corner does not constrain the
lines. -/
theorem Sides.firstBranch_skipped (h : m.Sides A A) (hq : m.Fits A q)
    (hle : m.maxLine.eval q.x ≤ (bandHigh m.epsilon q).y) : m.Sides A (q :: A) where
  lower_mem := h.lower_mem
  upper_mem u hu := by
    obtain ⟨p, hp, heq⟩ := h.upper_mem u hu
    exact ⟨p, List.mem_cons_of_mem _ hp, heq⟩
  r0_eq := h.r0_eq
  r1_eq := h.r1_eq
  r2_eq := h.r2_eq
  r3_eq := h.r3_eq
  r0_lt_r2 := h.r0_lt_r2
  r1_lt_r3 := h.r1_lt_r3
  min_above := h.min_above
  min_below p hp := by
    rcases List.mem_cons.mp hp with rfl | hp
    · exact hq.min_le
    · exact h.min_below p hp
  max_above := h.max_above
  max_below p hp := by
    rcases List.mem_cons.mp hp with rfl | hp
    · exact hle
    · exact h.max_below p hp
  lower_env := h.lower_env
  upper_env := by
    have hlen := h.upper_length
    refine h.upper_env.skip (N := m.maxLine.neg) (by simp) ?_ ?_ ?_
    · rw [List.length_map, nth_map_flip, ← h.r3_eq]
      simp [maxLine, lineTo_eval_right h.r1_lt_r3]
    · rw [List.length_map, nth_map_flip]
      exact (h.x_lt_of_upper hq.right (by omega)).le
    · simpa using hle

end FirstBranch

section SecondBranch

variable {m : Oplm} {A : List Point} {q : Point}

/-- The second branch is taken exactly when the new lower corner is above the flattest
line. -/
theorem Sides.second_iff {L U : List Point} (h : m.Sides L U)
    (hx : m.rectangle.r0.x < q.x) :
    subSlope m.rectangle.r0 m.rectangle.r2 < subSlope m.rectangle.r0 (bandLow m.epsilon q) ↔
      m.minLine.eval q.x < (bandLow m.epsilon q).y := by
  rw [subSlope_lt_iff h.r0_lt_r2 (t := bandLow m.epsilon q) hx]
  exact (eval_lt_iff (ℓ := m.minLine) (p := bandLow m.epsilon q) (lineTo_eval_left _ _) hx).symm

/-- What the first branch leaves of the upper hull: the first `k` points are to the left of
the new point, and at most its own upper corner follows. -/
structure UpperLeft (m : Oplm) (q : Point) (k : Nat) : Prop where
  start_lt : m.upperStart < k
  le_length : k ≤ m.upper.length
  left : ∀ i, i < k → (nth m.upper i).x < q.x
  last : ∀ i, k ≤ i → i < m.upper.length →
    i = k ∧ nth m.upper i = bandHigh m.epsilon q

/-- The scan of the second branch is a walk along the reflected upper hull; it stops before
the new upper corner, which is straight above the new lower one. -/
theorem Sides.secondWalk {L U : List Point} (h : m.Sides L U) {k : Nat} (hk : m.UpperLeft q k)
    (hband : (bandLow m.epsilon q).y < (bandHigh m.epsilon q).y) :
    Walk (m.upper.map flip) m.upperStart (bandLow m.epsilon q).flip k
      (tangent (fun val best ↦ val < best) m.upper m.upperStart (bandLow m.epsilon q)) := by
  obtain ⟨h₁, h₂, h₃, h₄⟩ := tangent_spec (fun val best ↦ val < best) m.upper
    (bandLow m.epsilon q) h.upper_length
  have hleft : ∀ i, i < k → (nth m.upper i).x < (bandLow m.epsilon q).x := hk.left
  have hmk : tangent (fun val best ↦ val < best) m.upper m.upperStart (bandLow m.epsilon q) < k := by
    by_contra hge
    obtain ⟨heq, hcorner⟩ := hk.last _ (not_lt.mp hge) h₂
    have hstart := hk.start_lt
    -- the step onto the corner has slope `(0, negative)`, which is worse than any other
    have hnot := h₃ (k - 1) (by omega) (by omega)
    rw [show k - 1 + 1 = k by omega, ← heq, hcorner, decide_eq_false_iff_not] at hnot
    refine hnot ?_
    rw [Slope.lt_def]
    have hpos : (nth m.upper (k - 1)).x < q.x := hk.left (k - 1) (by omega)
    simp only [subSlope, bandLow_x, bandHigh_x, sub_self, zero_mul, ← heq] at hpos ⊢
    exact mul_neg_of_neg_of_pos (by omega) (by omega)
  refine ⟨by simpa using hk.le_length, fun i _ hi ↦ ?_, fun i hi hi' ↦ ?_, h₁, hmk, ?_, ?_⟩
  · rw [nth_map_flip]; exact hleft i hi
  · rw [List.length_map] at hi'
    obtain ⟨-, hcorner⟩ := hk.last i hi hi'
    rw [nth_map_flip, hcorner]
    exact ⟨rfl, by simp only [flip_y]; omega⟩
  · intro i hi hle
    have hnot := h₃ i hi hle
    rw [decide_eq_false_iff_not,
      subSlope_lt_iff (hleft (i + 1) (by omega)) (hleft i (by omega))] at hnot
    rw [nth_map_flip, nth_map_flip, slopeTo_flip, slopeTo_flip]
    exact neg_le_neg (not_lt.mp hnot)
  · intro hlt
    have hworse := h₄ (hlt.trans_le hk.le_length)
    rw [decide_eq_true_eq, subSlope_lt_iff (hleft _ hlt) (hleft _ hmk)] at hworse
    rw [nth_map_flip, nth_map_flip, slopeTo_flip, slopeTo_flip]
    exact neg_lt_neg hworse

/-- Pushing the lower corner of a point to the right of the lower hull. -/
theorem Sides.push_lower {U : List Point} (h : m.Sides A U) (hx : ∀ p ∈ A, p.x < q.x) :
    let e := popEnd (· ≥ 0) m.lower m.lowerStart (bandLow m.epsilon q) m.lower.length
    Envelope (m.lower.take e ++ [bandLow m.epsilon q]) m.lowerStart
      ((q :: A).map (bandLow m.epsilon)) m.minLine.slope m.maxLine.slope := by
  intro e
  obtain ⟨h₁, h₂, h₃, h₄⟩ := popEnd_spec (· ≥ 0) m.lower m.lowerStart (bandLow m.epsilon q)
    h.lower_length
  rw [List.map_cons]
  refine h.lower_env.push h₂ h₁ (fun i _ hi ↦ h.x_lt_of_lower hx hi) ?_ ?_
  · intro j hj hjl
    exact of_decide_eq_true (h₃ j hj hjl)
  · intro hle
    exact not_le.mp (of_decide_eq_false (h₄ hle))

/-- The second branch when it is taken: the flattest line becomes the tangent from the new
lower corner to the upper hull. -/
theorem Sides.secondBranch_taken (h : m.Sides A (q :: A)) {k : Nat} (hk : m.UpperLeft q k)
    (hx : ∀ p ∈ A, p.x < q.x) (hband : (bandLow m.epsilon q).y < (bandHigh m.epsilon q).y)
    (hmax : ((bandLow m.epsilon q).y : ℚ) ≤ m.maxLine.eval q.x)
    (hlt : m.minLine.eval q.x < (bandLow m.epsilon q).y) :
    let maxI := tangent (fun val best ↦ val < best) m.upper m.upperStart (bandLow m.epsilon q)
    let e := popEnd (· ≥ 0) m.lower m.lowerStart (bandLow m.epsilon q) m.lower.length
    Sides { m with
      rectangle := { m.rectangle with r0 := nth m.upper maxI, r2 := bandLow m.epsilon q }
      upperStart := maxI
      lower := m.lower.take e ++ [bandLow m.epsilon q] } (q :: A) (q :: A) := by
  intro maxI e
  have w := h.secondWalk hk hband
  have hconc := h.upper_env.concave
  have hmaxI : (nth m.upper maxI).x < (bandLow m.epsilon q).x := hk.left _ w.lt
  -- the new flattest line, and its reflection as a tangent to the reflected hull
  have hline : lineTo (nth (m.upper.map flip) maxI) (bandLow m.epsilon q).flip =
      (lineTo (nth m.upper maxI) (bandLow m.epsilon q)).neg := by
    rw [nth_map_flip, lineTo_flip]
  have hmaxp : m.maxLine.neg.eval (bandLow m.epsilon q).flip.x ≤ (bandLow m.epsilon q).flip.y := by
    simpa using hmax
  have hminp : ((bandLow m.epsilon q).flip.y : ℚ) ≤
      m.minLine.neg.eval (bandLow m.epsilon q).flip.x := by
    simpa using hlt.le
  have hlo : -m.maxLine.slope ≤ -(lineTo (nth m.upper maxI) (bandLow m.epsilon q)).slope := by
    have := w.le_slope h.max_above_upper hmaxp
    rwa [hline] at this
  have hhi : -(lineTo (nth m.upper maxI) (bandLow m.epsilon q)).slope ≤ -m.minLine.slope := by
    have hs : m.minLine.neg.eval (nth (m.upper.map flip) m.upperStart).x =
        (nth (m.upper.map flip) m.upperStart).y := by
      rw [nth_map_flip, ← h.r0_eq]; simp [minLine]
    have := w.slope_le hconc hs hminp
    rwa [hline] at this
  obtain ⟨hse, hel, -, -⟩ := popEnd_spec (· ≥ 0) m.lower m.lowerStart (bandLow m.epsilon q)
    h.lower_length
  have hel : e ≤ m.lower.length := hel
  have hlen : (m.lower.take e ++ [bandLow m.epsilon q]).length = e + 1 := by
    simp [min_eq_left hel]
  exact {
    lower_mem := by
      intro u hu
      rcases List.mem_append.mp hu with hu | hu
      · obtain ⟨p, hp, heq⟩ := h.lower_mem u (List.mem_of_mem_take hu)
        exact ⟨p, List.mem_cons_of_mem _ hp, heq⟩
      · exact ⟨q, List.mem_cons_self, List.mem_singleton.mp hu⟩
    upper_mem := h.upper_mem
    r0_eq := rfl
    r1_eq := by
      change m.rectangle.r1 = nth (m.lower.take e ++ [bandLow m.epsilon q]) m.lowerStart
      rw [nth_take_append hel, if_pos hse]; exact h.r1_eq
    r2_eq := by
      change bandLow m.epsilon q = nth (m.lower.take e ++ [bandLow m.epsilon q])
        ((m.lower.take e ++ [bandLow m.epsilon q]).length - 1)
      rw [hlen, nth_take_append hel, if_neg (by omega), if_pos (by omega)]
    r3_eq := h.r3_eq
    r0_lt_r2 := hmaxI
    r1_lt_r3 := h.r1_lt_r3
    min_above := by
      intro p hp
      rcases List.mem_cons.mp hp with rfl | hp
      · exact (lineTo_eval_right hmaxI).ge
      · have hle := w.eval_le h.min_above_upper h.max_above_upper hminp hmaxp
          (c := (bandLow m.epsilon p).flip) (hx p hp).le
          (by simpa using h.min_above p hp) (by simpa using h.max_above p hp)
        rw [hline] at hle
        change ((bandLow m.epsilon p).y : ℚ) ≤
          (lineTo (nth m.upper maxI) (bandLow m.epsilon q)).eval p.x
        simpa using hle
    min_below := by
      intro p hp
      have hle := h.upper_env.guards _ (by rw [hline]; exact hlo) (by rw [hline]; exact hhi)
        (w.above hconc) _ (List.mem_map_of_mem hp)
      rw [hline] at hle
      change (lineTo (nth m.upper maxI) (bandLow m.epsilon q)).eval p.x ≤
        (bandHigh m.epsilon p).y
      simpa using hle
    max_above := by
      intro p hp
      rcases List.mem_cons.mp hp with rfl | hp
      · exact hmax
      · exact h.max_above p hp
    max_below := h.max_below
    lower_env := (h.push_lower hx).mono (neg_le_neg_iff.mp hhi) le_rfl
    upper_env := by
      have := h.upper_env.advance w (by rw [hline]; exact hhi)
      rwa [hline] at this }

/-- The second branch when it is not taken. -/
theorem Sides.secondBranch_skipped (h : m.Sides A (q :: A)) (hx : ∀ p ∈ A, p.x < q.x)
    (hmax : ((bandLow m.epsilon q).y : ℚ) ≤ m.maxLine.eval q.x)
    (hle : ((bandLow m.epsilon q).y : ℚ) ≤ m.minLine.eval q.x) : m.Sides (q :: A) (q :: A) where
  lower_mem u hu := by
    obtain ⟨p, hp, heq⟩ := h.lower_mem u hu
    exact ⟨p, List.mem_cons_of_mem _ hp, heq⟩
  upper_mem := h.upper_mem
  r0_eq := h.r0_eq
  r1_eq := h.r1_eq
  r2_eq := h.r2_eq
  r3_eq := h.r3_eq
  r0_lt_r2 := h.r0_lt_r2
  r1_lt_r3 := h.r1_lt_r3
  min_above p hp := by
    rcases List.mem_cons.mp hp with rfl | hp
    · exact hle
    · exact h.min_above p hp
  min_below := h.min_below
  max_above p hp := by
    rcases List.mem_cons.mp hp with rfl | hp
    · exact hmax
    · exact h.max_above p hp
  max_below := h.max_below
  lower_env := by
    have hlen := h.lower_length
    refine h.lower_env.skip (N := m.minLine) rfl ?_ ?_ hle
    · rw [← h.r2_eq]; exact lineTo_eval_right h.r0_lt_r2
    · exact (h.x_lt_of_lower hx (by omega)).le
  upper_env := h.upper_env

end SecondBranch

/-! ## One call of `add_point`

`Accepts` relates the whole model to the points it has accepted since its last reset. -/

/-- The accepted points of the current segment, newest first, with their ranks. -/
structure Accepts (m : Oplm) (A : List Point) : Prop where
  points : m.pointsInHull = A.length
  /-- Newest first: keys and ranks decrease strictly along the list. -/
  descending : A.Pairwise (fun p q ↦ q.x < p.x ∧ q.y < p.y)
  nonneg : ∀ p ∈ A, 0 ≤ p.y
  lastX : ∀ p, A.head? = some p → m.lastX = p.x
  firstX : ∀ p, A.getLast? = some p → m.firstX = p.x
  single : ∀ p, A = [p] → m.rectangle.r0 = bandHigh m.epsilon p ∧
    m.rectangle.r1 = bandLow m.epsilon p ∧ m.upper = [bandHigh m.epsilon p] ∧
    m.lower = [bandLow m.epsilon p] ∧ m.upperStart = 0 ∧ m.lowerStart = 0
  sides : 2 ≤ A.length → m.Sides A A

theorem accepts_nil {m : Oplm} (h : m.pointsInHull = 0) : m.Accepts [] where
  points := h
  descending := List.Pairwise.nil
  nonneg p hp := absurd hp List.not_mem_nil
  lastX p hp := absurd hp (by simp)
  firstX p hp := absurd hp (by simp)
  single p hp := absurd hp (by simp)
  sides h := absurd h (by simp)

section OneCall

variable {m : Oplm} {A : List Point} {q : Point}

/-- With an empty band width both extreme lines pass through all points, so they agree to
the right of them. -/
theorem Sides.max_le_min_of_epsilon_zero (h : m.Sides A A) (hε : m.epsilon = 0)
    (hA : ∀ p ∈ A, 0 ≤ p.y) (hx : ∀ p ∈ A, p.x < q.x) :
    m.maxLine.eval q.x ≤ m.minLine.eval q.x := by
  have hflat : ∀ p ∈ A, (bandLow m.epsilon p).y = (bandHigh m.epsilon p).y := by
    intro p hp
    have := hA p hp
    rw [bandLow_y, bandHigh, hε]; simp [this]
  obtain ⟨p₀, hp₀, h0⟩ := h.upper_mem _ (h.r0_eq ▸ nth_mem h.upper_length)
  obtain ⟨p₂, hp₂, h2⟩ := h.lower_mem _ (h.r2_eq ▸ nth_mem (by have := h.lower_length; omega))
  have hlt : (p₀.x : ℚ) < p₂.x := by
    have := h.r0_lt_r2
    rw [h0, h2] at this
    exact_mod_cast this
  have hle₀ : m.maxLine.eval p₀.x ≤ m.minLine.eval p₀.x := by
    refine (h.max_below p₀ hp₀).trans ?_
    rw [← hflat p₀ hp₀]; exact h.min_above p₀ hp₀
  have hge₀ : m.minLine.eval p₀.x ≤ m.maxLine.eval p₀.x := by
    refine (h.min_below p₀ hp₀).trans ?_
    rw [← hflat p₀ hp₀]; exact h.max_above p₀ hp₀
  have hle₂ : m.maxLine.eval p₂.x ≤ m.minLine.eval p₂.x := by
    refine (h.max_below p₂ hp₂).trans ?_
    rw [← hflat p₂ hp₂]; exact h.min_above p₂ hp₂
  refine Line.eval_le_of_slope_le hle₂ (Line.slope_le_of_cross hlt hge₀ hle₂) ?_
  exact_mod_cast (hx p₂ hp₂).le

/-- When the second branch is taken, the band of the new point is not a single point. -/
theorem Sides.bandLow_lt_bandHigh (h : m.Sides A A) (hA : ∀ p ∈ A, 0 ≤ p.y)
    (hq : m.Fits A q) (hlt : m.minLine.eval q.x < (bandLow m.epsilon q).y) :
    (bandLow m.epsilon q).y < (bandHigh m.epsilon q).y := by
  rcases Nat.eq_zero_or_pos m.epsilon with hε | hε
  · have := h.max_le_min_of_epsilon_zero hε hA hq.right
    exact absurd (hlt.trans_le (hq.le_max.trans this)) (lt_irrefl _)
  · have := hq.nonneg
    rw [bandLow_y]; simp only [bandHigh]; omega

@[simp] theorem firstBranch_epsilon (p1 : Point) (s : Slope) :
    (m.firstBranch p1 s).epsilon = m.epsilon := by unfold firstBranch; split_ifs <;> rfl
@[simp] theorem firstBranch_pointsInHull (p1 : Point) (s : Slope) :
    (m.firstBranch p1 s).pointsInHull = m.pointsInHull := by unfold firstBranch; split_ifs <;> rfl
@[simp] theorem firstBranch_firstX (p1 : Point) (s : Slope) :
    (m.firstBranch p1 s).firstX = m.firstX := by unfold firstBranch; split_ifs <;> rfl
@[simp] theorem firstBranch_lastX (p1 : Point) (s : Slope) :
    (m.firstBranch p1 s).lastX = m.lastX := by unfold firstBranch; split_ifs <;> rfl
@[simp] theorem firstBranch_r0 (p1 : Point) (s : Slope) :
    (m.firstBranch p1 s).rectangle.r0 = m.rectangle.r0 := by unfold firstBranch; split_ifs <;> rfl
@[simp] theorem firstBranch_r2 (p1 : Point) (s : Slope) :
    (m.firstBranch p1 s).rectangle.r2 = m.rectangle.r2 := by unfold firstBranch; split_ifs <;> rfl
@[simp] theorem firstBranch_minLine (p1 : Point) (s : Slope) :
    (m.firstBranch p1 s).minLine = m.minLine := by unfold firstBranch; split_ifs <;> rfl
@[simp] theorem secondBranch_epsilon (p2 : Point) (s : Slope) :
    (m.secondBranch p2 s).epsilon = m.epsilon := by unfold secondBranch; split_ifs <;> rfl
@[simp] theorem secondBranch_pointsInHull (p2 : Point) (s : Slope) :
    (m.secondBranch p2 s).pointsInHull = m.pointsInHull := by
  unfold secondBranch; split_ifs <;> rfl
@[simp] theorem secondBranch_firstX (p2 : Point) (s : Slope) :
    (m.secondBranch p2 s).firstX = m.firstX := by unfold secondBranch; split_ifs <;> rfl
@[simp] theorem secondBranch_lastX (p2 : Point) (s : Slope) :
    (m.secondBranch p2 s).lastX = m.lastX := by unfold secondBranch; split_ifs <;> rfl

/-- The first branch registers the new point with the upper hull. -/
theorem Sides.firstBranch (h : m.Sides A A) (hq : m.Fits A q) (hy : 0 ≤ q.y) :
    let m' := m.firstBranch (bandHigh m.epsilon q) (subSlope m.rectangle.r1 m.rectangle.r3)
    m'.Sides A (q :: A) ∧ ((bandLow m.epsilon q).y : ℚ) ≤ m'.maxLine.eval q.x ∧
      ∃ k, m'.UpperLeft q k := by
  intro m'
  have hm' : m' = m.firstBranch (bandHigh m.epsilon q)
    (subSlope m.rectangle.r1 m.rectangle.r3) := rfl
  unfold Oplm.firstBranch at hm'
  split_ifs at hm' with hlt
  · rw [h.first_iff hq.right] at hlt
    have w := h.firstWalk hq.right
    obtain ⟨hse, hel, -, -⟩ := popEnd_spec (· ≤ 0) m.upper m.upperStart (bandHigh m.epsilon q)
      h.upper_length
    rw [hm']
    refine ⟨h.firstBranch_taken hq hlt, ?_, _,
      ⟨hse, by simp [min_eq_left hel], fun i hi ↦ ?_, fun i hi hil ↦ ?_⟩⟩
    · refine le_trans ?_ (lineTo_eval_right w.stop_x_lt).ge
      exact_mod_cast bandLow_le_bandHigh m.epsilon hy
    · change (nth (m.upper.take _ ++ [bandHigh m.epsilon q]) i).x < q.x
      rw [nth_take_append hel, if_pos hi]
      exact h.x_lt_of_upper hq.right (hi.trans_le hel)
    · have hik : i = popEnd (· ≤ 0) m.upper m.upperStart (bandHigh m.epsilon q)
          m.upper.length := by
        simp only [List.length_append, List.length_take, min_eq_left hel,
          List.length_singleton] at hil
        omega
      refine ⟨hik, ?_⟩
      change nth (m.upper.take _ ++ [bandHigh m.epsilon q]) i = _
      rw [nth_take_append hel, if_neg (by omega), if_pos hik]
  · rw [h.first_iff hq.right, not_lt] at hlt
    rw [hm']
    exact ⟨h.firstBranch_skipped hq hlt, hq.le_max, m.upper.length, h.upper_length, le_rfl,
      fun i hi ↦ h.x_lt_of_upper hq.right hi, fun i hi hil ↦ absurd hil (by omega)⟩

/-- The second branch registers it with the lower hull. -/
theorem Sides.secondBranch (h : m.Sides A (q :: A)) (hx : ∀ p ∈ A, p.x < q.x) {k : Nat}
    (hk : m.UpperLeft q k) (hr0 : m.rectangle.r0.x < q.x)
    (hmax : ((bandLow m.epsilon q).y : ℚ) ≤ m.maxLine.eval q.x)
    (hband : m.minLine.eval q.x < (bandLow m.epsilon q).y →
      (bandLow m.epsilon q).y < (bandHigh m.epsilon q).y) :
    (m.secondBranch (bandLow m.epsilon q) (subSlope m.rectangle.r0 m.rectangle.r2)).Sides
      (q :: A) (q :: A) := by
  unfold Oplm.secondBranch
  split_ifs with hlt
  · rw [gt_iff_lt, h.second_iff hr0] at hlt
    exact h.secondBranch_taken hk hx (hband hlt) hmax hlt
  · rw [gt_iff_lt, h.second_iff hr0, not_lt] at hlt
    exact h.secondBranch_skipped hx hmax hlt

/-- Both branches together register the new point on both sides. -/
theorem Sides.branches (h : m.Sides A A) (hA : ∀ p ∈ A, 0 ≤ p.y) (hfit : m.Fits A q) :
    ((m.firstBranch (bandHigh m.epsilon q)
      (subSlope m.rectangle.r1 m.rectangle.r3)).secondBranch (bandLow m.epsilon q)
        (subSlope m.rectangle.r0 m.rectangle.r2)).Sides (q :: A) (q :: A) := by
  obtain ⟨h₁, hmax, k, hk⟩ := h.firstBranch hfit hfit.nonneg
  have hr0 : m.rectangle.r0.x < q.x := h.r0_eq ▸ h.x_lt_of_upper hfit.right h.upper_length
  have hband := h.bandLow_lt_bandHigh hA hfit
  have hε := firstBranch_epsilon (m := m) (bandHigh m.epsilon q)
    (subSlope m.rectangle.r1 m.rectangle.r3)
  have h₂ := h₁.secondBranch hfit.right hk (by simpa using hr0) (by rw [hε]; exact hmax)
    (by simpa only [hε, firstBranch_minLine] using hband)
  simpa only [hε, firstBranch_r0, firstBranch_r2] using h₂

/-- A line that fits all accepted points and the new one forces `Fits`: every feasible line
is above the flattest one and below the steepest one to the right of the accepted points. -/
theorem Sides.fits_of_feasible (h : m.Sides A A) (hx : ∀ p ∈ A, p.x < q.x) (hy : 0 ≤ q.y)
    {ℓ : Line ℚ} (hℓ : Feasible m.epsilon ℓ (q :: A)) : m.Fits A q := by
  have hA : ∀ p ∈ A, _ := fun p hp ↦ hℓ p (List.mem_cons_of_mem _ hp)
  obtain ⟨hqlow, hqhigh⟩ := hℓ q List.mem_cons_self
  obtain ⟨p₀, hp₀, h0⟩ := h.upper_mem _ (h.r0_eq ▸ nth_mem h.upper_length)
  obtain ⟨p₁, hp₁, h1⟩ := h.lower_mem _ (h.r1_eq ▸ nth_mem h.lower_length)
  obtain ⟨p₂, hp₂, h2⟩ := h.lower_mem _ (h.r2_eq ▸ nth_mem (by have := h.lower_length; omega))
  obtain ⟨p₃, hp₃, h3⟩ := h.upper_mem _ (h.r3_eq ▸ nth_mem (by have := h.upper_length; omega))
  refine ⟨hx, hy, le_trans ?_ hqhigh, hqlow.trans ?_⟩
  · have hlt : (m.rectangle.r0.x : ℚ) < m.rectangle.r2.x := by exact_mod_cast h.r0_lt_r2
    have hleft : ℓ.eval m.rectangle.r0.x ≤ m.minLine.eval m.rectangle.r0.x := by
      rw [minLine, lineTo_eval_left, h0]; exact (hA p₀ hp₀).2
    have hright : m.minLine.eval m.rectangle.r2.x ≤ ℓ.eval m.rectangle.r2.x := by
      rw [minLine, lineTo_eval_right h.r0_lt_r2, h2]; exact (hA p₂ hp₂).1
    refine Line.eval_le_of_slope_le hright (Line.slope_le_of_cross hlt hleft hright) ?_
    rw [h2]; exact_mod_cast (hx p₂ hp₂).le
  · have hlt : (m.rectangle.r1.x : ℚ) < m.rectangle.r3.x := by exact_mod_cast h.r1_lt_r3
    have hleft : m.maxLine.eval m.rectangle.r1.x ≤ ℓ.eval m.rectangle.r1.x := by
      rw [maxLine, lineTo_eval_left, h1]; exact (hA p₁ hp₁).1
    have hright : ℓ.eval m.rectangle.r3.x ≤ m.maxLine.eval m.rectangle.r3.x := by
      rw [maxLine, lineTo_eval_right h.r1_lt_r3, h3]; exact (hA p₃ hp₃).2
    refine Line.eval_le_of_slope_le hright (Line.slope_le_of_cross hlt hleft hright) ?_
    rw [h3]; exact_mod_cast (hx p₃ hp₃).le

/-- The two tests of `add_point` against the extreme lines decide `Fits`. -/
theorem Sides.outside_iff (h : m.Sides A A) (hx : ∀ p ∈ A, p.x < q.x) (hy : 0 ≤ q.y) :
    (subSlope m.rectangle.r2 (bandHigh m.epsilon q) <
        subSlope m.rectangle.r0 m.rectangle.r2 ∨
      subSlope m.rectangle.r1 m.rectangle.r3 <
        subSlope m.rectangle.r3 (bandLow m.epsilon q)) ↔ ¬ m.Fits A q := by
  have hr2 : m.rectangle.r2.x < q.x :=
    h.r2_eq ▸ h.x_lt_of_lower hx (by have := h.lower_length; omega)
  have hr3 : m.rectangle.r3.x < q.x :=
    h.r3_eq ▸ h.x_lt_of_upper hx (by have := h.upper_length; omega)
  rw [subSlope_lt_iff (p := bandHigh m.epsilon q) hr2 h.r0_lt_r2,
    subSlope_lt_iff (t := bandLow m.epsilon q) h.r1_lt_r3 hr3]
  have h₁ := lt_eval_iff (ℓ := m.minLine) (p := bandHigh m.epsilon q)
    (lineTo_eval_right h.r0_lt_r2) hr2
  have h₂ := eval_lt_iff (ℓ := m.maxLine) (p := bandLow m.epsilon q)
    (lineTo_eval_right h.r1_lt_r3) hr3
  rw [minLine, lineTo_slope, ← minLine] at h₁
  rw [maxLine, lineTo_slope, ← maxLine] at h₂
  rw [← h₁, ← h₂]
  constructor
  · rintro (hlt | hlt) hfit
    · exact absurd hfit.min_le (not_le.mpr hlt)
    · exact absurd hfit.le_max (not_le.mpr hlt)
  · intro hfit
    by_contra hnot
    rw [not_or, not_lt, not_lt] at hnot
    exact hfit ⟨hx, hy, hnot.1, hnot.2⟩

/-- A chain of two points is an envelope of them. -/
theorem envelope_pair {a b : Point} (hab : a.x < b.x) (lo hi : ℚ) :
    Envelope [a, b] 0 [b, a] lo hi where
  lt_length := by simp
  concave := by
    refine ⟨fun i _ hi ↦ ?_, fun i _ hi ↦ absurd hi (by simp)⟩
    obtain rfl : i = 0 := by simpa using hi
    exact hab
  guards := by
    intro ℓ _ _ habove q hq
    rcases List.mem_cons.mp hq with rfl | hq
    · exact habove 1 (by simp) (by simp)
    · rw [List.mem_singleton.mp hq]; exact habove 0 (by simp) (by simp)

/-- After two points the four corners give the first pair of lines, and both hulls have
exactly the two corners of their side. -/
theorem sides_pair {m : Oplm} {p q : Point} (hx : p.x < q.x) (hp : 0 ≤ p.y) (hq : 0 ≤ q.y)
    (hrect : m.rectangle = ⟨bandHigh m.epsilon p, bandLow m.epsilon p,
      bandLow m.epsilon q, bandHigh m.epsilon q⟩)
    (hup : m.upper = [bandHigh m.epsilon p, bandHigh m.epsilon q])
    (hlow : m.lower = [bandLow m.epsilon p, bandLow m.epsilon q])
    (hus : m.upperStart = 0) (hls : m.lowerStart = 0) : m.Sides [q, p] [q, p] := by
  have hbp : ((bandLow m.epsilon p).y : ℚ) ≤ (bandHigh m.epsilon p).y := by
    exact_mod_cast bandLow_le_bandHigh m.epsilon hp
  have hbq : ((bandLow m.epsilon q).y : ℚ) ≤ (bandHigh m.epsilon q).y := by
    exact_mod_cast bandLow_le_bandHigh m.epsilon hq
  have hmin : m.minLine = lineTo (bandHigh m.epsilon p) (bandLow m.epsilon q) := by
    rw [minLine, hrect]
  have hmax : m.maxLine = lineTo (bandLow m.epsilon p) (bandHigh m.epsilon q) := by
    rw [maxLine, hrect]
  have hminp : m.minLine.eval p.x = (bandHigh m.epsilon p).y :=
    hmin ▸ lineTo_eval_left (bandHigh m.epsilon p) _
  have hmaxp : m.maxLine.eval p.x = (bandLow m.epsilon p).y :=
    hmax ▸ lineTo_eval_left (bandLow m.epsilon p) _
  have hminq : m.minLine.eval q.x = (bandLow m.epsilon q).y :=
    hmin ▸ lineTo_eval_right (p := bandLow m.epsilon q) hx
  have hmaxq : m.maxLine.eval q.x = (bandHigh m.epsilon q).y :=
    hmax ▸ lineTo_eval_right (p := bandHigh m.epsilon q) hx
  exact {
    lower_mem := by simp [hlow]
    upper_mem := by simp [hup]
    r0_eq := by simp [hrect, hup, hus, nth]
    r1_eq := by simp [hrect, hlow, hls, nth]
    r2_eq := by simp [hrect, hlow, nth]
    r3_eq := by simp [hrect, hup, nth]
    r0_lt_r2 := by simpa [hrect] using hx
    r1_lt_r3 := by simpa [hrect] using hx
    min_above := by simp [hminp, hminq, hbp]
    min_below := by simp [hminp, hminq, hbq]
    max_above := by simp [hmaxp, hmaxq, hbq]
    max_below := by simp [hmaxp, hmaxq, hbp]
    lower_env := by
      rw [hlow, hls]
      exact envelope_pair (a := bandLow m.epsilon p) (b := bandLow m.epsilon q) hx _ _
    upper_env := by
      rw [hup, hus]
      exact envelope_pair (a := (bandHigh m.epsilon p).flip) (b := (bandHigh m.epsilon q).flip)
        hx _ _ }

/-- The first point of a segment. -/
theorem Accepts.firstPoint (h : m.Accepts []) (hy : 0 ≤ q.y) :
    ({ m with lastX := q.x }.firstPoint (bandHigh m.epsilon q) (bandLow m.epsilon q)).Accepts
      [q] where
  points := by simp [Oplm.firstPoint, h.points]
  descending := List.pairwise_singleton _ _
  nonneg p hp := by rw [List.mem_singleton.mp hp]; exact hy
  lastX p hp := by cases hp; rfl
  firstX p hp := by cases hp; rfl
  single p hp := by cases hp; exact ⟨rfl, rfl, rfl, rfl, rfl, rfl⟩
  sides h := absurd h (by simp)

/-- The second point of a segment. -/
theorem Accepts.secondPoint {p : Point} (h : m.Accepts [p]) (hx : p.x < q.x) (hy : p.y < q.y) :
    ({ m with lastX := q.x }.secondPoint (bandHigh m.epsilon q) (bandLow m.epsilon q)).Accepts
      [q, p] := by
  obtain ⟨hr0, hr1, hup, hlow, hus, hls⟩ := h.single p rfl
  have hp0 : 0 ≤ p.y := h.nonneg p (by simp)
  have hq0 : 0 ≤ q.y := hp0.trans hy.le
  exact {
    points := by simp [Oplm.secondPoint, h.points]
    descending := by simp [hx, hy]
    nonneg := by simp [hp0, hq0]
    lastX := fun p hp ↦ by cases hp; rfl
    firstX := fun p hp ↦ by cases hp; exact h.firstX _ rfl
    single := fun p hp ↦ by simp at hp
    sides := fun _ ↦ sides_pair hx hp0 hq0 (by simp [Oplm.secondPoint, hr0, hr1])
      (by simp [Oplm.secondPoint, hup]) (by simp [Oplm.secondPoint, hlow]) hus hls }

/-- A later point that fits the extreme lines goes through both branches. -/
theorem Accepts.laterPoint (h : m.Accepts A) (hlen : 2 ≤ A.length)
    (hq : ∀ p ∈ A, p.x < q.x ∧ p.y < q.y) (hfit : m.Fits A q) :
    ∃ m', { m with lastX := q.x }.laterPoint (bandHigh m.epsilon q) (bandLow m.epsilon q) =
      (true, m') ∧ m'.Accepts (q :: A) ∧ m'.epsilon = m.epsilon := by
  have hs := h.sides hlen
  have hout : ¬ _ := fun hout ↦ (hs.outside_iff hfit.right hfit.nonneg).mp hout hfit
  refine ⟨_, if_neg hout, ?_, by simp⟩
  -- the model with the new `lastX` has the same sides
  have hs' := Sides.branches (m := { m with lastX := q.x }) { hs with } h.nonneg { hfit with }
  exact {
    points := by simp [h.points]
    descending := List.pairwise_cons.mpr ⟨hq, h.descending⟩
    nonneg := by
      intro p hp
      rcases List.mem_cons.mp hp with rfl | hp
      · exact hfit.nonneg
      · exact h.nonneg p hp
    lastX := fun p hp ↦ by cases hp; simp
    firstX := fun p hp ↦ by
      have hne : A ≠ [] := fun hA ↦ by simp [hA] at hlen
      rw [List.getLast?_cons_of_ne_nil hne] at hp
      simpa using h.firstX p hp
    single := fun p hp ↦ by
      obtain ⟨-, hA⟩ := List.cons.inj hp
      simp [hA] at hlen
    sides := fun _ ↦ { hs' with } }

/-- What `add_point` does with a point to the right of the accepted ones: it accepts it, or
there are at least two points already and the new one does not fit the extreme lines. -/
theorem Accepts.addPoint_spec (h : m.Accepts A) (hq : ∀ p ∈ A, p.x < q.x ∧ p.y < q.y)
    (hy : 0 ≤ q.y) :
    (∃ m', m.addPoint q.x q.y = .ok (true, m') ∧ m'.Accepts (q :: A) ∧
      m'.epsilon = m.epsilon) ∨
    (2 ≤ A.length ∧ ¬ m.Fits A q ∧
      m.addPoint q.x q.y = .ok (false, { m with lastX := q.x, pointsInHull := 0 })) := by
  have hx : ∀ p ∈ A, p.x < q.x := fun p hp ↦ (hq p hp).1
  have hguard : ¬ (m.pointsInHull > 0 ∧ q.x ≤ m.lastX) := by
    rintro ⟨hpos, hle⟩
    rw [h.points] at hpos
    obtain ⟨p, A, rfl⟩ := List.exists_cons_of_length_pos hpos
    rw [h.lastX p rfl] at hle
    exact absurd (hx p List.mem_cons_self) (not_lt.mpr hle)
  unfold addPoint
  rw [if_neg hguard]
  rcases A with _ | ⟨p, _ | ⟨p', A⟩⟩
  · have h0 : m.pointsInHull = 0 := h.points
    exact Or.inl ⟨_, if_pos h0, h.firstPoint hy, rfl⟩
  · have h1 : m.pointsInHull = 1 := h.points
    obtain ⟨hpx, hpy⟩ := hq p (by simp)
    exact Or.inl ⟨_, (if_neg (by simp [h1])).trans (if_pos h1), h.secondPoint hpx hpy, rfl⟩
  · have hne : ¬ m.pointsInHull = 0 ∧ ¬ m.pointsInHull = 1 := by rw [h.points]; simp
    have hlen : 2 ≤ (p :: p' :: A).length := by simp
    dsimp only
    rw [if_neg hne.1, if_neg hne.2]
    by_cases hfit : m.Fits (p :: p' :: A) q
    · obtain ⟨m', heq, hacc, hε⟩ := h.laterPoint hlen hq hfit
      exact Or.inl ⟨m', congrArg Except.ok heq, hacc, hε⟩
    · refine Or.inr ⟨hlen, hfit, congrArg Except.ok ?_⟩
      exact if_pos (((h.sides hlen).outside_iff hx hy).mpr hfit)

end OneCall

end Oplm

end EnhancedLetIndex
