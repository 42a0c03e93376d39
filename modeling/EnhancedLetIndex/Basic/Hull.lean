import EnhancedLetIndex.Basic.Line

/-!
# Concave chains of integer points

A chain is a list of integer points together with a start index; the points from that index
on are its *active* part.  `Concave` says that the active points move to the right and turn
strictly clockwise, `Chain.Above` that a line stays above all of them.  The results are the
two facts an upper hull is kept for:

* `Walk.above`: walking along the chain until the slope towards a point on its right
  first increases finds the least slope, hence a line through that point which stays above
  the whole chain;
* `Envelope.push`, `Envelope.skip`, `Envelope.advance`: a chain that *guards* a set of points (a
  line in the slope range that is above the chain is above them all) still guards it after
  a new point is pushed, left out or the front of the chain is dropped.

Everything is stated for upper hulls; `Point.flip` turns a lower hull into an upper one.
-/

namespace EnhancedLetIndex

/-- A point with integer coordinates. -/
@[ext]
structure Point where
  x : Int
  y : Int
deriving DecidableEq, Repr, Inhabited

/-- The cross product `(a - o) × (b - o)`; positive is a left turn. -/
def cross (o a b : Point) : Int :=
  (a.x - o.x) * (b.y - o.y) - (a.y - o.y) * (b.x - o.x)

namespace Point

/-- Reflection in the horizontal axis. -/
def flip (p : Point) : Point := ⟨p.x, -p.y⟩

@[simp] theorem flip_x (p : Point) : p.flip.x = p.x := rfl
@[simp] theorem flip_y (p : Point) : p.flip.y = -p.y := rfl
@[simp] theorem flip_flip (p : Point) : p.flip.flip = p := by simp [flip]

theorem cross_flip (o a b : Point) : cross o.flip a.flip b.flip = -cross o a b := by
  simp only [cross, flip_x, flip_y]; ring

/-- The slope from `q` towards `p`. -/
def slopeTo (p q : Point) : ℚ := (p.y - q.y) / (p.x - q.x)

theorem slopeTo_flip (p q : Point) : slopeTo p.flip q.flip = -slopeTo p q := by
  simp only [slopeTo, flip_x, flip_y, Int.cast_neg]; ring

/-- The line through two points. -/
def lineTo (q p : Point) : Line ℚ := Line.through q.x q.y p.x p.y

theorem lineTo_slope (q p : Point) : (lineTo q p).slope = slopeTo p q := rfl

@[simp] theorem lineTo_eval_left (q p : Point) : (lineTo q p).eval q.x = q.y :=
  Line.through_eval_left _ _ _ _

theorem lineTo_eval_right {q p : Point} (h : q.x < p.x) : (lineTo q p).eval p.x = p.y :=
  Line.through_eval_right _ _ (by exact_mod_cast h)

/-- The slope towards a point to the right, cleared of its denominator. -/
theorem slopeTo_mul {p q : Point} (h : q.x < p.x) :
    slopeTo p q * ((p.x : ℚ) - q.x) = p.y - q.y := by
  have hpos : (0 : ℚ) < (p.x : ℚ) - q.x := by
    rw [sub_pos]; exact_mod_cast h
  exact div_mul_cancel₀ _ hpos.ne'

/-- Slopes towards points to the right compare as their cross-multiplied differences. -/
theorem slopeTo_lt_slopeTo {p q p' q' : Point} (h : q.x < p.x) (h' : q'.x < p'.x) :
    slopeTo p q < slopeTo p' q' ↔
      (p.y - q.y) * (p'.x - q'.x) < (p.x - q.x) * (p'.y - q'.y) := by
  have hpos : (0 : ℚ) < (p.x : ℚ) - q.x := by rw [sub_pos]; exact_mod_cast h
  have hpos' : (0 : ℚ) < (p'.x : ℚ) - q'.x := by rw [sub_pos]; exact_mod_cast h'
  rw [slopeTo, slopeTo, div_lt_div_iff₀ hpos hpos', mul_comm ((p'.y : ℚ) - q'.y)]
  exact_mod_cast Iff.rfl

/-- A point is below a line through `q` exactly when the slope from `q` is smaller. -/
theorem lt_eval_iff {ℓ : Line ℚ} {q p : Point} (hq : ℓ.eval q.x = q.y) (h : q.x < p.x) :
    (p.y : ℚ) < ℓ.eval p.x ↔ slopeTo p q < ℓ.slope := by
  have hpos : (0 : ℚ) < (p.x : ℚ) - q.x := by rw [sub_pos]; exact_mod_cast h
  rw [Line.eval_eq_add ℓ p.x q.x, hq, slopeTo, div_lt_iff₀ hpos]
  constructor <;> intro hlt <;> linarith

/-- A point is above a line through `q` exactly when the slope from `q` is larger. -/
theorem eval_lt_iff {ℓ : Line ℚ} {q p : Point} (hq : ℓ.eval q.x = q.y) (h : q.x < p.x) :
    ℓ.eval p.x < p.y ↔ ℓ.slope < slopeTo p q := by
  have hpos : (0 : ℚ) < (p.x : ℚ) - q.x := by rw [sub_pos]; exact_mod_cast h
  rw [Line.eval_eq_add ℓ p.x q.x, hq, slopeTo, lt_div_iff₀ hpos]
  constructor <;> intro hlt <;> linarith

/-- The line through `q` and `p` is above every point to the left of `p` from which the
slope towards `p` is at least as large. -/
theorem le_lineTo_eval {q r p : Point} (hq : q.x < p.x) (hr : r.x < p.x)
    (hs : slopeTo p q ≤ slopeTo p r) : (r.y : ℚ) ≤ (lineTo q p).eval r.x := by
  have hpos : (0 : ℚ) ≤ (p.x : ℚ) - r.x := by
    rw [sub_nonneg]; exact_mod_cast hr.le
  have hmul := slopeTo_mul hr
  have hle := mul_le_mul_of_nonneg_right hs hpos
  rw [Line.eval_eq_add _ (r.x : ℚ) p.x, lineTo_eval_right hq, lineTo_slope]
  linarith

end Point

open Point

/-! ## Turning points -/

/-- A middle point that does not stick out above its neighbours' chord is below every line
above both neighbours. -/
theorem le_eval_of_cross_nonneg {a b c : Point} {ℓ : Line ℚ} (hab : a.x < b.x) (hbc : b.x < c.x)
    (hc : 0 ≤ cross a b c) (ha : (a.y : ℚ) ≤ ℓ.eval a.x) (hcl : (c.y : ℚ) ≤ ℓ.eval c.x) :
    (b.y : ℚ) ≤ ℓ.eval b.x := by
  have hac : a.x < c.x := hab.trans hbc
  -- the chord from `a` to `c` is below `ℓ` at both ends, hence at `b`
  have hchord : (lineTo a c).eval b.x ≤ ℓ.eval b.x :=
    Line.eval_le_of_between (u := (a.x : ℚ)) (v := c.x) (by exact_mod_cast hab.le)
      (by exact_mod_cast hbc.le) (by simpa using ha) (by rw [lineTo_eval_right hac]; exact hcl)
  refine le_trans (le_of_not_gt fun hlt ↦ ?_) hchord
  rw [eval_lt_iff (lineTo_eval_left a c) hab, lineTo_slope, slopeTo_lt_slopeTo hac hab] at hlt
  simp only [cross] at hc
  linarith

/-- Once the slope towards a point on the right increases along a clockwise turn, it keeps
increasing. -/
theorem slopeTo_lt_of_turn {a b c p : Point} (hab : a.x < b.x) (hbc : b.x < c.x)
    (hcp : c.x < p.x) (hturn : cross a b c < 0) (hlt : slopeTo p a < slopeTo p b) :
    slopeTo p b < slopeTo p c := by
  have hbp : b.x < p.x := hbc.trans hcp
  rw [slopeTo_lt_slopeTo (hab.trans hbp) hbp] at hlt
  rw [slopeTo_lt_slopeTo hbp hcp]
  -- relative to the chord `a b`, the point `c` is below and `p` above
  have hp : 0 < cross a b p := by simp only [cross]; linarith
  have hkey : (b.x - a.x) * cross b c p =
      (c.x - b.x) * cross a b p - cross a b c * (p.x - b.x) := by
    simp only [cross]; ring
  have hpos : 0 < (b.x - a.x) * cross b c p := by
    rw [hkey]
    have h₁ : 0 < (c.x - b.x) * cross a b p := mul_pos (by linarith) hp
    have h₂ : cross a b c * (p.x - b.x) < 0 := mul_neg_of_neg_of_pos hturn (by linarith)
    linarith
  have hcross : 0 < cross b c p := pos_of_mul_pos_right hpos (by linarith)
  simp only [cross] at hcross
  linarith

/-! ## Chains -/

/-- The `i`-th point of a chain. -/
def nth (l : List Point) (i : Nat) : Point := l.getD i ⟨0, 0⟩

theorem nth_take_append {l : List Point} {e : Nat} (he : e ≤ l.length) (p : Point) (i : Nat) :
    nth (l.take e ++ [p]) i = if i < e then nth l i else if i = e then p else ⟨0, 0⟩ := by
  simp only [nth, List.getD_eq_getElem?_getD]
  rw [List.getElem?_append, List.length_take, min_eq_left he]
  split_ifs with h₁ h₂
  · rw [List.getElem?_take_of_lt h₁]
  · simp [h₂]
  · rw [List.getElem?_eq_none (by simp; omega)]; rfl

theorem nth_map_flip (l : List Point) (i : Nat) : nth (l.map flip) i = (nth l i).flip := by
  simp only [nth, List.getD_eq_getElem?_getD, List.getElem?_map]
  cases l[i]? <;> rfl

theorem nth_mem {l : List Point} {i : Nat} (h : i < l.length) : nth l i ∈ l := by
  simp only [nth, List.getD_eq_getElem?_getD, List.getElem?_eq_getElem h, Option.getD_some]
  exact List.getElem_mem h

/-- The points of `l` from index `s` on move to the right and turn strictly clockwise. -/
structure Concave (l : List Point) (s : Nat) : Prop where
  x_lt : ∀ i, s ≤ i → i + 1 < l.length → (nth l i).x < (nth l (i + 1)).x
  turn : ∀ i, s ≤ i → i + 2 < l.length →
    cross (nth l i) (nth l (i + 1)) (nth l (i + 2)) < 0

/-- A line stays above the points of `l` from index `s` on. -/
def Above (ℓ : Line ℚ) (l : List Point) (s : Nat) : Prop :=
  ∀ i, s ≤ i → i < l.length → ((nth l i).y : ℚ) ≤ ℓ.eval (nth l i).x

namespace Concave

variable {l : List Point} {s : Nat}

theorem mono (h : Concave l s) {s' : Nat} (hs : s ≤ s') : Concave l s' where
  x_lt i hi := h.x_lt i (hs.trans hi)
  turn i hi := h.turn i (hs.trans hi)

theorem x_lt_of_lt (h : Concave l s) {i j : Nat} (hi : s ≤ i) (hij : i < j)
    (hj : j < l.length) : (nth l i).x < (nth l j).x := by
  induction j, hij using Nat.le_induction with
  | base => exact h.x_lt i hi hj
  | succ k hk ih => exact (ih (by omega)).trans (h.x_lt k (by omega) hj)

/-- The result of a walk that starts at `s`, moves on while the slope towards `p` does not
increase and stops at `m` has the least slope towards `p` among the first `k` points, all
of them to the left of `p`. -/
theorem slopeTo_le (h : Concave l s) {p : Point} {m k : Nat} (hk : k ≤ l.length)
    (hp : ∀ i, s ≤ i → i < k → (nth l i).x < p.x)
    (hdown : ∀ i, s ≤ i → i + 1 ≤ m → slopeTo p (nth l (i + 1)) ≤ slopeTo p (nth l i))
    (hstop : m + 1 < k → slopeTo p (nth l m) < slopeTo p (nth l (m + 1)))
    (hsm : s ≤ m) {i : Nat} (hi : s ≤ i) (hik : i < k) :
    slopeTo p (nth l m) ≤ slopeTo p (nth l i) := by
  rcases le_total i m with him | hmi
  · -- before the stop: the slopes go down to `m`
    have hwalk : ∀ j, i ≤ j → j ≤ m → slopeTo p (nth l j) ≤ slopeTo p (nth l i) := by
      intro j hj
      induction j, hj using Nat.le_induction with
      | base => exact fun _ ↦ le_rfl
      | succ k hk ih => exact fun hkm ↦ (hdown k (by omega) hkm).trans (ih (by omega))
    exact hwalk m him le_rfl
  · -- after the stop: the first increase propagates along the turns
    have hup : ∀ j, m ≤ j → j + 1 < k →
        slopeTo p (nth l j) < slopeTo p (nth l (j + 1)) := by
      intro j hj
      induction j, hj using Nat.le_induction with
      | base => exact hstop
      | succ j hj ih =>
        intro hlen
        exact slopeTo_lt_of_turn (h.x_lt j (by omega) (by omega))
          (h.x_lt (j + 1) (by omega) (by omega)) (hp _ (by omega) hlen)
          (h.turn j (by omega) (by omega)) (ih (by omega))
    induction i, hmi using Nat.le_induction with
    | base => exact le_rfl
    | succ j hj ih => exact (ih (by omega) (by omega)).trans (hup j hj hik).le

/-- Popping the end of a chain and pushing a point to the right keeps it concave when the
last remaining turn is clockwise. -/
theorem push (h : Concave l s) {e : Nat} {p : Point} (he : e ≤ l.length)
    (hp : (nth l (e - 1)).x < p.x)
    (hturn : s + 2 ≤ e → cross (nth l (e - 2)) (nth l (e - 1)) p < 0) :
    Concave (l.take e ++ [p]) s where
  x_lt i hi hlen := by
    simp only [List.length_append, List.length_take, min_eq_left he, List.length_singleton] at hlen
    rw [nth_take_append he, nth_take_append he, if_pos (by omega)]
    by_cases hie : i + 1 < e
    · rw [if_pos hie]; exact h.x_lt i hi (by omega)
    · obtain rfl : i = e - 1 := by omega
      rw [if_neg hie, if_pos (by omega)]; exact hp
  turn i hi hlen := by
    simp only [List.length_append, List.length_take, min_eq_left he, List.length_singleton] at hlen
    rw [nth_take_append he, nth_take_append he, nth_take_append he, if_pos (by omega),
      if_pos (by omega)]
    by_cases hie : i + 2 < e
    · rw [if_pos hie]; exact h.turn i hi (by omega)
    · obtain rfl : i = e - 2 := by omega
      rw [if_neg hie, if_pos (by omega), show e - 2 + 1 = e - 1 by omega]
      exact hturn (by omega)

end Concave

/-! ## Guarding a set of points -/

/-- Every line with slope in `[lo, hi]` above the active points of the chain is above all
points of `O`. -/
def Guards (l : List Point) (s : Nat) (O : List Point) (lo hi : ℚ) : Prop :=
  ∀ ℓ : Line ℚ, lo ≤ ℓ.slope → ℓ.slope ≤ hi → Above ℓ l s →
    ∀ q ∈ O, (q.y : ℚ) ≤ ℓ.eval q.x

namespace Guards

variable {l O : List Point} {s : Nat} {lo hi : ℚ}

theorem mono (h : Guards l s O lo hi) {lo' hi' : ℚ} (hlo : lo ≤ lo') (hhi : hi' ≤ hi) :
    Guards l s O lo' hi' :=
  fun ℓ h₁ h₂ ↦ h ℓ (hlo.trans h₁) (h₂.trans hhi)

/-- The front of the chain may be dropped up to a point of tangency: for lines not steeper
than the tangent `T`, staying above the point of tangency is enough. -/
theorem advance (h : Guards l s O lo hi) (hc : Concave l s) {m : Nat}
    (hm : m < l.length) {T : Line ℚ} (hT : Above T l s) (hTm : T.eval (nth l m).x = (nth l m).y)
    (hslope : T.slope ≤ hi) : Guards l m O lo T.slope := by
  intro ℓ hlo hhi habove
  refine h ℓ hlo (hhi.trans hslope) fun i hi hil ↦ ?_
  rcases Nat.lt_or_ge i m with him | hmi
  · have hx : ((nth l i).x : ℚ) ≤ (nth l m).x := by
      exact_mod_cast (hc.x_lt_of_lt hi him hm).le
    refine (hT i hi hil).trans (Line.eval_le_of_le_slope ?_ hhi hx)
    rw [hTm]; exact habove m le_rfl hm
  · exact habove i hmi hil

/-- Pushing a point after popping the points that do not stick out. -/
theorem push (h : Guards l s O lo hi) (hc : Concave l s) {e : Nat} {p : Point}
    (he : e ≤ l.length) (hse : s < e)
    (hp : ∀ i, s ≤ i → i < l.length → (nth l i).x < p.x)
    (hpop : ∀ j, e ≤ j → j < l.length → 0 ≤ cross (nth l (j - 1)) (nth l j) p) :
    Guards (l.take e ++ [p]) s (p :: O) lo hi := by
  intro ℓ hlo hhi habove
  have hlen : (l.take e ++ [p]).length = e + 1 := by simp [min_eq_left he]
  have hpl : (p.y : ℚ) ≤ ℓ.eval p.x := by
    have hlast := habove e (by omega) (by omega)
    rwa [nth_take_append he, if_neg (lt_irrefl e), if_pos rfl] at hlast
  have hkept : ∀ i, s ≤ i → i < e → ((nth l i).y : ℚ) ≤ ℓ.eval (nth l i).x := by
    intro i hi hie
    have := habove i hi (by omega)
    rwa [nth_take_append he, if_pos hie] at this
  -- each popped point is below the chord from its predecessor to `p`
  have hall : Above ℓ l s := by
    intro i
    induction i with
    | zero => exact fun hi hil ↦ hkept 0 hi (by omega)
    | succ k ih =>
      intro hi hil
      rcases Nat.lt_or_ge (k + 1) e with hke | hek
      · exact hkept (k + 1) hi hke
      · exact le_eval_of_cross_nonneg (hc.x_lt k (by omega) hil) (hp (k + 1) hi hil)
          (hpop (k + 1) hek hil) (ih (by omega) (by omega)) hpl
  intro q hq
  rcases List.mem_cons.mp hq with rfl | hq
  · exact hpl
  · exact h ℓ hlo hhi hall q hq

/-- A point on or below a line of the least slope through the last active point needs no
place in the chain. -/
theorem skip (h : Guards l s O lo hi) {N : Line ℚ} {m : Nat} {p : Point} (hsm : s ≤ m)
    (hm : m < l.length) (hN : N.slope = lo) (hNm : N.eval (nth l m).x = (nth l m).y)
    (hx : (nth l m).x ≤ p.x) (hp : (p.y : ℚ) ≤ N.eval p.x) : Guards l s (p :: O) lo hi := by
  intro ℓ hlo hhi habove q hq
  rcases List.mem_cons.mp hq with rfl | hq
  · have hxq : ((nth l m).x : ℚ) ≤ q.x := by exact_mod_cast hx
    refine hp.trans (Line.eval_le_of_slope_le ?_ (hN ▸ hlo) hxq)
    rw [hNm]; exact habove m hsm hm
  · exact h ℓ hlo hhi habove q hq

end Guards

/-! ## Envelopes

An envelope is a non-empty concave chain that guards a set of points. -/

/-- The active part of `l` is an upper envelope of `O` for the slopes in `[lo, hi]`. -/
structure Envelope (l : List Point) (s : Nat) (O : List Point) (lo hi : ℚ) : Prop where
  lt_length : s < l.length
  concave : Concave l s
  guards : Guards l s O lo hi

/-- A walk along an envelope towards a point `p` that has stopped at `m`: the first `k`
points are to the left of `p`, the others at `p` or straight below it. -/
structure Walk (l : List Point) (s : Nat) (p : Point) (k m : Nat) : Prop where
  le_length : k ≤ l.length
  left : ∀ i, s ≤ i → i < k → (nth l i).x < p.x
  under : ∀ i, k ≤ i → i < l.length → (nth l i).x = p.x ∧ (nth l i).y ≤ p.y
  start_le : s ≤ m
  lt : m < k
  down : ∀ i, s ≤ i → i + 1 ≤ m → slopeTo p (nth l (i + 1)) ≤ slopeTo p (nth l i)
  stop : m + 1 < k → slopeTo p (nth l m) < slopeTo p (nth l (m + 1))

namespace Walk

variable {l : List Point} {s k m : Nat} {p : Point}

theorem stop_x_lt (w : Walk l s p k m) : (nth l m).x < p.x := w.left m w.start_le w.lt

/-- The line from the point where the walk stops to `p` is above the whole chain. -/
theorem above (w : Walk l s p k m) (hc : Concave l s) : Above (lineTo (nth l m) p) l s := by
  intro i hi hil
  rcases Nat.lt_or_ge i k with hik | hki
  · exact le_lineTo_eval w.stop_x_lt (w.left i hi hik)
      (hc.slopeTo_le w.le_length w.left w.down w.stop w.start_le hi hik)
  · obtain ⟨hx, hy⟩ := w.under i hki hil
    rw [hx, lineTo_eval_right w.stop_x_lt]
    exact_mod_cast hy

/-- The tangent is not steeper than a line that touches the chain at its start and is above
`p`. -/
theorem slope_le (w : Walk l s p k m) (hc : Concave l s) {M : Line ℚ}
    (hMs : M.eval (nth l s).x = (nth l s).y) (hMp : (p.y : ℚ) ≤ M.eval p.x) :
    (lineTo (nth l m) p).slope ≤ M.slope := by
  have hsk : s < k := lt_of_le_of_lt w.start_le w.lt
  have hx : ((nth l s).x : ℚ) < p.x := by exact_mod_cast w.left s le_rfl hsk
  refine Line.slope_le_of_cross hx ?_ ?_
  · rw [hMs]; exact w.above hc s le_rfl (hsk.trans_le w.le_length)
  · rw [lineTo_eval_right w.stop_x_lt]; exact hMp

/-- The tangent is at least as steep as a line above the chain and not above `p`. -/
theorem le_slope (w : Walk l s p k m) {N : Line ℚ} (hN : Above N l s)
    (hNp : N.eval p.x ≤ p.y) : N.slope ≤ (lineTo (nth l m) p).slope := by
  have hx : ((nth l m).x : ℚ) < p.x := by exact_mod_cast w.stop_x_lt
  refine Line.slope_le_of_cross hx ?_ ?_
  · rw [lineTo_eval_left]; exact hN m w.start_le (w.lt.trans_le w.le_length)
  · rw [lineTo_eval_right w.stop_x_lt]; exact hNp

/-- A ceiling that two lines `M` (above `p`) and `N` (not above `p`) respect is respected
by the tangent: it runs below `M` right of the point of tangency and below `N` left of it. -/
theorem eval_le (w : Walk l s p k m) {M N : Line ℚ} (hM : Above M l s) (hN : Above N l s)
    (hMp : (p.y : ℚ) ≤ M.eval p.x) (hNp : N.eval p.x ≤ p.y) {c : Point} (hcp : c.x ≤ p.x)
    (hMc : M.eval c.x ≤ c.y) (hNc : N.eval c.x ≤ c.y) :
    (lineTo (nth l m) p).eval c.x ≤ c.y := by
  have hm : m < l.length := w.lt.trans_le w.le_length
  rcases le_total (nth l m).x c.x with hmc | hcm
  · refine le_trans (Line.eval_le_of_between (u := ((nth l m).x : ℚ)) (v := p.x)
      (by exact_mod_cast hmc) (by exact_mod_cast hcp) ?_ ?_) hMc
    · rw [lineTo_eval_left]; exact hM m w.start_le hm
    · rw [lineTo_eval_right w.stop_x_lt]; exact hMp
  · refine le_trans (Line.eval_le_of_le_slope (u := ((nth l m).x : ℚ)) ?_
      (w.le_slope hN hNp) (by exact_mod_cast hcm)) hNc
    rw [lineTo_eval_left]; exact hN m w.start_le hm

end Walk

namespace Envelope

variable {l O : List Point} {s : Nat} {lo hi : ℚ}

theorem mono (h : Envelope l s O lo hi) {lo' hi' : ℚ} (hlo : lo ≤ lo') (hhi : hi' ≤ hi) :
    Envelope l s O lo' hi' := ⟨h.lt_length, h.concave, h.guards.mono hlo hhi⟩

/-- Dropping the front of an envelope up to a point of tangency. -/
theorem advance (h : Envelope l s O lo hi) {p : Point} {k m : Nat} (w : Walk l s p k m)
    (hslope : (lineTo (nth l m) p).slope ≤ hi) :
    Envelope l m O lo (lineTo (nth l m) p).slope where
  lt_length := w.lt.trans_le w.le_length
  concave := h.concave.mono w.start_le
  guards := h.guards.advance h.concave (w.lt.trans_le w.le_length) (w.above h.concave)
    (lineTo_eval_left _ _) hslope

/-- Pushing a point to the right after popping those that do not stick out. -/
theorem push (h : Envelope l s O lo hi) {e : Nat} {p : Point} (he : e ≤ l.length) (hse : s < e)
    (hp : ∀ i, s ≤ i → i < l.length → (nth l i).x < p.x)
    (hpop : ∀ j, e ≤ j → j < l.length → 0 ≤ cross (nth l (j - 1)) (nth l j) p)
    (hturn : s + 2 ≤ e → cross (nth l (e - 2)) (nth l (e - 1)) p < 0) :
    Envelope (l.take e ++ [p]) s (p :: O) lo hi where
  lt_length := by simp [min_eq_left he]; omega
  concave := h.concave.push he (hp (e - 1) (by omega) (by omega)) hturn
  guards := h.guards.push h.concave he hse hp hpop

/-- Leaving out a point that is on or below the flattest line through the last point. -/
theorem skip (h : Envelope l s O lo hi) {N : Line ℚ} {p : Point} (hN : N.slope = lo)
    (hNm : N.eval (nth l (l.length - 1)).x = (nth l (l.length - 1)).y)
    (hx : (nth l (l.length - 1)).x ≤ p.x) (hp : (p.y : ℚ) ≤ N.eval p.x) :
    Envelope l s (p :: O) lo hi where
  lt_length := h.lt_length
  concave := h.concave
  guards := by
    have hlt := h.lt_length
    exact h.guards.skip (m := l.length - 1) (by omega) (by omega) hN hNm hx hp

end Envelope

end EnhancedLetIndex
