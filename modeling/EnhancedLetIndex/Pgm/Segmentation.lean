import EnhancedLetIndex.Pgm.Oplm

/-!
# Segments cover the keys within the band

`make_segmentation` never fails on strictly increasing keys, and its segments cover the
ranks `0..n-1` in consecutive spans.  Each segment satisfies `SegmentOn`: its certificate
line is inside the band of every point of the span, the stored rounded line is within `1/2`
of it, and its slope is not negative.  Every segment but the last is maximal: no line at all
fits its points and the next one.
-/

namespace EnhancedLetIndex

open Point

/-! ## Exact division -/

theorem divTrunc_of_nonneg {num den : Int} (hnum : 0 ≤ num) (hden : 0 < den) :
    divTrunc num den = .ok (num / den) := by
  rw [divTrunc, if_neg hden.ne', if_pos hnum, Int.fdiv_eq_ediv_of_nonneg _ hden.le]

theorem divTrunc_of_neg {num den : Int} (hnum : num < 0) (hden : 0 < den) :
    divTrunc num den = .ok (-((-num) / den)) := by
  rw [divTrunc, if_neg hden.ne', if_neg (not_le.mpr hnum), Int.fdiv_eq_ediv_of_nonneg _ hden.le]

/-- The rounded quotient is within one half of the exact one. -/
theorem truncDivRoundHalfTowardZero_spec (num : Int) {den : Int} (hden : 0 < den) :
    ∃ v, truncDivRoundHalfTowardZero num den = .ok v ∧
      2 * (v * den - num) ≤ den ∧ 2 * (num - v * den) ≤ den := by
  unfold truncDivRoundHalfTowardZero truncSign
  rw [Int.fdiv_eq_ediv_of_nonneg _ (by norm_num : (0 : Int) ≤ 2)]
  rcases le_or_gt 0 num with hnum | hnum
  · rw [if_pos hnum, one_mul, divTrunc_of_nonneg (by omega) hden]
    refine ⟨_, rfl, ?_⟩
    have h₁ := Int.ediv_mul_le (num + den / 2) hden.ne'
    have h₂ := Int.lt_ediv_add_one_mul_self (num + den / 2) hden
    have h₃ : ((num + den / 2) / den + 1) * den = (num + den / 2) / den * den + den := by ring
    constructor <;> omega
  · rw [if_neg (not_le.mpr hnum), neg_one_mul, divTrunc_of_neg (by omega) hden]
    refine ⟨_, rfl, ?_⟩
    have h₁ := Int.ediv_mul_le (-(num + -(den / 2))) hden.ne'
    have h₂ := Int.lt_ediv_add_one_mul_self (-(num + -(den / 2))) hden
    have h₃ : ((-(num + -(den / 2))) / den + 1) * den =
      (-(num + -(den / 2))) / den * den + den := by ring
    have h₄ : -((-(num + -(den / 2))) / den) * den = -((-(num + -(den / 2))) / den * den) := by
      ring
    rw [h₄]
    constructor <;> omega

/-! ## The line of a certificate -/

namespace RankLineCertificate

/-- The exact rank line of a certificate. -/
def line (c : RankLineCertificate) : Line ℚ :=
  Line.ofSlope (c.slopeNum / c.denominator) c.startKey.value (c.originNum / c.denominator)

theorem line_eval (c : RankLineCertificate) (key : RecordKey) :
    c.line.eval key.value * c.denominator = c.numeratorAt key := by
  have hden : (c.denominator : ℚ) ≠ 0 := by exact_mod_cast c.denominator_pos.ne'
  rw [Line.eval_eq_add _ (key.value : ℚ) c.startKey.value, line, Line.ofSlope_eval_self,
    Line.ofSlope_slope, numeratorAt]
  push_cast
  field_simp
  ring

/-- `within_band` says that the line is inside the band of the point. -/
theorem withinBand_iff (c : RankLineCertificate) (key : RecordKey) (rank ε : Nat) :
    c.withinBand key rank ε = true ↔
      ((bandLow ε ⟨key.value, rank⟩).y : ℚ) ≤ c.line.eval key.value ∧
        c.line.eval key.value ≤ (bandHigh ε ⟨key.value, rank⟩).y := by
  have hden : (0 : ℚ) < c.denominator := by exact_mod_cast c.denominator_pos
  have hlow : (if (rank : Int) - ε < 0 then 0 else (rank : Int) - ε) =
      (bandLow ε ⟨key.value, rank⟩).y := by
    simp only [bandLow_y]
    split_ifs <;> omega
  rw [← mul_le_mul_iff_of_pos_right hden, ← mul_le_mul_iff_of_pos_right hden (b := c.line.eval _),
    c.line_eval]
  simp only [withinBand, hlow, decide_eq_true_eq, bandHigh]
  norm_cast

end RankLineCertificate

/-! ## One segment -/

/-- The points `(keys[i], i)` for `a ≤ i < b`, newest first. -/
def rankPoints (keys : List RecordKey) (a b : Nat) : List Point :=
  ((List.range' a (b - a)).map fun i ↦ ⟨(keys.getD i default).value, i⟩).reverse

theorem rankPoints_self (keys : List RecordKey) (a : Nat) : rankPoints keys a a = [] := by
  simp [rankPoints]

theorem rankPoints_succ (keys : List RecordKey) {a b : Nat} (h : a ≤ b) :
    rankPoints keys a (b + 1) = ⟨(keys.getD b default).value, b⟩ :: rankPoints keys a b := by
  simp only [rankPoints, show b + 1 - a = b - a + 1 by omega]
  rw [List.range'_concat]
  simp only [one_mul, List.map_append, List.map_cons, List.map_nil, List.reverse_append,
    List.reverse_singleton, List.singleton_append]
  rw [show a + (b - a) = b by omega]

theorem mem_rankPoints {keys : List RecordKey} {a b : Nat} {p : Point} :
    p ∈ rankPoints keys a b ↔
      ∃ i, a ≤ i ∧ i < b ∧ p = ⟨(keys.getD i default).value, i⟩ := by
  simp only [rankPoints, List.mem_reverse, List.mem_map, List.mem_range'_1]
  constructor
  · rintro ⟨i, ⟨h₁, h₂⟩, rfl⟩; exact ⟨i, h₁, by omega, rfl⟩
  · rintro ⟨i, h₁, h₂, rfl⟩; exact ⟨i, ⟨h₁, by omega⟩, rfl⟩

theorem rankPoints_length (keys : List RecordKey) (a b : Nat) :
    (rankPoints keys a b).length = b - a := by simp [rankPoints]

theorem getLast?_rankPoints (keys : List RecordKey) {a b : Nat} (h : a < b) :
    (rankPoints keys a b).getLast? = some ⟨(keys.getD a default).value, a⟩ := by
  simp only [rankPoints, List.getLast?_reverse, List.head?_map]
  rw [show b - a = (b - a - 1) + 1 by omega, List.range'_succ]
  rfl

/-- `seg` is a sound segment over the ranks `a..b` of `keys`. -/
structure SegmentOn (ε : Nat) (keys : List RecordKey) (a b : Nat) (seg : PgmSegment) : Prop where
  le : a ≤ b
  lt_length : b < keys.length
  startRank : seg.startRank = a
  startKey : seg.startKey = keys.getD a default
  certStartRank : seg.certificate.startRank = a
  certEndRank : seg.certificate.endRank = b
  certStartKey : seg.certificate.startKey = keys.getD a default
  certEndKey : seg.certificate.endKey = keys.getD b default
  slopeNum_nonneg : 0 ≤ seg.slopeNum
  slopeDen_pos : 0 < seg.slopeDen
  feasible : Feasible ε seg.certificate.line (rankPoints keys a (b + 1))
  /-- The stored rounded line is within one half of the certificate's line. -/
  close : ∀ x : Int, |seg.certificate.line.eval x -
    ((seg.slopeNum : ℚ) / seg.slopeDen * (x - seg.startKey.value) + seg.intercept)| ≤ 1 / 2

/-- A segment of one point: the midpoint of the band. -/
theorem pgmSegmentFromGeometry_onePoint {keys : List RecordKey} {ε a : Nat}
    {r : Rectangle} (ha : a < keys.length)
    (h0 : r.r0 = bandHigh ε ⟨(keys.getD a default).value, a⟩)
    (h1 : r.r1 = bandLow ε ⟨(keys.getD a default).value, a⟩) :
    ∃ seg, pgmSegmentFromGeometry ⟨r, (keys.getD a default).value, true⟩ a a
      (keys.getD a default) = .ok seg ∧ SegmentOn ε keys a a seg := by
  have hband : (bandLow ε ⟨(keys.getD a default).value, a⟩).y ≤
      (bandHigh ε ⟨(keys.getD a default).value, a⟩).y := bandLow_le_bandHigh ε (by simp)
  refine ⟨_, by
    simp only [pgmSegmentFromGeometry, rankLineCertificate, RankLineCertificate.make, if_true,
      dif_pos (show (0 : Int) < 2 by norm_num), dif_pos (le_refl a), dif_pos (le_refl _)]
    rfl, ⟨le_rfl, ha, rfl, rfl, rfl, rfl, rfl, rfl, le_rfl, one_pos, ?_, ?_⟩⟩
  · intro p hp
    rw [rankPoints_succ _ le_rfl, rankPoints_self, List.mem_singleton] at hp
    subst hp
    simp only [RankLineCertificate.line, h0, h1, Line.ofSlope_eval_self]
    have hq : ((bandLow ε ⟨(keys.getD a default).value, a⟩).y : ℚ) ≤
      (bandHigh ε ⟨(keys.getD a default).value, a⟩).y := by exact_mod_cast hband
    push_cast
    constructor <;> linarith
  · intro x
    rw [Int.fdiv_eq_ediv_of_nonneg _ (by norm_num : (0 : Int) ≤ 2)]
    have h₁ := Int.ediv_mul_le (r.r0.y + r.r1.y) (by norm_num : (2 : Int) ≠ 0)
    have h₂ := Int.lt_ediv_add_one_mul_self (r.r0.y + r.r1.y) (by norm_num : (0 : Int) < 2)
    have h₁' : (((r.r0.y + r.r1.y) / 2 : Int) : ℚ) * 2 ≤ r.r0.y + r.r1.y := by exact_mod_cast h₁
    have h₂' : (r.r0.y + r.r1.y : ℚ) ≤ ((r.r0.y + r.r1.y) / 2 : Int) * 2 + 1 := by
      have : r.r0.y + r.r1.y ≤ (r.r0.y + r.r1.y) / 2 * 2 + 1 := by omega
      exact_mod_cast this
    rw [Line.eval_eq_add _ (x : ℚ) ((keys.getD a default).value : ℚ)]
    simp only [RankLineCertificate.line, Line.ofSlope_eval_self, Line.ofSlope_slope]
    push_cast
    rw [abs_le]
    constructor <;> linarith

/-- A segment of at least two points: the line through `rectangle[1]` and `rectangle[3]`. -/
theorem pgmSegmentFromGeometry_line {keys : List RecordKey} {ε a b : Nat} {r : Rectangle}
    (hab : a ≤ b) (hb : b < keys.length)
    (hkey : keys.getD a default ≤ keys.getD b default)
    (hx : r.r1.x < r.r3.x) (hy : r.r1.y ≤ r.r3.y)
    (hfeas : Feasible ε (lineTo r.r1 r.r3) (rankPoints keys a (b + 1))) :
    ∃ seg, pgmSegmentFromGeometry ⟨r, (keys.getD a default).value, false⟩ a b
      (keys.getD b default) = .ok seg ∧ SegmentOn ε keys a b seg := by
  have hdx : 0 < r.r3.x - r.r1.x := by omega
  obtain ⟨v, hv, hv₁, hv₂⟩ := truncDivRoundHalfTowardZero_spec
    ((r.r3.y - r.r1.y) * ((keys.getD a default).value - r.r1.x)) hdx
  refine ⟨_, by
    simp only [pgmSegmentFromGeometry, rankLineCertificate, RankLineCertificate.make,
      Bool.false_eq_true, if_false, if_neg (not_lt.mpr hdx.le), if_neg hdx.ne', dif_pos hdx,
      dif_pos hab, dif_pos hkey, hv]
    rfl, ?_⟩
  have hq : (0 : ℚ) < (r.r3.x : ℚ) - r.r1.x := by exact_mod_cast hdx
  -- the certificate's line is the line through the two corners
  have hline : ∀ c : RankLineCertificate, c.startKey = keys.getD a default →
      c.slopeNum = r.r3.y - r.r1.y → c.denominator = r.r3.x - r.r1.x →
      c.originNum = (r.r3.y - r.r1.y) * ((keys.getD a default).value - r.r1.x) +
        r.r1.y * (r.r3.x - r.r1.x) → c.line = lineTo r.r1 r.r3 := by
    intro c h₁ h₂ h₃ h₄
    simp only [RankLineCertificate.line, lineTo, Line.through, Line.ofSlope, h₁, h₂, h₃, h₄]
    push_cast
    rw [Line.ext_iff]
    refine ⟨rfl, ?_⟩
    field_simp
    ring
  refine ⟨hab, hb, rfl, rfl, rfl, rfl, rfl, rfl, by simpa using hy, hdx, ?_, ?_⟩
  · rw [hline _ rfl rfl rfl rfl]; exact hfeas
  · intro x
    rw [hline _ rfl rfl rfl rfl]
    have heval : (lineTo r.r1 r.r3).eval x = r.r1.y +
        ((r.r3.y : ℚ) - r.r1.y) / (r.r3.x - r.r1.x) * (x - r.r1.x) := by
      rw [Line.eval_eq_add _ (x : ℚ) r.r1.x, lineTo_eval_left]; rfl
    have hv₁' : 2 * ((v : ℚ) * (r.r3.x - r.r1.x) -
        (r.r3.y - r.r1.y) * ((keys.getD a default).value - r.r1.x)) ≤ r.r3.x - r.r1.x := by
      exact_mod_cast hv₁
    have hv₂' : 2 * (((r.r3.y : ℚ) - r.r1.y) * ((keys.getD a default).value - r.r1.x) -
        v * (r.r3.x - r.r1.x)) ≤ r.r3.x - r.r1.x := by
      exact_mod_cast hv₂
    rw [heval]
    push_cast
    have hdiff : (r.r1.y : ℚ) + ((r.r3.y : ℚ) - r.r1.y) / (r.r3.x - r.r1.x) * (x - r.r1.x) -
        (((r.r3.y : ℚ) - r.r1.y) / (r.r3.x - r.r1.x) * (x - (keys.getD a default).value) +
          (v + r.r1.y)) =
        (((r.r3.y : ℚ) - r.r1.y) * ((keys.getD a default).value - r.r1.x) -
          v * (r.r3.x - r.r1.x)) / (r.r3.x - r.r1.x) := by
      field_simp
      ring
    rw [hdiff, abs_div, abs_of_pos hq, div_le_iff₀ hq, abs_le]
    constructor <;> linarith

/-! ## Consecutive spans -/

/-- The segments own the ranks `a..b-1` in consecutive spans `i..j`, each with `P i j`. -/
def Covers (P : Nat → Nat → PgmSegment → Prop) (a b : Nat) : List PgmSegment → Prop
  | [] => a = b
  | seg :: segs => ∃ e, P a e seg ∧ Covers P (e + 1) b segs

section Covers

variable {P Q : Nat → Nat → PgmSegment → Prop}

theorem covers_append {xs ys : List PgmSegment} {a b : Nat} :
    Covers P a b (xs ++ ys) ↔ ∃ m, Covers P a m xs ∧ Covers P m b ys := by
  induction xs generalizing a with
  | nil => simp [Covers]
  | cons seg xs ih =>
    simp only [List.cons_append, Covers, ih]
    constructor
    · rintro ⟨e, he, m, hm, hb⟩; exact ⟨m, ⟨e, he, hm⟩, hb⟩
    · rintro ⟨m, ⟨e, he, hm⟩, hb⟩; exact ⟨e, he, m, hm, hb⟩

theorem covers_singleton {seg : PgmSegment} {a b : Nat} :
    Covers P a (b + 1) [seg] ↔ P a b seg := by
  simp only [Covers]
  constructor
  · rintro ⟨e, he, h⟩; rwa [Nat.succ.inj h] at he
  · intro h; exact ⟨b, h, rfl⟩

theorem Covers.imp (hPQ : ∀ i j seg, P i j seg → Q i j seg) {segs : List PgmSegment} {a b : Nat}
    (h : Covers P a b segs) : Covers Q a b segs := by
  induction segs generalizing a with
  | nil => exact h
  | cons seg segs ih =>
    obtain ⟨e, he, hrest⟩ := h
    exact ⟨e, hPQ _ _ _ he, ih hrest⟩

end Covers

/-- A segment that was closed by the next point: no line fits its points and that one. -/
structure ClosedOn (ε : Nat) (keys : List RecordKey) (a b : Nat) (seg : PgmSegment) : Prop
    extends SegmentOn ε keys a b seg where
  next_lt : b + 1 < keys.length
  maximal : ∀ ℓ, ¬ Feasible ε ℓ (rankPoints keys a (b + 2))

/-! ## The scan -/

/-- The keys of a strictly increasing list, by rank. -/
theorem getD_lt_getD {keys : List RecordKey} (hkeys : keys.Pairwise (· < ·)) {i j : Nat}
    (hij : i < j) (hj : j < keys.length) : keys.getD i default < keys.getD j default := by
  rw [← List.getElem_eq_getD (h := hij.trans hj), ← List.getElem_eq_getD (h := hj)]
  exact List.pairwise_iff_getElem.mp hkeys i j _ hj hij

theorem getD_le_getD {keys : List RecordKey} (hkeys : keys.Pairwise (· < ·)) {i j : Nat}
    (hij : i ≤ j) (hj : j < keys.length) : keys.getD i default ≤ keys.getD j default := by
  rcases Nat.eq_or_lt_of_le hij with rfl | hlt
  · exact le_rfl
  · exact (getD_lt_getD hkeys hlt hj).le

/-- The next point is to the right of, and above, the points scanned so far. -/
theorem lt_of_mem_rankPoints {keys : List RecordKey} (hkeys : keys.Pairwise (· < ·)) {a y : Nat}
    (hy : y < keys.length) {p : Point} (hp : p ∈ rankPoints keys a y) :
    p.x < (keys.getD y default).value ∧ p.y < (y : Int) := by
  obtain ⟨i, -, hi, rfl⟩ := mem_rankPoints.mp hp
  exact ⟨getD_lt_getD hkeys hi hy, Int.ofNat_lt.mpr hi⟩

namespace Segmentation

/-- What the scan has done when the keys of the ranks `0..y-1` have been added. -/
structure Scanned (ε : Nat) (keys : List RecordKey) (s : Segmentation) (y : Nat) : Prop where
  closed : Covers (ClosedOn ε keys) 0 s.currentStartRank s.segments
  start_lt : s.currentStartRank < y
  epsilon : s.opt.epsilon = ε
  accepts : s.opt.Accepts (rankPoints keys s.currentStartRank y)

variable {ε : Nat} {keys : List RecordKey} {s : Segmentation} {y : Nat}

/-- The geometry of at least two accepted points freezes to a sound segment. -/
theorem freeze_line {m : Oplm} {a : Nat} (hkeys : keys.Pairwise (· < ·)) (hε : m.epsilon = ε)
    (h : m.Accepts (rankPoints keys a y)) (hlen : a + 2 ≤ y) (hy : y ≤ keys.length) :
    ∃ seg, pgmSegmentFromGeometry ⟨m.rectangle, m.firstX, false⟩ a (y - 1)
      (keys.getD (y - 1) default) = .ok seg ∧ SegmentOn ε keys a (y - 1) seg := by
  have hs := h.sides (by rw [rankPoints_length]; omega)
  rw [h.firstX _ (getLast?_rankPoints keys (by omega))]
  refine pgmSegmentFromGeometry_line (by omega) (by omega)
    (getD_le_getD hkeys (by omega) (by omega)) hs.r1_lt_r3 ?_ ?_
  · obtain ⟨p, hp, h1⟩ := hs.lower_mem _ (hs.r1_eq ▸ nth_mem hs.lower_length)
    obtain ⟨p', hp', h3⟩ := hs.upper_mem _
      (hs.r3_eq ▸ nth_mem (by have := hs.upper_length; omega))
    have hx : p.x < p'.x := by
      have := hs.r1_lt_r3
      rwa [h1, h3] at this
    -- of two accepted points the one further right has the greater rank
    have hrank : p.y < p'.y := by
      obtain ⟨i, -, hi, rfl⟩ := mem_rankPoints.mp hp
      obtain ⟨j, -, hj, rfl⟩ := mem_rankPoints.mp hp'
      rcases Nat.lt_or_ge i j with hij | hji
      · exact Int.ofNat_lt.mpr hij
      · exact absurd hx (not_lt.mpr (getD_le_getD hkeys hji (by omega)))
    rw [h1, h3]
    exact (bandLow_le _ (h.nonneg p hp)).trans (hrank.le.trans (le_bandHigh _ p'))
  · rw [show y - 1 + 1 = y by omega, ← hε]
    exact fun p hp ↦ ⟨hs.max_above p hp, hs.max_below p hp⟩

/-- `freeze` on a scanned prefix. -/
theorem Scanned.freeze_spec (h : s.Scanned ε keys y) (hkeys : keys.Pairwise (· < ·))
    (hy : y ≤ keys.length) :
    ∃ seg, s.freeze (y - 1) (keys.getD (y - 1) default) =
        .ok { s with segments := s.segments ++ [seg] } ∧
      SegmentOn ε keys s.currentStartRank (y - 1) seg := by
  have hlt := h.start_lt
  have hpoints : s.opt.pointsInHull = y - s.currentStartRank := by
    rw [h.accepts.points, rankPoints_length]
  by_cases hone : y = s.currentStartRank + 1
  · -- a single point
    have hA : rankPoints keys s.currentStartRank y =
        [⟨(keys.getD s.currentStartRank default).value, s.currentStartRank⟩] := by
      rw [hone, rankPoints_succ _ le_rfl, rankPoints_self]
    obtain ⟨hr0, hr1, -⟩ := h.accepts.single _ hA
    have hfirst := h.accepts.firstX _ (getLast?_rankPoints keys hlt)
    rw [h.epsilon] at hr0 hr1
    have hgeom : s.opt.getSegment = ⟨⟨s.opt.rectangle.r0, s.opt.rectangle.r1,
        s.opt.rectangle.r0, s.opt.rectangle.r1⟩,
        (keys.getD s.currentStartRank default).value, true⟩ := by
      rw [Oplm.getSegment, if_pos (by omega), hfirst]
    obtain ⟨seg, hseg, hon⟩ := pgmSegmentFromGeometry_onePoint (ε := ε)
      (r := ⟨s.opt.rectangle.r0, s.opt.rectangle.r1, s.opt.rectangle.r0, s.opt.rectangle.r1⟩)
      (a := s.currentStartRank) (by omega) hr0 hr1
    have hpred : y - 1 = s.currentStartRank := by omega
    refine ⟨seg, ?_, by rwa [hpred]⟩
    rw [hpred, freeze, hgeom, hseg]
    rfl
  · obtain ⟨seg, hseg, hon⟩ := freeze_line hkeys h.epsilon h.accepts (by omega) hy
    refine ⟨seg, ?_, hon⟩
    rw [freeze, Oplm.getSegment, if_neg (by omega), hseg]
    rfl

/-- The first key starts the first segment. -/
theorem addPoint_init (ε : Nat) (key : RecordKey) (rest : List RecordKey) :
    ∃ s, (init ε).addPoint key key 0 = .ok s ∧ s.Scanned ε (key :: rest) 1 := by
  have hacc : (Oplm.init ε).Accepts [] := Oplm.accepts_nil rfl
  obtain ⟨m, hm, hm', hε⟩ | ⟨hlen, -⟩ :=
    hacc.addPoint_spec (q := ⟨key.value, (0 : Nat)⟩) (by simp) (by simp)
  · refine ⟨{ init ε with opt := m }, ?_, ⟨rfl, one_pos, hε, ?_⟩⟩
    · simp only [addPoint, init, hm]
      rfl
    · exact hm'
  · exact absurd hlen (by simp)

/-- One more key: it joins the current segment or closes it and starts the next one. -/
theorem Scanned.addPoint_spec (h : s.Scanned ε keys y) (hkeys : keys.Pairwise (· < ·))
    (hy : y < keys.length) :
    ∃ s', s.addPoint (keys.getD (y - 1) default) (keys.getD y default) y = .ok s' ∧
      s'.Scanned ε keys (y + 1) := by
  have hlt := h.start_lt
  have hq := fun p hp ↦ lt_of_mem_rankPoints hkeys hy (a := s.currentStartRank) (p := p) hp
  obtain ⟨m, hm, hacc, hε⟩ | ⟨hlen, hfit, hm⟩ := h.accepts.addPoint_spec
    (q := ⟨(keys.getD y default).value, y⟩) hq (by simp)
  · refine ⟨{ s with opt := m }, ?_, ⟨h.closed, by dsimp only; omega, hε.trans h.epsilon, ?_⟩⟩
    · simp only [addPoint, hm]
      rfl
    · rw [rankPoints_succ _ hlt.le]; exact hacc
  · -- the rejected point freezes the current segment, which is therefore maximal
    rw [rankPoints_length] at hlen
    obtain ⟨seg, hseg, hon⟩ := freeze_line hkeys h.epsilon h.accepts (by omega) hy.le
    have hclosed : ClosedOn ε keys s.currentStartRank (y - 1) seg := by
      refine { hon with next_lt := by omega, maximal := fun ℓ hℓ ↦ hfit ?_ }
      rw [show y - 1 + 2 = y + 1 by omega, rankPoints_succ _ hlt.le, ← h.epsilon] at hℓ
      exact (h.accepts.sides (by rw [rankPoints_length]; omega)).fits_of_feasible
        (fun p hp ↦ (hq p hp).1) (by simp) hℓ
    -- the emptied model takes the point as the first one of the next segment
    let m₀ : Oplm := { s.opt with lastX := (keys.getD y default).value, pointsInHull := 0 }
    have hacc₀ : m₀.reset.Accepts [] := Oplm.accepts_nil rfl
    obtain ⟨m₁, hm₁, hacc₁, hε₁⟩ | ⟨hlen₁, -⟩ := hacc₀.addPoint_spec
      (q := ⟨(keys.getD y default).value, y⟩) (by simp) (by simp)
    · refine ⟨⟨m₁, s.segments ++ [seg], y⟩, ?_, ⟨?_, by simp, ?_, ?_⟩⟩
      · have hgeom : m₀.getSegment = ⟨s.opt.rectangle, s.opt.firstX, false⟩ := rfl
        simp only [addPoint, hm, ok_bind, Bool.false_eq_true, if_false]
        change (freeze { s with opt := m₀ } _ _ >>= _) = _
        simp only [freeze, hgeom, hseg, ok_bind, pure_eq_ok]
        rw [hm₁]
        rfl
      · refine covers_append.mpr ⟨_, h.closed, ?_⟩
        rw [show y = y - 1 + 1 by omega]
        exact covers_singleton.mpr hclosed
      · exact hε₁.trans h.epsilon
      · rw [rankPoints_succ _ le_rfl, rankPoints_self]; exact hacc₁
    · exact absurd hlen₁ (by simp)

/-- The whole loop, over the keys from rank `y` on. -/
theorem Scanned.addPoints_spec (h : s.Scanned ε keys y) (hkeys : keys.Pairwise (· < ·))
    (hy : y ≤ keys.length) :
    ∃ s', s.addPoints (keys.getD (y - 1) default) y (keys.drop y) = .ok s' ∧
      s'.Scanned ε keys keys.length := by
  induction hn : keys.length - y generalizing s y with
  | zero =>
    obtain rfl : y = keys.length := by omega
    exact ⟨s, by rw [List.drop_length]; rfl, h⟩
  | succ n ih =>
    have hlt : y < keys.length := by omega
    obtain ⟨s₁, hs₁, h₁⟩ := h.addPoint_spec hkeys hlt
    obtain ⟨s₂, hs₂, h₂⟩ := ih h₁ hlt (by omega)
    refine ⟨s₂, ?_, h₂⟩
    rw [List.drop_eq_getElem_cons hlt, List.getElem_eq_getD default, addPoints, hs₁]
    exact hs₂

end Segmentation

/-- `make_segmentation` covers the ranks of a strictly increasing list of keys: maximal
segments, then a last one. -/
theorem makeSegmentation_spec {keys : List RecordKey} (hkeys : keys.Pairwise (· < ·))
    (hne : keys ≠ []) (ε : Nat) :
    ∃ segs a seg, makeSegmentation keys ε = .ok (segs ++ [seg]) ∧
      Covers (ClosedOn ε keys) 0 a segs ∧ SegmentOn ε keys a (keys.length - 1) seg := by
  obtain ⟨key, rest, rfl⟩ := List.exists_cons_of_ne_nil hne
  obtain ⟨s, hs, hscan⟩ := Segmentation.addPoint_init ε key rest
  obtain ⟨s', hs', hscan'⟩ := hscan.addPoints_spec hkeys (by simp)
  obtain ⟨seg, hseg, hon⟩ := hscan'.freeze_spec hkeys le_rfl
  refine ⟨s'.segments, s'.currentStartRank, seg, ?_, hscan'.closed, hon⟩
  have hlast : (key :: rest).getD ((key :: rest).length - 1) default = rest.getLastD key := by
    rw [← List.getLastD_cons (a := default), List.getLastD_eq_getLast?,
      List.getLast?_eq_getElem?, List.getD_eq_getElem?_getD]
  rw [hlast] at hseg
  have hs'' : s.addPoints key 1 rest = .ok s' := hs'
  have hseg' : s'.freeze rest.length (rest.getLastD key) = _ := hseg
  simp only [makeSegmentation, hs, hs'', hseg', ok_bind, pure_eq_ok]

end EnhancedLetIndex
