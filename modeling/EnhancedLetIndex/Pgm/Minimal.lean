import EnhancedLetIndex.Basic.Greedy
import EnhancedLetIndex.Pgm.Segmentation

/-!
# The segmentation is certified and minimal

What `make_segmentation` says about itself on strictly increasing keys: its certificates span the
ranks one after the other, each with a line inside the clipped band of its points
(`makeSegmentation_certified`), and no cut of the ranks into runs that a line fits has fewer runs
(`makeSegmentation_minimal`).
-/

namespace EnhancedLetIndex

open Point

/-! ## Certificates -/

/-- The value of the exact rank line at an integer. -/
def RankLineCertificate.valueAt (c : RankLineCertificate) (x : Int) : ℚ :=
  c.numeratorAt ⟨x⟩ / c.denominator

/-- The value of the stored rounded line at an integer, before a prediction truncates it. -/
def PgmSegment.roundedAt (s : PgmSegment) (x : Int) : ℚ :=
  s.slopeNum / s.slopeDen * (x - s.startKey.value) + s.intercept

/-- The ranks of a certificate. -/
def RankLineCertificate.ranks (c : RankLineCertificate) : List Nat :=
  List.range' c.startRank (c.endRank + 1 - c.startRank)

/-- What a segment certifies about the keys of its span. -/
structure PgmSegment.Certified (ε : Nat) (keys : List RecordKey) (s : PgmSegment) : Prop where
  startKey : keys[s.certificate.startRank]? = some s.certificate.startKey
  endKey : keys[s.certificate.endRank]? = some s.certificate.endKey
  denominator_pos : 0 < s.certificate.denominator
  within : ∀ r ∈ s.certificate.ranks, ∃ key, keys[r]? = some key ∧
    s.certificate.withinBand key r ε = true ∧
    ((max 0 ((r : Int) - ε) : Int) : ℚ) ≤ s.certificate.valueAt key.value ∧
    s.certificate.valueAt key.value ≤ r + ε
  rounded : 0 < s.slopeDen ∧ ∀ x : Int, |s.certificate.valueAt x - s.roundedAt x| ≤ 1 / 2

variable {ε : Nat} {keys : List RecordKey} {a b n : Nat} {seg : PgmSegment}

theorem RankLineCertificate.valueAt_eq (c : RankLineCertificate) (x : Int) :
    c.valueAt x = c.line.eval x := by
  have hden : (c.denominator : ℚ) ≠ 0 := by exact_mod_cast c.denominator_pos.ne'
  rw [valueAt, div_eq_iff hden]
  exact (c.line_eval ⟨x⟩).symm

theorem getElem?_eq_some_getD {i : Nat} (h : i < keys.length) :
    keys[i]? = some (keys.getD i default) := by
  rw [List.getElem?_eq_getElem h, List.getElem_eq_getD default]

/-- A sound segment is certified. -/
theorem SegmentOn.certified (h : SegmentOn ε keys a b seg) : seg.Certified ε keys where
  startKey := by
    rw [h.certStartRank, h.certStartKey]
    exact getElem?_eq_some_getD (h.le.trans_lt h.lt_length)
  endKey := by
    rw [h.certEndRank, h.certEndKey]
    exact getElem?_eq_some_getD h.lt_length
  denominator_pos := seg.certificate.denominator_pos
  within r hr := by
    rw [RankLineCertificate.ranks, h.certStartRank, h.certEndRank, List.mem_range'_1] at hr
    have hlt : r < b + 1 := by omega
    have hband := h.feasible _ (mem_rankPoints.mpr ⟨r, hr.1, hlt, rfl⟩)
    refine ⟨keys.getD r default,
      getElem?_eq_some_getD (lt_of_lt_of_le hlt (Nat.succ_le_of_lt h.lt_length)),
      (RankLineCertificate.withinBand_iff _ _ _ _).mpr hband, ?_⟩
    rw [RankLineCertificate.valueAt_eq, ← bandLow_y (p := ⟨(keys.getD r default).value, r⟩)]
    refine ⟨hband.1, hband.2.trans (le_of_eq ?_)⟩
    rw [bandHigh]
    push_cast
    rfl
  rounded := by
    refine ⟨h.slopeDen_pos, fun x ↦ ?_⟩
    rw [RankLineCertificate.valueAt_eq]
    exact h.close x

theorem Covers.exists_of_mem {P : Nat → Nat → PgmSegment → Prop} {segs : List PgmSegment}
    (h : Covers P a n segs) {s : PgmSegment} (hs : s ∈ segs) : ∃ i j, P i j s := by
  induction segs generalizing a with
  | nil => cases hs
  | cons seg segs ih =>
    obtain ⟨e, hseg, hrest⟩ := h
    rcases List.mem_cons.mp hs with rfl | hs
    · exact ⟨a, e, hseg⟩
    · exact ih hrest hs

theorem Covers.le {segs : List PgmSegment} (h : Covers (SegmentOn ε keys) a n segs) : a ≤ n := by
  induction segs generalizing a with
  | nil => exact le_of_eq h
  | cons seg segs ih =>
    obtain ⟨e, hseg, hrest⟩ := h
    exact hseg.le.trans ((Nat.le_succ e).trans (ih hrest))

/-- The ranks of consecutive segments. -/
theorem Covers.flatMap_ranks {segs : List PgmSegment} (h : Covers (SegmentOn ε keys) a n segs) :
    segs.flatMap (·.certificate.ranks) = List.range' a (n - a) := by
  induction segs generalizing a with
  | nil =>
    obtain rfl : a = n := h
    rw [Nat.sub_self]
    rfl
  | cons seg segs ih =>
    obtain ⟨e, hseg, hrest⟩ := h
    have hle := hseg.le
    have hen : e + 1 ≤ n := hrest.le
    rw [List.flatMap_cons, ih hrest, RankLineCertificate.ranks, hseg.certStartRank,
      hseg.certEndRank]
    rw [show n - a = (e + 1 - a) + (n - (e + 1)) by omega, ← List.range'_append_1]
    rw [show a + (e + 1 - a) = e + 1 by omega]

/-- On strictly increasing keys a segmentation returns, its certificates span the ranks one after
the other, and each segment is certified. -/
theorem makeSegmentation_certified (hkeys : keys.Pairwise (· < ·)) (ε : Nat) :
    ∃ segs, makeSegmentation keys ε = .ok segs ∧
      segs.flatMap (·.certificate.ranks) = List.range keys.length ∧
      ∀ seg ∈ segs, seg.Certified ε keys := by
  rcases eq_or_ne keys [] with rfl | hne
  · exact ⟨[], rfl, rfl, by simp⟩
  obtain ⟨segs, a, seg, hmake, hclosed, hlast⟩ := makeSegmentation_spec hkeys hne ε
  have hcovers : Covers (SegmentOn ε keys) 0 keys.length (segs ++ [seg]) := by
    refine covers_append.mpr ⟨a, hclosed.imp fun _ _ _ h ↦ h.toSegmentOn, ?_⟩
    rw [← Nat.succ_pred_eq_of_pos (List.length_pos_of_ne_nil hne)]
    exact covers_singleton.mpr hlast
  refine ⟨segs ++ [seg], hmake, ?_, fun s hs ↦ ?_⟩
  · rw [hcovers.flatMap_ranks, List.range_eq_range', Nat.sub_zero]
  · obtain ⟨_, _, hs⟩ := hcovers.exists_of_mem hs
    exact hs.certified

theorem makeSegmentation_certified_small :
    ∃ segs, makeSegmentation [⟨-3⟩, ⟨0⟩, ⟨7⟩] 0 = .ok segs ∧
      segs.flatMap (·.certificate.ranks) = [0, 1, 2] ∧
      ∀ seg ∈ segs, seg.Certified 0 [⟨-3⟩, ⟨0⟩, ⟨7⟩] :=
  makeSegmentation_certified (by decide) 0

/-! ## As few segments as possible -/

/-- A line fits the ranks `a..b-1`: it is inside the clipped band of each. -/
def FitsLine (ε : Nat) (keys : List RecordKey) (a b : Nat) : Prop :=
  ∃ ℓ : Line ℚ, ∀ r key, a ≤ r → r < b → keys[r]? = some key →
    ((max 0 ((r : Int) - ε) : Int) : ℚ) ≤ ℓ.eval key.value ∧ ℓ.eval key.value ≤ r + ε

theorem hereditary_fitsLine (ε : Nat) (keys : List RecordKey) : Hereditary (FitsLine ε keys) := by
  rintro a a' b b' ⟨ℓ, hℓ⟩ ha hb
  exact ⟨ℓ, fun r key har hrb ↦ hℓ r key (ha.trans har) (hrb.trans_le hb)⟩

theorem fitsLine_iff (hb : b ≤ keys.length) :
    FitsLine ε keys a b ↔ ∃ ℓ, Feasible ε ℓ (rankPoints keys a b) := by
  refine exists_congr fun ℓ ↦ ?_
  have hhigh : ∀ (x : Int) (r : Nat), ((bandHigh ε ⟨x, r⟩).y : ℚ) = r + ε := fun x r ↦ by
    rw [bandHigh]
    push_cast
    rfl
  constructor
  · intro h p hp
    obtain ⟨r, har, hrb, rfl⟩ := mem_rankPoints.mp hp
    rw [bandLow_y, hhigh]
    exact h r _ har hrb (getElem?_eq_some_getD (hrb.trans_le hb))
  · intro h r key har hrb hkey
    obtain rfl : keys.getD r default = key := by rw [List.getD_eq_getElem?_getD, hkey]; rfl
    have hband := h _ (mem_rankPoints.mpr ⟨r, har, hrb, rfl⟩)
    rwa [bandLow_y, hhigh] at hband

theorem SegmentOn.fitsLine (h : SegmentOn ε keys a b seg) : FitsLine ε keys a (b + 1) :=
  (fitsLine_iff (Nat.succ_le_of_lt h.lt_length)).mpr ⟨_, h.feasible⟩

/-- Segments that the next point closed are greedy cuts. -/
theorem Covers.greedy {segs : List PgmSegment} {s k : Nat}
    (h : Covers (ClosedOn ε keys) s a segs)
    (hrest : Greedy (FitsLine ε keys) keys.length a k) :
    Greedy (FitsLine ε keys) keys.length s (segs.length + k) := by
  induction segs generalizing s with
  | nil =>
    obtain rfl : s = a := h
    rwa [List.length_nil, Nat.zero_add]
  | cons seg segs ih =>
    obtain ⟨e, hseg, hcovers⟩ := h
    rw [List.length_cons, Nat.succ_add]
    refine .cut (Nat.lt_succ_of_le hseg.le) hseg.fitsLine (fun hlt hfits ↦ ?_) (ih hcovers)
    obtain ⟨ℓ, hℓ⟩ := (fitsLine_iff (Nat.succ_le_of_lt hlt)).mp hfits
    exact hseg.maximal ℓ hℓ

/-- The points that a model has accepted since it was empty, newest first. -/
inductive Oplm.Fed (ε : Nat) : Oplm → List Point → Prop
  | nil {m : Oplm} (hε : m.epsilon = ε) (hempty : m.pointsInHull = 0) : Fed ε m []
  | cons {m m' : Oplm} {A : List Point} {q : Point} (h : Fed ε m A)
      (hadd : m.addPoint q.x q.y = .ok (true, m')) : Fed ε m' (q :: A)

theorem Oplm.Fed.accepts {m : Oplm} {A : List Point} (h : m.Fed ε A)
    (hA : A.Pairwise fun p q ↦ q.x < p.x ∧ q.y < p.y) (hpos : ∀ p ∈ A, 0 ≤ p.y) :
    m.Accepts A ∧ m.epsilon = ε := by
  induction h with
  | nil hε hempty => exact ⟨accepts_nil hempty, hε⟩
  | cons _ hadd ih =>
    obtain ⟨hq, hA⟩ := List.pairwise_cons.mp hA
    obtain ⟨hy, hpos⟩ := List.forall_mem_cons.mp hpos
    obtain ⟨hacc, hε⟩ := ih hA hpos
    obtain ⟨m₁, hm₁, hacc₁, hε₁⟩ | ⟨-, -, hm₁⟩ := hacc.addPoint_spec hq hy
    · rw [hadd] at hm₁
      cases hm₁
      exact ⟨hacc₁, hε₁.trans hε⟩
    · rw [hadd] at hm₁
      cases hm₁

/-- A point is rejected only when no line fits it and the points before it. -/
theorem Oplm.Fed.not_feasible {m m' : Oplm} {A : List Point} {q : Point} (h : m.Fed ε A)
    (hA : (q :: A).Pairwise fun p q ↦ q.x < p.x ∧ q.y < p.y) (hpos : ∀ p ∈ q :: A, 0 ≤ p.y)
    (hreject : m.addPoint q.x q.y = .ok (false, m')) (ℓ : Line ℚ) : ¬ Feasible ε ℓ (q :: A) := by
  obtain ⟨hq, hA⟩ := List.pairwise_cons.mp hA
  obtain ⟨hy, hpos⟩ := List.forall_mem_cons.mp hpos
  obtain ⟨hacc, rfl⟩ := h.accepts hA hpos
  obtain ⟨m₁, hm₁, -⟩ | ⟨hlen, hfit, -⟩ := hacc.addPoint_spec hq hy
  · rw [hreject] at hm₁
    cases hm₁
  · intro hℓ
    exact hfit ((hacc.sides hlen).fits_of_feasible (fun p hp ↦ (hq p hp).1) hy hℓ)

theorem pairwise_rankPoints (hkeys : keys.Pairwise (· < ·)) (hb : b ≤ keys.length) :
    (rankPoints keys a b).Pairwise fun p q ↦ q.x < p.x ∧ q.y < p.y := by
  rw [rankPoints, List.pairwise_reverse, List.pairwise_map]
  refine (List.pairwise_lt_range' (s := a) (n := b - a)).imp_of_mem fun {i j} _ hj hij ↦ ?_
  rw [List.mem_range'_1] at hj
  exact ⟨getD_lt_getD hkeys hij (by omega), Int.ofNat_lt.mpr hij⟩

/-- On strictly increasing keys a segmentation has as few segments as any cut of the ranks into
runs that a line fits; and a run is closed by a point only when no line fits it together with
that point. -/
theorem makeSegmentation_minimal (hkeys : keys.Pairwise (· < ·)) (ε : Nat) :
    (∃ segs, makeSegmentation keys ε = .ok segs ∧
      IsLeast {k | Splits (FitsLine ε keys) keys.length 0 k} segs.length) ∧
    ∀ (m m' : Oplm) (a y : Nat) (key : RecordKey), a ≤ y → keys[y]? = some key →
      m.Fed ε (rankPoints keys a y) → m.addPoint key.value y = .ok (false, m') →
      ¬ FitsLine ε keys a (y + 1) := by
  constructor
  · rcases eq_or_ne keys [] with rfl | hne
    · exact ⟨[], rfl, Greedy.done.isLeast (hereditary_fitsLine ε [])⟩
    obtain ⟨segs, a, seg, hmake, hclosed, hlast⟩ := makeSegmentation_spec hkeys hne ε
    have hpos := List.length_pos_of_ne_nil hne
    have hfits := hlast.fitsLine
    rw [Nat.sub_add_cancel hpos] at hfits
    have hgreedy : Greedy (FitsLine ε keys) keys.length a 1 :=
      .cut (hlast.le.trans_lt hlast.lt_length) hfits (fun hlt ↦ absurd hlt (lt_irrefl _)) .done
    refine ⟨segs ++ [seg], hmake, ?_⟩
    rw [List.length_append]
    exact (hclosed.greedy hgreedy).isLeast (hereditary_fitsLine ε keys)
  · intro m m' a y key hay hkey hfed hreject hfits
    obtain ⟨hy, rfl⟩ := List.getElem?_eq_some_iff.mp hkey
    obtain ⟨ℓ, hℓ⟩ := (fitsLine_iff (Nat.succ_le_of_lt hy)).mp hfits
    have hA := pairwise_rankPoints (a := a) hkeys (Nat.succ_le_of_lt hy)
    have hpos : ∀ p ∈ rankPoints keys a (y + 1), 0 ≤ p.y := by
      intro p hp
      obtain ⟨r, -, -, rfl⟩ := mem_rankPoints.mp hp
      exact Int.natCast_nonneg r
    rw [rankPoints_succ _ hay] at hA hpos hℓ
    rw [List.getElem_eq_getD default] at hreject
    exact hfed.not_feasible hA hpos hreject ℓ hℓ

theorem makeSegmentation_minimal_small :
    (∃ segs, makeSegmentation [⟨0⟩, ⟨1⟩, ⟨100⟩] 0 = .ok segs ∧
      IsLeast {k | Splits (FitsLine 0 [⟨0⟩, ⟨1⟩, ⟨100⟩]) 3 0 k} segs.length) ∧
    ¬ FitsLine 0 [⟨0⟩, ⟨1⟩, ⟨100⟩] 0 3 := by
  have hkeys : ([⟨0⟩, ⟨1⟩, ⟨100⟩] : List RecordKey).Pairwise (· < ·) := by decide
  obtain ⟨hleast, hreject⟩ := makeSegmentation_minimal hkeys 0
  -- the points of the first two keys
  have hempty : (Oplm.init 0).Fed 0 [] := .nil rfl rfl
  have hone : Oplm.Fed 0 _ [⟨0, 0⟩] := hempty.cons rfl
  have htwo : Oplm.Fed 0 _ [⟨1, 1⟩, ⟨0, 0⟩] := hone.cons rfl
  exact ⟨hleast, hreject _ _ 0 2 ⟨100⟩ (by decide) rfl htwo rfl⟩

end EnhancedLetIndex
