import EnhancedLetIndex.Pgm.Segmentation

/-!
# The window of a search contains the lower bound

`build_batch_pgm` succeeds on strictly increasing keys and `search` never fails on the index
it returns.  The main result is `BatchPgmIndex.BuiltOn.search_spec`: the window `[lo, hi)` of
any key reaches from at or before the number of smaller keys to at or after it, strictly
after when the key is present.
-/

namespace EnhancedLetIndex

open Point

/-! ## One prediction -/

namespace PgmSegment

/-- The stored line at `key`, rounded down: the prediction before it is floored at 0. -/
def floorAt (s : PgmSegment) (key : RecordKey) : Int :=
  s.slopeNum * (key.value - s.startKey.value) / s.slopeDen + s.intercept

variable {s : PgmSegment}

theorem predict_eq (hnum : 0 ≤ s.slopeNum) (hden : 0 < s.slopeDen) {key : RecordKey}
    (hkey : s.startKey ≤ key) : s.predict key = .ok (max 0 (s.floorAt key)) := by
  have hdelta : 0 ≤ key.value - s.startKey.value := sub_nonneg.mpr hkey
  simp only [predict, divTrunc_of_nonneg (mul_nonneg hnum hdelta) hden, ok_bind, pure_eq_ok,
    floorAt]
  congr 1
  split_ifs <;> omega

theorem floorAt_mono (hnum : 0 ≤ s.slopeNum) (hden : 0 < s.slopeDen) {k k' : RecordKey}
    (h : k ≤ k') : s.floorAt k ≤ s.floorAt k' := by
  have hdelta : k.value - s.startKey.value ≤ k'.value - s.startKey.value :=
    Int.sub_le_sub_right h _
  exact Int.add_le_add_right
    (Int.ediv_le_ediv hden (mul_le_mul_of_nonneg_left hdelta hnum)) _

/-- Rounding down loses less than one rank. -/
theorem floorAt_spec (hden : 0 < s.slopeDen) (key : RecordKey) :
    (s.floorAt key : ℚ) ≤
        (s.slopeNum : ℚ) / s.slopeDen * (key.value - s.startKey.value) + s.intercept ∧
      (s.slopeNum : ℚ) / s.slopeDen * (key.value - s.startKey.value) + s.intercept <
        s.floorAt key + 1 := by
  have hq : (0 : ℚ) < s.slopeDen := by exact_mod_cast hden
  have h₁ := Int.ediv_mul_le (s.slopeNum * (key.value - s.startKey.value)) hden.ne'
  have h₂ := Int.lt_ediv_add_one_mul_self (s.slopeNum * (key.value - s.startKey.value)) hden
  simp only [floorAt]
  generalize s.slopeNum * (key.value - s.startKey.value) / s.slopeDen = v at h₁ h₂
  have h₁' : (v : ℚ) * s.slopeDen ≤ s.slopeNum * (key.value - s.startKey.value) := by
    exact_mod_cast h₁
  have h₂' : (s.slopeNum : ℚ) * (key.value - s.startKey.value) < (v + 1) * s.slopeDen := by
    exact_mod_cast h₂
  rw [div_mul_eq_mul_div]
  push_cast
  constructor
  · have := (le_div_iff₀ hq).mpr h₁'
    linarith
  · have := (div_lt_iff₀ hq).mpr h₂'
    linarith

end PgmSegment

namespace SegmentOn

variable {ε a b : Nat} {keys : List RecordKey} {seg : PgmSegment}

/-- The stored line is within one half of the band at every rank of the span. -/
theorem near_band (h : SegmentOn ε keys a b seg) {i : Nat} (hai : a ≤ i) (hib : i ≤ b) :
    (i : ℚ) - ε - 1 / 2 ≤ (seg.slopeNum : ℚ) / seg.slopeDen *
        ((keys.getD i default).value - seg.startKey.value) + seg.intercept ∧
      (seg.slopeNum : ℚ) / seg.slopeDen *
        ((keys.getD i default).value - seg.startKey.value) + seg.intercept ≤ i + ε + 1 / 2 := by
  obtain ⟨hlow, hhigh⟩ := h.feasible _ (mem_rankPoints.mpr ⟨i, hai, by omega, rfl⟩)
  obtain ⟨hclose, hclose'⟩ := abs_le.mp (h.close (keys.getD i default).value)
  have hlow' : (i : ℚ) - ε ≤ (bandLow ε ⟨(keys.getD i default).value, i⟩).y := by
    have : (i : Int) - ε ≤ (bandLow ε ⟨(keys.getD i default).value, i⟩).y := by
      rw [bandLow_y]; exact le_max_right _ _
    exact_mod_cast this
  have hhigh' : ((bandHigh ε ⟨(keys.getD i default).value, i⟩).y : ℚ) = i + ε := by
    simp [bandHigh]
  constructor <;> linarith

/-- The prediction at a rank of the span, before it is floored at 0. -/
theorem floorAt_bounds (h : SegmentOn ε keys a b seg) {i : Nat} (hai : a ≤ i) (hib : i ≤ b) :
    (i : Int) - ε - 1 ≤ seg.floorAt (keys.getD i default) ∧
      seg.floorAt (keys.getD i default) ≤ (i : Int) + ε := by
  obtain ⟨hlow, hhigh⟩ := h.near_band hai hib
  obtain ⟨hfloor, hfloor'⟩ := PgmSegment.floorAt_spec h.slopeDen_pos (keys.getD i default)
  constructor
  · have : (i : ℚ) - ε - 2 < seg.floorAt (keys.getD i default) := by linarith
    have : (i : Int) - ε - 2 < seg.floorAt (keys.getD i default) := by exact_mod_cast this
    omega
  · have : (seg.floorAt (keys.getD i default) : ℚ) < i + ε + 1 := by linarith
    have : seg.floorAt (keys.getD i default) < (i : Int) + ε + 1 := by exact_mod_cast this
    omega

/-- The intercept is an integer within one half of the band of the first rank. -/
theorem intercept_bounds (h : SegmentOn ε keys a b seg) :
    (a : Int) - ε ≤ seg.intercept ∧ seg.intercept ≤ (a : Int) + ε := by
  obtain ⟨hlow, hhigh⟩ := h.near_band le_rfl h.le
  rw [h.startKey, sub_self, mul_zero, zero_add] at hlow hhigh
  constructor
  · have : (a : ℚ) - ε - 1 < seg.intercept := by linarith
    have : (a : Int) - ε - 1 < seg.intercept := by exact_mod_cast this
    omega
  · have : (seg.intercept : ℚ) < a + ε + 1 := by linarith
    have : seg.intercept < (a : Int) + ε + 1 := by exact_mod_cast this
    omega

end SegmentOn

/-! ## The governing segment -/

section Covers

variable {ε : Nat} {keys : List RecordKey} {segs : List PgmSegment} {a n : Nat}

/-- The segments of the ranks from `a` on start at or after the key of rank `a`. -/
theorem Covers.le_startKey (hkeys : keys.Pairwise (· < ·))
    (h : Covers (SegmentOn ε keys) a n segs) :
    ∀ s ∈ segs, a < n ∧ keys.getD a default ≤ s.startKey := by
  induction segs generalizing a with
  | nil => exact fun s hs ↦ absurd hs List.not_mem_nil
  | cons seg segs ih =>
    obtain ⟨e, hseg, hrest⟩ := h
    have hle := hseg.le
    have hen : e + 1 ≤ n := by
      cases segs with
      | nil => exact (show e + 1 = n from hrest).le
      | cons s segs => exact (ih hrest s List.mem_cons_self).1.le
    intro s hs
    rcases List.mem_cons.mp hs with rfl | hs
    · exact ⟨by omega, hseg.startKey.ge⟩
    · obtain ⟨hlt, hle'⟩ := ih hrest s hs
      refine ⟨by omega, le_trans ?_ hle'⟩
      obtain ⟨s', segs', rfl⟩ := List.exists_cons_of_ne_nil (List.ne_nil_of_mem hs)
      obtain ⟨e', hs', -⟩ := hrest
      exact getD_le_getD hkeys (by omega) (hs'.le.trans_lt hs'.lt_length)

/-- The rightmost segment that starts at or before `q` owns the last rank whose key is at
most `q`. -/
theorem Covers.locate (hkeys : keys.Pairwise (· < ·)) {q : RecordKey}
    (h : Covers (SegmentOn ε keys) a n segs) (ha : a < n) (hq : keys.getD a default ≤ q) :
    ∃ pre seg post x y, segs = pre ++ seg :: post ∧
      IsCut (fun k ↦ decide (k ≤ q)) (segs.map (·.startKey)) (pre.length + 1) ∧
      SegmentOn ε keys x y seg ∧ Covers (SegmentOn ε keys) (y + 1) n post ∧
      keys.getD x default ≤ q ∧ (y + 1 < n → q < keys.getD (y + 1) default) := by
  induction segs generalizing a with
  | nil => exact absurd h ha.ne
  | cons seg segs ih =>
    obtain ⟨e, hseg, hrest⟩ := h
    by_cases hnext : e + 1 < n ∧ keys.getD (e + 1) default ≤ q
    · -- a later segment governs
      obtain ⟨pre, seg', post, x, y, rfl, hcut, hseg', hpost, hx, hy⟩ := ih hrest hnext.1 hnext.2
      refine ⟨seg :: pre, seg', post, x, y, rfl, ⟨?_, ?_⟩, hseg', hpost, hx, hy⟩
      · simp
      · intro i hi
        rcases i with _ | i
        · simpa [hseg.startKey] using hq
        · rw [List.length_cons, Nat.add_lt_add_iff_right, ← hcut.iff_lt i (by simpa using hi)]
          simp
    · refine ⟨[], seg, segs, a, e, rfl, ⟨by simp, ?_⟩, hseg, hrest, hq, ?_⟩
      · intro i hi
        rcases i with _ | i
        · simpa [hseg.startKey] using hq
        · have hi : i < segs.length := by simpa using hi
          obtain ⟨hlt, hle⟩ := hrest.le_startKey hkeys _ (List.getElem_mem hi)
          have hgt : q < segs[i].startKey :=
            (lt_of_not_ge fun hge ↦ hnext ⟨hlt, hge⟩).trans_le hle
          simpa using hgt
      · intro hn
        exact lt_of_not_ge fun hge ↦ hnext ⟨hn, hge⟩

end Covers

/-! ## The index of a list of keys -/

/-- `idx` is a sound index over `keys`. -/
structure BatchPgmIndex.BuiltOn (idx : BatchPgmIndex) (ε : Nat) (keys : List RecordKey) :
    Prop where
  sorted : keys.Pairwise (· < ·)
  epsilon : idx.epsilon = ε
  recordCount : idx.recordCount = keys.length
  firstKey : idx.firstKey = keys.head?
  lastKey : idx.lastKey = keys.getLast?
  covers : Covers (SegmentOn ε keys) 0 keys.length idx.segments

/-- On strictly increasing keys the build succeeds with a sound index. -/
theorem buildBatchPgm_spec {keys : List RecordKey} (hkeys : keys.Pairwise (· < ·)) (ε : Nat) :
    ∃ idx, buildBatchPgm keys ε = .ok idx ∧ idx.BuiltOn ε keys := by
  unfold buildBatchPgm
  rw [firstNotIncreasing_eq_none.mpr hkeys]
  cases keys with
  | nil => exact ⟨_, rfl, ⟨hkeys, rfl, rfl, rfl, rfl, rfl⟩⟩
  | cons key rest =>
    obtain ⟨segs, a, seg, hmake, hclosed, hlast⟩ := makeSegmentation_spec hkeys (by simp) ε
    have hcovers : Covers (SegmentOn ε (key :: rest)) 0 (key :: rest).length (segs ++ [seg]) :=
      covers_append.mpr ⟨a, hclosed.imp fun _ _ _ h ↦ h.toSegmentOn, covers_singleton.mpr hlast⟩
    obtain ⟨s₀, hs₀, hrank⟩ : ∃ s₀, (segs ++ [seg]).head? = some s₀ ∧ s₀.startRank = 0 := by
      obtain ⟨s₀, l, hl⟩ := List.exists_cons_of_ne_nil (l := segs ++ [seg]) (by simp)
      rw [hl] at hcovers ⊢
      obtain ⟨e, hs₀, -⟩ := hcovers
      exact ⟨s₀, rfl, hs₀.startRank⟩
    refine ⟨⟨ε, rest.length + 1, some key, some (rest.getLastD key), segs ++ [seg]⟩, ?_, ?_⟩
    · simp only [hmake, ok_bind, hs₀, hrank, if_true]
      rfl
    · exact ⟨hkeys, rfl, rfl, rfl, by
        rw [List.getLast?_cons, List.getLastD_eq_getLast?], hcovers⟩

/-- Only strictly increasing keys are accepted. -/
theorem builtOn_of_buildBatchPgm {keys : List RecordKey} {ε : Nat} {idx : BatchPgmIndex}
    (h : buildBatchPgm keys ε = .ok idx) : idx.BuiltOn ε keys := by
  have hkeys : keys.Pairwise (· < ·) := by
    rw [← firstNotIncreasing_eq_none]
    unfold buildBatchPgm at h
    cases hnone : firstNotIncreasing keys with
    | none => rfl
    | some pair => rw [hnone] at h; exact absurd h (by simp)
  obtain ⟨idx', hidx', hbuilt⟩ := buildBatchPgm_spec hkeys ε
  rw [h] at hidx'
  cases hidx'
  exact hbuilt

/-! ## The search -/

/-- `pos` predicts the rank `r` of a key among `n`, `hit` saying whether the key occurs: the
window around it reaches both sides of `r`. -/
structure Predicts (ε n r : Nat) (hit : Prop) (pos : Nat) : Prop where
  le : pos ≤ n
  le_rank : pos ≤ r + ε
  rank_le : r ≤ pos + ε + 2
  rank_lt : hit → r < pos + ε + 2

namespace BatchPgmIndex

/-- The window `search` puts around a predicted rank. -/
def window (ε n pos : Nat) : SearchResult :=
  ⟨pos, pos - ε, if pos + ε + 2 > n then n else pos + ε + 2⟩

variable {idx : BatchPgmIndex} {ε : Nat} {keys : List RecordKey}

/-- The governing segment of a key between the first and the last one. -/
theorem BuiltOn.governing (h : idx.BuiltOn ε keys) {q : RecordKey} (hne : keys ≠ [])
    (hq : keys.getD 0 default ≤ q) :
    ∃ seg post x y, idx.segments[idx.segmentIndexFor q]? = some seg ∧
      (∀ n, idx.nextIntercept (idx.segmentIndexFor q) n =
        match post.head? with | some s => s.intercept | none => n) ∧
      SegmentOn ε keys x y seg ∧ Covers (SegmentOn ε keys) (y + 1) keys.length post ∧
      keys.getD x default ≤ q ∧ (y + 1 < keys.length → q < keys.getD (y + 1) default) := by
  obtain ⟨pre, seg, post, x, y, hsegs, hcut, hseg, hpost, hx, hy⟩ :=
    h.covers.locate h.sorted (List.length_pos_of_ne_nil hne) hq
  have hindex : idx.segmentIndexFor q = pre.length := by
    rw [segmentIndexFor, hcut.bisect_eq, Nat.add_sub_cancel]
  refine ⟨seg, post, x, y, ?_, fun n ↦ ?_, hseg, hpost, hx, hy⟩
  · rw [hindex, hsegs]; simp
  · rw [nextIntercept, hindex, hsegs]
    cases post <;> simp

/-- The rank of `q` among the keys, for `q` governed by a segment over `x..y`: it lies in
the span or right after it. -/
theorem lowerRank_bounds (hkeys : keys.Pairwise (· < ·)) {q : RecordKey} {x y : Nat}
    (hxy : x ≤ y) (hylen : y < keys.length) (hx : keys.getD x default ≤ q)
    (hy : y + 1 < keys.length → q < keys.getD (y + 1) default) :
    x ≤ lowerRank keys q ∧ lowerRank keys q ≤ y + 1 := by
  have hcut := isCut_lowerRank hkeys q
  constructor
  · by_contra hlt
    -- the key at the rank of `q` is before `keys[x]`, hence below `q`
    have hr : lowerRank keys q < keys.length := by omega
    refine absurd ((lt_lowerRank_iff hkeys (x := q) hr).mpr ?_) (Nat.lt_irrefl _)
    rw [List.getElem_eq_getD default]
    exact (getD_lt_getD hkeys (not_le.mp hlt) (by omega)).trans_le hx
  · by_contra hlt
    have hlen := lowerRank_le_length keys q
    have hy1 : y + 1 < keys.length := by omega
    have := (lt_lowerRank_iff hkeys (x := q) hy1).mp (by omega)
    rw [List.getElem_eq_getD default] at this
    exact lt_asymm this (hy hy1)

/-- The prediction for `q`, before the clamps, against the rank of `q`. -/
theorem floorAt_rank (hkeys : keys.Pairwise (· < ·)) {q : RecordKey} {x y : Nat}
    {seg : PgmSegment} (hseg : SegmentOn ε keys x y seg) (hx : keys.getD x default ≤ q)
    (hy : y + 1 < keys.length → q < keys.getD (y + 1) default) :
    (lowerRank keys q : Int) - ε - 2 ≤ seg.floorAt q ∧
      (q ∈ keys → (lowerRank keys q : Int) - ε - 1 ≤ seg.floorAt q) ∧
      (lowerRank keys q ≤ y → seg.floorAt q ≤ (lowerRank keys q : Int) + ε) := by
  have hylen := hseg.lt_length
  obtain ⟨hxr, hry⟩ := lowerRank_bounds hkeys hseg.le hylen hx hy
  have hmono : ∀ {k k' : RecordKey}, k ≤ k' → seg.floorAt k ≤ seg.floorAt k' :=
    fun hkk ↦ PgmSegment.floorAt_mono hseg.slopeNum_nonneg hseg.slopeDen_pos hkk
  have hhit : q ∈ keys → (lowerRank keys q : Int) - ε - 1 ≤ seg.floorAt q := by
    intro hq
    obtain ⟨hr, hget⟩ := List.getElem?_eq_some_iff.mp ((mem_iff_getElem?_lowerRank hkeys).mp hq)
    rw [List.getElem_eq_getD default] at hget
    have hle : lowerRank keys q ≤ y := by
      by_contra hlt
      have hry' : lowerRank keys q = y + 1 := by omega
      exact (hy (by omega)).ne' (hry' ▸ hget)
    calc (lowerRank keys q : Int) - ε - 1
        ≤ seg.floorAt (keys.getD (lowerRank keys q) default) := (hseg.floorAt_bounds hxr hle).1
      _ = seg.floorAt q := by rw [hget]
  refine ⟨?_, hhit, fun hle ↦ ?_⟩
  · rcases Nat.eq_or_lt_of_le hxr with hxr | hxr
    · -- nothing of the span is below `q`, so `q` is its first key
      have hxlen : x < keys.length := hseg.le.trans_lt hylen
      have hq : q ∈ keys := by
        have hnot : ¬ keys.getD x default < q := by
          rw [← List.getElem_eq_getD (h := hxlen), ← lt_lowerRank_iff hkeys]
          omega
        rw [← le_antisymm hx (not_lt.mp hnot), ← List.getElem_eq_getD (h := hxlen)]
        exact List.getElem_mem _
      have := hhit hq
      omega
    · -- the key before the rank of `q` is below `q`
      have hlt : keys.getD (lowerRank keys q - 1) default < q := by
        rw [← List.getElem_eq_getD (h := by omega), ← lt_lowerRank_iff hkeys]
        omega
      have := (hseg.floorAt_bounds (i := lowerRank keys q - 1) (by omega) (by omega)).1
      have := hmono hlt.le
      omega
  · have hge : q ≤ keys.getD (lowerRank keys q) default := by
      rw [← not_lt, ← List.getElem_eq_getD (h := by omega), ← lt_lowerRank_iff hkeys]
      exact Nat.lt_irrefl _
    exact (hmono hge).trans (hseg.floorAt_bounds hxr hle).2

/-- The cap of a prediction: the intercept of the next segment, or the record count. -/
theorem cap_bounds {post : List PgmSegment} {s n : Nat} (h : Covers (SegmentOn ε keys) s n post) :
    ∃ cap : Int, (match post.head? with | some t => t.intercept | none => (n : Int)) = cap ∧
      (s : Int) - ε ≤ cap ∧ cap ≤ (s : Int) + ε := by
  cases post with
  | nil =>
    obtain rfl : s = n := h
    exact ⟨s, rfl, by omega, by omega⟩
  | cons t post =>
    obtain ⟨e, ht, -⟩ := h
    exact ⟨t.intercept, rfl, ht.intercept_bounds⟩

/-- `search` never fails on a built index, and its window contains the rank of the key. -/
theorem BuiltOn.search_spec (h : idx.BuiltOn ε keys) (q : RecordKey) :
    ∃ pos, idx.search q = .ok (window ε keys.length pos) ∧
      Predicts ε keys.length (lowerRank keys q) (q ∈ keys) pos := by
  have hcount := h.recordCount
  have hrank := lowerRank_le_length keys q
  unfold search
  rw [h.epsilon, hcount]
  rcases keys with _ | ⟨key, rest⟩
  · exact ⟨0, by simp [window], ⟨by simp, by simp [lowerRank], by simp [lowerRank], by simp⟩⟩
  have hfirst : idx.firstKey = some key := h.firstKey
  have hlast : idx.lastKey = some ((key :: rest).getD rest.length default) := by
    rw [h.lastKey, List.getLast?_eq_getElem?, List.getElem?_eq_getElem (by simp),
      List.getElem_eq_getD default]
    rfl
  have hn : (key :: rest).length ≠ 0 := by simp
  simp only [hn, if_false, hfirst, hlast]
  -- a hit is strictly before the end
  have hmem : q ∈ key :: rest → lowerRank (key :: rest) q < (key :: rest).length := fun hq ↦
    (List.getElem?_eq_some_iff.mp ((mem_iff_getElem?_lowerRank h.sorted).mp hq)).1
  by_cases hlow : q < key
  · have hr : lowerRank (key :: rest) q = 0 := by
      by_contra hr
      exact lt_asymm hlow ((lt_lowerRank_iff h.sorted (i := 0) (by simp)).mp (by omega))
    exact ⟨0, by simp only [hlow, if_true]; rfl, ⟨by omega, by omega, by omega, fun _ ↦ by omega⟩⟩
  by_cases hhigh : q > (key :: rest).getD rest.length default
  · have hr : rest.length < lowerRank (key :: rest) q := by
      rw [lt_lowerRank_iff h.sorted (by simp), List.getElem_eq_getD default]
      exact hhigh
    refine ⟨(key :: rest).length, by simp only [hlow, hhigh, if_true, if_false]; rfl, ?_⟩
    rw [List.length_cons] at *
    exact ⟨le_rfl, by omega, by omega, fun _ ↦ by omega⟩
  obtain ⟨seg, post, x, y, hget, hcap, hseg, hpost, hx, hy⟩ :=
    h.governing (q := q) (by simp) (not_lt.mp hlow)
  obtain ⟨cap, hcap', hcap₁, hcap₂⟩ := cap_bounds hpost
  have hkey : seg.startKey ≤ q := by rw [hseg.startKey]; exact hx
  obtain ⟨hpred, hpredHit, hpredUp⟩ := floorAt_rank h.sorted hseg hx hy
  obtain ⟨-, hry⟩ := lowerRank_bounds h.sorted hseg.le hseg.lt_length hx hy
  simp only [hlow, hhigh, if_false, hget, hcap, hcap',
    PgmSegment.predict_eq hseg.slopeNum_nonneg hseg.slopeDen_pos hkey, ok_bind, pure_eq_ok]
  refine ⟨_, rfl, ?_⟩
  have hylen := hseg.lt_length
  have hhit : q ∈ key :: rest → _ := fun hq ↦ And.intro (hmem hq) (hpredHit hq)
  generalize (key :: rest).length = n at *
  generalize lowerRank (key :: rest) q = r at *
  refine ⟨?_, ?_, ?_, fun hq ↦ ?_⟩
  · split_ifs <;> omega
  · rcases Nat.lt_or_ge y r with hyr | hyr
    · split_ifs <;> omega
    · have := hpredUp hyr
      split_ifs <;> omega
  · split_ifs <;> omega
  · obtain ⟨hrn, hpos⟩ := hhit hq
    split_ifs <;> omega

/-- The interval of a window, from what its position predicts. -/
theorem window_bounds {n r pos : Nat} {hit : Prop} (h : Predicts ε n r hit pos) (hr : r ≤ n)
    (hlt : hit → r < n) :
    (window ε n pos).lo ≤ r ∧ r ≤ (window ε n pos).hi ∧ (window ε n pos).hi ≤ n ∧
      (hit → r < (window ε n pos).hi) := by
  obtain ⟨h₁, h₂, h₃, h₄⟩ := h
  simp only [window]
  refine ⟨by omega, ?_, ?_, fun hh ↦ ?_⟩
  · split_ifs <;> omega
  · split_ifs <;> omega
  · have := h₄ hh
    have := hlt hh
    split_ifs <;> omega

end BatchPgmIndex

/-- The interval contains the rank of `q` among the keys, strictly if `q` is one of them. -/
structure SearchResult.Brackets (sr : SearchResult) (keys : List RecordKey) (q : RecordKey) :
    Prop where
  lo_le : sr.lo ≤ lowerRank keys q
  le_hi : lowerRank keys q ≤ sr.hi
  hi_le : sr.hi ≤ keys.length
  lt_hi : q ∈ keys → lowerRank keys q < sr.hi

/-- The interval of a search on a built index. -/
theorem BatchPgmIndex.BuiltOn.brackets {idx : BatchPgmIndex} {ε : Nat} {keys : List RecordKey}
    (h : idx.BuiltOn ε keys) (q : RecordKey) :
    ∃ sr, idx.search q = .ok sr ∧ sr.Brackets keys q := by
  obtain ⟨pos, hsearch, hpredicts⟩ := h.search_spec q
  obtain ⟨h₁, h₂, h₃, h₄⟩ := BatchPgmIndex.window_bounds hpredicts (lowerRank_le_length _ _)
    fun hq ↦ (List.getElem?_eq_some_iff.mp ((mem_iff_getElem?_lowerRank h.sorted).mp hq)).1
  exact ⟨_, hsearch, h₁, h₂, h₃, h₄⟩

/-! ## A search over built keys -/

/-- What a search for `q` returns over the index of some keys: the window around its position,
which contains the lower bound, and for a key that occurs the rank and how far off the prediction
of its segment is. -/
structure BatchPgmIndex.Answers (idx : BatchPgmIndex) (ε : Nat) (keys : List RecordKey)
    (q : RecordKey) (sr : SearchResult) : Prop where
  pos_le : sr.pos ≤ keys.length
  lo_eq : sr.lo = sr.pos - ε
  hi_eq : sr.hi = min keys.length (sr.pos + ε + 2)
  lo_le_hi : sr.lo ≤ sr.hi
  hi_le : sr.hi ≤ keys.length
  lo_le : sr.lo ≤ bisect (· < q) keys
  le_hi : bisect (· < q) keys ≤ sr.hi
  /-- The lower bound inside the window is the one among all keys. -/
  bisect_window : sr.lo + bisect (· < q) ((keys.drop sr.lo).take (sr.hi - sr.lo)) =
    bisect (· < q) keys
  hit : ∀ r, keys[r]? = some q → sr.lo ≤ r ∧ r < sr.hi ∧
    ∃ seg p, idx.segments[idx.segmentIndexFor q]? = some seg ∧ seg.predict q = .ok p ∧
      (r : Int) - ε - 1 ≤ p ∧ p ≤ r + ε

/-- The prediction of the governing segment at a key that occurs. -/
theorem BatchPgmIndex.BuiltOn.predict_getElem {idx : BatchPgmIndex} {ε : Nat}
    {keys : List RecordKey} (h : idx.BuiltOn ε keys) {r : Nat} (hr : r < keys.length) :
    ∃ seg p, idx.segments[idx.segmentIndexFor keys[r]]? = some seg ∧
      seg.predict keys[r] = .ok p ∧ (r : Int) - ε - 1 ≤ p ∧ p ≤ r + ε := by
  have hne : keys ≠ [] := List.ne_nil_of_length_pos (Nat.zero_lt_of_lt hr)
  have hfirst : keys.getD 0 default ≤ keys[r] := by
    rw [List.getElem_eq_getD default]
    exact getD_le_getD h.sorted r.zero_le hr
  obtain ⟨seg, post, x, y, hget, -, hseg, -, hx, hy⟩ := h.governing hne hfirst
  have hxr : x ≤ r := by
    rw [List.getElem_eq_getD default] at hx
    exact not_lt.mp fun hlt ↦
      absurd (getD_lt_getD h.sorted hlt (hseg.le.trans_lt hseg.lt_length)) (not_lt.mpr hx)
  have hry : r ≤ y := by
    rw [List.getElem_eq_getD default] at hy
    refine not_lt.mp fun hlt ↦ ?_
    have hlast := hy ((Nat.succ_le_of_lt hlt).trans_lt hr)
    exact absurd (getD_le_getD h.sorted (Nat.succ_le_of_lt hlt) hr) (not_le.mpr hlast)
  have hkey : seg.startKey ≤ keys[r] := by
    rw [hseg.startKey]
    exact hx
  obtain ⟨hlow, hhigh⟩ := hseg.floorAt_bounds hxr hry
  rw [← List.getElem_eq_getD (h := hr)] at hlow hhigh
  refine ⟨seg, _, hget, PgmSegment.predict_eq hseg.slopeNum_nonneg hseg.slopeDen_pos hkey,
    hlow.trans (le_max_right _ _), max_le ?_ hhigh⟩
  exact Int.add_nonneg (Int.natCast_nonneg r) (Int.natCast_nonneg ε)

/-- Every search over the index of strictly increasing keys answers. -/
theorem search_buildBatchPgm {keys : List RecordKey} (hkeys : keys.Pairwise (· < ·)) (ε : Nat)
    (q : RecordKey) : ∃ idx sr, buildBatchPgm keys ε = .ok idx ∧ idx.search q = .ok sr ∧
      idx.Answers ε keys q sr := by
  obtain ⟨idx, hbuild, hbuilt⟩ := buildBatchPgm_spec hkeys ε
  obtain ⟨pos, hsearch, hpredicts⟩ := hbuilt.search_spec q
  obtain ⟨hlo, hhi, hlength, hlt⟩ := BatchPgmIndex.window_bounds hpredicts
    (lowerRank_le_length _ _)
    fun hq ↦ (List.getElem?_eq_some_iff.mp ((mem_iff_getElem?_lowerRank hkeys).mp hq)).1
  have hcut := isCut_lowerRank hkeys q
  have hbisect : bisect (· < q) keys = lowerRank keys q := hcut.bisect_eq
  refine ⟨idx, _, hbuild, hsearch, hpredicts.le, rfl, ?_, hlo.trans hhi, hlength, ?_, ?_, ?_, ?_⟩
  · rw [BatchPgmIndex.window]
    split_ifs with hlong
    · exact (Nat.min_eq_left hlong.le).symm
    · exact (Nat.min_eq_right (not_lt.mp hlong)).symm
  · rw [hbisect]
    exact hlo
  · rw [hbisect]
    exact hhi
  · rw [hbisect, (hcut.window hlo hhi).bisect_eq]
    exact Nat.add_sub_cancel' hlo
  · intro r hget
    obtain ⟨hr, rfl⟩ := List.getElem?_eq_some_iff.mp hget
    have hrank := lowerRank_getElem hkeys hr
    rw [hrank] at hlo hlt
    exact ⟨hlo, hlt (List.getElem_mem hr), hbuilt.predict_getElem hr⟩

theorem search_buildBatchPgm_small : ∃ idx sr, buildBatchPgm [⟨-4⟩, ⟨3⟩, ⟨9⟩] 0 = .ok idx ∧
    idx.search ⟨5⟩ = .ok sr ∧ idx.Answers 0 [⟨-4⟩, ⟨3⟩, ⟨9⟩] ⟨5⟩ sr :=
  search_buildBatchPgm (by decide) 0 ⟨5⟩

end EnhancedLetIndex
