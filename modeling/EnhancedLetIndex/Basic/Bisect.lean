import Mathlib.Tactic

/-!
# Binary search on lists

`bisect p l` is the loop of `bisect_left` and `bisect_right`, over an arbitrary test `p`.
It is right whenever the test cuts the list: it holds exactly on the first `r` elements
(`IsCut p l r`).  A strictly increasing list is cut at every `x`, by `· < x` at
`lowerRank l x` and, when `x` occurs, that is where it stands.
-/

namespace EnhancedLetIndex

variable {α β : Type*}

/-- The search loop on `[lo, hi)`; `fuel` bounds the number of probes. -/
def bisectLoop (p : α → Bool) (l : List α) : Nat → Nat → Nat → Nat
  | 0, lo, _ => lo
  | fuel + 1, lo, hi =>
    if lo < hi then
      let mid := (lo + hi) / 2
      if l[mid]?.any p then bisectLoop p l fuel (mid + 1) hi else bisectLoop p l fuel lo mid
    else lo

/-- Binary search for the end of the part of `l` on which `p` holds. -/
def bisect (p : α → Bool) (l : List α) : Nat := bisectLoop p l l.length 0 l.length

/-- `p` holds exactly on the first `r` elements of `l`. -/
structure IsCut (p : α → Bool) (l : List α) (r : Nat) : Prop where
  le_length : r ≤ l.length
  iff_lt : ∀ i (h : i < l.length), p l[i] = true ↔ i < r

namespace IsCut

variable {p : α → Bool} {l : List α} {r : Nat}

theorem unique {r' : Nat} (h : IsCut p l r) (h' : IsCut p l r') : r = r' := by
  by_contra hne
  rcases Nat.lt_or_gt_of_ne hne with hlt | hlt
  · have hr : r < l.length := hlt.trans_le h'.le_length
    exact absurd ((h.iff_lt r hr).mp ((h'.iff_lt r hr).mpr hlt)) (Nat.lt_irrefl r)
  · have hr : r' < l.length := hlt.trans_le h.le_length
    exact absurd ((h'.iff_lt r' hr).mp ((h.iff_lt r' hr).mpr hlt)) (Nat.lt_irrefl r')

/-- With enough fuel the loop finds every cut inside its interval. -/
theorem bisectLoop_eq (h : IsCut p l r) {fuel lo hi : Nat} (hlo : lo ≤ r) (hhi : r ≤ hi)
    (hlen : hi ≤ l.length) (hfuel : hi - lo ≤ fuel) : bisectLoop p l fuel lo hi = r := by
  induction fuel generalizing lo hi with
  | zero => simp only [bisectLoop]; omega
  | succ fuel ih =>
    simp only [bisectLoop]
    split_ifs with hlt hp
    · have hmid : (lo + hi) / 2 < l.length := by omega
      rw [List.getElem?_eq_getElem hmid, Option.any_some, h.iff_lt _ hmid] at hp
      exact ih (by omega) hhi hlen (by omega)
    · have hmid : (lo + hi) / 2 < l.length := by omega
      rw [List.getElem?_eq_getElem hmid, Option.any_some, h.iff_lt _ hmid] at hp
      exact ih hlo (by omega) (by omega) (by omega)
    · omega

/-- Binary search finds the cut. -/
theorem bisect_eq (h : IsCut p l r) : bisect p l = r :=
  h.bisectLoop_eq (Nat.zero_le r) h.le_length le_rfl (by omega)

/-- A window that contains the cut is cut at the same element. -/
theorem window (h : IsCut p l r) {lo hi : Nat} (hlo : lo ≤ r) (hhi : r ≤ hi) :
    IsCut p ((l.drop lo).take (hi - lo)) (r - lo) where
  le_length := by
    have := h.le_length
    rw [List.length_take, List.length_drop]
    omega
  iff_lt i hi' := by
    rw [List.length_take, List.length_drop] at hi'
    rw [List.getElem_take, List.getElem_drop, h.iff_lt _ (by omega)]
    omega

/-- The elements before the cut satisfy the test. -/
theorem of_mem_take (h : IsCut p l r) {a : α} (ha : a ∈ l.take r) : p a = true := by
  obtain ⟨i, hi, rfl⟩ := List.getElem_of_mem ha
  rw [List.length_take, lt_min_iff] at hi
  rw [List.getElem_take]
  exact (h.iff_lt i hi.2).mpr hi.1

/-- The elements behind the cut do not. -/
theorem not_of_mem_drop (h : IsCut p l r) {a : α} (ha : a ∈ l.drop r) : ¬ p a = true := by
  obtain ⟨i, hi, rfl⟩ := List.getElem_of_mem ha
  rw [List.length_drop] at hi
  rw [List.getElem_drop, h.iff_lt _ (Nat.add_lt_of_lt_sub' hi), not_lt]
  exact Nat.le_add_right r i

end IsCut

/-- A list is cut where a test stops that holds before wherever it holds. -/
theorem isCut_countP {p : α → Bool} {l : List α}
    (h : l.Pairwise fun a b ↦ p b = true → p a = true) : IsCut p l (l.countP p) := by
  refine ⟨List.countP_le_length, ?_⟩
  induction l with
  | nil => intro i hi; simp at hi
  | cons a l ih =>
    obtain ⟨ha, hl⟩ := List.pairwise_cons.mp h
    intro i hi
    by_cases hpa : p a = true
    · have hcount : (a :: l).countP p = l.countP p + 1 := List.countP_cons_of_pos hpa
      rcases i with _ | i
      · simp [hpa, hcount]
      · rw [hcount, List.getElem_cons_succ, Nat.add_lt_add_iff_right]
        exact ih hl i (by simpa using hi)
    · -- the test stops at once
      have hall : ∀ b ∈ a :: l, ¬ p b = true := by
        intro b hb
        rcases List.mem_cons.mp hb with rfl | hb
        · exact hpa
        · exact fun hpb ↦ hpa (ha b hb hpb)
      rw [List.countP_eq_zero.mpr hall]
      simpa using hall _ (List.getElem_mem hi)

section LinearOrder

variable [LinearOrder α]

/-- The number of elements of `l` below `x`. -/
def lowerRank (l : List α) (x : α) : Nat := l.countP (· < x)

theorem lowerRank_le_length (l : List α) (x : α) : lowerRank l x ≤ l.length :=
  List.countP_le_length

/-- A strictly increasing list is cut at the rank of `x`. -/
theorem isCut_lowerRank {l : List α} (hl : l.Pairwise (· < ·)) (x : α) :
    IsCut (fun k ↦ decide (k < x)) l (lowerRank l x) := by
  refine isCut_countP (hl.imp fun hab hb ↦ ?_)
  exact decide_eq_true (hab.trans (of_decide_eq_true hb))

theorem lt_lowerRank_iff {l : List α} (hl : l.Pairwise (· < ·)) {x : α} {i : Nat}
    (hi : i < l.length) : i < lowerRank l x ↔ l[i] < x := by
  rw [← (isCut_lowerRank hl x).iff_lt i hi, decide_eq_true_eq]

/-- The rank of an element is its index. -/
theorem lowerRank_getElem {l : List α} (hl : l.Pairwise (· < ·)) {i : Nat} (hi : i < l.length) :
    lowerRank l l[i] = i := by
  refine (isCut_lowerRank hl _).unique ⟨hi.le, fun j hj ↦ ?_⟩
  rw [decide_eq_true_eq]
  constructor
  · intro hlt
    by_contra hij
    rcases Nat.eq_or_lt_of_le (Nat.le_of_not_lt hij) with rfl | hij
    · exact lt_irrefl _ hlt
    · exact lt_asymm hlt (List.pairwise_iff_getElem.mp hl i j hi hj hij)
  · exact List.pairwise_iff_getElem.mp hl j i hj hi

/-- `x` occurs exactly when it stands at its rank. -/
theorem mem_iff_getElem?_lowerRank {l : List α} (hl : l.Pairwise (· < ·)) {x : α} :
    x ∈ l ↔ l[lowerRank l x]? = some x := by
  constructor
  · intro hx
    obtain ⟨i, hi, rfl⟩ := List.getElem_of_mem hx
    rw [lowerRank_getElem hl hi, List.getElem?_eq_getElem hi]
  · exact fun h ↦ List.mem_of_getElem? h

end LinearOrder

end EnhancedLetIndex
