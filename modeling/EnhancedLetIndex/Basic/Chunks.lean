import Mathlib.Tactic

/-!
# Packing a list into chunks

`chunks c l` cuts a list into consecutive slices of length `c`, the last one possibly
shorter.  `Packed c ps` is the shape of such a cut, and a list of chunks of that shape is the
cut of its own concatenation (`Packed.chunks_flatten`).

Whoever finds the element of rank `r` in chunk `r / c` relies on chunks before it being full.
`nominal c i ps` lists the elements with the ranks that this arithmetic gives them; they are
the true ranks exactly when every chunk before a nonempty one is full (`nominal_eq_iff`).
`nominalWindow` collects the elements whose nominal rank is in a window; the chunks it takes
them from are the ones the arithmetic names, and on chunks whose ranks are wrong it never sees
the last element.
-/

namespace EnhancedLetIndex

variable {α : Type*}

/-- The consecutive slices `l[i * c : (i + 1) * c]`. -/
def chunks (c : Nat) (l : List α) : List (List α) :=
  (List.range ((l.length + c - 1) / c)).map fun i ↦ (l.drop (i * c)).take c

/-- Every chunk is full, but the last one, which is not empty. -/
def Packed (c : Nat) : List (List α) → Prop
  | [] => True
  | [p] => 1 ≤ p.length ∧ p.length ≤ c
  | p :: ps => p.length = c ∧ Packed c ps

section Chunks

variable {c : Nat}

theorem length_chunks (l : List α) : (chunks c l).length = (l.length + c - 1) / c := by
  simp [chunks]

/-- A map commutes with the cut. -/
theorem chunks_map {β : Type*} (f : α → β) (l : List α) :
    chunks c (l.map f) = (chunks c l).map (List.map f) := by
  simp only [chunks, List.length_map, List.map_map, Function.comp_def, List.map_take, List.map_drop]

theorem chunks_nil (hc : 0 < c) : chunks c ([] : List α) = [] := by
  rw [← List.length_eq_zero_iff, length_chunks, Nat.div_eq_zero_iff]
  simp only [List.length_nil]
  omega

/-- The first slice, and the slices of the rest. -/
theorem chunks_cons (hc : 0 < c) {l : List α} (hl : l ≠ []) :
    chunks c l = l.take c :: chunks c (l.drop c) := by
  have hpos := List.length_pos_of_ne_nil hl
  have hcount : (l.length + c - 1) / c = (l.length - c + c - 1) / c + 1 := by
    rcases Nat.lt_or_ge c l.length with hlt | hge
    · rw [show l.length + c - 1 = (l.length - c + c - 1) + c by omega, Nat.add_div_right _ hc]
    · rw [show l.length - c + c - 1 = c - 1 by omega, Nat.div_eq_of_lt (by omega : c - 1 < c),
        show l.length + c - 1 = (l.length - 1) + c by omega, Nat.add_div_right _ hc,
        Nat.div_eq_of_lt (by omega)]
  rw [chunks, hcount, List.range_succ_eq_map, List.map_cons, List.map_map, Nat.zero_mul,
    List.drop_zero, chunks, List.length_drop]
  congr 1
  apply List.map_congr_left
  intro i _
  simp only [Function.comp_apply, List.drop_drop]
  congr 2
  rw [Nat.succ_mul, Nat.add_comm]

theorem flatten_chunks (hc : 0 < c) (l : List α) : (chunks c l).flatten = l := by
  induction hn : l.length using Nat.strong_induction_on generalizing l with
  | _ n ih =>
    rcases l with _ | ⟨a, l⟩
    · simp [chunks_nil hc]
    · rw [chunks_cons hc (by simp), List.flatten_cons, ih _ _ _ rfl, List.take_append_drop]
      simp only [List.length_drop, ← hn, List.length_cons]
      omega

/-- Chunks of `size` numbers, the last one cut off at `n`, one after another. -/
theorem flatMap_range'_min (size n k : Nat) : ((List.range k).flatMap fun i ↦
    List.range' (i * size) (min (i * size + size) n - i * size)) =
      List.range (min (k * size) n) := by
  induction k with
  | zero => simp
  | succ k ih =>
    rw [List.range_succ, List.flatMap_append, ih, List.flatMap_singleton, Nat.succ_mul]
    rcases Nat.le_total (k * size) n with hle | hle
    · have hlast : min (k * size + size) n = k * size + (min (k * size + size) n - k * size) := by
        omega
      rw [Nat.min_eq_left hle]
      conv_rhs => rw [hlast, List.range_eq_range', ← List.range'_append_1, Nat.zero_add]
      rw [List.range_eq_range']
    · rw [Nat.min_eq_right hle, Nat.min_eq_right (hle.trans (Nat.le_add_right _ _)),
        Nat.sub_eq_zero_of_le hle, List.range'_zero, List.append_nil]

theorem packed_cons {p : List α} {ps : List (List α)} (hps : ps ≠ []) :
    Packed c (p :: ps) ↔ p.length = c ∧ Packed c ps := by
  obtain ⟨q, qs, rfl⟩ := List.exists_cons_of_ne_nil hps
  rfl

/-- Packed chunks, seen from the last one. -/
theorem packed_iff_dropLast {ps : List (List α)} :
    Packed c ps ↔ (∀ p ∈ ps.dropLast, p.length = c) ∧
      ∀ p ∈ ps.getLast?, 1 ≤ p.length ∧ p.length ≤ c := by
  induction ps with
  | nil => exact iff_of_true trivial ⟨List.forall_mem_nil _, fun p hp ↦ by cases hp⟩
  | cons p ps ih =>
    by_cases hps : ps = []
    · subst hps
      exact ⟨fun h ↦ ⟨List.forall_mem_nil _, fun q hq ↦ Option.some.inj hq ▸ h⟩,
        fun h ↦ h.2 p rfl⟩
    · rw [packed_cons hps, ih, List.dropLast_cons_of_ne_nil hps, List.forall_mem_cons, and_assoc,
        List.getLast?_cons_of_ne_nil hps]

theorem packed_chunks (hc : 0 < c) (l : List α) : Packed c (chunks c l) := by
  induction hn : l.length using Nat.strong_induction_on generalizing l with
  | _ n ih =>
    by_cases hl : l = []
    · rw [hl, chunks_nil hc]; trivial
    have hpos := List.length_pos_of_ne_nil hl
    rw [chunks_cons hc hl]
    by_cases hlast : l.drop c = []
    · rw [hlast, chunks_nil hc, Packed, List.length_take]
      omega
    · have hlen : c < l.length := by simpa using hlast
      have hne : chunks c (l.drop c) ≠ [] := by rw [chunks_cons hc hlast]; simp
      rw [packed_cons hne, List.length_take]
      refine ⟨by omega, ih (l.drop c).length ?_ _ rfl⟩
      rw [List.length_drop]; omega

namespace Packed

variable {ps : List (List α)}

theorem tail {p : List α} (h : Packed c (p :: ps)) : Packed c ps := by
  rcases ps with _ | ⟨q, qs⟩
  · trivial
  · exact h.2

theorem length_le (h : Packed c ps) : ∀ p ∈ ps, p.length ≤ c := by
  induction ps with
  | nil => exact fun p hp ↦ absurd hp List.not_mem_nil
  | cons q qs ih =>
    intro p hp
    rcases List.mem_cons.mp hp with rfl | hp
    · rcases qs with _ | ⟨r, rs⟩
      · exact h.2
      · exact h.1.le
    · exact ih h.tail p hp

theorem length_pos (hc : 0 < c) (h : Packed c ps) : ∀ p ∈ ps, 1 ≤ p.length := by
  induction ps with
  | nil => exact fun p hp ↦ absurd hp List.not_mem_nil
  | cons q qs ih =>
    intro p hp
    rcases List.mem_cons.mp hp with rfl | hp
    · rcases qs with _ | ⟨r, rs⟩
      · exact h.1
      · exact h.1.symm ▸ hc
    · exact ih h.tail p hp

theorem pairwise (h : Packed c ps) : ps.Pairwise fun p q ↦ q ≠ [] → p.length = c := by
  induction ps with
  | nil => exact List.Pairwise.nil
  | cons p ps ih =>
    refine List.pairwise_cons.mpr ⟨fun q hq _ ↦ ?_, ih h.tail⟩
    exact ((packed_cons (List.ne_nil_of_mem hq)).mp h).1

end Packed

/-- Full chunks before a cut. -/
theorem chunks_append (hc : 0 < c) {ps : List (List α)} (hps : ∀ p ∈ ps, p.length = c)
    (l : List α) : chunks c (ps.flatten ++ l) = ps ++ chunks c l := by
  induction ps with
  | nil => rfl
  | cons p ps ih =>
    have hp : p.length = c := hps p List.mem_cons_self
    have hne : (p :: ps).flatten ++ l ≠ [] := by
      rw [List.flatten_cons, ← List.length_pos_iff, List.length_append, List.length_append]
      omega
    rw [chunks_cons hc hne, List.flatten_cons, List.append_assoc, List.take_left' hp,
      List.drop_left' hp, ih fun q hq ↦ hps q (List.mem_cons_of_mem _ hq)]
    rfl

/-- A list that is not longer than one chunk. -/
theorem chunks_of_length_le (hc : 0 < c) {l : List α} (hl : l ≠ []) (hle : l.length ≤ c) :
    chunks c l = [l] := by
  rw [chunks_cons hc hl, List.take_of_length_le hle, List.drop_of_length_le hle, chunks_nil hc]

end Chunks

/-! ## Nominal ranks -/

/-- The elements of chunks numbered from `i` on, each with the rank `i * c + offset`. -/
def nominal (c : Nat) : Nat → List (List α) → List (α × Nat)
  | _, [] => []
  | i, p :: ps => p.zipIdx (i * c) ++ nominal c (i + 1) ps

section Nominal

variable {c : Nat}

theorem map_fst_nominal (i : Nat) (ps : List (List α)) :
    (nominal c i ps).map Prod.fst = ps.flatten := by
  induction ps generalizing i with
  | nil => rfl
  | cons p ps ih => simp [nominal, ih]

/-- The nominal ranks of chunk `i` and of the later ones are at least `i * c`. -/
theorem le_of_mem_nominal {i : Nat} {ps : List (List α)} {x : α × Nat}
    (hx : x ∈ nominal c i ps) : i * c ≤ x.2 := by
  induction ps generalizing i with
  | nil => exact absurd hx List.not_mem_nil
  | cons p ps ih =>
    rcases List.mem_append.mp hx with hx | hx
    · exact List.le_snd_of_mem_zipIdx hx
    · have := ih hx
      rw [Nat.succ_mul] at this
      omega

/-- The rank arithmetic is right exactly when every chunk before a nonempty one is full. -/
theorem nominal_eq_iff {ps : List (List α)} (hle : ∀ p ∈ ps, p.length ≤ c) (i : Nat) :
    nominal c i ps = ps.flatten.zipIdx (i * c) ↔
      ps.Pairwise fun p q ↦ q ≠ [] → p.length = c := by
  induction ps generalizing i with
  | nil => simp [nominal]
  | cons p ps ih =>
    have hp := hle p List.mem_cons_self
    rw [nominal, List.flatten_cons, List.zipIdx_append, List.append_cancel_left_eq,
      List.pairwise_cons]
    by_cases hempty : ∀ q ∈ ps, q = []
    · -- nothing comes after `p`
      have hflat : ps.flatten = [] := List.flatten_eq_nil_iff.mpr hempty
      have hnil : nominal c (i + 1) ps = [] := by
        rw [← List.map_eq_nil_iff (f := Prod.fst), map_fst_nominal, hflat]
      rw [hnil, hflat]
      refine iff_of_true rfl ⟨fun q hq hne ↦ absurd (hempty q hq) hne, ?_⟩
      exact List.Pairwise.imp_of_mem (R := fun _ _ ↦ True)
        (fun _ hq _ hne ↦ absurd (hempty _ hq) hne) (List.pairwise_of_forall fun _ _ ↦ trivial)
    · push Not at hempty
      obtain ⟨q, hq, hne⟩ := hempty
      by_cases hfull : p.length = c
      · rw [hfull, ← Nat.succ_mul, ih fun q hq ↦ hle q (List.mem_cons_of_mem _ hq)]
        exact ⟨fun h ↦ ⟨fun _ _ _ ↦ rfl, h⟩, fun h ↦ h.2⟩
      · -- the first element after `p` already has too great a nominal rank
        refine iff_of_false (fun heq ↦ ?_) fun h ↦ hfull (h.1 q hq hne)
        have hflat : ps.flatten ≠ [] := fun h ↦ hne (List.flatten_eq_nil_iff.mp h q hq)
        obtain ⟨a, l, hal⟩ := List.exists_cons_of_ne_nil hflat
        rw [hal, List.zipIdx_cons] at heq
        have hmem : (a, i * c + p.length) ∈ nominal c (i + 1) ps := heq ▸ List.mem_cons_self
        have := le_of_mem_nominal hmem
        rw [Nat.succ_mul] at this
        simp only at this
        omega

/-- The last element has at least its true rank, and more if the ranks are wrong. -/
theorem nominal_last {ps : List (List α)} (hle : ∀ p ∈ ps, p.length ≤ c)
    (hne : ps.flatten ≠ []) (i : Nat) :
    ∃ init a r, nominal c i ps = init ++ [(a, r)] ∧ i * c + ps.flatten.length ≤ r + 1 ∧
      (¬ (ps.Pairwise fun p q ↦ q ≠ [] → p.length = c) → i * c + ps.flatten.length ≤ r) := by
  induction ps generalizing i with
  | nil => exact absurd rfl hne
  | cons p ps ih =>
    have hp := hle p List.mem_cons_self
    by_cases hflat : ps.flatten = []
    · -- the last element is in `p`, and nothing after `p` can be wrong
      rw [List.flatten_cons, hflat, List.append_nil] at hne ⊢
      have hnil : nominal c (i + 1) ps = [] := by
        rw [← List.map_eq_nil_iff (f := Prod.fst), map_fst_nominal, hflat]
      obtain ⟨p', a, rfl⟩ := (List.eq_nil_or_concat' p).resolve_left hne
      refine ⟨p'.zipIdx (i * c), a, i * c + p'.length, ?_, ?_, fun hwrong ↦ absurd ?_ hwrong⟩
      · rw [nominal, hnil, List.append_nil, List.zipIdx_append]
        rfl
      · rw [List.length_append]; simp only [List.length_singleton]; omega
      · rw [List.pairwise_iff_forall_sublist]
        intro x y hxy hy
        have hmem : y ∈ ps := by
          have := List.Sublist.tail hxy
          exact List.singleton_sublist.mp this
        exact absurd (List.flatten_eq_nil_iff.mp hflat y hmem) hy
    · obtain ⟨init, a, r, hinit, hr, hwrong⟩ :=
        ih (fun q hq ↦ hle q (List.mem_cons_of_mem _ hq)) hflat (i + 1)
      rw [Nat.succ_mul] at hr hwrong
      refine ⟨p.zipIdx (i * c) ++ init, a, r, ?_, ?_, fun h ↦ ?_⟩
      · rw [nominal, hinit, List.append_assoc]
      · rw [List.flatten_cons, List.length_append]; omega
      · rw [List.flatten_cons, List.length_append]
        rw [List.pairwise_cons, not_and_or] at h
        rcases Nat.lt_or_eq_of_le hp with hlt | heq
        · omega
        · have := hwrong (h.resolve_left (not_not.mpr fun q _ _ ↦ heq))
          omega

end Nominal

/-! ## Windows of nominal ranks -/

/-- The elements of a chunk, its ranks starting with `s`, that have a rank in `[lo, hi)`. -/
def slice (lo hi s : Nat) (p : List α) : List α :=
  ((p.zipIdx s).filter fun x ↦ lo ≤ x.2 ∧ x.2 < hi).map Prod.fst

/-- The elements with a nominal rank in `[lo, hi)`. -/
def nominalWindow (c lo hi : Nat) (ps : List (List α)) : List α :=
  ((nominal c 0 ps).filter fun x ↦ lo ≤ x.2 ∧ x.2 < hi).map Prod.fst

section Window

variable {c lo hi : Nat}

theorem slice_eq_nil_of_le {s : Nat} {p : List α} (h : s + p.length ≤ lo ∨ hi ≤ s) :
    slice lo hi s p = [] := by
  rw [slice, List.map_eq_nil_iff, List.filter_eq_nil_iff]
  rintro ⟨a, r⟩ hmem
  obtain ⟨h₁, h₂, -⟩ := List.mem_zipIdx hmem
  simp only [decide_eq_true_eq]
  omega

theorem slice_eq_self {s : Nat} {p : List α} (h₁ : lo ≤ s) (h₂ : s + p.length ≤ hi) :
    slice lo hi s p = p := by
  rw [slice, List.filter_eq_self.mpr, List.zipIdx_map_fst]
  rintro ⟨a, r⟩ hmem
  obtain ⟨h₃, h₄, -⟩ := List.mem_zipIdx hmem
  simp only [decide_eq_true_eq]
  omega

theorem slice_append (s : Nat) (p q : List α) :
    slice lo hi s (p ++ q) = slice lo hi s p ++ slice lo hi (s + p.length) q := by
  rw [slice, List.zipIdx_append, List.filter_append, List.map_append]
  rfl

/-- On true ranks a window is a slice of the list. -/
theorem slice_zero (hlh : lo ≤ hi) {l : List α} (hhi : hi ≤ l.length) :
    slice lo hi 0 l = (l.drop lo).take (hi - lo) := by
  have hsplit : l = l.take lo ++ ((l.drop lo).take (hi - lo) ++ l.drop hi) := by
    rw [show l.drop hi = (l.drop lo).drop (hi - lo) by rw [List.drop_drop]; congr 1; omega,
      List.take_append_drop, List.take_append_drop]
  have htake : (l.take lo).length = lo := by rw [List.length_take]; omega
  have hmid : ((l.drop lo).take (hi - lo)).length = hi - lo := by
    rw [List.length_take, List.length_drop]; omega
  conv_lhs => rw [hsplit]
  rw [slice_append, slice_append, slice_eq_nil_of_le (Or.inl (by omega)),
    slice_eq_self (by omega) (by omega), slice_eq_nil_of_le (Or.inr (by omega)),
    List.nil_append, List.append_nil]

/-- A window over all chunks, chunk by chunk. -/
theorem nominalWindow_eq_range (ps : List (List α)) :
    nominalWindow c lo hi ps =
      (List.range' 0 ps.length).flatMap fun k ↦ slice lo hi (k * c) (ps[k]?.getD []) := by
  have hfrom : ∀ i, ((nominal c i ps).filter fun x ↦ lo ≤ x.2 ∧ x.2 < hi).map Prod.fst =
      (List.range' i ps.length).flatMap fun k ↦ slice lo hi (k * c) (ps[k - i]?.getD []) := by
    induction ps with
    | nil => intro i; rfl
    | cons p ps ih =>
      intro i
      rw [nominal, List.filter_append, List.map_append, ih, List.length_cons, List.range'_succ,
        List.flatMap_cons, Nat.sub_self]
      congr 1
      refine List.flatMap_congr fun k hk ↦ ?_
      have := (List.mem_range'_1.mp hk).1
      rw [show k - i = (k - (i + 1)) + 1 by omega, List.getElem?_cons_succ]
  exact hfrom 0

theorem range'_split {a b n : Nat} (hab : a ≤ b) (hbn : b ≤ n) :
    List.range' 0 n = List.range' 0 a ++ (List.range' a (b - a) ++ List.range' b (n - b)) := by
  obtain ⟨k, rfl⟩ := Nat.exists_eq_add_of_le hab
  obtain ⟨m, rfl⟩ := Nat.exists_eq_add_of_le hbn
  rw [Nat.add_sub_cancel_left, Nat.add_sub_cancel_left, List.range'_append_1]
  have := List.range'_append_1 (s := 0) (m := a) (n := k + m)
  rw [Nat.zero_add] at this
  rw [this, Nat.add_assoc]

/-- The chunks a window takes its elements from. -/
theorem nominalWindow_eq_flatMap (hc : 0 < c) (hlt : lo < hi) {ps : List (List α)}
    (hle : ∀ p ∈ ps, p.length ≤ c) (hlast : (hi - 1) / c < ps.length) :
    nominalWindow c lo hi ps =
      (List.range' (lo / c) ((hi - 1) / c + 1 - lo / c)).flatMap
        fun k ↦ slice lo hi (k * c) (ps[k]?.getD []) := by
  have hfirst : lo / c ≤ (hi - 1) / c := Nat.div_le_div_right (by omega)
  have hlen : ∀ k : Nat, (ps[k]?.getD []).length ≤ c := by
    intro k
    cases hk : ps[k]? with
    | none => exact Nat.zero_le _
    | some p => exact hle p (List.mem_of_getElem? hk)
  have hbefore : ((List.range' 0 (lo / c)).flatMap
      fun k ↦ slice lo hi (k * c) (ps[k]?.getD [])) = [] := by
    refine List.flatMap_eq_nil_iff.mpr fun k hk ↦ ?_
    have hlt' : k < lo / c := by simpa using (List.mem_range'_1.mp hk).2
    have := (Nat.le_div_iff_mul_le hc).mp (Nat.succ_le_of_lt hlt')
    rw [Nat.succ_mul] at this
    exact slice_eq_nil_of_le (Or.inl (by have := hlen k; omega))
  have hafter : ((List.range' ((hi - 1) / c + 1) (ps.length - ((hi - 1) / c + 1))).flatMap
      fun k ↦ slice lo hi (k * c) (ps[k]?.getD [])) = [] := by
    refine List.flatMap_eq_nil_iff.mpr fun k hk ↦ ?_
    have hlo := (List.mem_range'_1.mp hk).1
    have := (Nat.div_lt_iff_lt_mul hc).mp (Nat.lt_of_succ_le hlo)
    exact slice_eq_nil_of_le (Or.inr (by omega))
  rw [nominalWindow_eq_range, range'_split (Nat.le_succ_of_le hfirst) hlast, List.flatMap_append,
    List.flatMap_append, hbefore, hafter, List.nil_append, List.append_nil]

/-- Where the nominal ranks are right, a window is a slice of the elements. -/
theorem nominalWindow_of_eq {ps : List (List α)} (h : nominal c 0 ps = ps.flatten.zipIdx 0)
    (hlh : lo ≤ hi) (hhi : hi ≤ ps.flatten.length) :
    nominalWindow c lo hi ps = (ps.flatten.drop lo).take (hi - lo) := by
  rw [nominalWindow, h]
  exact slice_zero hlh hhi

/-- Where they are wrong, no window of true ranks contains the last element. -/
theorem nominalWindow_of_wrong (lo : Nat) {ps : List (List α)} (hle : ∀ p ∈ ps, p.length ≤ c)
    (hwrong : ¬ (ps.Pairwise fun p q ↦ q ≠ [] → p.length = c)) {init : List α} {a : α}
    (hflat : ps.flatten = init ++ [a]) (hhi : hi ≤ ps.flatten.length) :
    (nominalWindow c lo hi ps).Sublist init := by
  obtain ⟨init', a', r, hlast, -, hr⟩ := nominal_last hle (by simp [hflat]) 0
  have hr := hr hwrong
  have heq : init = init'.map Prod.fst := by
    have := map_fst_nominal (c := c) 0 ps
    rw [hlast, hflat, List.map_append] at this
    exact (List.append_inj_left' this rfl).symm
  have hout : ([(a', r)].filter fun x ↦ decide (lo ≤ x.2 ∧ x.2 < hi)) = [] := by
    rw [List.filter_eq_nil_iff]
    simp only [List.mem_singleton, decide_eq_true_eq, forall_eq]
    omega
  rw [nominalWindow, hlast, List.filter_append, hout, List.append_nil, heq]
  exact List.filter_sublist.map _

/-- Chunks whose ranks are wrong have elements. -/
theorem flatten_ne_nil_of_wrong {ps : List (List α)}
    (hwrong : ¬ (ps.Pairwise fun p q ↦ q ≠ [] → p.length = c)) : ps.flatten ≠ [] := by
  intro hnil
  refine hwrong (List.Pairwise.imp_of_mem (R := fun _ _ ↦ True) (fun _ hq _ hne ↦ ?_)
    (List.pairwise_of_forall fun _ _ ↦ trivial))
  exact absurd (List.flatten_eq_nil_iff.mp hnil _ hq) hne

end Window

end EnhancedLetIndex
