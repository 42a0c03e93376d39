import Mathlib.Tactic
import Mathlib.Order.Lattice.Nat

/-!
# The search for the capacity of a bin

The search of `compute_bin_capacity_blocks` of `distribution.py`, for any tail test.  It halves the
even capacities between two bounds, and returns the last one it has tried instead of a bound.  When
larger capacities pass wherever smaller ones do, the bounds close in on the least capacity that
passes (`Encloses`), and the last one tried is at most 4 below it and at most 2 above
(`sizingSearch_spec`).
-/

namespace EnhancedLetIndex

/-- `to_even_up`. -/
def toEvenUp (value : Nat) : Nat := value + (value &&& 1)

theorem toEvenUp_eq (value : Nat) : toEvenUp value = value + value % 2 := by
  rw [toEvenUp, Nat.and_one_is_mod]

theorem even_toEvenUp (value : Nat) : Even (toEvenUp value) := by
  rw [toEvenUp_eq, Nat.even_iff]
  omega

/-- The variables of the search. -/
structure SizingState where
  lower : Nat
  upper : Nat
  capacity : Nat
deriving DecidableEq, Repr

namespace SizingState

/-- A round of the loop, unless it ends. -/
def step (passes : Nat → Bool) (s : SizingState) : Option SizingState :=
  if s.lower + 2 < s.upper then
    let capacity := toEvenUp ((s.lower + s.upper) / 2)
    some (if passes capacity then { s with upper := capacity, capacity }
      else { s with lower := capacity + 2, capacity })
  else none

variable {passes : Nat → Bool} {s s' : SizingState}

theorem step_eq_none : s.step passes = none ↔ s.upper ≤ s.lower + 2 := by
  rw [step]
  split_ifs with h
  · exact iff_of_false (fun hsome ↦ by cases hsome) (not_le.mpr h)
  · exact iff_of_true rfl (not_lt.mp h)

/-- What a round does with the capacity that it tries. -/
theorem step_cases (h : s.step passes = some s') :
    s.lower + 2 < s.upper ∧ s'.capacity = toEvenUp ((s.lower + s.upper) / 2) ∧
      (passes s'.capacity = true ∧ s'.lower = s.lower ∧ s'.upper = s'.capacity ∨
        passes s'.capacity = false ∧ s'.lower = s'.capacity + 2 ∧ s'.upper = s.upper) := by
  rw [step] at h
  split_ifs at h with hlt
  cases hpasses : passes (toEvenUp ((s.lower + s.upper) / 2)) with
  | true =>
    simp only [hpasses, if_true, Option.some.injEq] at h
    subst h
    exact ⟨hlt, rfl, Or.inl ⟨hpasses, rfl, rfl⟩⟩
  | false =>
    simp only [hpasses, Bool.false_eq_true, if_false, Option.some.injEq] at h
    subst h
    exact ⟨hlt, rfl, Or.inr ⟨hpasses, rfl, rfl⟩⟩

/-- The bounds come closer. -/
theorem step_closer (h : s.step passes = some s') :
    s'.upper - s'.lower < s.upper - s.lower := by
  obtain ⟨hlt, hcapacity, ⟨-, hlower, hupper⟩ | ⟨-, hlower, hupper⟩⟩ := step_cases h
  all_goals
    rw [toEvenUp_eq] at hcapacity
    omega

end SizingState

open SizingState

/-- The loop of the search. -/
def sizingLoop (passes : Nat → Bool) (s : SizingState) : SizingState :=
  match _h : s.step passes with
  | none => s
  | some s' => sizingLoop passes s'
termination_by s.upper - s.lower
decreasing_by exact step_closer _h

/-- The search of `compute_bin_capacity_blocks`, from the first candidate on. -/
def sizingSearch (passes : Nat → Bool) (candidate : Nat) : Nat :=
  let upper := toEvenUp candidate
  let lower := 2
  if lower + 2 ≥ upper then max lower upper
  else (sizingLoop passes ⟨lower, upper, upper⟩).capacity

/-! ## Runs of the loop -/

/-- A state of the loop leads to another one. -/
def SizingState.Leads (passes : Nat → Bool) : SizingState → SizingState → Prop :=
  Relation.ReflTransGen fun s s' ↦ s.step passes = some s'

variable {passes : Nat → Bool} {s s' : SizingState}

/-- What every round preserves holds in every state of a run. -/
theorem SizingState.Leads.preserves {P : SizingState → Prop}
    (hstep : ∀ s s', s.step passes = some s' → P s → P s') (h : s.Leads passes s') (hs : P s) :
    P s' := by
  induction h with
  | refl => exact hs
  | tail _ hlast ih => exact hstep _ _ hlast ih

/-- The loop runs until it ends. -/
theorem leads_sizingLoop (passes : Nat → Bool) (s : SizingState) :
    s.Leads passes (sizingLoop passes s) ∧ (sizingLoop passes s).step passes = none := by
  fun_induction sizingLoop passes s with
  | case1 s hstep => exact ⟨.refl, hstep⟩
  | case2 s s' hstep ih => exact ⟨.head hstep ih.1, ih.2⟩

/-! ## The bounds -/

/-- The bounds are even and in order, and the last capacity tried is one of them, or next to one. -/
structure Bounded (s : SizingState) : Prop where
  even_lower : Even s.lower
  even_upper : Even s.upper
  two_le : 2 ≤ s.lower
  lower_le : s.lower ≤ s.upper
  tried : s.capacity = s.upper ∨ s.capacity + 2 = s.lower ∧ 4 ≤ s.lower

namespace Bounded

/-- The bounds at the start of the loop. -/
theorem init {upper : Nat} (heven : Even upper) (hle : 2 ≤ upper) :
    Bounded ⟨2, upper, upper⟩ := ⟨even_two, heven, le_rfl, hle, Or.inl rfl⟩

/-- The capacity that a round tries is even, and strictly between the bounds. -/
theorem probe (h : Bounded s) (hstep : s.step passes = some s') :
    Even s'.capacity ∧ s.lower < s'.capacity ∧ s'.capacity + 2 ≤ s.upper := by
  obtain ⟨hlt, hcapacity, -⟩ := step_cases hstep
  refine ⟨hcapacity ▸ even_toEvenUp _, ?_⟩
  have hlower := Nat.even_iff.mp h.even_lower
  have hupper := Nat.even_iff.mp h.even_upper
  rw [toEvenUp_eq] at hcapacity
  omega

theorem step (h : Bounded s) (hstep : s.step passes = some s') : Bounded s' := by
  obtain ⟨heven, hlower, hupper⟩ := h.probe hstep
  obtain ⟨-, -, ⟨-, hl, hu⟩ | ⟨-, hl, hu⟩⟩ := step_cases hstep
  · refine ⟨hl ▸ h.even_lower, hu ▸ heven, hl ▸ h.two_le, ?_, Or.inl hu.symm⟩
    rw [hl, hu]
    exact hlower.le
  · have hfour : 4 ≤ s'.capacity + 2 := Nat.add_le_add_right (h.two_le.trans hlower.le) 2
    rw [← hl] at hfour hupper
    refine ⟨?_, hu ▸ h.even_upper, (by decide : 2 ≤ 4).trans hfour, hu ▸ hupper,
      Or.inr ⟨hl.symm, hfour⟩⟩
    rw [hl]
    exact heven.add even_two

theorem of_leads (h : Bounded s) (hleads : s.Leads passes s') : Bounded s' :=
  hleads.preserves (fun _ _ hstep hs ↦ hs.step hstep) h

/-- The last capacity tried is even, and at least 2. -/
theorem capacity (h : Bounded s) : Even s.capacity ∧ 2 ≤ s.capacity := by
  rcases h.tried with htried | ⟨htried, hfour⟩
  · rw [htried]
    exact ⟨h.even_upper, h.two_le.trans h.lower_le⟩
  · have hlower := h.even_lower
    rw [← htried] at hfour hlower
    have htwo : 2 + 2 ≤ s.capacity + 2 := hfour
    exact ⟨(Nat.even_add.mp hlower).mpr even_two, Nat.le_of_add_le_add_right htwo⟩

end Bounded

/-! ## What the bounds enclose -/

/-- The capacities that pass, and the first candidate. -/
def Eligible (passes : Nat → Bool) (upper : Nat) : Set Nat :=
  {z | z = upper ∨ Even z ∧ 2 ≤ z ∧ passes z = true}

/-- What is to be found lies between the bounds. -/
structure Encloses (passes : Nat → Bool) (first : Nat) (s : SizingState) : Prop
    extends Bounded s where
  upper_le : s.upper ≤ first
  upper_mem : s.upper ∈ Eligible passes first
  lower_mem : s.lower ∈ lowerBounds (Eligible passes first)

namespace Encloses

variable {first : Nat}

/-- The bounds enclose everything at the start of the loop. -/
theorem init (heven : Even first) (hle : 2 ≤ first) : Encloses passes first ⟨2, first, first⟩ where
  toBounded := Bounded.init heven hle
  upper_le := le_rfl
  upper_mem := Or.inl rfl
  lower_mem := by
    rintro z (rfl | ⟨-, hz, -⟩)
    · exact hle
    · exact hz

/-- A round keeps what is to be found between the bounds. -/
theorem step (hmono : ∀ z z', Even z → Even z' → z ≤ z' → passes z = true → passes z' = true)
    (h : Encloses passes first s) (hstep : s.step passes = some s') :
    Encloses passes first s' := by
  obtain ⟨heven, hlower, hupper⟩ := h.probe hstep
  have hbounded := h.toBounded.step hstep
  obtain ⟨-, -, ⟨hpasses, hl, hu⟩ | ⟨hfails, hl, hu⟩⟩ := step_cases hstep
  · refine ⟨hbounded, ?_, Or.inr ⟨hu ▸ heven, hu ▸ (h.two_le.trans hlower.le), hu ▸ hpasses⟩,
      hl ▸ h.lower_mem⟩
    rw [hu]
    exact (Nat.le_of_add_right_le hupper).trans h.upper_le
  · refine ⟨hbounded, hu ▸ h.upper_le, hu ▸ h.upper_mem, ?_⟩
    rw [hl]
    rintro z (rfl | ⟨hz, -, hpasses⟩)
    · exact hupper.trans h.upper_le
    · -- the capacities up to the one that was tried fail
      by_contra hlt
      have hle : z ≤ s'.capacity := by
        have hcapacity := Nat.even_iff.mp heven
        have hz' := Nat.even_iff.mp hz
        omega
      exact Bool.false_ne_true (hfails.symm.trans (hmono z _ hz heven hle hpasses))

/-- When the bounds have met, the last capacity tried is near what is to be found. -/
theorem near (h : Encloses passes first s) (hfirst : Even first) (hend : s.step passes = none) :
    ∃ least, IsLeast (Eligible passes first) least ∧
      (s.capacity : Int) - least ∈ ({-4, -2, 0, 2} : Set Int) := by
  have hleast : IsLeast (Eligible passes first) (sInf (Eligible passes first)) :=
    ⟨Nat.sInf_mem ⟨_, h.upper_mem⟩, fun z hz ↦ Nat.sInf_le hz⟩
  refine ⟨_, hleast, ?_⟩
  generalize sInf (Eligible passes first) = least at hleast
  have hlower : s.lower ≤ least := h.lower_mem hleast.1
  have hupper : least ≤ s.upper := hleast.2 h.upper_mem
  have hmet := step_eq_none.mp hend
  have heven : Even least := by
    rcases hleast.1 with rfl | ⟨heven, -⟩
    · exact hfirst
    · exact heven
  rw [Nat.even_iff] at heven
  have hlower' := Nat.even_iff.mp h.even_lower
  have hupper' := Nat.even_iff.mp h.even_upper
  simp only [Set.mem_insert_iff, Set.mem_singleton_iff]
  rcases h.tried with htried | ⟨htried, -⟩
  · omega
  · omega

end Encloses

/-! ## The search -/

variable {candidate : Nat}

/-- Up to 4 nothing is tried. -/
theorem sizingSearch_of_le (h : toEvenUp candidate ≤ 4) :
    sizingSearch passes candidate = max 2 (toEvenUp candidate) := by
  rw [sizingSearch]
  exact if_pos h

theorem sizingSearch_of_lt (h : 4 < toEvenUp candidate) : sizingSearch passes candidate =
    (sizingLoop passes ⟨2, toEvenUp candidate, toEvenUp candidate⟩).capacity := by
  rw [sizingSearch]
  exact if_neg (not_le.mpr h)

/-- The result is even and at least 2, whatever the test. -/
theorem even_sizingSearch (passes : Nat → Bool) (candidate : Nat) :
    Even (sizingSearch passes candidate) ∧ 2 ≤ sizingSearch passes candidate := by
  have heven := even_toEvenUp candidate
  rcases Nat.lt_or_ge 4 (toEvenUp candidate) with hlt | hle
  · rw [sizingSearch_of_lt hlt]
    have hinit := Bounded.init heven ((by decide : 2 ≤ 4).trans hlt.le)
    exact (hinit.of_leads (leads_sizingLoop passes _).1).capacity
  · rw [sizingSearch_of_le hle]
    refine ⟨?_, le_max_left 2 _⟩
    rcases max_choice 2 (toEvenUp candidate) with hmax | hmax
    · rw [hmax]
      exact even_two
    · rw [hmax]
      exact heven

/-- When the first candidate is at most 4 the result is even and at least 2.  Otherwise the loop
ends, and everything that it tries is even and strictly between the bounds; and when larger
capacities pass wherever smaller ones do, what it returns differs by -4, -2, 0 or 2 from the least
even capacity that passes, or from the first candidate if no smaller one passes. -/
theorem sizingSearch_spec (passes : Nat → Bool) (candidate : Nat)
    (hmono : ∀ z z', Even z → Even z' → z ≤ z' → passes z = true → passes z' = true) :
    (toEvenUp candidate < 6 →
      Even (sizingSearch passes candidate) ∧ 2 ≤ sizingSearch passes candidate) ∧
    (6 ≤ toEvenUp candidate →
      (∃ s, (⟨2, toEvenUp candidate, toEvenUp candidate⟩ : SizingState).Leads passes s ∧
        s.step passes = none ∧ sizingSearch passes candidate = s.capacity) ∧
      (∀ s s', (⟨2, toEvenUp candidate, toEvenUp candidate⟩ : SizingState).Leads passes s →
        s.step passes = some s' →
        Even s'.capacity ∧ s.lower < s'.capacity ∧ s'.capacity < s.upper) ∧
      ∃ least, IsLeast (Eligible passes (toEvenUp candidate)) least ∧
        (sizingSearch passes candidate : Int) - least ∈ ({-4, -2, 0, 2} : Set Int)) := by
  refine ⟨fun _ ↦ even_sizingSearch passes candidate, fun hsix ↦ ?_⟩
  have hfour : 4 < toEvenUp candidate := (by decide : 4 < 6).trans_le hsix
  have htwo : 2 ≤ toEvenUp candidate := (by decide : 2 ≤ 6).trans hsix
  have heven := even_toEvenUp candidate
  obtain ⟨hleads, hend⟩ :=
    leads_sizingLoop passes ⟨2, toEvenUp candidate, toEvenUp candidate⟩
  rw [sizingSearch_of_lt hfour]
  refine ⟨⟨_, hleads, hend, rfl⟩, fun s s' hs hstep ↦ ?_, ?_⟩
  · obtain ⟨hprobe, hlower, hupper⟩ := ((Bounded.init heven htwo).of_leads hs).probe hstep
    exact ⟨hprobe, hlower, Nat.lt_of_succ_lt hupper⟩
  · have hencloses := hleads.preserves (fun _ _ hstep hs ↦ Encloses.step hmono hs hstep)
      (Encloses.init heven htwo)
    exact hencloses.near heven hend

/-- A search that ends above the least capacity that passes, which it has never tried. -/
theorem sizingSearch_spec_twelve : sizingSearch (fun z ↦ 12 ≤ z) 99 = 14 ∧
    ∃ least, IsLeast (Eligible (fun z ↦ 12 ≤ z) 100) least ∧
      (sizingSearch (fun z ↦ 12 ≤ z) 99 : Int) - least ∈ ({-4, -2, 0, 2} : Set Int) := by
  refine ⟨by decide +kernel, ?_⟩
  have hspec := sizingSearch_spec (fun z ↦ 12 ≤ z) 99 fun z z' _ _ hle hpasses ↦
    decide_eq_true ((of_decide_eq_true hpasses).trans hle)
  exact (hspec.2 (by decide)).2.2

end EnhancedLetIndex
