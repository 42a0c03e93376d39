import Mathlib.Tactic

/-!
# Greedy cuts are fewest

An interval of positions is cut into runs that each satisfy `P`.  When `P` passes to every part
of a run, cutting as late as possible (`Greedy`) gives as few runs as any way to cut
(`Greedy.isLeast`).
-/

namespace EnhancedLetIndex

variable {P : Nat → Nat → Prop}

/-- The positions `a..b-1` are cut into `k` runs `i..j-1`, each with `P i j`. -/
inductive Splits (P : Nat → Nat → Prop) (b : Nat) : Nat → Nat → Prop
  | done : Splits P b b 0
  | cut {a m k : Nat} (hlt : a < m) (hrun : P a m) (hrest : Splits P b m k) : Splits P b a (k + 1)

/-- The cuts are as late as possible: every run but the last is too long with one more
position. -/
inductive Greedy (P : Nat → Nat → Prop) (b : Nat) : Nat → Nat → Prop
  | done : Greedy P b b 0
  | cut {a m k : Nat} (hlt : a < m) (hrun : P a m) (hmax : m < b → ¬ P a (m + 1))
      (hrest : Greedy P b m k) : Greedy P b a (k + 1)

/-- Runs that may be shortened at either end. -/
def Hereditary (P : Nat → Nat → Prop) : Prop :=
  ∀ ⦃a a' b b'⦄, P a b → a ≤ a' → b' ≤ b → P a' b'

namespace Splits

variable {a b k : Nat}

theorem le (h : Splits P b a k) : a ≤ b := by
  induction h with
  | done => exact le_rfl
  | cut hlt _ _ ih => exact hlt.le.trans ih

end Splits

namespace Greedy

variable {a a' b j k : Nat}

theorem splits (h : Greedy P b a k) : Splits P b a k := by
  induction h with
  | done => exact .done
  | cut hlt hrun _ _ ih => exact .cut hlt hrun ih

/-- Greedy cuts stay ahead: from no earlier a position on, they are no more than any others. -/
theorem le_of_splits (hP : Hereditary P) (h : Greedy P b a k) (h' : Splits P b a' j)
    (ha : a' ≤ a) : k ≤ j := by
  induction h generalizing a' j with
  | done => exact Nat.zero_le j
  | @cut a m k hlt hrun hmax hrest ih =>
    induction h' with
    | done => exact absurd (hlt.trans_le hrest.splits.le) (not_lt.mpr ha)
    | @cut a' m' j hlt' hrun' hrest' ih' =>
      rcases le_or_gt m' a with hle | hgt
      · -- the other run ends before this one starts
        exact (ih' hle).trans (Nat.le_succ j)
      · refine Nat.succ_le_succ (ih hrest' ?_)
        by_contra hlonger
        have hmb : m < b := (not_le.mp hlonger).trans_le hrest'.le
        exact hmax hmb (hP hrun' ha (not_le.mp hlonger))

/-- The number of greedy cuts is the least number of runs. -/
theorem isLeast (hP : Hereditary P) (h : Greedy P b a k) : IsLeast {j | Splits P b a j} k :=
  ⟨h.splits, fun _ h' ↦ h.le_of_splits hP h' le_rfl⟩

end Greedy

end EnhancedLetIndex
