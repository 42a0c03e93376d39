import EnhancedLetIndex.Basic.Bisect
import EnhancedLetIndex.Basic.EState

/-!
# Branchless binary search through a buffer

A lower bound that halves a window of candidates without comparing its ends: every probe keeps
either half, until one candidate is left.  The values are not at hand but read by a program,
and every probe of the window keeps an invariant of its state (a buffer, a log of accesses).
-/

namespace EnhancedLetIndex

variable {ε σ α β : Type}

/-! ## Programs that keep an invariant -/

/-- From every state with `I`, the program returns `a` in a state with `I`. -/
def Keeps (I : σ → Prop) (x : EStateM ε σ α) (a : α) : Prop :=
  ∀ s, I s → ∃ s', x.run s = .ok a s' ∧ I s'

namespace Keeps

variable {I : σ → Prop}

theorem pure (a : α) : Keeps I (pure a : EStateM ε σ α) a := fun s hs ↦ ⟨s, rfl, hs⟩

theorem bind {x : EStateM ε σ α} {a : α} {f : α → EStateM ε σ β} {b : β} (hx : Keeps I x a)
    (hf : Keeps I (f a) b) : Keeps I (x >>= f) b := by
  intro s hs
  obtain ⟨t, ht, hIt⟩ := hx s hs
  obtain ⟨s', hs', hIs'⟩ := hf t hIt
  exact ⟨s', by rw [run_bind_of_ok ht, hs'], hIs'⟩

theorem get {f : σ → EStateM ε σ β} {b : β} (hf : ∀ s, I s → Keeps I (f s) b) :
    Keeps I (MonadState.get >>= f) b := fun s hs ↦ hf s hs s hs

theorem modify {f : σ → σ} (hf : ∀ s, I s → I (f s)) :
    Keeps I (modify f : EStateM ε σ PUnit) ⟨⟩ := fun s hs ↦ ⟨f s, rfl, hf s hs⟩

theorem liftExcept {ε' : Type} {wrap : ε' → ε} {x : Except ε' α} {a : α} (hx : x = .ok a) :
    Keeps I (liftExcept wrap x : EStateM ε σ α) a := by
  subst hx
  exact fun s hs ↦ ⟨s, rfl, hs⟩

end Keeps

/-! ## The search -/

section Halve

variable (p : α → Bool) (obtain' : Nat → EStateM ε σ α)

/-- The halving loop: `n` candidates from `first` on, `fuel` bounding the number of probes. -/
def halve : Nat → Nat → Nat → EStateM ε σ Nat
  | 0, first, _ => pure first
  | fuel + 1, first, n =>
    if n > 1 then do
      let x ← obtain' (first + n / 2)
      halve fuel (if p x then first + n / 2 else first) (n - n / 2)
    else pure first

/-- The last probe of a lower bound: `first` is the answer or right before it. -/
def settle (first : Nat) : EStateM ε σ Nat := do
  let x ← obtain' first
  pure (first + if p x then 1 else 0)

variable {p obtain'} {I : σ → Prop} {l : List α} {r lo hi : Nat}

/-- One probe keeps the answer within the candidates. -/
theorem IsCut.halve_step (hcut : IsCut p l r) (first : Nat) {n : Nat} (hn : 1 < n)
    (hlen : first + n ≤ l.length) (hfirst : first ≤ r) (hlast : r ≤ first + n) :
    let first' := if p (l.get ⟨first + n / 2, by omega⟩) then first + n / 2 else first
    first ≤ first' ∧ first' + (n - n / 2) ≤ first + n ∧ first' ≤ r ∧
      r ≤ first' + (n - n / 2) := by
  intro first'
  have hmid := hcut.iff_lt (first + n / 2) (by omega)
  by_cases hp : p (l.get ⟨first + n / 2, by omega⟩) = true
  · have hlt := hmid.mp hp
    have hfirst' : first' = first + n / 2 := if_pos hp
    omega
  · have hge : ¬ first + n / 2 < r := fun hlt ↦ hp (hmid.mpr hlt)
    have hfirst' : first' = first := if_neg hp
    omega

/-- The loop ends at the answer or right before it, inside its window. -/
theorem IsCut.keeps_halve (hcut : IsCut p l r)
    (hobtain : ∀ pos (h : pos < l.length), lo ≤ pos → pos < hi →
      Keeps I (obtain' pos) (l.get ⟨pos, h⟩)) (hhi : hi ≤ l.length) {fuel first n : Nat}
    (hfuel : n ≤ fuel) (hpos : 0 < n) (hlo : lo ≤ first) (hlast : first + n ≤ hi)
    (hle : first ≤ r) (hge : r ≤ first + n) :
    ∃ f, Keeps I (halve p obtain' fuel first n) f ∧ lo ≤ f ∧ f < hi ∧ f ≤ r ∧ r ≤ f + 1 := by
  induction fuel generalizing first n with
  | zero => omega
  | succ fuel ih =>
    rw [halve]
    by_cases hn : n > 1
    · rw [if_pos hn]
      obtain ⟨h₁, h₂, h₃, h₄⟩ := hcut.halve_step first hn (by omega) hle hge
      obtain ⟨f, hf, hrest⟩ := ih (n := n - n / 2) (by omega) (by omega)
        (hlo.trans h₁) (h₂.trans hlast) h₃ h₄
      exact ⟨f, (hobtain _ (by omega) (by omega) (by omega)).bind hf, hrest⟩
    · rw [if_neg hn]
      exact ⟨first, Keeps.pure _, hlo, by omega, hle, by omega⟩

/-- The last probe finds the answer. -/
theorem IsCut.run_settle (hcut : IsCut p l r) {first : Nat} (hlen : first < l.length) {s s' : σ}
    (hobtain : (obtain' first).run s = .ok (l.get ⟨first, hlen⟩) s') (hle : first ≤ r)
    (hge : r ≤ first + 1) : (settle p obtain' first).run s = .ok r s' := by
  have hfirst := hcut.iff_lt first hlen
  have hr : (first + if p (l.get ⟨first, hlen⟩) then 1 else 0) = r := by
    by_cases hp : p (l.get ⟨first, hlen⟩) = true
    · rw [if_pos hp]
      exact le_antisymm (hfirst.mp hp) hge
    · rw [if_neg hp]
      exact le_antisymm hle (not_lt.mp fun hlt ↦ hp (hfirst.mpr hlt))
  rw [settle, run_bind_of_ok hobtain, hr]
  rfl

end Halve

end EnhancedLetIndex
