import Mathlib.Tactic

/-!
# Programs that keep their state when they fail

An exception of the source leaves behind whatever its caller has changed so far, so the
programs here are `EStateM`: a result or an error, each with the state reached.  The rules
below run a sequence step by step and take a finished run apart.

`Along R x` is the rule for what no step can break: every run of `x`, whether it returns or
fails, relates its two states by `R`.  `zoom` runs a program on one part of a larger state.
-/

namespace EnhancedLetIndex

universe u

variable {ε ε' σ τ α β : Type u}

/-! ## Running a sequence -/

/-- The state a run ends in. -/
def finalState : EStateM.Result ε σ α → σ
  | .ok _ s => s
  | .error _ s => s

@[simp] theorem finalState_ok (a : α) (s : σ) :
    finalState (.ok a s : EStateM.Result ε σ α) = s := rfl

@[simp] theorem finalState_error (e : ε) (s : σ) :
    finalState (.error e s : EStateM.Result ε σ α) = s := rfl

/-- What a run returns or raises. -/
def outcome : EStateM.Result ε σ α → Except ε α
  | .ok a _ => .ok a
  | .error e _ => .error e

@[simp] theorem outcome_ok (a : α) (s : σ) :
    outcome (.ok a s : EStateM.Result ε σ α) = .ok a := rfl

@[simp] theorem outcome_error (e : ε) (s : σ) :
    outcome (.error e s : EStateM.Result ε σ α) = .error e := rfl

theorem outcome_eq_ok {r : EStateM.Result ε σ α} {a : α} :
    outcome r = .ok a ↔ r = .ok a (finalState r) := by
  cases r <;> simp

@[simp] theorem run_throw' (e : ε) (s : σ) :
    (throw e : EStateM ε σ α).run s = .error e s := rfl

theorem run_bind_of_ok {x : EStateM ε σ α} {s s' : σ} {a : α} (h : x.run s = .ok a s')
    (f : α → EStateM ε σ β) : (x >>= f).run s = (f a).run s' := by
  rw [EStateM.run_bind, h]

theorem run_bind_of_error {x : EStateM ε σ α} {s s' : σ} {e : ε} (h : x.run s = .error e s')
    (f : α → EStateM ε σ β) : (x >>= f).run s = .error e s' := by
  rw [EStateM.run_bind, h]

theorem run_get_bind (f : σ → EStateM ε σ α) (s : σ) : (get >>= f).run s = (f s).run s := rfl

theorem run_modify_bind (g : σ → σ) (f : PUnit → EStateM ε σ α) (s : σ) :
    (modify g >>= f).run s = (f ⟨⟩).run (g s) := rfl

/-- A sequence returns exactly when both of its parts do. -/
theorem run_bind_eq_ok {x : EStateM ε σ α} {f : α → EStateM ε σ β} {s s' : σ} {b : β} :
    (x >>= f).run s = .ok b s' ↔ ∃ a t, x.run s = .ok a t ∧ (f a).run t = .ok b s' := by
  cases h : x.run s with
  | ok a t => simp [run_bind_of_ok h]
  | error e t => simp [run_bind_of_error h]

/-- What follows a check runs when the check does not raise. -/
theorem run_guard_eq_ok {c : Prop} {_ : Decidable c} {err : ε} {x : EStateM ε σ α} {s s' : σ}
    {a : α} :
    (if c then throw err else x : EStateM ε σ α).run s = .ok a s' ↔ ¬ c ∧ x.run s = .ok a s' := by
  split_ifs with h
  · refine iff_of_false ?_ fun hx ↦ hx.1 h
    rintro ⟨⟩
  · rw [and_iff_right h]

theorem finalState_bind_pure (x : EStateM ε σ α) (f : α → β) (s : σ) :
    finalState ((x >>= fun a ↦ pure (f a)).run s) = finalState (x.run s) := by
  cases h : x.run s with
  | ok a t => rw [run_bind_of_ok h]; rfl
  | error e t => rw [run_bind_of_error h]; rfl

/-- A handler runs in the state the failed program has left behind. -/
theorem run_tryCatch' (x : EStateM ε σ α) (handle : ε → EStateM ε σ α) (s : σ) :
    (tryCatch x handle).run s = match x.run s with
      | .ok a t => .ok a t
      | .error e t => (handle e).run t := by
  change EStateM.tryCatch x handle s = _
  unfold EStateM.tryCatch EStateM.run
  cases x s <;> rfl

theorem run_tryCatch_of_ok {x : EStateM ε σ α} {s s' : σ} {a : α} (h : x.run s = .ok a s')
    (handle : ε → EStateM ε σ α) : (tryCatch x handle).run s = .ok a s' := by
  rw [run_tryCatch', h]

theorem run_tryCatch_of_error {x : EStateM ε σ α} {s s' : σ} {e : ε}
    (h : x.run s = .error e s') (handle : ε → EStateM ε σ α) :
    (tryCatch x handle).run s = (handle e).run s' := by
  rw [run_tryCatch', h]

/-! ## Relations along every run -/

/-- Every run of `x` relates the state it starts in and the one it ends in. -/
def Along (R : σ → σ → Prop) (x : EStateM ε σ α) : Prop := ∀ s, R s (finalState (x.run s))

namespace Along

variable {R : σ → σ → Prop}

theorem pure (hrefl : ∀ s, R s s) (a : α) : Along R (pure a : EStateM ε σ α) := hrefl

theorem throw (hrefl : ∀ s, R s s) (e : ε) : Along R (throw e : EStateM ε σ α) := hrefl

theorem get (hrefl : ∀ s, R s s) : Along R (get : EStateM ε σ σ) := hrefl

theorem bind (htrans : ∀ s t u, R s t → R t u → R s u) {x : EStateM ε σ α}
    {f : α → EStateM ε σ β} (hx : Along R x) (hf : ∀ a, Along R (f a)) : Along R (x >>= f) := by
  intro s
  have hs := hx s
  cases h : x.run s with
  | ok a t => rw [h] at hs; rw [run_bind_of_ok h]; exact htrans _ _ _ hs (hf a t)
  | error e t => rw [h] at hs; rw [run_bind_of_error h]; exact hs

theorem tryCatch (htrans : ∀ s t u, R s t → R t u → R s u) {x : EStateM ε σ α}
    {handle : ε → EStateM ε σ α} (hx : Along R x) (hh : ∀ e, Along R (handle e)) :
    Along R (tryCatch x handle) := by
  intro s
  have hs := hx s
  cases h : x.run s with
  | ok a t => rw [h] at hs; rw [run_tryCatch_of_ok h]; exact hs
  | error e t => rw [h] at hs; rw [run_tryCatch_of_error h]; exact htrans _ _ _ hs (hh e t)

theorem ite {c : Prop} [Decidable c] {x y : EStateM ε σ α} (hx : Along R x) (hy : Along R y) :
    Along R (if c then x else y) := by split <;> assumption

/-- `if c then throw e` before the rest of a program. -/
theorem guard (hrefl : ∀ s, R s s) (htrans : ∀ s t u, R s t → R t u → R s u) {c : Prop}
    {_ : Decidable c} {e : ε} {f : PUnit → EStateM ε σ β} (hf : Along R (f ⟨⟩)) :
    Along R (if c then MonadExcept.throw e >>= f else f ⟨⟩) := by
  split
  · exact (throw hrefl e).bind htrans fun _ ↦ hf
  · exact hf

theorem mapM (hrefl : ∀ s, R s s) (htrans : ∀ s t u, R s t → R t u → R s u)
    {f : α → EStateM ε σ β} (hf : ∀ a, Along R (f a)) (l : List α) : Along R (l.mapM f) := by
  induction l with
  | nil => exact pure hrefl _
  | cons a l ih =>
    rw [List.mapM_cons]
    exact bind htrans (hf a) fun b ↦ bind htrans ih fun bs ↦ pure hrefl _

/-- What follows the first part of a sequence. -/
theorem after_bind (hrefl : ∀ s, R s s) (x : EStateM ε σ α) {f : α → EStateM ε σ β}
    (hf : ∀ a, Along R (f a)) (s : σ) :
    R (finalState (x.run s)) (finalState ((x >>= f).run s)) := by
  cases h : x.run s with
  | ok a t => rw [run_bind_of_ok h]; exact hf a t
  | error e t => rw [run_bind_of_error h]; exact hrefl t

/-- What a handler adds. -/
theorem after_tryCatch (hrefl : ∀ s, R s s) (x : EStateM ε σ α) {handle : ε → EStateM ε σ α}
    (hh : ∀ e, Along R (handle e)) (s : σ) :
    R (finalState (x.run s)) (finalState ((MonadExcept.tryCatch x handle).run s)) := by
  cases h : x.run s with
  | ok a t => rw [run_tryCatch_of_ok h]; exact hrefl t
  | error e t => rw [run_tryCatch_of_error h]; exact hh e t

theorem of_run_eq_ok {x : EStateM ε σ α} (h : Along R x) {s s' : σ} {a : α}
    (hx : x.run s = .ok a s') : R s s' := by simpa [hx] using h s

theorem of_run_eq_error {x : EStateM ε σ α} (h : Along R x) {s s' : σ} {e : ε}
    (hx : x.run s = .error e s') : R s s' := by simpa [hx] using h s

end Along

/-- Every run of `x` that returns relates the state it starts in and the one it ends in. -/
def Returns (R : σ → σ → Prop) (x : EStateM ε σ α) : Prop :=
  ∀ s a s', x.run s = .ok a s' → R s s'

namespace Returns

variable {R : σ → σ → Prop}

theorem of_along {x : EStateM ε σ α} (h : Along R x) : Returns R x :=
  fun _ _ _ hx ↦ h.of_run_eq_ok hx

theorem bind (htrans : ∀ s t u, R s t → R t u → R s u) {x : EStateM ε σ α}
    {f : α → EStateM ε σ β} (hx : Returns R x) (hf : ∀ a, Returns R (f a)) :
    Returns R (x >>= f) := by
  intro s b u h
  obtain ⟨a, t, ha, hb⟩ := run_bind_eq_ok.mp h
  exact htrans _ _ _ (hx s a t ha) (hf a t b u hb)

theorem guard {c : Prop} {_ : Decidable c} {e : ε} {f : PUnit → EStateM ε σ β}
    (hf : Returns R (f ⟨⟩)) : Returns R (if c then MonadExcept.throw e >>= f else f ⟨⟩) := by
  split
  · intro s b s' h
    cases h
  · exact hf

/-- A handler that never returns. -/
theorem tryCatch {x : EStateM ε σ α} {handle : ε → EStateM ε σ α} (hx : Returns R x)
    (hh : ∀ e s a s', (handle e).run s ≠ .ok a s') : Returns R (tryCatch x handle) := by
  intro s a s' h
  cases hrun : x.run s with
  | ok b t => rw [run_tryCatch_of_ok hrun] at h; cases h; exact hx s _ _ hrun
  | error e t => rw [run_tryCatch_of_error hrun] at h; exact absurd h (hh e t a s')

end Returns

/-! ## Programs over a list -/

/-- A program over a list that returns without changing the state. -/
theorem run_mapM_eq_ok {f : α → EStateM ε σ β} {g : σ → α → β}
    (hf : ∀ a s b s', (f a).run s = .ok b s' → s' = s ∧ b = g s a) {l : List α} {s s' : σ}
    {bs : List β} (h : (l.mapM f).run s = .ok bs s') : s' = s ∧ bs = l.map (g s) := by
  induction l generalizing bs s' with
  | nil =>
    cases h
    exact ⟨rfl, rfl⟩
  | cons a l ih =>
    rw [List.mapM_cons] at h
    obtain ⟨b, t, hb, h⟩ := run_bind_eq_ok.mp h
    obtain ⟨rfl, rfl⟩ := hf _ _ _ _ hb
    obtain ⟨bs', t', hbs, h⟩ := run_bind_eq_ok.mp h
    obtain ⟨rfl, rfl⟩ := ih hbs
    cases h
    exact ⟨rfl, rfl⟩

/-- A program that checks every element of a list, when what it checks does not depend on how
it changes the state. -/
theorem run_forM_eq_ok {R : σ → σ → Prop} (hrefl : ∀ s, R s s)
    (htrans : ∀ s t u, R s t → R t u → R s u) {P : σ → α → Prop}
    (hP : ∀ s t a, R s t → P t a → P s a) {f : α → EStateM ε σ PUnit}
    (hf : ∀ a s s', (f a).run s = .ok ⟨⟩ s' → R s s' ∧ P s a) {l : List α} {s s' : σ}
    (h : (l.forM f).run s = .ok ⟨⟩ s') : R s s' ∧ ∀ a ∈ l, P s a := by
  induction l generalizing s with
  | nil =>
    cases h
    exact ⟨hrefl _, List.forall_mem_nil _⟩
  | cons a l ih =>
    obtain ⟨_, t, ha, h⟩ := run_bind_eq_ok.mp h
    obtain ⟨hst, hPa⟩ := hf _ _ _ ha
    obtain ⟨hts, hPl⟩ := ih h
    refine ⟨htrans _ _ _ hst hts, List.forall_mem_cons.mpr ⟨hPa, fun b hb ↦ ?_⟩⟩
    exact hP _ _ _ hst (hPl b hb)

/-- A loop returns when every round returns and keeps an invariant. -/
theorem exists_run_forM {I : σ → Prop} {f : α → EStateM ε σ PUnit} {l : List α}
    (hf : ∀ a ∈ l, ∀ s, I s → ∃ s', (f a).run s = .ok ⟨⟩ s' ∧ I s') {s : σ} (hs : I s) :
    ∃ s', (l.forM f).run s = .ok ⟨⟩ s' ∧ I s' := by
  induction l generalizing s with
  | nil => exact ⟨s, rfl, hs⟩
  | cons a l ih =>
    obtain ⟨ha, hl⟩ := List.forall_mem_cons.mp hf
    obtain ⟨t, hrun, ht⟩ := ha s hs
    obtain ⟨s', hrest, hs'⟩ := ih hl ht
    exact ⟨s', (run_bind_of_ok hrun _).trans hrest, hs'⟩

/-- The same for a loop that collects what its rounds return. -/
theorem exists_run_mapM {I : σ → Prop} {f : α → EStateM ε σ β} {l : List α}
    (hf : ∀ a ∈ l, ∀ s, I s → ∃ b s', (f a).run s = .ok b s' ∧ I s') {s : σ} (hs : I s) :
    ∃ bs s', (l.mapM f).run s = .ok bs s' ∧ I s' := by
  induction l generalizing s with
  | nil => exact ⟨[], s, rfl, hs⟩
  | cons a l ih =>
    obtain ⟨ha, hl⟩ := List.forall_mem_cons.mp hf
    obtain ⟨b, t, hrun, ht⟩ := ha s hs
    obtain ⟨bs, s', hrest, hs'⟩ := ih hl ht
    refine ⟨b :: bs, s', ?_, hs'⟩
    rw [List.mapM_cons, run_bind_of_ok hrun, run_bind_of_ok hrest]
    rfl

/-- A loop of checks raises as soon as one of them does. -/
theorem exists_run_forM_error {f : α → EStateM ε σ PUnit} {l : List α} {s : σ}
    (hf : ∀ a ∈ l, (f a).run s = .ok ⟨⟩ s ∨ ∃ e, (f a).run s = .error e s)
    (herror : ∃ a ∈ l, ∃ e, (f a).run s = .error e s) : ∃ e, (l.forM f).run s = .error e s := by
  induction l with
  | nil =>
    obtain ⟨a, ha, -⟩ := herror
    cases ha
  | cons a l ih =>
    obtain ⟨ha, hl⟩ := List.forall_mem_cons.mp hf
    by_cases hraises : ∃ e, (f a).run s = .error e s
    · obtain ⟨e, hrun⟩ := hraises
      exact ⟨e, run_bind_of_error hrun _⟩
    · obtain ⟨a', ha', herror⟩ := herror
      rcases List.mem_cons.mp ha' with rfl | ha'
      · exact absurd herror hraises
      · obtain ⟨e, hrest⟩ := ih hl ⟨a', ha', herror⟩
        exact ⟨e, (run_bind_of_ok (ha.resolve_right hraises) _).trans hrest⟩

/-! ## Parts of a state -/

/-- Run a program on the part `get` of a state, its errors wrapped. -/
def zoom (get : σ → τ) (put : τ → σ → σ) (wrap : ε' → ε) (x : EStateM ε' τ α) :
    EStateM ε σ α := fun s ↦
  match x.run (get s) with
  | .ok a t => .ok a (put t s)
  | .error e t => .error (wrap e) (put t s)

theorem run_zoom_of_ok {get : σ → τ} {put : τ → σ → σ} {wrap : ε' → ε} {x : EStateM ε' τ α}
    {s : σ} {a : α} {t : τ} (h : x.run (get s) = .ok a t) :
    (zoom get put wrap x).run s = .ok a (put t s) := by
  change (match x.run (get s) with | .ok a t => _ | .error e t => _ : EStateM.Result ε σ α) = _
  rw [h]

theorem run_zoom_of_error {get : σ → τ} {put : τ → σ → σ} {wrap : ε' → ε} {x : EStateM ε' τ α}
    {s : σ} {e : ε'} {t : τ} (h : x.run (get s) = .error e t) :
    (zoom get put wrap x).run s = .error (wrap e) (put t s) := by
  change (match x.run (get s) with | .ok a t => _ | .error e t => _ : EStateM.Result ε σ α) = _
  rw [h]

/-- A program on a part of a state returns when it does so on the part alone. -/
theorem run_zoom_eq_ok {get : σ → τ} {put : τ → σ → σ} {wrap : ε' → ε} {x : EStateM ε' τ α}
    {s s' : σ} {a : α} : (zoom get put wrap x).run s = .ok a s' ↔
      ∃ t, x.run (get s) = .ok a t ∧ s' = put t s := by
  cases h : x.run (get s) with
  | ok b t =>
    rw [run_zoom_of_ok h]
    constructor
    · rintro ⟨⟩
      exact ⟨t, rfl, rfl⟩
    · rintro ⟨_, ⟨⟩, rfl⟩
      rfl
  | error e t =>
    rw [run_zoom_of_error h]
    constructor
    · rintro ⟨⟩
    · rintro ⟨_, ⟨⟩, -⟩

theorem Along.zoom {R : σ → σ → Prop} {get : σ → τ} {put : τ → σ → σ} {wrap : ε' → ε}
    {x : EStateM ε' τ α} (h : ∀ s, R s (put (finalState (x.run (get s))) s)) :
    Along R (zoom get put wrap x) := by
  intro s
  have hs := h s
  cases hx : x.run (get s) with
  | ok a t =>
    rw [run_zoom_of_ok hx]
    rwa [hx] at hs
  | error e t =>
    rw [run_zoom_of_error hx]
    rwa [hx] at hs

/-- Run a function that cannot change the state, its errors wrapped. -/
def liftExcept (wrap : ε' → ε) (x : Except ε' α) : EStateM ε σ α := fun s ↦
  match x with
  | .ok a => .ok a s
  | .error e => .error (wrap e) s

@[simp] theorem run_liftExcept_ok (wrap : ε' → ε) (a : α) (s : σ) :
    (liftExcept wrap (.ok a) : EStateM ε σ α).run s = .ok a s := rfl

@[simp] theorem run_liftExcept_error (wrap : ε' → ε) (e : ε') (s : σ) :
    (liftExcept wrap (.error e) : EStateM ε σ α).run s = .error (wrap e) s := rfl

theorem liftExcept_eq_ok {wrap : ε' → ε} {x : Except ε' α} {s s' : σ} {a : α} :
    (liftExcept wrap x : EStateM ε σ α).run s = .ok a s' ↔ x = .ok a ∧ s' = s := by
  cases x with
  | ok b =>
    constructor
    · rintro ⟨⟩
      exact ⟨rfl, rfl⟩
    · rintro ⟨⟨⟩, rfl⟩
      rfl
  | error e =>
    constructor
    · rintro ⟨⟩
    · rintro ⟨⟨⟩, -⟩

/-- What follows a function that cannot change the state runs in the same state. -/
theorem run_liftExcept_bind_eq_ok {wrap : ε' → ε} {x : Except ε' α} {f : α → EStateM ε σ β}
    {s s' : σ} {b : β} : (liftExcept wrap x >>= f).run s = .ok b s' ↔
      ∃ a, x = .ok a ∧ (f a).run s = .ok b s' := by
  cases x with
  | ok a =>
    rw [run_bind_of_ok (run_liftExcept_ok wrap a s)]
    simp
  | error e =>
    rw [run_bind_of_error (run_liftExcept_error wrap e s)]
    simp

theorem Along.liftExcept {R : σ → σ → Prop} (hrefl : ∀ s, R s s) (wrap : ε' → ε)
    (x : Except ε' α) : Along R (liftExcept wrap x : EStateM ε σ α) := by
  intro s
  cases x <;> exact hrefl s

end EnhancedLetIndex
