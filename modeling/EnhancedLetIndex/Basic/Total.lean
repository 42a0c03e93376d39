import EnhancedLetIndex.Basic.EState

/-!
# Programs that return

`Ensures P x Q` is total correctness: from every state with `P` the program returns, and its result
and the state it ends in satisfy `Q`.  There is one rule for each construct, and a loop is treated
with an invariant of what it carries and of the state.
-/

namespace EnhancedLetIndex

universe u

variable {ε σ α β : Type u}

/-- From a state with `P` the program returns, and then `Q` holds. -/
def Ensures (P : σ → Prop) (x : EStateM ε σ α) (Q : α → σ → Prop) : Prop :=
  ∀ s, P s → ∃ a s', x.run s = .ok a s' ∧ Q a s'

namespace Ensures

variable {P P' : σ → Prop} {Q Q' : α → σ → Prop} {R : β → σ → Prop} {φ : Prop}

theorem pure {a : α} (h : ∀ s, P s → Q a s) : Ensures P (pure a : EStateM ε σ α) Q :=
  fun s hs ↦ ⟨a, s, rfl, h s hs⟩

theorem bind {x : EStateM ε σ α} {f : α → EStateM ε σ β} (hx : Ensures P x Q)
    (hf : ∀ a, Ensures (Q a) (f a) R) : Ensures P (x >>= f) R := by
  intro s hs
  obtain ⟨a, t, hrun, ht⟩ := hx s hs
  obtain ⟨b, u, hrun', hu⟩ := hf a t ht
  exact ⟨b, u, (run_bind_of_ok hrun f).trans hrun', hu⟩

theorem conseq {x : EStateM ε σ α} (h : Ensures P x Q) (hP : ∀ s, P' s → P s)
    (hQ : ∀ a s, Q a s → Q' a s) : Ensures P' x Q' := by
  intro s hs
  obtain ⟨a, t, hrun, ht⟩ := h s (hP s hs)
  exact ⟨a, t, hrun, hQ a t ht⟩

/-- What does not depend on the state can be assumed. -/
theorem of_fact {x : EStateM ε σ α} (h : φ → Ensures P x Q) :
    Ensures (fun s ↦ φ ∧ P s) x Q := fun s hs ↦ h hs.1 s hs.2

/-- A state that there is can be given a name. -/
theorem of_exists {ι : Sort*} {I : ι → σ → Prop} {x : EStateM ε σ α}
    (h : ∀ i, Ensures (I i) x Q) : Ensures (fun s ↦ ∃ i, I i s) x Q :=
  fun s ⟨i, hs⟩ ↦ h i s hs

theorem get : Ensures P (MonadStateOf.get : EStateM ε σ σ) fun a s ↦ a = s ∧ P s :=
  fun s hs ↦ ⟨s, s, rfl, rfl, hs⟩

theorem modifyGet {f : σ → α × σ} (h : ∀ s, P s → Q (f s).1 (f s).2) :
    Ensures P (modifyGet f : EStateM ε σ α) Q := fun s hs ↦ ⟨(f s).1, (f s).2, rfl, h s hs⟩

theorem ite {c : Prop} [Decidable c] {x y : EStateM ε σ α} (hx : c → Ensures P x Q)
    (hy : ¬ c → Ensures P y Q) : Ensures P (if c then x else y) Q := by
  split_ifs with hc
  · exact hx hc
  · exact hy hc

/-- A loop whose rounds keep an invariant of what they hand on and of the state. -/
theorem foldlM {I : β → σ → Prop} {f : β → α → EStateM ε σ β} {l : List α}
    (hf : ∀ b, ∀ a ∈ l, Ensures (I b) (f b a) I) (b : β) : Ensures (I b) (l.foldlM f b) I := by
  induction l generalizing b with
  | nil => exact .pure fun _ hs ↦ hs
  | cons a l ih =>
    rw [List.foldlM_cons]
    refine .bind (hf b a List.mem_cons_self) fun b' ↦ ih (fun b'' a' ha' ↦ ?_) b'
    exact hf b'' a' (List.mem_cons_of_mem a ha')

/-- A loop whose rounds keep an invariant of the state. -/
theorem forM {I : σ → Prop} {f : α → EStateM ε σ PUnit} {l : List α}
    (hf : ∀ a ∈ l, Ensures I (f a) fun _ ↦ I) : Ensures I (l.forM f) fun _ ↦ I := by
  intro s hs
  obtain ⟨s', hrun, hs'⟩ := exists_run_forM (fun a ha t ht ↦ by
    obtain ⟨_, t', hrun, ht'⟩ := hf a ha t ht
    exact ⟨t', hrun, ht'⟩) hs
  exact ⟨⟨⟩, s', hrun, hs'⟩

/-- The same for a loop that collects what its rounds return. -/
theorem mapM {I : σ → Prop} {f : α → EStateM ε σ β} {l : List α}
    (hf : ∀ a ∈ l, Ensures I (f a) fun _ ↦ I) : Ensures I (l.mapM f) fun _ ↦ I :=
  fun _ hs ↦ exists_run_mapM hf hs

end Ensures

end EnhancedLetIndex
