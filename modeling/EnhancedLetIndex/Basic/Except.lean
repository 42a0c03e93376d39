import EnhancedLetIndex.Basic.Related

/-!
# Sequencing in `Except`

The equations that run a `do` block step by step once its first action is known, and the
inversion of a successful sequence.
-/

namespace EnhancedLetIndex

section Except

universe u v

variable {ε : Type u} {α β : Type v}

@[simp] theorem ok_bind (a : α) (f : α → Except ε β) : (Except.ok a >>= f) = f a := rfl

@[simp] theorem error_bind (e : ε) (f : α → Except ε β) :
    ((Except.error e : Except ε α) >>= f) = .error e := rfl

@[simp] theorem pure_eq_ok (a : α) : (pure a : Except ε α) = .ok a := rfl

@[simp] theorem throw_eq_error (e : ε) : (throw e : Except ε α) = .error e := rfl

/-- A sequence succeeds exactly when both of its parts do. -/
theorem bind_eq_ok {x : Except ε α} {f : α → Except ε β} {b : β} :
    x >>= f = .ok b ↔ ∃ a, x = .ok a ∧ f a = .ok b := by
  cases x with
  | error e => simp
  | ok a => simp

theorem exists_of_isOk {x : Except ε α} (h : x.isOk = true) : ∃ a, x = .ok a := by
  cases x with
  | error e => cases h
  | ok a => exact ⟨a, rfl⟩

/-- A check: `e` is raised unless the condition holds. -/
def require (p : Prop) [Decidable p] (e : ε) : Except ε PUnit :=
  if p then .ok ⟨⟩ else .error e

variable {p : Prop} {_ : Decidable p} {e : ε}

@[simp] theorem require_eq_ok {u : PUnit} : require p e = .ok u ↔ p := by
  unfold require
  split_ifs with h <;> simp [h]

theorem mapError_eq_ok {ε' : Type*} {x : Except ε α} {f : ε → ε'} {a : α} :
    x.mapError f = .ok a ↔ x = .ok a := by
  cases x with
  | ok b => rw [Except.mapError, Except.ok.injEq, Except.ok.injEq]
  | error err => exact iff_of_false nofun nofun

theorem require_of (h : p) : require p e = .ok ⟨⟩ := if_pos h

/-- What follows a check runs when the condition holds. -/
theorem require_bind_eq_ok {f : PUnit → Except ε β} {b : β} :
    (require p e >>= f) = .ok b ↔ p ∧ f ⟨⟩ = .ok b := by
  rw [bind_eq_ok]
  exact ⟨fun ⟨_, hp, hf⟩ ↦ ⟨require_eq_ok.mp hp, hf⟩,
    fun ⟨hp, hf⟩ ↦ ⟨⟨⟩, require_of hp, hf⟩⟩

/-- A check of every element and the next one. -/
theorem isChain_iff_of_require {α : Type v} {R : α → α → Prop} [∀ a b, Decidable (R a b)]
    {err : α → α → ε} {f : List α → Except ε PUnit} (hnil : f [] = .ok ⟨⟩)
    (hsingleton : ∀ a, f [a] = .ok ⟨⟩)
    (hcons : ∀ a b l, f (a :: b :: l) = (require (R a b) (err a b) >>= fun _ ↦ f (b :: l)))
    (l : List α) : f l = .ok ⟨⟩ ↔ l.IsChain R := by
  induction l with
  | nil => exact iff_of_true hnil .nil
  | cons a l ih =>
    cases l with
    | nil => exact iff_of_true (hsingleton a) (.singleton a)
    | cons b l => rw [hcons, require_bind_eq_ok, ih, List.isChain_cons_cons]

/-- A check that yields its condition. -/
def prove {ε : Type} (p : Prop) [Decidable p] (e : ε) : Except ε (PLift p) :=
  if h : p then .ok ⟨h⟩ else .error e

theorem prove_of {ε : Type} {p : Prop} {_ : Decidable p} {e : ε} (h : p) :
    prove p e = .ok ⟨h⟩ := dif_pos h

/-- What follows a check runs when the condition holds. -/
theorem prove_bind_eq_ok {ε β : Type} {p : Prop} {_ : Decidable p} {e : ε}
    {f : PLift p → Except ε β} {b : β} : (prove p e >>= f) = .ok b ↔ ∃ h : p, f ⟨h⟩ = .ok b := by
  unfold prove
  split_ifs with h
  · constructor
    · exact fun hf ↦ ⟨h, hf⟩
    · rintro ⟨_, hf⟩
      exact hf
  · constructor
    · intro hf
      cases hf
    · rintro ⟨h', -⟩
      exact absurd h' h

/-- A program over every element of a list returns what it returns for each. -/
theorem mapM_eq_ok_iff {α β : Type v} {f : α → Except ε β} {l : List α} {l' : List β} :
    l.mapM f = .ok l' ↔ List.Forall₂ (fun a b ↦ f a = .ok b) l l' := by
  constructor
  · intro h
    induction l generalizing l' with
    | nil => cases h; exact .nil
    | cons a l ih =>
      rw [List.mapM_cons] at h
      obtain ⟨b, hb, h⟩ := bind_eq_ok.mp h
      obtain ⟨bs, hbs, h⟩ := bind_eq_ok.mp h
      cases h
      exact .cons hb (ih hbs)
  · intro h
    induction h with
    | nil => rfl
    | cons hb _ ih => rw [List.mapM_cons, hb, ok_bind, ih]; rfl

theorem mapM_eq_ok {α β : Type v} {f : α → Except ε β} {g : α → β} {l : List α}
    (h : ∀ a ∈ l, f a = .ok (g a)) : l.mapM f = .ok (l.map g) :=
  mapM_eq_ok_iff.mpr (List.forall₂_map_right_iff.mpr (List.forall₂_same.mpr h))

/-- What a program over a list returns is returned for some element each. -/
theorem exists_of_mem_mapM {α β : Type v} {f : α → Except ε β} {l : List α} {l' : List β}
    (h : l.mapM f = .ok l') {b : β} (hb : b ∈ l') : ∃ a ∈ l, f a = .ok b :=
  exists_mem_left (mapM_eq_ok_iff.mp h) hb

/-- A program over a list returns what is related to its elements, when it does for each. -/
theorem exists_mapM_related {α β : Type v} {f : α → Except ε β} {R : α → β → Prop} {l : List α}
    (h : ∀ a ∈ l, ∃ b, f a = .ok b ∧ R a b) : ∃ l', l.mapM f = .ok l' ∧ List.Forall₂ R l l' := by
  induction l with
  | nil => exact ⟨[], rfl, .nil⟩
  | cons a l ih =>
    obtain ⟨b, hb, hab⟩ := h a List.mem_cons_self
    obtain ⟨l', hl', hrest⟩ := ih fun a' ha' ↦ h a' (List.mem_cons_of_mem a ha')
    refine ⟨b :: l', ?_, .cons hab hrest⟩
    exact mapM_eq_ok_iff.mpr (.cons hb (mapM_eq_ok_iff.mp hl'))

/-- A program over a list returns when it returns for every element. -/
theorem exists_mapM_eq_ok {α β : Type v} {f : α → Except ε β} {l : List α}
    (h : ∀ a ∈ l, ∃ b, f a = .ok b) : ∃ l', l.mapM f = .ok l' := by
  induction l with
  | nil => exact ⟨[], rfl⟩
  | cons a l ih =>
    obtain ⟨⟨b, hb⟩, hl⟩ := List.forall_mem_cons.mp h
    obtain ⟨l', hl'⟩ := ih hl
    exact ⟨b :: l', mapM_eq_ok_iff.mpr (.cons hb (mapM_eq_ok_iff.mp hl'))⟩

/-- A program that checks every element of a list returns when every check does. -/
theorem forM_eq_ok_iff {α : Type v} {f : α → Except ε PUnit} {l : List α} :
    l.forM f = .ok ⟨⟩ ↔ ∀ a ∈ l, f a = .ok ⟨⟩ := by
  induction l with
  | nil => simp [List.forM]
  | cons a l ih =>
    show (f a >>= fun _ ↦ l.forM f) = .ok ⟨⟩ ↔ _
    rw [bind_eq_ok, List.forall_mem_cons, ← ih]
    exact ⟨fun ⟨_, ha, hl⟩ ↦ ⟨ha, hl⟩, fun ⟨ha, hl⟩ ↦ ⟨⟨⟩, ha, hl⟩⟩

end Except

end EnhancedLetIndex
