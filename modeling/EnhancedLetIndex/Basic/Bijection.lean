import Mathlib.Tactic
import Mathlib.Data.Finmap

/-!
# Two-way bookkeeping

A finite partial bijection kept as two finite maps, one for each direction.  `Inverse f g`
says that they describe the same pairs; inserting a fresh pair, erasing a pair and moving a
pair to a fresh value keep it.
-/

namespace EnhancedLetIndex

universe u

variable {α β : Type u} [DecidableEq α] [DecidableEq β]

/-- A finite map with values of one type. -/
abbrev FinDict (α β : Type u) := Finmap fun _ : α ↦ β

/-- The two maps describe the same pairs. -/
def Inverse (f : FinDict α β) (g : FinDict β α) : Prop :=
  ∀ a b, f.lookup a = some b ↔ g.lookup b = some a

namespace Inverse

variable {f : FinDict α β} {g : FinDict β α}

theorem empty : Inverse (∅ : FinDict α β) ∅ := fun a b ↦ by simp

/-- Different arguments have different values. -/
theorem injective (h : Inverse f g) {a a' : α} {b : β} (ha : f.lookup a = some b)
    (ha' : f.lookup a' = some b) : a = a' :=
  Option.some.inj (((h a b).mp ha).symm.trans ((h a' b).mp ha'))

/-- Values are the same when their arguments are. -/
theorem value_eq_iff (h : Inverse f g) {a a' : α} {b b' : β} (ha : f.lookup a = some b)
    (ha' : f.lookup a' = some b') : b = b' ↔ a = a' := by
  constructor
  · rintro rfl
    exact h.injective ha ha'
  · rintro rfl
    exact Option.some.inj (ha.symm.trans ha')

theorem mem_range (h : Inverse f g) {b : β} : b ∈ g ↔ ∃ a, f.lookup a = some b := by
  rw [Finmap.mem_iff]
  exact exists_congr fun a ↦ (h a b).symm

theorem insert (h : Inverse f g) {a : α} {b : β} (ha : a ∉ f) (hb : b ∉ g) :
    Inverse (f.insert a b) (g.insert b a) := by
  intro a' b'
  by_cases hab : a' = a
  · subst hab
    rw [Finmap.lookup_insert]
    by_cases hbb : b' = b
    · subst hbb; simp
    · have hne : f.lookup a' = none := Finmap.lookup_eq_none.mpr ha
      rw [Finmap.lookup_insert_of_ne _ hbb, ← h a' b', hne]
      simp [Ne.symm hbb]
  · rw [Finmap.lookup_insert_of_ne _ hab]
    by_cases hbb : b' = b
    · subst hbb
      have hne : g.lookup b' = none := Finmap.lookup_eq_none.mpr hb
      rw [Finmap.lookup_insert, h a' b', hne]
      simp [Ne.symm hab]
    · rw [Finmap.lookup_insert_of_ne _ hbb, h a' b']

theorem erase (h : Inverse f g) {a : α} {b : β} (hab : f.lookup a = some b) :
    Inverse (f.erase a) (g.erase b) := by
  intro a' b'
  by_cases haa : a' = a
  · subst haa
    rw [Finmap.lookup_erase]
    by_cases hbb : b' = b
    · subst hbb; simp
    · rw [Finmap.lookup_erase_ne hbb, ← h a' b', hab]
      simp [Ne.symm hbb]
  · rw [Finmap.lookup_erase_ne haa]
    by_cases hbb : b' = b
    · subst hbb
      rw [Finmap.lookup_erase, h a' b', (h a b').mp hab]
      simp [Ne.symm haa]
    · rw [Finmap.lookup_erase_ne hbb, h a' b']

/-- A map has at most one inverse. -/
theorem unique {g' : FinDict β α} (h : Inverse f g) (h' : Inverse f g') : g = g' :=
  Finmap.ext_lookup fun b ↦ Option.ext fun a ↦ (h a b).symm.trans (h' a b)

/-- Both maps have as many entries. -/
theorem card_eq (h : Inverse f g) : f.keys.card = g.keys.card := by
  have hsome : ∀ {a}, a ∈ f.keys → (f.lookup a).isSome := fun ha ↦
    Finmap.lookup_isSome.mpr (Finmap.mem_keys.mp ha)
  refine Finset.card_bij (fun a ha ↦ (f.lookup a).get (hsome ha)) ?_ ?_ ?_
  · intro a ha
    rw [Finmap.mem_keys, h.mem_range]
    exact ⟨a, (Option.some_get (hsome ha)).symm⟩
  · intro a ha a' ha' heq
    refine h.injective (Option.some_get (hsome ha)).symm ?_
    rw [heq]
    exact (Option.some_get (hsome ha')).symm
  · intro b hb
    obtain ⟨a, ha⟩ := h.mem_range.mp (Finmap.mem_keys.mp hb)
    exact ⟨a, Finmap.mem_keys.mpr (Finmap.mem_of_lookup_eq_some ha), by simp [ha]⟩

end Inverse

end EnhancedLetIndex
