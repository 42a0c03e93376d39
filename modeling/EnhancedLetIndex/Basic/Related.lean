import Mathlib.Data.List.GetD
import Mathlib.Tactic

/-!
# Lists element by element

Lemmas about `List.Forall₂`: what is related to a member, what is counted or projected alike on
both sides, and how a list that is related to a list in parts is taken apart; about what is
looked up in a list of pairs; and about the elements of a list that is extended or written to.
-/

namespace EnhancedLetIndex

variable {α β γ : Type*} {R : α → β → Prop} {l : List α} {l' : List β}

/-- A member on the left is related to one on the right. -/
theorem exists_mem_right (h : List.Forall₂ R l l') {a : α} (ha : a ∈ l) : ∃ b ∈ l', R a b := by
  induction h with
  | nil => cases ha
  | cons hab _ ih =>
    rcases List.mem_cons.mp ha with rfl | ha
    · exact ⟨_, List.mem_cons_self, hab⟩
    · obtain ⟨b, hb, hab⟩ := ih ha
      exact ⟨b, List.mem_cons_of_mem _ hb, hab⟩

/-- A member on the right is related to one on the left. -/
theorem exists_mem_left (h : List.Forall₂ R l l') {b : β} (hb : b ∈ l') : ∃ a ∈ l, R a b :=
  exists_mem_right h.flip hb

/-- What is the same of related elements is the same of the lists. -/
theorem map_eq_of_forall₂ {f : α → γ} {g : β → γ}
    (h : List.Forall₂ (fun a b ↦ f a = g b) l l') : l.map f = l'.map g := by
  induction h with
  | nil => rfl
  | cons hab _ ih => rw [List.map_cons, List.map_cons, hab, ih]

/-- Parts that are permutations of each other make lists that are. -/
theorem perm_flatMap_of_forall₂ {f : α → List γ} {g : β → List γ}
    (h : List.Forall₂ (fun a b ↦ (f a).Perm (g b)) l l') : (l.flatMap f).Perm (l'.flatMap g) := by
  induction h with
  | nil => exact .refl _
  | cons hab _ ih => exact hab.append ih

/-- What holds alike of related elements is counted alike. -/
theorem countP_eq_of_forall₂ {p : α → Prop} {q : β → Prop} [DecidablePred p] [DecidablePred q]
    (h : List.Forall₂ (fun a b ↦ p a ↔ q b) l l') : l.countP (p ·) = l'.countP (q ·) := by
  induction h with
  | nil => rfl
  | cons hab _ ih => rw [List.countP_cons, List.countP_cons, ih, decide_eq_decide.mpr hab]

/-- A list that is related to a list in parts has the same parts. -/
theorem forall₂_split {front back : List α} {a : α}
    (h : List.Forall₂ R (front ++ a :: back) l') : ∃ front' b back', l' = front' ++ b :: back' ∧
      List.Forall₂ R front front' ∧ R a b ∧ List.Forall₂ R back back' := by
  induction front generalizing l' with
  | nil =>
    cases h with
    | cons hab hback => exact ⟨[], _, _, rfl, .nil, hab, hback⟩
  | cons c front ih =>
    cases h with
    | @cons _ d _ _ hcd hrest =>
      obtain ⟨front', b, back', rfl, hfront, hab, hback⟩ := ih hrest
      exact ⟨d :: front', b, back', rfl, .cons hcd hfront, hab, hback⟩

/-- An injection keeps and reflects what is part of a list. -/
theorem map_infix_map {f : α → β} (hf : f.Injective) {l₁ l₂ : List α} :
    l₁.map f <:+: l₂.map f ↔ l₁ <:+: l₂ := by
  refine ⟨fun h ↦ ?_, fun h ↦ h.map f⟩
  obtain ⟨l, hl, heq⟩ := List.infix_map_iff.mp h
  exact hf.list_map heq ▸ hl

/-- The elements of a list with one more element. -/
theorem getElem?_concat_eq_some {a b : α} {i : Nat} : (l ++ [a])[i]? = some b ↔
    i < l.length ∧ l[i]? = some b ∨ i = l.length ∧ a = b := by
  rcases lt_trichotomy i l.length with hlt | rfl | hgt
  · rw [List.getElem?_append_left hlt]
    simp [hlt, hlt.ne]
  · rw [List.getElem?_concat_length]
    simp
  · rw [List.getElem?_eq_none (by rw [List.length_append]; exact hgt)]
    simp [hgt.not_gt, hgt.ne']

/-- The first place of an element. -/
theorem idxOf?_eq_some [BEq α] [LawfulBEq α] {a : α} {i : Nat} : l.idxOf? a = some i ↔
    ∃ front back, l = front ++ a :: back ∧ a ∉ front ∧ front.length = i := by
  rw [List.idxOf?_eq_some_iff]
  constructor
  · rintro ⟨hi, ha, hfirst⟩
    refine ⟨l.take i, l.drop (i + 1), ?_, fun hmem ↦ ?_, List.length_take_of_le hi.le⟩
    · rw [← ha, ← List.drop_eq_getElem_cons hi, List.take_append_drop]
    · obtain ⟨j, hj, hja⟩ := List.getElem_of_mem hmem
      rw [List.length_take_of_le hi.le] at hj
      exact hfirst j hj (List.getElem_take.symm.trans hja)
  · rintro ⟨front, back, rfl, hfront, rfl⟩
    refine ⟨by simp, by simp, fun j hj hja ↦ hfront ?_⟩
    rw [List.getElem_append_left hj] at hja
    exact hja ▸ List.getElem_mem _

section Lookup

variable {κ : Type*} [BEq κ] [LawfulBEq κ] {k : κ} {v : α} {kvs : List (κ × α)}

theorem lookup_eq_none : kvs.lookup k = none ↔ k ∉ kvs.map Prod.fst := by
  rw [List.lookup_eq_none_iff]
  constructor
  · intro h hk
    obtain ⟨kv, hkv, rfl⟩ := List.mem_map.mp hk
    exact bne_iff_ne.mp (h kv hkv) rfl
  · intro h kv hkv
    exact bne_iff_ne.mpr fun hk ↦ h (hk ▸ List.mem_map_of_mem hkv)

theorem mem_of_lookup (h : kvs.lookup k = some v) : (k, v) ∈ kvs := by
  obtain ⟨before, after, rfl, -⟩ := List.lookup_eq_some_iff.mp h
  exact List.mem_append_right _ List.mem_cons_self

/-- Keys that are different are looked up where they are. -/
theorem lookup_of_mem (hkvs : (kvs.map Prod.fst).Nodup) {kv : κ × α} (hkv : kv ∈ kvs) :
    kvs.lookup kv.1 = some kv.2 := by
  induction kvs with
  | nil => cases hkv
  | cons first kvs ih =>
    rw [List.map_cons, List.nodup_cons] at hkvs
    rcases List.mem_cons.mp hkv with rfl | hkv
    · exact List.lookup_cons_self
    · have hne : (kv.1 == first.1) = false :=
        beq_eq_false_iff_ne.mpr fun heq ↦ hkvs.1 (heq ▸ List.mem_map_of_mem hkv)
      rw [List.lookup_cons, hne]
      exact ih hkvs.2 hkv

end Lookup

section Write

variable {i j : Nat} {a d : α}

theorem getD_set_self (h : i < l.length) : (l.set i a).getD i d = a := by
  rw [List.getD_eq_getElem?_getD, List.getElem?_set_self h, Option.getD_some]

theorem getD_set_of_ne (h : i ≠ j) : (l.set i a).getD j d = l.getD j d := by
  rw [List.getD_eq_getElem?_getD, List.getElem?_set_ne h, List.getD_eq_getElem?_getD]

/-- Setting the default value leaves it past the end. -/
theorem getD_set_default : (l.set i d).getD i d = d := by
  by_cases h : i < l.length
  · exact getD_set_self h
  · rw [List.set_eq_of_length_le (Nat.le_of_not_lt h),
      List.getD_eq_default _ _ (Nat.le_of_not_lt h)]

end Write

end EnhancedLetIndex
