import EnhancedLetIndex.Basic.Bijection
import EnhancedLetIndex.Basic.SortedUnion

/-!
# Dictionaries of keyed lists

`dictOf key value l` is the dictionary that a loop over a list fills, the later entry of a key
winning.  When the keys are distinct it says what `findKey` says (`lookup_dictOf`), it does not
depend on the order of the list, and it has as many entries as the list.  The union of two
keyed lists becomes the union of their dictionaries (`dictOf_unionNewer`).
-/

namespace EnhancedLetIndex

universe u v

variable {α : Type v} {κ β : Type u} [LinearOrder κ] (key : α → κ) (value : α → β)

/-- `{key(a): value(a) for a in l}`. -/
def dictOf (l : List α) : FinDict κ β := l.foldl (fun d a ↦ d.insert (key a) (value a)) ∅

variable {key value} {l l' : List α}

theorem dictOf_concat (l : List α) (a : α) :
    dictOf key value (l ++ [a]) = (dictOf key value l).insert (key a) (value a) := by
  rw [dictOf, List.foldl_append]
  rfl

/-- The entry of a key is that of its element. -/
theorem lookup_dictOf (h : (l.map key).Nodup) (k : κ) :
    (dictOf key value l).lookup k = (findKey key k l).map value := by
  induction l using List.reverseRecOn with
  | nil => rfl
  | append_singleton l a ih =>
    rw [List.map_append, List.map_singleton, List.nodup_append] at h
    obtain ⟨hl, -, hdisjoint⟩ := h
    rw [dictOf_concat, findKey, List.find?_append, ← findKey]
    by_cases hk : key a = k
    · have hnone : findKey key k l = none := findKey_eq_none.mpr fun hmem ↦
        hdisjoint k hmem (key a) (List.mem_singleton_self _) hk.symm
      rw [hnone, Option.none_or, List.find?_singleton, hk, Finmap.lookup_insert]
      simp
    · rw [Finmap.lookup_insert_of_ne _ (Ne.symm hk), ih hl, List.find?_singleton]
      simp [hk]

theorem keys_dictOf (l : List α) : (dictOf key value l).keys = (l.map key).toFinset := by
  induction l using List.reverseRecOn with
  | nil => rfl
  | append_singleton l a ih =>
    ext k
    rw [dictOf_concat, Finmap.mem_keys, Finmap.mem_insert, ← Finmap.mem_keys, ih]
    simp

theorem dictOf_eq_empty : dictOf key value l = ∅ ↔ l = [] := by
  constructor
  · intro h
    have hkeys : (dictOf key value l).keys = (l.map key).toFinset := keys_dictOf l
    rw [h, Finmap.keys_empty] at hkeys
    exact List.map_eq_nil_iff.mp ((List.toFinset_eq_empty_iff _).mp hkeys.symm)
  · rintro rfl
    rfl

theorem card_keys_dictOf (h : (l.map key).Nodup) : (dictOf key value l).keys.card = l.length := by
  rw [keys_dictOf, List.toFinset_card_of_nodup h, List.length_map]

/-- The order of distinct keys does not matter. -/
theorem dictOf_perm (hperm : l.Perm l') (h : (l.map key).Nodup) :
    dictOf key value l = dictOf key value l' := by
  apply Finmap.ext_lookup
  intro k
  rw [lookup_dictOf h, lookup_dictOf ((hperm.map key).nodup_iff.mp h), findKey_perm hperm h]

section Union

variable {newer older : List α}

/-- The newer dictionary wins. -/
theorem dictOf_unionNewer (hn : SortedBy key newer) (ho : SortedBy key older) :
    dictOf key value (unionNewer key newer older) =
      dictOf key value newer ∪ dictOf key value older := by
  apply Finmap.ext_lookup
  intro k
  rw [lookup_dictOf (sortedBy_unionNewer hn ho).nodup_keys, findKey_unionNewer hn ho]
  cases hnewer : findKey key k newer with
  | some a =>
    have hmem : k ∈ dictOf key value newer := by
      rw [← Finmap.mem_keys, keys_dictOf, List.mem_toFinset, ← findKey_isSome, hnewer]
      rfl
    rw [Finmap.lookup_union_left hmem, lookup_dictOf hn.nodup_keys, hnewer]
    rfl
  | none =>
    have hmem : k ∉ dictOf key value newer := by
      rw [← Finmap.mem_keys, keys_dictOf, List.mem_toFinset]
      exact findKey_eq_none.mp hnewer
    rw [Finmap.lookup_union_right hmem, lookup_dictOf ho.nodup_keys, Option.none_or]

/-- The keys of both dictionaries are those of the shadowed elements. -/
theorem card_keys_inter (ho : SortedBy key older) :
    ((dictOf key value newer).keys ∩ (dictOf key value older).keys).card =
      (shadowed key newer older).length := by
  have hshadowed := ho.sublist (List.filter_sublist (p := fun a ↦ key a ∈ newer.map key))
  rw [shadowed, ← List.length_map (f := key), ← List.toFinset_card_of_nodup hshadowed.nodup_keys,
    keys_dictOf, keys_dictOf]
  congr 1
  ext k
  simp only [Finset.mem_inter, List.mem_toFinset, List.mem_map, List.mem_filter, decide_eq_true_eq]
  constructor
  · rintro ⟨hnewer, a, ha, rfl⟩
    exact ⟨a, ⟨ha, hnewer⟩, rfl⟩
  · rintro ⟨a, ⟨ha, hnewer⟩, rfl⟩
    exact ⟨hnewer, a, ha, rfl⟩

end Union

/-- A union has entries when the first map has. -/
theorem union_ne_empty {κ β : Type u} [DecidableEq κ] {m₁ m₂ : FinDict κ β} (h : m₁ ≠ ∅) :
    m₁ ∪ m₂ ≠ ∅ := by
  rintro hunion
  refine h (Finmap.ext_lookup fun k ↦ ?_)
  have hk : k ∉ m₁ := fun hk ↦ Finmap.notMem_empty (hunion ▸ Finmap.mem_union.mpr (Or.inl hk))
  rw [Finmap.lookup_eq_none.mpr hk, Finmap.lookup_empty]

end EnhancedLetIndex
