import EnhancedLetIndex.Basic.Bisect
import EnhancedLetIndex.Basic.SortedUnion

/-!
# Insertion into a keyed list

`insort key a l` puts an element behind the elements of a sorted list whose keys are not above
its own.  It is a permutation of the list with the element in front, and the result is sorted
exactly when the key is new (`sortedBy_insort_iff`).
-/

namespace EnhancedLetIndex

variable {α κ : Type*} [LinearOrder κ] (key : α → κ)

/-- `bisect.insort`: the place is found by `bisect_right`. -/
def insort (a : α) (l : List α) : List α :=
  let place := bisect (fun b ↦ decide (key b ≤ key a)) l
  l.take place ++ a :: l.drop place

variable {key} {a : α} {l : List α}

theorem insort_perm (a : α) (l : List α) : (insort key a l).Perm (a :: l) := by
  rw [insort]
  refine List.perm_middle.trans ?_
  rw [List.take_append_drop]

theorem length_insort (a : α) (l : List α) : (insort key a l).length = l.length + 1 :=
  (insort_perm a l).length_eq

/-- A new key is inserted in order. -/
theorem SortedBy.insort (h : SortedBy key l) (hnew : key a ∉ l.map key) :
    SortedBy key (insort key a l) := by
  have hcut : IsCut (fun b ↦ decide (key b ≤ key a)) l
      (l.countP fun b ↦ decide (key b ≤ key a)) := by
    refine isCut_countP (h.imp fun hbc hc ↦ ?_)
    exact decide_eq_true (hbc.le.trans (of_decide_eq_true hc))
  have hbefore : ∀ b ∈ l.take (l.countP fun b ↦ decide (key b ≤ key a)), key b < key a := by
    intro b hb
    refine lt_of_le_of_ne (of_decide_eq_true (hcut.of_mem_take hb)) fun heq ↦ hnew ?_
    exact heq ▸ List.mem_map_of_mem (List.mem_of_mem_take hb)
  have hbehind : ∀ b ∈ l.drop (l.countP fun b ↦ decide (key b ≤ key a)), key a < key b := by
    intro b hb
    exact not_le.mp fun hle ↦ hcut.not_of_mem_drop hb (decide_eq_true hle)
  rw [EnhancedLetIndex.insort, hcut.bisect_eq]
  refine List.pairwise_append.mpr ⟨h.sublist (List.take_sublist _ _),
    List.pairwise_cons.mpr ⟨hbehind, h.sublist (List.drop_sublist _ _)⟩, fun b hb c hc ↦ ?_⟩
  rcases List.mem_cons.mp hc with rfl | hc
  · exact hbefore b hb
  · exact (hbefore b hb).trans (hbehind c hc)

/-- The result is sorted exactly when the key is new. -/
theorem sortedBy_insort_iff (h : SortedBy key l) :
    SortedBy key (insort key a l) ↔ key a ∉ l.map key := by
  refine ⟨fun hsorted ↦ ?_, h.insort⟩
  have hnodup := ((insort_perm a l).map key).nodup_iff.mp hsorted.nodup_keys
  rw [List.map_cons] at hnodup
  exact (List.nodup_cons.mp hnodup).1

end EnhancedLetIndex
