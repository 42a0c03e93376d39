import Mathlib.Tactic

/-!
# Intervals laid end to end

A list of things that each have an interval of positions, `start` and `len`.  They are end to end
from a position on when every interval that is not empty starts where the intervals before it
end.  This is what makes them cover a range of positions in order (`endToEnd_iff_flatMap_range'`),
and a list that is cut along them is put together again (`EndToEnd.flatMap_slice`).
-/

namespace EnhancedLetIndex

variable {α β : Type*} (start len : α → Nat)

/-- Intervals end to end from a position on; an empty interval may start anywhere. -/
def EndToEnd : Nat → List α → Prop
  | _, [] => True
  | n, a :: l => (0 < len a → start a = n) ∧ EndToEnd (n + len a) l

variable {start len} {n : Nat} {a : α} {l : List α}

@[simp] theorem endToEnd_nil : EndToEnd start len n [] := trivial

@[simp] theorem endToEnd_cons : EndToEnd start len n (a :: l) ↔
    (0 < len a → start a = n) ∧ EndToEnd start len (n + len a) l := Iff.rfl

/-- Intervals are end to end when each starts after what is in the intervals before it. -/
theorem endToEnd_iff_getElem : EndToEnd start len n l ↔ ∀ i a, l[i]? = some a → 0 < len a →
    start a = n + ((l.take i).map len).sum := by
  induction l generalizing n with
  | nil => simp
  | cons b l ih =>
    rw [endToEnd_cons, ih]
    constructor
    · rintro ⟨hhead, htail⟩ i a hi hpos
      cases i with
      | zero =>
        obtain rfl : b = a := by simpa using hi
        simpa using hhead hpos
      | succ i =>
        rw [htail i a (by simpa using hi) hpos, List.take_succ_cons, List.map_cons,
          List.sum_cons, Nat.add_assoc]
    · intro h
      refine ⟨fun hpos ↦ by simpa using h 0 b rfl hpos, fun i a hi hpos ↦ ?_⟩
      rw [h (i + 1) a (by simpa using hi) hpos, List.take_succ_cons, List.map_cons,
        List.sum_cons, Nat.add_assoc]

/-- Intervals are end to end when they cover a range of positions in order. -/
theorem endToEnd_iff_flatMap_range' : EndToEnd start len n l ↔
    (l.flatMap fun a ↦ List.range' (start a) (len a)) = List.range' n (l.map len).sum := by
  induction l generalizing n with
  | nil => simp
  | cons b l ih =>
    rw [endToEnd_cons, ih, List.flatMap_cons, List.map_cons, List.sum_cons,
      ← List.range'_append_1, List.append_eq_append_iff_of_size_eq_left]
    · refine and_congr ?_ Iff.rfl
      cases hlen : len b with
      | zero => simp
      | succ k =>
        refine ⟨fun h ↦ by rw [h k.succ_pos], fun h _ ↦ ?_⟩
        rw [List.range'_succ, List.range'_succ] at h
        exact (List.cons.inj h).1
    · simp

/-- Cut along intervals that are end to end, a list is put together again. -/
theorem EndToEnd.flatMap_slice (h : EndToEnd start len n l) (xs : List β) :
    (l.flatMap fun a ↦ (xs.drop (start a)).take (len a)) =
      (xs.drop n).take (l.map len).sum := by
  induction l generalizing n with
  | nil => simp
  | cons b l ih =>
    have hslice : (xs.drop (start b)).take (len b) = (xs.drop n).take (len b) := by
      cases hlen : len b with
      | zero => rfl
      | succ k => rw [h.1 (by omega)]
    rw [List.flatMap_cons, hslice, ih h.2, List.map_cons, List.sum_cons, List.take_add,
      List.drop_drop]

end EnhancedLetIndex
