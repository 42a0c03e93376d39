import Mathlib.Tactic

/-!
# The union of two keyed lists, the newer one winning

`unionNewer key newer older` is the union the two-way merges of this development are to
compute: every element of `newer`, the elements of `older` whose key `newer` does not have,
sorted by key.  For lists that are strictly increasing by key it is a list of the same kind
with the lookups of the newer list first (`findKey_unionNewer`), it is taken apart at its front
as a two-way merge builds it (`unionNewer_cons_cons`), and the two-pointer loop returns it
(`mergeLoop_eq`).
-/

namespace EnhancedLetIndex

variable {α κ : Type*} [LinearOrder κ] (key : α → κ)

/-- Strictly increasing by key. -/
def SortedBy (l : List α) : Prop := l.Pairwise fun a b ↦ key a < key b

/-- The elements of `newer`, then those of `older` with another key, sorted by key. -/
def unionNewer (newer older : List α) : List α :=
  (newer ++ older.filter fun a ↦ key a ∉ newer.map key).insertionSort fun a b ↦ key a ≤ key b

/-- The elements of `older` that a `newer` element of the same key replaces. -/
def shadowed (newer older : List α) : List α := older.filter fun a ↦ key a ∈ newer.map key

/-- The first element with key `k`. -/
def findKey (k : κ) (l : List α) : Option α := l.find? fun a ↦ key a = k

/-- The two-pointer loop: the smaller key goes first, of two equal keys the newer one, and
what is left of either list at the end.  It counts the older elements it drops. -/
def mergeLoop : Nat → List α → List α → List α × Nat
  | fuel + 1, x :: xs, y :: ys =>
    if key x < key y then
      let (merged, discarded) := mergeLoop fuel xs (y :: ys)
      (x :: merged, discarded)
    else if key y < key x then
      let (merged, discarded) := mergeLoop fuel (x :: xs) ys
      (y :: merged, discarded)
    else
      let (merged, discarded) := mergeLoop fuel xs ys
      (x :: merged, discarded + 1)
  | _, xs, ys => (xs ++ ys, 0)

variable {key}

namespace SortedBy

variable {a : α} {l : List α}

theorem nil : SortedBy key ([] : List α) := List.Pairwise.nil

theorem tail (h : SortedBy key (a :: l)) : SortedBy key l := List.Pairwise.of_cons h

theorem lt_of_mem (h : SortedBy key (a :: l)) {b : α} (hb : b ∈ l) : key a < key b :=
  List.rel_of_pairwise_cons h hb

theorem sublist {l' : List α} (h : SortedBy key l) (hl : l'.Sublist l) : SortedBy key l' :=
  List.Pairwise.sublist hl h

theorem map_keys (h : SortedBy key l) : (l.map key).Pairwise (· < ·) := List.pairwise_map.mpr h

theorem of_map_keys (h : (l.map key).Pairwise (· < ·)) : SortedBy key l := List.pairwise_map.mp h

theorem nodup_keys (h : SortedBy key l) : (l.map key).Nodup := h.map_keys.imp ne_of_lt

end SortedBy

/-- Among distinct keys, the record that is found is the one with the key. -/
theorem findKey_eq_some {l : List α} (h : (l.map key).Nodup) {k : κ} {a : α} :
    findKey key k l = some a ↔ a ∈ l ∧ key a = k := by
  constructor
  · intro hfind
    exact ⟨List.mem_of_find?_eq_some hfind, by simpa using List.find?_some hfind⟩
  · rintro ⟨ha, rfl⟩
    cases hfind : findKey key (key a) l with
    | none =>
      have := List.find?_eq_none.mp hfind a ha
      simp at this
    | some b =>
      have hb := List.mem_of_find?_eq_some hfind
      have hkey : key b = key a := by simpa using List.find?_some hfind
      rw [List.inj_on_of_nodup_map h hb ha hkey]

/-- The order of distinct keys does not matter. -/
theorem findKey_perm {l l' : List α} (h : l.Perm l') (hl : (l.map key).Nodup) (k : κ) :
    findKey key k l = findKey key k l' := by
  ext a
  rw [findKey_eq_some hl, findKey_eq_some ((h.map key).nodup_iff.mp hl), h.mem_iff]

theorem findKey_eq_none {k : κ} {l : List α} : findKey key k l = none ↔ k ∉ l.map key := by
  simp only [findKey, List.find?_eq_none, List.mem_map, not_exists, not_and, decide_eq_true_eq]

theorem findKey_isSome {k : κ} {l : List α} : (findKey key k l).isSome ↔ k ∈ l.map key := by
  rw [← Option.ne_none_iff_isSome, ne_eq, findKey_eq_none, not_not]

section StrictMono

variable {κ' : Type*} [LinearOrder κ'] {f : κ → κ'}

/-- Keys may be compared by their images. -/
theorem findKey_strictMono (hf : StrictMono f) (k : κ) (l : List α) :
    findKey (fun a ↦ f (key a)) (f k) l = findKey key k l := by
  simp only [findKey, hf.injective.eq_iff]

theorem mem_map_strictMono (hf : StrictMono f) {a : α} {l : List α} :
    f (key a) ∈ l.map (fun a ↦ f (key a)) ↔ key a ∈ l.map key := by
  simp only [List.mem_map, hf.injective.eq_iff]

theorem unionNewer_strictMono (hf : StrictMono f) (newer older : List α) :
    unionNewer (fun a ↦ f (key a)) newer older = unionNewer key newer older := by
  simp only [unionNewer, mem_map_strictMono hf, hf.le_iff_le]

theorem shadowed_strictMono (hf : StrictMono f) (newer older : List α) :
    shadowed (fun a ↦ f (key a)) newer older = shadowed key newer older := by
  simp only [shadowed, mem_map_strictMono hf]

end StrictMono

/-- Lists that are strictly increasing by key are equal when they have the same elements. -/
theorem SortedBy.ext {l l' : List α} (h : SortedBy key l) (h' : SortedBy key l')
    (hmem : ∀ a, a ∈ l ↔ a ∈ l') : l = l' := by
  have : Std.Irrefl fun a b : α ↦ key a < key b := ⟨fun _ ↦ lt_irrefl _⟩
  have : Std.Asymm fun a b : α ↦ key a < key b := ⟨fun _ _ ↦ lt_asymm⟩
  exact List.Pairwise.eq_of_mem_iff h h' hmem

/-- Distinct keys are strictly increasing once they are sorted. -/
theorem sortedBy_insertionSort {l : List α} (h : (l.map key).Nodup) :
    SortedBy key (l.insertionSort fun a b ↦ key a ≤ key b) := by
  have htotal : Std.Total fun a b : α ↦ key a ≤ key b := ⟨fun _ _ ↦ le_total _ _⟩
  have htrans : IsTrans α fun a b : α ↦ key a ≤ key b := ⟨fun _ _ _ ↦ le_trans⟩
  have hle := List.pairwise_insertionSort (fun a b : α ↦ key a ≤ key b) l
  have hne : (l.insertionSort fun a b ↦ key a ≤ key b).Pairwise fun a b ↦ key a ≠ key b := by
    rw [← List.pairwise_map (f := key) (R := (· ≠ ·))]
    exact ((List.perm_insertionSort _ l).map key).nodup_iff.mpr h
  exact (hle.and hne).imp fun hab ↦ lt_of_le_of_ne hab.1 hab.2

/-- Of two elements of a list that is strictly increasing by key, the one with the smaller key
stands before the other. -/
theorem SortedBy.pair_sublist {l : List α} (h : SortedBy key l) {a b : α} (ha : a ∈ l)
    (hb : b ∈ l) (hab : key a < key b) : [a, b].Sublist l := by
  obtain ⟨left, right, rfl⟩ := List.append_of_mem ha
  have hright : b ∈ right := by
    rcases List.mem_append.mp hb with hleft | hrest
    · have hba := (List.pairwise_append.mp h).2.2 b hleft a List.mem_cons_self
      exact absurd hba hab.asymm
    · rcases List.mem_cons.mp hrest with rfl | hright
      · exact absurd hab (lt_irrefl _)
      · exact hright
  exact ((List.singleton_sublist.mpr hright).cons_cons a).trans (List.sublist_append_right _ _)

/-- What stands before an element are the elements with smaller keys. -/
theorem SortedBy.countP_before {before rest : List α} {x : α}
    (h : SortedBy key (before ++ x :: rest)) (p : α → Prop) [DecidablePred p] :
    before.countP (p ·) = (before ++ x :: rest).countP fun y ↦ p y ∧ key y < key x := by
  obtain ⟨-, hrest, hbefore⟩ := List.pairwise_append.mp h
  have hzero : (x :: rest).countP (fun y ↦ p y ∧ key y < key x) = 0 := by
    refine List.countP_eq_zero.mpr fun y hy ↦ ?_
    rw [decide_eq_true_eq, not_and, not_lt]
    rintro -
    rcases List.mem_cons.mp hy with rfl | hy
    · exact le_rfl
    · exact (List.rel_of_pairwise_cons hrest hy).le
  have hsame : before.countP (fun y ↦ p y ∧ key y < key x) = before.countP (p ·) := by
    refine List.countP_congr fun y hy ↦ ?_
    rw [decide_eq_true_eq, decide_eq_true_eq]
    exact and_iff_left (hbefore y hy x List.mem_cons_self)
  rw [List.countP_append, hzero, Nat.add_zero, hsame]

/-- A list with the right keys is not changed by the sort. -/
theorem SortedBy.insertionSort_eq {l : List α} (h : SortedBy key l) :
    (l.insertionSort fun a b ↦ key a ≤ key b) = l :=
  List.Pairwise.insertionSort_eq (h.imp fun hab ↦ hab.le)

/-! ## The union -/

section Union

variable {newer older : List α}

theorem mem_unionNewer {a : α} :
    a ∈ unionNewer key newer older ↔
      a ∈ newer ∨ a ∈ older ∧ key a ∉ newer.map key := by
  rw [unionNewer, List.mem_insertionSort, List.mem_append, List.mem_filter, decide_eq_true_eq]

theorem sortedBy_unionNewer (hn : SortedBy key newer) (ho : SortedBy key older) :
    SortedBy key (unionNewer key newer older) := by
  refine sortedBy_insertionSort ?_
  rw [List.map_append, List.nodup_append]
  refine ⟨hn.nodup_keys, (ho.sublist List.filter_sublist).nodup_keys, ?_⟩
  rintro k hk k' hk' rfl
  obtain ⟨a, ha, rfl⟩ := List.mem_map.mp hk'
  simp only [List.mem_filter, decide_eq_true_eq] at ha
  exact ha.2 hk

/-- The union is the only list of its kind with its elements. -/
theorem eq_unionNewer (hn : SortedBy key newer) (ho : SortedBy key older) {l : List α}
    (hl : SortedBy key l)
    (hmem : ∀ a, a ∈ l ↔ a ∈ newer ∨ a ∈ older ∧ key a ∉ newer.map key) :
    l = unionNewer key newer older :=
  hl.ext (sortedBy_unionNewer hn ho) fun a ↦ (hmem a).trans mem_unionNewer.symm

/-- A map that keeps the keys commutes with the union. -/
theorem unionNewer_map {β : Type*} {key' : β → κ} {f : α → β} (hf : ∀ a, key' (f a) = key a)
    (hn : SortedBy key newer) (ho : SortedBy key older) :
    unionNewer key' (newer.map f) (older.map f) = (unionNewer key newer older).map f := by
  have hsorted : ∀ {l : List α}, SortedBy key l → SortedBy key' (l.map f) := fun hl ↦
    List.pairwise_map.mpr (hl.imp fun hab ↦ by rwa [hf, hf])
  have hkeys : (newer.map f).map key' = newer.map key := by
    rw [List.map_map]
    exact List.map_congr_left fun a _ ↦ hf a
  refine (eq_unionNewer (hsorted hn) (hsorted ho) (hsorted (sortedBy_unionNewer hn ho))
    fun b ↦ ?_).symm
  rw [hkeys]
  simp only [List.mem_map, mem_unionNewer]
  constructor
  · rintro ⟨a, ha | ⟨ha, hk⟩, rfl⟩
    · exact Or.inl ⟨a, ha, rfl⟩
    · exact Or.inr ⟨⟨a, ha, rfl⟩, by rwa [hf]⟩
  · rintro (⟨a, ha, rfl⟩ | ⟨⟨a, ha, rfl⟩, hk⟩)
    · exact ⟨a, Or.inl ha, rfl⟩
    · rw [hf] at hk
      exact ⟨a, Or.inr ⟨ha, hk⟩, rfl⟩

/-- It keeps the number of shadowed elements. -/
theorem length_shadowed_map {β : Type*} {key' : β → κ} {f : α → β}
    (hf : ∀ a, key' (f a) = key a) :
    (shadowed key' (newer.map f) (older.map f)).length = (shadowed key newer older).length := by
  have hkeys : (newer.map f).map key' = newer.map key := by
    rw [List.map_map]
    exact List.map_congr_left fun a _ ↦ hf a
  rw [shadowed, hkeys, List.filter_map, List.length_map, shadowed]
  refine congrArg List.length (List.filter_congr fun a _ ↦ ?_)
  rw [Function.comp_apply, hf]

/-- A key is looked up in the newer list first. -/
theorem findKey_unionNewer (hn : SortedBy key newer) (ho : SortedBy key older) (k : κ) :
    findKey key k (unionNewer key newer older) =
      (findKey key k newer).or (findKey key k older) := by
  have hu := sortedBy_unionNewer hn ho
  cases hfind : findKey key k newer with
  | some a =>
    obtain ⟨ha, hk⟩ := (findKey_eq_some hn.nodup_keys).mp hfind
    exact (findKey_eq_some hu.nodup_keys).mpr ⟨mem_unionNewer.mpr (Or.inl ha), hk⟩
  | none =>
    have hk := findKey_eq_none.mp hfind
    rw [Option.none_or]
    ext a
    rw [findKey_eq_some hu.nodup_keys, findKey_eq_some ho.nodup_keys, mem_unionNewer]
    constructor
    · rintro ⟨ha | ⟨ha, -⟩, rfl⟩
      · exact absurd (List.mem_map_of_mem ha) hk
      · exact ⟨ha, rfl⟩
    · rintro ⟨ha, rfl⟩
      exact ⟨Or.inr ⟨ha, hk⟩, rfl⟩

theorem unionNewer_nil_left (ho : SortedBy key older) : unionNewer key [] older = older :=
  (eq_unionNewer .nil ho ho fun a ↦ by simp).symm

theorem unionNewer_nil_right (hn : SortedBy key newer) : unionNewer key newer [] = newer :=
  (eq_unionNewer hn .nil hn fun a ↦ by simp).symm

theorem unionNewer_eq_nil (ho : SortedBy key older) :
    unionNewer key newer older = [] ↔ newer = [] ∧ older = [] := by
  constructor
  · intro h
    have hn : newer = [] := List.eq_nil_iff_forall_not_mem.mpr fun a ha ↦
      List.not_mem_nil (h ▸ mem_unionNewer.mpr (Or.inl ha))
    subst hn
    exact ⟨rfl, unionNewer_nil_left ho ▸ h⟩
  · rintro ⟨rfl, rfl⟩
    exact unionNewer_nil_left ho

theorem SortedBy.cons {a : α} {l : List α} (hl : SortedBy key l) (h : ∀ b ∈ l, key a < key b) :
    SortedBy key (a :: l) := List.pairwise_cons.mpr ⟨h, hl⟩

section Cons

variable {x y : α} {xs ys : List α}

/-- Keys of `x :: xs` that are above `x` are keys of `xs`. -/
theorem mem_keys_cons_of_lt {k : κ} (h : key x < k) :
    k ∈ (x :: xs).map key ↔ k ∈ xs.map key := by
  rw [List.map_cons, List.mem_cons, or_iff_right h.ne']

theorem unionNewer_cons_of_lt (hn : SortedBy key (x :: xs)) (ho : SortedBy key (y :: ys))
    (h : key x < key y) :
    unionNewer key (x :: xs) (y :: ys) = x :: unionNewer key xs (y :: ys) := by
  have hlt : ∀ b ∈ y :: ys, key x < key b := by
    intro b hb
    rcases List.mem_cons.mp hb with rfl | hb
    · exact h
    · exact h.trans (ho.lt_of_mem hb)
  refine (eq_unionNewer hn ho ((sortedBy_unionNewer hn.tail ho).cons ?_) fun a ↦ ?_).symm
  · intro b hb
    rcases mem_unionNewer.mp hb with hb | ⟨hb, -⟩
    · exact hn.lt_of_mem hb
    · exact hlt b hb
  · rw [List.mem_cons, mem_unionNewer, List.mem_cons (l := xs), or_assoc]
    have : a ∈ y :: ys ∧ key a ∉ (x :: xs).map key ↔ a ∈ y :: ys ∧ key a ∉ xs.map key :=
      and_congr_right fun ha ↦ not_congr (mem_keys_cons_of_lt (hlt a ha))
    rw [this]

theorem unionNewer_cons_of_gt (hn : SortedBy key (x :: xs)) (ho : SortedBy key (y :: ys))
    (h : key y < key x) :
    unionNewer key (x :: xs) (y :: ys) = y :: unionNewer key (x :: xs) ys := by
  have hlt : ∀ b ∈ x :: xs, key y < key b := by
    intro b hb
    rcases List.mem_cons.mp hb with rfl | hb
    · exact h
    · exact h.trans (hn.lt_of_mem hb)
  have hy : key y ∉ (x :: xs).map key := by
    intro hy
    obtain ⟨b, hb, hkey⟩ := List.mem_map.mp hy
    exact (hlt b hb).ne' hkey
  refine (eq_unionNewer hn ho ((sortedBy_unionNewer hn ho.tail).cons ?_) fun a ↦ ?_).symm
  · intro b hb
    rcases mem_unionNewer.mp hb with hb | ⟨hb, -⟩
    · exact hlt b hb
    · exact ho.lt_of_mem hb
  · rw [List.mem_cons, mem_unionNewer, List.mem_cons (l := ys)]
    constructor
    · rintro (rfl | ha | ⟨ha, hk⟩)
      · exact Or.inr ⟨Or.inl rfl, hy⟩
      · exact Or.inl ha
      · exact Or.inr ⟨Or.inr ha, hk⟩
    · rintro (ha | ⟨rfl | ha, hk⟩)
      · exact Or.inr (Or.inl ha)
      · exact Or.inl rfl
      · exact Or.inr (Or.inr ⟨ha, hk⟩)

theorem unionNewer_cons_of_eq (hn : SortedBy key (x :: xs)) (ho : SortedBy key (y :: ys))
    (h : key x = key y) :
    unionNewer key (x :: xs) (y :: ys) = x :: unionNewer key xs ys := by
  refine (eq_unionNewer hn ho ((sortedBy_unionNewer hn.tail ho.tail).cons ?_) fun a ↦ ?_).symm
  · intro b hb
    rcases mem_unionNewer.mp hb with hb | ⟨hb, -⟩
    · exact hn.lt_of_mem hb
    · exact h ▸ ho.lt_of_mem hb
  · rw [List.mem_cons, mem_unionNewer, List.mem_cons (l := xs), List.mem_cons (l := ys), or_assoc]
    have : a ∈ ys ∧ key a ∉ xs.map key ↔ (a = y ∨ a ∈ ys) ∧ key a ∉ (x :: xs).map key := by
      constructor
      · rintro ⟨ha, hk⟩
        exact ⟨Or.inr ha, (mem_keys_cons_of_lt (h ▸ ho.lt_of_mem ha)).not.mpr hk⟩
      · rintro ⟨rfl | ha, hk⟩
        · exact absurd (by simp [h]) hk
        · exact ⟨ha, (mem_keys_cons_of_lt (h ▸ ho.lt_of_mem ha)).not.mp hk⟩
    rw [this]

/-! ### The shadowed elements -/

theorem shadowed_nil_left : shadowed key [] ys = [] := by simp [shadowed]

theorem shadowed_cons_of_lt (ho : SortedBy key (y :: ys)) (h : key x < key y) :
    shadowed key (x :: xs) (y :: ys) = shadowed key xs (y :: ys) := by
  refine List.filter_congr fun a ha ↦ decide_eq_decide.mpr (mem_keys_cons_of_lt ?_)
  rcases List.mem_cons.mp ha with rfl | ha
  · exact h
  · exact h.trans (ho.lt_of_mem ha)

theorem shadowed_cons_of_gt (hn : SortedBy key (x :: xs)) (h : key y < key x) :
    shadowed key (x :: xs) (y :: ys) = shadowed key (x :: xs) ys := by
  refine List.filter_cons_of_neg ?_
  rw [decide_eq_true_eq]
  intro hy
  obtain ⟨b, hb, hkey⟩ := List.mem_map.mp hy
  rcases List.mem_cons.mp hb with rfl | hb
  · exact h.ne' hkey
  · exact (h.trans (hn.lt_of_mem hb)).ne' hkey

theorem shadowed_cons_of_eq (ho : SortedBy key (y :: ys)) (h : key x = key y) :
    shadowed key (x :: xs) (y :: ys) = y :: shadowed key xs ys := by
  rw [shadowed, List.filter_cons_of_pos (by simp [h])]
  exact congrArg _ (List.filter_congr fun a ha ↦
    decide_eq_decide.mpr (mem_keys_cons_of_lt (h ▸ ho.lt_of_mem ha)))

end Cons

/-- The two-pointer loop returns the union and the number of shadowed elements. -/
theorem mergeLoop_eq {fuel : Nat} (hn : SortedBy key newer) (ho : SortedBy key older)
    (hfuel : newer.length + older.length ≤ fuel) :
    mergeLoop key fuel newer older =
      (unionNewer key newer older, (shadowed key newer older).length) := by
  induction fuel generalizing newer older with
  | zero =>
    obtain rfl : newer = [] := List.length_eq_zero_iff.mp (by omega)
    obtain rfl : older = [] := List.length_eq_zero_iff.mp (by omega)
    simp [mergeLoop, shadowed_nil_left, unionNewer_nil_left ho]
  | succ fuel ih =>
    rcases newer with _ | ⟨x, xs⟩
    · simp [mergeLoop, shadowed_nil_left, unionNewer_nil_left ho]
    rcases older with _ | ⟨y, ys⟩
    · simp [mergeLoop, shadowed, unionNewer_nil_right hn]
    simp only [List.length_cons] at hfuel
    rw [mergeLoop]
    split_ifs with hlt hgt
    · rw [ih hn.tail ho (by simp; omega), unionNewer_cons_of_lt hn ho hlt,
        shadowed_cons_of_lt ho hlt]
    · rw [ih hn ho.tail (by simp; omega), unionNewer_cons_of_gt hn ho hgt,
        shadowed_cons_of_gt hn hgt]
    · have heq := le_antisymm (not_lt.mp hgt) (not_lt.mp hlt)
      rw [ih hn.tail ho.tail (by omega), unionNewer_cons_of_eq hn ho heq,
        shadowed_cons_of_eq ho heq]
      rfl

/-- Every older element is kept or shadowed. -/
theorem length_unionNewer (key : α → κ) (newer older : List α) :
    (unionNewer key newer older).length + (shadowed key newer older).length =
      newer.length + older.length := by
  rw [unionNewer, shadowed, List.length_insertionSort, List.length_append, Nat.add_assoc,
    Nat.add_left_cancel_iff]
  have := List.length_eq_length_filter_add (l := older) fun a ↦ decide (key a ∈ newer.map key)
  simp only [decide_not] at *
  omega

end Union

end EnhancedLetIndex
