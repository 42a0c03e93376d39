import Mathlib.Data.List.Nodup
import Mathlib.Data.Set.Function
import EnhancedLetIndex.Basic.Related

/-!
# Naming by first occurrence

Every key of a list gets the name of its class, and the classes are named in the order in which
they first occur.  The names of a list tell exactly which of its keys are equal
(`zip_classify_inj`), and they do not change when the keys are renamed injectively
(`classify_map`).
-/

namespace EnhancedLetIndex

namespace FirstOccurrence

variable {α β L : Type*}

/-- The classes have different keys and the first names, in order. -/
structure Named (name : Nat → L) (classes : List (α × L)) : Prop where
  nodup : (classes.map Prod.fst).Nodup
  names : classes.map Prod.snd = (List.range classes.length).map name

theorem Named.nil (name : Nat → L) : Named name ([] : List (α × L)) := ⟨List.nodup_nil, rfl⟩

theorem Named.snd_inj {name : Nat → L} (hname : name.Injective) {classes : List (α × L)}
    (h : Named name classes) {c d : α × L} (hc : c ∈ classes) (hd : d ∈ classes)
    (hcd : c.2 = d.2) : c = d := by
  have hnodup : (classes.map Prod.snd).Nodup := by
    rw [h.names]
    exact List.nodup_range.map hname
  exact List.inj_on_of_nodup_map hnodup hc hd hcd

theorem Named.fst_inj {name : Nat → L} {classes : List (α × L)} (h : Named name classes)
    {c d : α × L} (hc : c ∈ classes) (hd : d ∈ classes) (hcd : c.1 = d.1) : c = d :=
  List.inj_on_of_nodup_map h.nodup hc hd hcd

variable [DecidableEq α] [DecidableEq β]

/-- `setdefault` of a dictionary: the value of the key, which is stored if there is none. -/
def setdefault (classes : List (α × L)) (key : α) (name : L) : L × List (α × L) :=
  match classes.lookup key with
  | some known => (known, classes)
  | none => (name, classes ++ [(key, name)])

/-- The names of the keys of a list, from the classes known so far on. -/
def classify (name : Nat → L) : List (α × L) → List α → List L
  | _, [] => []
  | classes, key :: keys =>
    let (label, classes) := setdefault classes key (name classes.length)
    label :: classify name classes keys

@[simp] theorem length_classify (name : Nat → L) (classes : List (α × L)) (keys : List α) :
    (classify name classes keys).length = keys.length := by
  induction keys generalizing classes with
  | nil => rfl
  | cons key keys ih => rw [classify, List.length_cons, ih, List.length_cons]

/-! ## Renaming -/

theorem lookup_map {f : α → β} {classes : List (α × L)} {key : α}
    (hf : ∀ c ∈ classes, f c.1 = f key → c.1 = key) :
    (classes.map (Prod.map f id)).lookup (f key) = classes.lookup key := by
  induction classes with
  | nil => rfl
  | cons c classes ih =>
    obtain ⟨hc, hclasses⟩ := List.forall_mem_cons.mp hf
    rw [List.map_cons, Prod.map, List.lookup_cons, List.lookup_cons, ih hclasses]
    have hkey : (f key == f c.1) = (key == c.1) := by
      rw [Bool.eq_iff_iff, beq_iff_eq, beq_iff_eq]
      exact ⟨fun h ↦ (hc h.symm).symm, fun h ↦ congrArg f h⟩
    rw [hkey]
    rfl

/-- An injective renaming of the keys changes no name. -/
theorem classify_map (name : Nat → L) {f : α → β} {classes : List (α × L)} {keys : List α}
    (hf : Set.InjOn f {k | k ∈ classes.map Prod.fst ∨ k ∈ keys}) :
    classify name (classes.map (Prod.map f id)) (keys.map f) = classify name classes keys := by
  induction keys generalizing classes with
  | nil => rfl
  | cons key keys ih =>
    have hlookup : (classes.map (Prod.map f id)).lookup (f key) = classes.lookup key :=
      lookup_map fun c hc h ↦ hf (.inl (List.mem_map_of_mem hc)) (.inr List.mem_cons_self) h
    rw [List.map_cons, classify, classify, setdefault, setdefault, hlookup, List.length_map]
    cases hknown : classes.lookup key with
    | some known =>
      refine congrArg (known :: ·) (ih fun k hk k' hk' ↦ hf ?_ ?_)
      · exact hk.imp_right (List.mem_cons_of_mem _)
      · exact hk'.imp_right (List.mem_cons_of_mem _)
    | none =>
      have hnew : classes.map (Prod.map f id) ++ [(f key, name classes.length)] =
          (classes ++ [(key, name classes.length)]).map (Prod.map f id) := by
        rw [List.map_append]
        rfl
      have hmem : ∀ k, k ∈ (classes ++ [(key, name classes.length)]).map Prod.fst ∨ k ∈ keys →
          k ∈ classes.map Prod.fst ∨ k ∈ key :: keys := by
        intro k
        rw [List.map_append, List.mem_append, List.map_singleton, List.mem_singleton,
          List.mem_cons]
        tauto
      show _ :: classify name (_ ++ _) _ = _
      rw [hnew]
      exact congrArg _ (ih fun k hk k' hk' ↦ hf (hmem k hk) (hmem k' hk'))

/-! ## Equal names -/

/-- The names of a list are those of one dictionary, which extends the known classes. -/
theorem exists_named (name : Nat → L) {classes : List (α × L)} (h : Named name classes)
    (keys : List α) : ∃ final, Named name final ∧ classes ⊆ final ∧
      ∀ c ∈ keys.zip (classify name classes keys), c ∈ final := by
  induction keys generalizing classes with
  | nil => exact ⟨classes, h, List.Subset.refl _, by simp⟩
  | cons key keys ih =>
    rw [classify, setdefault]
    cases hlookup : classes.lookup key with
    | some known =>
      obtain ⟨final, hfinal, hsub, hmem⟩ := ih h
      exact ⟨final, hfinal, hsub,
        List.forall_mem_cons.mpr ⟨hsub (mem_of_lookup hlookup), hmem⟩⟩
    | none =>
      have hnew : Named name (classes ++ [(key, name classes.length)]) := by
        constructor
        · rw [List.map_append, List.map_singleton, ← List.concat_eq_append]
          exact h.nodup.concat (lookup_eq_none.mp hlookup)
        · rw [List.map_append, h.names, List.length_append, List.length_singleton,
            List.range_succ, List.map_append]
          rfl
      obtain ⟨final, hfinal, hsub, hmem⟩ := ih hnew
      exact ⟨final, hfinal, fun c hc ↦ hsub (List.mem_append_left _ hc),
        List.forall_mem_cons.mpr ⟨hsub (List.mem_append_right _ List.mem_cons_self), hmem⟩⟩

/-- Every name is the name of some number. -/
theorem exists_of_mem_classify {name : Nat → L} {keys : List α} {label : L}
    (h : label ∈ classify name [] keys) : ∃ n, label = name n := by
  obtain ⟨final, hfinal, -, hmem⟩ := exists_named name (Named.nil name) keys
  obtain ⟨i, hi, rfl⟩ := List.mem_iff_getElem.mp h
  have hi' : i < (keys.zip (classify name [] keys)).length := by
    rw [List.length_zip, length_classify] at *
    omega
  have hfinal' := List.mem_map_of_mem (f := Prod.snd) (hmem _ (List.getElem_mem hi'))
  rw [hfinal.names, List.getElem_zip] at hfinal'
  obtain ⟨n, -, hn⟩ := List.mem_map.mp hfinal'
  exact ⟨n, hn.symm⟩

/-- Two keys have the same name exactly when they are equal. -/
theorem zip_classify_inj {name : Nat → L} (hname : name.Injective) {keys : List α} {c d : α × L}
    (hc : c ∈ keys.zip (classify name [] keys)) (hd : d ∈ keys.zip (classify name [] keys)) :
    c.2 = d.2 ↔ c.1 = d.1 := by
  obtain ⟨final, hfinal, -, hmem⟩ := exists_named name (Named.nil name) keys
  constructor
  · intro h
    rw [hfinal.snd_inj hname (hmem c hc) (hmem d hd) h]
  · intro h
    rw [hfinal.fst_inj (hmem c hc) (hmem d hd) h]

end FirstOccurrence

end EnhancedLetIndex
