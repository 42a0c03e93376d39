import EnhancedLetIndex.Basic.Except

/-!
# JSON values

The values of `json.loads`.  An object is a list of fields, read by the first field of each
name; the order of the fields means nothing, so two values are the same (`Json.Same`) when
their objects look up alike.  Booleans, integers and other numbers are three kinds of values:
`True`, `1` and `1.0` compare equal in Python and are told apart here, as `isinstance` does.

A strict decoder accepts exactly the values that are the same as an encoding.  What it takes to
show that is collected below: `same_obj_iff` for a record with a fixed set of fields and
`same_arr_map_iff` for a list.
-/

namespace EnhancedLetIndex

/-- A JSON value.  `float` is a number written with a fraction or an exponent. -/
inductive Json where
  | null
  | bool (value : Bool)
  | int (value : Int)
  | float (value : ℚ)
  | str (value : String)
  | arr (items : List Json)
  | obj (fields : List (String × Json))

namespace Json

/-! ## Sameness -/

/-- The values are equal, up to the order of the fields of their objects. -/
inductive Same : Json → Json → Prop
  | null : Same null null
  | bool (b : Bool) : Same (bool b) (bool b)
  | int (n : Int) : Same (int n) (int n)
  | float (q : ℚ) : Same (float q) (float q)
  | str (s : String) : Same (str s) (str s)
  | arr {xs ys : List Json} : List.Forall₂ Same xs ys → Same (arr xs) (arr ys)
  | obj {fs gs : List (String × Json)} :
      (∀ k, Option.Rel Same (fs.lookup k) (gs.lookup k)) → Same (obj fs) (obj gs)

variable {p q : Json}

@[simp] theorem same_null_iff : p.Same null ↔ p = null :=
  ⟨fun h ↦ by cases h; rfl, fun h ↦ h ▸ .null⟩

@[simp] theorem same_int_iff {n : Int} : p.Same (int n) ↔ p = int n :=
  ⟨fun h ↦ by cases h; rfl, fun h ↦ h ▸ .int n⟩

@[simp] theorem same_bool_iff {b : Bool} : p.Same (bool b) ↔ p = bool b :=
  ⟨fun h ↦ by cases h; rfl, fun h ↦ h ▸ .bool b⟩

@[simp] theorem same_str_iff {s : String} : p.Same (str s) ↔ p = str s :=
  ⟨fun h ↦ by cases h; rfl, fun h ↦ h ▸ .str s⟩

theorem same_arr_iff {ys : List Json} :
    p.Same (arr ys) ↔ ∃ xs, p = arr xs ∧ List.Forall₂ Same xs ys := by
  constructor
  · intro h
    cases h with
    | arr h => exact ⟨_, rfl, h⟩
  · rintro ⟨xs, rfl, h⟩
    exact .arr h

theorem same_arr_map_iff {α : Type*} {f : α → Json} {l : List α} :
    p.Same (arr (l.map f)) ↔ ∃ xs, p = arr xs ∧ List.Forall₂ (fun x a ↦ x.Same (f a)) xs l := by
  simp only [same_arr_iff, List.forall₂_map_right_iff]

/-! ## Objects -/

/-- A record with the fields of `gs` and no others. -/
theorem same_obj_iff {gs : List (String × Json)} (hgs : (gs.map Prod.fst).Nodup) :
    p.Same (obj gs) ↔ ∃ fs, p = obj fs ∧ (∀ f ∈ fs, f.1 ∈ gs.map Prod.fst) ∧
      ∀ g ∈ gs, ∃ v, fs.lookup g.1 = some v ∧ v.Same g.2 := by
  constructor
  · intro h
    cases h with
    | @obj fs _ h =>
      refine ⟨fs, rfl, fun f hf ↦ ?_, fun g hg ↦ ?_⟩
      · by_contra hk
        have hrel := h f.1
        rw [lookup_eq_none.mpr hk] at hrel
        cases hfs : fs.lookup f.1 with
        | none => exact lookup_eq_none.mp hfs (List.mem_map_of_mem hf)
        | some v =>
          rw [hfs] at hrel
          cases hrel
      · have hrel := h g.1
        rw [lookup_of_mem hgs hg] at hrel
        cases hfs : fs.lookup g.1 with
        | none =>
          rw [hfs] at hrel
          cases hrel
        | some v =>
          rw [hfs] at hrel
          cases hrel with
          | some hsame => exact ⟨v, rfl, hsame⟩
  · rintro ⟨fs, rfl, hkeys, hvalues⟩
    refine .obj fun k ↦ ?_
    by_cases hk : k ∈ gs.map Prod.fst
    · obtain ⟨g, hg, rfl⟩ := List.mem_map.mp hk
      obtain ⟨v, hv, hsame⟩ := hvalues g hg
      rw [hv, lookup_of_mem hgs hg]
      exact .some hsame
    · have hfs : k ∉ fs.map Prod.fst := by
        intro hmem
        obtain ⟨f, hf, rfl⟩ := List.mem_map.mp hmem
        exact hk (hkeys f hf)
      rw [lookup_eq_none.mpr hk, lookup_eq_none.mpr hfs]
      exact .none

theorem sizeOf_lookup {k : String} {fs : List (String × Json)} {v : Json}
    (h : fs.lookup k = some v) : sizeOf v < sizeOf fs := by
  have := List.sizeOf_lt_of_mem (mem_of_lookup h)
  simp only [Prod.mk.sizeOf_spec] at this
  omega

theorem Same.refl : ∀ p : Json, p.Same p
  | .null => .null
  | .bool b => .bool b
  | .int n => .int n
  | .float q => .float q
  | .str s => .str s
  | .arr xs => .arr (List.forall₂_same.mpr fun x hx ↦
      have := List.sizeOf_lt_of_mem hx
      Same.refl x)
  | .obj fs => .obj fun k ↦
      match h : fs.lookup k with
      | none => .none
      | some v =>
        have := sizeOf_lookup h
        .some (Same.refl v)

/-- A relation of the items of two lists, changed on the items of the first one. -/
theorem rel_items {r s : Json → Json → Prop} {xs ys : List Json} (h : List.Forall₂ r xs ys)
    (hrs : ∀ x y, sizeOf x < sizeOf xs → r x y → s x y) : List.Forall₂ s xs ys := by
  have hmem : ∀ x ∈ xs, sizeOf x < sizeOf xs := fun x hx ↦ List.sizeOf_lt_of_mem hx
  revert hmem
  generalize sizeOf xs = n at hrs
  intro hmem
  induction h with
  | nil => exact .nil
  | cons hxy _ ih =>
    obtain ⟨hx, hxs⟩ := List.forall_mem_cons.mp hmem
    exact .cons (hrs _ _ hx hxy) (ih hxs)

/-- A relation of the fields of two objects, changed on the fields of the first one. -/
theorem rel_lookup {r s : Json → Json → Prop} {fs : List (String × Json)} {k : String}
    {v : Option Json} (h : Option.Rel r (fs.lookup k) v)
    (hrs : ∀ x y, sizeOf x < sizeOf fs → r x y → s x y) : Option.Rel s (fs.lookup k) v := by
  cases hfs : fs.lookup k with
  | none =>
    rw [hfs] at h
    cases h
    exact .none
  | some x =>
    rw [hfs] at h
    cases h with
    | some hxy => exact .some (hrs _ _ (sizeOf_lookup hfs) hxy)

theorem Same.symm {p q : Json} (h : p.Same q) : q.Same p := by
  cases h with
  | null => exact .null
  | bool b => exact .bool b
  | int n => exact .int n
  | float q => exact .float q
  | str s => exact .str s
  | @arr xs ys h =>
    exact .arr (List.Forall₂.flip (rel_items (s := fun x y ↦ y.Same x) h
      fun x y hlt hxy ↦ hxy.symm))
  | @obj fs gs h =>
    refine .obj fun k ↦ ?_
    have hrel := rel_lookup (s := fun x y ↦ y.Same x) (h k) fun x y hlt hxy ↦ hxy.symm
    cases hfs : fs.lookup k with
    | none =>
      rw [hfs] at hrel
      generalize gs.lookup k = w at hrel
      cases hrel
      exact .none
    | some x =>
      rw [hfs] at hrel
      generalize gs.lookup k = w at hrel
      cases hrel with
      | some hyx => exact .some hyx
termination_by sizeOf p

theorem Same.trans {p q r : Json} (h : p.Same q) (h' : q.Same r) : p.Same r := by
  cases h with
  | null => exact h'
  | bool b => exact h'
  | int n => exact h'
  | float q => exact h'
  | str s => exact h'
  | @arr xs ys h =>
    cases h' with
    | @arr _ zs h' =>
      refine .arr ?_
      have hrel := rel_items (s := fun x y ↦ ∀ z, y.Same z → x.Same z) h
        fun x y hlt hxy z hyz ↦ hxy.trans hyz
      clear h
      induction hrel generalizing zs with
      | nil => exact h'
      | cons hxy _ ih =>
        cases h' with
        | cons hyz h' => exact .cons (hxy _ hyz) (ih h')
  | @obj fs gs h =>
    cases h' with
    | @obj _ hs h' =>
      refine .obj fun k ↦ ?_
      have hrel := rel_lookup (s := fun x y ↦ ∀ z, y.Same z → x.Same z) (h k)
        fun x y hlt hxy z hyz ↦ hxy.trans hyz
      have hrel' := h' k
      cases hfs : fs.lookup k with
      | none =>
        rw [hfs] at hrel
        generalize gs.lookup k = w at hrel hrel'
        cases hrel
        exact hrel'
      | some x =>
        rw [hfs] at hrel
        generalize gs.lookup k = w at hrel hrel'
        cases hrel with
        | some hyx =>
          generalize hs.lookup k = v at hrel'
          cases hrel' with
          | some hyz => exact .some (hyx _ hyz)
termination_by sizeOf p
decreasing_by
  all_goals
    subst_vars
    simp only [arr.sizeOf_spec, obj.sizeOf_spec]
    omega

/-! ## Agreement on a field -/

/-- The value under a name, where there is one: an object alone has fields. -/
def field (key : String) : Json → Option Json
  | obj fs => fs.lookup key
  | _ => none

@[simp] theorem field_obj (key : String) (fs : List (String × Json)) :
    (obj fs).field key = fs.lookup key := rfl

theorem field_eq_some {key : String} {v : Json} :
    p.field key = some v ↔ ∃ fs, p = obj fs ∧ fs.lookup key = some v := by
  cases p <;> simp [field]

/-- Two values, where there are values, are the same. -/
abbrev Agree : Option Json → Option Json → Prop := Option.Rel Same

theorem Agree.symm {v w : Option Json} (h : Agree v w) : Agree w v := by
  cases h with
  | none => exact .none
  | some h => exact .some h.symm

end Json

end EnhancedLetIndex
