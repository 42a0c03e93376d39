import Mathlib.Tactic

/-!
# Identifiers and records

The four identifier namespaces of `identifiers.py`, each wrapping one integer and none of
them interchangeable, and the record of `record.py`.  Record keys and slots are ordered by
the integer they wrap.
-/

namespace EnhancedLetIndex

/-- A plaintext record key. -/
@[ext]
structure RecordKey where
  value : Int
deriving DecidableEq, Repr, Inhabited

/-- A logical block identifier. -/
@[ext]
structure BlockId where
  value : Int
deriving DecidableEq, Repr

/-- A logical level identifier. -/
@[ext]
structure LevelId where
  value : Int
deriving DecidableEq, Repr

/-- A physical storage slot identifier. -/
@[ext]
structure SlotId where
  value : Int
deriving DecidableEq, Repr

namespace RecordKey

instance : LE RecordKey := ⟨fun a b ↦ a.value ≤ b.value⟩
instance : LT RecordKey := ⟨fun a b ↦ a.value < b.value⟩

theorem lt_def {a b : RecordKey} : a < b ↔ a.value < b.value := Iff.rfl

instance : DecidableLE RecordKey := fun a b ↦ inferInstanceAs (Decidable (a.value ≤ b.value))
instance : DecidableLT RecordKey := fun a b ↦ inferInstanceAs (Decidable (a.value < b.value))

/-- Keys compare as the integers they wrap (`order=True`). -/
instance : LinearOrder RecordKey where
  le_refl a := le_refl a.value
  le_trans _ _ _ := le_trans (α := Int)
  lt_iff_le_not_ge _ _ := lt_iff_le_not_ge (α := Int)
  le_antisymm _ _ h h' := RecordKey.ext (le_antisymm h h')
  le_total a b := le_total a.value b.value
  toDecidableLE := inferInstance
  toDecidableEq := inferInstance
  toDecidableLT := inferInstance

end RecordKey

/-! ## Adjacent keys -/

/-- The first adjacent pair of keys that does not increase: the checks over
`zip(keys, keys[1:])`. -/
def firstNotIncreasing : List RecordKey → Option (RecordKey × RecordKey)
  | left :: right :: rest =>
    if left ≥ right then some (left, right) else firstNotIncreasing (right :: rest)
  | _ => none

theorem firstNotIncreasing_eq_none {keys : List RecordKey} :
    firstNotIncreasing keys = none ↔ keys.Pairwise (· < ·) := by
  rw [← List.isChain_iff_pairwise]
  fun_induction firstNotIncreasing keys with
  | case1 left right rest hge => simp [hge]
  | case2 left right rest hlt ih => simp [ih, not_le.mp hlt]
  | case3 keys hkeys =>
    rcases keys with _ | ⟨k, _ | ⟨k', keys⟩⟩
    · simp
    · simp
    · exact absurd rfl (hkeys k k' keys)

/-! ## Records -/

/-- A key/value entry.  `version` and `tombstone` are reserved by the source: every
operation copies them with the record and none reads them. -/
structure Record (V : Type) where
  key : RecordKey
  value : V
  version : Option Int := none
  tombstone : Bool := false
deriving DecidableEq, Repr

end EnhancedLetIndex
