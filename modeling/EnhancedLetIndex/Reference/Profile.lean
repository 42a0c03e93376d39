import EnhancedLetIndex.Pgm.Model

/-!
# The profile of a reference experiment

`ReferenceProfile` of `letindex_ref.py`: the frozen upstream geometry, its labelled deviations
and the layout.  A profile carries the proof that its constructor accepts it, so the facts the
rest of the reference index needs (positive block capacity, a layout key where the layout
permutes) are lemmas about every profile.
-/

namespace EnhancedLetIndex

/-- `ReferenceProfileError`, by the check that raises it, and the index error of the tuples. -/
inductive ReferenceError where
  | deviation (name : String) (value expected : Int)
  | nonPositiveItems
  | negativeEpsilon
  | prpKeyIsSeed
  | missingPrpKey
  | orderedWithKey
  | blankLabel
  | negativeLevel (level : Int)
  | belowMinLevel (level minLevel : Int)
  | duplicateKeys (level : Int)
  | overCapacity (level : Int) (count : Nat) (capacity : Int)
  | noLayoutKey
  | pgm (error : PgmError)
  | noRegion (level : Int)
  | noBlockOffset (level : Int) (offset blockCount : Nat)
  | outsideProjection (slot : Int)
  | noLevel (level : Int)
  | noPhysicalBlock (level : Int) (physical blockCount : Nat)
  | noBlockRank (level rank : Int) (blockCount : Nat)
  | noPgm (level : Int)
  | outsideLevel (level : Int) (first last itemCount : Nat)
  | alreadyLoaded
  | index
deriving DecidableEq, Repr

/-- The layout modes. -/
inductive Layout where
  | ordered
  | staticPrp
deriving DecidableEq, Repr

/-- The text of a layout mode. -/
def Layout.text : Layout → String
  | .ordered => "ordered"
  | .staticPrp => "static_prp"

/-- The fields of a profile, before its constructor has checked them. -/
structure ProfileFields where
  base : Int := 8
  minLevel : Int := 3
  minIndexLevel : Int := 6
  minDiskLevel : Int := 7
  blockSize : Int := 4096
  itemSize : Int := 16
  itemsPerBlock : Int := 256
  epsilon : Int := 64
  layout : Layout := .ordered
  seed : Int := 0
  prpKey : Option Int := none
  variantLabel : Option String := none
deriving DecidableEq, Repr

namespace ProfileFields

/-- The geometry of a profile beside the `FROZEN_DEFAULTS`. -/
def geometry (p : ProfileFields) : List (String × Int × Int) :=
  [("base", p.base, 8), ("min_level", p.minLevel, 3), ("min_index_level", p.minIndexLevel, 6),
    ("min_disk_level", p.minDiskLevel, 7), ("block_size", p.blockSize, 4096),
    ("item_size", p.itemSize, 16), ("items_per_block", p.itemsPerBlock, 256),
    ("epsilon", p.epsilon, 64)]

/-- Truth of an optional text: present and not empty. -/
def labelled (p : ProfileFields) : Bool := p.variantLabel.any (· ≠ "")

/-- The characters `str.strip` removes. -/
def isSpace (c : Char) : Bool :=
  (9 ≤ c.toNat && c.toNat ≤ 13) || (28 ≤ c.toNat && c.toNat ≤ 32) || c.toNat == 0x85 ||
    c.toNat == 0xa0 || c.toNat == 0x1680 || (0x2000 ≤ c.toNat && c.toNat ≤ 0x200a) ||
    c.toNat == 0x2028 || c.toNat == 0x2029 || c.toNat == 0x202f || c.toNat == 0x205f ||
    c.toNat == 0x3000

/-- Whether nothing is left of a text when it is stripped. -/
def blank (s : String) : Bool := s.toList.all isSpace

/-- The first deviation from the frozen defaults. -/
def firstDeviation (p : ProfileFields) : Option (String × Int × Int) :=
  p.geometry.find? fun g ↦ g.2.1 ≠ g.2.2 ∧ ¬ p.labelled

/-- `__post_init__`. -/
def postInit (p : ProfileFields) : Except ReferenceError Unit := do
  match p.firstDeviation with
  | some (name, value, expected) => throw (.deviation name value expected)
  | none => require (0 < p.itemSize ∧ 0 < p.itemsPerBlock) .nonPositiveItems
  require (0 ≤ p.epsilon) .negativeEpsilon
  require (p.prpKey ≠ some p.seed) .prpKeyIsSeed
  require (¬ (p.layout = .staticPrp ∧ p.prpKey = none)) .missingPrpKey
  require (¬ (p.layout = .ordered ∧ p.prpKey.isSome)) .orderedWithKey
  require (¬ p.variantLabel.any blank) .blankLabel

theorem postInit_eq_ok {p : ProfileFields} : p.postInit = .ok () ↔
    p.firstDeviation = none ∧ (0 < p.itemSize ∧ 0 < p.itemsPerBlock) ∧ 0 ≤ p.epsilon ∧
      p.prpKey ≠ some p.seed ∧ ¬ (p.layout = .staticPrp ∧ p.prpKey = none) ∧
      ¬ (p.layout = .ordered ∧ p.prpKey.isSome) ∧ ¬ p.variantLabel.any blank := by
  unfold postInit
  cases p.firstDeviation with
  | none => simp only [require_bind_eq_ok, require_eq_ok, true_and]
  | some g => simp

end ProfileFields

/-- `ReferenceProfile`: fields that the constructor accepts. -/
structure ReferenceProfile extends ProfileFields where
  accepted : toProfileFields.postInit = .ok ()

namespace ReferenceProfile

variable (p : ReferenceProfile)

theorem itemsPerBlock_pos : 0 < p.itemsPerBlock.toNat := by
  have := (ProfileFields.postInit_eq_ok.mp p.accepted).2.1.2
  omega

theorem epsilon_nonneg : 0 ≤ p.epsilon := (ProfileFields.postInit_eq_ok.mp p.accepted).2.2.1

theorem prpKey_isSome (h : p.layout = .staticPrp) : ∃ key, p.prpKey = some key := by
  have := (ProfileFields.postInit_eq_ok.mp p.accepted).2.2.2.2.1
  exact Option.ne_none_iff_exists'.mp fun hnone ↦ this ⟨h, hnone⟩

/-! ## Geometry -/

/-- `max_size`. -/
def maxSize (level : Int) : Except ReferenceError Int := do
  require (0 ≤ level) (.negativeLevel level)
  pure (p.base ^ level.toNat)

/-- `block_count`: the blocks of `itemsPerBlock` items that hold `itemCount` items. -/
def blockCount (itemCount : Nat) : Nat :=
  (itemCount + p.itemsPerBlock.toNat - 1) / p.itemsPerBlock.toNat

/-- `has_index`. -/
def hasIndex (level : Int) : Bool := p.minIndexLevel ≤ level

/-- `level_backing`. -/
def levelBacking (level : Int) : String := if p.minDiskLevel ≤ level then "disk" else "memory"

/-- `layout_key`. -/
def layoutKey : Except ReferenceError Int :=
  match p.prpKey with
  | none => .error .noLayoutKey
  | some key => .ok key

/-- `_level_seed`: the seed of a level's permutation. -/
def levelSeed (layoutKey level : Int) : Int := layoutKey * 1000003 + level

/-- The key `build` permutes with: the layout key, or 0 where the layout has none. -/
def buildKey : Except ReferenceError Int :=
  if p.layout = .staticPrp then p.layoutKey else pure 0

theorem buildKey_eq_ok : ∃ key, p.buildKey = .ok key := by
  unfold buildKey layoutKey
  split_ifs with h
  · obtain ⟨key, hkey⟩ := p.prpKey_isSome h
    exact ⟨key, by rw [hkey]⟩
  · exact ⟨0, rfl⟩

end ReferenceProfile

/-! ## Constructing a profile -/

/-- Nothing deviates where the profile is labelled or has the defaults. -/
theorem ProfileFields.firstDeviation_eq_none {fields : ProfileFields} :
    fields.firstDeviation = none ↔
      fields.labelled = true ∨ ∀ g ∈ fields.geometry, g.2.1 = g.2.2 := by
  rw [firstDeviation, List.find?_eq_none]
  by_cases hlabel : fields.labelled = true
  · simp [hlabel]
  · simp [hlabel]

namespace ReferenceProfile

/-- The constructor. -/
def ofFields (fields : ProfileFields) : Except ReferenceError ReferenceProfile :=
  match h : fields.postInit with
  | .ok () => .ok ⟨fields, h⟩
  | .error e => .error e

/-- `reference`. -/
def reference (layout : Layout) (seed : Int) (prpKey : Option Int) :
    Except ReferenceError ReferenceProfile :=
  ofFields { layout, seed, prpKey }

/-- The overrides of `experimental_variant`. -/
structure Overrides where
  itemsPerBlock : Option Int := none
  epsilon : Option Int := none
  base : Option Int := none
  minLevel : Option Int := none
  minIndexLevel : Option Int := none
  minDiskLevel : Option Int := none
  blockSize : Option Int := none
  itemSize : Option Int := none

/-- The fields of a variant: an override that is none leaves the default. -/
def variantFields (label : String) (layout : Layout) (seed : Int) (prpKey : Option Int)
    (o : Overrides) : ProfileFields where
  base := o.base.getD 8
  minLevel := o.minLevel.getD 3
  minIndexLevel := o.minIndexLevel.getD 6
  minDiskLevel := o.minDiskLevel.getD 7
  blockSize := o.blockSize.getD 4096
  itemSize := o.itemSize.getD 16
  itemsPerBlock := o.itemsPerBlock.getD 256
  epsilon := o.epsilon.getD 64
  layout := layout
  seed := seed
  prpKey := prpKey
  variantLabel := some label

/-- `experimental_variant`. -/
def experimentalVariant (label : String) (layout : Layout) (seed : Int) (prpKey : Option Int)
    (o : Overrides) : Except ReferenceError ReferenceProfile := do
  require (¬(label = "" ∨ ProfileFields.blank label)) .blankLabel
  ofFields (variantFields label layout seed prpKey o)

theorem ofFields_eq_ok {fields : ProfileFields} {p : ReferenceProfile} :
    ofFields fields = .ok p ↔ p.toProfileFields = fields := by
  rw [ofFields]
  constructor
  · intro h
    split at h
    · cases h
      rfl
    · cases h
  · rintro rfl
    split
    · rfl
    · rename_i e he
      rw [p.accepted] at he
      cases he

/-- A profile is constructed exactly when the constructor accepts its fields. -/
theorem exists_ofFields_iff {fields : ProfileFields} :
    (∃ p, ofFields fields = .ok p) ↔ fields.postInit = .ok () := by
  simp only [ofFields_eq_ok]
  constructor
  · rintro ⟨p, rfl⟩
    exact p.accepted
  · exact fun h ↦ ⟨⟨fields, h⟩, rfl⟩

end ReferenceProfile

end EnhancedLetIndex
