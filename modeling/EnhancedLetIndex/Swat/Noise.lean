import EnhancedLetIndex.Swat.Plan

/-!
# Noisy prefix sums

`compute_noisy_prefix_sums` of `bin_allocator.py`, over any arithmetic of its floating-point
numbers (`NoiseArithmetic`) and any stream of noise.  No access to a list of the tree fails, so
that the sums are computed whenever every estimate is finite (`computeNoisyPrefixSums_spec`).
-/

namespace EnhancedLetIndex

/-- What the noisy sums use of floating-point numbers. -/
class NoiseArithmetic (F : Type) where
  zero : F
  add : F → F → F
  ofInt : Int → F
  isFinite : F → Bool
  /-- Whether the number is at most 0. -/
  nonpos : F → Bool
  /-- Whether the number is at least the largest unsigned integer of 32 bits. -/
  saturates : F → Bool
  /-- The number without its fraction. -/
  truncate : F → Int

/-- Exact arithmetic, in which every number is finite. -/
instance rationalNoise : NoiseArithmetic ℚ where
  zero := 0
  add := (· + ·)
  ofInt n := n
  isFinite _ := true
  nonpos x := x ≤ 0
  saturates x := 2 ^ 32 - 1 ≤ x
  truncate x := ⌊x⌋

variable {F : Type} [NoiseArithmetic F]

open NoiseArithmetic

/-- `pinned_uint32_cast`. -/
def pinnedUint32Cast (x : F) : Except AllocationError Int := do
  require (isFinite x) .notFinite
  pure (if nonpos x then 0 else if saturates x then 2 ^ 32 - 1 else truncate x)

/-- The loop of `_trailing_zeros`: bits are tested from one on. -/
def trailingZerosFrom (value : Nat) : Nat → Nat → Nat
  | 0, count => count
  | fuel + 1, count =>
    if value.testBit count then count else trailingZerosFrom value fuel (count + 1)

/-- `_trailing_zeros`, which tests at most as many bits as the value. -/
def trailingZeros (value : Nat) : Nat := trailingZerosFrom value value 0

/-- `block_sums` and `noisy_sums`: the sums of the blocks of loads that are still open. -/
structure NoisySums (F : Type) where
  blockSums : List Int
  noisySums : List F
deriving DecidableEq

namespace NoisySums

/-- The sums before the first load. -/
def zeros (levels : Nat) : NoisySums F := ⟨.replicate levels 0, .replicate levels zero⟩

/-- A level folded into the next block: its sum is added to the target, and it is cleared. -/
def fold (acc : Int × NoisySums F) (lower : Nat) : Int × NoisySums F :=
  (acc.1 + acc.2.blockSums.getD lower 0,
    ⟨acc.2.blockSums.set lower 0, acc.2.noisySums.set lower zero⟩)

/-- A load is taken in: it closes the blocks below a level and opens the one of the level. -/
def absorb (s : NoisySums F) (index : Nat) (load : Int) (noise : F) : NoisySums F :=
  let acc := (List.range index).foldl fold (load, s)
  ⟨acc.2.blockSums.set index acc.1, acc.2.noisySums.set index (add (ofInt acc.1) noise)⟩

/-- The noisy sums at the bits of `t`, added up. -/
def running (s : NoisySums F) (t : Nat) : F :=
  (List.range (t.log2 + 1)).foldl (fun sum level ↦
    if t.testBit level then add sum (s.noisySums.getD level zero) else sum) zero

end NoisySums

/-- The value of a prefix sum in the window around the true sum. -/
def clipPrefixSum (capacity : Nat) (currentSum value : Int) : Int :=
  let value := if value > currentSum + capacity then currentSum + capacity else value
  if value + capacity < currentSum then currentSum - capacity else value

/-- What the loop of `compute_noisy_prefix_sums` carries. -/
structure NoiseState (F : Type) where
  sums : NoisySums F
  prefixSums : List Int
  currentSum : Int
  additiveError : Int
deriving DecidableEq

/-- The body of the loop, for the load of bin `t - 1`. -/
def NoiseState.step (capacity : Nat) (noise : Nat → F) (t : Nat) (s : NoiseState F) (load : Int) :
    Except AllocationError (NoiseState F) := do
  let index := trailingZeros t
  let currentSum := s.currentSum + load
  require (index < s.sums.blockSums.length) .index
  let sums := s.sums.absorb index load (noise t)
  require (t.log2 < sums.noisySums.length) .index
  let estimate ← pinnedUint32Cast (sums.running t)
  require (t < s.prefixSums.length) .index
  let before := s.prefixSums.getD (t - 1) 0
  let value := clipPrefixSum capacity currentSum (if estimate < before then before else estimate)
  pure {
    sums
    prefixSums := s.prefixSums.set t value
    currentSum
    additiveError := max s.additiveError |currentSum - value| }

/-- The loop, from load `t` on. -/
def noiseLoop (capacity : Nat) (noise : Nat → F) :
    Nat → List Int → NoiseState F → Except AllocationError (NoiseState F)
  | _, [], s => pure s
  | t, load :: loads, s => do
    let s ← s.step capacity noise t load
    noiseLoop capacity noise (t + 1) loads s

/-- A load is within the capacity of a bin. -/
def requireLoad (capacity : Nat) (load : Int) : Except AllocationError Int := do
  require (0 ≤ load) (.belowMinimum "a sampled bin load" load 0)
  require (load ≤ capacity) (.loadOutside load capacity)
  pure load

/-- `compute_noisy_prefix_sums`: the sums and the additive error. -/
def computeNoisyPrefixSums (capacity : Nat) (noise : Nat → F) (binLoads : List Int) :
    Except AllocationError (List Int × Int) := do
  let loads ← binLoads.mapM (requireLoad capacity)
  if loads = [] then pure ([0], 0)
  else do
    let s ← noiseLoop capacity noise 1 loads
      ⟨.zeros (Nat.clog 2 (loads.length + 1)), .replicate (loads.length + 1) 0, 0, 0⟩
    pure (s.prefixSums, s.additiveError)

/-! ## Every access is in range -/

theorem testBit_trailingZerosFrom {value fuel count : Nat} (h : ∃ i, count ≤ i ∧ i < count + fuel ∧
    value.testBit i) : value.testBit (trailingZerosFrom value fuel count) := by
  induction fuel generalizing count with
  | zero =>
    obtain ⟨i, hle, hlt, -⟩ := h
    omega
  | succ fuel ih =>
    rw [trailingZerosFrom]
    split_ifs with hbit
    · exact hbit
    · obtain ⟨i, hle, hlt, hi⟩ := h
      refine ih ⟨i, ?_, by omega, hi⟩
      exact Nat.lt_of_le_of_ne hle fun heq ↦ hbit (heq ▸ hi)

/-- The lowest bit of a positive number is one of its bits. -/
theorem two_pow_trailingZeros_le {t : Nat} (ht : 0 < t) : 2 ^ trailingZeros t ≤ t := by
  apply Nat.ge_two_pow_of_testBit
  refine testBit_trailingZerosFrom ⟨t.log2, Nat.zero_le _, ?_, ?_⟩
  · rw [Nat.zero_add]
    exact (Nat.log2_lt ht.ne').mpr Nat.lt_two_pow_self
  · exact Nat.testBit_log2 ht.ne'

/-- A bit of a number up to `n` is below the number of levels for `n`. -/
theorem lt_clog_of_two_pow_le {i t n : Nat} (h : 2 ^ i ≤ t) (ht : t ≤ n) :
    i < Nat.clog 2 (n + 1) := by
  have hlevels : n + 1 ≤ 2 ^ Nat.clog 2 (n + 1) := Nat.le_pow_clog (by decide) _
  apply (Nat.pow_lt_pow_iff_right (a := 2) (by decide)).mp
  omega

namespace NoisySums

theorem length_fold (indices : List Nat) (acc : Int × NoisySums F) :
    (indices.foldl fold acc).2.blockSums.length = acc.2.blockSums.length ∧
      (indices.foldl fold acc).2.noisySums.length = acc.2.noisySums.length := by
  induction indices generalizing acc with
  | nil => exact ⟨rfl, rfl⟩
  | cons lower indices ih =>
    obtain ⟨h, h'⟩ := ih (fold acc lower)
    exact ⟨h.trans List.length_set, h'.trans List.length_set⟩

theorem length_absorb (s : NoisySums F) (index : Nat) (load : Int) (noise : F) :
    (s.absorb index load noise).blockSums.length = s.blockSums.length ∧
      (s.absorb index load noise).noisySums.length = s.noisySums.length := by
  obtain ⟨h, h'⟩ := length_fold (List.range index) (load, s)
  exact ⟨List.length_set.trans h, List.length_set.trans h'⟩

/-- Every estimate of the loads from `t` on is finite. -/
def FiniteFrom (noise : Nat → F) : Nat → List Int → NoisySums F → Prop
  | _, [], _ => True
  | t, load :: loads, s =>
    isFinite ((s.absorb (trailingZeros t) load (noise t)).running t) = true ∧
      FiniteFrom noise (t + 1) loads (s.absorb (trailingZeros t) load (noise t))

/-- In an arithmetic of finite numbers every estimate is finite. -/
theorem finiteFrom_of_forall (h : ∀ x : F, isFinite x = true) (noise : Nat → F) (t : Nat)
    (loads : List Int) (s : NoisySums F) : FiniteFrom noise t loads s := by
  induction loads generalizing t s with
  | nil => trivial
  | cons load loads ih => exact ⟨h _, ih (t + 1) _⟩

end NoisySums

/-- The lists of the loop have room for `n` loads. -/
structure NoiseState.Room (n : Nat) (s : NoiseState F) : Prop where
  blockSums : s.sums.blockSums.length = Nat.clog 2 (n + 1)
  noisySums : s.sums.noisySums.length = Nat.clog 2 (n + 1)
  prefixSums : s.prefixSums.length = n + 1
  error_nonneg : 0 ≤ s.additiveError

/-- The body of the loop succeeds when its estimate is finite. -/
theorem NoiseState.step_spec (capacity : Nat) (noise : Nat → F) (load : Int) {n t : Nat}
    {s : NoiseState F} (h : s.Room n) (ht : 0 < t) (htn : t ≤ n)
    (hfinite : isFinite ((s.sums.absorb (trailingZeros t) load (noise t)).running t) = true) :
    ∃ s', s.step capacity noise t load = .ok s' ∧ s'.Room n ∧
      s'.sums = s.sums.absorb (trailingZeros t) load (noise t) := by
  have hindex : trailingZeros t < s.sums.blockSums.length := by
    rw [h.blockSums]
    exact lt_clog_of_two_pow_le (two_pow_trailingZeros_le ht) htn
  obtain ⟨hblock, hnoisy⟩ := s.sums.length_absorb (trailingZeros t) load (noise t)
  have hlog : t.log2 < (s.sums.absorb (trailingZeros t) load (noise t)).noisySums.length := by
    rw [hnoisy, h.noisySums]
    exact lt_clog_of_two_pow_le (Nat.log2_self_le ht.ne') htn
  have hprefix : t < s.prefixSums.length := by
    rw [h.prefixSums]
    omega
  rw [step]
  simp only [require_of hindex, require_of hlog, pinnedUint32Cast, require_of hfinite,
    require_of hprefix, ok_bind, pure_eq_ok]
  exact ⟨_, rfl, ⟨hblock.trans h.blockSums, hnoisy.trans h.noisySums,
    List.length_set.trans h.prefixSums, le_max_of_le_left h.error_nonneg⟩, rfl⟩

theorem noiseLoop_spec (capacity : Nat) {n t : Nat} {noise : Nat → F} {loads : List Int}
    {s : NoiseState F} (h : s.Room n) (ht : 0 < t) (htn : t + loads.length ≤ n + 1)
    (hfinite : NoisySums.FiniteFrom noise t loads s.sums) :
    ∃ s', noiseLoop capacity noise t loads s = .ok s' ∧ s'.Room n := by
  induction loads generalizing t s with
  | nil => exact ⟨s, rfl, h⟩
  | cons load loads ih =>
    rw [List.length_cons] at htn
    obtain ⟨s₁, hstep, hroom, hsums⟩ := NoiseState.step_spec capacity noise load h ht
      (by omega) hfinite.1
    rw [noiseLoop, hstep, ok_bind]
    exact ih hroom t.succ_pos (by omega) (hsums ▸ hfinite.2)

/-- Loads within the capacity pass their checks. -/
theorem mapM_requireLoad_self {capacity : Nat} {loads : List Int}
    (hloads : ∀ load ∈ loads, 0 ≤ load ∧ load ≤ capacity) :
    loads.mapM (requireLoad capacity) = .ok loads := by
  have hid := mapM_eq_ok (f := requireLoad capacity) (g := id) fun load hload ↦ by
    rw [requireLoad, require_of (hloads load hload).1, ok_bind,
      require_of (hloads load hload).2, ok_bind]
    rfl
  rwa [List.map_id] at hid

/-- The noisy sums of loads whose estimates are finite: one more than there are loads. -/
theorem computeNoisyPrefixSums_spec {capacity : Nat} {noise : Nat → F} {loads : List Int}
    (hloads : ∀ load ∈ loads, 0 ≤ load ∧ load ≤ capacity)
    (hfinite : NoisySums.FiniteFrom noise 1 loads (.zeros (Nat.clog 2 (loads.length + 1)))) :
    ∃ sums error, computeNoisyPrefixSums capacity noise loads = .ok (sums, error) ∧
      sums.length = loads.length + 1 ∧ 0 ≤ error := by
  rw [computeNoisyPrefixSums, mapM_requireLoad_self hloads, ok_bind]
  split_ifs with hnil
  · subst hnil
    exact ⟨[0], 0, rfl, rfl, le_rfl⟩
  · have hroom : NoiseState.Room loads.length
        ⟨.zeros (Nat.clog 2 (loads.length + 1)), .replicate (loads.length + 1) 0, 0, 0⟩ (F := F) :=
      ⟨List.length_replicate, List.length_replicate, List.length_replicate, le_rfl⟩
    obtain ⟨s, hs, hroom'⟩ := noiseLoop_spec capacity hroom Nat.one_pos
      (by omega) hfinite
    rw [hs, ok_bind]
    exact ⟨_, _, rfl, hroom'.prefixSums, hroom'.error_nonneg⟩

end EnhancedLetIndex
