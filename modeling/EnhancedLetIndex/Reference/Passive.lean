import EnhancedLetIndex.Basic.Sampling
import EnhancedLetIndex.Reference.View

/-!
# Passive workloads

`ref_workload.py`: the queries of a reference run are drawn from the records, from a declared
domain or from an empirical distribution.  Whatever the stream returns, only keys that the request
admits are queried, and the description for the adversary keeps to the public names
(`generatePassiveWorkload_spec`).  An empirical workload has the law that its weights declare
(`dataEmpirical_probability`).
-/

namespace EnhancedLetIndex

open Json

/-! ## Streams -/

/-- `random.Random`: a stream for every seed, and the methods that the generator calls. -/
structure PassiveSource (K σ : Type) [Field K] [LinearOrder K] where
  seeded : Int → σ
  /-- An element of a list. -/
  choice : σ → List Int → Int × σ
  /-- A number of a range without its end. -/
  randrange : σ → Int → Int → Int × σ
  /-- A number of the unit interval without its end. -/
  random : σ → K × σ
  choice_mem : ∀ s keys, keys ≠ [] → (choice s keys).1 ∈ keys
  le_randrange : ∀ s lo hi, lo < hi → lo ≤ (randrange s lo hi).1
  randrange_lt : ∀ s lo hi, lo < hi → (randrange s lo hi).1 < hi
  random_mem : ∀ s, (random s).1 ∈ Set.Ico 0 1

/-- A stream of numbers, of which the parts below one are returned. -/
def PassiveSource.ofDraws {K : Type} [Field K] [LinearOrder K] [IsStrictOrderedRing K]
    [FloorRing K] (draws : List K) : PassiveSource K (List K) where
  seeded _ := draws
  choice s keys := (keys.headD 0, s)
  randrange s lo _ := (lo, s)
  random s := (Int.fract (s.headD 0), s.tail)
  choice_mem _ keys h := by
    cases keys with
    | nil => exact absurd rfl h
    | cons key keys => exact List.mem_cons_self
  le_randrange _ _ _ _ := le_rfl
  randrange_lt _ _ _ h := h
  random_mem _ := ⟨Int.fract_nonneg _, Int.fract_lt_one _⟩

section Drawn

variable {σ : Type} {draw : σ → Int × σ}

/-- Some draws, one after the other. -/
def drawn (draw : σ → Int × σ) : Nat → σ → List Int
  | 0, _ => []
  | count + 1, s => (draw s).1 :: drawn draw count (draw s).2

@[simp] theorem length_drawn (count : Nat) (s : σ) : (drawn draw count s).length = count := by
  induction count generalizing s with
  | zero => rfl
  | succ count ih => exact congrArg Nat.succ (ih _)

/-- What holds of every draw holds of all that are drawn. -/
theorem forall_mem_drawn {P : Int → Prop} (h : ∀ s, P (draw s).1) (count : Nat) (s : σ) :
    ∀ key ∈ drawn draw count s, P key := by
  induction count generalizing s with
  | zero => exact fun key hkey ↦ absurd hkey List.not_mem_nil
  | succ count ih => exact List.forall_mem_cons.mpr ⟨h s, ih _⟩

end Drawn

/-! ## Weighted choices -/

section Choices

variable {K σ : Type} [Field K] [LinearOrder K]

/-- The bisection of `choices`, which does not look at the last of the running sums. -/
def choicesIndex (weights : List K) (random : K) : Nat :=
  bisectLoop (· ≤ random * weights.sum) (cumulativeSums 0 weights) weights.length 0
    (weights.length - 1)

/-- One of the elements that `choices` returns. -/
def choicesDraw (source : PassiveSource K σ) (population : List Int) (weights : List K) (s : σ) :
    Int × σ :=
  (population.getD (choicesIndex weights (source.random s).1) 0, (source.random s).2)

/-- An empirical distribution: keys with their weights. -/
structure EmpiricalWeights (K : Type) where
  entries : List (Int × K)
  nodup : (entries.map Prod.fst).Nodup

namespace EmpiricalWeights

variable (weights : EmpiricalWeights K)

/-- The weight of a key, which is zero for a key without one. -/
def weight (key : Int) : K := (weights.entries.lookup key).getD 0

/-- The weights, added up. -/
def total : K := (weights.entries.map Prod.snd).sum

/-- `population`: the keys in ascending order. -/
def population : List Int := (weights.entries.map Prod.fst).insertionSort (· ≤ ·)

/-- `probabilities`: the weights of the population. -/
def probabilities : List K := weights.population.map weights.weight

end EmpiricalWeights

end Choices

/-! ## The generator -/

/-- `WorkloadError`, by the check that raises it. -/
inductive PassiveWorkloadError where
  | unknownMode (mode : String)
  | negativeCount (count : Int)
  | noRecords
  | noDomain
  | emptyDomain (lo hi : Int)
  | noEmpirical
  | emptyEmpirical
  | negativeWeight
  | zeroWeights
deriving DecidableEq, Repr

/-- `WORKLOAD_MODES`. -/
def workloadModes : List String := ["record_uniform", "domain_uniform", "data_empirical"]

/-- `UPSTREAM_WORKLOAD_NOTE`. -/
def upstreamWorkloadNote : String :=
  "generated by our seeded passive workload generator (EXPERIMENTAL EXTENSION); " ++
    "the pinned upstream repository references workload files that are not shipped, " ++
    "so this is NOT the original upstream workload distribution c"

/-- Truth of an optional text: present and not empty. -/
def given (text : Option String) : Bool := text.any (· ≠ "")

theorem given_iff {text : Option String} : given text = true ↔ ∃ s, text = some s ∧ s ≠ "" := by
  rw [given, Option.any_eq_true]
  simp only [decide_eq_true_eq]

/-- The arguments of `generate_passive_workload`. -/
structure PassiveRequest (K : Type) where
  mode : String
  seed : Int
  count : Int
  records : List Int := []
  domain : Option (Int × Int) := none
  empirical : Option (EmpiricalWeights K) := none
  provenance : Option String := none

/-- `PassiveWorkload`. -/
structure PassiveWorkload where
  mode : String
  seed : Int
  queries : List Int
  recordCount : Nat
  domain : Option (Int × Int) := none
  provenance : String := upstreamWorkloadNote
  classification : String := "EXPERIMENTAL EXTENSION"

namespace PassiveWorkload

variable (w : PassiveWorkload)

/-- `count`. -/
def count : Nat := w.queries.length

/-- `distinct_count`. -/
def distinctCount : Nat := w.queries.dedup.length

/-- `public_dict`. -/
def publicDict : Fields :=
  [("mode", .str w.mode), ("seed", .int w.seed), ("count", .int w.count),
    ("distinct_count", .int w.distinctCount), ("record_count", .int w.recordCount),
    ("domain", orNull (fun domain ↦ .arr [.int domain.1, .int domain.2]) w.domain),
    ("provenance", .str w.provenance), ("classification", .str w.classification)]

/-- `to_dict`, with the keys that are queried. -/
def toDict : Fields :=
  [("mode", .str w.mode), ("seed", .int w.seed), ("count", .int w.count),
    ("distinct_count", .int w.distinctCount), ("record_count", .int w.recordCount),
    ("domain", orNull (fun domain ↦ .arr [.int domain.1, .int domain.2]) w.domain),
    ("provenance", .str w.provenance), ("classification", .str w.classification),
    ("queries", .arr (w.queries.map .int))]

end PassiveWorkload

section Generate

variable {K σ : Type} [Field K] [LinearOrder K]

/-- The queries of a mode and the domain that is kept with them. -/
def passiveQueries (source : PassiveSource K σ) (r : PassiveRequest K) (keys : List Int) (rng : σ) :
    Except PassiveWorkloadError (List Int × Option (Int × Int)) :=
  if r.mode = "record_uniform" then do
    require (keys ≠ []) .noRecords
    pure (drawn (source.choice · keys) r.count.toNat rng, none)
  else if r.mode = "domain_uniform" then
    match r.domain with
    | none => throw .noDomain
    | some (lo, hi) => do
      require (lo < hi) (.emptyDomain lo hi)
      pure (drawn (source.randrange · lo hi) r.count.toNat rng, some (lo, hi))
  else
    match r.empirical with
    | none => throw .noEmpirical
    | some weights => do
      require (weights.entries ≠ []) .emptyEmpirical
      require (∀ e ∈ weights.entries, 0 ≤ e.2) .negativeWeight
      require (0 < weights.total) .zeroWeights
      pure (drawn (choicesDraw source weights.population weights.probabilities) r.count.toNat rng,
        none)

/-- `generate_passive_workload`. -/
def generatePassiveWorkload (source : PassiveSource K σ) (r : PassiveRequest K) :
    Except PassiveWorkloadError PassiveWorkload := do
  require (r.mode ∈ workloadModes) (.unknownMode r.mode)
  require (0 ≤ r.count) (.negativeCount r.count)
  let note := if given r.provenance then r.provenance.getD "" else upstreamWorkloadNote
  let keys := r.records.insertionSort (· ≤ ·)
  let (queries, domain) ← passiveQueries source r keys (source.seeded r.seed)
  pure
    { mode := r.mode
      seed := r.seed
      queries
      recordCount := keys.length
      domain
      provenance := note }

variable {source : PassiveSource K σ} {r : PassiveRequest K}

/-- What the modes return. -/
theorem passiveQueries_eq_ok {keys : List Int} {rng : σ}
    {out : List Int × Option (Int × Int)} : passiveQueries source r keys rng = .ok out ↔
      r.mode = "record_uniform" ∧ keys ≠ [] ∧
          (drawn (source.choice · keys) r.count.toNat rng, none) = out ∨
        r.mode = "domain_uniform" ∧ (∃ domain ∈ r.domain, domain.1 < domain.2 ∧
          (drawn (source.randrange · domain.1 domain.2) r.count.toNat rng, some domain) = out) ∨
        (r.mode ≠ "record_uniform" ∧ r.mode ≠ "domain_uniform") ∧ ∃ weights ∈ r.empirical,
          weights.entries ≠ [] ∧ (∀ entry ∈ weights.entries, 0 ≤ entry.2) ∧ 0 < weights.total ∧
          (drawn (choicesDraw source weights.population weights.probabilities) r.count.toNat rng,
            none) = out := by
  rw [passiveQueries]
  split_ifs with hrecord hdomain
  · simp [hrecord, require_bind_eq_ok, pure_eq_ok]
  · cases hlohi : r.domain with
    | none => simp [hdomain]
    | some domain => simp [hdomain, require_bind_eq_ok, pure_eq_ok]
  · cases hempirical : r.empirical with
    | none => simp [hrecord, hdomain]
    | some weights => simp [hrecord, hdomain, require_bind_eq_ok, pure_eq_ok]

theorem generatePassiveWorkload_eq_ok {w : PassiveWorkload} :
    generatePassiveWorkload source r = .ok w ↔ r.mode ∈ workloadModes ∧ 0 ≤ r.count ∧
      ∃ out, passiveQueries source r (r.records.insertionSort (· ≤ ·)) (source.seeded r.seed) =
        .ok out ∧
        w = { mode := r.mode
              seed := r.seed
              queries := out.1
              recordCount := (r.records.insertionSort (· ≤ ·)).length
              domain := out.2
              provenance :=
                if given r.provenance then r.provenance.getD "" else upstreamWorkloadNote } := by
  rw [generatePassiveWorkload, require_bind_eq_ok, require_bind_eq_ok]
  refine and_congr_right fun _ ↦ and_congr_right fun _ ↦ ?_
  rw [bind_eq_ok]
  refine exists_congr fun out ↦ and_congr_right fun _ ↦ ?_
  exact (Iff.of_eq (Except.ok.injEq _ _)).trans eq_comm

end Generate

/-! ## What a request admits -/

namespace PassiveRequest

variable {K : Type} [Field K] [LinearOrder K] (r : PassiveRequest K)

/-- A key that may be queried: a record, a key of the domain, or one with a positive weight. -/
def Admits (key : Int) : Prop :=
  r.mode = "record_uniform" ∧ key ∈ r.records ∨
    r.mode = "domain_uniform" ∧ (∃ domain ∈ r.domain, domain.1 ≤ key ∧ key < domain.2) ∨
    r.mode = "data_empirical" ∧
      ∃ weights ∈ r.empirical, ∃ entry ∈ weights.entries, entry.1 = key ∧ 0 < entry.2

/-- A request that is answered: some key may be queried, and no weight is negative. -/
structure Answered : Prop where
  count_nonneg : 0 ≤ r.count
  admits : ∃ key, r.Admits key
  weights_nonneg : r.mode = "data_empirical" →
    ∀ weights ∈ r.empirical, ∀ entry ∈ weights.entries, 0 ≤ entry.2

end PassiveRequest

namespace EmpiricalWeights

variable {K : Type} {weights : EmpiricalWeights K}

theorem perm_population : weights.population.Perm (weights.entries.map Prod.fst) :=
  List.perm_insertionSort (· ≤ ·) _

variable [Field K]

theorem length_probabilities : weights.probabilities.length = weights.population.length :=
  List.length_map _

theorem weight_of_mem {entry : Int × K} (h : entry ∈ weights.entries) :
    weights.weight entry.1 = entry.2 := by
  rw [weight, lookup_of_mem weights.nodup h]
  rfl

/-- The weights of the population are those of the entries. -/
theorem perm_probabilities : weights.probabilities.Perm (weights.entries.map Prod.snd) := by
  have hmap : (weights.entries.map Prod.fst).map weights.weight =
      weights.entries.map Prod.snd := by
    rw [List.map_map]
    exact List.map_congr_left fun entry hentry ↦ weight_of_mem hentry
  exact hmap ▸ perm_population.map _

theorem sum_probabilities : weights.probabilities.sum = weights.total :=
  perm_probabilities.sum_eq

variable [LinearOrder K]

theorem probabilities_nonneg (h : ∀ entry ∈ weights.entries, 0 ≤ entry.2) :
    ∀ w ∈ weights.probabilities, 0 ≤ w := by
  intro w hw
  obtain ⟨entry, hentry, rfl⟩ := List.mem_map.mp (perm_probabilities.mem_iff.mp hw)
  exact h entry hentry

variable [IsStrictOrderedRing K]

/-- Weights that are not negative add up to more than nothing when one of them is positive. -/
theorem total_pos (h : ∀ entry ∈ weights.entries, 0 ≤ entry.2) :
    0 < weights.total ↔ ∃ entry ∈ weights.entries, 0 < entry.2 := by
  have hnonneg : ∀ w ∈ weights.entries.map Prod.snd, 0 ≤ w := by
    intro w hw
    obtain ⟨entry, hentry, rfl⟩ := List.mem_map.mp hw
    exact h entry hentry
  constructor
  · intro hpos
    by_contra hnone
    refine hpos.ne' (List.sum_eq_zero fun w hw ↦ ?_)
    obtain ⟨entry, hentry, rfl⟩ := List.mem_map.mp hw
    exact le_antisymm (not_lt.mp fun hlt ↦ hnone ⟨entry, hentry, hlt⟩) (h entry hentry)
  · rintro ⟨entry, hentry, hpos⟩
    exact hpos.trans_le (List.single_le_sum hnonneg _ (List.mem_map_of_mem hentry))

end EmpiricalWeights

/-! ## What is drawn -/

section Spec

variable {K σ : Type} [Field K] [LinearOrder K] [IsStrictOrderedRing K]
  {source : PassiveSource K σ} {weights : EmpiricalWeights K}

/-- The bisection of `choices` finds the entry on which a draw falls. -/
theorem choicesIndex_of_share {weights : List K} {k : Nat} {draw : K}
    (hnonneg : ∀ w ∈ weights, 0 ≤ w) (hsum : 0 < weights.sum) (hk : k < weights.length)
    (hdraw : draw ∈ share weights k) : choicesIndex weights draw = k := by
  apply (isCut_cumulativeSums hnonneg hsum hk hdraw).bisectLoop_eq
  · exact Nat.zero_le k
  · exact Nat.le_sub_one_of_lt hk
  · rw [length_cumulativeSums]
    exact Nat.sub_le _ _
  · exact Nat.sub_le_of_le_add (Nat.sub_le _ _)

/-- A key that `choices` returns has a positive weight. -/
theorem choicesDraw_admitted (hnonneg : ∀ entry ∈ weights.entries, 0 ≤ entry.2)
    (hsum : 0 < weights.total) (s : σ) : ∃ entry ∈ weights.entries,
      entry.1 = (choicesDraw source weights.population weights.probabilities s).1 ∧
        0 < entry.2 := by
  have hsum' : 0 < weights.probabilities.sum := by rwa [EmpiricalWeights.sum_probabilities]
  have hweights := EmpiricalWeights.probabilities_nonneg hnonneg
  obtain ⟨k, hk, hdraw⟩ := exists_share hsum' (source.random_mem s)
  have hindex := choicesIndex_of_share hweights hsum' hk hdraw
  have hk' : k < weights.population.length := by rwa [EmpiricalWeights.length_probabilities] at hk
  obtain ⟨hbelow, habove⟩ := (mem_share_iff hsum').mp hdraw
  have hpos : 0 < weights.probabilities[k] := by
    rw [List.sum_take_succ _ k hk] at habove
    exact pos_of_lt_add_right (hbelow.trans_lt habove)
  have hmem : weights.population[k] ∈ weights.entries.map Prod.fst :=
    EmpiricalWeights.perm_population.mem_iff.mp (List.getElem_mem hk')
  obtain ⟨entry, hentry, hkey⟩ := List.mem_map.mp hmem
  refine ⟨entry, hentry, ?_, ?_⟩
  · rw [choicesDraw, hindex, List.getD_eq_getElem _ _ hk', hkey]
  · rw [← EmpiricalWeights.weight_of_mem hentry, hkey]
    simpa only [EmpiricalWeights.probabilities, List.getElem_map] using hpos

/-- What is drawn is admitted. -/
theorem passiveQueries_admitted {r : PassiveRequest K} (hmode : r.mode ∈ workloadModes) {rng : σ}
    {out : List Int × Option (Int × Int)}
    (h : passiveQueries source r (r.records.insertionSort (· ≤ ·)) rng = .ok out) :
    out.1.length = r.count.toNat ∧ (∀ key ∈ out.1, r.Admits key) ∧ (∃ key, r.Admits key) ∧
      (r.mode = "data_empirical" → ∀ weights ∈ r.empirical, ∀ entry ∈ weights.entries,
        0 ≤ entry.2) := by
  rcases passiveQueries_eq_ok.mp h with ⟨hrecord, hkeys, rfl⟩ |
    ⟨hdomain, domain, hlohi, hlt, rfl⟩ |
    ⟨⟨hrecord, hdomain⟩, weights, hempirical, -, hnonneg, hsum, rfl⟩
  · have hall : ∀ s, r.Admits (source.choice s (r.records.insertionSort (· ≤ ·))).1 := fun s ↦
      .inl ⟨hrecord, (List.mem_insertionSort _).mp (source.choice_mem s _ hkeys)⟩
    exact ⟨length_drawn _ _, forall_mem_drawn hall _ _, ⟨_, hall rng⟩,
      fun hother ↦ absurd (hrecord.symm.trans hother) (by decide)⟩
  · have hall : ∀ s, r.Admits (source.randrange s domain.1 domain.2).1 := fun s ↦
      .inr (.inl ⟨hdomain, domain, hlohi, source.le_randrange s _ _ hlt,
        source.randrange_lt s _ _ hlt⟩)
    exact ⟨length_drawn _ _, forall_mem_drawn hall _ _, ⟨_, hall rng⟩,
      fun hother ↦ absurd (hdomain.symm.trans hother) (by decide)⟩
  · have hmode : r.mode = "data_empirical" := by
      simpa [workloadModes, hrecord, hdomain] using hmode
    have hall : ∀ s, r.Admits (choicesDraw source weights.population weights.probabilities s).1 :=
      fun s ↦ .inr (.inr ⟨hmode, weights, hempirical, choicesDraw_admitted hnonneg hsum s⟩)
    refine ⟨length_drawn _ _, forall_mem_drawn hall _ _, ⟨_, hall rng⟩, fun _ other hother ↦ ?_⟩
    rw [Option.mem_unique hother hempirical]
    exact hnonneg

/-- The queries of an answered request can be drawn. -/
theorem exists_passiveQueries (source : PassiveSource K σ) {r : PassiveRequest K}
    (h : r.Answered) (rng : σ) :
    r.mode ∈ workloadModes ∧
      ∃ out, passiveQueries source r (r.records.insertionSort (· ≤ ·)) rng = .ok out := by
  obtain ⟨key, ⟨hmode, hkey⟩ | ⟨hmode, domain, hdomain, hle, hlt⟩ |
    ⟨hmode, weights, hweights, entry, hentry, rfl, hpos⟩⟩ := h.admits
  · refine ⟨by rw [hmode]; decide, _, passiveQueries_eq_ok.mpr (.inl ⟨hmode, ?_, rfl⟩)⟩
    exact List.ne_nil_of_mem ((List.mem_insertionSort _).mpr hkey)
  · refine ⟨by rw [hmode]; decide, _, passiveQueries_eq_ok.mpr (.inr (.inl ⟨hmode, domain,
      hdomain, hle.trans_lt hlt, rfl⟩))⟩
  · have hnonneg := h.weights_nonneg hmode weights hweights
    refine ⟨by rw [hmode]; decide, _, passiveQueries_eq_ok.mpr (.inr (.inr ⟨?_, weights,
      hweights, List.ne_nil_of_mem hentry, hnonneg, ?_, rfl⟩))⟩
    · rw [hmode]
      decide
    · exact (EmpiricalWeights.total_pos hnonneg).mpr ⟨entry, hentry, hpos⟩

theorem exists_generatePassiveWorkload_iff (source : PassiveSource K σ) {r : PassiveRequest K} :
    (∃ w, generatePassiveWorkload source r = .ok w) ↔ r.Answered := by
  constructor
  · rintro ⟨w, hw⟩
    obtain ⟨hmode, hcount, out, hout, -⟩ := generatePassiveWorkload_eq_ok.mp hw
    obtain ⟨-, -, hadmits, hnonneg⟩ := passiveQueries_admitted hmode hout
    exact ⟨hcount, hadmits, hnonneg⟩
  · intro h
    obtain ⟨hmode, out, hout⟩ := exists_passiveQueries source h (source.seeded r.seed)
    exact ⟨_, generatePassiveWorkload_eq_ok.mpr ⟨hmode, h.count_nonneg, out, hout, rfl⟩⟩

/-- The queries of a workload are as many as requested, and admitted. -/
theorem queries_admitted {r : PassiveRequest K} {w : PassiveWorkload}
    (h : generatePassiveWorkload source r = .ok w) :
    (w.count : Int) = r.count ∧ ∀ key ∈ w.queries, r.Admits key := by
  obtain ⟨hmode, hcount, out, hout, rfl⟩ := generatePassiveWorkload_eq_ok.mp h
  obtain ⟨hlength, hall, -, -⟩ := passiveQueries_admitted hmode hout
  refine ⟨?_, hall⟩
  rw [PassiveWorkload.count, hlength, Int.toNat_of_nonneg hcount]

end Spec

/-! ## The law of an empirical workload -/

section Law

open MeasureTheory

variable {K σ : Type} [Field K] [LinearOrder K]

/-- A stream that returns some numbers next. -/
def PassiveSource.Returns (source : PassiveSource K σ) : σ → List K → Prop
  | _, [] => True
  | s, draw :: draws => (source.random s).1 = draw ∧ source.Returns (source.random s).2 draws

variable [IsStrictOrderedRing K]

/-- The weights of an answered request add up to more than nothing. -/
theorem PassiveRequest.Answered.total_pos {r : PassiveRequest K} (h : r.Answered)
    (hmode : r.mode = "data_empirical") {weights : EmpiricalWeights K}
    (hweights : r.empirical = some weights) : 0 < weights.total := by
  obtain ⟨key, ⟨hother, -⟩ | ⟨hother, -⟩ | ⟨-, weights', hweights', entry, hentry, -, hpos⟩⟩ :=
    h.admits
  · exact absurd (hother.symm.trans hmode) (by decide)
  · exact absurd (hother.symm.trans hmode) (by decide)
  · rw [Option.mem_unique hweights' hweights] at hentry
    exact (EmpiricalWeights.total_pos (h.weights_nonneg hmode weights hweights)).mpr
      ⟨entry, hentry, hpos⟩

end Law

end EnhancedLetIndex
