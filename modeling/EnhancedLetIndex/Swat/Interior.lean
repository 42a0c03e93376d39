import EnhancedLetIndex.Swat.Merge
import EnhancedLetIndex.Swat.Sampler

/-!
# Planning a merge

`sample_bin_interior_points` with the stream of its side, and `plan_swat_block_merge_schedule`, of
`content_schedule.py`.  The stream is asked once for each bin with real records, and the records
of a bin are drawn in proportion to their weights (`recordIndexes_probability`).  Whatever the
streams return, a merge is planned exactly when the levels, the geometry and the plans fit
(`planSwatBlockMergeSchedule_iff`).
-/

namespace EnhancedLetIndex

/-! ## The draws of a side -/

section Draws

variable {K V F : Type} [Field K] [LinearOrder K]

/-- The indices drawn for some bins, the stream being asked for those with real records only. -/
def drawnIndexes (base : K) : List (BoundBlockBin V) → (Nat → K) → List Int
  | [], _ => []
  | bin :: bins, stream =>
    if bin.realKeys = [] then 0 :: drawnIndexes base bins stream
    else (drawIndex (interiorPointWeights base bin.realKeys.length) (stream 0)).elim (-1) Int.ofNat ::
      drawnIndexes base bins fun i ↦ stream (i + 1)

/-- `sample_bin_interior_points`, with the exponential of epsilon and the stream of the side. -/
def sampleFromStream (base : K) (bound : BoundBlockAllocation F V) (stream : Nat → K) :
    Except ScheduleError (BoundBlockAllocation F V) :=
  sampleBinInteriorPoints bound fun i ↦ (drawnIndexes base bound.bins stream).getD i 0

/-- The numbers of real records of the bins that have some. -/
def realLoads (bins : List (BoundBlockBin V)) : List Nat :=
  (bins.filter fun bin ↦ bin.realKeys ≠ []).map fun bin ↦ bin.realKeys.length

variable {base : K} {bins : List (BoundBlockBin V)} {stream : Nat → K}

theorem length_drawnIndexes (base : K) (bins : List (BoundBlockBin V)) (stream : Nat → K) :
    (drawnIndexes base bins stream).length = bins.length := by
  induction bins generalizing stream with
  | nil => rfl
  | cons bin bins ih =>
    rw [drawnIndexes]
    split_ifs
    · exact congrArg Nat.succ (ih _)
    · exact congrArg Nat.succ (ih _)

/-- Entries numbered from zero on, each with what a list has at its number. -/
theorem map_zipIdx_getD {α β : Type} {as : List α} {bs : List β} (h : bs.length = as.length)
    (d : β) : (as.zipIdx.map fun entry ↦ (entry.1, bs.getD entry.2 d)) = as.zip bs := by
  refine List.ext_getElem ?_ fun i hi hi' ↦ ?_
  · rw [List.length_map, List.length_zipIdx, List.length_zip, h, Nat.min_self]
  · rw [List.length_zip] at hi'
    rw [List.getElem_map, List.getElem_zipIdx, List.getElem_zip, Nat.zero_add]
    exact congrArg _ (List.getD_eq_getElem _ _ (lt_of_lt_of_le hi' (Nat.min_le_right _ _)))

/-- The index that is kept with the interior point of a bin. -/
theorem recordIndex_of_sample {bin : BoundBlockBin V} {index : Int} {point : InteriorPoint}
    (h : sampleInteriorPoint bin index = .ok point) :
    point.recordIndex = if bin.realKeys = [] then none else some index.toNat := by
  rw [sampleInteriorPoint] at h
  split_ifs at h ⊢ with hkeys
  · cases h
    rfl
  · split at h
    · cases h
      rfl
    · cases h

/-- The indices that are kept, one for each bin with real records. -/
theorem filterMap_recordIndex {interiors : List InteriorPoint}
    (h : List.Forall₂ (fun (entry : BoundBlockBin V × Int) point ↦
      sampleInteriorPoint entry.1 entry.2 = .ok point)
      (bins.zip (drawnIndexes base bins stream)) interiors) :
    interiors.filterMap (·.recordIndex) = (realLoads bins).mapIdx fun j load ↦
      (drawIndex (interiorPointWeights base load) (stream j)).getD 0 := by
  induction bins generalizing stream interiors with
  | nil =>
    cases h
    rfl
  | cons bin bins ih =>
    rw [drawnIndexes] at h
    split_ifs at h with hkeys
    · rw [List.zip_cons_cons, List.forall₂_cons_left_iff] at h
      obtain ⟨point, rest, hpoint, hrest, rfl⟩ := h
      have hindex := recordIndex_of_sample hpoint
      rw [if_pos hkeys] at hindex
      rw [List.filterMap_cons_none hindex, ih hrest, realLoads, realLoads,
        List.filter_cons_of_neg (by simpa using hkeys)]
    · rw [List.zip_cons_cons, List.forall₂_cons_left_iff] at h
      obtain ⟨point, rest, hpoint, hrest, rfl⟩ := h
      have hindex := recordIndex_of_sample hpoint
      rw [if_neg hkeys] at hindex
      rw [List.filterMap_cons_some hindex, ih hrest, realLoads, realLoads,
        List.filter_cons_of_pos (by simpa using hkeys), List.map_cons, List.mapIdx_cons]
      congr 1
      cases drawIndex (interiorPointWeights base bin.realKeys.length) (stream 0) with
      | none => rfl
      | some index => rfl

/-- Sampling with a stream keeps what it draws. -/
theorem filterMap_recordIndex_of_sample {bound bound' : BoundBlockAllocation F V}
    (h : sampleFromStream base bound stream = .ok bound') :
    bound'.interiors.filterMap (·.recordIndex) = (realLoads bound.bins).mapIdx fun j load ↦
      (drawIndex (interiorPointWeights base load) (stream j)).getD 0 := by
  obtain ⟨-, h⟩ := require_bind_eq_ok.mp h
  obtain ⟨interiors, hinteriors, h⟩ := bind_eq_ok.mp h
  obtain ⟨-, -, -, -, -, -, -, rfl⟩ := BoundBlockAllocation.make_eq_ok.mp h
  refine filterMap_recordIndex ?_
  rw [← map_zipIdx_getD (length_drawnIndexes base bound.bins stream) 0,
    List.forall₂_map_left_iff]
  exact mapM_eq_ok_iff.mp hinteriors

variable [IsStrictOrderedRing K]

theorem interiorPointWeights_pos (hbase : 0 < base) (load : Nat) :
    ∀ w ∈ interiorPointWeights base load, 0 < w := by
  intro w hw
  obtain ⟨index, -, rfl⟩ := List.mem_map.mp hw
  rw [fastPower_eq_pow]
  exact pow_pos hbase _

theorem sum_interiorPointWeights_pos (hbase : 0 < base) {load : Nat} (hload : load ≠ 0) :
    0 < (interiorPointWeights base load).sum := by
  refine List.sum_pos _ (interiorPointWeights_pos hbase load) fun hnil ↦ hload ?_
  rw [← length_interiorPointWeights base load, hnil, List.length_nil]

/-- A draw is the entry on which it falls. -/
theorem drawIndex_of_share {weights : List K} (hnonneg : ∀ w ∈ weights, 0 ≤ w)
    (hsum : 0 < weights.sum) {k : Nat} (hk : k < weights.length) {draw : K}
    (hdraw : draw ∈ share weights k) : drawIndex weights draw = some k := by
  rw [drawIndex, if_pos hsum]
  simp only [bisect_cumulativeSums hnonneg hsum hk hdraw]
  rw [if_neg (not_le.mpr hk)]

/-- What is drawn for a bin with real records is the index of one of them. -/
theorem drawnIndexes_getD (hbase : 0 < base) {i : Nat} {bin : BoundBlockBin V}
    (hbin : bins[i]? = some bin) (hkeys : bin.realKeys ≠ []) :
    0 ≤ (drawnIndexes base bins stream).getD i 0 ∧
      (drawnIndexes base bins stream).getD i 0 < bin.realKeys.length := by
  induction bins generalizing i stream with
  | nil => cases hbin
  | cons first bins ih =>
    rw [drawnIndexes]
    cases i with
    | zero =>
      cases hbin
      have hlength := length_interiorPointWeights base bin.realKeys.length
      have hne : interiorPointWeights base bin.realKeys.length ≠ [] := by
        rw [← List.length_pos_iff, hlength]
        exact List.length_pos_of_ne_nil hkeys
      obtain ⟨index, hlt, hindex⟩ :=
        exists_drawIndex hne (interiorPointWeights_pos hbase _) (stream 0)
      rw [if_neg hkeys, hindex, List.getD_cons_zero]
      exact ⟨Int.natCast_nonneg _, Int.ofNat_lt.mpr (hlength ▸ hlt)⟩
    | succ i =>
      split_ifs
      · exact ih hbin
      · exact ih hbin

/-- Whatever the stream returns, the bins of a bound allocation can be sampled. -/
theorem exists_sampleFromStream (hbase : 0 < base) {bound : BoundBlockAllocation F V}
    (hunsampled : bound.sampled = false) (stream : Nat → K) :
    ∃ bound', sampleFromStream base bound stream = .ok bound' :=
  exists_sampleBinInteriorPoints hunsampled fun _ _ ↦ drawnIndexes_getD hbase

end Draws

/-! ## The law of the draws -/

section Law

open MeasureTheory

variable {V F : Type}

/-- The stream of some draws. -/
noncomputable def streamOf {n : Nat} (draws : Fin n → ℝ) (i : Nat) : ℝ :=
  if h : i < n then draws ⟨i, h⟩ else 0

theorem mem_realLoads {bins : List (BoundBlockBin V)} {load : Nat} (h : load ∈ realLoads bins) :
    load ≠ 0 := by
  obtain ⟨bin, hbin, rfl⟩ := List.mem_map.mp h
  have hkeys := (List.mem_filter.mp hbin).2
  rw [decide_eq_true_eq] at hkeys
  exact (List.length_pos_of_ne_nil hkeys).ne'

/-- The probability that given records are drawn, one of each bin that has some. -/
theorem real_sampleFromStream {base : ℝ} (hbase : 0 < base) {bound : BoundBlockAllocation F V}
    (hunsampled : bound.sampled = false) (indexes : Fin (realLoads bound.bins).length → Nat) :
    (uniformDraws (realLoads bound.bins).length).real {draws | ∃ bound',
        sampleFromStream base bound (streamOf draws) = .ok bound' ∧
          bound'.interiors.filterMap (·.recordIndex) = List.ofFn indexes} =
      ∏ j, (interiorPointWeights base (realLoads bound.bins)[j]).getD (indexes j) 0 /
        (interiorPointWeights base (realLoads bound.bins)[j]).sum := by
  let weights (j : Fin (realLoads bound.bins).length) : List ℝ :=
    interiorPointWeights base (realLoads bound.bins)[j]
  have hnonneg : ∀ j, ∀ w ∈ weights j, 0 ≤ w := fun j w hw ↦
    (interiorPointWeights_pos hbase _ w hw).le
  have hsum : ∀ j, 0 < (weights j).sum := fun j ↦
    sum_interiorPointWeights_pos hbase (mem_realLoads (List.getElem_mem _))
  refine real_uniformDraws_entries hnonneg hsum indexes fun draws entry hentry ↦ ?_
  have hdrawn : ((realLoads bound.bins).mapIdx fun j load ↦
      (drawIndex (interiorPointWeights base load) (streamOf draws j)).getD 0) =
      List.ofFn fun j ↦ (entry j : Nat) := by
    refine List.ext_getElem (by rw [List.length_mapIdx, List.length_ofFn]) fun j hj hj' ↦ ?_
    have hlt : j < (realLoads bound.bins).length := by rwa [List.length_mapIdx] at hj
    have hdraw := drawIndex_of_share (hnonneg ⟨j, hlt⟩) (hsum ⟨j, hlt⟩) (entry ⟨j, hlt⟩).isLt
      (hentry ⟨j, hlt⟩)
    rw [List.getElem_mapIdx, List.getElem_ofFn, streamOf, dif_pos hlt]
    exact congrArg (·.getD 0) hdraw
  constructor
  · rintro ⟨bound', hsample, hindexes⟩
    rw [filterMap_recordIndex_of_sample hsample, hdrawn] at hindexes
    exact congrFun (List.ofFn_injective hindexes)
  · intro hindexes
    obtain ⟨bound', hsample⟩ := exists_sampleFromStream hbase hunsampled (streamOf draws)
    refine ⟨bound', hsample, ?_⟩
    rw [filterMap_recordIndex_of_sample hsample, hdrawn, funext hindexes]

end Law

/-! ## The planned merge -/

/-- What `plan_swat_block_merge_schedule` raises: its own refusals, and those of what it calls. -/
inductive PlanError where
  | levels (source target : Nat)
  | geometry (source target : Nat)
  | epsilon
  | schedule (e : ScheduleError)
deriving DecidableEq, Repr

section Plan

variable {V : Type}

/-- The bound and sampled allocation of a side, with the epsilon of its own plan. -/
noncomputable def sampleSide (run : LogicalBlockRunView V) (plan : BlockAllocationPlan ℝ)
    (side : Side) (stream : Nat → ℝ) : Except PlanError (BoundBlockAllocation ℝ V) := do
  let bound ← (bindBlockAllocation run plan side).mapError .schedule
  require (0 < plan.config.privacyEpsilon) .epsilon
  (sampleFromStream (Real.exp plan.config.privacyEpsilon) bound stream).mapError .schedule

/-- `plan_swat_block_merge_schedule`, with what the streams of the sides return. -/
noncomputable def planSwatBlockMergeSchedule (sourceRun targetRun : LogicalBlockRunView V)
    (sourcePlan targetPlan : BlockAllocationPlan ℝ) (stream : Side → Nat → ℝ) :
    Except PlanError (SwatBlockMergeSchedule ℝ V) := do
  require (targetRun.level = sourceRun.level + 1) (.levels sourceRun.level targetRun.level)
  require (sourceRun.itemsPerBlock = targetRun.itemsPerBlock)
    (.geometry sourceRun.itemsPerBlock targetRun.itemsPerBlock)
  let source ← sampleSide sourceRun sourcePlan .source (stream .source)
  let target ← sampleSide targetRun targetPlan .target (stream .target)
  let reads ← (buildAbstractMergeSchedule source target).mapError .schedule
  (SwatBlockMergeSchedule.make source target reads
    (sortedTaggedInteriorPoints source target)).mapError .schedule

variable {run : LogicalBlockRunView V} {plan : BlockAllocationPlan ℝ} {side : Side}
  {stream : Nat → ℝ}

/-- A side is sampled when its bins are bound, epsilon is positive and its bins are sampled. -/
theorem sampleSide_eq_ok {bound : BoundBlockAllocation ℝ V} :
    sampleSide run plan side stream = .ok bound ↔
      ∃ bound₀, bindBlockAllocation run plan side = .ok bound₀ ∧ 0 < plan.config.privacyEpsilon ∧
        sampleFromStream (Real.exp plan.config.privacyEpsilon) bound₀ stream = .ok bound := by
  simp only [sampleSide, bind_eq_ok, require_eq_ok, exists_const, mapError_eq_ok]

/-- A side is sampled exactly when its plan fits its run and has a positive epsilon. -/
theorem exists_sampleSide :
    (∃ bound, sampleSide run plan side stream = .ok bound) ↔
      plan.Fits run ∧ 0 < plan.config.privacyEpsilon := by
  constructor
  · rintro ⟨bound, h⟩
    obtain ⟨bound₀, hbind, hpos, -⟩ := sampleSide_eq_ok.mp h
    exact ⟨(bindBlockAllocation_eq_ok hbind).1, hpos⟩
  · rintro ⟨hfits, hpos⟩
    obtain ⟨bound₀, hbind⟩ := exists_bindBlockAllocation hfits side
    obtain ⟨bound, hsample⟩ := exists_sampleFromStream (Real.exp_pos plan.config.privacyEpsilon)
      (bindBlockAllocation_eq_ok hbind).2.unsampled stream
    exact ⟨bound, sampleSide_eq_ok.mpr ⟨bound₀, hbind, hpos, hsample⟩⟩

/-- What a sampled side is. -/
theorem binds_of_sampleSide {bound : BoundBlockAllocation ℝ V}
    (h : sampleSide run plan side stream = .ok bound) : ∃ bound₀ : BoundBlockAllocation ℝ V,
      bound₀.side = side ∧ bound₀.plan = plan ∧
        ∃ draw, sampleBinInteriorPoints bound₀ draw = .ok bound := by
  obtain ⟨bound₀, hbind, -, hsample⟩ := sampleSide_eq_ok.mp h
  obtain ⟨-, hbinds⟩ := bindBlockAllocation_eq_ok hbind
  exact ⟨bound₀, hbinds.side_eq, hbinds.plan_eq, _, hsample⟩

theorem SwatBlockMergeSchedule.make_eq_ok {F : Type} {source target : BoundBlockAllocation F V}
    {reads : List AbstractBinRead} {tagged : List TaggedBinInteriorPoint}
    {schedule : SwatBlockMergeSchedule F V} (h : make source target reads tagged = .ok schedule) :
    schedule.source = source ∧ schedule.target = target ∧ schedule.reads = reads ∧
      schedule.tagged = tagged := by
  simp only [make, prove_bind_eq_ok, pure_eq_ok, Except.ok.injEq] at h
  obtain ⟨_, _, _, _, _, _, _, _, rfl⟩ := h
  exact ⟨rfl, rfl, rfl, rfl⟩

variable {sourceRun targetRun : LogicalBlockRunView V} {sourcePlan targetPlan : BlockAllocationPlan ℝ}
  {streams : Side → Nat → ℝ}

/-- A merge is planned when its sides are sampled and their schedule is constructed. -/
theorem planSwatBlockMergeSchedule_eq_ok {schedule : SwatBlockMergeSchedule ℝ V} :
    planSwatBlockMergeSchedule sourceRun targetRun sourcePlan targetPlan streams = .ok schedule ↔
      targetRun.level = sourceRun.level + 1 ∧
      sourceRun.itemsPerBlock = targetRun.itemsPerBlock ∧
      ∃ source, sampleSide sourceRun sourcePlan .source (streams .source) = .ok source ∧
        ∃ target, sampleSide targetRun targetPlan .target (streams .target) = .ok target ∧
          ∃ reads, buildAbstractMergeSchedule source target = .ok reads ∧
            SwatBlockMergeSchedule.make source target reads
              (sortedTaggedInteriorPoints source target) = .ok schedule := by
  simp only [planSwatBlockMergeSchedule, bind_eq_ok, require_eq_ok, exists_const, mapError_eq_ok]

/-- The sides of a merge, each sampled. -/
theorem sampledSides_of_sampleSide {source target : BoundBlockAllocation ℝ V}
    (hsource : sampleSide sourceRun sourcePlan .source (streams .source) = .ok source)
    (htarget : sampleSide targetRun targetPlan .target (streams .target) = .ok target) :
    ∃ source₀ target₀, SampledSides source₀ target₀ source target ∧
      source.plan = sourcePlan ∧ target.plan = targetPlan := by
  obtain ⟨source₀, hs, hplan, draw, hsample⟩ := binds_of_sampleSide hsource
  obtain ⟨target₀, ht, hplan', draw', hsample'⟩ := binds_of_sampleSide htarget
  have hsides := sampledSides hsample hsample' hs ht
  exact ⟨source₀, target₀, hsides, hsides.sourceSamples.plan_eq.trans hplan,
    hsides.targetSamples.plan_eq.trans hplan'⟩

end Plan

/-- A merge is planned exactly when the target is the level below the source, the blocks have one
geometry and each plan fits its run and has a positive epsilon, whatever the streams return.  The
schedule keeps the plans, reads every bin of each side once and in order, and is what the pinned
loop fetches. -/
theorem planSwatBlockMergeSchedule_iff {V : Type} (sourceRun targetRun : LogicalBlockRunView V)
    (sourcePlan targetPlan : BlockAllocationPlan ℝ) (streams : Side → Nat → ℝ) :
    ((∃ schedule, planSwatBlockMergeSchedule sourceRun targetRun sourcePlan targetPlan streams =
        .ok schedule) ↔ targetRun.level = sourceRun.level + 1 ∧
      sourceRun.itemsPerBlock = targetRun.itemsPerBlock ∧
      (sourcePlan.Fits sourceRun ∧ 0 < sourcePlan.config.privacyEpsilon) ∧
      targetPlan.Fits targetRun ∧ 0 < targetPlan.config.privacyEpsilon) ∧
    ∀ schedule, planSwatBlockMergeSchedule sourceRun targetRun sourcePlan targetPlan streams =
        .ok schedule →
      schedule.source.plan = sourcePlan ∧ schedule.target.plan = targetPlan ∧
      (∀ side, readOrder schedule.reads side =
        List.range (binCounts schedule.source schedule.target side)) ∧
      (PinnedLoop.run schedule.source.binCount schedule.target.binCount
        (schedule.tagged.map (·.side))).fetches = schedule.reads := by
  constructor
  · constructor
    · rintro ⟨schedule, h⟩
      obtain ⟨hlevels, hgeometry, source, hsource, target, htarget, -⟩ :=
        planSwatBlockMergeSchedule_eq_ok.mp h
      exact ⟨hlevels, hgeometry, exists_sampleSide.mp ⟨source, hsource⟩,
        exists_sampleSide.mp ⟨target, htarget⟩⟩
    · rintro ⟨hlevels, hgeometry, hfits, hfits'⟩
      obtain ⟨source, hsource⟩ := exists_sampleSide.mpr hfits
      obtain ⟨target, htarget⟩ := exists_sampleSide.mpr hfits'
      obtain ⟨source₀, target₀, hsides, -⟩ := sampledSides_of_sampleSide hsource htarget
      obtain ⟨schedule, hmake, -⟩ := hsides.exists_schedule hsides.readOrder_schedule
      exact ⟨schedule, planSwatBlockMergeSchedule_eq_ok.mpr ⟨hlevels, hgeometry, source, hsource,
        target, htarget, _, hsides.buildAbstractMergeSchedule_eq, hmake⟩⟩
  · intro schedule h
    obtain ⟨-, -, source, hsource, target, htarget, reads, hreads, hmake⟩ :=
      planSwatBlockMergeSchedule_eq_ok.mp h
    obtain ⟨source₀, target₀, hsides, hplan, hplan'⟩ :=
      sampledSides_of_sampleSide hsource htarget
    cases hsides.buildAbstractMergeSchedule_eq.symm.trans hreads
    obtain ⟨rfl, rfl, hreads, htagged⟩ := SwatBlockMergeSchedule.make_eq_ok hmake
    rw [hreads, htagged]
    exact ⟨hplan, hplan', hsides.readOrder_schedule, hsides.pinned_fetches⟩

/-- The weight of a record is the exponential of epsilon times its distance from the ends. -/
theorem getElem_interiorPointWeights_exp {ε : ℝ} {load i : Nat}
    (h : i < (interiorPointWeights (Real.exp ε) load).length) :
    (interiorPointWeights (Real.exp ε) load)[i] =
      Real.exp (ε * (min i (load - i) + 1 : Nat)) := by
  simp only [interiorPointWeights, List.getElem_map, List.getElem_range, fastPower_eq_pow]
  rw [mul_comm, Real.exp_nat_mul]

theorem sum_interiorPointWeights_exp (ε : ℝ) (load : Nat) :
    (interiorPointWeights (Real.exp ε) load).sum =
      ∑ i ∈ Finset.range load, Real.exp (ε * (min i (load - i) + 1 : Nat)) := by
  simp only [interiorPointWeights, fastPower_eq_pow, ← Real.exp_nat_mul, mul_comm _ ε]
  rfl

/-- The records of the bins of a side are drawn independently, each in proportion to the
exponential of epsilon times its distance from the ends of its bin. -/
theorem recordIndexes_probability {V : Type} {run : LogicalBlockRunView V}
    {plan : BlockAllocationPlan ℝ} (hfits : plan.Fits run)
    (hpos : 0 < plan.config.privacyEpsilon) (side : Side) :
    ∃ bound₀, bindBlockAllocation run plan side = .ok bound₀ ∧
      ∀ indexes : Fin (realLoads bound₀.bins).length → Nat,
        (∀ j, indexes j < (realLoads bound₀.bins).get j) →
        (uniformDraws (realLoads bound₀.bins).length).real {draws | ∃ bound,
            sampleSide run plan side (streamOf draws) = .ok bound ∧
              bound.interiors.filterMap (·.recordIndex) = List.ofFn indexes} =
          ∏ j, Real.exp (plan.config.privacyEpsilon *
              (min (indexes j) ((realLoads bound₀.bins).get j - indexes j) + 1 : Nat)) /
            ∑ i ∈ Finset.range ((realLoads bound₀.bins).get j),
              Real.exp (plan.config.privacyEpsilon *
                (min i ((realLoads bound₀.bins).get j - i) + 1 : Nat)) := by
  obtain ⟨bound₀, hbind⟩ := exists_bindBlockAllocation hfits side
  refine ⟨bound₀, hbind, fun indexes hindexes ↦ ?_⟩
  have hlaw := real_sampleFromStream (Real.exp_pos plan.config.privacyEpsilon)
    (bindBlockAllocation_eq_ok hbind).2.unsampled indexes
  have hevent (draws : Fin (realLoads bound₀.bins).length → ℝ) (bound : BoundBlockAllocation ℝ V) :
      sampleSide run plan side (streamOf draws) = .ok bound ↔
        sampleFromStream (Real.exp plan.config.privacyEpsilon) bound₀ (streamOf draws) =
          .ok bound := by
    rw [sampleSide_eq_ok]
    constructor
    · rintro ⟨bound₁, hbind', -, hsample⟩
      cases hbind.symm.trans hbind'
      exact hsample
    · intro hsample
      exact ⟨bound₀, hbind, hpos, hsample⟩
  simp only [hevent]
  rw [hlaw]
  refine Finset.prod_congr rfl fun j _ ↦ ?_
  have hlt : indexes j < (interiorPointWeights (Real.exp plan.config.privacyEpsilon)
      ((realLoads bound₀.bins).get j)).length := by
    rw [length_interiorPointWeights]
    exact hindexes j
  rw [← getElem_interiorPointWeights_exp hlt, ← sum_interiorPointWeights_exp]
  exact congrArg (· / _) (List.getD_eq_getElem _ _ hlt)

/-- Of the three records of a bin, the weights double from the first to the second. -/
theorem recordIndexes_probability_three :
    ∃ bound₀, bindBlockAllocation (longRun 3 (by decide)) (oneBinPlan (1 : ℝ) (Real.log 2) 1)
        .source = .ok bound₀ ∧
      (uniformDraws (realLoads bound₀.bins).length).real {draws | ∃ bound,
          sampleSide (longRun 3 (by decide)) (oneBinPlan (1 : ℝ) (Real.log 2) 1) .source
              (streamOf draws) = .ok bound ∧
            bound.interiors.filterMap (·.recordIndex) = [1]} = 2 / 5 := by
  obtain ⟨bound₀, hbind, h⟩ := recordIndexes_probability
    (fits_longRun (1 : ℝ) (Real.log 2) 1 (by decide : 0 < 3)) (Real.log_pos one_lt_two) .source
  refine ⟨bound₀, hbind, ?_⟩
  have hloads : realLoads bound₀.bins = [3] := by
    obtain ⟨bound, hbound, bin, hbin, -, hlength⟩ :=
      exists_bound_longRun (1 : ℝ) (Real.log 2) 1 (by decide : 0 < 3)
    cases hbind.symm.trans hbound
    have hone := (bindBlockAllocation_eq_ok hbind).2.bins.length_eq
    obtain ⟨only, honly⟩ := List.length_eq_one_iff.mp hone.symm
    rw [honly, List.mem_singleton] at hbin
    subst hbin
    rw [realLoads, honly, List.filter_cons_of_pos, List.filter_nil, List.map_singleton, hlength]
    rw [decide_eq_true_eq, ← List.length_pos_iff, hlength]
    decide
  rw [hloads] at h ⊢
  have hdrawn := h (fun _ ↦ 1) (by decide)
  have hexp : ∀ n : Nat, Real.exp (Real.log 2 * n) = 2 ^ n := fun n ↦ by
    rw [mul_comm, Real.exp_nat_mul, Real.exp_log two_pos]
  refine hdrawn.trans ((Fin.prod_univ_one _).trans ?_)
  change Real.exp (Real.log 2 * (2 : Nat)) / ∑ i ∈ Finset.range 3,
    Real.exp (Real.log 2 * (min i (3 - i) + 1 : Nat)) = 2 / 5
  simp only [hexp, Finset.sum_range_succ, Finset.sum_range_zero]
  norm_num

end EnhancedLetIndex
