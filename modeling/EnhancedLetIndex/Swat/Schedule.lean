import Mathlib.Data.Prod.Lex
import EnhancedLetIndex.Basic.SortedUnion
import EnhancedLetIndex.Swat.Bind

/-!
# The abstract schedule of a merge

`sample_bin_interior_points`, `sorted_tagged_interior_points` and `build_abstract_merge_schedule`
of `content_schedule.py`.  The draws of the interior points are given: any sequence of integers.
A scan of tags asks for the next unread bin of the side of each tag (`ScheduleScan`), so that what
has been read of a side is a function of the number of its tags (`Scanned`).
-/

namespace EnhancedLetIndex

/-! ## Sampling -/

/-- `interior_point_sort_key`. -/
def interiorPointSortKey (point : InteriorPoint) : Int × Int :=
  match point.key with
  | .real key => (0, key.value)
  | .dummyPosInf => (1, 0)

/-- `ordering_key`: tuples compare lexicographically. -/
def TaggedBinInteriorPoint.orderingKey (point : TaggedBinInteriorPoint) : (ℤ ×ₗ ℤ) ×ₗ ℤ :=
  toLex (toLex (interiorPointSortKey point.interiorPoint), point.signedTag)

variable {F V : Type}

/-- The interior point of a bin, with the index that is drawn for it. -/
def sampleInteriorPoint (bin : BoundBlockBin V) (index : Int) :
    Except ScheduleError InteriorPoint :=
  if bin.realKeys = [] then pure ⟨.dummyPosInf, none, fun _ ↦ rfl⟩
  else
    match if 0 ≤ index then bin.realKeys[index.toNat]? else none with
    | some key => pure ⟨.real key, some index.toNat, fun h ↦ nomatch h⟩
    | none => throw (.samplerOutside index bin.realKeys.length)

/-- The point of a bin with its tag. -/
def tagPoint (side : Side) (bin : BoundBlockBin V) (point : InteriorPoint) :
    TaggedBinInteriorPoint :=
  ⟨side, bin.binIndex, point, side.signedTag bin.binIndex, rfl⟩

/-- `sample_bin_interior_points`, with the index that is drawn for every bin. -/
def sampleBinInteriorPoints (bound : BoundBlockAllocation F V) (draw : Nat → Int) :
    Except ScheduleError (BoundBlockAllocation F V) := do
  require (bound.sampled = false) .alreadySampled
  let interiors ← bound.bins.zipIdx.mapM fun entry ↦ sampleInteriorPoint entry.1 (draw entry.2)
  let tagged := List.zipWith (tagPoint bound.side) bound.bins interiors
  BoundBlockAllocation.make bound.side bound.level bound.itemsPerBlock bound.bins bound.plan
    interiors tagged true

/-! ## The scan -/

/-- `AbstractBinRead`. -/
structure AbstractBinRead where
  side : Side
  binIndex : Nat
deriving DecidableEq, Repr

/-- `reads` and `next_unread` of `build_abstract_merge_schedule`. -/
structure ScheduleScan where
  reads : List AbstractBinRead
  nextUnread : Side → Nat

namespace ScheduleScan

/-- A side's next unread bin is requested, if one remains. -/
def request (binCounts : Side → Nat) (s : ScheduleScan) (side : Side) : ScheduleScan :=
  if s.nextUnread side < binCounts side then
    ⟨s.reads ++ [⟨side, s.nextUnread side⟩],
      Function.update s.nextUnread side (s.nextUnread side + 1)⟩
  else s

/-- Bin 0 of a side that is not empty is read first. -/
def preloadSide (binCounts : Side → Nat) (s : ScheduleScan) (side : Side) : ScheduleScan :=
  if 0 < binCounts side then
    ⟨s.reads ++ [⟨side, 0⟩], Function.update s.nextUnread side 1⟩
  else s

/-- The two preloads, source first. -/
def preload (binCounts : Side → Nat) : ScheduleScan :=
  [Side.source, .target].foldl (preloadSide binCounts) ⟨[], fun _ ↦ 0⟩

/-- The scan of some tags after the preloads. -/
def after (binCounts : Side → Nat) (tags : List Side) : ScheduleScan :=
  tags.foldl (request binCounts) (preload binCounts)

end ScheduleScan

/-- `sorted_tagged_interior_points`. -/
def sortedTaggedInteriorPoints (source target : BoundBlockAllocation F V) :
    List TaggedBinInteriorPoint :=
  (source.tagged ++ target.tagged).insertionSort fun a b ↦ a.orderingKey ≤ b.orderingKey

/-- The numbers of bins of the sides. -/
def binCounts (source target : BoundBlockAllocation F V) : Side → Nat
  | .source => source.binCount
  | .target => target.binCount

/-- `build_abstract_merge_schedule`. -/
def buildAbstractMergeSchedule (source target : BoundBlockAllocation F V) :
    Except ScheduleError (List AbstractBinRead) := do
  require (source.sampled = true) (.notSampled .source)
  require (target.sampled = true) (.notSampled .target)
  pure (ScheduleScan.after (binCounts source target)
    ((sortedTaggedInteriorPoints source target).map (·.side))).reads

/-- The reads of a side, in order. -/
def readOrder (reads : List AbstractBinRead) (side : Side) : List Nat :=
  (reads.filter fun read ↦ read.side = side).map (·.binIndex)

/-- `SwatBlockMergeSchedule`. -/
structure SwatBlockMergeSchedule (F V : Type) where
  source : BoundBlockAllocation F V
  target : BoundBlockAllocation F V
  reads : List AbstractBinRead
  tagged : List TaggedBinInteriorPoint
  source_side : source.side = .source
  target_side : target.side = .target
  source_sampled : source.sampled = true
  target_sampled : target.sampled = true
  inRange : ∀ read ∈ reads, read.binIndex < binCounts source target read.side
  once : ∀ side, (readOrder reads side).insertionSort (· ≤ ·) =
    List.range (binCounts source target side)
  length_tagged : tagged.length = source.binCount + target.binCount

/-- The constructor of a schedule, with its checks. -/
def SwatBlockMergeSchedule.make (source target : BoundBlockAllocation F V)
    (reads : List AbstractBinRead) (tagged : List TaggedBinInteriorPoint) :
    Except ScheduleError (SwatBlockMergeSchedule F V) := do
  let hsource ← prove (source.side = .source) (.sideSlot .source)
  let hsourceSampled ← prove (source.sampled = true) (.notSampled .source)
  let htarget ← prove (target.side = .target) (.sideSlot .target)
  let htargetSampled ← prove (target.sampled = true) (.notSampled .target)
  let hrange ← prove (∀ read ∈ reads, read.binIndex < binCounts source target read.side)
    .readOutside
  let hsourceOnce ← prove ((readOrder reads .source).insertionSort (· ≤ ·) =
    List.range source.binCount) (.notOnce .source)
  let htargetOnce ← prove ((readOrder reads .target).insertionSort (· ≤ ·) =
    List.range target.binCount) (.notOnce .target)
  let hlength ← prove (tagged.length = source.binCount + target.binCount)
    (.sequence (source.binCount + target.binCount) tagged.length)
  pure ⟨source, target, reads, tagged, hsource.down, htarget.down, hsourceSampled.down,
    htargetSampled.down, hrange.down, fun
      | .source => hsourceOnce.down
      | .target => htargetOnce.down, hlength.down⟩

/-! ## What is read of a side -/

theorem readOrder_concat (reads : List AbstractBinRead) (read : AbstractBinRead) (side : Side) :
    readOrder (reads ++ [read]) side =
      readOrder reads side ++ if read.side = side then [read.binIndex] else [] := by
  rw [readOrder, readOrder, List.filter_append, List.map_append]
  split_ifs with h <;> simp [h]

theorem mem_readOrder {reads : List AbstractBinRead} {side : Side} {index : Nat} :
    index ∈ readOrder reads side ↔ ⟨side, index⟩ ∈ reads := by
  rw [readOrder, List.mem_map]
  constructor
  · rintro ⟨read, hread, rfl⟩
    obtain ⟨hmem, hside⟩ := List.mem_filter.mp hread
    obtain rfl : read.side = side := of_decide_eq_true hside
    exact hmem
  · intro h
    exact ⟨_, List.mem_filter.mpr ⟨h, decide_eq_true rfl⟩, rfl⟩

namespace ScheduleScan

/-- A scan has read the first bins of every side, and at least the first where there is one. -/
structure Scanned (binCounts : Side → Nat) (s : ScheduleScan) : Prop where
  order : ∀ side, readOrder s.reads side = List.range (s.nextUnread side)
  le : ∀ side, s.nextUnread side ≤ binCounts side
  started : ∀ side, 0 < binCounts side → 0 < s.nextUnread side

variable {binCounts : Side → Nat} {s : ScheduleScan}

theorem scanned_preload (binCounts : Side → Nat) : (preload binCounts).Scanned binCounts ∧
    ∀ side, (preload binCounts).nextUnread side = min (binCounts side) 1 := by
  unfold preload
  simp only [List.foldl_cons, List.foldl_nil, preloadSide]
  split_ifs with htarget hsource hsource
  all_goals
    refine ⟨⟨fun side ↦ ?_, fun side ↦ ?_, fun side ↦ ?_⟩, fun side ↦ ?_⟩
    all_goals cases side <;> simp [readOrder, Function.update] <;> omega

/-- A request reads the next bin of its side, if one remains, and of no other side. -/
theorem nextUnread_request (h : s.Scanned binCounts) (side other : Side) :
    (s.request binCounts side).nextUnread other =
      if other = side then min (binCounts side) (s.nextUnread side + 1)
      else s.nextUnread other := by
  have hle := h.le side
  unfold request
  split_ifs with hlt hother hother
  · subst hother
    show Function.update s.nextUnread other _ other = _
    rw [Function.update_self]
    omega
  · exact Function.update_of_ne hother _ _
  · subst hother
    omega
  · rfl

theorem Scanned.request (h : s.Scanned binCounts) (side : Side) :
    (s.request binCounts side).Scanned binCounts := by
  have hnext := nextUnread_request h side
  refine ⟨fun other ↦ ?_, fun other ↦ ?_, fun other hpos ↦ ?_⟩
  · rw [hnext]
    unfold ScheduleScan.request
    split_ifs with hlt hother hother
    · subst hother
      rw [readOrder_concat, if_pos rfl, h.order, Nat.min_eq_right hlt, List.range_succ]
    · rw [readOrder_concat, if_neg (Ne.symm hother), List.append_nil, h.order]
    · subst hother
      have hle := h.le other
      rw [h.order, show min (binCounts other) (s.nextUnread other + 1) = s.nextUnread other by omega]
    · exact h.order other
  · rw [hnext]
    split_ifs with hother
    · rw [hother]
      exact min_le_left _ _
    · exact h.le other
  · have hstarted := h.started other hpos
    rw [hnext]
    split_ifs with hother
    · subst hother
      omega
    · exact hstarted

theorem Scanned.foldl (h : s.Scanned binCounts) (tags : List Side) :
    (tags.foldl (ScheduleScan.request binCounts) s).Scanned binCounts ∧
      ∀ side, (tags.foldl (ScheduleScan.request binCounts) s).nextUnread side =
        min (binCounts side) (s.nextUnread side + tags.count side) := by
  induction tags generalizing s with
  | nil => exact ⟨h, fun side ↦ (Nat.min_eq_right (h.le side)).symm⟩
  | cons tag tags ih =>
    obtain ⟨hscanned, hnext⟩ := ih (h.request tag)
    refine ⟨hscanned, fun side ↦ ?_⟩
    rw [List.foldl_cons, hnext, nextUnread_request h, List.count_cons]
    by_cases hside : side = tag
    · subst hside
      rw [if_pos rfl, beq_self_eq_true, if_pos rfl]
      omega
    · rw [if_neg hside, beq_eq_false_iff_ne.mpr (Ne.symm hside), if_neg Bool.false_ne_true,
        Nat.add_zero]

/-- After some tags, what has been read of a side is its first bin and one more for each of its
tags, as far as there are bins. -/
theorem readOrder_after (binCounts : Side → Nat) (tags : List Side) (side : Side) :
    readOrder (after binCounts tags).reads side =
      List.range (min (binCounts side) (tags.count side + 1)) := by
  obtain ⟨hpreload, hstart⟩ := scanned_preload binCounts
  obtain ⟨hscanned, hnext⟩ := hpreload.foldl tags
  rw [after, hscanned.order, hnext, hstart]
  congr 1
  omega

end ScheduleScan

/-! ## Sampled allocations -/

/-- A point of a bin: one of its keys, or the sentinel where it has none. -/
def InteriorPoint.Of (bin : BoundBlockBin V) (point : InteriorPoint) : Prop :=
  match point.key with
  | .real key => key ∈ bin.realKeys
  | .dummyPosInf => bin.realKeys = []

/-- A sampled allocation: one tagged point of every bin, in order. -/
structure BoundBlockAllocation.Samples (bound₀ bound : BoundBlockAllocation F V) : Prop where
  side_eq : bound.side = bound₀.side
  bins_eq : bound.bins = bound₀.bins
  plan_eq : bound.plan = bound₀.plan
  sampled_eq : bound.sampled = true
  points : List.Forall₂ (fun bin point ↦ point.side = bound.side ∧
    point.binIndex = bin.binIndex ∧ point.interiorPoint.Of bin) bound.bins bound.tagged

theorem sampleInteriorPoint_eq_ok {bin : BoundBlockBin V} {index : Int} {point : InteriorPoint}
    (h : sampleInteriorPoint bin index = .ok point) : point.Of bin := by
  unfold sampleInteriorPoint at h
  split_ifs at h with hkeys hindex
  · obtain rfl := Except.ok.inj h
    exact hkeys
  · split at h
    · rename_i key hkey
      obtain rfl := Except.ok.inj h
      exact List.mem_of_getElem? hkey
    · cases h

theorem forall₂_tagPoint (side : Side) {bins : List (BoundBlockBin V)}
    {interiors : List InteriorPoint}
    (h : List.Forall₂ (fun bin point ↦ point.Of bin) bins interiors) :
    List.Forall₂ (fun bin point ↦ point.side = side ∧ point.binIndex = bin.binIndex ∧
      point.interiorPoint.Of bin) bins (List.zipWith (tagPoint side) bins interiors) := by
  induction h with
  | nil => exact .nil
  | cons hpoint _ ih => exact .cons ⟨rfl, rfl, hpoint⟩ ih

theorem sampleBinInteriorPoints_eq_ok {bound₀ bound : BoundBlockAllocation F V} {draw : Nat → Int}
    (h : sampleBinInteriorPoints bound₀ draw = .ok bound) : bound₀.Samples bound := by
  obtain ⟨-, h⟩ := require_bind_eq_ok.mp h
  obtain ⟨interiors, hinteriors, h⟩ := bind_eq_ok.mp h
  obtain ⟨-, -, -, -, -, -, -, rfl⟩ := BoundBlockAllocation.make_eq_ok.mp h
  refine ⟨rfl, rfl, rfl, rfl, ?_⟩
  have hpoints : List.Forall₂ (fun bin point ↦ InteriorPoint.Of bin point) bound₀.bins
      interiors := by
    have hforall : List.Forall₂ (fun (entry : BoundBlockBin V × Nat) point ↦ point.Of entry.1)
        bound₀.bins.zipIdx interiors :=
      (mapM_eq_ok_iff.mp hinteriors).imp fun _ _ hpoint ↦ sampleInteriorPoint_eq_ok hpoint
    have hmap := List.forall₂_map_left_iff.mpr hforall
    rwa [List.zipIdx_map_fst] at hmap
  exact forall₂_tagPoint bound₀.side hpoints

/-- Sampling is refused only for an index outside the keys of its bin. -/
theorem exists_sampleBinInteriorPoints {bound : BoundBlockAllocation F V} {draw : Nat → Int}
    (hunsampled : bound.sampled = false) (hdraw : ∀ i bin, bound.bins[i]? = some bin →
      bin.realKeys ≠ [] → 0 ≤ draw i ∧ draw i < bin.realKeys.length) :
    ∃ bound', sampleBinInteriorPoints bound draw = .ok bound' := by
  have hpoint : ∀ entry ∈ bound.bins.zipIdx,
      ∃ point, sampleInteriorPoint entry.1 (draw entry.2) = .ok point := by
    rintro ⟨bin, i⟩ hentry
    unfold sampleInteriorPoint
    by_cases hkeys : bin.realKeys = []
    · exact ⟨_, if_pos hkeys⟩
    · obtain ⟨hnonneg, hlt⟩ := hdraw i bin (List.mem_zipIdx_iff_getElem?.mp hentry) hkeys
      have hindex : (draw i).toNat < bin.realKeys.length := by omega
      rw [if_neg hkeys, if_pos hnonneg, List.getElem?_eq_getElem hindex]
      exact ⟨_, rfl⟩
  obtain ⟨interiors, hinteriors⟩ := exists_mapM_eq_ok hpoint
  have hlength : interiors.length = bound.bins.length := by
    rw [← (mapM_eq_ok_iff.mp hinteriors).length_eq, List.length_zipIdx]
  have htagged : (List.zipWith (tagPoint bound.side) bound.bins interiors).length =
      bound.bins.length := by
    rw [List.length_zipWith, hlength, Nat.min_self]
  have hsides : ∀ point ∈ List.zipWith (tagPoint bound.side) bound.bins interiors,
      point.side = bound.side := by
    intro point hmem
    obtain ⟨i, hi, rfl⟩ := List.getElem_of_mem hmem
    rw [List.getElem_zipWith, tagPoint]
  rw [sampleBinInteriorPoints, require_of hunsampled, ok_bind, hinteriors, ok_bind]
  exact ⟨_, BoundBlockAllocation.make_eq_ok.mpr ⟨bound.itemsPerBlock_pos, bound.length_bins,
    bound.binIndex, nofun, fun _ ↦ hlength, fun _ ↦ htagged, fun _ ↦ hsides, rfl⟩⟩

/-- Drawing the first key of every bin of a bound run is sampling. -/
theorem exists_sample_first {run : LogicalBlockRunView V} {plan : BlockAllocationPlan F}
    (hfits : plan.Fits run) (side : Side) : ∃ bound₀ bound,
      bindBlockAllocation run plan side = .ok bound₀ ∧
      sampleBinInteriorPoints bound₀ (fun _ ↦ 0) = .ok bound := by
  obtain ⟨bound₀, hbind⟩ := exists_bindBlockAllocation hfits side
  have hbinds := (bindBlockAllocation_eq_ok hbind).2
  obtain ⟨bound, hbound⟩ := exists_sampleBinInteriorPoints hbinds.unsampled
    fun _ _ _ hkeys ↦ ⟨le_rfl, Nat.cast_pos.mpr (List.length_pos_of_ne_nil hkeys)⟩
  exact ⟨bound₀, bound, hbind, hbound⟩

namespace BoundBlockAllocation.Samples

variable {bound₀ bound : BoundBlockAllocation F V} (h : bound₀.Samples bound)

include h

theorem map_binIndex : bound.tagged.map (·.binIndex) = List.range bound.binCount := by
  have hpoints := h.points
  rw [binCount, ← bound.binIndex]
  generalize bound.bins = bins, bound.tagged = tagged at hpoints
  induction hpoints with
  | nil => rfl
  | cons hpoint _ ih => rw [List.map_cons, List.map_cons, ih, hpoint.2.1]

theorem side_of_mem {point : TaggedBinInteriorPoint} (hpoint : point ∈ bound.tagged) :
    point.side = bound.side := bound.sides h.sampled_eq point hpoint

theorem count_side (side : Side) : (bound.tagged.map (·.side)).count side =
    if bound.side = side then bound.binCount else 0 := by
  have hsides : bound.tagged.map (·.side) = List.replicate bound.binCount bound.side := by
    rw [List.eq_replicate_iff, List.length_map, bound.length_tagged h.sampled_eq]
    refine ⟨rfl, fun side hside ↦ ?_⟩
    obtain ⟨point, hpoint, rfl⟩ := List.mem_map.mp hside
    exact h.side_of_mem hpoint
  rw [hsides, List.count_replicate]
  simp

end BoundBlockAllocation.Samples

/-! ## The tagged points of both sides -/

variable {source₀ target₀ source target : BoundBlockAllocation F V}

/-- Two sampled allocations, one of each side. -/
structure SampledSides (source₀ target₀ source target : BoundBlockAllocation F V) : Prop where
  sourceSamples : source₀.Samples source
  targetSamples : target₀.Samples target
  source_side : source.side = Side.source
  target_side : target.side = Side.target

theorem sampledSides {draw draw' : Nat → Int}
    (hsource : sampleBinInteriorPoints source₀ draw = .ok source)
    (htarget : sampleBinInteriorPoints target₀ draw' = .ok target)
    (hs : source₀.side = .source) (ht : target₀.side = .target) :
    SampledSides source₀ target₀ source target := by
  have hsamples := sampleBinInteriorPoints_eq_ok hsource
  have hsamples' := sampleBinInteriorPoints_eq_ok htarget
  exact ⟨hsamples, hsamples', hsamples.side_eq.trans hs, hsamples'.side_eq.trans ht⟩

namespace SampledSides

variable (h : SampledSides source₀ target₀ source target)

include h

/-- The reads of the schedule. -/
theorem buildAbstractMergeSchedule_eq : buildAbstractMergeSchedule source target =
    .ok (ScheduleScan.after (binCounts source target)
      ((sortedTaggedInteriorPoints source target).map (·.side))).reads := by
  rw [buildAbstractMergeSchedule, require_of h.sourceSamples.sampled_eq, ok_bind,
    require_of h.targetSamples.sampled_eq, ok_bind, pure_eq_ok]

/-- Every bin has one tag. -/
theorem count_side (side : Side) : ((sortedTaggedInteriorPoints source target).map
    (·.side)).count side = binCounts source target side := by
  have hperm := (List.perm_insertionSort (fun a b : TaggedBinInteriorPoint ↦
    a.orderingKey ≤ b.orderingKey) (source.tagged ++ target.tagged)).map (·.side)
  rw [sortedTaggedInteriorPoints, hperm.count_eq, List.map_append, List.count_append,
    h.sourceSamples.count_side, h.targetSamples.count_side, h.source_side, h.target_side]
  cases side <;> simp [binCounts]

theorem length_sorted : (sortedTaggedInteriorPoints source target).length =
    source.binCount + target.binCount := by
  rw [sortedTaggedInteriorPoints, List.length_insertionSort, List.length_append,
    source.length_tagged h.sourceSamples.sampled_eq, target.length_tagged h.targetSamples.sampled_eq]
  rfl

/-- Tags tell the bins apart. -/
theorem nodup_signedTag : ((source.tagged ++ target.tagged).map (·.signedTag)).Nodup := by
  have htags : ∀ {bound₀ bound : BoundBlockAllocation F V}, bound₀.Samples bound →
      bound.tagged.map (·.signedTag) =
        (List.range bound.binCount).map bound.side.signedTag := by
    intro bound₀ bound hb
    rw [← hb.map_binIndex, List.map_map]
    refine List.map_congr_left fun point hpoint ↦ ?_
    rw [point.tag_eq, hb.side_of_mem hpoint]
    rfl
  rw [List.map_append, htags h.sourceSamples, htags h.targetSamples, h.source_side, h.target_side]
  refine List.Nodup.append ?_ ?_ ?_
  · exact List.nodup_range.map fun i j hij ↦ by simpa [Side.signedTag] using hij
  · exact List.nodup_range.map fun i j hij ↦ by simpa [Side.signedTag] using hij
  · rintro tag hsource htarget
    obtain ⟨i, -, rfl⟩ := List.mem_map.mp hsource
    obtain ⟨j, -, heq⟩ := List.mem_map.mp htarget
    simp only [Side.signedTag] at heq
    omega

theorem nodup_orderingKey : ((source.tagged ++ target.tagged).map (·.orderingKey)).Nodup := by
  have hnodup := h.nodup_signedTag
  rw [show (fun point : TaggedBinInteriorPoint ↦ point.signedTag) =
    (fun key : (ℤ ×ₗ ℤ) ×ₗ ℤ ↦ (ofLex key).2) ∘ fun point ↦ point.orderingKey from rfl,
    ← List.map_map] at hnodup
  exact hnodup.of_map _

/-- The sorted tagged points are in strictly ascending order. -/
theorem sortedBy : SortedBy TaggedBinInteriorPoint.orderingKey
    (sortedTaggedInteriorPoints source target) := sortedBy_insertionSort h.nodup_orderingKey

end SampledSides

end EnhancedLetIndex
