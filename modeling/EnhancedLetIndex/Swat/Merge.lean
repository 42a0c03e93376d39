import EnhancedLetIndex.Swat.Schedule

/-!
# The schedule and the pinned loop

The loop of `DOMerge`, as the tests mirror it (`pinned_projected_fetches`): a source tag whose
side is exhausted falls back to the target.  The two machines differ step by step.  They agree as
long as the source has unread bins (`PinnedLoop.Follows`), and after that both read the rest of
the target in order.
-/

namespace EnhancedLetIndex

/-- `pinned_projected_fetches`, without its inputs. -/
structure PinnedLoop where
  fetches : List AbstractBinRead := []
  fallbacks : List AbstractBinRead := []
  leftNext : Int := -1
  rightNext : Int := -1

namespace PinnedLoop

variable (sourceBins targetBins : Nat)

/-- The two preloads. -/
def start : PinnedLoop where
  fetches := (if 0 < sourceBins then [⟨.source, 0⟩] else []) ++
    if 0 < targetBins then [⟨.target, 0⟩] else []

/-- One iteration: a fetch of the source, else one of the target, else nothing. -/
def iterate (p : PinnedLoop) (tag : Side) : PinnedLoop :=
  if tag = .source ∧ p.leftNext + 2 < sourceBins then
    { p with
      leftNext := p.leftNext + 1
      fetches := p.fetches ++ [⟨.source, (p.leftNext + 2).toNat⟩] }
  else if p.rightNext + 2 < targetBins then
    { p with
      rightNext := p.rightNext + 1
      fetches := p.fetches ++ [⟨.target, (p.rightNext + 2).toNat⟩]
      fallbacks := if tag = .source then
          p.fallbacks ++ [⟨.source, (p.rightNext + 2).toNat⟩]
        else p.fallbacks }
  else p

/-- `pinned_projected_fetches`. -/
def run (tags : List Side) : PinnedLoop :=
  tags.foldl (iterate sourceBins targetBins) (start sourceBins targetBins)

/-- The loop and a scan have fetched the same bins, and their counters agree. -/
structure Follows (binCounts : Side → Nat) (s : ScheduleScan) (p : PinnedLoop) : Prop
    extends s.Scanned binCounts where
  fetches : p.fetches = s.reads
  left : p.leftNext + 2 = max 1 (s.nextUnread .source)
  right : p.rightNext + 2 = max 1 (s.nextUnread .target)

variable {binCounts : Side → Nat} {s : ScheduleScan} {p : PinnedLoop}

theorem follows_start (binCounts : Side → Nat) :
    Follows binCounts (.preload binCounts) (start (binCounts .source) (binCounts .target)) := by
  obtain ⟨hscanned, hnext⟩ := ScheduleScan.scanned_preload binCounts
  refine ⟨hscanned, ?_, ?_, ?_⟩
  · unfold start ScheduleScan.preload
    simp only [List.foldl_cons, List.foldl_nil, ScheduleScan.preloadSide]
    split_ifs <;> rfl
  · rw [hnext]
    show (-1 : Int) + 2 = _
    omega
  · rw [hnext]
    show (-1 : Int) + 2 = _
    omega

namespace Follows

variable (h : Follows binCounts s p)

include h

/-- The first counter is of the next unread source bin. -/
theorem left_lt_iff : p.leftNext + 2 < binCounts .source ↔
    s.nextUnread .source < binCounts .source := by
  have hstarted := h.started .source
  have hleft := h.left
  omega

/-- The second counter is of the next unread target bin. -/
theorem right_lt_iff : p.rightNext + 2 < binCounts .target ↔
    s.nextUnread .target < binCounts .target := by
  have hstarted := h.started .target
  have hright := h.right
  omega

/-- On a target tag, and on a source tag while a source bin remains, the loop does what the scan
does. -/
theorem iterate {tag : Side}
    (htag : tag = .source → s.nextUnread .source < binCounts .source) :
    Follows binCounts (s.request binCounts tag)
      (p.iterate (binCounts .source) (binCounts .target) tag) := by
  have hscanned := h.toScanned.request tag
  have hnext := ScheduleScan.nextUnread_request h.toScanned tag
  have hleft := h.left
  have hright := h.right
  cases tag with
  | source =>
    have hlt := htag rfl
    have hstarted := h.started .source (by omega)
    have hindex : (p.leftNext + 2).toNat = s.nextUnread .source := by omega
    rw [PinnedLoop.iterate, if_pos ⟨rfl, h.left_lt_iff.mpr hlt⟩, hindex]
    refine ⟨hscanned, ?_, ?_, ?_⟩
    · rw [ScheduleScan.request, if_pos hlt, h.fetches]
    · rw [hnext, if_pos rfl]
      show p.leftNext + 1 + 2 = _
      omega
    · rw [hnext, if_neg (by decide)]
      exact hright
  | target =>
    rw [PinnedLoop.iterate, if_neg (by simp)]
    by_cases hlt : s.nextUnread .target < binCounts .target
    · have hstarted := h.started .target (by omega)
      have hindex : (p.rightNext + 2).toNat = s.nextUnread .target := by omega
      rw [if_pos (h.right_lt_iff.mpr hlt), hindex]
      refine ⟨hscanned, ?_, ?_, ?_⟩
      · rw [ScheduleScan.request, if_pos hlt, h.fetches]
      · rw [hnext, if_neg (by decide)]
        exact hleft
      · rw [hnext, if_pos rfl]
        show p.rightNext + 1 + 2 = _
        omega
    · rw [if_neg fun hright ↦ hlt (h.right_lt_iff.mp hright)]
      rw [ScheduleScan.request, if_neg hlt]
      exact h

/-- When the source is exhausted, the loop does on any tag what the scan does on a target tag. -/
theorem iterate_exhausted (hsource : binCounts .source ≤ s.nextUnread .source) (tag : Side) :
    Follows binCounts (s.request binCounts .target)
      (p.iterate (binCounts .source) (binCounts .target) tag) := by
  have htarget : Follows binCounts (s.request binCounts .target)
      (p.iterate (binCounts .source) (binCounts .target) .target) :=
    h.iterate fun heq ↦ nomatch heq
  cases tag with
  | target => exact htarget
  | source =>
    have hexhausted : ¬ (Side.source = .source ∧ p.leftNext + 2 < binCounts .source) := fun hlt ↦
      absurd (h.left_lt_iff.mp hlt.2) (not_lt.mpr hsource)
    -- the fallback differs in what it notes among `fallbacks` only
    rw [PinnedLoop.iterate, if_neg (by simp)] at htarget
    rw [PinnedLoop.iterate, if_neg hexhausted]
    by_cases hlt : p.rightNext + 2 < binCounts .target
    · rw [if_pos hlt] at htarget ⊢
      exact ⟨htarget.toScanned, htarget.fetches, htarget.left, htarget.right⟩
    · rw [if_neg hlt] at htarget ⊢
      exact htarget

/-- When the source is exhausted, some tags of the loop are as many target tags of the scan. -/
theorem foldl_exhausted (hsource : binCounts .source ≤ s.nextUnread .source) (tags : List Side) :
    Follows binCounts
      ((List.replicate tags.length Side.target).foldl (ScheduleScan.request binCounts) s)
      (tags.foldl (PinnedLoop.iterate (binCounts .source) (binCounts .target)) p) := by
  induction tags generalizing s p with
  | nil => exact h
  | cons tag tags ih =>
    refine ih (h.iterate_exhausted hsource tag) ?_
    rwa [ScheduleScan.nextUnread_request h.toScanned, if_neg (by decide)]

end Follows

end PinnedLoop

namespace ScheduleScan

variable {binCounts : Side → Nat} {s : ScheduleScan}

/-- A tag of an exhausted side requests nothing. -/
theorem request_exhausted {side : Side} (h : binCounts side ≤ s.nextUnread side) :
    s.request binCounts side = s := if_neg (not_lt.mpr h)

/-- When the source is exhausted, only the target tags of a scan count. -/
theorem foldl_source_exhausted (h : s.Scanned binCounts)
    (hsource : binCounts .source ≤ s.nextUnread .source) (tags : List Side) :
    tags.foldl (request binCounts) s =
      (List.replicate (tags.count .target) Side.target).foldl (request binCounts) s := by
  induction tags generalizing s with
  | nil => rfl
  | cons tag tags ih =>
    cases tag with
    | source =>
      rw [List.foldl_cons, request_exhausted hsource, ih h hsource,
        List.count_cons_of_ne (by decide)]
    | target =>
      rw [List.foldl_cons, List.count_cons_self, List.replicate_succ, List.foldl_cons]
      refine ih (h.request .target) ?_
      rwa [nextUnread_request h, if_neg (by decide)]

/-- Target tags beyond the bins of the target request nothing. -/
theorem foldl_replicate_target (h : s.Scanned binCounts) {k n : Nat} (hkn : k ≤ n)
    (hk : binCounts .target ≤ s.nextUnread .target + k) :
    (List.replicate n Side.target).foldl (request binCounts) s =
      (List.replicate k Side.target).foldl (request binCounts) s := by
  obtain ⟨j, rfl⟩ := Nat.exists_eq_add_of_le hkn
  rw [List.replicate_add, List.foldl_append]
  obtain ⟨-, hnext⟩ := h.foldl (List.replicate k .target)
  have hexhausted : binCounts .target ≤
      ((List.replicate k Side.target).foldl (request binCounts) s).nextUnread .target := by
    rw [hnext, List.count_replicate_self]
    omega
  generalize (List.replicate k Side.target).foldl (request binCounts) s = s' at hexhausted
  induction j with
  | zero => rfl
  | succ j ih =>
    rw [List.replicate_succ, List.foldl_cons, request_exhausted hexhausted, ih (by omega)]

end ScheduleScan

/-- The loop fetches what the scan reads, when there is a tag for every unread target bin. -/
theorem PinnedLoop.Follows.foldl {binCounts : Side → Nat} {s : ScheduleScan} {p : PinnedLoop}
    (h : Follows binCounts s p) {tags : List Side}
    (htarget : binCounts .target ≤ s.nextUnread .target + tags.count .target) :
    (tags.foldl (PinnedLoop.iterate (binCounts .source) (binCounts .target)) p).fetches =
      (tags.foldl (ScheduleScan.request binCounts) s).reads := by
  induction tags generalizing s p with
  | nil => exact h.fetches
  | cons tag tags ih =>
    by_cases hsource : s.nextUnread .source < binCounts .source
    · refine ih (h.iterate fun _ ↦ hsource) ?_
      rw [ScheduleScan.nextUnread_request h.toScanned]
      cases tag with
      | source =>
        rw [List.count_cons_of_ne (by decide)] at htarget
        rwa [if_neg (by decide)]
      | target =>
        rw [List.count_cons_self] at htarget
        rw [if_pos rfl]
        omega
    · have hexhausted := not_lt.mp hsource
      rw [(h.foldl_exhausted hexhausted (tag :: tags)).fetches,
        ScheduleScan.foldl_source_exhausted h.toScanned hexhausted (tag :: tags),
        ScheduleScan.foldl_replicate_target h.toScanned List.count_le_length htarget]

/-! ## The schedule of two sampled sides -/

variable {F V : Type} {source₀ target₀ source target : BoundBlockAllocation F V}
  {draw draw' : Nat → Int}

namespace SampledSides

variable (h : SampledSides source₀ target₀ source target)

include h

/-- Every bin of a side is read once, in order. -/
theorem readOrder_schedule (side : Side) : readOrder (ScheduleScan.after (binCounts source target)
    ((sortedTaggedInteriorPoints source target).map (·.side))).reads side =
      List.range (binCounts source target side) := by
  rw [ScheduleScan.readOrder_after, h.count_side, Nat.min_eq_left (Nat.le_succ _)]

/-- The constructor of the schedule accepts reads of every bin once. -/
theorem exists_schedule {reads : List AbstractBinRead}
    (hreads : ∀ side, readOrder reads side = List.range (binCounts source target side)) :
    ∃ schedule, SwatBlockMergeSchedule.make source target reads
      (sortedTaggedInteriorPoints source target) = .ok schedule ∧ schedule.reads = reads := by
  have hrange : ∀ read ∈ reads, read.binIndex < binCounts source target read.side := by
    intro read hread
    have hmem : read.binIndex ∈ readOrder reads read.side := mem_readOrder.mpr hread
    rw [hreads] at hmem
    exact List.mem_range.mp hmem
  have honce : ∀ side, (readOrder reads side).insertionSort (· ≤ ·) =
      List.range (binCounts source target side) := by
    intro side
    rw [hreads]
    exact (List.pairwise_lt_range.imp le_of_lt).insertionSort_eq
  have hsource : (readOrder reads .source).insertionSort (· ≤ ·) = List.range source.binCount :=
    honce .source
  have htarget : (readOrder reads .target).insertionSort (· ≤ ·) = List.range target.binCount :=
    honce .target
  rw [SwatBlockMergeSchedule.make]
  simp only [prove_of h.source_side, prove_of h.sourceSamples.sampled_eq, prove_of h.target_side,
    prove_of h.targetSamples.sampled_eq, prove_of hrange, prove_of hsource, prove_of htarget,
    prove_of h.length_sorted, ok_bind]
  exact ⟨_, rfl, rfl⟩

/-- The loop fetches what the schedule reads. -/
theorem pinned_fetches : (PinnedLoop.run source.binCount target.binCount
    ((sortedTaggedInteriorPoints source target).map (·.side))).fetches =
      (ScheduleScan.after (binCounts source target)
        ((sortedTaggedInteriorPoints source target).map (·.side))).reads := by
  apply (PinnedLoop.follows_start (binCounts source target)).foldl
  rw [h.count_side]
  exact Nat.le_add_left _ _

end SampledSides

/-- The schedule of two sampled allocations reads every bin of each side once and in order, its
constructor accepts it, and it is what the pinned loop fetches for the same tags; the tagged
points are in their one ascending order, the target before the source on equal keys. -/
theorem schedule_eq_pinned (hsource : sampleBinInteriorPoints source₀ draw = .ok source)
    (htarget : sampleBinInteriorPoints target₀ draw' = .ok target)
    (hs : source₀.side = .source) (ht : target₀.side = .target) :
    (∃ reads, buildAbstractMergeSchedule source target = .ok reads ∧
      readOrder reads .source = List.range source.binCount ∧
      readOrder reads .target = List.range target.binCount ∧
      (∃ schedule, SwatBlockMergeSchedule.make source target reads
        (sortedTaggedInteriorPoints source target) = .ok schedule ∧ schedule.reads = reads) ∧
      (PinnedLoop.run source.binCount target.binCount
        ((sortedTaggedInteriorPoints source target).map (·.side))).fetches = reads) ∧
    (sortedTaggedInteriorPoints source target).Perm (source.tagged ++ target.tagged) ∧
    (sortedTaggedInteriorPoints source target).Pairwise
      (fun a b ↦ a.orderingKey < b.orderingKey) ∧
    (∀ l : List TaggedBinInteriorPoint, l.Perm (source.tagged ++ target.tagged) →
      l.Pairwise (fun a b ↦ a.orderingKey ≤ b.orderingKey) →
      l = sortedTaggedInteriorPoints source target) ∧
    ∀ x ∈ source.tagged, ∀ y ∈ target.tagged,
      interiorPointSortKey x.interiorPoint = interiorPointSortKey y.interiorPoint →
      [y, x].Sublist (sortedTaggedInteriorPoints source target) := by
  have h := sampledSides hsource htarget hs ht
  have hperm : (sortedTaggedInteriorPoints source target).Perm (source.tagged ++ target.tagged) :=
    List.perm_insertionSort _ _
  refine ⟨⟨_, h.buildAbstractMergeSchedule_eq, h.readOrder_schedule .source,
    h.readOrder_schedule .target, h.exists_schedule h.readOrder_schedule, h.pinned_fetches⟩, hperm,
    h.sortedBy, fun l hl hle ↦ ?_, fun x hx y hy hkey ↦ ?_⟩
  · have hne : l.Pairwise fun a b ↦ a.orderingKey ≠ b.orderingKey :=
      List.pairwise_map.mp ((hl.map _).nodup_iff.mpr h.nodup_orderingKey)
    have hsorted : SortedBy TaggedBinInteriorPoint.orderingKey l :=
      (hle.and hne).imp fun hab ↦ lt_of_le_of_ne hab.1 hab.2
    exact hsorted.ext h.sortedBy fun a ↦ (hl.trans hperm.symm).mem_iff
  · apply h.sortedBy.pair_sublist
    · exact hperm.mem_iff.mpr (List.mem_append_right _ hy)
    · exact hperm.mem_iff.mpr (List.mem_append_left _ hx)
    · have hx_tag : x.signedTag = x.binIndex + 1 := by
        rw [x.tag_eq, h.sourceSamples.side_of_mem hx, h.source_side]
        rfl
      have hy_tag : y.signedTag = -(y.binIndex + 1) := by
        rw [y.tag_eq, h.targetSamples.side_of_mem hy, h.target_side]
        rfl
      rw [TaggedBinInteriorPoint.orderingKey, TaggedBinInteriorPoint.orderingKey, hkey]
      refine Prod.Lex.toLex_lt_toLex.mpr (.inr ⟨rfl, ?_⟩)
      show y.signedTag < x.signedTag
      omega

theorem schedule_eq_pinned_small : ∃ (source target : BoundBlockAllocation ℚ String)
    (reads : List AbstractBinRead), source.binCount = 2 ∧ target.binCount = 2 ∧
      buildAbstractMergeSchedule source target = .ok reads ∧
      readOrder reads .source = [0, 1] ∧ readOrder reads .target = [0, 1] := by
  obtain ⟨source₀, source, hbind, hsource⟩ := exists_sample_first fits_repeatedPlan .source
  obtain ⟨target₀, target, hbind', htarget⟩ := exists_sample_first fits_repeatedPlan .target
  obtain ⟨-, hbinds⟩ := bindBlockAllocation_eq_ok hbind
  obtain ⟨-, hbinds'⟩ := bindBlockAllocation_eq_ok hbind'
  obtain ⟨⟨reads, hreads, hsourceOrder, htargetOrder, -⟩, -⟩ :=
    schedule_eq_pinned hsource htarget hbinds.side_eq hbinds'.side_eq
  have hcount : source.binCount = 2 := by
    rw [BoundBlockAllocation.binCount, (sampleBinInteriorPoints_eq_ok hsource).bins_eq,
      ← hbinds.bins.length_eq]
    rfl
  have hcount' : target.binCount = 2 := by
    rw [BoundBlockAllocation.binCount, (sampleBinInteriorPoints_eq_ok htarget).bins_eq,
      ← hbinds'.bins.length_eq]
    rfl
  rw [hcount] at hsourceOrder
  rw [hcount'] at htargetOrder
  exact ⟨source, target, reads, hcount, hcount', hreads, hsourceOrder, htargetOrder⟩

end EnhancedLetIndex
