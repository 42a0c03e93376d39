import EnhancedLetIndex.Swat.Schedule
import EnhancedLetIndex.Swat.Allocate

/-!
# Bins read before their tags are scanned

The scan asks for the next unread bin of the side of a tag, not for the bin that the tag names.
The tag of a bin that holds blocks comes after those of the earlier bins of its side that hold
some, and before those of the empty ones, which have the sentinel (`countP_tagged_lt`).  So what
has been read of the side by then is one bin more than there are earlier sampled loads other than
zero (`read_before_scan`): an earlier bin whose load is zero leaves the scan one bin behind.
-/

namespace EnhancedLetIndex

variable {F V : Type}

/-! ## The order of the points of a side -/

section Points

variable {bin : BoundBlockBin V} {point point' : TaggedBinInteriorPoint}

/-- The point of a bin with keys is one of them. -/
theorem InteriorPoint.Of.exists_real {point : InteriorPoint} (h : point.Of bin)
    (hne : bin.realKeys ≠ []) : ∃ key ∈ bin.realKeys, point.key = .real key := by
  unfold InteriorPoint.Of at h
  cases hkey : point.key with
  | real key =>
    rw [hkey] at h
    exact ⟨key, h, rfl⟩
  | dummyPosInf =>
    rw [hkey] at h
    exact absurd h hne

/-- The point of a bin without keys is the sentinel. -/
theorem InteriorPoint.Of.eq_dummy {point : InteriorPoint} (h : point.Of bin)
    (hnil : bin.realKeys = []) : point.key = .dummyPosInf := by
  unfold InteriorPoint.Of at h
  cases hkey : point.key with
  | real key =>
    rw [hkey, hnil] at h
    cases h
  | dummyPosInf => rfl

/-- Points of keys are in the order of the keys. -/
theorem orderingKey_lt_of_lt {key key' : RecordKey} (h : point.interiorPoint.key = .real key)
    (h' : point'.interiorPoint.key = .real key') (hlt : key < key') :
    point.orderingKey < point'.orderingKey := by
  refine Prod.Lex.toLex_lt_toLex.mpr (Or.inl (Prod.Lex.toLex_lt_toLex.mpr (Or.inr ?_)))
  rw [interiorPointSortKey, interiorPointSortKey, h, h']
  exact ⟨rfl, hlt⟩

/-- Every key comes before the sentinel. -/
theorem orderingKey_lt_dummy {key : RecordKey} (h : point.interiorPoint.key = .real key)
    (h' : point'.interiorPoint.key = .dummyPosInf) : point.orderingKey < point'.orderingKey := by
  refine Prod.Lex.toLex_lt_toLex.mpr (Or.inl (Prod.Lex.toLex_lt_toLex.mpr (Or.inl ?_)))
  rw [interiorPointSortKey, interiorPointSortKey, h, h']
  exact zero_lt_one

end Points

/-- The keys of a bin are below those of another. -/
def BoundBlockBin.Below (bin bin' : BoundBlockBin V) : Prop :=
  ∀ key ∈ bin.realKeys, ∀ key' ∈ bin'.realKeys, key < key'

/-- Before the point of a bin that holds keys come those of the earlier bins that hold some. -/
theorem countP_tagged_lt {front back : List (BoundBlockBin V)} {bin : BoundBlockBin V}
    {front' back' : List TaggedBinInteriorPoint} {point : TaggedBinInteriorPoint}
    (hbelow : (front ++ bin :: back).Pairwise BoundBlockBin.Below)
    (hfront : List.Forall₂ (fun bin point ↦ point.interiorPoint.Of bin) front front')
    (hpoint : point.interiorPoint.Of bin)
    (hback : List.Forall₂ (fun bin point ↦ point.interiorPoint.Of bin) back back')
    (hne : bin.realKeys ≠ []) :
    (front' ++ point :: back').countP (fun other ↦ other.orderingKey < point.orderingKey) =
      front.countP fun bin ↦ bin.realKeys ≠ [] := by
  obtain ⟨-, hafter, hbefore⟩ := List.pairwise_append.mp hbelow
  obtain ⟨key, hkey, hreal⟩ := hpoint.exists_real hne
  have hearlier : front'.countP (fun other ↦ other.orderingKey < point.orderingKey) =
      front.countP fun bin ↦ bin.realKeys ≠ [] := by
    have hboth := (List.forall₂_and_left _ _).mpr
      ⟨fun b hb ↦ hbefore b hb bin List.mem_cons_self, hfront⟩
    refine (countP_eq_of_forall₂ (hboth.imp fun b other ⟨hlt, hof⟩ ↦ ?_)).symm
    constructor
    · intro hb
      obtain ⟨key', hkey', hreal'⟩ := hof.exists_real hb
      exact orderingKey_lt_of_lt hreal' hreal (hlt key' hkey' key hkey)
    · rintro hother hnil
      exact absurd hother (orderingKey_lt_dummy hreal (hof.eq_dummy hnil)).asymm
  have hlater : back'.countP (fun other ↦ other.orderingKey < point.orderingKey) = 0 := by
    refine List.countP_eq_zero.mpr fun other hother ↦ ?_
    rw [decide_eq_true_eq]
    obtain ⟨b, hb, hof⟩ := exists_mem_left hback hother
    by_cases hkeys : b.realKeys = []
    · exact (orderingKey_lt_dummy hreal (hof.eq_dummy hkeys)).asymm
    · obtain ⟨key', hkey', hreal'⟩ := hof.exists_real hkeys
      have hlt := List.rel_of_pairwise_cons hafter hb key hkey key' hkey'
      exact (orderingKey_lt_of_lt hreal hreal' hlt).asymm
  rw [List.countP_append, List.countP_cons, hearlier, hlater, Nat.zero_add,
    if_neg (by rw [decide_eq_true_eq]; exact lt_irrefl _), Nat.add_zero]

/-! ## The bins of a plan -/

section Bins

variable {run : LogicalBlockRunView V} {plan : BlockAllocationPlan F} {side : Side}
  {bound₀ bound : BoundBlockAllocation F V} {n capacity : Nat} {loads : List Int}

/-- The blocks of a run hold records. -/
theorem BoundBlockBin.Binds.realKeys_eq_nil {planned : BlockBinPlan} {bin : BoundBlockBin V}
    (h : bin.Binds run planned) : bin.realKeys = [] ↔ bin.realBlockCount = 0 := by
  rw [BoundBlockBin.realKeys, List.map_eq_nil_iff, BoundBlockBin.realRecords,
    List.flatMap_eq_nil_iff, ← bin.length_blocks, List.length_eq_zero_iff]
  constructor
  · intro hnil
    refine List.eq_nil_iff_forall_not_mem.mpr fun b hb ↦ ?_
    refine run.records_ne_nil b ?_ (hnil b hb)
    rw [h.blocks] at hb
    exact List.mem_of_mem_drop (List.mem_of_mem_take hb)
  · intro hnil b hb
    rw [hnil] at hb
    cases hb

/-- Bound bins that are end to end have the keys of the run in order. -/
theorem pairwise_below (h : bindBlockAllocation run plan side = .ok bound)
    (hconsecutive : plan.Consecutive) : bound.bins.Pairwise BoundBlockBin.Below := by
  have hrecords := ((bindsExactly_iff run plan side).mpr (fun _ ↦ hconsecutive) bound h).2.1
  have hsorted := run.sorted_of_sublist (List.Sublist.refl run.blocks)
  rw [← LogicalBlockRunView.records, ← hrecords, BoundBlockAllocation.realRecords,
    List.pairwise_map, List.pairwise_flatMap] at hsorted
  refine hsorted.2.imp fun {bin bin'} hlt ↦ ?_
  rintro key hkey key' hkey'
  obtain ⟨record, hrecord, rfl⟩ := List.mem_map.mp hkey
  obtain ⟨record', hrecord', rfl⟩ := List.mem_map.mp hkey'
  exact hlt record hrecord record' hrecord'

/-- An allocated plan can be bound to its run. -/
theorem fits_of_allots (hcount : plan.blockCount = run.blockCount)
    (hcapacity : plan.binCapacityBlocks = capacity)
    (h : Allots run.blockCount capacity 0 0 loads plan.bins) : plan.Fits run := by
  refine ⟨hcount, ?_, fun bin hbin ↦ ⟨?_, h.stop_le bin hbin⟩⟩
  · rw [h.map_binIndex, List.range_eq_range']
  · rw [h.capacity_eq bin hbin, hcapacity]

/-- Before a bin that holds blocks, the bins that hold some are those whose load is not zero. -/
theorem countP_front (hallots : Allots n capacity 0 0 loads plan.bins)
    {front back : List (BoundBlockBin V)} {bin : BoundBlockBin V}
    (hbinds : List.Forall₂ (fun planned bin ↦ bin.Binds run planned) plan.bins
      (front ++ bin :: back)) (hreal : bin.realBlockCount ≠ 0) :
    front.countP (fun bin ↦ bin.realKeys ≠ []) =
      (loads.take front.length).countP fun load ↦ load ≠ 0 := by
  obtain ⟨front', planned, back', hplan, hfront, hbin, -⟩ := forall₂_split hbinds.flip
  rw [hplan] at hallots
  have hfull := hallots.real_eq_load_of_append (hbin.realBlockCount ▸ Nat.pos_of_ne_zero hreal)
  have hloads : loads.take front.length = front'.map fun bin ↦ (bin.sampledLoad : Int) := by
    rw [← hallots.map_sampledLoad, List.map_append, hfront.length_eq, ← List.length_map,
      List.take_left]
  have hboth := (List.forall₂_and_left _ _).mpr ⟨hfull, hfront.flip⟩
  rw [hloads, List.countP_map]
  refine (countP_eq_of_forall₂ (hboth.imp fun planned b ⟨hload, hb⟩ ↦ ?_)).symm
  rw [ne_eq, Int.natCast_eq_zero, ← hload, ← hb.realBlockCount]
  exact hb.realKeys_eq_nil.not.symm

/-- A bin stands at its index. -/
theorem BoundBlockAllocation.binIndex_eq_length {front back : List (BoundBlockBin V)}
    {bin : BoundBlockBin V} (h : bound.bins = front ++ bin :: back) :
    bin.binIndex = front.length := by
  have hindex := congrArg (·[front.length]?) bound.binIndex
  simp only [h, List.getElem?_map, List.getElem?_append_right le_rfl, Nat.sub_self] at hindex
  rw [List.getElem?_range (by simp)] at hindex
  exact Option.some.inj hindex

/-- Of the points of its side, those that come before the point of a bin with blocks are as many
as the sampled loads before it that are not zero. -/
theorem countP_tagged (hbind : bindBlockAllocation run plan side = .ok bound₀)
    (hsamples : bound₀.Samples bound)
    (hallots : Allots run.blockCount capacity 0 0 plan.sampledLoads plan.bins)
    {point : TaggedBinInteriorPoint} (hpoint : point ∈ bound.tagged) {bin : BoundBlockBin V}
    (hbin : bound.bins[point.binIndex]? = some bin) (hreal : bin.realBlockCount ≠ 0) :
    bound.tagged.countP (fun other ↦ other.orderingKey < point.orderingKey) =
      (plan.sampledLoads.take point.binIndex).countP fun load ↦ load ≠ 0 := by
  obtain ⟨-, hbinds⟩ := bindBlockAllocation_eq_ok hbind
  obtain ⟨front', back', htagged⟩ := List.append_of_mem hpoint
  have hpoints := hsamples.points
  rw [htagged] at hpoints
  obtain ⟨front, b, back, hbins, hfront, ⟨-, hindex, hof⟩, hback⟩ := forall₂_split hpoints.flip
  have hlength := bound.binIndex_eq_length hbins
  obtain rfl : b = bin := by
    rw [hbins, hindex, hlength, List.getElem?_append_right le_rfl, Nat.sub_self] at hbin
    exact Option.some.inj hbin
  have hbelow := pairwise_below hbind (consecutive_iff.mpr hallots.endToEnd)
  have hplanned := hbinds.bins
  rw [← hsamples.bins_eq, hbins] at hbelow hplanned
  obtain ⟨planned, -, hb⟩ := exists_mem_left hplanned (List.mem_append_right _ List.mem_cons_self)
  rw [htagged, hindex, hlength, ← countP_front hallots hplanned hreal]
  exact countP_tagged_lt hbelow (hfront.flip.imp fun _ _ h ↦ h.2.2) hof
    (hback.flip.imp fun _ _ h ↦ h.2.2) (hb.realKeys_eq_nil.not.mpr hreal)

end Bins

/-! ## The scan of both sides -/

/-- A scan only adds reads. -/
theorem ScheduleScan.reads_after_append (binCounts : Side → Nat) (tags more : List Side) :
    (ScheduleScan.after binCounts tags).reads <+:
      (ScheduleScan.after binCounts (tags ++ more)).reads := by
  rw [ScheduleScan.after, ScheduleScan.after, List.foldl_append]
  generalize tags.foldl (ScheduleScan.request binCounts) (.preload binCounts) = s
  induction more generalizing s with
  | nil => exact List.prefix_rfl
  | cons tag more ih =>
    refine List.IsPrefix.trans ?_ (ih (s.request binCounts tag))
    unfold ScheduleScan.request
    split_ifs
    · exact List.prefix_append _ _
    · exact List.prefix_rfl

/-- What has been read when the scan is through some points. -/
def readBefore (source target : BoundBlockAllocation F V) (points : List TaggedBinInteriorPoint) :
    List AbstractBinRead :=
  (ScheduleScan.after (binCounts source target) (points.map (·.side))).reads

section Sides

variable {bound₀ bound : Side → BoundBlockAllocation F V}

/-- The sorted points of a side are those of its allocation. -/
theorem countP_sorted (hsamples : ∀ side, (bound₀ side).Samples (bound side))
    (hside : ∀ side, (bound side).side = side) (side : Side) (p : TaggedBinInteriorPoint → Prop)
    [DecidablePred p] :
    (sortedTaggedInteriorPoints (bound .source) (bound .target)).countP
      (fun other ↦ other.side = side ∧ p other) = (bound side).tagged.countP (p ·) := by
  have hcount (s : Side) : (bound s).tagged.countP (fun other ↦ other.side = side ∧ p other) =
      if s = side then (bound s).tagged.countP (p ·) else 0 := by
    split_ifs with hs
    · refine List.countP_congr fun other hother ↦ ?_
      rw [decide_eq_true_eq, decide_eq_true_eq, (hsamples s).side_of_mem hother, hside, hs]
      exact and_iff_right rfl
    · refine List.countP_eq_zero.mpr fun other hother ↦ ?_
      rw [decide_eq_true_eq, (hsamples s).side_of_mem hother, hside]
      exact fun h ↦ hs h.1
  rw [sortedTaggedInteriorPoints, (List.perm_insertionSort _ _).countP_eq, List.countP_append,
    hcount, hcount]
  cases side <;> simp

/-- A sorted point is a point of its side. -/
theorem mem_tagged_of_mem_sorted (hsamples : ∀ side, (bound₀ side).Samples (bound side))
    (hside : ∀ side, (bound side).side = side) {point : TaggedBinInteriorPoint}
    (h : point ∈ sortedTaggedInteriorPoints (bound .source) (bound .target)) :
    point ∈ (bound point.side).tagged := by
  have hpoint (side : Side) (hmem : point ∈ (bound side).tagged) :
      point ∈ (bound point.side).tagged := by
    rwa [(hsamples side).side_of_mem hmem, hside]
  rw [sortedTaggedInteriorPoints, List.mem_insertionSort, List.mem_append] at h
  exact h.elim (hpoint .source) (hpoint .target)

theorem binCounts_apply (bound : Side → BoundBlockAllocation F V) (side : Side) :
    binCounts (bound .source) (bound .target) side = (bound side).binCount := by
  cases side <;> rfl

/-- What has been read of a side when the scan gets to the tag of one of its bins with blocks. -/
theorem readOrder_readBefore {run : Side → LogicalBlockRunView V} {capacity : Side → Nat}
    {plan : Side → BlockAllocationPlan F} {draw : Side → Nat → Int}
    (hallots : ∀ side, Allots (run side).blockCount (capacity side) 0 0 (plan side).sampledLoads
      (plan side).bins)
    (hbind : ∀ side, bindBlockAllocation (run side) (plan side) side = .ok (bound₀ side))
    (hsample : ∀ side, sampleBinInteriorPoints (bound₀ side) (draw side) = .ok (bound side))
    {before rest : List TaggedBinInteriorPoint} {point : TaggedBinInteriorPoint}
    (hscan : sortedTaggedInteriorPoints (bound .source) (bound .target) = before ++ point :: rest)
    {bin : BoundBlockBin V} (hbin : (bound point.side).bins[point.binIndex]? = some bin)
    (hreal : bin.realBlockCount ≠ 0) :
    ((plan point.side).sampledLoads.take point.binIndex).length = point.binIndex ∧
      readOrder (readBefore (bound .source) (bound .target) before) point.side = List.range
        (((plan point.side).sampledLoads.take point.binIndex).countP
          (fun load ↦ load ≠ 0) + 1) := by
  have hsamples (side : Side) := sampleBinInteriorPoints_eq_ok (hsample side)
  have hbinds (side : Side) := (bindBlockAllocation_eq_ok (hbind side)).2
  have hside (side : Side) : (bound side).side = side :=
    (hsamples side).side_eq.trans (hbinds side).side_eq
  have hsides := sampledSides (hsample .source) (hsample .target) (hbinds _).side_eq
    (hbinds _).side_eq
  have hpoint : point ∈ (bound point.side).tagged :=
    mem_tagged_of_mem_sorted hsamples hside
      (hscan ▸ List.mem_append_right _ List.mem_cons_self)
  have hcount : (before.map (·.side)).count point.side =
      ((plan point.side).sampledLoads.take point.binIndex).countP fun load ↦ load ≠ 0 := by
    have hsorted := hsides.sortedBy
    rw [hscan] at hsorted
    have hbefore := hsorted.countP_before fun other ↦ other.side = point.side
    rw [← hscan, countP_sorted hsamples hside, countP_tagged (hbind _) (hsamples _) (hallots _)
      hpoint hbin hreal] at hbefore
    rw [← hbefore, List.count, List.countP_map]
    exact List.countP_congr fun other _ ↦ by simp
  have hindex : point.binIndex < (bound point.side).binCount :=
    (List.getElem?_eq_some_iff.mp hbin).1
  have hlength : ((plan point.side).sampledLoads.take point.binIndex).length = point.binIndex := by
    rw [List.length_take, (plan point.side).length_sampledLoads, ← (hbinds point.side).plan_eq,
      ← (bound₀ point.side).length_bins, ← (hsamples point.side).bins_eq]
    exact Nat.min_eq_left hindex.le
  have hle : _ ≤ ((plan point.side).sampledLoads.take point.binIndex).length :=
    List.countP_le_length (p := fun load ↦ load ≠ 0)
  have horder : readOrder (readBefore (bound .source) (bound .target) before) point.side = _ :=
    ScheduleScan.readOrder_after _ _ _
  rw [hcount, binCounts_apply, Nat.min_eq_right (by omega)] at horder
  exact ⟨hlength, horder⟩

/-- When the scan gets to the tag of a bin that holds blocks, it has read the first bins of the
side, one more than there are earlier loads other than zero.  It has read the bin itself exactly
when no earlier load of the side is zero. -/
theorem read_before_scan [NoiseArithmetic F] {run : Side → LogicalBlockRunView V}
    {sizing : Side → BinSizing F} {config : Side → SwatBlockAllocationConfig F}
    {sampler : Side → Nat → Int} {noise : Side → Nat → F} {draw : Side → Nat → Int}
    {plan : Side → BlockAllocationPlan F}
    (hplan : ∀ side, allocateBlockBins (sizing side) (run side).blockCount (config side)
      (sampler side) (noise side) = .ok (plan side))
    (hbind : ∀ side, bindBlockAllocation (run side) (plan side) side = .ok (bound₀ side))
    (hsample : ∀ side, sampleBinInteriorPoints (bound₀ side) (draw side) = .ok (bound side))
    {before rest : List TaggedBinInteriorPoint} {point : TaggedBinInteriorPoint}
    (hscan : sortedTaggedInteriorPoints (bound .source) (bound .target) = before ++ point :: rest)
    {bin : BoundBlockBin V} (hbin : (bound point.side).bins[point.binIndex]? = some bin)
    (hreal : bin.realBlockCount ≠ 0) :
    ∃ reads, buildAbstractMergeSchedule (bound .source) (bound .target) = .ok reads ∧
      readBefore (bound .source) (bound .target) before <+: reads ∧
      readOrder (readBefore (bound .source) (bound .target) before) point.side = List.range
        (((plan point.side).sampledLoads.take point.binIndex).countP (fun load ↦ load ≠ 0) + 1) ∧
      (⟨point.side, point.binIndex⟩ ∈ readBefore (bound .source) (bound .target) before ↔
        ∀ load ∈ (plan point.side).sampledLoads.take point.binIndex, load ≠ 0) := by
  have hbinds (side : Side) := (bindBlockAllocation_eq_ok (hbind side)).2
  have hsides := sampledSides (hsample .source) (hsample .target) (hbinds _).side_eq
    (hbinds _).side_eq
  obtain ⟨hlength, horder⟩ := readOrder_readBefore
    (fun side ↦ allots_of_allocateBlockBins _ (hplan side)) hbind hsample hscan hbin hreal
  refine ⟨_, hsides.buildAbstractMergeSchedule_eq, ?_, horder, ?_⟩
  · rw [readBefore, hscan, List.map_append]
    exact ScheduleScan.reads_after_append _ _ _
  · have hle : _ ≤ ((plan point.side).sampledLoads.take point.binIndex).length :=
      List.countP_le_length (p := fun load ↦ load ≠ 0)
    rw [← mem_readOrder, horder, List.mem_range, Nat.lt_succ_iff]
    constructor
    · intro h load hload
      have hall := List.countP_eq_length.mp (hle.antisymm (hlength.trans_le h)) load hload
      exact of_decide_eq_true hall
    · intro h
      have hall := List.countP_eq_length.mpr fun load hload ↦ decide_eq_true (h load hload)
      exact (hlength.symm.trans hall.symm).le

end Sides

/-! ## Bins that are read late -/

/-- Twice as many bins as blocks. -/
def doubleSizing : BinSizing ℚ := { smallSizing with factor := 2, ceil := fun n ↦ 2 * n }

/-- Loads of which only the third is not zero. -/
def thirdLoad : Nat → Int := fun i ↦ if i = 2 then 2 else 0

/-- The blocks of both sides are in the third of four bins. -/
theorem exists_thirdLoad : ∃ (plan : BlockAllocationPlan ℚ)
    (bound₀ bound : Side → BoundBlockAllocation ℚ String)
    (before rest : List TaggedBinInteriorPoint) (point : TaggedBinInteriorPoint)
    (bin : BoundBlockBin String),
    allocateBlockBins doubleSizing twoBlocks.blockCount smallConfig thirdLoad (fun _ ↦ 0) =
        .ok plan ∧ plan.sampledLoads = [0, 0, 2, 0] ∧
      (∀ side, bindBlockAllocation twoBlocks plan side = .ok (bound₀ side)) ∧
      (∀ side, sampleBinInteriorPoints (bound₀ side) (fun _ ↦ 0) = .ok (bound side)) ∧
      sortedTaggedInteriorPoints (bound .source) (bound .target) = before ++ point :: rest ∧
      (bound point.side).bins[point.binIndex]? = some bin ∧ bin.realBlockCount ≠ 0 ∧
      point.binIndex = 2 := by
  have hloads : ∀ i < doubleSizing.binCount twoBlocks.blockCount,
      0 ≤ thirdLoad i ∧ thirdLoad i ≤ doubleSizing.capacity := by decide
  have hfinite : doubleSizing.FiniteNoise twoBlocks.blockCount thirdLoad fun _ ↦ 0 :=
    NoisySums.finiteFrom_of_forall (fun _ ↦ rfl) _ _ _ _
  obtain ⟨plan, hplan, hcount, hcapacity, hsampled, hallots⟩ :=
    allocateBlockBins_eq_ok smallConfig hloads hfinite (by decide)
  have hfits : plan.Fits twoBlocks := fits_of_allots hcount hcapacity hallots
  choose bound₀ bound hbind hsample using exists_sample_first hfits
  have hthird : doubleSizing.sampledLoads twoBlocks.blockCount thirdLoad = [0, 0, 2, 0] := by decide
  rw [hthird] at hsampled hallots
  obtain ⟨front, planned, back, hbins, hfront, hreal⟩ : ∃ front planned back,
      plan.bins = front ++ planned :: back ∧ front.length = 2 ∧ planned.realCount ≠ 0 := by
    generalize plan.bins = bins at hallots
    rcases hallots with _ | @⟨_, _, _, _, first, _, -, -, hload, hreal, -, hallots⟩
    rcases hallots with _ | @⟨_, _, _, _, second, _, -, -, hload', hreal', -, hallots⟩
    rcases hallots with _ | @⟨_, _, _, _, third, _, -, -, hload'', hreal'', -, hallots⟩
    refine ⟨[first, second], third, _, rfl, rfl, ?_⟩
    rw [hreal'', show twoBlocks.blockCount = 2 from rfl]
    omega
  obtain ⟨-, hbinds⟩ := bindBlockAllocation_eq_ok (hbind .source)
  have hplanned := hbinds.bins
  rw [hbins] at hplanned
  obtain ⟨front', bin, back', hbound, hfront', hbin, -⟩ := forall₂_split hplanned
  have hsamples (side : Side) := sampleBinInteriorPoints_eq_ok (hsample side)
  rw [← (hsamples .source).bins_eq] at hbound
  have hpoints := (hsamples .source).points
  rw [hbound] at hpoints
  obtain ⟨_, point, _, htagged, -, ⟨hside, hindex, -⟩, -⟩ := forall₂_split hpoints
  have hlength : bin.binIndex = 2 := by
    rw [(bound .source).binIndex_eq_length hbound, ← hfront'.length_eq, hfront]
  obtain ⟨before, rest, hscan⟩ : ∃ before rest,
      sortedTaggedInteriorPoints (bound .source) (bound .target) = before ++ point :: rest := by
    refine List.append_of_mem ?_
    rw [sortedTaggedInteriorPoints, List.mem_insertionSort, htagged]
    simp
  refine ⟨plan, bound₀, bound, before, rest, point, bin, hplan, hsampled, hbind, hsample, hscan, ?_,
    ?_, hindex.trans hlength⟩
  · rw [hside, (hsamples .source).side_eq, hbinds.side_eq, hbound, hindex,
      (bound .source).binIndex_eq_length hbound, List.getElem?_append_right le_rfl, Nat.sub_self]
    rfl
  · rw [hbin.realBlockCount]
    exact hreal

/-- The tag of a bin that holds blocks is scanned before the bin is read. -/
theorem not_read_before_scan : ¬ ∀ (run : Side → LogicalBlockRunView String)
    (sizing : Side → BinSizing ℚ) (config : Side → SwatBlockAllocationConfig ℚ)
    (sampler : Side → Nat → Int) (noise : Side → Nat → ℚ) (draw : Side → Nat → Int)
    (plan : Side → BlockAllocationPlan ℚ) (bound₀ bound : Side → BoundBlockAllocation ℚ String)
    (before rest : List TaggedBinInteriorPoint) (point : TaggedBinInteriorPoint)
    (bin : BoundBlockBin String),
    (∀ side, allocateBlockBins (sizing side) (run side).blockCount (config side) (sampler side)
      (noise side) = .ok (plan side)) →
    (∀ side, bindBlockAllocation (run side) (plan side) side = .ok (bound₀ side)) →
    (∀ side, sampleBinInteriorPoints (bound₀ side) (draw side) = .ok (bound side)) →
    sortedTaggedInteriorPoints (bound .source) (bound .target) = before ++ point :: rest →
    (bound point.side).bins[point.binIndex]? = some bin → bin.realBlockCount ≠ 0 →
      ⟨point.side, point.binIndex⟩ ∈ readBefore (bound .source) (bound .target) before := by
  intro h
  obtain ⟨plan, bound₀, bound, before, rest, point, bin, hplan, hsampled, hbind, hsample, hscan,
    hbin, hreal, hindex⟩ := exists_thirdLoad
  have hread := h (fun _ ↦ twoBlocks) _ _ _ _ _ _ bound₀ bound before rest point bin
    (fun _ ↦ hplan) hbind hsample hscan hbin hreal
  have horder := (readOrder_readBefore (fun _ ↦ allots_of_allocateBlockBins _ hplan) hbind hsample
    hscan hbin hreal).2
  rw [← mem_readOrder, horder, hsampled, hindex] at hread
  revert hread
  decide

theorem read_before_scan_thirdLoad : ∃ (plan : BlockAllocationPlan ℚ)
    (bound : Side → BoundBlockAllocation ℚ String) (before : List TaggedBinInteriorPoint)
    (point : TaggedBinInteriorPoint), plan.sampledLoads = [0, 0, 2, 0] ∧ point.binIndex = 2 ∧
      readOrder (readBefore (bound .source) (bound .target) before) point.side = [0] := by
  obtain ⟨plan, bound₀, bound, before, rest, point, bin, hplan, hsampled, hbind, hsample, hscan,
    hbin, hreal, hindex⟩ := exists_thirdLoad
  obtain ⟨reads, -, -, horder, -⟩ :=
    read_before_scan (fun _ ↦ hplan) hbind hsample hscan hbin hreal
  rw [hsampled, hindex] at horder
  exact ⟨plan, bound, before, point, hsampled, hindex, horder⟩

end EnhancedLetIndex
