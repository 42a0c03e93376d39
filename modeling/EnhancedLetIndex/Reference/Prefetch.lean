import EnhancedLetIndex.Reference.Query

/-!
# One fetch serves a bounded lookup

In the ordered layout, with blocks of at least `2 * epsilon + 2` items, the window of a model
touches at most two neighbouring blocks.  The first access of a bounded lookup reads them, as
one run of one or two slots, and no later access reads again (`Buffered`): the events of a
lookup are a function of its window (`lookup_events`).
-/

namespace EnhancedLetIndex

namespace LevelSearcher

/-- The first access of a bounded search, on its own. -/
def firstAccess (l : ReferenceLevel) (proj : SlotProjection) (first last : Nat) :
    SearchM RecordKey :=
  if last - first > 1 then andSave l proj (first + (last - first) / 2) first last
  else orCache l proj first

/-- The reads of `k` consecutive blocks from `start` on. -/
def readsFrom (r : LevelRegion) (start k : Nat) : List (EventOperation × Int) :=
  (intRange (r.regionStart + start) k).map fun slot ↦ (.read, slot)

/-- The block of every item of the window, and of the item right after it, is buffered. -/
structure Buffered (l : ReferenceLevel) (r : LevelRegion) (first last : Nat)
    (reads : List (EventOperation × Int)) (s : LevelSearcher) : Prop where
  events : s.events = reads
  probes : ∀ q ∈ s.probes, first ≤ q ∧ q < last
  served : ∀ pos, first ≤ pos → pos ≤ last → pos < l.itemCount →
    ∃ physical, l.physicalBlock (pos / l.itemsPerBlock) = .ok physical ∧
      (s.currentBlock = some physical ∨ s.cacheLeft = some physical ∨
        s.cacheRight = some physical) ∧
      (EventOperation.read, r.regionStart + (physical : Int)) ∈ reads

variable {l : ReferenceLevel} {proj : SlotProjection} {r : LevelRegion} {p : ReferenceProfile}
  {entry : Int × List (Int × String)} {first last : Nat}
  {reads : List (EventOperation × Int)}

/-- A buffered block is read no more. -/
theorem keeps_orCache_of_buffered {pos : Nat} (h : pos < l.keys.length) (hfirst : first ≤ pos)
    (hlast : pos ≤ last) :
    Keeps (Buffered l r first last reads) (orCache l proj pos) (l.keys.get ⟨pos, h⟩) := by
  intro s hs
  obtain ⟨physical, hphysical, hserved, -⟩ := hs.served pos hfirst hlast h
  have hrun : (orCache l proj pos).run s = (key l pos).run s := by
    have hphys : (LevelSearcher.physical l pos).run s = .ok physical s := by
      rw [LevelSearcher.physical, hphysical]
      rfl
    have hget : (get : SearchM LevelSearcher).run s = .ok s s := rfl
    rw [orCache, run_bind_of_ok hphys, run_bind_of_ok hget]
    rcases hserved with hcur | hcache
    · rw [if_pos hcur]
    · rw [if_pos hcache, ite_self]
  rw [hrun]
  exact keeps_key h s hs

/-- A later probe of the window reads nothing. -/
theorem keeps_probe_of_buffered {pos : Nat} (h : pos < l.keys.length) (hfirst : first ≤ pos)
    (hlast : pos < last) :
    Keeps (Buffered l r first last reads) (probe (orCache l proj) pos)
      (l.keys.get ⟨pos, h⟩) := by
  refine keeps_probe (fun s hs ↦ ⟨hs.events, ?_, hs.served⟩)
    (keeps_orCache_of_buffered h hfirst hlast.le)
  intro q hq
  rcases List.mem_append.mp hq with hq | hq
  · exact hs.probes q hq
  · rw [List.mem_singleton.mp hq]
    exact ⟨hfirst, hlast⟩

/-! ## The first access -/

/-- In the ordered layout a block stands where its rank says. -/
theorem physicalBlock_of_ordered (hl : l.BuiltFrom p entry) (hordered : p.layout = .ordered)
    {logical : Nat} (h : logical < l.blockCount) : l.physicalBlock logical = .ok logical := by
  have hplacement := hl.ordered hordered
  rw [hl.blockCount] at h
  rw [ReferenceLevel.physicalBlock, hplacement, List.getElem?_range h]

/-- Nothing is buffered and nothing has been read. -/
structure Fresh (s : LevelSearcher) : Prop where
  currentBlock : s.currentBlock = none
  cacheLeft : s.cacheLeft = none
  cacheRight : s.cacheRight = none
  events : s.events = []

theorem neighbour_pred {mid : Nat} (hmid : 0 < mid) (h : mid < l.blockCount) :
    neighbour l mid (-1) = some (mid - 1) := by
  rw [neighbour, if_pos (by omega)]
  congr 1
  omega

theorem neighbour_succ (mid : Nat) :
    neighbour l mid 1 = if mid + 1 < l.blockCount then some (mid + 1) else none := by
  unfold neighbour
  split_ifs
  · congr 1
  · omega
  · omega
  · rfl

/-- The blocks beside the probed one that `_obtain_and_save` reads, by the blocks at the two
ends of a window that spans at most two. -/
theorem savedBlocks_cases {a m z : Nat} (ham : a ≤ m) (hmz : m ≤ z) (hza : z ≤ a + 1)
    (hm : m < l.blockCount) :
    ∃ start k, (k = 1 ∨ k = 2) ∧ (m :: ((if a < m then neighbour l m (-1) else none).toList ++
        (if z > m then neighbour l m 1 else none).toList)).dedup.insertionSort (· ≤ ·) =
          List.range' start k ∧
      (∀ x, a ≤ x → x ≤ z → x < l.blockCount → start ≤ x ∧ x < start + k ∧
        (m = x ∨ (if a < m then neighbour l m (-1) else none) = some x ∨
          (if z > m then neighbour l m 1 else none) = some x)) := by
  rcases Nat.lt_or_ge a m with ham' | ham'
  · -- the window starts in the block before the probed one
    have hz : ¬ z > m := by omega
    rw [if_pos ham', if_neg hz, neighbour_pred (by omega) hm]
    obtain ⟨a', rfl⟩ : ∃ a', m = a' + 1 := ⟨m - 1, by omega⟩
    refine ⟨a', 2, .inr rfl, by simp [List.range'], fun x hax hxz hx ↦ ⟨by omega, by omega, ?_⟩⟩
    rcases Nat.eq_or_lt_of_le (show x ≤ a' + 1 by omega) with rfl | hlt
    · exact .inl rfl
    · exact .inr (.inl (congrArg some (by omega)))
  · rw [if_neg (show ¬ a < m by omega)]
    rcases Nat.lt_or_ge m z with hmz' | hmz'
    · -- it ends in the block after it, which is read if the level has it
      rw [if_pos hmz', neighbour_succ]
      by_cases hnext : m + 1 < l.blockCount
      · rw [if_pos hnext]
        refine ⟨m, 2, .inr rfl, by simp [List.range'], fun x hax hxz hx ↦
          ⟨by omega, by omega, ?_⟩⟩
        rcases Nat.eq_or_lt_of_le (show m ≤ x by omega) with rfl | hlt
        · exact .inl rfl
        · exact .inr (.inr (congrArg some (by omega)))
      · rw [if_neg hnext]
        exact ⟨m, 1, .inl rfl, by simp [List.range'], fun x hax hxz hx ↦
          ⟨by omega, by omega, .inl (by omega)⟩⟩
    · rw [if_neg (show ¬ z > m by omega)]
      exact ⟨m, 1, .inl rfl, by simp [List.range'], fun x hax hxz hx ↦
        ⟨by omega, by omega, .inl (by omega)⟩⟩

theorem mem_readsFrom {start k x : Nat} (h₁ : start ≤ x) (h₂ : x < start + k) :
    (EventOperation.read, r.regionStart + (x : Int)) ∈ readsFrom r start k :=
  List.mem_map_of_mem (mem_intRange.mpr (by omega))

theorem map_range'_reads (start k : Nat) : ((List.range' start k).map fun physical : Nat ↦
    (EventOperation.read, r.regionStart + (physical : Int))) = readsFrom r start k := by
  rw [readsFrom, intRange, List.map_map, List.range'_eq_map_range, List.map_map]
  refine List.map_congr_left fun i _ ↦ ?_
  show (EventOperation.read, r.regionStart + ((start + i : Nat) : Int)) =
    (EventOperation.read, r.regionStart + start + (i : Int))
  rw [Nat.cast_add, Int.add_assoc]

/-- What a fetch with neighbours leaves behind. -/
structure Saved (l : ReferenceLevel) (r : LevelRegion) (mid : Nat) (left right : Option Nat)
    (s s' : LevelSearcher) : Prop where
  currentBlock : s'.currentBlock = some mid
  cacheLeft : s'.cacheLeft = left
  cacheRight : s'.cacheRight = right
  probes : s'.probes = s.probes
  events : s'.events = s.events ++
    ((mid :: (left.toList ++ right.toList)).dedup.insertionSort (· ≤ ·)).map fun physical : Nat ↦
      (EventOperation.read, r.regionStart + (physical : Int))

theorem run_andSave (hb : l.Backed proj r) {pos mid : Nat} (h : pos < l.keys.length)
    (hphys : l.physicalBlock (pos / l.itemsPerBlock) = .ok mid) (hmid : mid < l.blockCount)
    (first last : Nat) (s : LevelSearcher) :
    ∃ s', (andSave l proj pos first last).run s = .ok (l.keys.get ⟨pos, h⟩) s' ∧
      Saved l r mid
        (if first / l.itemsPerBlock < pos / l.itemsPerBlock then neighbour l mid (-1) else none)
        (if last / l.itemsPerBlock > pos / l.itemsPerBlock then neighbour l mid 1 else none)
        s s' := by
  have hphys' : (liftExcept id (l.physicalBlock (pos / l.itemsPerBlock)) : SearchM Nat).run s =
      .ok mid s := by
    rw [hphys]
    rfl
  rw [andSave]
  simp only [run_bind_of_ok hphys']
  generalize hleft : (if first / l.itemsPerBlock < pos / l.itemsPerBlock
    then neighbour l mid (-1) else none) = left
  generalize hright : (if last / l.itemsPerBlock > pos / l.itemsPerBlock
    then neighbour l mid 1 else none) = right
  obtain ⟨fetched, hrun⟩ := run_readRun hb (mid :: (left.toList ++ right.toList)) (by
    intro physical hphysical
    rcases List.mem_cons.mp hphysical with rfl | hphysical
    · exact hmid
    · exact lt_of_mem_savedBlocks (hleft ▸ hright ▸ hphysical)) s
  rw [run_bind_of_ok hrun]
  exact ⟨_, run_key h _, rfl, rfl, rfl, rfl, rfl⟩

theorem run_orCache_of_fresh (hb : l.Backed proj r) {pos physical : Nat} (h : pos < l.keys.length)
    (hphys : l.physicalBlock (pos / l.itemsPerBlock) = .ok physical)
    (hlt : physical < l.blockCount) {s : LevelSearcher} (hs : Fresh s) :
    ∃ s', (orCache l proj pos).run s = .ok (l.keys.get ⟨pos, h⟩) s' ∧
      s'.events = [(.read, r.regionStart + physical)] ∧ s'.currentBlock = some physical ∧
      s'.probes = s.probes := by
  have hphys' : (LevelSearcher.physical l pos).run s = .ok physical s := by
    rw [LevelSearcher.physical, hphys]
    rfl
  have hget : (get : SearchM LevelSearcher).run s = .ok s s := rfl
  rw [orCache, run_bind_of_ok hphys', run_bind_of_ok hget, hs.currentBlock, hs.cacheLeft,
    hs.cacheRight, if_neg (by simp), if_neg (by simp), fetch, bind_assoc,
    run_bind_of_ok (run_read hb hlt s)]
  refine ⟨_, run_key h _, ?_, rfl, rfl⟩
  show s.events ++ [(EventOperation.read, r.regionStart + (physical : Int))] = _
  rw [hs.events, List.nil_append]

/-- A window that spans at most two blocks, and that ends with the level if it has one item
only. -/
structure Narrow (l : ReferenceLevel) (first last : Nat) : Prop where
  lt : first < last
  le : last ≤ l.itemCount
  span : last - first ≤ l.itemsPerBlock
  single : last - first = 1 → last = l.itemCount

namespace Narrow

variable (hw : Narrow l first last)

include hw

theorem mid_lt : first + (last - first) / 2 < l.keys.length := by
  have hle : last ≤ l.keys.length := hw.le
  have := hw.lt
  omega

/-- The blocks at the two ends of a narrow window are the same or neighbours. -/
theorem div_le (hB : 0 < l.itemsPerBlock) :
    last / l.itemsPerBlock ≤ first / l.itemsPerBlock + 1 := by
  have hspan := hw.span
  have hlt := hw.lt
  calc last / l.itemsPerBlock ≤ (first + l.itemsPerBlock) / l.itemsPerBlock :=
        Nat.div_le_div_right (by omega)
    _ = first / l.itemsPerBlock + 1 := Nat.add_div_right first hB

/-- The first access buffers the window by a run of one or two reads. -/
theorem exists_firstAccess (hl : l.BuiltFrom p entry) (hb : l.Backed proj r)
    (hordered : p.layout = .ordered) :
    ∃ start k, (k = 1 ∨ k = 2) ∧ ∀ s, Fresh s → (∀ q ∈ s.probes, first ≤ q ∧ q < last) →
      ∃ s', (firstAccess l proj first last).run s =
          .ok (l.keys.get ⟨first + (last - first) / 2, hw.mid_lt⟩) s' ∧
        Buffered l r first last (readsFrom r start k) s' := by
  have hB := hl.itemsPerBlock_pos
  have hmid := hw.mid_lt
  have hlt := hw.lt
  have hphys : ∀ pos, pos < l.itemCount →
      l.physicalBlock (pos / l.itemsPerBlock) = .ok (pos / l.itemsPerBlock) :=
    fun pos hpos ↦ physicalBlock_of_ordered hl hordered (hl.div_lt hpos)
  by_cases hn : last - first > 1
  · obtain ⟨start, k, hk, hblocks, hserved⟩ := savedBlocks_cases (l := l)
      (Nat.div_le_div_right (c := l.itemsPerBlock) (Nat.le_add_right first ((last - first) / 2)))
      (Nat.div_le_div_right (show first + (last - first) / 2 ≤ last by omega))
      (hw.div_le hB) (hl.div_lt hmid)
    refine ⟨start, k, hk, fun s hs hprobes ↦ ?_⟩
    obtain ⟨s', hrun, hstate⟩ := run_andSave hb hmid (hphys _ hmid) (hl.div_lt hmid) first last s
    rw [firstAccess, if_pos hn]
    refine ⟨s', hrun, ?_, hstate.probes ▸ hprobes, fun pos hfirst hlast hpos ↦ ?_⟩
    · rw [hstate.events, hs.events, hblocks, map_range'_reads, List.nil_append]
    · obtain ⟨h₁, h₂, hbuffer⟩ := hserved (pos / l.itemsPerBlock) (Nat.div_le_div_right hfirst)
        (Nat.div_le_div_right hlast) (hl.div_lt hpos)
      refine ⟨_, hphys pos hpos, ?_, mem_readsFrom h₁ h₂⟩
      rw [hstate.currentBlock, hstate.cacheLeft, hstate.cacheRight, Option.some_inj]
      exact hbuffer
  · have hone := hw.single (by omega)
    have hfirst : first + (last - first) / 2 = first := by omega
    refine ⟨first / l.itemsPerBlock, 1, .inl rfl, fun s hs hprobes ↦ ?_⟩
    obtain ⟨s', hrun, hevents, hcur, hprobes'⟩ := run_orCache_of_fresh hb (by omega)
      (hphys first (by omega)) (hl.div_lt (by omega)) hs
    rw [firstAccess, if_neg hn]
    simp only [hfirst]
    refine ⟨s', hrun, ?_, hprobes' ▸ hprobes, fun pos hge hle hpos ↦ ?_⟩
    · rw [hevents, readsFrom]
      simp [intRange]
    · obtain rfl : pos = first := by omega
      exact ⟨_, hphys pos hpos, .inl hcur, mem_readsFrom le_rfl (Nat.lt_succ_self _)⟩

/-- The bounded search finds the rank and reads nothing after its first access. -/
theorem run_lowerBoundPgmBounded (hl : l.BuiltFrom p entry) {reads : List (EventOperation × Int)}
    (hfetch : ∀ s, Fresh s → (∀ q ∈ s.probes, first ≤ q ∧ q < last) →
      ∃ s', (firstAccess l proj first last).run s =
          .ok (l.keys.get ⟨first + (last - first) / 2, hw.mid_lt⟩) s' ∧
        Buffered l r first last reads s') {query : Int}
    (hle : first ≤ lowerRank l.keys ⟨query⟩) (hge : lowerRank l.keys ⟨query⟩ ≤ last) :
    ∃ s, (lowerBoundPgmBounded l proj first last query).run {} =
      .ok (lowerRank l.keys ⟨query⟩) s ∧ Buffered l r first last reads s := by
  have hlt := hw.lt
  have hlast : last ≤ l.keys.length := hw.le
  have hmid := hw.mid_lt
  have hobtain : ∀ pos (h : pos < l.keys.length), first ≤ pos → pos ≤ last →
      Keeps (Buffered l r first last reads) (orCache l proj pos) (l.keys.get ⟨pos, h⟩) :=
    fun pos h ↦ keeps_orCache_of_buffered h
  have hprobe : ∀ pos (h : pos < l.keys.length), first ≤ pos → pos < last →
      Keeps (Buffered l r first last reads) (probe (orCache l proj) pos)
        (l.keys.get ⟨pos, h⟩) := fun pos h ↦ keeps_probe_of_buffered h
  rw [lowerBoundPgmBounded, if_neg hlt.ne]
  -- the first access, with its probe noted, is the first access on its own
  obtain ⟨s₁, hrun₁, hs₁⟩ := hfetch { probes := [first + (last - first) / 2] }
    ⟨rfl, rfl, rfl, rfl⟩ (fun q hq ↦ by rw [List.mem_singleton.mp hq]; omega)
  by_cases hn : last - first > 1
  · obtain ⟨h₁, h₂, h₃, h₄⟩ :=
      (isCut_below hl query).halve_step first hn (by omega) hle (by omega)
    rw [firstAccess, if_pos hn] at hrun₁
    have hfirst : (firstProbe l proj first last query).run {} = .ok
        (if below query (l.keys.get ⟨first + (last - first) / 2, hmid⟩)
          then first + (last - first) / 2 else first,
          last - first - (last - first) / 2) s₁ := by
      have hprobe₁ : (probe (fun pos ↦ andSave l proj pos first last)
          (first + (last - first) / 2)).run {} =
            .ok (l.keys.get ⟨first + (last - first) / 2, hmid⟩) s₁ := hrun₁
      unfold firstProbe
      simp only [if_pos hn]
      rw [run_bind_of_ok hprobe₁]
      rfl
    rw [run_bind_of_ok hfirst]
    exact keeps_halve_conclude hl hprobe hobtain hlast (by omega) h₁ (by omega) h₃ h₄ s₁ hs₁
  · have hone : first + (last - first) / 2 = first := by omega
    rw [firstAccess, if_neg hn] at hrun₁
    simp only [hone] at hrun₁
    have hfirst : (firstProbe l proj first last query).run {} = .ok (first, last - first) {} := by
      unfold firstProbe
      simp only [if_neg hn]
      rfl
    have hhalve : halve (below query) (probe (orCache l proj)) (last - first) first
        (last - first) = pure first := by
      obtain ⟨n, hlen⟩ : ∃ n, last - first = n + 1 := ⟨last - first - 1, by omega⟩
      rw [hlen, halve, if_neg (by omega)]
    rw [run_bind_of_ok hfirst]
    simp only [hhalve, pure_bind]
    exact run_conclude hl (by omega) hrun₁ hs₁
      (fun pos h hpos ↦ hobtain pos h (by omega) (by omega)) hle (by omega)

end Narrow

end LevelSearcher

namespace ReferenceIndex

open LevelSearcher

variable {p : ReferenceProfile} {levels : LevelMap} {idx : ReferenceIndex}
  {l : ReferenceLevel}

/-- The windows of the models of an ordered index with large enough blocks are narrow. -/
theorem narrow_window {entry : Int × List (Int × String)} (hl : l.BuiltFrom p entry)
    (hB : 2 * p.epsilon + 2 ≤ p.itemsPerBlock) {pos : Nat} (hpos : pos ≤ l.itemCount)
    (hlt : (BatchPgmIndex.window p.epsilon.toNat l.itemCount pos).lo <
      (BatchPgmIndex.window p.epsilon.toNat l.itemCount pos).hi) :
    Narrow l (BatchPgmIndex.window p.epsilon.toNat l.itemCount pos).lo
      (BatchPgmIndex.window p.epsilon.toNat l.itemCount pos).hi := by
  have hepsilon := p.epsilon_nonneg
  have hitems := hl.itemsPerBlock
  refine ⟨hlt, ?_, ?_, ?_⟩ <;> simp only [BatchPgmIndex.window] at hlt ⊢
  · split_ifs <;> omega
  · split_ifs <;> omega
  · split_ifs <;> omega

/-- What a lookup in a level with a model reads. -/
structure ReadsOnce (l : ReferenceLevel) (proj : SlotProjection) (o : LevelLookupOutcome) :
    Prop where
  run : ∃ start k, (k = 1 ∨ k = 2) ∧
    o.events = (intRange start k).map fun slot ↦ (EventOperation.read, slot)
  first : ∃ x s, (firstAccess l proj o.interval.1 o.interval.2).run {} = .ok x s ∧
    s.events = o.events
  covers : ∀ pos, (pos ∈ o.probes ∨ pos = o.pos ∧ pos ≠ l.itemCount) →
    o.interval.1 ≤ pos ∧ pos ≤ min o.interval.2 (l.itemCount - 1) ∧
      ∃ slot, proj.slot l.level (pos / l.itemsPerBlock) = .ok slot ∧
        (EventOperation.read, slot.value) ∈ o.events

/-- A lookup that ended with its window buffered read once. -/
theorem readsOnce_of_buffered {entry : Int × List (Int × String)} {proj : SlotProjection}
    {r : LevelRegion} {first last : Nat} (hl : l.BuiltFrom p entry) (hb : l.Backed proj r)
    (hordered : p.layout = .ordered) {query : Int} (hw : Narrow l first last)
    (hle : first ≤ lowerRank l.keys ⟨query⟩) (hge : lowerRank l.keys ⟨query⟩ ≤ last)
    (path : String) : ∃ s, (lowerBoundPgmBounded l proj first last query).run {} =
        .ok (lowerRank l.keys ⟨query⟩) s ∧
      ReadsOnce l proj (levelOutcome l query (lowerRank l.keys ⟨query⟩) (first, last) path s) := by
  obtain ⟨start, k, hk, hfetch⟩ := hw.exists_firstAccess hl hb hordered
  obtain ⟨s, hrun, hs⟩ := hw.run_lowerBoundPgmBounded hl hfetch hle hge
  obtain ⟨s₁, hrun₁, hs₁⟩ :=
    hfetch {} ⟨rfl, rfl, rfl, rfl⟩ fun q hq ↦ absurd hq List.not_mem_nil
  have hlast := hw.le
  have hrank := lowerRank_le_length l.keys ⟨query⟩
  refine ⟨s, hrun, ⟨r.regionStart + start, k, hk, hs.events⟩,
    ⟨_, s₁, hrun₁, hs₁.events.trans hs.events.symm⟩, fun pos hpos ↦ ?_⟩
  have hbounds : first ≤ pos ∧ pos ≤ last ∧ pos < l.itemCount := by
    rcases hpos with hpos | ⟨rfl, hne⟩
    · obtain ⟨h₁, h₂⟩ := hs.probes pos hpos
      exact ⟨h₁, h₂.le, h₂.trans_le hlast⟩
    · exact ⟨hle, hge, lt_of_le_of_ne hrank hne⟩
  obtain ⟨h₁, h₂, h₃⟩ := hbounds
  obtain ⟨physical, hphysical, -, hmem⟩ := hs.served pos h₁ h₂ h₃
  rw [physicalBlock_of_ordered hl hordered (hl.div_lt h₃)] at hphysical
  cases hphysical
  refine ⟨h₁, le_min h₂ (by omega), ⟨r.regionStart + (pos / l.itemsPerBlock : Nat)⟩,
    hb.slot _ (hl.div_lt h₃), ?_⟩
  rw [levelOutcome, hs.events]
  exact hmem

/-- A lookup in a level with a model has the window of the model, reads it once, and reads
nothing when it is empty. -/
theorem BuiltFrom.lookupLevel_reads (h : idx.BuiltFrom p levels)
    (hordered : p.layout = .ordered) (hB : 2 * p.epsilon + 2 ≤ p.itemsPerBlock)
    (hl : l ∈ idx.levels) (hpgm : l.hasPgm = true) (query : Int) :
    ∃ o sr, idx.lookupLevel l.level query = .ok o ∧ pgmInterval l query = .ok sr ∧
      o.interval = (sr.lo, sr.hi) ∧ sr.lo ≤ sr.hi ∧
      (sr.lo < sr.hi → ReadsOnce l idx.projection o) ∧ (sr.lo = sr.hi → o.events = []) := by
  obtain ⟨entry, -, hbuilt⟩ := h.exists_entry hl
  obtain ⟨model, hmodel⟩ := Option.isSome_iff_exists.mp hpgm
  have hne : 0 < l.itemCount := by
    by_contra hzero
    have hkeys : l.keys = [] := List.eq_nil_of_length_eq_zero (Nat.eq_zero_of_not_pos hzero)
    exact absurd (hbuilt.pgm_eq_none_iff.mpr fun hc ↦ hc.2 hkeys) (by simp [hmodel])
  obtain ⟨r, -, -, hb⟩ := h.exists_backed hl (h.lt_usedLevels hl hne)
  obtain ⟨pos, hsearch, hpredicts⟩ := (hbuilt.builtOn hmodel).search_spec ⟨query⟩
  obtain ⟨hlo, hhi, hlen, -⟩ := BatchPgmIndex.window_bounds hpredicts (lowerRank_le_length _ _)
    fun hq ↦ (List.getElem?_eq_some_iff.mp
      ((mem_iff_getElem?_lowerRank hbuilt.sorted).mp hq)).1
  have hinterval : pgmInterval l query =
      .ok (BatchPgmIndex.window p.epsilon.toNat l.keys.length pos) := by
    simp only [pgmInterval, hmodel, hsearch, Except.mapError]
  have hnarrow := fun hlt ↦ narrow_window hbuilt hB hpredicts.le hlt
  unfold ReferenceLevel.itemCount at hnarrow
  generalize BatchPgmIndex.window p.epsilon.toNat l.keys.length pos = sr at *
  have hlookup : idx.lookupLevel l.level query = runSearch l query (sr.lo, sr.hi) "pgm_bounded"
      (lowerBoundPgmBounded l idx.projection sr.lo sr.hi query) := by
    rw [lookupLevel, h.level_eq hl, ok_bind, if_pos hpgm, hinterval, ok_bind,
      lookupLevelWithInterval, h.level_eq hl, ok_bind, require_of ⟨hlo.trans hhi, hlen⟩, ok_bind]
  rcases Nat.eq_or_lt_of_le (hlo.trans hhi) with heq | hlt
  · refine ⟨levelOutcome l query sr.lo (sr.lo, sr.hi) "pgm_bounded" {}, sr, ?_, hinterval, rfl,
      heq.le, fun hlt ↦ absurd heq hlt.ne, fun _ ↦ rfl⟩
    rw [hlookup, runSearch, lowerBoundPgmBounded, if_pos heq]
    rfl
  · obtain ⟨s, hrun, hreads⟩ :=
      readsOnce_of_buffered hbuilt hb hordered (hnarrow hlt) hlo hhi "pgm_bounded"
    exact ⟨_, sr, by rw [hlookup, runSearch, hrun], hinterval, rfl, hlt.le, fun _ ↦ hreads,
      fun heq ↦ absurd heq hlt.ne⟩

/-- In an ordered index whose blocks hold at least `2 * epsilon + 2` items, a lookup in a level
with a model reads its window in one run of one or two slots by its first access, and lookups
with the same window read the same. -/
theorem lookup_events {shuffle : Shuffle} (hbuild : build p shuffle levels = .ok idx)
    (hordered : p.layout = .ordered) (hB : 2 * p.epsilon + 2 ≤ p.itemsPerBlock)
    (hl : l ∈ idx.levels) (hpgm : l.hasPgm = true) :
    (∀ query, ∃ o sr, idx.lookupLevel l.level query = .ok o ∧ pgmInterval l query = .ok sr ∧
      o.interval = (sr.lo, sr.hi) ∧ (sr.lo < sr.hi → ReadsOnce l idx.projection o)) ∧
    ∀ query query' o o', idx.lookupLevel l.level query = .ok o →
      idx.lookupLevel l.level query' = .ok o' → o.interval = o'.interval →
      o.events = o'.events := by
  have hreads := (build_eq_ok hbuild).lookupLevel_reads hordered hB hl hpgm
  constructor
  · intro query
    obtain ⟨o, sr, ho, hsr, hinterval, -, hread, -⟩ := hreads query
    exact ⟨o, sr, ho, hsr, hinterval, hread⟩
  · intro query query' o o' ho ho' hsame
    obtain ⟨o₁, sr, ho₁, -, hinterval, hle, hread, hnone⟩ := hreads query
    obtain ⟨o₂, sr', ho₂, -, hinterval', -, hread', hnone'⟩ := hreads query'
    rw [ho] at ho₁
    rw [ho'] at ho₂
    cases ho₁
    cases ho₂
    obtain ⟨hlo, hhi⟩ := Prod.mk.inj (hinterval.symm.trans (hsame.trans hinterval'))
    rcases Nat.eq_or_lt_of_le hle with heq | hlt
    · rw [hnone heq, hnone' (hlo ▸ hhi ▸ heq)]
    · -- both first accesses are the same run
      obtain ⟨x, s, hrun, hs⟩ := (hread hlt).first
      obtain ⟨x', s', hrun', hs'⟩ := (hread' (hlo ▸ hhi ▸ hlt)).first
      rw [hsame, hrun'] at hrun
      cases hrun
      rw [← hs, ← hs']

theorem lookup_events_small : ∃ idx l, build ⟨smallFields .ordered none, by decide⟩ reversal
    smallLevels = .ok idx ∧ l ∈ idx.levels ∧ ∀ query query' o o',
      idx.lookupLevel l.level query = .ok o → idx.lookupLevel l.level query' = .ok o' →
        o.interval = o'.interval → o.events = o'.events := by
  obtain ⟨idx, hidx⟩ := exists_of_isOk isOk_build_small.2
  obtain ⟨l, hl, hbuilt⟩ := (build_eq_ok hidx).exists_level (List.mem_cons_self)
  have hkeys : l.keys ≠ [] := by
    rw [hbuilt.keys]
    decide +kernel
  have hpgm : l.hasPgm = true := by
    by_contra hnone
    have hnone : l.pgm = none := by simpa [ReferenceLevel.hasPgm] using hnone
    exact hbuilt.pgm_eq_none_iff.mp hnone ⟨by rw [hbuilt.level]; decide, hkeys⟩
  exact ⟨idx, l, hidx, hl, (lookup_events hidx rfl (by decide) hl hpgm).2⟩

end ReferenceIndex

end EnhancedLetIndex
