import EnhancedLetIndex.Reference.Prefetch
import EnhancedLetIndex.Reference.Truth

/-!
# The evaluator's truth about queries and blocks

`query_truth`, `block_key_interval` and the artifact of `ref_truth.py`.  What a lookup holds in its
buffers it has read before (`Logged`), so in every layout the slots that the truth names for the
probes and for the position of a lookup are slots that the trace shows (`query_truth`).  The blocks
of the artifact are the slots of the projection, each once, and cut the items of their level
(`artifact_truth`).
-/

namespace EnhancedLetIndex

namespace LevelSearcher

/-- The slot of the block of an item has been read. -/
def ReadAt (l : ReferenceLevel) (r : LevelRegion) (events : List (EventOperation × Int))
    (pos : Nat) : Prop :=
  ∃ physical, l.physicalBlock (pos / l.itemsPerBlock) = .ok physical ∧
    (EventOperation.read, r.regionStart + (physical : Int)) ∈ events

/-- Every event is a read of the region, and what is buffered has been read. -/
structure Logged (r : LevelRegion) (s : LevelSearcher) : Prop where
  reads : ReadsIn r s
  buffered : ∀ physical : Nat, s.currentBlock = some physical ∨ s.cacheLeft = some physical ∨
    s.cacheRight = some physical → (EventOperation.read, r.regionStart + (physical : Int)) ∈ s.events

/-- The same, and the block of every probe has been read. -/
structure Traced (l : ReferenceLevel) (r : LevelRegion) (s : LevelSearcher) : Prop where
  logged : Logged r s
  probes : ∀ pos ∈ s.probes, pos < l.itemCount ∧ ReadAt l r s.events pos

/-- What an access to an item leaves behind. -/
structure Obtained (l : ReferenceLevel) (r : LevelRegion) (pos : Nat) (s s' : LevelSearcher) :
    Prop where
  logged : Logged r s'
  read : ReadAt l r s'.events pos
  events : s.events ⊆ s'.events
  probes : s'.probes = s.probes

variable {l : ReferenceLevel} {proj : SlotProjection} {r : LevelRegion} {p : ReferenceProfile}
  {entry : Int × List (Int × String)} {obtain' : Nat → SearchM RecordKey} {pos : Nat}
  {s s' : LevelSearcher}

theorem ReadAt.mono {events events' : List (EventOperation × Int)} (h : ReadAt l r events pos)
    (hsub : events ⊆ events') : ReadAt l r events' pos := by
  obtain ⟨physical, hphysical, hmem⟩ := h
  exact ⟨physical, hphysical, hsub hmem⟩

/-! ## Accesses -/

theorem run_physical {physical : Nat}
    (hphysical : l.physicalBlock (pos / l.itemsPerBlock) = .ok physical) (s : LevelSearcher) :
    (LevelSearcher.physical l pos).run s = .ok physical s := by
  rw [LevelSearcher.physical, hphysical]
  rfl

/-- An access that is served from a buffer. -/
theorem obtained_of_buffered {physical : Nat} (hs : Logged r s)
    (hphysical : l.physicalBlock (pos / l.itemsPerBlock) = .ok physical)
    (hserved : s.currentBlock = some physical ∨ s.cacheLeft = some physical ∨
      s.cacheRight = some physical) : Obtained l r pos s s :=
  ⟨hs, ⟨physical, hphysical, hs.buffered physical hserved⟩, List.Subset.refl _, rfl⟩

/-- An access that reads the block. -/
theorem run_fetch_key (hb : l.Backed proj r) (h : pos < l.keys.length) {physical : Nat}
    (hphysical : l.physicalBlock (pos / l.itemsPerBlock) = .ok physical)
    (hlt : physical < l.blockCount) (hs : Logged r s) :
    ∃ s', (fetch l proj physical >>= fun _ ↦ key l pos).run s = .ok (l.keys.get ⟨pos, h⟩) s' ∧
      Obtained l r pos s s' := by
  rw [fetch, bind_assoc, run_bind_of_ok (run_read hb hlt s)]
  refine ⟨_, run_key h _, ?_⟩
  have hread : (EventOperation.read, r.regionStart + (physical : Int)) ∈
      s.events ++ [(EventOperation.read, r.regionStart + (physical : Int))] :=
    List.mem_append_right _ (List.mem_singleton_self _)
  refine ⟨⟨fun e he ↦ ?_, fun physical' hbuffered ↦ ?_⟩, ⟨physical, hphysical, hread⟩,
    List.subset_append_left _ _, rfl⟩
  · rcases List.mem_append.mp he with he | he
    · exact hs.reads e he
    · rw [List.mem_singleton.mp he]
      exact ⟨rfl, LevelRegion.contains_add (hb.blockCount ▸ hlt)⟩
  · rcases hbuffered with hcurrent | hcache
    · cases hcurrent
      exact hread
    · exact List.mem_append_left _ (hs.buffered physical' (.inr hcache))

/-- What every way to obtain an item does. -/
def Obtains (l : ReferenceLevel) (r : LevelRegion) (obtain' : Nat → SearchM RecordKey) : Prop :=
  ∀ pos (h : pos < l.keys.length) s, Logged r s →
    ∃ s', (obtain' pos).run s = .ok (l.keys.get ⟨pos, h⟩) s' ∧ Obtained l r pos s s'

theorem obtains_plain (hl : l.BuiltFrom p entry) (hb : l.Backed proj r) :
    Obtains l r (plain l proj) := by
  intro pos h s hs
  obtain ⟨physical, hphysical, hlt, -⟩ := hl.physicalBlock_eq (hl.div_lt h)
  rw [plain, run_bind_of_ok (run_physical hphysical s), run_get_bind]
  split_ifs with hcurrent
  · exact ⟨s, run_key h s, obtained_of_buffered hs hphysical (.inl hcurrent)⟩
  · exact run_fetch_key hb h hphysical hlt hs

theorem obtains_orCache (hl : l.BuiltFrom p entry) (hb : l.Backed proj r) :
    Obtains l r (orCache l proj) := by
  intro pos h s hs
  obtain ⟨physical, hphysical, hlt, -⟩ := hl.physicalBlock_eq (hl.div_lt h)
  rw [orCache, run_bind_of_ok (run_physical hphysical s), run_get_bind]
  split_ifs with hcurrent hcache
  · exact ⟨s, run_key h s, obtained_of_buffered hs hphysical (.inl hcurrent)⟩
  · exact ⟨s, run_key h s, obtained_of_buffered hs hphysical (.inr hcache)⟩
  · exact run_fetch_key hb h hphysical hlt hs

/-- The fetch with neighbours reads all that it buffers. -/
theorem obtains_andSave (hl : l.BuiltFrom p entry) (hb : l.Backed proj r) (first last : Nat) :
    Obtains l r fun pos ↦ andSave l proj pos first last := by
  intro pos h s hs
  obtain ⟨mid, hmid, hlt, -⟩ := hl.physicalBlock_eq (hl.div_lt h)
  obtain ⟨s', hrun, hsaved⟩ := run_andSave hb h hmid hlt first last s
  refine ⟨s', hrun, ?_⟩
  generalize hleft : (if first / l.itemsPerBlock < pos / l.itemsPerBlock
    then neighbour l mid (-1) else none) = left at hsaved
  generalize hright : (if last / l.itemsPerBlock > pos / l.itemsPerBlock
    then neighbour l mid 1 else none) = right at hsaved
  have hread (physical : Nat) (hmem : physical ∈ mid :: (left.toList ++ right.toList)) :
      (EventOperation.read, r.regionStart + (physical : Int)) ∈ s'.events := by
    rw [hsaved.events]
    refine List.mem_append_right _ (List.mem_map_of_mem ?_)
    exact (List.mem_insertionSort _).mpr (List.mem_dedup.mpr hmem)
  have hsub : s.events ⊆ s'.events := by
    rw [hsaved.events]
    exact List.subset_append_left _ _
  refine ⟨⟨fun e he ↦ ?_, fun physical hbuffered ↦ hread physical ?_⟩,
    ⟨mid, hmid, hread mid List.mem_cons_self⟩, hsub, hsaved.probes⟩
  · rw [hsaved.events] at he
    rcases List.mem_append.mp he with he | he
    · exact hs.reads e he
    · obtain ⟨physical, hphysical, rfl⟩ := List.mem_map.mp he
      have hmem := List.mem_dedup.mp ((List.mem_insertionSort _).mp hphysical)
      refine ⟨rfl, LevelRegion.contains_add (hb.blockCount ▸ ?_)⟩
      rcases List.mem_cons.mp hmem with rfl | hmem
      · exact hlt
      · exact lt_of_mem_savedBlocks (hleft ▸ hright ▸ hmem)
  · rw [hsaved.currentBlock, hsaved.cacheLeft, hsaved.cacheRight] at hbuffered
    rcases hbuffered with hcurrent | hcache | hcache
    · cases hcurrent
      exact List.mem_cons_self
    · rw [hcache]
      exact List.mem_cons_of_mem _ List.mem_cons_self
    · rw [hcache]
      exact List.mem_cons_of_mem _ (List.mem_append_right _ List.mem_cons_self)

/-! ## Searches -/

theorem Traced.of_obtained (hs : Traced l r s) (h : Obtained l r pos s s') : Traced l r s' := by
  refine ⟨h.logged, fun q hq ↦ ?_⟩
  rw [h.probes] at hq
  exact ⟨(hs.probes q hq).1, (hs.probes q hq).2.mono h.events⟩

/-- A probe is noted and its block read. -/
theorem keeps_probe_of_obtains (hobtains : Obtains l r obtain') (h : pos < l.keys.length) :
    Keeps (Traced l r) (probe obtain' pos) (l.keys.get ⟨pos, h⟩) := by
  intro s hs
  obtain ⟨s', hrun, hs'⟩ := hobtains pos h { s with probes := s.probes ++ [pos] }
    ⟨hs.logged.reads, hs.logged.buffered⟩
  refine ⟨s', hrun, hs'.logged, fun q hq ↦ ?_⟩
  rw [hs'.probes] at hq
  rcases List.mem_append.mp hq with hq | hq
  · exact ⟨(hs.probes q hq).1, (hs.probes q hq).2.mono hs'.events⟩
  · rw [List.mem_singleton.mp hq]
    exact ⟨h, hs'.read⟩

/-- A search has ended at the rank of the query, and has read the item there. -/
structure Found (l : ReferenceLevel) (r : LevelRegion) (query : Int) (s : LevelSearcher) :
    Prop extends Traced l r s where
  read : lowerRank l.keys ⟨query⟩ < l.itemCount → ReadAt l r s.events (lowerRank l.keys ⟨query⟩)

/-- The halving of `n` candidates from `f` on, and the end of a search after it. -/
theorem run_halve_conclude (hl : l.BuiltFrom p entry) (hobtains : Obtains l r obtain')
    {query : Int} {f n : Nat} (hn : 0 < n) (hfn : f + n ≤ l.keys.length)
    (hle : f ≤ lowerRank l.keys ⟨query⟩) (hge : lowerRank l.keys ⟨query⟩ ≤ f + n)
    (hs : Traced l r s) :
    ∃ s', (halve (below query) (probe obtain') n f n >>= conclude l obtain' query).run s =
        .ok (lowerRank l.keys ⟨query⟩) s' ∧ Found l r query s' := by
  obtain ⟨g, hg, -, hlt, hle', hge'⟩ := (isCut_below hl query).keeps_halve
    (fun pos h _ _ ↦ keeps_probe_of_obtains hobtains h) hfn le_rfl hn (Nat.zero_le f) le_rfl hle hge
  obtain ⟨s₁, hrun₁, hs₁⟩ := hg s hs
  have hlt' : g < l.keys.length := hlt.trans_le hfn
  obtain ⟨s₂, hrun₂, hs₂⟩ := keeps_probe_of_obtains hobtains hlt' s₁ hs₁
  rw [run_bind_of_ok hrun₁, conclude,
    run_bind_of_ok ((isCut_below hl query).run_settle hlt' hrun₂ hle' hge')]
  split_ifs with hpos
  · have hrank : lowerRank l.keys ⟨query⟩ < l.keys.length :=
      lt_of_le_of_ne (lowerRank_le_length _ _) hpos
    obtain ⟨s₃, hrun₃, hs₃⟩ := hobtains _ hrank s₂ hs₂.logged
    rw [run_bind_of_ok hrun₃]
    exact ⟨s₃, rfl, hs₂.of_obtained hs₃, fun _ ↦ hs₃.read⟩
  · exact ⟨s₂, rfl, hs₂, fun hrank ↦ absurd hrank (not_lt.mpr (not_not.mp hpos).ge)⟩

/-- The search of a whole level. -/
theorem run_lowerBoundFullLevel_found (hl : l.BuiltFrom p entry) (hb : l.Backed proj r)
    (hne : 0 < l.itemCount) (query : Int) (hs : Traced l r s) :
    ∃ s', (lowerBoundFullLevel l proj query).run s = .ok (lowerRank l.keys ⟨query⟩) s' ∧
      Found l r query s' := by
  rw [lowerBoundFullLevel, if_neg hne.ne]
  refine run_halve_conclude hl (obtains_plain hl hb) hne (Nat.zero_add _).le (Nat.zero_le _) ?_ hs
  rw [Nat.zero_add]
  exact lowerRank_le_length _ _

/-- The bounded search, when its window is empty at the end of the level only. -/
theorem run_lowerBoundPgmBounded_found (hl : l.BuiltFrom p entry) (hb : l.Backed proj r)
    {query : Int} {first last : Nat} (hlast : last ≤ l.keys.length)
    (hle : first ≤ lowerRank l.keys ⟨query⟩) (hge : lowerRank l.keys ⟨query⟩ ≤ last)
    (hempty : first = last → first = l.itemCount) (hs : Traced l r s) :
    ∃ s', (lowerBoundPgmBounded l proj first last query).run s =
        .ok (lowerRank l.keys ⟨query⟩) s' ∧ Found l r query s' := by
  rw [lowerBoundPgmBounded]
  split_ifs with heq
  · have hrank : lowerRank l.keys ⟨query⟩ = first := by omega
    rw [hrank]
    exact ⟨s, rfl, hs, fun hlt ↦ absurd (hempty heq) (hrank ▸ hlt).ne⟩
  · obtain ⟨f, n, hfirst, hn, hf, hfn, hle', hge'⟩ := keeps_firstProbe hl
      (fun h _ ↦ keeps_probe_of_obtains (obtains_andSave hl hb first last) h)
      (by omega) hlast hle hge
    obtain ⟨s₁, hrun₁, hs₁⟩ := hfirst s hs
    rw [run_bind_of_ok hrun₁]
    exact run_halve_conclude hl (obtains_orCache hl hb) hn (hfn.trans hlast) hle' hge' hs₁

end LevelSearcher

/-! ## What the truth records -/

/-- `block_range`. -/
def ReferenceLevel.blockRange (l : ReferenceLevel) (logical : Nat) : Nat × Nat :=
  let start := logical * l.itemsPerBlock
  (start, min (start + l.itemsPerBlock) l.itemCount)

/-- What `block_key_interval` returns. -/
structure BlockTruth where
  level : Int
  blockRank : Nat
  physicalBlockOffset : Nat
  slotId : SlotId
  itemStart : Nat
  itemEnd : Nat
  itemCount : Nat
  keyLo : Option RecordKey
  keyHi : Option RecordKey

/-- `read_count`. -/
def LevelLookupOutcome.readCount (o : LevelLookupOutcome) : Nat :=
  o.events.countP fun e ↦ e.1 = .read

/-- An entry of `per_level`. -/
structure LevelTruth where
  level : Int
  path : String
  interval : Nat × Nat
  pos : Nat
  found : Bool
  itemRank : Nat
  blockRank : Option Nat
  physicalBlockOffset : Option Nat
  slotId : Option SlotId
  probes : List Nat
  readCount : Nat

/-- The item that a query hits: the fields `hit_item_rank`, `hit_block_rank`,
`hit_physical_block_offset` and `hit_slot_id`. -/
structure HitTruth where
  itemRank : Nat
  blockRank : Nat
  physicalBlockOffset : Nat
  slotId : SlotId

/-- What `query_truth` returns. -/
structure QueryTruth where
  key : Int
  found : Bool
  value : Option String
  hitLevel : Option Int
  hit : Option HitTruth
  searchedLevels : List Int
  skippedEmptyLevels : List Int
  perLevel : List LevelTruth

namespace ReferenceIndex

open LevelSearcher

/-! ## What a lookup has read -/

variable {p : ReferenceProfile} {levels : LevelMap} {idx : ReferenceIndex} {l : ReferenceLevel}

/-- The slots of the blocks that a lookup has needed are slots that it has read. -/
structure ReadsItems (l : ReferenceLevel) (r : LevelRegion) (o : LevelLookupOutcome) : Prop where
  probes : ∀ pos ∈ o.probes, pos < l.itemCount ∧ ReadAt l r o.events pos
  pos : o.pos < l.itemCount → ReadAt l r o.events o.pos

/-- The outcome of a search that has read the item at the rank of the query. -/
theorem readsItems_of_run {r : LevelRegion} {query : Int} {search : SearchM Nat}
    {interval : Nat × Nat} {path : String} {o : LevelLookupOutcome}
    (hsearch : ∃ s, search.run {} = .ok (lowerRank l.keys ⟨query⟩) s ∧ Found l r query s)
    (ho : runSearch l query interval path search = .ok o) : ReadsItems l r o := by
  obtain ⟨s, hrun, hfound⟩ := hsearch
  rw [runSearch, hrun] at ho
  cases ho
  exact ⟨hfound.probes, hfound.read⟩

theorem traced_empty {r : LevelRegion} : Traced l r {} := by
  refine ⟨⟨fun e he ↦ absurd he List.not_mem_nil, fun physical hbuffered ↦ ?_⟩,
    fun pos hpos ↦ absurd hpos List.not_mem_nil⟩
  rcases hbuffered with h | h | h <;> cases h

namespace BuiltFrom

variable (h : idx.BuiltFrom p levels)

include h

/-- In every layout, a lookup has read the blocks of its probes and of the item it found. -/
theorem lookupLevel_readsItems (hl : l ∈ idx.levels) (hne : 0 < l.itemCount) {query : Int}
    {o : LevelLookupOutcome} (ho : idx.lookupLevel l.level query = .ok o) :
    ∃ r ∈ idx.projection.regions, r.level = l.level ∧ l.Backed idx.projection r ∧
      ReadsItems l r o := by
  obtain ⟨entry, -, hbuilt⟩ := h.exists_entry hl
  obtain ⟨r, hr, hlevel, hb⟩ := h.exists_backed hl (h.lt_usedLevels hl hne)
  refine ⟨r, hr, hlevel, hb, ?_⟩
  rw [lookupLevel, h.level_eq hl, ok_bind] at ho
  cases hpgm : l.pgm with
  | none =>
    rw [if_neg (by simp [ReferenceLevel.hasPgm, hpgm])] at ho
    exact readsItems_of_run (run_lowerBoundFullLevel_found hbuilt hb hne query traced_empty) ho
  | some model =>
    obtain ⟨pos, hsearch, hpredicts⟩ := (hbuilt.builtOn hpgm).search_spec ⟨query⟩
    obtain ⟨hlo, hhi, hlen, -⟩ := BatchPgmIndex.window_bounds hpredicts
      (lowerRank_le_length _ _) fun hq ↦ (List.getElem?_eq_some_iff.mp
        ((mem_iff_getElem?_lowerRank hbuilt.sorted).mp hq)).1
    rw [if_pos (by simp [ReferenceLevel.hasPgm, hpgm]), pgmInterval, hpgm] at ho
    simp only [hsearch, Except.mapError, ok_bind] at ho
    rw [lookupLevelWithInterval, h.level_eq hl, ok_bind, require_of ⟨hlo.trans hhi, hlen⟩,
      ok_bind] at ho
    refine readsItems_of_run (run_lowerBoundPgmBounded_found hbuilt hb hlen hlo hhi ?_
      traced_empty) ho
    intro hempty
    -- the window is at least two wide unless the level ends
    rw [ReferenceLevel.itemCount]
    simp only [BatchPgmIndex.window] at hempty hlo hlen ⊢
    split_ifs at hempty hlen <;> omega

end BuiltFrom

/-! ## Blocks -/

/-- `block_key_interval`. -/
def blockKeyInterval (idx : ReferenceIndex) (level : Int) (blockRank : Nat) :
    Except ReferenceError BlockTruth := do
  let l ← idx.level level
  let physicalOffset ← idx.physicalOffsetOf level blockRank
  let (start, stop) := l.blockRange blockRank
  let slot ← idx.slotOf level blockRank
  let keyLo ← if stop > start then (l.keyAt start).map some else pure none
  let keyHi ← if stop > start then (l.keyAt (stop - 1)).map some else pure none
  pure {
    level
    blockRank
    physicalBlockOffset := physicalOffset
    slotId := slot
    itemStart := start
    itemEnd := stop
    itemCount := stop - start
    keyLo
    keyHi }

/-- Where a block of a level stands. -/
structure Places (idx : ReferenceIndex) (l : ReferenceLevel) (rank physical : Nat)
    (slot : SlotId) : Prop where
  physicalBlock : l.physicalBlock rank = .ok physical
  offset : idx.physicalOffsetOf l.level rank = .ok physical
  slotOf : idx.slotOf l.level rank = .ok slot
  locate : idx.locate slot = .ok (l.level, rank)

/-- What the truth says about a block of a level. -/
structure Describes (l : ReferenceLevel) (rank : Nat) (block : BlockTruth) : Prop where
  itemStart : block.itemStart = rank * l.itemsPerBlock
  itemEnd : block.itemEnd = min (rank * l.itemsPerBlock + l.itemsPerBlock) l.itemCount
  itemCount : block.itemCount = block.itemEnd - block.itemStart
  lt : block.itemStart < block.itemEnd
  keyLo : block.keyLo = l.keys[block.itemStart]?
  keyHi : block.keyHi = l.keys[block.itemEnd - 1]?

/-- The slot of a placed block is that of its physical offset in the region of the level. -/
theorem Places.slot_eq {r : LevelRegion} {rank physical : Nat} {slot : SlotId}
    (hplaces : idx.Places l rank physical slot) (hb : l.Backed idx.projection r)
    (hlt : physical < l.blockCount) : slot = ⟨r.regionStart + physical⟩ := by
  have hslot := hplaces.slotOf
  rw [ReferenceIndex.slotOf, hplaces.offset, ok_bind, hb.slot physical hlt] at hslot
  exact (Except.ok.inj hslot).symm

namespace BuiltFrom

variable (h : idx.BuiltFrom p levels)

include h

/-- Every block of a level that is not empty has a slot, at which it is found again. -/
theorem exists_places (hl : l ∈ idx.levels) {rank : Nat} (hrank : rank < l.blockCount) :
    ∃ physical slot, idx.Places l rank physical slot := by
  obtain ⟨entry, -, hbuilt⟩ := h.exists_entry hl
  obtain ⟨physical, hphysical, -, -⟩ := hbuilt.physicalBlock_eq hrank
  have hne : 0 < l.itemCount := h.itemCount_pos hl (Nat.zero_lt_of_lt hrank)
  have hmem : (l.level, rank) ∈ idx.blocks := ⟨l, hl, rfl, hne, hrank⟩
  obtain ⟨slot, -, hslot, hlocate⟩ := h.locate_slotOf hmem
  refine ⟨physical, slot, hphysical, ?_, hslot, hlocate⟩
  rw [physicalOffsetOf, h.level_eq hl, ok_bind, require_of, ok_bind, Int.toNat_natCast, hphysical]
  exact ⟨Int.natCast_nonneg rank, Int.ofNat_lt.mpr hrank⟩

/-- The slot of the block of an item that has been read is among the reads. -/
theorem read_of_places (hl : l ∈ idx.levels) {r : LevelRegion} (hb : l.Backed idx.projection r)
    {events : List (EventOperation × Int)} {pos physical : Nat} {slot : SlotId}
    (hpos : pos < l.itemCount) (hread : ReadAt l r events pos)
    (hplaces : idx.Places l (pos / l.itemsPerBlock) physical slot) :
    (EventOperation.read, slot.value) ∈ events := by
  obtain ⟨entry, -, hbuilt⟩ := h.exists_entry hl
  obtain ⟨physical', hphysical, hmem⟩ := hread
  rw [hplaces.physicalBlock] at hphysical
  cases hphysical
  obtain ⟨physical', hphysical, hlt, -⟩ := hbuilt.physicalBlock_eq (hbuilt.div_lt hpos)
  rw [hplaces.physicalBlock] at hphysical
  cases hphysical
  rwa [hplaces.slot_eq hb hlt]

/-- A block of a level starts before the end of its items. -/
theorem mul_lt_of_lt_blockCount (hl : l ∈ idx.levels) {rank : Nat} (hrank : rank < l.blockCount) :
    rank * l.itemsPerBlock < l.itemCount := by
  obtain ⟨entry, -, hbuilt⟩ := h.exists_entry hl
  have hB := hbuilt.itemsPerBlock_pos
  rw [hbuilt.blockCount, ReferenceProfile.blockCount, ← hbuilt.itemsPerBlock,
    Nat.lt_div_iff_mul_lt hB] at hrank
  omega

/-- The truth about a block of a level. -/
theorem blockKeyInterval_spec (hl : l ∈ idx.levels) {rank : Nat} (hrank : rank < l.blockCount) :
    ∃ block, idx.blockKeyInterval l.level rank = .ok block ∧ block.level = l.level ∧
      block.blockRank = rank ∧ idx.Places l rank block.physicalBlockOffset block.slotId ∧
      Describes l rank block := by
  obtain ⟨physical, slot, hplaces⟩ := h.exists_places hl hrank
  obtain ⟨entry, -, hbuilt⟩ := h.exists_entry hl
  have hB := hbuilt.itemsPerBlock_pos
  have hstart := h.mul_lt_of_lt_blockCount hl hrank
  have hlt : rank * l.itemsPerBlock <
      min (rank * l.itemsPerBlock + l.itemsPerBlock) l.itemCount := by omega
  have hlast : min (rank * l.itemsPerBlock + l.itemsPerBlock) l.itemCount - 1 <
      l.keys.length := by
    rw [ReferenceLevel.itemCount] at hlt ⊢
    omega
  rw [blockKeyInterval, h.level_eq hl, ok_bind, hplaces.offset, ok_bind, hplaces.slotOf]
  simp only [ReferenceLevel.blockRange, ok_bind, if_pos hlt, keyAt_eq hstart, keyAt_eq hlast,
    Except.map, pure_eq_ok]
  refine ⟨_, rfl, rfl, rfl, hplaces, rfl, rfl, rfl, hlt, ?_, ?_⟩
  · exact (List.getElem?_eq_getElem hstart).symm
  · exact (List.getElem?_eq_getElem hlast).symm

end BuiltFrom

namespace Describes

variable {rank : Nat} {block : BlockTruth}

/-- The block of an item has the item. -/
theorem bounds {pos : Nat} (hblock : Describes l (pos / l.itemsPerBlock) block)
    (hB : 0 < l.itemsPerBlock) (hpos : pos < l.itemCount) :
    block.itemStart ≤ pos ∧ pos < block.itemEnd := by
  rw [hblock.itemStart, hblock.itemEnd, lt_min_iff]
  exact ⟨Nat.div_mul_le_self _ _, Nat.lt_div_mul_add hB, hpos⟩

/-- The keys of a block are between its first and its last. -/
theorem key_bounds (hblock : Describes l rank block) (hsorted : l.keys.Pairwise (· < ·))
    {pos : Nat} {key : RecordKey} (hkey : l.keys[pos]? = some key)
    (hbounds : block.itemStart ≤ pos ∧ pos < block.itemEnd) :
    ∃ lo hi, block.keyLo = some lo ∧ block.keyHi = some hi ∧ lo ≤ key ∧ key ≤ hi := by
  have hend : block.itemEnd ≤ l.keys.length := by
    rw [hblock.itemEnd]
    exact Nat.min_le_right _ _
  obtain ⟨hpos, rfl⟩ := List.getElem?_eq_some_iff.mp hkey
  have hstart : block.itemStart < l.keys.length := by omega
  have hlast : block.itemEnd - 1 < l.keys.length := by omega
  have hmono : ∀ {i j : Nat} (hi : i < l.keys.length) (hj : j < l.keys.length), i ≤ j →
      l.keys[i] ≤ l.keys[j] := by
    intro i j hi hj hij
    rcases Nat.eq_or_lt_of_le hij with rfl | hlt
    · exact le_rfl
    · exact (List.pairwise_iff_getElem.mp hsorted i j hi hj hlt).le
  refine ⟨l.keys[block.itemStart], l.keys[block.itemEnd - 1], ?_, ?_, hmono _ _ hbounds.1,
    hmono _ _ (by omega)⟩
  · rw [hblock.keyLo, List.getElem?_eq_getElem hstart]
  · rw [hblock.keyHi, List.getElem?_eq_getElem hlast]

end Describes

/-! ## The truth of a query -/

/-- The loop body of `query_truth`. -/
def levelTruth (idx : ReferenceIndex) (o : LevelLookupOutcome) :
    Except ReferenceError LevelTruth := do
  let l ← idx.level o.level
  let blockRank := if o.pos < l.itemCount then some (o.pos / l.itemsPerBlock) else none
  let physicalBlockOffset ← blockRank.mapM fun rank : Nat ↦ idx.physicalOffsetOf o.level rank
  let slotId ← blockRank.mapM fun rank : Nat ↦ idx.slotOf o.level rank
  pure {
    level := o.level
    path := o.path
    interval := o.interval
    pos := o.pos
    found := o.found
    itemRank := o.pos
    blockRank
    physicalBlockOffset
    slotId
    probes := o.probes
    readCount := o.readCount }

/-- The item that a query hits, when the level of the hit has the key. -/
def hitTruth (idx : ReferenceIndex) (key level : Int) : Except ReferenceError (Option HitTruth) := do
  let rank ← idx.itemRankOf level key
  rank.mapM fun itemRank ↦ do
    let l ← idx.level level
    let blockRank := itemRank / l.itemsPerBlock
    let slotId ← idx.slotOf level blockRank
    let physicalBlockOffset ← idx.physicalOffsetOf level blockRank
    pure ⟨itemRank, blockRank, physicalBlockOffset, slotId⟩

/-- `query_truth`. -/
def queryTruth (idx : ReferenceIndex) (key : Int) : Except ReferenceError QueryTruth := do
  let outcome ← idx.query key
  let perLevel ← outcome.levelOutcomes.mapM idx.levelTruth
  let hit ← outcome.hitLevel.elim (pure none) (idx.hitTruth key)
  pure {
    key
    found := outcome.found
    value := outcome.value
    hitLevel := outcome.hitLevel
    hit
    searchedLevels := outcome.searchedLevels
    skippedEmptyLevels := outcome.skippedEmptyLevels
    perLevel }

/-- What the truth about a searched level says of the lookup there. -/
structure TellsLevel (idx : ReferenceIndex) (o : LevelLookupOutcome) (t : LevelTruth) : Prop where
  level : t.level = o.level
  itemRank : t.itemRank = o.pos
  readCount : t.readCount = o.events.length
  absent : t.slotId = none → o.found = false
  slot : ∀ slot, t.slotId = some slot → ∃ rank, t.blockRank = some rank ∧
    idx.locate slot = .ok (o.level, rank) ∧ (EventOperation.read, slot.value) ∈ o.events
  probes : ∀ pos ∈ t.probes, ∃ rank block, idx.blockKeyInterval o.level rank = .ok block ∧
    block.itemStart ≤ pos ∧ pos < block.itemEnd ∧
    (EventOperation.read, block.slotId.value) ∈ o.events

namespace BuiltFrom

variable (h : idx.BuiltFrom p levels)

include h

/-- The truth about a searched level. -/
theorem levelTruth_spec (hl : l ∈ idx.levels) (hne : 0 < l.itemCount) {query : Int}
    {o : LevelLookupOutcome} (ho : idx.lookupLevel l.level query = .ok o) :
    ∃ t, idx.levelTruth o = .ok t ∧ idx.TellsLevel o t := by
  obtain ⟨entry, -, hbuilt⟩ := h.exists_entry hl
  obtain ⟨r, hr, -, hb, hreads⟩ := h.lookupLevel_readsItems hl hne ho
  obtain ⟨o', ho', hanswers, r', -, -, hevents⟩ := h.lookupLevel_spec hl hne query
  cases ho.symm.trans ho'
  have hcount : o.readCount = o.events.length :=
    List.countP_eq_length.mpr fun e he ↦ decide_eq_true (hevents e he).1
  have hprobes : ∀ pos ∈ o.probes, ∃ rank block, idx.blockKeyInterval o.level rank = .ok block ∧
      block.itemStart ≤ pos ∧ pos < block.itemEnd ∧
      (EventOperation.read, block.slotId.value) ∈ o.events := by
    intro pos hpos
    obtain ⟨hlt, hread⟩ := hreads.probes pos hpos
    obtain ⟨block, hblock, -, -, hplaces, hdescribes⟩ :=
      h.blockKeyInterval_spec hl (hbuilt.div_lt hlt)
    obtain ⟨hstart, hend⟩ := hdescribes.bounds hbuilt.itemsPerBlock_pos hlt
    exact ⟨_, block, hanswers.level ▸ hblock, hstart, hend, h.read_of_places hl hb hlt hread hplaces⟩
  by_cases hpos : o.pos < l.itemCount
  · obtain ⟨physical, slot, hplaces⟩ := h.exists_places hl (hbuilt.div_lt hpos)
    have hread := h.read_of_places hl hb hpos (hreads.pos hpos) hplaces
    rw [levelTruth, hanswers.level, h.level_eq hl, ok_bind]
    simp only [if_pos hpos, Option.mapM_some, hplaces.offset, hplaces.slotOf]
    refine ⟨_, rfl, hanswers.level.symm, rfl, hcount, nofun, ?_, hprobes⟩
    rintro _ ⟨⟩
    exact ⟨_, rfl, hanswers.level ▸ hplaces.locate, hread⟩
  · rw [levelTruth, hanswers.level, h.level_eq hl, ok_bind]
    simp only [if_neg hpos]
    refine ⟨_, rfl, hanswers.level.symm, rfl, hcount, fun _ ↦ ?_, nofun, hprobes⟩
    rw [Bool.eq_false_iff, ne_eq, hanswers.found_iff,
      mem_iff_getElem?_lowerRank hbuilt.sorted, ← hanswers.pos]
    intro hget
    exact hpos (List.getElem?_eq_some_iff.mp hget).1

end BuiltFrom

/-- What the truth about a hit says of the items of the level and of their blocks. -/
structure TellsHit (idx : ReferenceIndex) (entry : Int × List (Int × String)) (key : Int)
    (hit : HitTruth) : Prop where
  itemRank : hit.itemRank = entry.2.countP fun item ↦ item.1 < key
  locate : idx.locate hit.slotId = .ok (entry.1, hit.blockRank)
  block : ∃ block, idx.blockKeyInterval entry.1 hit.blockRank = .ok block ∧
    block.slotId = hit.slotId ∧ block.itemStart ≤ hit.itemRank ∧ hit.itemRank < block.itemEnd ∧
    ∃ lo hi, block.keyLo = some lo ∧ block.keyHi = some hi ∧ lo ≤ ⟨key⟩ ∧ ⟨key⟩ ≤ hi

/-- What the truth about a query says of the items the index was built from and of the trace. -/
structure TellsQuery (idx : ReferenceIndex) (levels : LevelMap) (key : Int)
    (out : ReferenceQueryOutcome) (truth : QueryTruth) : Prop where
  found : truth.found = true ↔ ∃ entry ∈ levels.entries, key ∈ entry.2.map Prod.fst
  miss : truth.found = false → truth.hitLevel = none ∧ truth.hit = none ∧ truth.value = none
  hit : truth.found = true → ∃ entry ∈ levels.entries, ∃ value hit, (key, value) ∈ entry.2 ∧
    (∀ other ∈ levels.entries, key ∈ other.2.map Prod.fst → entry.1 ≤ other.1) ∧
    truth.hitLevel = some entry.1 ∧ truth.value = some value ∧ truth.hit = some hit ∧
    idx.TellsHit entry key hit ∧ (EventOperation.read, hit.slotId.value) ∈ out.events
  perLevel : List.Forall₂ idx.TellsLevel out.levelOutcomes truth.perLevel

namespace BuiltFrom

variable (h : idx.BuiltFrom p levels)

include h

/-- The truth about a level that has the key. -/
theorem hitTruth_spec {entry : Int × List (Int × String)} (hl : l ∈ idx.levels)
    (hbuilt : l.BuiltFrom p entry) {key : Int} (hkey : ⟨key⟩ ∈ l.keys) :
    ∃ hit, idx.hitTruth key l.level = .ok (some hit) ∧ idx.TellsHit entry key hit ∧
      idx.Places l (lowerRank l.keys ⟨key⟩ / l.itemsPerBlock) hit.physicalBlockOffset
        hit.slotId := by
  have hget := (mem_iff_getElem?_lowerRank hbuilt.sorted).mp hkey
  have hlt : lowerRank l.keys ⟨key⟩ < l.itemCount := (List.getElem?_eq_some_iff.mp hget).1
  obtain ⟨block, hblock, -, -, hplaces, hdescribes⟩ :=
    h.blockKeyInterval_spec hl (hbuilt.div_lt hlt)
  obtain ⟨hstart, hend⟩ := hdescribes.bounds hbuilt.itemsPerBlock_pos hlt
  refine ⟨⟨lowerRank l.keys ⟨key⟩, lowerRank l.keys ⟨key⟩ / l.itemsPerBlock,
    block.physicalBlockOffset, block.slotId⟩, ?_, ?_, hplaces⟩
  · rw [hitTruth, h.itemRankOf_eq hl, if_pos hkey, ok_bind, Option.mapM_some, h.level_eq hl,
      ok_bind]
    simp only [hplaces.slotOf, hplaces.offset, ok_bind]
    rfl
  · refine ⟨hbuilt.lowerRank_keys key, hbuilt.level ▸ hplaces.locate, block, hbuilt.level ▸ hblock,
      rfl, hstart, hend, ?_⟩
    exact hdescribes.key_bounds hbuilt.sorted hget ⟨hstart, hend⟩

/-- The level that a query hits is one of those it has looked in. -/
theorem exists_outcome_of_hit {key : Int} {visited : List Int} {os : List LevelLookupOutcome}
    {out : ReferenceQueryOutcome} (hscan : Scanned idx key visited os (started key) out)
    (hanswers : AnswersQuery idx levels key out) (hlevel : out.hitLevel = some l.level)
    (hl : l ∈ idx.levels) (hne : 0 < l.itemCount) : ∃ o ∈ os, o.level = l.level := by
  obtain ⟨entry, -, hbuilt⟩ := h.exists_entry hl
  have hmin := hbuilt.minLevel_le
  have hvisited : l.level ∈ out.searchedLevels ++ out.skippedEmptyLevels := by
    rw [hanswers.visited.mem_iff, hlevel, mem_intRange, h.profile]
    simp only [Option.elim_some]
    omega
  rcases List.mem_append.mp hvisited with hmem | hmem
  · rw [hscan.searchedLevels] at hmem
    exact List.mem_map.mp hmem
  · -- the level is not empty, so it is not skipped
    rw [hscan.skippedEmptyLevels] at hmem
    have hskipped := of_decide_eq_true (List.mem_filter.mp hmem).2
    rw [h.occupied_of_mem hl hne] at hskipped
    exact absurd rfl hskipped

/-- The query that hits a level has read the slot of the item there. -/
theorem read_of_hit {key : Int} {visited : List Int} {os : List LevelLookupOutcome}
    {out : ReferenceQueryOutcome} (hscan : Scanned idx key visited os (started key) out)
    (hanswers : AnswersQuery idx levels key out) (hlevel : out.hitLevel = some l.level)
    (hl : l ∈ idx.levels) (hkey : ⟨key⟩ ∈ l.keys) {physical : Nat} {slot : SlotId}
    (hplaces : idx.Places l (lowerRank l.keys ⟨key⟩ / l.itemsPerBlock) physical slot) :
    (EventOperation.read, slot.value) ∈ out.events := by
  obtain ⟨entry, -, hbuilt⟩ := h.exists_entry hl
  have hne : 0 < l.itemCount := List.length_pos_of_mem hkey
  have hget := (mem_iff_getElem?_lowerRank hbuilt.sorted).mp hkey
  have hlt : lowerRank l.keys ⟨key⟩ < l.itemCount := (List.getElem?_eq_some_iff.mp hget).1
  obtain ⟨o, ho, holevel⟩ := h.exists_outcome_of_hit hscan hanswers hlevel hl hne
  have hlook : idx.lookupLevel l.level key = .ok o := holevel ▸ hscan.lookups o ho
  obtain ⟨r, -, -, hb, hreads⟩ := h.lookupLevel_readsItems hl hne hlook
  obtain ⟨o', ho', hanswers', -⟩ := h.lookupLevel_spec hl hne key
  cases hlook.symm.trans ho'
  have hread := hreads.pos
  rw [hanswers'.pos] at hread
  rw [hscan.events]
  refine List.mem_append_right _ (List.mem_flatMap.mpr ⟨o, ho, ?_⟩)
  exact h.read_of_places hl hb hlt (hread hlt) hplaces

/-- The truth about the levels that a query has looked in. -/
theorem exists_perLevel {key : Int} {visited : List Int} {os : List LevelLookupOutcome}
    {acc out : ReferenceQueryOutcome} (hscan : Scanned idx key visited os acc out) :
    ∃ perLevel, os.mapM idx.levelTruth = .ok perLevel ∧
      List.Forall₂ idx.TellsLevel os perLevel := by
  refine exists_mapM_related fun o ho ↦ ?_
  have hlevel : o.level ∈ os.map (·.level) := List.mem_map_of_mem ho
  rw [hscan.levels] at hlevel
  obtain ⟨l, hocc⟩ := Option.isSome_iff_exists.mp (List.mem_filter.mp hlevel).2
  obtain ⟨hl, hlevel, hne⟩ := h.occupied_eq_some hocc
  exact h.levelTruth_spec hl hne (hlevel ▸ hscan.lookups o ho)

/-- The truth about a query. -/
theorem exists_queryTruth (key : Int) : ∃ out truth, idx.query key = .ok out ∧
    idx.queryTruth key = .ok truth ∧ TellsQuery idx levels key out truth := by
  obtain ⟨visited, rest, os, out, -, hrun, hscan, hanswers⟩ := h.query_spec key
  obtain ⟨perLevel, hperLevel, htells⟩ := h.exists_perLevel hscan
  have houtcomes : os = out.levelOutcomes := hscan.levelOutcomes.symm
  rw [houtcomes] at hperLevel htells
  have htruth (hit : Option HitTruth)
      (hhit : out.hitLevel.elim (pure none) (idx.hitTruth key) = .ok hit) :
      idx.queryTruth key = .ok ⟨key, out.found, out.value, out.hitLevel, hit, out.searchedLevels,
        out.skippedEmptyLevels, perLevel⟩ := by
    rw [queryTruth, hrun, ok_bind, hperLevel, ok_bind, hhit]
    rfl
  cases hfound : out.found with
  | false =>
    obtain ⟨hlevel, hvalue⟩ := hanswers.miss hfound
    have hhit : out.hitLevel.elim (pure none) (idx.hitTruth key) = .ok none := by
      rw [hlevel]
      rfl
    refine ⟨out, _, hrun, htruth _ hhit, hanswers.found_iff, fun _ ↦ ⟨hlevel, rfl, hvalue⟩,
      fun hf ↦ ?_, htells⟩
    exact absurd (hfound.symm.trans hf) Bool.false_ne_true
  | true =>
    obtain ⟨entry, hentry, value, hitem, hlevel, hvalue, hmin⟩ := hanswers.hit hfound
    obtain ⟨l, hl, hbuilt⟩ := h.exists_level hentry
    have hkey : ⟨key⟩ ∈ l.keys := hbuilt.mem_keys_iff.mpr (List.mem_map_of_mem hitem)
    obtain ⟨hit, hhit, htellsHit, hplaces⟩ := h.hitTruth_spec hl hbuilt hkey
    have hread := h.read_of_hit hscan hanswers (hbuilt.level ▸ hlevel) hl hkey hplaces
    refine ⟨out, _, hrun, htruth (some hit) ?_, hanswers.found_iff, fun hf ↦ ?_, fun _ ↦ ?_,
      htells⟩
    · rw [hlevel, Option.elim_some, ← hbuilt.level, hhit]
    · exact absurd (hf.symm.trans hfound) Bool.false_ne_true
    · exact ⟨entry, hentry, value, hit, hitem, hmin, hlevel, hvalue, rfl, htellsHit, hread⟩

end BuiltFrom

/-- The truth of every query is returned and right: about the items, about the blocks, and about
the trace, which shows the slot of the item that is hit and of every item that is probed. -/
theorem query_truth {shuffle : Shuffle} (hbuild : build p shuffle levels = .ok idx) (key : Int) :
    ∃ out truth, idx.query key = .ok out ∧ idx.queryTruth key = .ok truth ∧
      TellsQuery idx levels key out truth :=
  (build_eq_ok hbuild).exists_queryTruth key

theorem query_truth_small : ∃ idx out truth, build ⟨smallFields .staticPrp (some 7), by decide⟩
    reversal smallLevels = .ok idx ∧ idx.query 8 = .ok out ∧ idx.queryTruth 8 = .ok truth ∧
      TellsQuery idx smallLevels 8 out truth := by
  obtain ⟨idx, hidx⟩ := exists_of_isOk isOk_build_small.1
  obtain ⟨out, truth, hout, htruth, htells⟩ := query_truth hidx 8
  exact ⟨idx, out, truth, hidx, hout, htruth, htells⟩

end ReferenceIndex

end EnhancedLetIndex
