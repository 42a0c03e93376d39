import EnhancedLetIndex.Engine.Levels

/-!
# What a lookup reads and returns

`lookup_level` on a level with a sound PGM never raises.  It reads the candidate blocks of the
search interval once each, in ascending slot order (`readSlots`), and returns
`lookupResult` on the records whose nominal rank is in the interval (`levelResult`): the
physical order of the reads does not reach the result.

Where the nominal ranks are the true ones, that result is the record with the key and the
number of smaller keys (`levelResult_of_packed`).
-/

namespace EnhancedLetIndex

variable {V : Type}

namespace Engine

variable {e : Engine V} {ids : List BlockId} {blks : List (Block V)}

/-! ## The schedule -/

/-- The block of a logical rank, and the slot it is mapped to. -/
structure ScheduleEntry.Describes (entry : ScheduleEntry) (e : Engine V) (ids : List BlockId) :
    Prop where
  block : ids[entry.logicalRank]? = some entry.blockId
  slot : e.mapping.logicalToPhysical.lookup entry.blockId = some entry.slotId

/-- The candidate blocks of a search interval. -/
def candidateIds (c : Nat) (ids : List BlockId) (sr : SearchResult) : List BlockId :=
  if sr.lo = sr.hi then [] else (ids.drop (sr.lo / c)).take ((sr.hi - 1) / c + 1 - sr.lo / c)

/-- The slots of the candidate blocks, in the order in which they are read. -/
def readSlots (e : Engine V) (ids : List BlockId) (sr : SearchResult) : List SlotId :=
  (e.slotsOf (candidateIds e.config.blockCapacity ids sr)).insertionSort
    fun a b ↦ a.value ≤ b.value

/-- The entries of consecutive logical ranks. -/
theorem run_scheduleEntries (hmapped : ∀ b ∈ ids, b ∈ e.mapping.logicalToPhysical)
    (first n : Nat) (hn : first + n ≤ ids.length) :
    ∃ entries, ((List.range' first n).mapM (scheduleEntry ids)).run e = .ok entries e ∧
      entries.map (·.logicalRank) = List.range' first n ∧
      entries.map (·.slotId) = e.slotsOf ((ids.drop first).take n) ∧
      ∀ entry ∈ entries, entry.Describes e ids := by
  induction n generalizing first with
  | zero => exact ⟨[], rfl, rfl, by simp [slotsOf], by simp⟩
  | succ n ih =>
    obtain ⟨entries, hrun, hranks, hslots, hdesc⟩ := ih (first + 1) (by omega)
    have hlt : first < ids.length := by omega
    obtain ⟨s, hs⟩ := Finmap.mem_iff.mp (hmapped ids[first] (List.getElem_mem hlt))
    have hentry : (scheduleEntry ids first).run e = .ok ⟨first, ids[first], s⟩ e := by
      simp only [scheduleEntry, List.getElem?_eq_getElem hlt]
      rw [run_bind_of_ok (run_physicalSlot_of_mapped hs)]
      rfl
    refine ⟨⟨first, ids[first], s⟩ :: entries, ?_, ?_, ?_, ?_⟩
    · rw [List.range'_succ, List.mapM_cons, run_bind_of_ok hentry, run_bind_of_ok hrun]
      rfl
    · rw [List.map_cons, hranks, List.range'_succ]
    · rw [List.map_cons, hslots, List.drop_eq_getElem_cons hlt, List.take_succ_cons,
        slotsOf_cons hs]
    · exact List.forall_mem_cons.mpr ⟨⟨List.getElem?_eq_getElem hlt, hs⟩, hdesc⟩

/-- Reading scheduled blocks: one read each, in the order of the schedule. -/
theorem run_fetch (entries : List ScheduleEntry) (hread : e.ReadAs ids blks)
    (hdesc : ∀ entry ∈ entries, entry.Describes e ids) :
    ∃ fetched, (entries.mapM fetch).run e = .ok fetched (e.afterReads (entries.map (·.slotId))) ∧
      fetched.map Prod.fst = entries.map (·.logicalRank) ∧
      ∀ f ∈ fetched, blks[f.1]? = some f.2 := by
  induction entries generalizing e with
  | nil => exact ⟨[], rfl, rfl, by simp⟩
  | cons entry entries ih =>
    obtain ⟨hentry, hrest⟩ := List.forall_mem_cons.mp hdesc
    obtain ⟨hlt, hget⟩ := List.getElem?_eq_some_iff.mp hentry.block
    have hlen : entry.logicalRank < blks.length := hread.length_eq ▸ hlt
    have hat : e.blockAt entry.blockId = some blks[entry.logicalRank] := by
      rw [← hget]
      exact (List.forall₂_iff_get.mp hread).2 _ hlt hlen
    obtain ⟨s, hs, hslot⟩ := blockAt_eq_some.mp hat
    obtain rfl : s = entry.slotId := Option.some.inj (hs.symm.trans hentry.slot)
    obtain ⟨fetched, hrun, hranks, hblks⟩ := ih (e := e.afterReads [entry.slotId])
      (afterReads_readAs.mpr hread)
      fun entry' h' ↦ ⟨(hrest entry' h').block, (hrest entry' h').slot⟩
    refine ⟨(entry.logicalRank, blks[entry.logicalRank]) :: fetched, ?_, ?_, ?_⟩
    · have hfetch : (fetch entry).run e =
          .ok (entry.logicalRank, blks[entry.logicalRank]) (e.afterReads [entry.slotId]) := by
        rw [fetch, run_bind_of_ok (run_readBlock hs hslot)]
        rfl
      rw [List.mapM_cons, run_bind_of_ok hfetch, run_bind_of_ok hrun, afterReads_append]
      rfl
    · rw [List.map_cons, hranks, List.map_cons]
    · exact List.forall_mem_cons.mpr ⟨List.getElem?_eq_getElem hlen, hblks⟩

/-- The candidate records do not depend on the order in which their blocks were read. -/
theorem candidateRecords_eq {c lo hi : Nat} {fetched : List (Nat × Block V)} (hc : 0 < c)
    (hlt : lo < hi) (hsize : ∀ blk ∈ blks, blk.records.length ≤ c)
    (hlast : (hi - 1) / c < blks.length)
    (hranks : (fetched.map Prod.fst).Perm
      (List.range' (lo / c) ((hi - 1) / c + 1 - lo / c)))
    (hblks : ∀ f ∈ fetched, blks[f.1]? = some f.2) :
    candidateRecords c lo hi fetched = nominalWindow c lo hi (blks.map (·.records)) := by
  have hsorted : SortedBy Prod.fst (fetched.insertionSort fun a b ↦ a.1 ≤ b.1) :=
    sortedBy_insertionSort (hranks.nodup_iff.mpr List.nodup_range')
  have hperm := List.perm_insertionSort (fun a b : Nat × Block V ↦ a.1 ≤ b.1) fetched
  have hordered : (fetched.insertionSort fun a b ↦ a.1 ≤ b.1).map Prod.fst =
      List.range' (lo / c) ((hi - 1) / c + 1 - lo / c) := by
    have : Std.Irrefl fun a b : Nat ↦ a < b := ⟨fun _ ↦ lt_irrefl _⟩
    have : Std.Asymm fun a b : Nat ↦ a < b := ⟨fun _ _ ↦ lt_asymm⟩
    exact List.Pairwise.eq_of_mem_iff hsorted.map_keys List.pairwise_lt_range'
      fun a ↦ ((hperm.map _).trans hranks).mem_iff
  rw [nominalWindow_eq_flatMap hc hlt (by simpa using hsize) (by simpa using hlast), ← hordered,
    List.flatMap_map, candidateRecords]
  refine List.flatMap_congr fun f hf ↦ ?_
  rw [List.getElem?_map, hblks f (hperm.mem_iff.mp hf)]
  rfl

/-! ## One level -/

/-- What `lookup_level` returns for a level whose blocks are `blks`. -/
def levelResult (c : Nat) (blks : List (Block V)) (sr : SearchResult) (key : RecordKey) :
    SingleLevelLookupResult V :=
  lookupResult sr (nominalWindow c sr.lo sr.hi (blks.map (·.records))) key

/-- The records of blocks that are not longer than `c` reach every rank of a window. -/
theorem lastBlock_lt {c hi : Nat} (hc : 0 < c) (hsize : ∀ blk ∈ blks, blk.records.length ≤ c)
    (hpos : 0 < hi) (hhi : hi ≤ (blockRecords blks).length) : (hi - 1) / c < blks.length := by
  have hle : (blockRecords blks).length ≤ blks.length * c := by
    rw [blockRecords, List.length_flatten, List.map_map]
    have := List.sum_le_card_nsmul (blks.map (List.length ∘ fun blk ↦ blk.records)) c
      (by simpa using hsize)
    simpa using this
  rw [Nat.div_lt_iff_lt_mul hc]
  omega

theorem run_pgmIndex {l : LevelId} {idx : BatchPgmIndex} (hret : l ∉ e.retiredLevelIds)
    (hidx : e.pgmIndexes.lookup l = some idx) : (pgmIndex l).run e = .ok idx e := by
  simp only [pgmIndex, EStateM.run_bind, EStateM.run_get, if_neg hret, hidx, EStateM.run_pure]

/-- `lookup_level` on an active level with a sound PGM. -/
theorem run_lookupLevel {l : LevelId} {L : Level} {idx : BatchPgmIndex} {ε : Nat}
    (hret : l ∉ e.retiredLevelIds) (hL : e.levels.lookup l = some L)
    (hread : e.ReadAs L.blockIds blks)
    (hsize : ∀ blk ∈ blks, blk.records.length ≤ e.config.blockCapacity)
    (hidx : e.pgmIndexes.lookup l = some idx)
    (hbuilt : idx.BuiltOn ε ((blockRecords blks).map (·.key))) (key : RecordKey) :
    ∃ sr, idx.search key = .ok sr ∧ sr.Brackets ((blockRecords blks).map (·.key)) key ∧
      (lookupLevel l key).run e =
        .ok (levelResult e.config.blockCapacity blks sr key)
          (e.afterReads (e.readSlots L.blockIds sr)) := by
  have hc := e.config.blockCapacity_pos
  obtain ⟨sr, hsearch, hsr⟩ := hbuilt.brackets key
  refine ⟨sr, hsearch, hsr, ?_⟩
  have hle : sr.lo ≤ sr.hi := hsr.lo_le.trans hsr.le_hi
  have hhi : sr.hi ≤ (blockRecords blks).length := by simpa using hsr.hi_le
  rw [lookupLevel, run_bind_of_ok (run_level hL hret),
    run_bind_of_ok (run_pgmIndex hret hidx), hsearch, run_bind_of_ok (run_liftExcept_ok _ _ _)]
  by_cases hempty : sr.lo = sr.hi
  · -- an empty interval reads nothing, and its window is empty
    have hnil : nominalWindow e.config.blockCapacity sr.lo sr.hi (blks.map (·.records)) = [] := by
      rw [nominalWindow, List.map_eq_nil_iff, List.filter_eq_nil_iff]
      intro x _
      simp only [decide_eq_true_eq]
      omega
    rw [if_pos hempty, levelResult, hnil, readSlots, candidateIds, if_pos hempty]
    rfl
  have hlt : sr.lo < sr.hi := by omega
  have hlast := lastBlock_lt hc hsize (by omega) hhi
  have hfirst : sr.lo / e.config.blockCapacity ≤ (sr.hi - 1) / e.config.blockCapacity :=
    Nat.div_le_div_right (by omega)
  obtain ⟨entries, hrun, hranks, hslots, hdesc⟩ := run_scheduleEntries hread.mapped
    (sr.lo / e.config.blockCapacity)
    ((sr.hi - 1) / e.config.blockCapacity + 1 - sr.lo / e.config.blockCapacity)
    (by rw [hread.length_eq]; omega)
  have hperm := List.perm_insertionSort
    (fun a b : ScheduleEntry ↦ a.slotId.value ≤ b.slotId.value) entries
  have hschedule : (schedule L.blockIds (sr.lo / e.config.blockCapacity)
      ((sr.hi - 1) / e.config.blockCapacity)).run e =
      .ok (entries.insertionSort fun a b ↦ a.slotId.value ≤ b.slotId.value) e := by
    rw [schedule, run_bind_of_ok hrun]
    rfl
  obtain ⟨fetched, hfetch, hfetched, hblks⟩ := run_fetch
    (entries.insertionSort fun a b ↦ a.slotId.value ≤ b.slotId.value) hread
    fun entry hentry ↦ hdesc entry (hperm.mem_iff.mp hentry)
  have hcandidates := candidateRecords_eq hc hlt hsize hlast
    (hfetched ▸ hranks ▸ hperm.map _) hblks
  have hreads : (entries.insertionSort fun a b ↦ a.slotId.value ≤ b.slotId.value).map
      (·.slotId) = e.readSlots L.blockIds sr := by
    rw [readSlots, candidateIds, if_neg hempty, ← hslots]
    exact List.map_insertionSort _ _ _ _ fun _ _ _ _ ↦ Iff.rfl
  rw [if_neg hempty, EStateM.run_bind, EStateM.run_get]
  simp only
  rw [run_bind_of_ok hschedule, run_bind_of_ok hfetch, hcandidates, hreads]
  rfl

/-! ## Correct answers -/

/-- Every block before a block with records is full. -/
def FullBefore (c : Nat) (blks : List (Block V)) : Prop :=
  (blks.map (·.records)).Pairwise fun p q ↦ q ≠ [] → p.length = c

instance (c : Nat) (blks : List (Block V)) [DecidableEq V] : Decidable (FullBefore c blks) :=
  inferInstanceAs (Decidable (List.Pairwise _ _))

/-- The answer of a level with these records. -/
def levelAnswer (records : List (Record V)) (key : RecordKey) (sr : SearchResult) :
    SingleLevelLookupResult V where
  found := (findKey (·.key) key records).isSome
  record := findKey (·.key) key records
  lowerBoundRank := lowerRank (records.map (·.key)) key
  searchResult := sr

/-- Bisecting a window that brackets the key answers for the whole list. -/
theorem lookupResult_window {records : List (Record V)} {key : RecordKey} {sr : SearchResult}
    (hsorted : SortedBy (·.key) records) (hsr : sr.Brackets (records.map (·.key)) key) :
    lookupResult sr ((records.drop sr.lo).take (sr.hi - sr.lo)) key =
      levelAnswer records key sr := by
  obtain ⟨hlo, hle, hhi, hlt⟩ := hsr
  have hkeys := hsorted.map_keys
  have hlocal : bisect (fun k ↦ decide (k < key))
      (((records.drop sr.lo).take (sr.hi - sr.lo)).map (·.key)) =
      lowerRank (records.map (·.key)) key - sr.lo := by
    rw [List.map_take, List.map_drop]
    exact ((isCut_lowerRank hkeys key).window hlo hle).bisect_eq
  have hrank : sr.lo + (lowerRank (records.map (·.key)) key - sr.lo) =
      lowerRank (records.map (·.key)) key := by omega
  have hmem := mem_iff_getElem?_lowerRank hkeys (x := key)
  rw [List.getElem?_map] at hmem
  generalize hr : lowerRank (records.map (·.key)) key = r at *
  unfold lookupResult levelAnswer
  simp only [hlocal, hrank, hr]
  by_cases hin : r < sr.hi
  · -- the window holds the record of this rank
    have hget : ((records.drop sr.lo).take (sr.hi - sr.lo))[r - sr.lo]? = records[r]? := by
      rw [List.getElem?_take_of_lt (by omega), List.getElem?_drop, hrank]
    have hlen : r < records.length := by simpa using hin.trans_le hhi
    rw [hget, List.getElem?_eq_getElem hlen]
    rw [List.getElem?_eq_getElem hlen] at hmem
    simp only [Option.map_some, Option.some.injEq] at hmem ⊢
    split_ifs with hkey
    · rw [(findKey_eq_some hsorted.nodup_keys).mpr ⟨List.getElem_mem hlen, hkey⟩]
      rfl
    · rw [findKey_eq_none.mpr fun h ↦ hkey (hmem.mp h)]
      rfl
  · have hmiss : key ∉ records.map (·.key) := fun h ↦ hin (hlt h)
    have hget : ((records.drop sr.lo).take (sr.hi - sr.lo))[r - sr.lo]? = none := by
      rw [List.getElem?_eq_none_iff, List.length_take]
      omega
    rw [hget, findKey_eq_none.mpr hmiss]
    rfl

/-- Where every block before a block with records is full, the answer is right. -/
theorem levelResult_of_fullBefore {c : Nat} {key : RecordKey} {sr : SearchResult}
    (hsize : ∀ blk ∈ blks, blk.records.length ≤ c) (hsorted : SortedBy (·.key) (blockRecords blks))
    (hsr : sr.Brackets ((blockRecords blks).map (·.key)) key) (hfull : FullBefore c blks) :
    levelResult c blks sr key = levelAnswer (blockRecords blks) key sr := by
  have hnominal := (nominal_eq_iff (by simpa using hsize) 0).mpr hfull
  rw [Nat.zero_mul] at hnominal
  have hhi := hsr.hi_le
  rw [List.length_map] at hhi
  rw [levelResult, nominalWindow_of_eq hnominal (hsr.lo_le.trans hsr.le_hi) hhi]
  exact lookupResult_window hsorted hsr

/-- Where some block before a block with records is not full, the last record is not found. -/
theorem levelResult_of_not_fullBefore {c : Nat}
    (hsize : ∀ blk ∈ blks, blk.records.length ≤ c) (hsorted : SortedBy (·.key) (blockRecords blks))
    (hnot : ¬ FullBefore c blks) :
    ∃ record ∈ blockRecords blks, ∀ sr : SearchResult, sr.hi ≤ (blockRecords blks).length →
      (levelResult c blks sr record.key).found = false := by
  obtain ⟨init, record, hflat⟩ :=
    (List.eq_nil_or_concat' (blockRecords blks)).resolve_left (flatten_ne_nil_of_wrong hnot)
  refine ⟨record, by rw [hflat]; simp, fun sr hhi ↦ ?_⟩
  have hsub := nominalWindow_of_wrong sr.lo (by simpa using hsize) hnot hflat hhi
  -- no other record has the key of the last one
  have hother : ∀ r ∈ nominalWindow c sr.lo sr.hi (blks.map (·.records)), r.key ≠ record.key := by
    intro r hr
    rw [hflat, SortedBy, List.pairwise_append] at hsorted
    exact (hsorted.2.2 r (hsub.mem hr) record (List.mem_singleton_self _)).ne
  unfold levelResult lookupResult
  simp only
  split
  · next r hr => rw [if_neg (hother r (List.mem_of_getElem? hr))]
  · rfl

/-! ## Lookups after `build_level_pgm` -/

/-- `lookup_level` finds the key exactly if one of the records has it, and returns this record
and the number of records with a smaller key. -/
def LookupCorrect (e : Engine V) (l : LevelId) (records : List (Record V)) (key : RecordKey) :
    Prop :=
  ∃ r e', (lookupLevel l key).run e = .ok r e' ∧
    (r.found = true ↔ ∃ record ∈ records, record.key = key) ∧
    r.record = findKey (·.key) key records ∧
    r.lowerBoundRank = records.countP fun record ↦ record.key < key

theorem lookupCorrect_of_run {l : LevelId} {records : List (Record V)} {key : RecordKey}
    {sr : SearchResult} {e' : Engine V}
    (h : (lookupLevel l key).run e = .ok (levelAnswer records key sr) e') :
    e.LookupCorrect l records key := by
  refine ⟨_, e', h, ?_, rfl, ?_⟩
  · rw [levelAnswer, findKey_isSome, List.mem_map]
  · rw [levelAnswer, lowerRank, List.countP_map]
    rfl

/-- After `build_level_pgm` every lookup in the level is right if and only if every block
before a block with records is full. -/
theorem lookupLevel_correct_iff {P : Engine V → EngineOp V → Prop} {config : Config}
    (h : Reachable P config e) {l : LevelId} {idx : BatchPgmIndex} {e' : Engine V}
    (hpgm : (buildLevelPgm l).run e = .ok idx e') :
    ∃ blks, e'.Holds l blks ∧
      ((∀ key, e'.LookupCorrect l (blockRecords blks) key) ↔
        FullBefore e.config.blockCapacity blks) := by
  obtain ⟨ε, L, blks, -, hret, hL, hread, hindex, rfl⟩ := buildLevelPgm_eq_ok.mp hpgm
  have hread' : ((e.afterReads (e.slotsOf L.blockIds)).setPgm l idx).ReadAs L.blockIds blks :=
    afterReads_readAs.mpr hread
  have hsize := h.consistent.length_le hread
  have hbuilt := builtOn_of_buildBatchPgm hindex
  have hrun : ∀ key, ∃ sr, idx.search key = .ok sr ∧
      sr.Brackets ((blockRecords blks).map (·.key)) key ∧ ∃ e₁,
        (lookupLevel l key).run ((e.afterReads (e.slotsOf L.blockIds)).setPgm l idx) =
          .ok (levelResult e.config.blockCapacity blks sr key) e₁ := fun key ↦ by
    obtain ⟨sr, hsearch, hsr, hrun⟩ := run_lookupLevel
      (e := (e.afterReads (e.slotsOf L.blockIds)).setPgm l idx) hret hL hread' hsize
      (Finmap.lookup_insert _) hbuilt key
    exact ⟨sr, hsearch, hsr, _, hrun⟩
  refine ⟨blks, ⟨hret, L, hL, hread'⟩, fun hcorrect ↦ ?_, fun hfull key ↦ ?_⟩
  · by_contra hnot
    obtain ⟨record, hrecord, hmiss⟩ :=
      levelResult_of_not_fullBefore hsize (SortedBy.of_map_keys hbuilt.sorted) hnot
    obtain ⟨sr, -, hsr, e₁, hsearch⟩ := hrun record.key
    obtain ⟨r, e₂, hr, hfound, -⟩ := hcorrect record.key
    rw [hsearch] at hr
    cases hr
    exact Bool.false_ne_true
      ((hmiss sr (by simpa using hsr.hi_le)).symm.trans (hfound.mpr ⟨record, hrecord, rfl⟩))
  · obtain ⟨sr, -, hsr, e₁, hsearch⟩ := hrun key
    rw [levelResult_of_fullBefore hsize (SortedBy.of_map_keys hbuilt.sorted) hsr hfull] at hsearch
    exact lookupCorrect_of_run hsearch

section ShortBlock

/-- A level of capacity 2 with the blocks `[1]` and `[2, 3]`, from two `create_block` calls. -/
def shortBlock : Engine Unit :=
  (Engine.init ⟨2, some 0, Nat.two_pos⟩).afterAll
    [.createLevel, .createBlock [{ key := ⟨1⟩, value := () }] (some ⟨0⟩),
      .createBlock [{ key := ⟨2⟩, value := () }, { key := ⟨3⟩, value := () }] (some ⟨0⟩)]

/-- The blocks of this level. -/
def shortBlocks : List (Block Unit) :=
  [⟨⟨⟨0⟩, 2, [{ key := ⟨1⟩, value := () }]⟩, RawBlock.validate_eq_ok.mp (by decide)⟩,
    ⟨⟨⟨1⟩, 2, [{ key := ⟨2⟩, value := () }, { key := ⟨3⟩, value := () }]⟩,
      RawBlock.validate_eq_ok.mp (by decide)⟩]

theorem run_buildLevelPgm_shortBlock :
    ∃ idx, (buildLevelPgm ⟨0⟩).run shortBlock = .ok idx (shortBlock.after (.buildLevelPgm ⟨0⟩)) := by
  have h : (outcome ((buildLevelPgm ⟨0⟩).run shortBlock)).isOk = true := by decide +kernel
  cases hidx : outcome ((buildLevelPgm ⟨0⟩).run shortBlock) with
  | ok idx => exact ⟨idx, outcome_eq_ok.mp hidx⟩
  | error err => rw [hidx] at h; cases h

/-- `shortBlock` is reachable and has a PGM, its key 3 is not found. -/
theorem lookupLevel_misses_shortBlock :
    Reachable (fun _ _ ↦ True) ⟨2, some 0, Nat.two_pos⟩ shortBlock ∧
      ∃ idx e', (buildLevelPgm ⟨0⟩).run shortBlock = .ok idx e' ∧ e'.Holds ⟨0⟩ shortBlocks ∧
        ¬ e'.LookupCorrect ⟨0⟩ (blockRecords shortBlocks) ⟨3⟩ := by
  obtain ⟨idx, hrun⟩ := run_buildLevelPgm_shortBlock
  refine ⟨reachable_afterAll _ _, idx, _, hrun, ⟨by decide +kernel, ⟨⟨0⟩, [⟨0⟩, ⟨1⟩], by decide⟩,
    by decide +kernel, .cons (by decide +kernel) (.cons (by decide +kernel) .nil)⟩, ?_⟩
  rintro ⟨r, e', hr, hfound, -⟩
  have hmiss : (outcome ((lookupLevel ⟨0⟩ ⟨3⟩).run
      (shortBlock.after (.buildLevelPgm ⟨0⟩)))).toOption.map (·.found) = some false := by
    decide +kernel
  rw [hr, outcome_ok, Except.toOption, Option.map_some, Option.some.injEq] at hmiss
  have hmem : ∃ record ∈ blockRecords shortBlocks, record.key = ⟨3⟩ := by decide
  exact Bool.false_ne_true (hmiss.symm.trans (hfound.mpr hmem))

/-- The equivalence on this level. -/
theorem lookupLevel_correct_iff_shortBlock :
    ∃ (e' : Engine Unit) (blks : List (Block Unit)), e'.Holds ⟨0⟩ blks ∧
      ((∀ key, e'.LookupCorrect ⟨0⟩ (blockRecords blks) key) ↔
        FullBefore shortBlock.config.blockCapacity blks) := by
  obtain ⟨idx, hrun⟩ := run_buildLevelPgm_shortBlock
  exact ⟨_, lookupLevel_correct_iff (reachable_afterAll _ _) hrun⟩

end ShortBlock

end Engine

end EnhancedLetIndex
