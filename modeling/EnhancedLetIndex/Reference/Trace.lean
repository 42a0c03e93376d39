import EnhancedLetIndex.Reference.Query
import EnhancedLetIndex.Transcript.Strict

/-!
# The trace of a reference run

`ReferenceTraceBuilder` of `letindex_ref.py`: loading writes the blocks of every level that is
not empty, level by level, and every query is one operation.  What is recorded is in order and
complete (`Recorded`), and loading writes the slots of the projection one after the other
(`load_spec`).
-/

namespace EnhancedLetIndex

/-- Events that count up from 0. -/
def numbered (events : List (EventOperation × Int)) : List ObservedEvent :=
  events.mapIdx fun seq e ↦ ⟨seq, e.1, e.2⟩

/-- `ReferenceExperiment`. -/
structure ReferenceExperiment where
  profile : ReferenceProfile
  levels : List (Int × List (Int × String))
  queryKeys : List Int
  workload : Option (List (String × Json)) := none
  family : String := "LETINDEX-REF-V1"

/-- An entry stored in a mapping: in the place of the entry with its key, or at the end. -/
def storeEntry {α β : Type} [DecidableEq α] (entries : List (α × β)) (entry : α × β) :
    List (α × β) :=
  if entry.1 ∈ entries.map Prod.fst then
    entries.map fun e ↦ if e.1 = entry.1 then entry else e
  else entries ++ [entry]

theorem nodup_storeEntry {α β : Type} [DecidableEq α] {entries : List (α × β)}
    (h : (entries.map Prod.fst).Nodup) (entry : α × β) :
    ((storeEntry entries entry).map Prod.fst).Nodup := by
  unfold storeEntry
  split_ifs with hmem
  · have hkeys : (entries.map fun e ↦ if e.1 = entry.1 then entry else e).map Prod.fst =
        entries.map Prod.fst := by
      rw [List.map_map]
      refine List.map_congr_left fun e _ ↦ ?_
      show (if e.1 = entry.1 then entry else e).1 = e.1
      split_ifs with heq
      · exact heq.symm
      · rfl
    rw [hkeys]
    exact h
  · rw [List.map_append, List.map_singleton, ← List.concat_eq_append]
    exact h.concat hmem

/-- `level_map`: of two declarations of a level the later one counts. -/
def ReferenceExperiment.levelMap (e : ReferenceExperiment) : LevelMap where
  entries := e.levels.foldl storeEntry []
  nodup := by
    have hfold : ∀ (levels entries : List (Int × List (Int × String))),
        (entries.map Prod.fst).Nodup → ((levels.foldl storeEntry entries).map Prod.fst).Nodup := by
      intro levels
      induction levels with
      | nil => exact fun _ ↦ id
      | cons level levels ih => exact fun entries h ↦ ih _ (nodup_storeEntry h level)
    exact hfold e.levels [] List.nodup_nil

/-- Entries with different keys are stored in their order. -/
theorem foldl_storeEntry {α β : Type} [DecidableEq α] {entries more : List (α × β)}
    (h : ((entries ++ more).map Prod.fst).Nodup) :
    more.foldl storeEntry entries = entries ++ more := by
  induction more generalizing entries with
  | nil => exact (List.append_nil _).symm
  | cons entry more ih =>
    have hnew : entry.1 ∉ entries.map Prod.fst := by
      rw [List.map_append, List.nodup_append] at h
      exact fun hmem ↦ h.2.2 _ hmem _ (List.mem_map_of_mem List.mem_cons_self) rfl
    have hassoc : entries ++ entry :: more = (entries ++ [entry]) ++ more := by
      rw [List.append_assoc, List.singleton_append]
    rw [List.foldl_cons, storeEntry, if_neg hnew, ih (hassoc ▸ h), hassoc]

/-- Levels that are declared once are kept as they are. -/
theorem ReferenceExperiment.levelMap_entries {e : ReferenceExperiment}
    (h : (e.levels.map Prod.fst).Nodup) : e.levelMap.entries = e.levels :=
  foldl_storeEntry ((List.nil_append e.levels).symm ▸ h)

/-- `ReferenceTraceBuilder`. -/
structure ReferenceTraceBuilder where
  experiment : ReferenceExperiment
  index : ReferenceIndex
  operations : List ObservedOperation := []
  outcomes : List ReferenceQueryOutcome := []
  loaded : Bool := false

/-- The body of the loop of `load`: the blocks of a level that is not empty, and its model. -/
def ReferenceIndex.loadLevel (idx : ReferenceIndex) (operations : List ObservedOperation)
    (level : Int) : Except ReferenceError (List ObservedOperation) := do
  let l ← idx.level level
  if l.itemCount = 0 then pure operations
  else do
    let slots ← (l.placement.insertionSort (· ≤ ·)).mapM (idx.projection.slot level)
    let events := numbered (slots.map fun slot ↦ (.write, slot.value))
    let written := operations ++
      [⟨operations.length, .buildInitial, events, 0, events.length, none⟩]
    pure (if l.hasPgm then written ++ [⟨written.length, .buildPgm, [], 0, 0, none⟩] else written)

namespace ReferenceTraceBuilder

/-- The builder of an experiment, with its index built. -/
def ofExperiment (shuffle : Shuffle) (e : ReferenceExperiment) :
    Except ReferenceError ReferenceTraceBuilder := do
  let index ← ReferenceIndex.build e.profile shuffle e.levelMap
  pure { experiment := e, index }

/-- `load`. -/
def load (b : ReferenceTraceBuilder) : Except ReferenceError ReferenceTraceBuilder := do
  require (b.loaded = false) .alreadyLoaded
  let operations ← b.index.declared.foldlM b.index.loadLevel b.operations
  pure { b with operations, loaded := true }

/-- The operation of a query. -/
def queryOperation (index : Nat) (out : ReferenceQueryOutcome) : ObservedOperation :=
  let events := numbered out.events
  ⟨index, .query, events, events.countP (·.operation = .read),
    events.countP (·.operation = .write), none⟩

/-- The body of the loop of `run_queries`. -/
def runQuery (b : ReferenceTraceBuilder) (key : Int) :
    Except ReferenceError ReferenceTraceBuilder := do
  let out ← b.index.query key
  pure { b with
    outcomes := b.outcomes ++ [out]
    operations := b.operations ++ [queryOperation b.operations.length out] }

/-- The levels are loaded before the first query. -/
def ensureLoaded (b : ReferenceTraceBuilder) : Except ReferenceError ReferenceTraceBuilder :=
  if b.loaded then pure b else b.load

/-- `run_queries`. -/
def runQueries (b : ReferenceTraceBuilder) : Except ReferenceError ReferenceTraceBuilder := do
  let b ← b.ensureLoaded
  b.experiment.queryKeys.foldlM runQuery b

end ReferenceTraceBuilder

/-- A run of an experiment: built, loaded and queried. -/
def ReferenceExperiment.run (shuffle : Shuffle) (e : ReferenceExperiment) :
    Except ReferenceError ReferenceTraceBuilder := do
  let b ← ReferenceTraceBuilder.ofExperiment shuffle e
  let b ← b.load
  b.runQueries

/-! ## What is recorded -/

@[simp] theorem length_numbered (events : List (EventOperation × Int)) :
    (numbered events).length = events.length := List.length_mapIdx

theorem map_seq_numbered (events : List (EventOperation × Int)) :
    (numbered events).map (·.seq) = (List.range events.length).map Int.ofNat := by
  apply List.ext_getElem
  · simp
  · intro i h₁ h₂
    simp [numbered]

theorem map_numbered (events : List (EventOperation × Int)) :
    (numbered events).map (fun e ↦ (e.operation, e.slotId)) = events := by
  apply List.ext_getElem
  · simp
  · intro i h₁ h₂
    simp [numbered]

theorem map_slotId_numbered (events : List (EventOperation × Int)) :
    (numbered events).map (·.slotId) = events.map Prod.snd := by
  conv_rhs => rw [← map_numbered events, List.map_map]
  rfl

theorem map_operation_numbered (events : List (EventOperation × Int)) :
    (numbered events).map (·.operation) = events.map Prod.fst := by
  conv_rhs => rw [← map_numbered events, List.map_map]
  rfl

/-- Operations recorded from a position on: numbered, complete and without labels. -/
structure Recorded (start : Nat) (operations : List ObservedOperation) : Prop where
  positioned : Positioned start operations
  integral : ∀ o ∈ operations, o.Integral
  unlabelled : ∀ o ∈ operations, o.queryEqualityClass = none

namespace Recorded

variable {start : Nat} {operations more : List ObservedOperation}

theorem nil (start : Nat) : Recorded start [] := ⟨rfl, by simp, by simp⟩

theorem singleton {o : ObservedOperation} (hindex : o.index = start) (hintegral : o.Integral)
    (hlabel : o.queryEqualityClass = none) : Recorded start [o] :=
  ⟨positioned_cons.mpr ⟨hindex, rfl⟩, by simpa using hintegral, by simpa using hlabel⟩

theorem append (h : Recorded start operations) (h' : Recorded (start + operations.length) more) :
    Recorded start (operations ++ more) := by
  refine ⟨?_, List.forall_mem_append.mpr ⟨h.integral, h'.integral⟩,
    List.forall_mem_append.mpr ⟨h.unlabelled, h'.unlabelled⟩⟩
  have hrange : List.range' start (operations.length + more.length) =
      List.range' start operations.length ++
        List.range' (start + operations.length) more.length := by
    rw [List.range'_append_1]
  rw [Positioned, List.map_append, h.positioned, h'.positioned, List.length_append, hrange,
    List.map_append]

end Recorded

theorem integral_numbered {events : List (EventOperation × Int)} {index : Int}
    {c : OperationClass} {reads writes : Nat}
    (hreads : reads = (numbered events).countP (·.operation = .read))
    (hwrites : writes = (numbered events).countP (·.operation = .write)) :
    (⟨index, c, numbered events, reads, writes, none⟩ : ObservedOperation).Integral := by
  refine ⟨congrArg Int.ofNat hreads, congrArg Int.ofNat hwrites, ?_⟩
  rw [ObservedOperation.Sequenced, map_seq_numbered, length_numbered]

/-! ## Loading -/

/-- Operations that write some slots, in order. -/
structure Loaded (start : Nat) (slots : List Int) (operations : List ObservedOperation) : Prop
    extends Recorded start operations where
  writes : ∀ o ∈ operations, ∀ e ∈ o.events, e.operation = .write
  slots_eq : (operations.flatMap (·.events)).map (·.slotId) = slots
  classes : ∀ o ∈ operations, o.operationClass ∈ [OperationClass.buildInitial, .buildPgm]

namespace Loaded

variable {start : Nat} {slots slots' : List Int} {operations more : List ObservedOperation}

theorem nil (start : Nat) : Loaded start [] [] := ⟨.nil start, by simp, rfl, by simp⟩

theorem append (h : Loaded start slots operations)
    (h' : Loaded (start + operations.length) slots' more) :
    Loaded start (slots ++ slots') (operations ++ more) := by
  refine ⟨h.toRecorded.append h'.toRecorded, List.forall_mem_append.mpr ⟨h.writes, h'.writes⟩, ?_,
    List.forall_mem_append.mpr ⟨h.classes, h'.classes⟩⟩
  rw [List.flatMap_append, List.map_append, h.slots_eq, h'.slots_eq]

/-- The operations of a level: its blocks in ascending order, and its model. -/
theorem level (start : Nat) (slots : List Int) (hasPgm : Bool) :
    Loaded start slots (⟨start, .buildInitial, numbered (slots.map fun slot ↦ (.write, slot)), 0,
      (numbered (slots.map fun slot ↦ (EventOperation.write, slot))).length, none⟩ ::
      if hasPgm then [⟨(start : Int) + 1, .buildPgm, [], 0, 0, none⟩] else []) := by
  have hwrites : ∀ e ∈ numbered (slots.map fun slot ↦ (EventOperation.write, slot)),
      e.operation = .write := by
    intro e he
    have hmem := List.mem_map_of_mem (f := (·.operation)) he
    rw [map_operation_numbered, List.map_map] at hmem
    obtain ⟨slot, -, h⟩ := List.mem_map.mp hmem
    exact h.symm
  have hwrite : Loaded start slots [⟨start, .buildInitial,
      numbered (slots.map fun slot ↦ (.write, slot)), 0,
      (numbered (slots.map fun slot ↦ (EventOperation.write, slot))).length, none⟩] := by
    refine ⟨.singleton rfl (integral_numbered ?_ ?_) rfl, ?_, ?_, by simp⟩
    · exact (List.countP_eq_zero.mpr fun e he ↦ by simp [hwrites e he]).symm
    · exact (List.countP_eq_length.mpr fun e he ↦ by simp [hwrites e he]).symm
    · intro o ho
      obtain rfl := List.mem_singleton.mp ho
      exact hwrites
    · rw [List.flatMap_singleton, map_slotId_numbered, List.map_map]
      exact List.map_id _
  have hpgm : Loaded (start + 1) [] (if hasPgm then
      [⟨(start : Int) + 1, .buildPgm, [], 0, 0, none⟩] else []) := by
    split_ifs
    · exact ⟨.singleton rfl ⟨rfl, rfl, rfl⟩ rfl, by simp, rfl, by simp⟩
    · exact .nil _
  simpa using hwrite.append hpgm

end Loaded

/-- Elements sorted are the sorted list of them. -/
theorem insertionSort_eq {α : Type*} [LinearOrder α] {l l' : List α} (hl : l.Nodup)
    (hl' : l'.Pairwise (· < ·)) (hmem : ∀ a, a ∈ l ↔ a ∈ l') :
    l.insertionSort (· ≤ ·) = l' := by
  have hperm := List.perm_insertionSort (· ≤ ·) l
  have hsorted : SortedBy id (l.insertionSort (· ≤ ·)) :=
    (List.pairwise_insertionSort (· ≤ ·) l).and (hperm.nodup_iff.mpr hl) |>.imp fun h ↦
      lt_of_le_of_ne h.1 h.2
  have hsorted' : SortedBy id l' := hl'
  apply hsorted.ext hsorted'
  intro a
  rw [hperm.mem_iff, hmem]

/-- The slots of the region of a level, if it has one. -/
def SlotProjection.levelSlots (proj : SlotProjection) (level : Int) : List Int :=
  match findKey LevelRegion.level level proj.regions with
  | some r => r.slots
  | none => []

namespace ReferenceIndex.BuiltFrom

variable {p : ReferenceProfile} {levels : LevelMap} {idx : ReferenceIndex} {l : ReferenceLevel}
  (h : idx.BuiltFrom p levels)

include h

theorem nodup_region : (idx.projection.regions.map (·.level)).Nodup := by
  rw [h.tiles.regions, SlotProjection.map_level_regionsFrom]
  exact h.tiles.nodup

theorem levelSlots_eq {r : LevelRegion} (hr : r ∈ idx.projection.regions) :
    idx.projection.levelSlots r.level = r.slots := by
  rw [SlotProjection.levelSlots, (findKey_eq_some h.nodup_region).mpr ⟨hr, rfl⟩]

/-- A region has as many slots as its level has blocks. -/
theorem blockCount_region {r : LevelRegion} (hr : r ∈ idx.projection.regions)
    (hl : l ∈ idx.levels) (hlevel : r.level = l.level) : r.blockCount = l.blockCount := by
  obtain ⟨l', hl', -, hlevel', hcount⟩ := h.mem_regions.mp ⟨r, hr, rfl, rfl⟩
  obtain rfl := List.inj_on_of_nodup_map h.nodup_level hl' hl (hlevel'.trans hlevel)
  exact hcount.symm

theorem blockCount_eq_zero (hl : l ∈ idx.levels) (hempty : l.itemCount = 0) :
    l.blockCount = 0 := by
  obtain ⟨entry, -, hbuilt⟩ := h.exists_entry hl
  have hpos := p.itemsPerBlock_pos
  rw [hbuilt.blockCount, hempty, ReferenceProfile.blockCount]
  exact Nat.div_eq_of_lt (by omega)

theorem levelSlots_of_empty (hl : l ∈ idx.levels) (hempty : l.itemCount = 0) :
    idx.projection.levelSlots l.level = [] := by
  unfold SlotProjection.levelSlots
  cases hfind : findKey LevelRegion.level l.level idx.projection.regions with
  | none => rfl
  | some r =>
    obtain ⟨hr, hlevel⟩ := (findKey_eq_some h.nodup_region).mp hfind
    show intRange r.regionStart r.blockCount = []
    rw [h.blockCount_region hr hl hlevel, h.blockCount_eq_zero hl hempty]
    rfl

theorem sorted_placement (hl : l ∈ idx.levels) :
    l.placement.insertionSort (· ≤ ·) = List.range l.blockCount := by
  obtain ⟨entry, -, hbuilt⟩ := h.exists_entry hl
  have hperm := hbuilt.placement
  rw [← hbuilt.blockCount] at hperm
  exact insertionSort_eq (hperm.nodup_iff.mpr List.nodup_range) List.pairwise_lt_range
    fun _ ↦ hperm.mem_iff

/-- Loading a level writes the slots of its region. -/
theorem loadLevel_eq_ok (hl : l ∈ idx.levels) (operations : List ObservedOperation) :
    ∃ new, idx.loadLevel operations l.level = .ok (operations ++ new) ∧
      Loaded operations.length (idx.projection.levelSlots l.level) new := by
  rw [loadLevel, h.level_eq hl, ok_bind]
  by_cases hempty : l.itemCount = 0
  · rw [if_pos hempty, h.levelSlots_of_empty hl hempty]
    exact ⟨[], by simp, .nil _⟩
  · obtain ⟨r, hr, hlevel, hb⟩ :=
      h.exists_backed hl (h.lt_usedLevels hl (Nat.pos_of_ne_zero hempty))
    have hslots : (l.placement.insertionSort (· ≤ ·)).mapM (idx.projection.slot l.level) =
        .ok ((List.range l.blockCount).map fun offset ↦ ⟨r.regionStart + (offset : Nat)⟩) := by
      rw [h.sorted_placement hl]
      exact mapM_eq_ok fun offset hoffset ↦ hb.slot offset (List.mem_range.mp hoffset)
    have hlevelSlots : idx.projection.levelSlots l.level =
        (List.range l.blockCount).map fun offset : Nat ↦ r.regionStart + (offset : Int) := by
      rw [← hlevel, h.levelSlots_eq hr, LevelRegion.slots, hb.blockCount]
      rfl
    have hloaded := Loaded.level operations.length (idx.projection.levelSlots l.level) l.hasPgm
    rw [if_neg hempty, hslots, ok_bind, List.map_map]
    rw [hlevelSlots] at hloaded ⊢
    rw [List.map_map] at hloaded
    refine ⟨_, ?_, hloaded⟩
    cases l.hasPgm
    · rfl
    · simp [Function.comp_def]

/-- The regions are in ascending order of level. -/
theorem pairwise_region : (idx.projection.regions.map (·.level)).Pairwise (· < ·) := by
  have : Std.Total fun a b : Int × Nat ↦ a.1 ≤ b.1 := ⟨fun a b ↦ le_total a.1 b.1⟩
  have : IsTrans (Int × Nat) fun a b ↦ a.1 ≤ b.1 := ⟨fun _ _ _ ↦ le_trans⟩
  have hle : (idx.projection.regions.map (·.level)).Pairwise (· ≤ ·) := by
    rw [h.tiles.regions, SlotProjection.map_level_regionsFrom]
    exact List.pairwise_map.mpr (List.pairwise_insertionSort _ _)
  exact (hle.and h.nodup_region).imp fun hab ↦ lt_of_le_of_ne hab.1 hab.2

/-- Level by level, the slots of the declared levels are the slots of the projection. -/
theorem flatMap_levelSlots : idx.declared.flatMap idx.projection.levelSlots =
    intRange 0 idx.projection.totalBlocks := by
  have hdeclared : idx.declared.Pairwise (· < ·) := by
    have hperm := List.perm_insertionSort (· ≤ ·) (idx.levels.map (·.level))
    exact (List.pairwise_insertionSort (· ≤ ·) _).and (hperm.nodup_iff.mpr h.nodup_level) |>.imp
      fun hab ↦ lt_of_le_of_ne hab.1 hab.2
  have hfilter : idx.declared.filter (· ∈ idx.projection.regions.map (·.level)) =
      idx.projection.regions.map (·.level) := by
    have hsorted : SortedBy id (idx.declared.filter
      (· ∈ idx.projection.regions.map (·.level))) := hdeclared.filter _
    have hsorted' : SortedBy id (idx.projection.regions.map (·.level)) := h.pairwise_region
    apply hsorted.ext hsorted'
    intro level
    rw [List.mem_filter, decide_eq_true_eq, declared, List.mem_insertionSort]
    refine ⟨And.right, fun hlevel ↦ ⟨?_, hlevel⟩⟩
    obtain ⟨r, hr, rfl⟩ := List.mem_map.mp hlevel
    obtain ⟨l, hl, -, hlevel, -⟩ := h.mem_regions.mp ⟨r, hr, rfl, rfl⟩
    exact hlevel ▸ List.mem_map_of_mem hl
  have hskip : ∀ L : List Int, L.flatMap idx.projection.levelSlots =
      (L.filter (· ∈ idx.projection.regions.map (·.level))).flatMap idx.projection.levelSlots := by
    intro L
    induction L with
    | nil => rfl
    | cons level L ih =>
      rw [List.flatMap_cons, ih]
      by_cases hlevel : level ∈ idx.projection.regions.map (·.level)
      · rw [List.filter_cons_of_pos (by simpa using hlevel), List.flatMap_cons]
      · have hnone : findKey LevelRegion.level level idx.projection.regions = none :=
          findKey_eq_none.mpr hlevel
        rw [List.filter_cons_of_neg (by simpa using hlevel), SlotProjection.levelSlots, hnone]
        rfl
  rw [hskip, hfilter, List.flatMap_map, ← h.base_eq, ← h.tiles.flatMap_slots]
  exact List.flatMap_congr fun r hr ↦ h.levelSlots_eq hr

/-- Loading some of the declared levels writes the slots of their regions. -/
theorem foldlM_loadLevel {L : List Int} (hL : ∀ level ∈ L, level ∈ idx.declared)
    (operations : List ObservedOperation) :
    ∃ new, L.foldlM idx.loadLevel operations = .ok (operations ++ new) ∧
      Loaded operations.length (L.flatMap idx.projection.levelSlots) new := by
  induction L generalizing operations with
  | nil => exact ⟨[], by simp, .nil _⟩
  | cons level L ih =>
    obtain ⟨hlevel, hrest⟩ := List.forall_mem_cons.mp hL
    rw [declared, List.mem_insertionSort] at hlevel
    obtain ⟨l, hl, rfl⟩ := List.mem_map.mp hlevel
    obtain ⟨new, hnew, hloaded⟩ := h.loadLevel_eq_ok hl operations
    obtain ⟨more, hmore, hloaded'⟩ := ih hrest (operations ++ new)
    refine ⟨new ++ more, ?_, ?_⟩
    · rw [List.foldlM_cons, hnew, ok_bind, hmore, List.append_assoc]
    · rw [List.flatMap_cons]
      exact hloaded.append (List.length_append ▸ hloaded')

/-- Items are somewhere: a level that has some has slots. -/
theorem flatMap_levelSlots_ne {entry : Int × List (Int × String)}
    (hentry : entry ∈ levels.entries) (hne : entry.2 ≠ []) :
    idx.declared.flatMap idx.projection.levelSlots ≠ [] := by
  obtain ⟨l, hl, hbuilt⟩ := h.exists_level hentry
  have hcount : 0 < l.itemCount := by
    rw [ReferenceLevel.itemCount, hbuilt.keys, List.length_map,
      (perm_sortedItems entry.2).length_eq]
    exact List.length_pos_of_ne_nil hne
  obtain ⟨r, hr, hlevel, -⟩ := h.exists_backed hl (h.lt_usedLevels hl hcount)
  have hdeclared : r.level ∈ idx.declared := by
    rw [declared, List.mem_insertionSort, hlevel]
    exact List.mem_map_of_mem hl
  intro hnil
  have hslots := List.flatMap_eq_nil_iff.mp hnil _ hdeclared
  have hlength := congrArg List.length (h.levelSlots_eq hr)
  rw [hslots, List.length_nil, LevelRegion.slots, intRange, List.length_map, List.length_range,
    h.blockCount_region hr hl hlevel] at hlength
  exact (Nat.zero_lt_of_lt (hbuilt.div_lt hcount)).ne hlength

end ReferenceIndex.BuiltFrom

namespace ReferenceTraceBuilder

variable {p : ReferenceProfile} {levels : LevelMap} {b : ReferenceTraceBuilder}

/-- Loading writes every slot of the projection once, in ascending order. -/
theorem load_spec (h : b.index.BuiltFrom p levels) (hloaded : b.loaded = false) :
    ∃ new, b.load = .ok { b with operations := b.operations ++ new, loaded := true } ∧
      Loaded b.operations.length (intRange 0 b.index.projection.totalBlocks) new := by
  obtain ⟨new, hnew, hspec⟩ := h.foldlM_loadLevel (fun _ ↦ id) b.operations
  rw [h.flatMap_levelSlots] at hspec
  exact ⟨new, by rw [load, require_of hloaded, ok_bind, hnew]; rfl, hspec⟩

/-- A query is recorded by one operation, which has the events of the query. -/
theorem runQuery_eq_ok {key : Int} {out : ReferenceQueryOutcome}
    (hquery : b.index.query key = .ok out) : b.runQuery key = .ok { b with
      outcomes := b.outcomes ++ [out]
      operations := b.operations ++ [queryOperation b.operations.length out] } := by
  rw [runQuery, hquery]
  rfl

/-- The operations of some queries, from an index on. -/
def queryOperations : Nat → List ReferenceQueryOutcome → List ObservedOperation
  | _, [] => []
  | start, out :: outs => queryOperation start out :: queryOperations (start + 1) outs

theorem recorded_queryOperations (start : Nat) (outs : List ReferenceQueryOutcome) :
    Recorded start (queryOperations start outs) := by
  induction outs generalizing start with
  | nil => exact .nil start
  | cons out outs ih =>
    have hsingle : Recorded start [queryOperation start out] :=
      .singleton rfl (integral_numbered rfl rfl) rfl
    exact hsingle.append (ih (start + 1))

theorem class_queryOperations {start : Nat} {outs : List ReferenceQueryOutcome} :
    ∀ o ∈ queryOperations start outs, o.operationClass = .query := by
  induction outs generalizing start with
  | nil => simp [queryOperations]
  | cons out outs ih => exact List.forall_mem_cons.mpr ⟨rfl, ih⟩

/-- The queries of a run are recorded one after the other. -/
theorem foldlM_runQuery (h : b.index.BuiltFrom p levels) (keys : List Int) :
    ∃ outs, List.Forall₂ (fun key out ↦ b.index.query key = .ok out) keys outs ∧
      keys.foldlM runQuery b = .ok { b with
        outcomes := b.outcomes ++ outs
        operations := b.operations ++ queryOperations b.operations.length outs } := by
  induction keys generalizing b with
  | nil => exact ⟨[], .nil, by simp [queryOperations]⟩
  | cons key keys ih =>
    obtain ⟨-, -, -, out, -, hquery, -⟩ := h.query_spec key
    have hrun := runQuery_eq_ok hquery
    obtain ⟨outs, houts, hfold⟩ := ih (b := { b with
      outcomes := b.outcomes ++ [out]
      operations := b.operations ++ [queryOperation b.operations.length out] }) h
    refine ⟨out :: outs, .cons hquery houts, ?_⟩
    rw [List.foldlM_cons, hrun, ok_bind, hfold]
    simp [queryOperations]

/-- A run of an experiment whose index is built loads the levels and answers the queries. -/
theorem run_spec {shuffle : Shuffle} {e : ReferenceExperiment} {idx : ReferenceIndex}
    (hbuild : ReferenceIndex.build e.profile shuffle e.levelMap = .ok idx) :
    ∃ new outs, idx.declared.foldlM idx.loadLevel [] = .ok new ∧
      Loaded 0 (intRange 0 idx.projection.totalBlocks) new ∧
      List.Forall₂ (fun key out ↦ idx.query key = .ok out) e.queryKeys outs ∧
      e.run shuffle = .ok
        { experiment := e
          index := idx
          operations := new ++ queryOperations new.length outs
          outcomes := outs
          loaded := true } := by
  have h := ReferenceIndex.build_eq_ok hbuild
  obtain ⟨new, hnew, hloaded⟩ := h.foldlM_loadLevel (fun _ ↦ id) []
  rw [h.flatMap_levelSlots] at hloaded
  obtain ⟨outs, houts, hfold⟩ := foldlM_runQuery (b :=
    { experiment := e, index := idx, operations := new, loaded := true }) h e.queryKeys
  refine ⟨new, outs, hnew, hloaded, houts, ?_⟩
  have hload : ({ experiment := e, index := idx } : ReferenceTraceBuilder).load =
      .ok { experiment := e, index := idx, operations := new, loaded := true } := by
    rw [load, require_of rfl, ok_bind, hnew]
    rfl
  rw [ReferenceExperiment.run, ofExperiment, hbuild, ok_bind, pure_eq_ok, ok_bind, hload, ok_bind,
    runQueries, ensureLoaded, if_pos rfl, pure_eq_ok, ok_bind, hfold]
  rfl

end ReferenceTraceBuilder

end EnhancedLetIndex
