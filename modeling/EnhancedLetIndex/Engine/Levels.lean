import EnhancedLetIndex.Engine.Runs
import EnhancedLetIndex.Pgm.Search

/-!
# Reading a level

`Holds e l blks` says that `l` is an active level of `e` whose blocks, read in level order,
are `blks`, and `CanonicalBlocks` that they are packed and increasing.  The two loops that
read a whole level, the one of `build_level_pgm` and the one of `_read_level_records`, succeed
exactly on increasing and on canonical levels, and their only effect is one read for each
block.
-/

namespace EnhancedLetIndex

variable {V : Type}

/-! ## Increasing keys -/

/-- The keys increase, and go on from a previous one. -/
def Increasing (previous : Option RecordKey) (keys : List RecordKey) : Prop :=
  (previous.toList ++ keys).IsChain (· < ·)

theorem increasing_none {keys : List RecordKey} :
    Increasing none keys ↔ keys.Pairwise (· < ·) := by
  rw [Increasing, Option.toList_none, List.nil_append, List.isChain_iff_pairwise]

theorem increasing_nil (previous : Option RecordKey) : Increasing previous [] := by
  cases previous <;> simp [Increasing]

theorem increasing_cons {previous : Option RecordKey} {key : RecordKey} {keys : List RecordKey} :
    Increasing previous (key :: keys) ↔
      (∀ p, previous = some p → p < key) ∧ Increasing (some key) keys := by
  cases previous with
  | none => simp [Increasing]
  | some p => simp [Increasing, List.isChain_cons_cons]

theorem increasing_append {previous : Option RecordKey} {xs ys : List RecordKey} :
    Increasing previous (xs ++ ys) ↔
      Increasing previous xs ∧ Increasing (xs.getLast?.or previous) ys := by
  induction xs generalizing previous with
  | nil => simp [increasing_nil]
  | cons x xs ih =>
    have hlast : (x :: xs).getLast?.or previous = xs.getLast?.or (some x) := by
      rw [List.getLast?_cons]
      cases xs.getLast? <;> rfl
    rw [List.cons_append, increasing_cons, increasing_cons, ih, hlast, and_assoc]

namespace Engine

variable {e : Engine V} {l : LevelId}

/-- The check of `build_level_pgm` on one block. -/
theorem increasingKeys_eq_ok {previous : Option RecordKey} {records : List (Record V)}
    {keys : List RecordKey} :
    increasingKeys l previous records = .ok keys ↔
      keys = records.map (·.key) ∧ Increasing previous (records.map (·.key)) := by
  induction records generalizing previous keys with
  | nil => simp [increasingKeys, increasing_nil, eq_comm]
  | cons r rs ih =>
    by_cases hlt : ∀ p, previous = some p → p < r.key
    · have hstep : increasingKeys l previous (r :: rs) =
          increasingKeys l (some r.key) rs >>= fun keys ↦ .ok (r.key :: keys) := by
        cases previous with
        | none => rfl
        | some p =>
          simp only [increasingKeys, if_neg (not_le.mpr (hlt p rfl))]
          rfl
      rw [hstep, bind_eq_ok, List.map_cons, increasing_cons]
      constructor
      · rintro ⟨ks, hks, hkeys⟩
        obtain ⟨rfl, hinc⟩ := ih.mp hks
        cases hkeys
        exact ⟨rfl, hlt, hinc⟩
      · rintro ⟨rfl, -, hinc⟩
        exact ⟨_, ih.mpr ⟨rfl, hinc⟩, rfl⟩
    · refine iff_of_false ?_ fun h ↦ hlt (increasing_cons.mp h.2).1
      push Not at hlt
      obtain ⟨p, rfl, hge⟩ := hlt
      simp only [increasingKeys, if_pos hge]
      simp

/-- The key check of `_read_level_records` on one block. -/
theorem checkInputKeys_eq_ok {role : String} {previous next : Option RecordKey}
    {records : List (Record V)} :
    checkInputKeys role l previous records = .ok next ↔
      next = (records.map (·.key)).getLast?.or previous ∧
        Increasing previous (records.map (·.key)) := by
  induction records generalizing previous with
  | nil => simp [checkInputKeys, increasing_nil, eq_comm]
  | cons r rs ih =>
    have hlast : ((r :: rs).map (·.key)).getLast?.or previous =
        (rs.map (·.key)).getLast?.or (some r.key) := by
      rw [List.map_cons, List.getLast?_cons]
      cases (rs.map (·.key)).getLast? <;> rfl
    rw [hlast, List.map_cons, increasing_cons]
    cases previous with
    | none => simp [checkInputKeys, ih]
    | some p =>
      rw [checkInputKeys]
      split_ifs with hle
      · refine iff_of_false (by simp) fun h ↦ ?_
        exact absurd (h.2.1 p rfl) (not_lt.mpr hle)
      · rw [ih]
        simp [not_le.mp hle]

/-! ## The blocks of a level -/

/-- Reading the blocks `ids` returns `blks`. -/
def ReadAs (e : Engine V) (ids : List BlockId) (blks : List (Block V)) : Prop :=
  List.Forall₂ (fun b blk ↦ e.blockAt b = some blk) ids blks

theorem ReadAs.unique {ids : List BlockId} {blks blks' : List (Block V)}
    (h : e.ReadAs ids blks) (h' : e.ReadAs ids blks') : blks = blks' := by
  induction h generalizing blks' with
  | nil => cases h'; rfl
  | cons hb _ ih =>
    cases h' with
    | cons hb' h' => rw [Option.some.inj (hb.symm.trans hb'), ih h']

/-- States in which the blocks read the same. -/
theorem ReadAs.congr {e' : Engine V} {ids : List BlockId} {blks : List (Block V)}
    (h : e.ReadAs ids blks) (heq : ∀ b ∈ ids, e'.blockAt b = e.blockAt b) :
    e'.ReadAs ids blks := by
  induction h with
  | nil => exact List.Forall₂.nil
  | cons hb _ ih =>
    exact List.Forall₂.cons ((heq _ List.mem_cons_self).trans hb)
      (ih fun b hb ↦ heq b (List.mem_cons_of_mem _ hb))

theorem ReadAs.mapped {ids : List BlockId} {blks : List (Block V)} (h : e.ReadAs ids blks) :
    ∀ b ∈ ids, b ∈ e.mapping.logicalToPhysical := by
  induction h with
  | nil => exact fun b hb ↦ absurd hb List.not_mem_nil
  | cons hblk _ ih =>
    intro b hb
    rcases List.mem_cons.mp hb with rfl | hb
    · obtain ⟨s, hs, -⟩ := blockAt_eq_some.mp hblk
      exact Finmap.mem_of_lookup_eq_some hs
    · exact ih b hb

/-- A block that is read is stored in some slot. -/
theorem ReadAs.stored {ids : List BlockId} {blks : List (Block V)} (h : e.ReadAs ids blks) :
    ∀ blk ∈ blks, ∃ s, e.storage.slots.lookup s = some blk := by
  induction h with
  | nil => exact fun blk hblk ↦ absurd hblk List.not_mem_nil
  | cons hat _ ih =>
    refine List.forall_mem_cons.mpr ⟨?_, ih⟩
    obtain ⟨s, -, hs⟩ := blockAt_eq_some.mp hat
    exact ⟨s, hs⟩

/-- The records of some blocks, in order. -/
def blockRecords (blks : List (Block V)) : List (Record V) :=
  (blks.map (·.records)).flatten

@[simp] theorem blockRecords_nil : blockRecords ([] : List (Block V)) = [] := rfl

@[simp] theorem blockRecords_cons (blk : Block V) (blks : List (Block V)) :
    blockRecords (blk :: blks) = blk.records ++ blockRecords blks := rfl

/-- The slots of some blocks, in order. -/
def slotsOf (e : Engine V) (ids : List BlockId) : List SlotId :=
  ids.filterMap e.mapping.logicalToPhysical.lookup

/-- The active level `l` holds the blocks `blks`. -/
structure Holds (e : Engine V) (l : LevelId) (blks : List (Block V)) : Prop where
  not_retired : l ∉ e.retiredLevelIds
  level : ∃ L, e.levels.lookup l = some L ∧ e.ReadAs L.blockIds blks

theorem Holds.readAs {blks : List (Block V)} (h : e.Holds l blks) {L : Level}
    (hL : e.levels.lookup l = some L) : e.ReadAs L.blockIds blks := by
  obtain ⟨L', hL', hread⟩ := h.level
  cases hL'.symm.trans hL
  exact hread

/-- Every block has the capacity, all are full but the last one, which is not empty, and the
keys increase from the first record to the last. -/
structure CanonicalBlocks (c : Nat) (blks : List (Block V)) : Prop where
  capacity : ∀ blk ∈ blks, blk.capacity = c
  packed : Packed c (blks.map (·.records))
  sorted : SortedBy (·.key) (blockRecords blks)

theorem Consistent.length_le (h : e.Consistent) {ids : List BlockId} {blks : List (Block V)}
    (hread : e.ReadAs ids blks) : ∀ blk ∈ blks, blk.records.length ≤ e.config.blockCapacity := by
  intro blk hblk
  obtain ⟨s, hs⟩ := hread.stored blk hblk
  rw [← h.sized s blk hs]
  exact blk.valid.size_le

/-! ## The loop of `build_level_pgm` -/

theorem slotsOf_cons {b : BlockId} {ids : List BlockId} {s : SlotId}
    (h : e.mapping.logicalToPhysical.lookup b = some s) :
    e.slotsOf (b :: ids) = s :: e.slotsOf ids := by simp [slotsOf, h]

theorem afterReads_slotsOf (e : Engine V) (xs : List SlotId) (ids : List BlockId) :
    (e.afterReads xs).slotsOf ids = e.slotsOf ids := rfl

theorem afterReads_readAs {xs : List SlotId} {ids : List BlockId} {blks : List (Block V)} :
    (e.afterReads xs).ReadAs ids blks ↔ e.ReadAs ids blks := by
  simp only [ReadAs, afterReads_blockAt]

/-- The loop succeeds exactly when all blocks can be read and the keys increase. -/
theorem pgmKeys_eq_ok {previous : Option RecordKey} {ids : List BlockId}
    {keys : List RecordKey} {e' : Engine V} :
    (pgmKeys l previous ids).run e = .ok keys e' ↔
      ∃ blks, e.ReadAs ids blks ∧ Increasing previous ((blockRecords blks).map (·.key)) ∧
        keys = (blockRecords blks).map (·.key) ∧ e' = e.afterReads (e.slotsOf ids) := by
  induction ids generalizing e previous keys e' with
  | nil =>
    simp only [pgmKeys, EStateM.run_pure, EStateM.Result.ok.injEq]
    constructor
    · rintro ⟨rfl, rfl⟩
      exact ⟨[], List.Forall₂.nil, increasing_nil _, rfl, rfl⟩
    · rintro ⟨blks, hread, -, rfl, rfl⟩
      cases hread
      exact ⟨rfl, rfl⟩
  | cons b ids ih =>
    rw [pgmKeys, run_bind_eq_ok]
    constructor
    · rintro ⟨blk, e₁, hblk, hrest⟩
      obtain ⟨hat, s, hs, rfl⟩ := readBlock_eq_ok hblk
      cases hinc : increasingKeys l previous blk.records with
      | error err => rw [hinc] at hrest; cases hrest
      | ok ks =>
        rw [hinc, run_bind_of_ok (run_liftExcept_ok _ _ _), run_bind_eq_ok] at hrest
        obtain ⟨rfl, hfirst⟩ := increasingKeys_eq_ok.mp hinc
        obtain ⟨later, e₂, hlater, hpure⟩ := hrest
        obtain ⟨blks, hread, hafter, rfl, rfl⟩ := ih.mp hlater
        cases hpure
        refine ⟨blk :: blks, List.Forall₂.cons hat (afterReads_readAs.mp hread), ?_, ?_, ?_⟩
        · rw [blockRecords_cons, List.map_append, increasing_append]
          exact ⟨hfirst, hafter⟩
        · simp
        · rw [afterReads_slotsOf, afterReads_append, slotsOf_cons hs]
          rfl
    · rintro ⟨blks, hread, hinc, rfl, rfl⟩
      cases hread with
      | @cons _ blk _ blks hat hread =>
      obtain ⟨s, hs, hslot⟩ := blockAt_eq_some.mp hat
      rw [blockRecords_cons, List.map_append, increasing_append] at hinc
      refine ⟨blk, _, run_readBlock hs hslot, ?_⟩
      rw [increasingKeys_eq_ok.mpr ⟨rfl, hinc.1⟩, run_bind_of_ok (run_liftExcept_ok _ _ _),
        run_bind_of_ok (ih.mpr ⟨blks, afterReads_readAs.mpr hread, hinc.2, rfl, rfl⟩),
        afterReads_slotsOf, afterReads_append, slotsOf_cons hs, blockRecords_cons, List.map_append]
      rfl

/-! ## The loop of `_read_level_records` -/

/-- The checks of `_read_level_records` on one block. -/
theorem checkInputBlock_eq_ok {role : String} {b : BlockId} {isLast : Bool} {capacity : Nat}
    {blk : Block V} :
    checkInputBlock role l b isLast capacity blk = .ok () ↔
      blk.capacity = capacity ∧ (isLast = false → blk.records.length = capacity) ∧
        (isLast = true → 1 ≤ blk.records.length ∧ blk.records.length ≤ capacity) := by
  have hsize : blk.records.length ≤ blk.capacity := blk.valid.size_le
  have hpos : 0 < blk.capacity := blk.valid.capacity_pos
  unfold checkInputBlock RawBlock.isEmpty RawBlock.isFull RawBlock.size
  cases hrecs : blk.records with
  | nil =>
    rw [hrecs] at hsize
    cases isLast <;> simp
    omega
  | cons r rs =>
    rw [hrecs] at hsize
    simp only [List.length_cons] at hsize
    cases isLast <;> simp <;> split_ifs <;> simp <;> omega

/-- The loop succeeds exactly when all blocks can be read and are packed, and the keys
increase. -/
theorem readInputBlocks_eq_ok {role : String} {c : Nat} {previous : Option RecordKey}
    {ids : List BlockId} {rs : List (Record V)} {e' : Engine V} :
    (readInputBlocks role l c previous ids).run e = .ok rs e' ↔
      ∃ blks, e.ReadAs ids blks ∧ (∀ blk ∈ blks, blk.capacity = c) ∧
        Packed c (blks.map (·.records)) ∧ Increasing previous ((blockRecords blks).map (·.key)) ∧
        rs = blockRecords blks ∧ e' = e.afterReads (e.slotsOf ids) := by
  induction ids generalizing e previous rs e' with
  | nil =>
    simp only [readInputBlocks, EStateM.run_pure, EStateM.Result.ok.injEq]
    constructor
    · rintro ⟨rfl, rfl⟩
      exact ⟨[], List.Forall₂.nil, by simp, trivial, increasing_nil _, rfl, rfl⟩
    · rintro ⟨blks, hread, -, -, -, rfl, rfl⟩
      cases hread
      exact ⟨rfl, rfl⟩
  | cons b ids ih =>
    rw [readInputBlocks, run_bind_eq_ok]
    constructor
    · rintro ⟨blk, e₁, hblk, hrest⟩
      obtain ⟨hat, s, hs, rfl⟩ := readBlock_eq_ok hblk
      cases hcheck : checkInputBlock role l b ids.isEmpty c blk with
      | error err => rw [hcheck] at hrest; cases hrest
      | ok u =>
      cases hkeys : checkInputKeys role l previous blk.records with
      | error err => rw [hcheck, hkeys] at hrest; cases hrest
      | ok next =>
      rw [hcheck, run_bind_of_ok (run_liftExcept_ok _ _ _), hkeys,
        run_bind_of_ok (run_liftExcept_ok _ _ _), run_bind_eq_ok] at hrest
      obtain ⟨later, e₂, hlater, hpure⟩ := hrest
      obtain ⟨hcap, hfull, hlast⟩ := checkInputBlock_eq_ok.mp hcheck
      obtain ⟨rfl, hfirst⟩ := checkInputKeys_eq_ok.mp hkeys
      obtain ⟨blks, hread, hcaps, hpacked, hafter, rfl, rfl⟩ := ih.mp hlater
      cases hpure
      refine ⟨blk :: blks, List.Forall₂.cons hat (afterReads_readAs.mp hread), ?_, ?_, ?_, rfl,
        ?_⟩
      · exact List.forall_mem_cons.mpr ⟨hcap, hcaps⟩
      · cases hread with
        | nil => exact hlast rfl
        | cons => exact ⟨hfull rfl, hpacked⟩
      · rw [blockRecords_cons, List.map_append, increasing_append]
        exact ⟨hfirst, hafter⟩
      · rw [afterReads_slotsOf, afterReads_append, slotsOf_cons hs]
        rfl
    · rintro ⟨blks, hread, hcaps, hpacked, hinc, rfl, rfl⟩
      cases hread with
      | @cons _ blk _ blks hat hread =>
      obtain ⟨s, hs, hslot⟩ := blockAt_eq_some.mp hat
      rw [blockRecords_cons, List.map_append, increasing_append] at hinc
      have hcheck : checkInputBlock role l b ids.isEmpty c blk = .ok () := by
        refine checkInputBlock_eq_ok.mpr ⟨hcaps _ List.mem_cons_self, ?_⟩
        cases hread with
        | nil => exact ⟨by simp, fun _ ↦ hpacked⟩
        | cons => exact ⟨fun _ ↦ hpacked.1, by simp⟩
      refine ⟨blk, _, run_readBlock hs hslot, ?_⟩
      rw [hcheck, run_bind_of_ok (run_liftExcept_ok _ _ _),
        checkInputKeys_eq_ok.mpr ⟨rfl, hinc.1⟩, run_bind_of_ok (run_liftExcept_ok _ _ _),
        run_bind_of_ok (ih.mpr ⟨blks, afterReads_readAs.mpr hread,
          fun blk hblk ↦ hcaps blk (List.mem_cons_of_mem _ hblk), hpacked.tail, hinc.2, rfl, rfl⟩),
        afterReads_slotsOf, afterReads_append, slotsOf_cons hs]
      rfl

theorem sortedBy_iff_increasing {rs : List (Record V)} :
    SortedBy (·.key) rs ↔ Increasing none (rs.map (·.key)) := by
  rw [increasing_none]
  exact ⟨fun h ↦ h.map_keys, SortedBy.of_map_keys⟩

/-- `_read_level_records` succeeds exactly on canonical levels. -/
theorem readLevelRecords_eq_ok {L : Level} {role : String} {rs : List (Record V)}
    {e' : Engine V} :
    (readLevelRecords L role).run e = .ok rs e' ↔
      ∃ blks, e.ReadAs L.blockIds blks ∧ CanonicalBlocks e.config.blockCapacity blks ∧
        rs = blockRecords blks ∧ e' = e.afterReads (e.slotsOf L.blockIds) := by
  have hstart : (readLevelRecords L role).run e =
      (readInputBlocks role L.levelId e.config.blockCapacity none L.blockIds).run e := rfl
  rw [hstart, readInputBlocks_eq_ok]
  constructor
  · rintro ⟨blks, hread, hcap, hpacked, hinc, hrs, he'⟩
    exact ⟨blks, hread, ⟨hcap, hpacked, sortedBy_iff_increasing.mpr hinc⟩, hrs, he'⟩
  · rintro ⟨blks, hread, hcanon, hrs, he'⟩
    exact ⟨blks, hread, hcanon.capacity, hcanon.packed,
      sortedBy_iff_increasing.mp hcanon.sorted, hrs, he'⟩

/-! ## The PGM of a level -/

/-- `build_level_pgm` succeeds exactly when epsilon is configured and the keys of the level
increase; the result is the index of these keys. -/
theorem buildLevelPgm_eq_ok {index : BatchPgmIndex} {e' : Engine V} :
    (buildLevelPgm l).run e = .ok index e' ↔
      ∃ ε L blks, e.config.pgmEpsilon = some ε ∧ l ∉ e.retiredLevelIds ∧
        e.levels.lookup l = some L ∧ e.ReadAs L.blockIds blks ∧
        buildBatchPgm ((blockRecords blks).map (·.key)) ε = .ok index ∧
        e' = (e.afterReads (e.slotsOf L.blockIds)).setPgm l index := by
  constructor
  · intro h
    obtain ⟨ε, L, keys, e₁, index', hε, hret, hL, hkeys, -, hindex, hrun⟩ | ⟨err, e₁, hrun, -⟩ :=
      buildLevelPgm_cases l e
    · rw [hrun] at h
      cases h
      obtain ⟨blks, hread, -, rfl, rfl⟩ := pgmKeys_eq_ok.mp hkeys
      exact ⟨ε, L, blks, hε, hret, hL, hread, hindex, rfl⟩
    · rw [hrun] at h
      cases h
  · rintro ⟨ε, L, blks, hε, hret, hL, hread, hindex, rfl⟩
    have hsorted := increasing_none.mpr (builtOn_of_buildBatchPgm hindex).sorted
    have hkeys := (pgmKeys_eq_ok (l := l)).mpr ⟨blks, hread, hsorted, rfl, rfl⟩
    have hstart : (buildLevelPgm l).run e = (do
        let l' ← level l
        let keys ← pgmKeys l none l'.blockIds
        let index ← liftExcept .pgm (buildBatchPgm keys ε)
        modify fun e ↦ { e with pgmIndexes := e.pgmIndexes.insert l index }
        pure index : EngineM V BatchPgmIndex).run e := by
      simp only [buildLevelPgm, EStateM.run_bind, EStateM.run_get, hε]
    rw [hstart, run_bind_of_ok (run_level hL hret), run_bind_of_ok hkeys, hindex]
    rfl

end Engine

end EnhancedLetIndex
