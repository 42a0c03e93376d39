import EnhancedLetIndex.Basic.Halving
import EnhancedLetIndex.Reference.Index
import EnhancedLetIndex.Transcript.Schema

/-!
# The buffers of one level lookup

`_LevelSearcher` of `letindex_ref.py`: the buffer of the current block, the neighbours the first
probe may prefetch, and the log of the reads.  `obtain` is a keyword of Lean, so the three ways
to obtain an item keep the rest of their names.  Every read is of a slot of the level's own
region (`ReadsIn`), and once the blocks of a range of items are buffered the range is read no
more (`Buffered`).
-/

namespace EnhancedLetIndex

/-- `_LevelSearcher`, without the level and the projection it is opened on. -/
structure LevelSearcher where
  currentBlock : Option Nat := none
  cacheLeft : Option Nat := none
  cacheRight : Option Nat := none
  events : List (EventOperation × Int) := []
  probes : List Nat := []
  fetchedBlocks : List Nat := []
  prefetchCounts : List Nat := []
deriving DecidableEq, Repr

/-- A program of a level lookup. -/
abbrev SearchM := EStateM ReferenceError LevelSearcher

namespace LevelSearcher

variable (l : ReferenceLevel) (proj : SlotProjection)

/-! ## Accessing -/

/-- `_physical`. -/
def physical (position : Nat) : SearchM Nat :=
  liftExcept id (l.physicalBlock (position / l.itemsPerBlock))

/-- `_read`. -/
def read (physical : Nat) : SearchM Unit := do
  let slot ← liftExcept id (proj.slot l.level physical)
  modify fun s ↦ { s with
    events := s.events ++ [(.read, slot.value)]
    fetchedBlocks := s.fetchedBlocks ++ [physical] }

/-- `_read_run`: the blocks in ascending order, each once. -/
def readRun (blocks : List Nat) : SearchM Unit :=
  (blocks.dedup.insertionSort (· ≤ ·)).forM (read l proj)

/-- `_key`. -/
def key (position : Nat) : SearchM RecordKey := liftExcept id (l.keyAt position)

/-- A read that becomes the current block. -/
def fetch (physical : Nat) : SearchM Unit := do
  read l proj physical
  modify fun s ↦ { s with currentBlock := some physical }

/-- `_obtain_plain`. -/
def plain (position : Nat) : SearchM RecordKey := do
  let physical ← physical l position
  let s ← get
  if s.currentBlock = some physical then key l position
  else do
    fetch l proj physical
    key l position

/-- `_obtain_or_cache`. -/
def orCache (position : Nat) : SearchM RecordKey := do
  let physical ← physical l position
  let s ← get
  if s.currentBlock = some physical then key l position
  else if s.cacheLeft = some physical ∨ s.cacheRight = some physical then key l position
  else do
    fetch l proj physical
    key l position

/-- The block beside `mid`, if the level has it. -/
def neighbour (mid : Nat) (offset : Int) : Option Nat :=
  if 0 ≤ mid + offset ∧ mid + offset < l.blockCount then some (mid + offset).toNat else none

/-- `_obtain_and_save`: the logical blocks of the window decide which physical neighbours of the
probed block are read with it. -/
def andSave (position first last : Nat) : SearchM RecordKey := do
  let midLogical := position / l.itemsPerBlock
  let mid ← liftExcept id (l.physicalBlock midLogical)
  let left := if first / l.itemsPerBlock < midLogical then neighbour l mid (-1) else none
  let right := if last / l.itemsPerBlock > midLogical then neighbour l mid 1 else none
  let blocks := mid :: (left.toList ++ right.toList)
  readRun l proj blocks
  modify fun s ↦ { s with
    currentBlock := some mid
    cacheLeft := left
    cacheRight := right
    prefetchCounts := s.prefetchCounts ++ [blocks.dedup.length] }
  key l position

/-! ## Searches -/

/-- A probe of a search, noted in `probes`. -/
def probe (obtain' : Nat → SearchM RecordKey) (position : Nat) : SearchM RecordKey := do
  modify fun s ↦ { s with probes := s.probes ++ [position] }
  obtain' position

/-- Whether a stored key is below the query. -/
def below (query : Int) (key : RecordKey) : Bool := key.value < query

/-- The end of both searches: the last probe, and the access to the item found. -/
def conclude (obtain' : Nat → SearchM RecordKey) (query : Int) (first : Nat) : SearchM Nat := do
  let pos ← settle (below query) (probe obtain') first
  if pos ≠ l.itemCount then do
    let _ ← obtain' pos
    pure pos
  else pure pos

/-- The first probe of a bounded search, which prefetches: the candidates it leaves. -/
def firstProbe (first last : Nat) (query : Int) : SearchM (Nat × Nat) :=
  let n := last - first
  if n > 1 then do
    let x ← probe (fun position ↦ andSave l proj position first last) (first + n / 2)
    pure (if below query x then first + n / 2 else first, n - n / 2)
  else pure (first, n)

/-- `lower_bound_pgm_bounded`. -/
def lowerBoundPgmBounded (first last : Nat) (query : Int) : SearchM Nat :=
  if first = last then pure first
  else do
    let (first, n) ← firstProbe l proj first last query
    let first ← halve (below query) (probe (orCache l proj)) n first n
    conclude l (orCache l proj) query first

/-- `lower_bound_full_level`. -/
def lowerBoundFullLevel (query : Int) : SearchM Nat :=
  if 0 = l.itemCount then pure 0
  else do
    let first ← halve (below query) (probe (plain l proj)) l.itemCount 0 l.itemCount
    conclude l (plain l proj) query first

end LevelSearcher

/-! ## Where the reads go -/

/-- The blocks of a level are the slots of a region. -/
structure ReferenceLevel.Backed (l : ReferenceLevel) (proj : SlotProjection) (r : LevelRegion) :
    Prop where
  blockCount : r.blockCount = l.blockCount
  slot : ∀ offset < l.blockCount, proj.slot l.level offset = .ok ⟨r.regionStart + offset⟩

namespace LevelSearcher

/-- Every event is a read of the region. -/
def ReadsIn (r : LevelRegion) (s : LevelSearcher) : Prop :=
  ∀ e ∈ s.events, e.1 = .read ∧ r.Contains e.2

variable {l : ReferenceLevel} {proj : SlotProjection} {r : LevelRegion} {p : ReferenceProfile}
  {entry : Int × List (Int × String)} {I : LevelSearcher → Prop}

theorem run_read (hb : l.Backed proj r) {physical : Nat} (hp : physical < l.blockCount)
    (s : LevelSearcher) : (read l proj physical).run s = .ok () { s with
      events := s.events ++ [(.read, r.regionStart + physical)]
      fetchedBlocks := s.fetchedBlocks ++ [physical] } := by
  have hslot : (liftExcept id (proj.slot l.level physical) : SearchM SlotId).run s =
      .ok ⟨r.regionStart + physical⟩ s := by rw [hb.slot physical hp]; rfl
  rw [read, run_bind_of_ok hslot]
  rfl

theorem keeps_read (hb : l.Backed proj r) {physical : Nat} (hp : physical < l.blockCount) :
    Keeps (ReadsIn r) (read l proj physical) () := by
  intro s hs
  refine ⟨_, run_read hb hp s, fun e he ↦ ?_⟩
  rcases List.mem_append.mp he with he | he
  · exact hs e he
  · rw [List.mem_singleton.mp he]
    exact ⟨rfl, LevelRegion.contains_add (hb.blockCount ▸ hp)⟩

/-- A run reads its blocks in ascending order, each once. -/
theorem run_readRun (hb : l.Backed proj r) (blocks : List Nat)
    (hp : ∀ physical ∈ blocks, physical < l.blockCount) (s : LevelSearcher) :
    ∃ fetched, (readRun l proj blocks).run s = .ok () { s with
      events := s.events ++ (blocks.dedup.insertionSort (· ≤ ·)).map fun physical : Nat ↦
        (EventOperation.read, r.regionStart + (physical : Int))
      fetchedBlocks := fetched } := by
  have hmem : ∀ physical ∈ blocks.dedup.insertionSort (· ≤ ·), physical < l.blockCount :=
    fun physical hphysical ↦
      hp physical (List.mem_dedup.mp ((List.mem_insertionSort _).mp hphysical))
  unfold readRun
  generalize blocks.dedup.insertionSort (· ≤ ·) = blocks at hmem
  induction blocks generalizing s with
  | nil => exact ⟨s.fetchedBlocks, by simp [List.forM]⟩
  | cons physical blocks ih =>
    obtain ⟨fetched, hrun⟩ := ih { s with
      events := s.events ++ [(.read, r.regionStart + physical)]
      fetchedBlocks := s.fetchedBlocks ++ [physical] }
      fun q hq ↦ hmem q (List.mem_cons_of_mem _ hq)
    refine ⟨fetched, ?_⟩
    show (read l proj physical >>= fun _ ↦ blocks.forM (read l proj)).run s = _
    rw [run_bind_of_ok (run_read hb (hmem _ List.mem_cons_self) s), hrun, List.map_cons,
      List.append_assoc]
    rfl

theorem keeps_readRun (hb : l.Backed proj r) {blocks : List Nat}
    (hp : ∀ physical ∈ blocks, physical < l.blockCount) :
    Keeps (ReadsIn r) (readRun l proj blocks) () := by
  intro s hs
  obtain ⟨fetched, hrun⟩ := run_readRun hb blocks hp s
  refine ⟨_, hrun, fun e he ↦ ?_⟩
  rcases List.mem_append.mp he with he | he
  · exact hs e he
  · obtain ⟨physical, hphysical, rfl⟩ := List.mem_map.mp he
    have hmem := List.mem_dedup.mp ((List.mem_insertionSort _).mp hphysical)
    exact ⟨rfl, LevelRegion.contains_add (hb.blockCount ▸ hp physical hmem)⟩

theorem keyAt_eq {position : Nat} (h : position < l.keys.length) :
    l.keyAt position = .ok (l.keys.get ⟨position, h⟩) := by
  rw [ReferenceLevel.keyAt, List.getElem?_eq_getElem h]
  rfl

theorem run_key {position : Nat} (h : position < l.keys.length) (s : LevelSearcher) :
    (key l position).run s = .ok (l.keys.get ⟨position, h⟩) s := by
  rw [key, keyAt_eq h]
  rfl

theorem keeps_key {position : Nat} (h : position < l.keys.length) :
    Keeps I (key l position) (l.keys.get ⟨position, h⟩) := Keeps.liftExcept (keyAt_eq h)

theorem keeps_fetch (hb : l.Backed proj r) {physical : Nat} (hp : physical < l.blockCount) :
    Keeps (ReadsIn r) (fetch l proj physical) () :=
  (keeps_read hb hp).bind (Keeps.modify fun _ hs ↦ hs)

theorem keeps_plain (hl : l.BuiltFrom p entry) (hb : l.Backed proj r) {position : Nat}
    (h : position < l.keys.length) :
    Keeps (ReadsIn r) (plain l proj position) (l.keys.get ⟨position, h⟩) := by
  obtain ⟨physical, hphysical, hp, -⟩ := hl.physicalBlock_eq (hl.div_lt h)
  refine (Keeps.liftExcept hphysical).bind (Keeps.get fun s _ ↦ ?_)
  split_ifs
  · exact keeps_key h
  · exact (keeps_fetch hb hp).bind (keeps_key h)

theorem keeps_orCache (hl : l.BuiltFrom p entry) (hb : l.Backed proj r) {position : Nat}
    (h : position < l.keys.length) :
    Keeps (ReadsIn r) (orCache l proj position) (l.keys.get ⟨position, h⟩) := by
  obtain ⟨physical, hphysical, hp, -⟩ := hl.physicalBlock_eq (hl.div_lt h)
  refine (Keeps.liftExcept hphysical).bind (Keeps.get fun s _ ↦ ?_)
  split_ifs
  · exact keeps_key h
  · exact keeps_key h
  · exact (keeps_fetch hb hp).bind (keeps_key h)

theorem lt_of_mem_neighbour {mid physical : Nat} {offset : Int}
    (h : physical ∈ (neighbour l mid offset).toList) : physical < l.blockCount := by
  unfold neighbour at h
  split_ifs at h with hc
  · rw [Option.toList_some, List.mem_singleton] at h
    omega
  · cases h

theorem lt_of_mem_savedBlocks {mid physical : Nat} {p q : Prop} [Decidable p] [Decidable q]
    (h : physical ∈ (if p then neighbour l mid (-1) else none).toList ++
      (if q then neighbour l mid 1 else none).toList) : physical < l.blockCount := by
  rcases List.mem_append.mp h with h | h
  · split_ifs at h
    · exact lt_of_mem_neighbour h
    · cases h
  · split_ifs at h
    · exact lt_of_mem_neighbour h
    · cases h

theorem keeps_andSave (hl : l.BuiltFrom p entry) (hb : l.Backed proj r) {position : Nat}
    (h : position < l.keys.length) (first last : Nat) :
    Keeps (ReadsIn r) (andSave l proj position first last) (l.keys.get ⟨position, h⟩) := by
  obtain ⟨mid, hmid, hp, -⟩ := hl.physicalBlock_eq (hl.div_lt h)
  refine (Keeps.liftExcept hmid).bind ((keeps_readRun hb ?_).bind
    (Keeps.bind (Keeps.modify ?_) (keeps_key h)))
  swap
  · exact fun s hs ↦ hs
  intro physical hphysical
  rcases List.mem_cons.mp hphysical with rfl | hphysical
  · exact hp
  · exact lt_of_mem_savedBlocks hphysical

/-! ## The searches find the rank -/

theorem keeps_probe {obtain' : Nat → SearchM RecordKey} {position : Nat} {x : RecordKey}
    (hI : ∀ s, I s → I { s with probes := s.probes ++ [position] })
    (h : Keeps I (obtain' position) x) : Keeps I (probe obtain' position) x :=
  (Keeps.modify hI).bind h

/-- The keys of a level are cut at the rank of the query. -/
theorem isCut_below (hl : l.BuiltFrom p entry) (query : Int) :
    IsCut (below query) l.keys (lowerRank l.keys ⟨query⟩) :=
  isCut_lowerRank hl.sorted ⟨query⟩

/-- The end of a search returns the rank, when the search has ended at it or right before. -/
theorem run_conclude (hl : l.BuiltFrom p entry) {obtain' : Nat → SearchM RecordKey}
    {query : Int} {first : Nat} (hfirst : first < l.keys.length) {s s' : LevelSearcher}
    (hprobe : (probe obtain' first).run s = .ok (l.keys.get ⟨first, hfirst⟩) s') (hI : I s')
    (hobtain : ∀ pos (h : pos < l.keys.length), pos = lowerRank l.keys ⟨query⟩ →
      Keeps I (obtain' pos) (l.keys.get ⟨pos, h⟩))
    (hle : first ≤ lowerRank l.keys ⟨query⟩) (hge : lowerRank l.keys ⟨query⟩ ≤ first + 1) :
    ∃ s'', (conclude l obtain' query first).run s = .ok (lowerRank l.keys ⟨query⟩) s'' ∧
      I s'' := by
  rw [conclude, run_bind_of_ok ((isCut_below hl query).run_settle hfirst hprobe hle hge)]
  split_ifs with hpos
  · have hlt : lowerRank l.keys ⟨query⟩ < l.keys.length :=
      lt_of_le_of_ne (lowerRank_le_length _ _) hpos
    exact (hobtain _ hlt rfl).bind (Keeps.pure (lowerRank l.keys ⟨query⟩)) s' hI
  · exact ⟨s', rfl, hI⟩

/-- The part of a search after its first probe: `n` candidates from `f` on are left. -/
theorem keeps_halve_conclude (hl : l.BuiltFrom p entry) {obtain' : Nat → SearchM RecordKey}
    {query : Int} {first last f n : Nat}
    (hprobe : ∀ pos (h : pos < l.keys.length), first ≤ pos → pos < last →
      Keeps I (probe obtain' pos) (l.keys.get ⟨pos, h⟩))
    (hobtain : ∀ pos (h : pos < l.keys.length), first ≤ pos → pos ≤ last →
      Keeps I (obtain' pos) (l.keys.get ⟨pos, h⟩))
    (hlast : last ≤ l.keys.length) (hn : 0 < n) (hf : first ≤ f) (hfn : f + n ≤ last)
    (hle : f ≤ lowerRank l.keys ⟨query⟩) (hge : lowerRank l.keys ⟨query⟩ ≤ f + n) :
    Keeps I (halve (below query) (probe obtain') n f n >>= conclude l obtain' query)
      (lowerRank l.keys ⟨query⟩) := by
  obtain ⟨g, hg, hlo, hhi, hle', hge'⟩ :=
    (isCut_below hl query).keeps_halve hprobe hlast le_rfl hn hf hfn hle hge
  refine hg.bind fun s hs ↦ ?_
  obtain ⟨s', hs', hI⟩ := hprobe g (by omega) hlo hhi s hs
  exact run_conclude hl (by omega) hs' hI
    (fun pos h hpos ↦ hobtain pos h (by omega) (by omega)) hle' hge'

/-- The search of a whole level finds the rank of the query. -/
theorem keeps_lowerBoundFullLevel (hl : l.BuiltFrom p entry) (hb : l.Backed proj r)
    (query : Int) :
    Keeps (ReadsIn r) (lowerBoundFullLevel l proj query) (lowerRank l.keys ⟨query⟩) := by
  have hrank := lowerRank_le_length l.keys ⟨query⟩
  unfold lowerBoundFullLevel ReferenceLevel.itemCount
  split_ifs with hzero
  · rw [show lowerRank l.keys ⟨query⟩ = 0 by omega]
    exact Keeps.pure _
  · exact keeps_halve_conclude hl
      (fun pos h _ _ ↦ keeps_probe (fun _ hs ↦ hs) (keeps_plain hl hb h))
      (fun pos h _ _ ↦ keeps_plain hl hb h) le_rfl (by omega) le_rfl (by omega)
      (Nat.zero_le _) (by omega)

/-- The first probe of a bounded search keeps the rank among the candidates. -/
theorem keeps_firstProbe (hl : l.BuiltFrom p entry) {query : Int} {first last : Nat}
    (hsave : ∀ h : first + (last - first) / 2 < l.keys.length, 1 < last - first →
      Keeps I (probe (fun pos ↦ andSave l proj pos first last) (first + (last - first) / 2))
        (l.keys.get ⟨first + (last - first) / 2, h⟩))
    (hlt : first < last) (hlast : last ≤ l.keys.length)
    (hle : first ≤ lowerRank l.keys ⟨query⟩) (hge : lowerRank l.keys ⟨query⟩ ≤ last) :
    ∃ f n, Keeps I (firstProbe l proj first last query) (f, n) ∧ 0 < n ∧ first ≤ f ∧
      f + n ≤ last ∧ f ≤ lowerRank l.keys ⟨query⟩ ∧ lowerRank l.keys ⟨query⟩ ≤ f + n := by
  unfold firstProbe
  by_cases hn : last - first > 1
  · simp only [if_pos hn]
    obtain ⟨h₁, h₂, h₃, h₄⟩ :=
      (isCut_below hl query).halve_step first hn (by omega) hle (by omega)
    exact ⟨_, _, (hsave (by omega) hn).bind (Keeps.pure _), by omega, h₁, by omega, h₃, h₄⟩
  · simp only [if_neg hn]
    exact ⟨first, last - first, Keeps.pure _, by omega, le_rfl, by omega, hle, by omega⟩

/-- The bounded search finds the rank of the query, when its window contains it. -/
theorem keeps_lowerBoundPgmBounded (hl : l.BuiltFrom p entry) (hb : l.Backed proj r)
    {query : Int} {first last : Nat} (hlast : last ≤ l.keys.length)
    (hle : first ≤ lowerRank l.keys ⟨query⟩) (hge : lowerRank l.keys ⟨query⟩ ≤ last) :
    Keeps (ReadsIn r) (lowerBoundPgmBounded l proj first last query)
      (lowerRank l.keys ⟨query⟩) := by
  unfold lowerBoundPgmBounded
  split_ifs with heq
  · rw [show lowerRank l.keys ⟨query⟩ = first by omega]
    exact Keeps.pure _
  · obtain ⟨f, n, hfirst, hn, hf, hfn, hle', hge'⟩ := keeps_firstProbe hl
      (fun h _ ↦ keeps_probe (fun _ hs ↦ hs) (keeps_andSave hl hb h first last))
      (by omega) hlast hle hge
    exact hfirst.bind (keeps_halve_conclude hl
      (fun pos h _ _ ↦ keeps_probe (fun _ hs ↦ hs) (keeps_orCache hl hb h))
      (fun pos h _ _ ↦ keeps_orCache hl hb h) hlast hn hf hfn hle' hge')

end LevelSearcher

end EnhancedLetIndex
