import EnhancedLetIndex.Pgm.Search

/-!
# The incremental PGM

The translation of `IncrementalPgmBuilder`, which consumes the keys of a merge one by one.  It
drives the same model as `make_segmentation`, so after any number of keys it is where the scan
of these keys is (`Follows`), and its result is the index that `build_batch_pgm` returns.
-/

namespace EnhancedLetIndex

/-- `IncrementalMergeError`, and whatever else a merge job raises. -/
inductive IncrementalMergeError where
  | runLengths (level keys values : Nat)
  | runNotSorted (level : Nat) (current previous : RecordKey)
  | sameLevel (level : Nat)
  | reverseDirection (source target : Nat)
  | gappedLevels (source target : Nat)
  | keyNotIncreasing (key last : RecordKey)
  | oplmRestart
  | budget (q : Int)
  | notDone (sourceCursor targetCursor pendingItems : Nat)
  /-- An error of the PGM code. -/
  | pgm (e : PgmError)
  /-- An exception of the sink. -/
  | sink
deriving DecidableEq, Repr

/-! ## The builder -/

/-- `IncrementalPgmBuilder`. -/
structure IncrementalPgmBuilder where
  epsilon : Nat
  oplm : Oplm
  segments : List PgmSegment
  closedRanks : List Nat
  currentStartRank : Nat
  count : Nat
  lastKey : Option RecordKey
  firstKey : Option RecordKey
  maxActivePoints : Nat
  closedInLastAdd : Nat
deriving DecidableEq, Repr

/-- `IncrementalPgmState`. -/
structure IncrementalPgmState where
  epsilon : Nat
  recordCount : Nat
  segmentCount : Nat
  closedSegmentStartRanks : List Nat
  segmentStartRanks : List Nat
  activeSegmentStartRank : Nat
  activeSegmentSpan : Int × Int
  activePointCount : Nat
  maxActivePointCount : Nat
  closedInLastAdd : Nat
  retainedKeys : Nat
deriving DecidableEq, Repr

namespace IncrementalPgmBuilder

/-- `__init__`. -/
def init (epsilon : Nat) : IncrementalPgmBuilder where
  epsilon := epsilon
  oplm := Oplm.init epsilon
  segments := []
  closedRanks := []
  currentStartRank := 0
  count := 0
  lastKey := none
  firstKey := none
  maxActivePoints := 0
  closedInLastAdd := 0

/-- The rejected point of `add_key`: it closes the segment that ends at `last` and starts the
next one. -/
def restart (b : IncrementalPgmBuilder) (last key : RecordKey) :
    Except IncrementalMergeError IncrementalPgmBuilder := do
  let segment ← (pgmSegmentFromGeometry b.oplm.getSegment b.currentStartRank (b.count - 1)
    last).mapError .pgm
  let (accepted, oplm) ← (b.oplm.reset.addPoint key.value b.count).mapError .pgm
  if accepted then
    pure { b with
      oplm := oplm
      segments := b.segments ++ [segment]
      closedRanks := b.closedRanks ++ [b.currentStartRank]
      currentStartRank := b.count
      closedInLastAdd := 1 }
  else throw .oplmRestart

/-- `add_key` after its checks, `last` being the key before. -/
def consume (b : IncrementalPgmBuilder) (last key : RecordKey) :
    Except IncrementalMergeError IncrementalPgmBuilder := do
  let (accepted, oplm) ← (b.oplm.addPoint key.value b.count).mapError .pgm
  let b := { b with oplm := oplm, closedInLastAdd := 0 }
  let b ← if accepted then pure b else b.restart last key
  pure { b with
    firstKey := b.firstKey.or (some key)
    lastKey := some key
    count := b.count + 1
    maxActivePoints := max b.maxActivePoints b.oplm.pointsInHull }

/-- `add_key`. -/
def addKey (b : IncrementalPgmBuilder) (key : RecordKey) :
    Except IncrementalMergeError IncrementalPgmBuilder :=
  match b.lastKey with
  | some last => if key ≤ last then .error (.keyNotIncreasing key last) else b.consume last key
  -- the first point is never rejected, so its last key is never used
  | none => b.consume key key

/-- `segment_start_ranks`. -/
def segmentStartRanks (b : IncrementalPgmBuilder) : List Nat :=
  b.closedRanks ++ if b.count = 0 then [] else [b.currentStartRank]

/-- `snapshot`. -/
def snapshot (b : IncrementalPgmBuilder) : IncrementalPgmState where
  epsilon := b.epsilon
  recordCount := b.count
  segmentCount := b.segments.length + if b.count = 0 then 0 else 1
  closedSegmentStartRanks := b.closedRanks
  segmentStartRanks := b.segmentStartRanks
  activeSegmentStartRank := b.currentStartRank
  activeSegmentSpan := if b.count = 0 then (0, -1) else (b.currentStartRank, b.count - 1)
  activePointCount := b.oplm.pointsInHull
  maxActivePointCount := b.maxActivePoints
  closedInLastAdd := b.closedInLastAdd
  retainedKeys := 0

/-- `finalize`. -/
def finalize (b : IncrementalPgmBuilder) : Except PgmError BatchPgmIndex :=
  match b.count, b.lastKey with
  | 0, _ => .ok ⟨b.epsilon, 0, none, none, []⟩
  -- a builder that has consumed a key has a last one
  | _ + 1, none => .error .assertion
  | _ + 1, some last => do
    let segment ← pgmSegmentFromGeometry b.oplm.getSegment b.currentStartRank (b.count - 1) last
    let segments := b.segments ++ [segment]
    if segments.head?.map (·.startRank) = some 0 then
      pure ⟨b.epsilon, b.count, b.firstKey, b.lastKey, segments⟩
    else throw .assertion

end IncrementalPgmBuilder

/-! ## The scan of a list of keys -/

namespace Segmentation

/-- The loop of `make_segmentation`, before the last segment is frozen. -/
def scan (ε : Nat) : List RecordKey → Except PgmError Segmentation
  | [] => .ok (init ε)
  | key :: rest => do
    let s ← (init ε).addPoint key key 0
    s.addPoints key 1 rest

theorem makeSegmentation_cons (ε : Nat) (key : RecordKey) (rest : List RecordKey) :
    makeSegmentation (key :: rest) ε = (do
      let s ← scan ε (key :: rest)
      let s ← s.freeze rest.length (rest.getLastD key)
      pure s.segments) := by
  simp only [makeSegmentation, scan, bind_assoc]

theorem addPoints_concat (s : Segmentation) (prev key : RecordKey) (y : Nat)
    (keys : List RecordKey) :
    s.addPoints prev y (keys ++ [key]) = (do
      let s ← s.addPoints prev y keys
      s.addPoint (keys.getLastD prev) key (y + keys.length)) := by
  induction keys generalizing s prev y with
  | nil => simp only [List.nil_append, addPoints, bind_pure, pure_bind, List.getLastD_nil,
      List.length_nil, Nat.add_zero]
  | cons k keys ih =>
    rw [List.cons_append, addPoints, addPoints, bind_assoc, List.getLastD_cons]
    refine bind_congr fun s' ↦ ?_
    rw [ih, List.length_cons, Nat.add_right_comm, Nat.add_assoc]

/-- One more key. -/
theorem scan_concat (ε : Nat) (keys : List RecordKey) (key : RecordKey) :
    scan ε (keys ++ [key]) = (do
      let s ← scan ε keys
      s.addPoint (keys.getLastD key) key keys.length) := by
  cases keys with
  | nil =>
    simp only [List.nil_append, scan, addPoints, bind_pure, ok_bind, List.getLastD_nil,
      List.length_nil]
  | cons k keys =>
    rw [List.cons_append, scan, scan, bind_assoc, List.getLastD_cons]
    refine bind_congr fun s ↦ ?_
    rw [addPoints_concat, List.length_cons, Nat.add_comm 1]

/-- Increasing keys are scanned. -/
theorem scan_spec {keys : List RecordKey} (hkeys : keys.Pairwise (· < ·)) (ε : Nat) :
    ∃ s, scan ε keys = .ok s := by
  cases keys with
  | nil => exact ⟨_, rfl⟩
  | cons key rest =>
    obtain ⟨s, hs, hscan⟩ := addPoint_init ε key rest
    obtain ⟨s', hs', -⟩ := hscan.addPoints_spec hkeys (by simp)
    refine ⟨s', ?_⟩
    rw [scan, hs]
    exact hs'

end Segmentation

/-! ## The builder follows the scan -/

theorem mapError_ok {α : Type} (f : PgmError → IncrementalMergeError) (a : α) :
    (Except.ok a : Except PgmError α).mapError f = .ok a := rfl

/-- A segment starts at the rank it is given. -/
theorem pgmSegmentFromGeometry_startRank {geom : CanonicalSegmentGeometry} {a b : Nat}
    {key : RecordKey} {seg : PgmSegment} (h : pgmSegmentFromGeometry geom a b key = .ok seg) :
    seg.startRank = a := by
  unfold pgmSegmentFromGeometry at h
  obtain ⟨certificate, -, h⟩ := bind_eq_ok.mp h
  split at h
  · cases h; rfl
  · obtain ⟨v, -, h⟩ := bind_eq_ok.mp h
    cases h; rfl

namespace IncrementalPgmBuilder

/-- The builder has the model, the segments and the current start of a scan. -/
structure At (b : IncrementalPgmBuilder) (s : Segmentation) : Prop where
  oplm : b.oplm = s.opt
  segments : b.segments = s.segments
  current : b.currentStartRank = s.currentStartRank
  closed : b.closedRanks = s.segments.map (·.startRank)

/-- The builder has consumed the keys. -/
structure Follows (b : IncrementalPgmBuilder) (ε : Nat) (keys : List RecordKey) : Prop where
  scanned : ∃ s, Segmentation.scan ε keys = .ok s ∧ b.At s
  epsilon : b.epsilon = ε
  count : b.count = keys.length
  firstKey : b.firstKey = keys.head?
  lastKey : b.lastKey = keys.getLast?

variable {b : IncrementalPgmBuilder} {s s' : Segmentation} {ε : Nat} {keys : List RecordKey}
  {last key : RecordKey}

theorem follows_init (ε : Nat) : (init ε).Follows ε [] :=
  ⟨⟨_, rfl, ⟨rfl, rfl, rfl, rfl⟩⟩, rfl, rfl, rfl, rfl⟩

/-- `add_key` adds the point of the scan. -/
theorem At.consume (h : b.At s) (hs : s.addPoint last key b.count = .ok s') :
    ∃ b', b.consume last key = .ok b' ∧ b'.At s' ∧ b'.epsilon = b.epsilon ∧
      b'.count = b.count + 1 ∧ b'.firstKey = b.firstKey.or (some key) ∧
      b'.lastKey = some key := by
  obtain ⟨⟨accepted, opt⟩, hadd, hs⟩ := bind_eq_ok.mp hs
  simp only [IncrementalPgmBuilder.consume, h.oplm, hadd, mapError_ok, ok_bind]
  cases accepted with
  | true =>
    cases hs
    exact ⟨_, rfl, ⟨rfl, h.segments, h.current, h.closed⟩, rfl, rfl, rfl, rfl⟩
  | false =>
    -- the segment that is frozen is the one that the scan freezes
    obtain ⟨s₁, hfreeze, hs⟩ := bind_eq_ok.mp hs
    obtain ⟨seg, hseg, hs₁⟩ := bind_eq_ok.mp hfreeze
    cases hs₁
    obtain ⟨⟨accepted', opt'⟩, hadd', hs⟩ := bind_eq_ok.mp hs
    cases accepted' with
    | false => cases hs
    | true =>
      cases hs
      have hadd'' : opt.reset.addPoint key.value b.count = .ok (true, opt') := hadd'
      have hstart := pgmSegmentFromGeometry_startRank hseg
      simp only [Bool.false_eq_true, if_false, restart, h.current, hseg, mapError_ok, ok_bind,
        hadd'', if_true, pure_eq_ok]
      refine ⟨_, rfl, ⟨rfl, by rw [h.segments], rfl, ?_⟩, rfl, rfl, rfl, rfl⟩
      rw [h.closed, List.map_append, List.map_singleton, hstart]

/-- One more key. -/
theorem Follows.addKey (h : b.Follows ε keys) (hkeys : (keys ++ [key]).Pairwise (· < ·)) :
    ∃ b', b.addKey key = .ok b' ∧ b'.Follows ε (keys ++ [key]) := by
  obtain ⟨s, hs, hat⟩ := h.scanned
  obtain ⟨s', hs'⟩ := Segmentation.scan_spec hkeys ε
  have hscan := hs'
  rw [Segmentation.scan_concat, hs, ok_bind, ← h.count] at hs'
  have hlast : b.addKey key = b.consume (keys.getLastD key) key := by
    unfold IncrementalPgmBuilder.addKey
    rw [h.lastKey, List.getLastD_eq_getLast?]
    cases hk : keys.getLast? with
    | none => rfl
    | some last =>
      have hlt : last < key := (List.pairwise_append.mp hkeys).2.2 last
        (List.mem_of_getLast? hk) key (List.mem_singleton_self key)
      exact if_neg (not_le.mpr hlt)
  obtain ⟨b', hrun, hat', hε, hcount, hfirst, hlast'⟩ := hat.consume hs'
  refine ⟨b', hlast.trans hrun, ⟨s', hscan, hat'⟩, hε.trans h.epsilon, ?_, ?_, ?_⟩
  · rw [hcount, h.count, List.length_append]; rfl
  · rw [hfirst, h.firstKey]
    cases keys <;> rfl
  · rw [hlast', List.getLast?_concat]

/-- The last segment of a scan. -/
theorem Follows.freeze (h : b.Follows ε keys) (hkeys : keys.Pairwise (· < ·)) (hne : keys ≠ []) :
    ∃ last seg, keys.getLast? = some last ∧
      pgmSegmentFromGeometry b.oplm.getSegment b.currentStartRank (b.count - 1) last = .ok seg ∧
      makeSegmentation keys ε = .ok (b.segments ++ [seg]) := by
  obtain ⟨k, rest, rfl⟩ := List.exists_cons_of_ne_nil hne
  obtain ⟨s, hs, hat⟩ := h.scanned
  obtain ⟨segs, a, seg, hmake, -, -⟩ := makeSegmentation_spec hkeys hne ε
  rw [Segmentation.makeSegmentation_cons, hs, ok_bind] at hmake
  obtain ⟨s', hfreeze, hsegs⟩ := bind_eq_ok.mp hmake
  obtain ⟨seg', hseg, hs'⟩ := bind_eq_ok.mp hfreeze
  cases hs'
  refine ⟨rest.getLastD k, seg', ?_, ?_, ?_⟩
  · rw [List.getLast?_cons, List.getLastD_eq_getLast?]
  · rw [hat.oplm, hat.current, h.count]
    exact hseg
  · rw [Segmentation.makeSegmentation_cons, hs, ok_bind, hfreeze, hat.segments]
    rfl

/-- `finalize` returns what `build_batch_pgm` returns for the keys. -/
theorem Follows.finalize (h : b.Follows ε keys) (hkeys : keys.Pairwise (· < ·)) :
    ∃ idx, b.finalize = .ok idx ∧ buildBatchPgm keys ε = .ok idx := by
  obtain ⟨idx, hidx, -⟩ := buildBatchPgm_spec hkeys ε
  refine ⟨idx, ?_, hidx⟩
  cases keys with
  | nil =>
    cases hidx
    simp only [IncrementalPgmBuilder.finalize, h.count, List.length_nil, h.epsilon]
  | cons k rest =>
    obtain ⟨last, seg, hlast, hseg, hmake⟩ := h.freeze hkeys (by simp)
    rw [buildBatchPgm, firstNotIncreasing_eq_none.mpr hkeys] at hidx
    simp only [hmake, ok_bind] at hidx
    have hlast' : b.lastKey = some last := h.lastKey.trans hlast
    simp only [IncrementalPgmBuilder.finalize, h.count, List.length_cons, hlast']
    rw [h.count, List.length_cons] at hseg
    rw [hseg, ok_bind]
    cases hhead : (b.segments ++ [seg]).head? with
    | none => rw [hhead] at hidx; cases hidx
    | some s₀ =>
      simp only [hhead] at hidx
      split_ifs at hidx with hzero
      rw [if_pos (by rw [Option.map_some, hzero]), ← hidx, h.epsilon, h.firstKey, ← hlast,
        List.getLast?_cons, List.getLastD_eq_getLast?]
      rfl

/-- The start ranks of the segments are those of the batch result. -/
theorem Follows.segmentStartRanks (h : b.Follows ε keys) (hkeys : keys.Pairwise (· < ·)) :
    ∃ segs, makeSegmentation keys ε = .ok segs ∧ b.segmentStartRanks = segs.map (·.startRank) := by
  cases keys with
  | nil =>
    obtain ⟨s, hs, hat⟩ := h.scanned
    cases hs
    refine ⟨[], rfl, ?_⟩
    simp [IncrementalPgmBuilder.segmentStartRanks, h.count, hat.closed, Segmentation.init]
  | cons k rest =>
    obtain ⟨last, seg, -, hseg, hmake⟩ := h.freeze hkeys (by simp)
    obtain ⟨s, hs, hat⟩ := h.scanned
    refine ⟨_, hmake, ?_⟩
    rw [IncrementalPgmBuilder.segmentStartRanks, h.count, if_neg (by simp), hat.closed,
      List.map_append, List.map_singleton, pgmSegmentFromGeometry_startRank hseg, hat.segments]

end IncrementalPgmBuilder

end EnhancedLetIndex
