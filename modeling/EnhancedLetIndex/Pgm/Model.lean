import EnhancedLetIndex.Basic.Bisect
import EnhancedLetIndex.Basic.Except
import EnhancedLetIndex.Basic.Hull
import EnhancedLetIndex.Identifiers

/-!
# The batch PGM index

The translation of `pgm.py`: the exact-integer optimal piecewise linear model with its two
hulls and its rectangle, the segments it is cut into with their rank-line certificates,
`make_segmentation`, `build_batch_pgm` and `BatchPgmIndex.search`.

Ranks and `epsilon` are never negative in the source and are natural numbers here; keys and
all coordinates are integers.  Every `raise` and `assert` is an error of `Except`.
-/

namespace EnhancedLetIndex

/-- The ways PGM construction and search can fail. -/
inductive PgmError where
  /-- `PgmConfigurationError`: no epsilon is configured. -/
  | configuration
  /-- `ZeroDivisionError` of `_div_trunc`. -/
  | zeroDivision
  /-- "OPLM points must be strictly increasing by x". -/
  | pointsNotIncreasing
  /-- A certificate denominator that is not strictly positive. -/
  | certificateDenominator (denominator : Int)
  /-- A certificate span with `end_rank < start_rank`. -/
  | certificateRankSpan (startRank endRank : Nat)
  /-- A certificate span with `end_key < start_key`. -/
  | certificateKeySpan (startKey endKey : RecordKey)
  /-- A non-singleton geometry without an x span. -/
  | degenerateSegment
  /-- "OPLM failed to start a new segment". -/
  | failedToStart
  /-- "PGM input keys must be strictly increasing". -/
  | keysNotIncreasing (left right : RecordKey)
  /-- An `assert` of the source that does not hold. -/
  | assertion
  /-- An index past the end of a tuple. -/
  | index
deriving DecidableEq, Repr

/-! ## Exact integer helpers -/

/-- `_trunc_sign`. -/
def truncSign (value : Int) : Int := if value ≥ 0 then 1 else -1

/-- `_div_trunc`: division truncated towards zero. -/
def divTrunc (num den : Int) : Except PgmError Int :=
  if den = 0 then .error .zeroDivision
  else .ok (if num ≥ 0 then num.fdiv den else -((-num).fdiv den))

/-- A legal candidate rank interval `[lo, hi)` with a predicted rank. -/
structure SearchResult where
  pos : Nat
  lo : Nat
  hi : Nat
deriving DecidableEq, Repr

/-! ## The optimal piecewise linear model -/

/-- A slope as an exact pair, compared by cross multiplication. -/
structure Slope where
  dx : Int
  dy : Int
deriving DecidableEq, Repr

instance : LT Slope := ⟨fun s t ↦ s.dy * t.dx < s.dx * t.dy⟩

theorem Slope.lt_def {s t : Slope} : s < t ↔ s.dy * t.dx < s.dx * t.dy := Iff.rfl

instance (s t : Slope) : Decidable (s < t) :=
  inferInstanceAs (Decidable (s.dy * t.dx < s.dx * t.dy))

/-- `_sub_slope`: `b - a` as a slope. -/
def subSlope (a b : Point) : Slope := ⟨b.x - a.x, b.y - a.y⟩

/-- The four corners `rectangle[0..3]` of the current segment. -/
structure Rectangle where
  r0 : Point
  r1 : Point
  r2 : Point
  r3 : Point
deriving DecidableEq, Repr

/-- `_OptimalPiecewiseLinearModel`. -/
structure Oplm where
  epsilon : Nat
  lower : List Point
  upper : List Point
  firstX : Int
  lastX : Int
  lowerStart : Nat
  upperStart : Nat
  pointsInHull : Nat
  rectangle : Rectangle
deriving DecidableEq, Repr

/-- `_CanonicalSegmentGeometry`. -/
structure CanonicalSegmentGeometry where
  rectangle : Rectangle
  first : Int
  onePoint : Bool
deriving DecidableEq, Repr

namespace Oplm

/-- `__init__`. -/
def init (epsilon : Nat) : Oplm where
  epsilon := epsilon
  lower := []
  upper := []
  firstX := 0
  lastX := 0
  lowerStart := 0
  upperStart := 0
  pointsInHull := 0
  rectangle := ⟨⟨0, 0⟩, ⟨0, 0⟩, ⟨0, 0⟩, ⟨0, 0⟩⟩

/-- `_eps_add`. -/
def epsAdd (m : Oplm) (value : Int) : Int := value + m.epsilon

/-- `_eps_sub`: the lower band, clipped at 0. -/
def epsSub (m : Oplm) (value : Int) : Int :=
  if value ≤ m.epsilon then 0 else value - m.epsilon

/-- `_reset`. -/
def reset (m : Oplm) : Oplm := { m with pointsInHull := 0, lower := [], upper := [] }

/-- The tangent scan of both branches of `add_point`: walk on from index `i` with the slope
`best` found at `bestI`, and stop at the first slope that is `worse`. -/
def scan (worse : Slope → Slope → Bool) (p : Point) (best : Slope) (bestI i : Nat) :
    List Point → Nat
  | [] => bestI
  | q :: qs =>
    let val := subSlope q p
    if worse val best then bestI else scan worse p val i (i + 1) qs

/-- The index of the tangent point of a hull that starts at `start`. -/
def tangent (worse : Slope → Slope → Bool) (hull : List Point) (start : Nat) (p : Point) : Nat :=
  scan worse p (subSlope (nth hull start) p) start (start + 1) (hull.drop (start + 1))

/-- The `while` loop that pops the end of a hull: `end` goes down while the last two points
and `p` turn the wrong way, and never below `start + 1`. -/
def popEnd (wrong : Int → Bool) (hull : List Point) (start : Nat) (p : Point) : Nat → Nat
  | 0 => 0
  | e + 1 =>
    if e + 1 ≥ start + 2 ∧ wrong (cross (nth hull (e - 1)) (nth hull e) p) then
      popEnd wrong hull start p e
    else e + 1

/-- The first branch of `add_point`: the new upper corner `p1` caps the greatest slope. -/
def firstBranch (m : Oplm) (p1 : Point) (slope2 : Slope) : Oplm :=
  if subSlope m.rectangle.r1 p1 < slope2 then
    let minI := tangent (fun val best ↦ val > best) m.lower m.lowerStart p1
    let «end» := popEnd (· ≤ 0) m.upper m.upperStart p1 m.upper.length
    { m with
      rectangle := { m.rectangle with r1 := nth m.lower minI, r3 := p1 }
      lowerStart := minI
      upper := m.upper.take «end» ++ [p1] }
  else m

/-- The second branch of `add_point`: the new lower corner `p2` caps the least slope. -/
def secondBranch (m : Oplm) (p2 : Point) (slope1 : Slope) : Oplm :=
  if subSlope m.rectangle.r0 p2 > slope1 then
    let maxI := tangent (fun val best ↦ val < best) m.upper m.upperStart p2
    let «end» := popEnd (· ≥ 0) m.lower m.lowerStart p2 m.lower.length
    { m with
      rectangle := { m.rectangle with r0 := nth m.upper maxI, r2 := p2 }
      upperStart := maxI
      lower := m.lower.take «end» ++ [p2] }
  else m

/-- `add_point` on an empty hull. -/
def firstPoint (m : Oplm) (p1 p2 : Point) : Oplm :=
  { m with
    firstX := p1.x
    rectangle := { m.rectangle with r0 := p1, r1 := p2 }
    upper := [p1]
    lower := [p2]
    upperStart := 0
    lowerStart := 0
    pointsInHull := m.pointsInHull + 1 }

/-- `add_point` on a hull of one point. -/
def secondPoint (m : Oplm) (p1 p2 : Point) : Oplm :=
  { m with
    rectangle := { m.rectangle with r2 := p2, r3 := p1 }
    upper := m.upper ++ [p1]
    lower := m.lower ++ [p2]
    pointsInHull := m.pointsInHull + 1 }

/-- `add_point` on a hull of at least two points: a point outside the extreme lines closes
the segment, any other one goes through both branches. -/
def laterPoint (m : Oplm) (p1 p2 : Point) : Bool × Oplm :=
  let slope1 := subSlope m.rectangle.r0 m.rectangle.r2
  let slope2 := subSlope m.rectangle.r1 m.rectangle.r3
  let outsideLine1 := subSlope m.rectangle.r2 p1 < slope1
  let outsideLine2 := subSlope m.rectangle.r3 p2 > slope2
  if outsideLine1 ∨ outsideLine2 then (false, { m with pointsInHull := 0 })
  else
    let m := (m.firstBranch p1 slope2).secondBranch p2 slope1
    (true, { m with pointsInHull := m.pointsInHull + 1 })

/-- `add_point`: the new point is accepted (`true`) or closes the segment (`false`). -/
def addPoint (m : Oplm) (x y : Int) : Except PgmError (Bool × Oplm) :=
  if m.pointsInHull > 0 ∧ x ≤ m.lastX then .error .pointsNotIncreasing
  else
    let m := { m with lastX := x }
    let p1 : Point := ⟨x, m.epsAdd y⟩
    let p2 : Point := ⟨x, m.epsSub y⟩
    if m.pointsInHull = 0 then .ok (true, m.firstPoint p1 p2)
    else if m.pointsInHull = 1 then .ok (true, m.secondPoint p1 p2)
    else .ok (m.laterPoint p1 p2)

/-- `get_segment`. -/
def getSegment (m : Oplm) : CanonicalSegmentGeometry :=
  if m.pointsInHull = 1 then
    let r := m.rectangle
    ⟨⟨r.r0, r.r1, r.r0, r.r1⟩, m.firstX, true⟩
  else ⟨m.rectangle, m.firstX, false⟩

end Oplm

/-! ## Segments -/

/-- The exact rank line of one segment, with the checks of its constructor as fields. -/
structure RankLineCertificate where
  startKey : RecordKey
  endKey : RecordKey
  startRank : Nat
  endRank : Nat
  slopeNum : Int
  originNum : Int
  denominator : Int
  denominator_pos : 0 < denominator
  rank_le : startRank ≤ endRank
  key_le : startKey ≤ endKey
deriving DecidableEq, Repr

namespace RankLineCertificate

/-- The constructor, with the checks of `__post_init__` in order. -/
def make (startKey endKey : RecordKey) (startRank endRank : Nat)
    (slopeNum originNum denominator : Int) : Except PgmError RankLineCertificate :=
  if hden : 0 < denominator then
    if hrank : startRank ≤ endRank then
      if hkey : startKey ≤ endKey then
        .ok ⟨startKey, endKey, startRank, endRank, slopeNum, originNum, denominator,
          hden, hrank, hkey⟩
      else .error (.certificateKeySpan startKey endKey)
    else .error (.certificateRankSpan startRank endRank)
  else .error (.certificateDenominator denominator)

/-- `numerator_at`: the exact numerator of the line at `key`. -/
def numeratorAt (c : RankLineCertificate) (key : RecordKey) : Int :=
  c.slopeNum * (key.value - c.startKey.value) + c.originNum

/-- `within_band`: the clipped-band invariant, by cross multiplication. -/
def withinBand (c : RankLineCertificate) (key : RecordKey) (rank epsilon : Nat) : Bool :=
  let value := c.numeratorAt key
  let lower : Int := (rank : Int) - epsilon
  let lower := if lower < 0 then 0 else lower
  decide (lower * c.denominator ≤ value ∧ value ≤ ((rank : Int) + epsilon) * c.denominator)

end RankLineCertificate

/-- One canonical segment: the rounded lookup line and its exact certificate. -/
structure PgmSegment where
  startKey : RecordKey
  startRank : Nat
  slopeNum : Int
  slopeDen : Int
  intercept : Int
  certificate : RankLineCertificate
deriving DecidableEq, Repr

/-- `PgmSegment.predict`: truncated towards zero, then floored at 0. -/
def PgmSegment.predict (s : PgmSegment) (key : RecordKey) : Except PgmError Int := do
  let delta := key.value - s.startKey.value
  let value := (← divTrunc (s.slopeNum * delta) s.slopeDen) + s.intercept
  pure (if value > 0 then value else 0)

/-- `_trunc_div_round_half_toward_zero`. -/
def truncDivRoundHalfTowardZero (num den : Int) : Except PgmError Int :=
  let roundingTerm := truncSign num * den.fdiv 2
  divTrunc (num + roundingTerm) den

/-- `_rank_line_certificate`. -/
def rankLineCertificate (geom : CanonicalSegmentGeometry) (startRank endRank : Nat)
    (endKey : RecordKey) : Except PgmError RankLineCertificate :=
  let r0 := geom.rectangle.r0
  let r1 := geom.rectangle.r1
  let r3 := geom.rectangle.r3
  let startKey : RecordKey := ⟨geom.first⟩
  if geom.onePoint then
    RankLineCertificate.make startKey endKey startRank endRank 0 (r0.y + r1.y) 2
  else
    let slopeNum := r3.y - r1.y
    let denominator := r3.x - r1.x
    let (slopeNum, denominator) :=
      if denominator < 0 then (-slopeNum, -denominator) else (slopeNum, denominator)
    if denominator = 0 then .error .degenerateSegment
    else
      RankLineCertificate.make startKey endKey startRank endRank slopeNum
        (slopeNum * (startKey.value - r1.x) + r1.y * denominator) denominator

/-- `_pgm_segment_from_geometry`. -/
def pgmSegmentFromGeometry (geom : CanonicalSegmentGeometry) (startRank endRank : Nat)
    (endKey : RecordKey) : Except PgmError PgmSegment := do
  let r0 := geom.rectangle.r0
  let r1 := geom.rectangle.r1
  let r3 := geom.rectangle.r3
  let startKey : RecordKey := ⟨geom.first⟩
  let certificate ← rankLineCertificate geom startRank endRank endKey
  if geom.onePoint then
    let intercept := (r0.y + r1.y).fdiv 2
    pure ⟨startKey, startRank, 0, 1, intercept, certificate⟩
  else
    let dx := r3.x - r1.x
    let dy := r3.y - r1.y
    let (dx, dy) := if dx < 0 then (-dx, -dy) else (dx, dy)
    let (slopeDx, slopeDy) := if dx = 0 then (1, 0) else (dx, dy)
    let num := slopeDy * (startKey.value - r1.x)
    let intercept := (← truncDivRoundHalfTowardZero num slopeDx) + r1.y
    pure ⟨startKey, startRank, slopeDy, slopeDx, intercept, certificate⟩

/-! ## Segmentation -/

/-- The variables `make_segmentation` threads through its loop. -/
structure Segmentation where
  opt : Oplm
  segments : List PgmSegment
  currentStartRank : Nat
deriving DecidableEq, Repr

namespace Segmentation

def init (epsilon : Nat) : Segmentation := ⟨Oplm.init epsilon, [], 0⟩

/-- `freeze`: close the current segment at `end_rank`. -/
def freeze (s : Segmentation) (endRank : Nat) (endKey : RecordKey) :
    Except PgmError Segmentation := do
  let segment ← pgmSegmentFromGeometry s.opt.getSegment s.currentStartRank endRank endKey
  pure { s with segments := s.segments ++ [segment] }

/-- The inner `add_point`: a rejected point at rank `y` closes the segment at the previous
key `prev = keys[y - 1]` and starts the next one. -/
def addPoint (s : Segmentation) (prev key : RecordKey) (y : Nat) :
    Except PgmError Segmentation := do
  let (accepted, opt) ← s.opt.addPoint key.value y
  if accepted then
    pure { s with opt := opt }
  else
    let s ← { s with opt := opt }.freeze (y - 1) prev
    let (accepted, opt) ← s.opt.reset.addPoint key.value y
    if accepted then pure { s with opt := opt, currentStartRank := y }
    else throw .failedToStart

/-- The loop over the keys after the first, `prev` being the key before rank `y`. -/
def addPoints (s : Segmentation) (prev : RecordKey) (y : Nat) :
    List RecordKey → Except PgmError Segmentation
  | [] => pure s
  | key :: keys => do
    let s ← s.addPoint prev key y
    addPoints s key (y + 1) keys

end Segmentation

/-- `make_segmentation`. -/
def makeSegmentation (keys : List RecordKey) (epsilon : Nat) : Except PgmError (List PgmSegment) :=
  match keys with
  | [] => pure []
  | key :: rest => do
    -- the first point is never rejected, so its previous key is never used
    let s ← (Segmentation.init epsilon).addPoint key key 0
    let s ← s.addPoints key 1 rest
    let s ← s.freeze rest.length (rest.getLastD key)
    pure s.segments

/-! ## The index -/

/-- An immutable batch PGM over one logical level. -/
structure BatchPgmIndex where
  epsilon : Nat
  recordCount : Nat
  firstKey : Option RecordKey
  lastKey : Option RecordKey
  segments : List PgmSegment
deriving DecidableEq, Repr

namespace BatchPgmIndex

/-- `_next_intercept`. -/
def nextIntercept (idx : BatchPgmIndex) (index n : Nat) : Int :=
  match idx.segments[index + 1]? with
  | some s => s.intercept
  | none => n

/-- `_segment_index_for`: the rightmost segment that starts at or before `key`, that is
`bisect_right` over the start keys, minus one, floored at 0. -/
def segmentIndexFor (idx : BatchPgmIndex) (key : RecordKey) : Nat :=
  bisect (· ≤ key) (idx.segments.map (·.startKey)) - 1

/-- `search`: the predicted rank, clamped, and its window. -/
def search (idx : BatchPgmIndex) (key : RecordKey) : Except PgmError SearchResult := do
  let n := idx.recordCount
  if n = 0 then return ⟨0, 0, 0⟩
  match idx.firstKey, idx.lastKey with
  | some firstKey, some lastKey =>
    let pos : Nat ←
      if key < firstKey then pure 0
      else if key > lastKey then pure n
      else
        let i := idx.segmentIndexFor key
        match idx.segments[i]? with
        | none => throw .index
        | some seg => do
          let pos ← seg.predict key
          let cap := idx.nextIntercept i n
          let pos := if pos > cap then cap else pos
          let pos := if pos < 0 then 0 else pos
          let pos := if pos > n then (n : Int) else pos
          -- the clamps leave a value in `0..n`
          pure pos.toNat
    let lo := pos - idx.epsilon
    let hi := pos + idx.epsilon + 2
    pure ⟨pos, lo, if hi > n then n else hi⟩
  | _, _ => throw .assertion

end BatchPgmIndex

/-- `build_batch_pgm`. -/
def buildBatchPgm (keys : List RecordKey) (epsilon : Nat) : Except PgmError BatchPgmIndex := do
  match firstNotIncreasing keys with
  | some (left, right) => throw (.keysNotIncreasing left right)
  | none =>
    match keys with
    | [] => pure ⟨epsilon, 0, none, none, []⟩
    | key :: rest => do
      let segments ← makeSegmentation keys epsilon
      match segments.head? with
      | some s =>
        if s.startRank = 0 then
          pure ⟨epsilon, keys.length, some key, some (rest.getLastD key), segments⟩
        else throw .assertion
      | none => throw .assertion

end EnhancedLetIndex
