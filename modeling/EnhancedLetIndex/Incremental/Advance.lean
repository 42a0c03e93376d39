import EnhancedLetIndex.Basic.Chunks
import EnhancedLetIndex.Basic.SortedUnion
import EnhancedLetIndex.Incremental.Job

/-!
# What the pauses of a merge cannot change

Between two calls of `advance` a job is somewhere in the union of its runs: it has decided a
front part of the union, packed into full blocks and less than a block of pending records, and
its cursors have the rest of the union before them (`Running`).  One decision moves one record
from the rest to the decided part, whatever was asked for in which call, so the blocks of all
calls are those of the union cut into pieces (`advance_canonical`).
-/

namespace EnhancedLetIndex

variable {V ω : Type}

/-! ## The union and its blocks -/

/-- The records of a run. -/
def LogicalRunView.records (view : LogicalRunView V) : List (RecordKey × V) :=
  view.keys.zip view.values

/-- The records of the merged run: the source is newer. -/
def mergedRecords (source target : LogicalRunView V) : List (RecordKey × V) :=
  unionNewer Prod.fst source.records target.records

/-- The records of a block. -/
def OutputBlock.records (block : OutputBlock V) : List (RecordKey × V) :=
  block.keys.zip block.values

/-- The blocks of some pieces, numbered from `rank`. -/
def blocksFrom (rank : Nat) (pieces : List (List (RecordKey × V))) : List (OutputBlock V) :=
  (pieces.zipIdx rank).map fun p ↦ ⟨p.2, p.1.map Prod.fst, p.1.map Prod.snd⟩

/-- The canonical packing of a run. -/
def canonicalBlocks (itemsPerBlock : Nat) (records : List (RecordKey × V)) :
    List (OutputBlock V) :=
  blocksFrom 0 (chunks itemsPerBlock records)

/-- The blocks are numbered from 0, hold the records in order, and are full, but for the last
one, which is not empty. -/
structure CanonicalPacking (itemsPerBlock : Nat) (records : List (RecordKey × V))
    (blocks : List (OutputBlock V)) : Prop where
  ranks : blocks.map OutputBlock.rank = List.range blocks.length
  values : ∀ block ∈ blocks, block.values.length = block.keys.length
  packed : Packed itemsPerBlock (blocks.map OutputBlock.records)
  records_eq : (blocks.map OutputBlock.records).flatten = records

@[simp] theorem blocksFrom_nil (rank : Nat) : blocksFrom rank ([] : List (List (RecordKey × V))) =
    [] := rfl

@[simp] theorem length_blocksFrom (rank : Nat) (pieces : List (List (RecordKey × V))) :
    (blocksFrom rank pieces).length = pieces.length := by simp [blocksFrom]

theorem blocksFrom_append (rank : Nat) (ps qs : List (List (RecordKey × V))) :
    blocksFrom rank (ps ++ qs) = blocksFrom rank ps ++ blocksFrom (rank + ps.length) qs := by
  rw [blocksFrom, List.zipIdx_append, List.map_append, blocksFrom, blocksFrom]

theorem map_rank_blocksFrom (rank : Nat) (pieces : List (List (RecordKey × V))) :
    (blocksFrom rank pieces).map OutputBlock.rank = List.range' rank pieces.length := by
  rw [blocksFrom, List.map_map]
  exact List.zipIdx_map_snd rank pieces

theorem map_records_blocksFrom (rank : Nat) (pieces : List (List (RecordKey × V))) :
    (blocksFrom rank pieces).map OutputBlock.records = pieces := by
  rw [blocksFrom, List.map_map]
  refine Eq.trans (List.map_congr_left fun p _ ↦ ?_) (List.zipIdx_map_fst rank pieces)
  exact (List.zip_map' ..).trans (List.map_id p.1)

theorem canonicalPacking_canonicalBlocks {itemsPerBlock : Nat} (hpos : 0 < itemsPerBlock)
    (records : List (RecordKey × V)) :
    CanonicalPacking itemsPerBlock records (canonicalBlocks itemsPerBlock records) := by
  refine ⟨?_, ?_, ?_, ?_⟩
  · rw [canonicalBlocks, map_rank_blocksFrom, length_blocksFrom, List.range_eq_range']
  · intro block hblock
    obtain ⟨p, -, rfl⟩ := List.mem_map.mp hblock
    rw [List.length_map, List.length_map]
  · rw [canonicalBlocks, map_records_blocksFrom]
    exact packed_chunks hpos records
  · rw [canonicalBlocks, map_records_blocksFrom, flatten_chunks hpos]

namespace LogicalRunView

variable (view : LogicalRunView V)

@[simp] theorem length_records : view.records.length = view.keys.length := by
  rw [records, List.length_zip, view.length_eq, Nat.min_self]

theorem map_fst_records : view.records.map Prod.fst = view.keys :=
  List.map_fst_zip view.length_eq.le

theorem sortedBy_records : SortedBy Prod.fst view.records :=
  .of_map_keys (view.map_fst_records ▸ view.sorted)

theorem sortedBy_drop (cursor : Nat) : SortedBy Prod.fst (view.records.drop cursor) :=
  view.sortedBy_records.sublist (List.drop_sublist cursor _)

/-- The record at a cursor. -/
theorem drop_records {cursor : Nat} (h : cursor < view.keys.length) :
    view.records.drop cursor =
      (view.keys[cursor], view.valueAt cursor h) :: view.records.drop (cursor + 1) := by
  have hlen : cursor < view.records.length := by rwa [length_records]
  rw [List.drop_eq_getElem_cons hlen]
  refine congrArg (· :: _) ?_
  simp only [records, List.getElem_zip, valueAt, List.get_eq_getElem]

theorem drop_records_of_le {cursor : Nat} (h : view.keys.length ≤ cursor) :
    view.records.drop cursor = [] := List.drop_eq_nil_of_le (by rwa [length_records])

end LogicalRunView

theorem sortedBy_mergedRecords (source target : LogicalRunView V) :
    SortedBy Prod.fst (mergedRecords source target) :=
  sortedBy_unionNewer source.sortedBy_records target.sortedBy_records

/-- The records of the target that the source replaces, counted by their keys. -/
theorem length_shadowed_records (source target : LogicalRunView V) :
    (shadowed Prod.fst source.records target.records).length =
      (source.keys.toFinset ∩ target.keys.toFinset).card := by
  have hkeys : (shadowed Prod.fst source.records target.records).map Prod.fst =
      target.keys.filter (· ∈ source.keys) := by
    rw [← target.map_fst_records, List.filter_map, shadowed, source.map_fst_records]
    rfl
  have hnodup : (target.keys.filter (· ∈ source.keys)).Nodup :=
    (target.sorted.imp ne_of_lt).filter _
  rw [← List.length_map Prod.fst, hkeys, ← List.toFinset_card_of_nodup hnodup]
  congr 1
  ext key
  simp [and_comm]

/-- A front part of the union is increasing by key. -/
theorem sorted_keys_of_append {source target : LogicalRunView V} {l l' : List (RecordKey × V)}
    (h : l ++ l' = mergedRecords source target) : (l.map Prod.fst).Pairwise (· < ·) := by
  have hsorted := sortedBy_mergedRecords source target
  rw [← h] at hsorted
  exact (hsorted.sublist (List.sublist_append_left l l')).map_keys

namespace IncrementalMergeJob

variable {job job₁ : IncrementalMergeJob V} {pieces new : List (List (RecordKey × V))}
  {pending pending' rest : List (RecordKey × V)} {x : RecordKey × V}
  {sink : Option (Sink V ω)} {w : ω}

/-! ## The output side -/

/-- The sink, if there is one, never raises. -/
def SinkReturns (sink : Option (Sink V ω)) : Prop :=
  ∀ f ∈ sink, ∀ block w, ∃ w', (f block).run w = .ok ⟨⟩ w'

/-- The output side of a job: the pieces that are out, and the records that are pending. -/
structure Packing (job : IncrementalMergeJob V) (pieces : List (List (RecordKey × V)))
    (pending : List (RecordKey × V)) : Prop where
  pgm : job.pgm.Follows job.config.epsilon ((pieces.flatten ++ pending).map Prod.fst)
  outputRecords : job.outputRecords = (pieces.flatten ++ pending).length
  emittedBlocks : job.emittedBlocks = pieces.length
  pendingKeys : job.pendingKeys = pending.map Prod.fst
  pendingValues : job.pendingValues = pending.map Prod.snd
  finalized : job.finalized = none

/-- The jobs merge the same runs in the same way. -/
structure SameMerge (job job' : IncrementalMergeJob V) : Prop where
  config : job'.config = job.config
  source : job'.source = job.source
  target : job'.target = job.target

/-- The input side of the jobs is the same. -/
structure SameInputs (job job' : IncrementalMergeJob V) : Prop extends SameMerge job job' where
  sourceCursor : job'.sourceCursor = job.sourceCursor
  targetCursor : job'.targetCursor = job.targetCursor
  duplicateCount : job'.duplicateCount = job.duplicateCount
  done : job'.done = job.done

theorem SameMerge.refl (job : IncrementalMergeJob V) : job.SameMerge job := ⟨rfl, rfl, rfl⟩

theorem SameMerge.trans {job job' job'' : IncrementalMergeJob V} (h : job.SameMerge job')
    (h' : job'.SameMerge job'') : job.SameMerge job'' :=
  ⟨h'.config.trans h.config, h'.source.trans h.source, h'.target.trans h.target⟩

theorem SameInputs.trans {job job' job'' : IncrementalMergeJob V} (h : job.SameInputs job')
    (h' : job'.SameInputs job'') : job.SameInputs job'' :=
  ⟨h.toSameMerge.trans h'.toSameMerge, h'.sourceCursor.trans h.sourceCursor,
    h'.targetCursor.trans h.targetCursor, h'.duplicateCount.trans h.duplicateCount,
    h'.done.trans h.done⟩

@[simp] theorem run_self (s : IncrementalMergeJob V × ω) :
    (self : JobM V ω _).run s = .ok s.1 s := rfl

@[simp] theorem run_update (f : IncrementalMergeJob V → IncrementalMergeJob V)
    (s : IncrementalMergeJob V × ω) :
    (update f : JobM V ω Unit).run s = .ok ⟨⟩ (f s.1, s.2) := rfl

theorem run_deliver_of_ok {f : Sink V ω} {block : OutputBlock V} {w' : ω}
    (h : (f block).run w = .ok ⟨⟩ w') (job : IncrementalMergeJob V) :
    (deliver (some f) block).run (job, w) = .ok ⟨⟩ (job, w') := run_zoom_of_ok h

theorem run_deliver_of_error {f : Sink V ω} {block : OutputBlock V} {w' : ω}
    (h : (f block).run w = .error ⟨⟩ w') (job : IncrementalMergeJob V) :
    (deliver (some f) block).run (job, w) = .error .sink (job, w') := run_zoom_of_error h

/-- A sink that returns leaves the job alone. -/
theorem run_deliver (hsink : SinkReturns sink) (job : IncrementalMergeJob V) (w : ω)
    (block : OutputBlock V) :
    ∃ w', (deliver sink block).run (job, w) = .ok ⟨⟩ (job, w') := by
  cases sink with
  | none => exact ⟨w, rfl⟩
  | some f =>
    obtain ⟨w', hw'⟩ := hsink f rfl block w
    exact ⟨w', run_deliver_of_ok hw' job⟩

/-- The block of what is pending. -/
def pendingBlock (job : IncrementalMergeJob V) : OutputBlock V :=
  ⟨job.emittedBlocks, job.pendingKeys, job.pendingValues⟩

/-- The job without the block of what is pending. -/
def flushed (job : IncrementalMergeJob V) : IncrementalMergeJob V :=
  { job with
    pendingKeys := []
    pendingValues := []
    emittedBlocks := job.emittedBlocks + 1 }

/-- The job with one more pending record, which the PGM has not seen. -/
def offered (key : RecordKey) (value : V) (job : IncrementalMergeJob V) : IncrementalMergeJob V :=
  { job with
    pendingKeys := job.pendingKeys ++ [key]
    pendingValues := job.pendingValues ++ [value]
    maxPendingItems := max job.maxPendingItems (job.pendingKeys ++ [key]).length }

/-- The job with one more record, before a block is cut off. -/
def taken (key : RecordKey) (value : V) (pgm : IncrementalPgmBuilder)
    (job : IncrementalMergeJob V) : IncrementalMergeJob V :=
  { job.offered key value with
    pgm := pgm
    outputRecords := job.outputRecords + 1 }

/-- The job has dropped the block before the sink sees it. -/
theorem run_flushBlock_eq (sink : Option (Sink V ω)) (job : IncrementalMergeJob V) (w : ω) :
    (flushBlock sink).run (job, w) = (do
      deliver sink job.pendingBlock
      pure job.pendingBlock : JobM V ω _).run (job.flushed, w) := rfl

/-- A record whose key the PGM takes. -/
theorem run_emit_eq {key : RecordKey} {pgm : IncrementalPgmBuilder}
    (hadd : job.pgm.addKey key = .ok pgm) (value : V) (sink : Option (Sink V ω)) (w : ω) :
    (emit sink key value).run (job, w) =
      (if (job.pendingKeys ++ [key]).length = job.config.itemsPerBlock then do
        let block ← flushBlock sink
        pure [block]
      else pure [] : JobM V ω (List (OutputBlock V))).run (job.taken key value pgm, w) := by
  rw [emit, run_bind_of_ok (run_update _ _), run_bind_of_ok (run_self _),
    run_bind_of_ok (run_update _ _), hadd, run_bind_of_ok (run_liftExcept_ok ..),
    run_bind_of_ok (run_update _ _)]
  rfl

/-- A record whose key the PGM refuses. -/
theorem run_emit_of_error {key : RecordKey} {e : IncrementalMergeError}
    (hadd : job.pgm.addKey key = .error e) (value : V) (sink : Option (Sink V ω)) (w : ω) :
    (emit sink key value).run (job, w) = .error e (job.offered key value, w) := by
  rw [emit, run_bind_of_ok (run_update _ _), run_bind_of_ok (run_self _),
    run_bind_of_ok (run_update _ _), hadd, run_bind_of_error (run_liftExcept_error ..)]
  rfl

/-- The pending records become a block. -/
theorem Packing.run_flushBlock (h : job.Packing pieces pending) (hsink : SinkReturns sink) :
    ∃ job' w', (flushBlock sink).run (job, w) =
        .ok ⟨pieces.length, pending.map Prod.fst, pending.map Prod.snd⟩ (job', w') ∧
      job'.Packing (pieces ++ [pending]) [] ∧ job.SameInputs job' := by
  have hdecided : (pieces ++ [pending]).flatten ++ [] = pieces.flatten ++ pending := by simp
  obtain ⟨w', hw'⟩ := run_deliver hsink job.flushed w job.pendingBlock
  refine ⟨job.flushed, w', ?_, ⟨?_, ?_, ?_, rfl, rfl, h.finalized⟩,
    ⟨⟨rfl, rfl, rfl⟩, rfl, rfl, rfl, rfl⟩⟩
  · rw [← h.pendingKeys, ← h.pendingValues, ← h.emittedBlocks, run_flushBlock_eq,
      run_bind_of_ok hw']
    rfl
  · rw [hdecided]
    exact h.pgm
  · rw [hdecided]
    exact h.outputRecords
  · rw [List.length_append, ← h.emittedBlocks]
    rfl

/-- One record goes out: it is pending, or it completes a block. -/
theorem Packing.run_emit (h : job.Packing pieces pending)
    (hroom : pending.length < job.config.itemsPerBlock) (hsink : SinkReturns sink)
    (hsorted : ((pieces.flatten ++ pending ++ [x]).map Prod.fst).Pairwise (· < ·)) :
    ∃ new pending' job' w', (emit sink x.1 x.2).run (job, w) =
        .ok (blocksFrom pieces.length new) (job', w') ∧
      job'.Packing (pieces ++ new) pending' ∧ job.SameInputs job' ∧
      (∀ p ∈ new, p.length = job.config.itemsPerBlock) ∧
      pending'.length < job.config.itemsPerBlock ∧
      (pieces ++ new).flatten ++ pending' = pieces.flatten ++ pending ++ [x] := by
  obtain ⟨pgm, hadd, hpgm⟩ := h.pgm.addKey
    (show ((pieces.flatten ++ pending).map Prod.fst ++ [x.1]).Pairwise (· < ·) by
      simpa using hsorted)
  have hlen : (job.pendingKeys ++ [x.1]).length = (pending ++ [x]).length := by
    rw [h.pendingKeys, List.length_append, List.length_append, List.length_map]
    rfl
  have hpack : (job.taken x.1 x.2 pgm).Packing pieces (pending ++ [x]) := by
    refine ⟨?_, ?_, h.emittedBlocks, ?_, ?_, h.finalized⟩
    · rw [← List.append_assoc, List.map_append]
      exact hpgm
    · rw [← List.append_assoc, @List.length_append _ _ [x], ← h.outputRecords]
      rfl
    · rw [List.map_append, ← h.pendingKeys]
      rfl
    · rw [List.map_append, ← h.pendingValues]
      rfl
  have hsame : job.SameInputs (job.taken x.1 x.2 pgm) := ⟨⟨rfl, rfl, rfl⟩, rfl, rfl, rfl, rfl⟩
  rw [run_emit_eq hadd, hlen]
  split_ifs with hfull
  · obtain ⟨job', w', hflush, hpack', hsame'⟩ := hpack.run_flushBlock (w := w) hsink
    refine ⟨[pending ++ [x]], [], job', w', ?_, hpack', ?_, ?_, ?_, ?_⟩
    · rw [run_bind_of_ok hflush]
      rfl
    · exact hsame.trans hsame'
    · simpa using hfull
    · exact Nat.zero_lt_of_lt hroom
    · simp
  · refine ⟨[], pending ++ [x], job.taken x.1 x.2 pgm, w, rfl, ?_, hsame, ?_, ?_, ?_⟩
    · rwa [List.append_nil]
    · simp
    · rw [List.length_append, List.length_singleton] at hfull ⊢
      omega
    · simp

/-! ## A round of the loop -/

/-- A job whose cursors have the rest of the union before them. -/
structure Settled (job : IncrementalMergeJob V) (pieces : List (List (RecordKey × V)))
    (pending rest : List (RecordKey × V)) : Prop extends Packing job pieces pending where
  sourceCursor_le : job.sourceCursor ≤ job.source.keys.length
  targetCursor_le : job.targetCursor ≤ job.target.keys.length
  rest_eq : unionNewer Prod.fst (job.source.records.drop job.sourceCursor)
    (job.target.records.drop job.targetCursor) = rest
  duplicateCount : job.duplicateCount + (shadowed Prod.fst
      (job.source.records.drop job.sourceCursor)
      (job.target.records.drop job.targetCursor)).length =
    (shadowed Prod.fst job.source.records job.target.records).length
  decided : pieces.flatten ++ pending ++ rest = mergedRecords job.source job.target

/-- A job between two rounds: every piece is full, and less than a block is pending. -/
structure Running (job : IncrementalMergeJob V) (pieces : List (List (RecordKey × V)))
    (pending rest : List (RecordKey × V)) : Prop extends Settled job pieces pending rest where
  full : ∀ p ∈ pieces, p.length = job.config.itemsPerBlock
  room : pending.length < job.config.itemsPerBlock

/-- The cursors move, over `nd` shadowed records. -/
def moved (ns nt nd : Nat) (job : IncrementalMergeJob V) : IncrementalMergeJob V :=
  { job with
    sourceCursor := job.sourceCursor + ns
    targetCursor := job.targetCursor + nt
    duplicateCount := job.duplicateCount + nd }

/-- Emit a record, then move the cursors. -/
def emitMoved (sink : Option (Sink V ω)) (x : RecordKey × V) (ns nt nd : Nat) :
    JobM V ω (Option (List (OutputBlock V))) := do
  let blocks ← emit sink x.1 x.2
  update (moved ns nt nd)
  pure (some blocks)

/-- The cursors may move over `ns` and `nt` records to the rest of the union, `nd` of them
shadowed. -/
structure Consumes (job : IncrementalMergeJob V) (rest : List (RecordKey × V))
    (ns nt nd : Nat) : Prop where
  source_le : job.sourceCursor + ns ≤ job.source.keys.length
  target_le : job.targetCursor + nt ≤ job.target.keys.length
  rest_eq : unionNewer Prod.fst (job.source.records.drop (job.sourceCursor + ns))
    (job.target.records.drop (job.targetCursor + nt)) = rest
  duplicates : nd + (shadowed Prod.fst (job.source.records.drop (job.sourceCursor + ns))
      (job.target.records.drop (job.targetCursor + nt))).length =
    (shadowed Prod.fst (job.source.records.drop job.sourceCursor)
      (job.target.records.drop job.targetCursor)).length

/-- What a decision does while records are left: it emits the next record of the union and then
consumes it. -/
theorem decision_cases (hsource_le : job.sourceCursor ≤ job.source.keys.length)
    (htarget_le : job.targetCursor ≤ job.target.keys.length)
    (hrest : unionNewer Prod.fst (job.source.records.drop job.sourceCursor)
      (job.target.records.drop job.targetCursor) = x :: rest) :
    ∃ ns nt nd, job.Consumes rest ns nt nd ∧ ∀ {ω : Type} (sink : Option (Sink V ω)) (w : ω),
      (decision sink).run (job, w) = (emitMoved sink x ns nt nd).run (job, w) := by
  have hsource := job.source.sortedBy_drop job.sourceCursor
  have htarget := job.target.sortedBy_drop job.targetCursor
  by_cases hs : job.sourceCursor < job.source.keys.length
  · have hsdrop := job.source.drop_records hs
    by_cases ht : job.targetCursor < job.target.keys.length
    · have htdrop := job.target.drop_records ht
      rw [hsdrop] at hsource
      rw [htdrop] at htarget
      rcases lt_trichotomy job.source.keys[job.sourceCursor] job.target.keys[job.targetCursor]
        with hlt | heq | hgt
      · rw [hsdrop, htdrop, unionNewer_cons_of_lt hsource htarget hlt, ← htdrop] at hrest
        obtain ⟨rfl, hrest'⟩ := List.cons.inj hrest
        refine ⟨1, 0, 0, ⟨hs, htarget_le, hrest', ?_⟩, fun sink w ↦ ?_⟩
        · rw [hsdrop, Nat.zero_add, Nat.add_zero job.targetCursor, htdrop,
            shadowed_cons_of_lt htarget hlt]
        · rw [decision, run_bind_of_ok (run_self _), dif_pos hs, dif_pos ht, if_neg hlt.ne,
            if_pos hlt]
          rfl
      · rw [hsdrop, htdrop, unionNewer_cons_of_eq hsource htarget heq] at hrest
        obtain ⟨rfl, hrest'⟩ := List.cons.inj hrest
        refine ⟨1, 1, 1, ⟨hs, ht, hrest', ?_⟩, fun sink w ↦ ?_⟩
        · rw [hsdrop, htdrop, shadowed_cons_of_eq htarget heq, List.length_cons, Nat.add_comm]
        · rw [decision, run_bind_of_ok (run_self _), dif_pos hs, dif_pos ht, if_pos heq]
          rfl
      · rw [hsdrop, htdrop, unionNewer_cons_of_gt hsource htarget hgt, ← hsdrop] at hrest
        obtain ⟨rfl, hrest'⟩ := List.cons.inj hrest
        refine ⟨0, 1, 0, ⟨hsource_le, ht, hrest', ?_⟩, fun sink w ↦ ?_⟩
        · rw [htdrop, Nat.zero_add, Nat.add_zero job.sourceCursor, hsdrop,
            shadowed_cons_of_gt hsource hgt]
        · rw [decision, run_bind_of_ok (run_self _), dif_pos hs, dif_pos ht, if_neg hgt.ne',
            if_neg hgt.not_gt]
          rfl
    · -- the target is at its end
      have htdrop := job.target.drop_records_of_le (not_lt.mp ht)
      rw [htdrop, unionNewer_nil_right hsource, hsdrop] at hrest
      obtain ⟨rfl, hrest'⟩ := List.cons.inj hrest
      refine ⟨1, 0, 0, ⟨hs, htarget_le, ?_, ?_⟩, fun sink w ↦ ?_⟩
      · rw [Nat.add_zero job.targetCursor, htdrop,
          unionNewer_nil_right (job.source.sortedBy_drop _), hrest']
      · rw [Nat.add_zero job.targetCursor, htdrop]
        rfl
      · rw [decision, run_bind_of_ok (run_self _), dif_pos hs, dif_neg ht]
        rfl
  · -- the source is at its end
    have hsdrop := job.source.drop_records_of_le (not_lt.mp hs)
    rw [hsdrop, unionNewer_nil_left htarget] at hrest
    have ht : job.targetCursor < job.target.keys.length := by
      by_contra ht
      rw [job.target.drop_records_of_le (not_lt.mp ht)] at hrest
      cases hrest
    rw [job.target.drop_records ht] at hrest
    obtain ⟨rfl, hrest'⟩ := List.cons.inj hrest
    refine ⟨0, 1, 0, ⟨hsource_le, ht, ?_, ?_⟩, fun sink w ↦ ?_⟩
    · rw [Nat.add_zero job.sourceCursor, hsdrop,
        unionNewer_nil_left (job.target.sortedBy_drop _), hrest']
    · rw [Nat.add_zero job.sourceCursor, hsdrop, shadowed_nil_left, shadowed_nil_left]
      rfl
    · rw [decision, run_bind_of_ok (run_self _), dif_neg hs, dif_pos ht]
      rfl

namespace Settled

/-- The decided records are increasing by key. -/
theorem sorted_keys (h : job.Settled pieces pending rest) :
    ((pieces.flatten ++ pending).map Prod.fst).Pairwise (· < ·) := sorted_keys_of_append h.decided

/-- The decided records are the first of the union. -/
theorem take_outputRecords (h : job.Settled pieces pending rest) :
    (mergedRecords job.source job.target).take job.outputRecords = pieces.flatten ++ pending := by
  rw [← h.decided, h.outputRecords, List.take_left]

theorem outputRecords_add (h : job.Settled pieces pending rest) :
    job.outputRecords + rest.length = (mergedRecords job.source job.target).length := by
  rw [← h.decided, h.outputRecords, @List.length_append _ _ rest]

/-- The loop ends when nothing is left. -/
theorem exhausted_iff (h : job.Settled pieces pending rest) :
    job.exhausted = true ↔ rest = [] := by
  rw [← h.rest_eq, unionNewer_eq_nil (job.target.sortedBy_drop _), List.drop_eq_nil_iff,
    List.drop_eq_nil_iff, LogicalRunView.length_records, LogicalRunView.length_records,
    exhausted, decide_eq_true_eq]

/-- The cursors are at the ends of the runs when all of the union is decided. -/
theorem cursors_iff (h : job.Settled pieces pending rest) :
    job.sourceCursor = job.source.keys.length ∧ job.targetCursor = job.target.keys.length ↔
      (mergedRecords job.source job.target).length ≤ job.outputRecords := by
  have hend := h.exhausted_iff
  rw [exhausted, decide_eq_true_eq] at hend
  rw [← h.outputRecords_add, add_le_iff_nonpos_right, Nat.le_zero, List.length_eq_zero_iff,
    ← hend]
  exact and_congr (LE.le.ge_iff_eq h.sourceCursor_le).symm (LE.le.ge_iff_eq h.targetCursor_le).symm

/-- The output side may be packed differently. -/
theorem repacked (h : job.Settled pieces pending rest) (hsame : job.SameInputs job₁)
    {pieces' : List (List (RecordKey × V))} (hpack : job₁.Packing pieces' pending')
    (hout : pieces'.flatten ++ pending' = pieces.flatten ++ pending) :
    job₁.Settled pieces' pending' rest := by
  obtain ⟨⟨-, hsource, htarget⟩, hsc, htc, hdc, -⟩ := hsame
  refine ⟨hpack, ?_, ?_, ?_, ?_, ?_⟩
  · rw [hsc, hsource]
    exact h.sourceCursor_le
  · rw [htc, htarget]
    exact h.targetCursor_le
  · rw [hsource, htarget, hsc, htc]
    exact h.rest_eq
  · rw [hsource, htarget, hsc, htc, hdc]
    exact h.duplicateCount
  · rw [hsource, htarget, hout]
    exact h.decided

end Settled

namespace Running

/-- A job that has begun. -/
theorem of_begin (config : IncrementalMergeConfig) {source target : LogicalRunView V}
    (hlevels : target.level = source.level + 1) :
    ∃ job, «begin» config source target = .ok job ∧
      job.Running [] [] (mergedRecords source target) ∧ job.config = config ∧
      job.source = source ∧ job.target = target ∧ job.outputRecords = 0 ∧ job.done = false := by
  unfold «begin»
  rw [if_neg (by omega), if_neg (by omega), if_neg (by omega)]
  refine ⟨_, rfl, ?_⟩
  exact ⟨⟨⟨⟨IncrementalPgmBuilder.follows_init _, rfl, rfl, rfl, rfl, rfl⟩, Nat.zero_le _,
    Nat.zero_le _, rfl, Nat.zero_add _, rfl⟩, by simp, config.itemsPerBlock_pos⟩,
    rfl, rfl, rfl, rfl, rfl⟩

/-- The flag and the counters of the calls are not part of it. -/
theorem marked (h : job.Running pieces pending rest) (done : Bool) (calls steps : Nat) :
    Running { job with done := done, advanceCalls := calls, stepCounter := steps }
      pieces pending rest :=
  ⟨⟨⟨h.pgm, h.outputRecords, h.emittedBlocks, h.pendingKeys, h.pendingValues, h.finalized⟩,
    h.sourceCursor_le, h.targetCursor_le, h.rest_eq, h.duplicateCount, h.decided⟩, h.full, h.room⟩

/-- A round emits the next record and moves the cursors to the rest of the union. -/
theorem run_emit_update (h : job.Running pieces pending (x :: rest)) (hsink : SinkReturns sink)
    {ns nt nd : Nat} (hmoves : job.Consumes rest ns nt nd) :
    ∃ new pending' job' w', (emitMoved sink x ns nt nd).run (job, w) =
          .ok (some (blocksFrom pieces.length new)) (job', w') ∧
      job'.Running (pieces ++ new) pending' rest ∧ job.SameMerge job' ∧
      job'.done = job.done := by
  have hsorted := sorted_keys_of_append ((List.append_cons ..).symm.trans h.decided)
  obtain ⟨new, pending', job₁, w', hemit, hpack, ⟨hmerge, hsc, htc, hdc, hdone⟩, hfull, hroom,
    hout⟩ := h.run_emit (w := w) h.room hsink hsorted
  refine ⟨new, pending', job₁.moved ns nt nd, w', ?_, ⟨⟨⟨hpack.1, hpack.2, hpack.3, hpack.4,
    hpack.5, hpack.6⟩, ?_, ?_, ?_, ?_, ?_⟩, ?_, ?_⟩, ⟨hmerge.1, hmerge.2, hmerge.3⟩, hdone⟩
  · rw [emitMoved, run_bind_of_ok hemit, run_bind_of_ok (run_update _ _)]
    rfl
  · simpa only [moved, hmerge.source, hsc] using hmoves.source_le
  · simpa only [moved, hmerge.target, htc] using hmoves.target_le
  · simpa only [moved, hmerge.source, hmerge.target, hsc, htc] using hmoves.rest_eq
  · simp only [moved, hmerge.source, hmerge.target, hsc, htc, hdc, Nat.add_assoc]
    rw [hmoves.duplicates, h.duplicateCount]
  · simp only [moved, hmerge.source, hmerge.target]
    rw [hout, List.append_assoc, List.singleton_append, h.decided]
  · simp only [moved, hmerge.config]
    intro p hp
    exact (List.mem_append.mp hp).elim (h.full p) (hfull p)
  · simpa only [moved, hmerge.config] using hroom

/-- One decision moves the next record of the union. -/
theorem run_decision (h : job.Running pieces pending (x :: rest)) (hsink : SinkReturns sink) :
    ∃ new pending' job' w', (decision sink).run (job, w) =
        .ok (some (blocksFrom pieces.length new)) (job', w') ∧
      job'.Running (pieces ++ new) pending' rest ∧ job.SameMerge job' ∧
      job'.done = job.done := by
  obtain ⟨ns, nt, nd, hmoves, hrun⟩ :=
    decision_cases h.sourceCursor_le h.targetCursor_le h.rest_eq
  rw [hrun]
  exact h.run_emit_update hsink hmoves

/-- At the ends of both runs the job is done. -/
theorem run_decision_nil (h : job.Running pieces pending []) :
    (decision sink).run (job, w) = .ok none ({ job with done := true }, w) := by
  have hend := of_decide_eq_true (h.exhausted_iff.mpr rfl)
  rw [decision, run_bind_of_ok (run_self _), dif_neg (not_lt.mpr hend.1),
    dif_neg (not_lt.mpr hend.2)]
  rfl

/-- The loop of `advance` moves the next records of the union, as many as it may. -/
theorem run_advanceLoop (h : job.Running pieces pending rest) (hsink : SinkReturns sink)
    (hdone : job.done = false) (budget decisions : Nat) (blocks : List (OutputBlock V)) :
    ∃ new pending' job' w', (advanceLoop sink budget decisions blocks).run (job, w) =
        .ok (decisions + min budget rest.length, blocks ++ blocksFrom pieces.length new)
          (job', w') ∧
      job'.Running (pieces ++ new) pending' (rest.drop budget) ∧ job.SameMerge job' ∧
      (job'.done → rest.drop budget = []) := by
  induction budget generalizing job pieces pending rest decisions blocks w with
  | zero =>
    refine ⟨[], pending, job, w, ?_, ?_, SameMerge.refl job, by simp [hdone]⟩
    · rw [Nat.zero_min, blocksFrom_nil, List.append_nil]
      rfl
    · rwa [List.append_nil]
  | succ budget ih =>
    cases rest with
    | nil =>
      refine ⟨[], pending, { job with done := true }, w, ?_, ?_, ⟨rfl, rfl, rfl⟩, fun _ ↦ rfl⟩
      · rw [advanceLoop, run_bind_of_ok h.run_decision_nil, blocksFrom_nil, List.append_nil]
        rfl
      · rw [List.append_nil]
        exact h.marked true job.advanceCalls job.stepCounter
    | cons x rest =>
      obtain ⟨new, pending₁, job₁, w₁, hrun, h₁, hmerge, hdone₁⟩ := h.run_decision (w := w) hsink
      obtain ⟨new', pending', job', w', hloop, h', hmerge', hend⟩ :=
        ih (w := w₁) h₁ (hdone₁.trans hdone) (decisions + 1)
          (blocks ++ blocksFrom pieces.length new)
      refine ⟨new ++ new', pending', job', w', ?_, ?_, hmerge.trans hmerge', hend⟩
      · rw [advanceLoop, run_bind_of_ok hrun, hloop, blocksFrom_append, List.append_assoc,
          List.length_append, List.length_cons, Nat.add_min_add_right, Nat.add_right_comm,
          Nat.add_assoc]
      · rwa [← List.append_assoc]

/-- After the loop the flag is set when nothing is left. -/
theorem done_iff (h : job.Running pieces pending rest) (hend : job.done = true → rest = []) :
    (job.done || job.exhausted) = true ↔ rest = [] := by
  rw [Bool.or_eq_true, h.exhausted_iff, or_iff_right_of_imp hend]

/-- Nothing is flushed while something is left. -/
theorem run_flushLast_of_not_done (hdone : job.done = false) :
    (flushLast sink).run (job, w) = .ok [] (job, w) := by
  rw [flushLast, run_bind_of_ok (run_self _), if_neg (by simp [hdone])]
  rfl

/-- At the end the pending records become the last block. -/
theorem run_flushLast (h : job.Running pieces pending []) (hdone : job.done = true)
    (hsink : SinkReturns sink) :
    ∃ new job' w', (flushLast sink).run (job, w) =
        .ok (blocksFrom pieces.length new) (job', w') ∧
      job'.Settled (pieces ++ new) [] [] ∧ job.SameInputs job' ∧
      pieces ++ new = chunks job.config.itemsPerBlock (mergedRecords job.source job.target) := by
  have hc : 0 < job.config.itemsPerBlock := job.config.itemsPerBlock_pos
  have hchunks := chunks_append hc h.full pending
  have hdecided := h.decided
  rw [List.append_nil] at hdecided
  rw [hdecided] at hchunks
  rw [flushLast, run_bind_of_ok (run_self _)]
  rcases List.eq_nil_or_concat pending with rfl | ⟨_, _, hpending⟩
  · rw [if_neg fun hne ↦ hne.2 h.pendingKeys]
    refine ⟨[], job, w, rfl, ?_, ⟨SameMerge.refl job, rfl, rfl, rfl, rfl⟩, ?_⟩
    · rw [List.append_nil]
      exact h.toSettled
    · rw [hchunks, chunks_nil hc]
  · have hne : pending ≠ [] := by simp [hpending]
    have hkeys : job.pendingKeys ≠ [] := by simpa [h.pendingKeys] using hne
    obtain ⟨job', w', hflush, hpack, hsame⟩ := h.run_flushBlock (w := w) hsink
    rw [if_pos ⟨hdone, hkeys⟩]
    refine ⟨[pending], job', w', ?_, h.repacked hsame hpack (by simp), hsame, ?_⟩
    · rw [run_bind_of_ok hflush]
      rfl
    · rw [hchunks, chunks_of_length_le hc hne h.room.le]

end Running

/-! ## A call -/

/-- A job between two calls: some of the union is left to be decided, or all of it is out. -/
inductive Paused (job : IncrementalMergeJob V) (pieces : List (List (RecordKey × V))) : Prop
  | running {pending rest : List (RecordKey × V)} (h : job.Running pieces pending rest)
      (hdone : job.done = false)
  | finished (h : job.Settled pieces [] []) (hdone : job.done = true)
      (hpieces : pieces = chunks job.config.itemsPerBlock (mergedRecords job.source job.target))

/-- What `finalize` makes of a job and its PGM. -/
def result (job : IncrementalMergeJob V) (pgm : BatchPgmIndex) : IncrementalMergeResult where
  sourceLevel := job.source.level
  targetLevel := job.target.level
  recordCount := job.outputRecords
  blockCount := job.emittedBlocks
  duplicateCount := job.duplicateCount
  firstKey := pgm.firstKey
  lastKey := pgm.lastKey
  pgm := pgm
  state := job.state
  pgmSegmentStartRanks := job.pgm.segmentStartRanks

/-- A call on a job that is done changes no field. -/
theorem run_advance_of_done (hdone : job.done = true) {q : Int} (hq : 0 < q) :
    (advance sink q).run (job, w) = .ok ⟨0, [], job.state, true⟩ (job, w) := by
  rw [advance, if_neg (not_le.mpr hq), run_bind_of_ok (run_self _), if_pos hdone]
  rfl

namespace Paused

theorem outputRecords_le (h : job.Paused pieces) :
    job.outputRecords ≤ (mergedRecords job.source job.target).length := by
  cases h with
  | running h _ => exact h.outputRecords_add ▸ Nat.le_add_right _ _
  | finished h _ _ => exact h.outputRecords_add ▸ Nat.le_add_right _ _

theorem le_outputRecords (h : job.Paused pieces) (hdone : job.done = true) :
    (mergedRecords job.source job.target).length ≤ job.outputRecords := by
  cases h with
  | running _ hfalse => rw [hfalse] at hdone; cases hdone
  | finished h _ _ => exact h.outputRecords_add.ge

/-- A call decides as many records as it may. -/
theorem run_advance (h : job.Paused pieces) (hsink : SinkReturns sink) {q : Int} (hq : 0 < q) :
    ∃ new step job' w', (advance sink q).run (job, w) = .ok step (job', w') ∧
      step.blocks = blocksFrom pieces.length new ∧ step.state = job'.state ∧
      step.done = job'.done ∧
      step.decisions =
        min q.toNat ((mergedRecords job.source job.target).length - job.outputRecords) ∧
      job'.outputRecords = job.outputRecords + step.decisions ∧
      (job'.done = true ↔
        (mergedRecords job.source job.target).length ≤ job.outputRecords + q.toNat) ∧
      job'.Paused (pieces ++ new) ∧ job.SameMerge job' := by
  cases h with
  | finished h hdone hpieces =>
    have hlen := h.outputRecords_add
    rw [List.length_nil, Nat.add_zero] at hlen
    refine ⟨[], ⟨0, [], job.state, true⟩, job, w, run_advance_of_done hdone hq, rfl, rfl,
      hdone.symm, ?_, rfl, ?_, ?_, SameMerge.refl job⟩
    · rw [hlen, Nat.sub_self, Nat.min_zero]
    · exact iff_of_true hdone (hlen ▸ Nat.le_add_right _ _)
    · rw [List.append_nil]
      exact .finished h hdone hpieces
  | @running pending rest h hdone =>
    have h₀ := h.marked job.done (job.advanceCalls + 1) (job.stepCounter + 1)
    obtain ⟨new, pending', job₁, w₁, hloop, h₁, hmerge, hend⟩ :=
      h₀.run_advanceLoop (w := w) hsink hdone q.toNat 0 []
    rw [Nat.zero_add, List.nil_append] at hloop
    have hrun : (advance sink q).run (job, w) = (do
        update fun job ↦ { job with done := job.done || job.exhausted }
        let last ← flushLast sink
        let job ← self
        pure ⟨min q.toNat rest.length, blocksFrom pieces.length new ++ last, job.state,
          job.done⟩ : JobM V ω _).run (job₁, w₁) := by
      rw [advance, if_neg (not_le.mpr hq), run_bind_of_ok (run_self _), if_neg (by simp [hdone]),
        run_bind_of_ok (run_update _ _), run_bind_of_ok hloop]
    have hlen : job.outputRecords + rest.length =
        (mergedRecords job.source job.target).length := h.outputRecords_add
    have hdrop : rest.drop q.toNat = [] ↔ rest.length ≤ q.toNat := List.drop_eq_nil_iff
    -- the job after the loop, its flag set when both runs are at their ends
    obtain ⟨job₂, hjob₂⟩ : ∃ job₂, job₂ = { job₁ with done := job₁.done || job₁.exhausted } :=
      ⟨_, rfl⟩
    have h₂ : job₂.Running (pieces ++ new) pending' (rest.drop q.toNat) := by
      rw [hjob₂]
      exact h₁.marked _ _ _
    have hdone₂ : job₂.done = true ↔ rest.drop q.toNat = [] := by
      rw [hjob₂]
      exact h₁.done_iff hend
    have hmerge₂ : job.SameMerge job₂ := by
      rw [hjob₂]
      exact ⟨hmerge.config, hmerge.source, hmerge.target⟩
    rw [hrun, run_bind_of_ok (run_update _ _), ← hjob₂]
    by_cases hnil : rest.drop q.toNat = []
    · rw [hnil] at h₂
      obtain ⟨new', job', w', hlast, h', hsame, hpieces⟩ :=
        h₂.run_flushLast (w := w₁) (hdone₂.mpr hnil) hsink
      have hmerge' := hmerge₂.trans hsame.toSameMerge
      have hdone' : job'.done = true := hsame.done.trans (hdone₂.mpr hnil)
      have hlen' := h'.outputRecords_add
      rw [hmerge'.source, hmerge'.target, List.length_nil] at hlen'
      rw [run_bind_of_ok hlast, run_bind_of_ok (run_self _)]
      refine ⟨new ++ new', _, job', w', rfl, ?_, rfl, rfl, ?_, ?_, ?_, ?_, hmerge'⟩
      · rw [blocksFrom_append, List.length_append]
      · rw [← hlen, Nat.add_sub_cancel_left]
      · have := hdrop.mp hnil
        simp only
        omega
      · rw [← hlen, Nat.add_le_add_iff_left]
        exact iff_of_true hdone' (hdrop.mp hnil)
      · rw [← List.append_assoc]
        refine .finished h' hdone' ?_
        rw [hpieces, hsame.config, hsame.source, hsame.target]
    · have hdone' : job₂.done = false := Bool.eq_false_iff.mpr (mt hdone₂.mp hnil)
      have hlen' := h₂.outputRecords_add
      rw [hmerge₂.source, hmerge₂.target, List.length_drop] at hlen'
      rw [run_bind_of_ok (Running.run_flushLast_of_not_done hdone'),
        run_bind_of_ok (run_self _), List.append_nil]
      refine ⟨new, _, job₂, w₁, rfl, rfl, rfl, rfl, ?_, ?_, ?_, .running h₂ hdone', hmerge₂⟩
      · rw [← hlen, Nat.add_sub_cancel_left]
      · simp only
        omega
      · rw [hdone₂, hdrop, ← hlen, Nat.add_le_add_iff_left]

/-- Any calls, one after the other. -/
theorem run_calls (h : job.Paused pieces) (hsink : SinkReturns sink) {qs : List Int}
    (hqs : ∀ q ∈ qs, 0 < q) :
    ∃ new steps job' w', (qs.mapM (advance sink)).run (job, w) = .ok steps (job', w') ∧
      steps.flatMap (·.blocks) = blocksFrom pieces.length new ∧
      job'.outputRecords = min (job.outputRecords + (qs.map Int.toNat).sum)
        (mergedRecords job.source job.target).length ∧
      (job'.done = true ↔ job.done = true ∨ qs ≠ [] ∧
        (mergedRecords job.source job.target).length ≤
          job.outputRecords + (qs.map Int.toNat).sum) ∧
      job'.Paused (pieces ++ new) ∧ job.SameMerge job' := by
  induction qs generalizing job pieces w with
  | nil =>
    refine ⟨[], [], job, w, rfl, rfl, ?_, by simp, ?_, SameMerge.refl job⟩
    · rw [List.map_nil, List.sum_nil, Nat.add_zero, Nat.min_eq_left h.outputRecords_le]
    · rwa [List.append_nil]
  | cons q qs ih =>
    obtain ⟨new, step, job₁, w₁, hrun, hblocks, -, -, hdecisions, hout, hdone, h₁, hmerge⟩ :=
      h.run_advance (w := w) hsink (hqs q List.mem_cons_self)
    obtain ⟨new', steps, job', w', hruns, hblocks', hout', hdone', h', hmerge'⟩ :=
      ih (w := w₁) h₁ fun p hp ↦ hqs p (List.mem_cons_of_mem q hp)
    have hle := h.outputRecords_le
    rw [hmerge.source, hmerge.target] at hout' hdone'
    refine ⟨new ++ new', step :: steps, job', w', ?_, ?_, ?_, ?_, ?_, hmerge.trans hmerge'⟩
    · rw [List.mapM_cons, run_bind_of_ok hrun, run_bind_of_ok hruns]
      rfl
    · rw [List.flatMap_cons, hblocks, hblocks', blocksFrom_append, List.length_append]
    · rw [List.map_cons, List.sum_cons]
      omega
    · rw [List.map_cons, List.sum_cons, hdone', hdone]
      constructor
      · rintro (hq | ⟨-, hq⟩)
        · exact Or.inr ⟨List.cons_ne_nil q qs, by omega⟩
        · exact Or.inr ⟨List.cons_ne_nil q qs, by omega⟩
      · rintro (hq | ⟨-, hq⟩)
        · have := h.le_outputRecords hq
          exact Or.inl (by omega)
        · rcases qs with _ | ⟨p, qs⟩
          · exact Or.inl (by simpa using hq)
          · exact Or.inr ⟨List.cons_ne_nil p qs, by omega⟩
    · rwa [← List.append_assoc]

end Paused

namespace Paused

/-- The pieces that are out are the first ones of the union. -/
theorem blocks_eq (h : job.Paused pieces) :
    blocksFrom 0 pieces = (canonicalBlocks job.config.itemsPerBlock
      (mergedRecords job.source job.target)).take job.emittedBlocks := by
  have hstart : ∃ l, chunks job.config.itemsPerBlock (mergedRecords job.source job.target) =
      pieces ++ l ∧ job.emittedBlocks = pieces.length := by
    cases h with
    | @running pending rest h _ =>
      refine ⟨chunks job.config.itemsPerBlock (pending ++ rest), ?_, h.emittedBlocks⟩
      rw [← chunks_append job.config.itemsPerBlock_pos h.full, ← List.append_assoc, h.decided]
    | finished h _ hpieces => exact ⟨[], by rw [List.append_nil, hpieces], h.emittedBlocks⟩
  obtain ⟨l, hl, hemitted⟩ := hstart
  rw [canonicalBlocks, hl, blocksFrom_append, List.take_left' (by rw [length_blocksFrom, hemitted])]

theorem blocks_of_done (h : job.Paused pieces) (hdone : job.done = true) :
    blocksFrom 0 pieces =
      canonicalBlocks job.config.itemsPerBlock (mergedRecords job.source job.target) := by
  cases h with
  | running _ hfalse => rw [hfalse] at hdone; cases hdone
  | finished _ _ hpieces => rw [hpieces, canonicalBlocks]

/-- All blocks of the union are out. -/
theorem emittedBlocks_of_done (h : job.Paused pieces) (hdone : job.done = true) :
    job.emittedBlocks = (canonicalBlocks job.config.itemsPerBlock
      (mergedRecords job.source job.target)).length := by
  have hlength := congrArg List.length (h.blocks_of_done hdone)
  rw [length_blocksFrom] at hlength
  cases h with
  | running h _ => exact h.emittedBlocks.trans hlength
  | finished h _ _ => exact h.emittedBlocks.trans hlength

theorem pendingItems_lt (h : job.Paused pieces) :
    job.pendingKeys.length < job.config.itemsPerBlock := by
  cases h with
  | running h _ => simpa only [h.pendingKeys, List.length_map] using h.room
  | finished h _ _ => exact h.pendingKeys ▸ job.config.itemsPerBlock_pos

/-- The state of the PGM is that of the keys that are decided. -/
theorem segmentStartRanks (h : job.Paused pieces) :
    ∃ segments, makeSegmentation (((mergedRecords job.source job.target).take
        job.outputRecords).map Prod.fst) job.config.epsilon = .ok segments ∧
      job.pgm.segmentStartRanks = segments.map (·.startRank) := by
  cases h with
  | running h _ => exact h.take_outputRecords ▸ h.pgm.segmentStartRanks h.sorted_keys
  | finished h _ _ => exact h.take_outputRecords ▸ h.pgm.segmentStartRanks h.sorted_keys

theorem cursors_iff (h : job.Paused pieces) :
    job.sourceCursor = job.source.keys.length ∧ job.targetCursor = job.target.keys.length ↔
      (mergedRecords job.source job.target).length ≤ job.outputRecords := by
  cases h with
  | running h _ => exact h.cursors_iff
  | finished h _ _ => exact h.cursors_iff

/-- Each common key is counted once. -/
theorem duplicateCount_eq (h : job.Paused pieces) (hdone : job.done = true) :
    job.duplicateCount = (job.source.keys.toFinset ∩ job.target.keys.toFinset).card := by
  cases h with
  | running _ hfalse => rw [hfalse] at hdone; cases hdone
  | finished h _ _ =>
    have hnil := (unionNewer_eq_nil (job.target.sortedBy_drop _)).mp h.rest_eq
    have hcount := h.duplicateCount
    rw [hnil.1, shadowed_nil_left, List.length_nil, Nat.add_zero] at hcount
    rw [hcount, length_shadowed_records]

/-- The result of a merge that is done. -/
theorem run_finalize (h : job.Paused pieces) (hdone : job.done = true) :
    ∃ pgm, (finalize : JobM V ω _).run (job, w) =
        .ok (job.result pgm) ({ job with finalized := some (job.result pgm) }, w) ∧
      buildBatchPgm ((mergedRecords job.source job.target).map Prod.fst) job.config.epsilon =
        .ok pgm := by
  cases h with
  | running _ hfalse => rw [hfalse] at hdone; cases hdone
  | finished h _ _ =>
    obtain ⟨pgm, hpgm, hbatch⟩ := h.pgm.finalize h.sorted_keys
    have hdecided := h.decided
    rw [List.append_nil] at hdecided
    rw [hdecided] at hbatch
    rw [finalize, run_bind_of_ok (run_self _), if_pos hdone]
    simp only [h.finalized]
    rw [hpgm, run_bind_of_ok (run_liftExcept_ok ..)]
    exact ⟨pgm, rfl, hbatch⟩

end Paused

/-- For any positive budgets, the calls produce the blocks of the canonical packing of the
union, and at every pause the segments are those of the keys that are decided.  A call decides
as many records as its budget and the union allow, and the job is done when all of the union is
decided. -/
theorem advance_canonical (config : IncrementalMergeConfig) {source target : LogicalRunView V}
    (hlevels : target.level = source.level + 1) {sink : Option (Sink V ω)}
    (hsink : SinkReturns sink) {qs : List Int} (hqs : ∀ q ∈ qs, 0 < q) (w : ω) :
    ∃ job steps job' w', «begin» config source target = .ok job ∧
      (qs.mapM (advance sink)).run (job, w) = .ok steps (job', w') ∧
      steps.flatMap (·.blocks) = (canonicalBlocks config.itemsPerBlock
        (mergedRecords source target)).take job'.emittedBlocks ∧
      job'.outputRecords = min (qs.map Int.toNat).sum (mergedRecords source target).length ∧
      (job'.done = true ↔
        qs ≠ [] ∧ (mergedRecords source target).length ≤ (qs.map Int.toNat).sum) ∧
      job'.state.pendingItems < config.itemsPerBlock ∧
      (∃ segments, makeSegmentation (((mergedRecords source target).take
          job'.outputRecords).map Prod.fst) config.epsilon = .ok segments ∧
        job'.pgmState.segmentStartRanks = segments.map (·.startRank)) ∧
      (∀ q, 0 < q → ∃ step job'' w'', (advance sink q).run (job', w') = .ok step (job'', w'') ∧
        step.decisions =
          min q.toNat ((mergedRecords source target).length - job'.outputRecords) ∧
        (step.done = true ↔ job''.sourceCursor = source.keys.length ∧
          job''.targetCursor = target.keys.length)) ∧
      (job'.done = true →
        steps.flatMap (·.blocks) =
          canonicalBlocks config.itemsPerBlock (mergedRecords source target) ∧
        CanonicalPacking config.itemsPerBlock (mergedRecords source target)
          (steps.flatMap (·.blocks)) ∧
        job'.duplicateCount = (source.keys.toFinset ∩ target.keys.toFinset).card ∧
        (∀ q, 0 < q →
          (advance sink q).run (job', w') = .ok ⟨0, [], job'.state, true⟩ (job', w')) ∧
        ∃ result, (finalize : JobM V ω _).run (job', w') =
            .ok result ({ job' with finalized := some result }, w') ∧
          buildBatchPgm ((mergedRecords source target).map Prod.fst) config.epsilon =
            .ok result.pgm ∧
          result.duplicateCount = job'.duplicateCount) := by
  obtain ⟨job, hbegin, hrunning, rfl, rfl, rfl, hzero, hfalse⟩ := Running.of_begin config hlevels
  obtain ⟨pieces, steps, job', w', hrun, hblocks, hout, hdone, h', hmerge⟩ :=
    (Paused.running hrunning hfalse).run_calls (w := w) hsink hqs
  rw [List.length_nil] at hblocks
  rw [List.nil_append] at h'
  rw [hzero, Nat.zero_add] at hout hdone
  refine ⟨job, steps, job', w', hbegin, hrun, ?_, hout, ?_, ?_, ?_, ?_, fun hend ↦
    ⟨?_, ?_, ?_, fun q hq ↦ run_advance_of_done hend hq, ?_⟩⟩
  · rw [hblocks, h'.blocks_eq, hmerge.config, hmerge.source, hmerge.target]
  · rw [hdone, hfalse, or_iff_right Bool.false_ne_true]
  · exact hmerge.config ▸ h'.pendingItems_lt
  · rw [← hmerge.config, ← hmerge.source, ← hmerge.target]
    exact h'.segmentStartRanks
  · intro q hq
    obtain ⟨new, step, job'', w'', hcall, -, -, hstep, hdecisions, hout', hdone', h'', hmerge'⟩ :=
      h'.run_advance (w := w') hsink hq
    have hends := h''.cursors_iff
    rw [hmerge'.source, hmerge'.target] at hends
    rw [hmerge.source, hmerge.target] at hdecisions hdone' hends
    refine ⟨step, job'', w'', hcall, hdecisions, ?_⟩
    rw [hstep, hdone', hends, hout']
    omega
  · rw [hblocks, h'.blocks_of_done hend, hmerge.config, hmerge.source, hmerge.target]
  · rw [hblocks, h'.blocks_of_done hend, hmerge.config, hmerge.source, hmerge.target]
    exact canonicalPacking_canonicalBlocks job.config.itemsPerBlock_pos _
  · rw [h'.duplicateCount_eq hend, hmerge.source, hmerge.target]
  · obtain ⟨pgm, hfinalize, hbatch⟩ := h'.run_finalize (w := w') hend
    refine ⟨job'.result pgm, hfinalize, ?_, rfl⟩
    rw [← hmerge.config, ← hmerge.source, ← hmerge.target]
    exact hbatch

/-- A run with the keys 1 and 3. -/
def oddRun : LogicalRunView Nat := ⟨0, [⟨1⟩, ⟨3⟩], [10, 30], rfl, by decide⟩

/-- A run with the keys 1, 2 and 3. -/
def fullRun : LogicalRunView Nat := ⟨1, [⟨1⟩, ⟨2⟩, ⟨3⟩], [11, 21, 31], rfl, by decide⟩

/-- Two calls, the first of which pauses within a block. -/
theorem advance_canonical_oddRun :
    ∃ job steps job' w', «begin» ⟨2, 0, by decide⟩ oddRun fullRun = .ok job ∧
      ([1, 5].mapM (advance (none : Option (Sink Nat Unit)))).run (job, ()) =
        .ok steps (job', w') ∧
      steps.flatMap (·.blocks) = [⟨0, [⟨1⟩, ⟨2⟩], [10, 21]⟩, ⟨1, [⟨3⟩], [30]⟩] := by
  obtain ⟨job, steps, job', w', hbegin, hrun, -, -, hdone, -, -, -, hend⟩ :=
    advance_canonical ⟨2, 0, by decide⟩ (show fullRun.level = oddRun.level + 1 from rfl)
      (show SinkReturns (none : Option (Sink Nat Unit)) by intro f hf; cases hf)
      (show ∀ q ∈ [(1 : Int), 5], 0 < q by decide) ()
  have hblocks := (hend (hdone.mpr ⟨by decide, by decide +kernel⟩)).1
  exact ⟨job, steps, job', w', hbegin, hrun, hblocks.trans (by decide +kernel)⟩

end IncrementalMergeJob

end EnhancedLetIndex
