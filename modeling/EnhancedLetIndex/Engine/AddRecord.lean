import EnhancedLetIndex.Basic.Insort
import EnhancedLetIndex.Engine.State

/-!
# Adding records to a block

`add_record` of `block.py`, which inserts the record, validates the block again, and does not take
the record out when the validation fails.  A full block is left alone.  A block with room takes
every record: with a new key it stays a block, with a key that it has it raises and keeps the
record (`addsSafely_iff`).  So the calls of a run are safe exactly when the keys of the block and of
the records that there is room for are different (`addRecord_safe_iff`).
-/

namespace EnhancedLetIndex

variable {V : Type}

/-- What `add_record` raises: `BlockInvariantError` or `BlockFullError`. -/
inductive AddRecordError where
  | invariant (e : BlockError)
  | full (blockId : BlockId) (capacity : Nat)
deriving DecidableEq, Repr

namespace RawBlock

/-- `add_record`. -/
def addRecord (record : Record V) : EStateM AddRecordError (RawBlock V) Unit := do
  let b ← get
  liftExcept .invariant b.validate
  if b.isFull then throw (.full b.blockId b.capacity)
  else do
    modify fun b ↦ { b with records := insort (·.key) record b.records }
    let b ← get
    liftExcept .invariant b.validate

/-- The block after a run of calls, whatever they have raised. -/
def afterCalls (b : RawBlock V) (records : List (Record V)) : RawBlock V :=
  records.foldl (fun b record ↦ finalState ((addRecord record).run b)) b

/-- The call leaves a block, and the records as they were if it raises. -/
def AddsSafely (b : RawBlock V) (record : Record V) : Prop :=
  (finalState ((addRecord record).run b)).Valid ∧
    ∀ err b', (addRecord record).run b = .error err b' → b'.records = b.records

/-! ## One call -/

/-- The block with a record more. -/
def inserted (b : RawBlock V) (record : Record V) : RawBlock V :=
  { b with records := insort (·.key) record b.records }

variable {b : RawBlock V} {record : Record V} {records : List (Record V)}

theorem size_inserted (b : RawBlock V) (record : Record V) :
    (b.inserted record).size = b.size + 1 := length_insort record b.records

/-- With a record more a block with room is a block exactly when the key is new. -/
theorem valid_inserted_iff (h : b.Valid) (hroom : b.size < b.capacity) :
    (b.inserted record).Valid ↔ record.key ∉ b.records.map (·.key) := by
  rw [← sortedBy_insort_iff h.sorted]
  constructor
  · intro hvalid
    exact hvalid.sorted
  · intro hsorted
    refine ⟨h.capacity_pos, ?_, hsorted⟩
    rw [size_inserted]
    exact hroom

/-- A full block is left alone. -/
theorem run_addRecord_full (h : b.Valid) (hfull : ¬ b.size < b.capacity) :
    (addRecord record).run b = .error (.full b.blockId b.capacity) b := by
  have hisFull : b.isFull = true := decide_eq_true (not_lt.mp hfull)
  rw [addRecord, run_get_bind, validate_eq_ok.mpr h, run_bind_of_ok (run_liftExcept_ok _ _ _),
    if_pos hisFull]
  rfl

/-- A block with room takes the record, and is validated again. -/
theorem run_addRecord_room (h : b.Valid) (hroom : b.size < b.capacity) :
    (addRecord record).run b =
      (liftExcept AddRecordError.invariant (b.inserted record).validate).run
        (b.inserted record) := by
  have hisFull : ¬ b.isFull = true := by
    rw [isFull, decide_eq_true_eq]
    exact not_le.mpr hroom
  rw [addRecord, run_get_bind, validate_eq_ok.mpr h, run_bind_of_ok (run_liftExcept_ok _ _ _),
    if_neg hisFull]
  rfl

/-- A call is unsafe when the block has room and has the key. -/
theorem addsSafely_iff (h : b.Valid) :
    b.AddsSafely record ↔ (b.size < b.capacity → record.key ∉ b.records.map (·.key)) := by
  rw [AddsSafely]
  by_cases hroom : b.size < b.capacity
  · rw [run_addRecord_room h hroom, ← valid_inserted_iff h hroom]
    constructor
    · rintro ⟨hvalid, -⟩ -
      cases hvalidate : (b.inserted record).validate with
      | error err =>
        rw [hvalidate] at hvalid
        exact hvalid
      | ok _ => exact validate_eq_ok.mp hvalidate
    · intro hvalid
      rw [validate_eq_ok.mpr (hvalid hroom)]
      refine ⟨hvalid hroom, ?_⟩
      rintro err b' ⟨⟩
  · rw [run_addRecord_full h hroom]
    refine iff_of_true ⟨h, ?_⟩ fun hlt ↦ absurd hlt hroom
    rintro err b' ⟨⟩
    rfl

/-! ## A run of calls -/

/-- The first call of a run, and the others on the block that it leaves. -/
theorem forall_addsSafely_cons :
    (∀ i r, (record :: records)[i]? = some r →
      (b.afterCalls ((record :: records).take i)).AddsSafely r) ↔
    b.AddsSafely record ∧ ∀ i r, records[i]? = some r →
      ((finalState ((addRecord record).run b)).afterCalls (records.take i)).AddsSafely r := by
  constructor
  · intro h
    exact ⟨h 0 record rfl, fun i r hr ↦ h (i + 1) r hr⟩
  · rintro ⟨hfirst, hrest⟩ i r hr
    cases i with
    | zero =>
      cases hr
      exact hfirst
    | succ i => exact hrest i r hr

/-- The calls of a run are safe exactly when the keys of the block and of the records that there is
room for are different. -/
theorem forall_addsSafely_iff (h : b.Valid) :
    (∀ i r, records[i]? = some r → (b.afterCalls (records.take i)).AddsSafely r) ↔
      ((b.records ++ records.take (b.capacity - b.size)).map (·.key)).Nodup := by
  induction records generalizing b with
  | nil =>
    rw [List.take_nil, List.append_nil]
    exact iff_of_true (fun i r hr ↦ by simp at hr) h.sorted.nodup_keys
  | cons record records ih =>
    rw [forall_addsSafely_cons, addsSafely_iff h]
    by_cases hroom : b.size < b.capacity
    · rw [run_addRecord_room h hroom]
      obtain ⟨room, hcapacity⟩ := Nat.exists_eq_add_of_lt hroom
      by_cases hnew : record.key ∉ b.records.map (·.key)
      · -- the record is in its place, and there is room for one less
        have hvalid := (valid_inserted_iff h hroom).mpr hnew
        have hrest : (b.inserted record).capacity - (b.inserted record).size = room := by
          rw [size_inserted]
          show b.capacity - (b.size + 1) = room
          omega
        have hperm : ((b.inserted record).records ++ records.take room).Perm
            (b.records ++ record :: records.take room) :=
          ((insort_perm record b.records).append_right _).trans List.perm_middle.symm
        rw [validate_eq_ok.mpr hvalid, run_liftExcept_ok, finalState_ok, ih hvalid, hrest,
          (hperm.map _).nodup_iff, show b.capacity - b.size = room + 1 by omega,
          List.take_succ_cons]
        exact and_iff_right fun _ ↦ hnew
      · -- the record stays in a block that has its key
        refine iff_of_false (fun hsafe ↦ hnew (hsafe.1 hroom)) fun hnodup ↦ hnew ?_
        rw [show b.capacity - b.size = room + 1 by omega, List.take_succ_cons, List.map_append,
          List.map_cons] at hnodup
        exact fun hmem ↦ (List.nodup_append.mp hnodup).2.2 _ hmem _ List.mem_cons_self rfl
    · -- nothing happens to a full block
      have hnone : b.capacity - b.size = 0 := Nat.sub_eq_zero_of_le (not_lt.mp hroom)
      rw [run_addRecord_full h hroom, finalState_error, ih h, hnone, List.take_zero, List.take_zero]
      exact and_iff_right fun hlt ↦ absurd hlt hroom

end RawBlock

/-- In a run of calls of `add_record` on a block, whether they return or raise, every call leaves a
block, and the records as they were when it raises, exactly when the keys of the block and of as
many records as there is room for are different. -/
theorem addRecord_safe_iff (b : Block V) (records : List (Record V)) :
    (∀ i record, records[i]? = some record →
      (b.afterCalls (records.take i)).AddsSafely record) ↔
    ((b.records ++ records.take (b.capacity - b.size)).map (·.key)).Nodup :=
  RawBlock.forall_addsSafely_iff b.valid

/-- A block with room for one more record. -/
def oneRecord : Block String where
  blockId := ⟨7⟩
  capacity := 2
  records := [{ key := ⟨10⟩, value := "v10" }]
  valid := RawBlock.validate_eq_ok.mp (by decide)

/-- A record with the same key raises, and stays in the block. -/
theorem addRecord_leaks_oneRecord : ¬ ∀ (b : Block String) (records : List (Record String)),
    ∀ i record, records[i]? = some record →
      (b.afterCalls (records.take i)).AddsSafely record := by
  intro h
  have hsafe := h oneRecord [{ key := ⟨10⟩, value := "w10" }] 0 _ rfl
  have hrun : (RawBlock.addRecord { key := ⟨10⟩, value := "w10" }).run oneRecord.toRawBlock =
      .error (.invariant (.keys ⟨7⟩ ⟨10⟩ ⟨10⟩))
        ⟨⟨7⟩, 2, [{ key := ⟨10⟩, value := "v10" }, { key := ⟨10⟩, value := "w10" }]⟩ := rfl
  cases hsafe.2 _ _ hrun

end EnhancedLetIndex
