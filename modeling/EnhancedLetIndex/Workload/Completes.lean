import EnhancedLetIndex.Workload.Progress

/-!
# Which scripts run to their end

`WorkloadScript.book` says in terms of the script alone what a run knows after some of its
operations: the live levels and the references that have been declared queryable.  A script whose
levels have references of their own runs to its end exactly when every operation of it is accepted
by the book of those before it.
-/

namespace EnhancedLetIndex

/-! ## The book of a script -/

/-- The levels that a script has built, and the references that it has declared queryable. -/
structure LevelBook extends LiveLevels where
  indexed : Finset String

/-- The references that an operation declares queryable when `n` levels have been published. -/
def WorkloadOperation.declares (op : WorkloadOperation) (n : Nat) : Finset String :=
  match op.operationClass with
  | some .buildPgm => op.levelRef.toFinset
  | some .merge => {op.boundRef n}
  | _ => ∅

namespace LevelBook

/-- The references of the live levels, the newest first. -/
def refs (b : LevelBook) : List String := b.levels.map Prod.fst

/-- The book after one more operation. -/
def next (b : LevelBook) (op : WorkloadOperation) : LevelBook :=
  ⟨b.toLiveLevels.next op, b.indexed ∪ op.declares b.published⟩

/-- Whether an operation goes through, by its kind. -/
def AcceptsAs (b : LevelBook) (op : WorkloadOperation) : Option OperationClass → Prop
  | some .buildInitial => (op.records.map (·.key)).Nodup
  | some .upsert => op.records ≠ [] ∧ (op.records.map (·.key)).Nodup
  | some .buildPgm => op.levelRef ∈ b.refs.map some
  | some .merge => [op.newerRef, op.olderRef] <:+: b.refs.map some
  | some .query => op.keys ≠ [] ∧ ∀ level ∈ b.levels, level.2 ≠ ∅ → level.1 ∈ b.indexed
  | none => False

/-- Whether an operation goes through. -/
def Accepts (b : LevelBook) (op : WorkloadOperation) : Prop := b.AcceptsAs op op.operationClass

instance (b : LevelBook) (op : WorkloadOperation) : DecidablePred (b.AcceptsAs op)
  | some .buildInitial => inferInstanceAs (Decidable (List.Nodup _))
  | some .upsert => inferInstanceAs (Decidable (_ ∧ List.Nodup _))
  | some .buildPgm => inferInstanceAs (Decidable (_ ∈ _))
  | some .merge => inferInstanceAs (Decidable (_ <:+: _))
  | some .query => inferInstanceAs (Decidable (_ ∧ ∀ _ ∈ _, _))
  | none => isFalse id

instance (b : LevelBook) (op : WorkloadOperation) : Decidable (b.Accepts op) :=
  inferInstanceAs (Decidable (b.AcceptsAs op _))

end LevelBook

namespace WorkloadScript

/-- The book after some operations. -/
def book (ops : List WorkloadOperation) : LevelBook := ops.foldl LevelBook.next ⟨⟨0, []⟩, ∅⟩

/-- Every operation is accepted by the book of those before it. -/
def Executable (script : WorkloadScript) : Prop :=
  ∀ i op, script.operations[i]? = some op → (book (script.operations.take i)).Accepts op

instance (script : WorkloadScript) : Decidable script.Executable :=
  decidable_of_iff (∀ i < script.operations.length, ∀ op ∈ script.operations[i]?,
      (book (script.operations.take i)).Accepts op)
    ⟨fun h i op hop ↦ h i (List.getElem?_eq_some_iff.mp hop).1 op hop, fun h i _ ↦ h i⟩

variable {ops : List WorkloadOperation} {op : WorkloadOperation}

theorem book_concat : book (ops ++ [op]) = (book ops).next op := by
  rw [book, List.foldl_append]
  rfl

/-- The book has the live levels. -/
theorem toLiveLevels_book : (book ops).toLiveLevels = live ops := by
  induction ops using List.reverseRecOn with
  | nil => rfl
  | append_singleton ops op ih =>
    rw [book_concat, live_concat, ← ih]
    rfl

/-- All operations are accepted when those before the last one are, and the last one is. -/
theorem forall_accepts_concat :
    (∀ i op', (ops ++ [op])[i]? = some op' → (book ((ops ++ [op]).take i)).Accepts op') ↔
      (∀ i op', ops[i]? = some op' → (book (ops.take i)).Accepts op') ∧ (book ops).Accepts op := by
  constructor
  · intro h
    refine ⟨fun i op' hi ↦ ?_, ?_⟩
    · have hlt : i < ops.length := (List.getElem?_eq_some_iff.mp hi).1
      have hop := h i op' (getElem?_concat_eq_some.mpr (Or.inl ⟨hlt, hi⟩))
      rwa [List.take_append_of_le_length hlt.le] at hop
    · have hop := h ops.length op (getElem?_concat_eq_some.mpr (Or.inr ⟨rfl, rfl⟩))
      rwa [List.take_left] at hop
  · rintro ⟨hinit, hlast⟩ i op' hi
    rcases getElem?_concat_eq_some.mp hi with ⟨hlt, hi⟩ | ⟨rfl, rfl⟩
    · rw [List.take_append_of_le_length hlt.le]
      exact hinit i op' hi
    · rwa [List.take_left]

end WorkloadScript

namespace BaselineWorkloadRunner

variable {config : Config} {w w' : BaselineWorkloadRunner} {ids : List LevelId} {b : LevelBook}
  {op : WorkloadOperation} {ε : Nat}

/-! ## References and levels -/

namespace Tracks

variable {ref newerRef olderRef : String} {l newer older : LevelId}

/-- A reference is one of the oracle's when its level is active. -/
theorem mem_ids_iff (h : Tracks config w ids) (hlookup : w.refs.lookup ref = some l) :
    l ∈ ids ↔ ref ∈ w.oracle.refs := by
  constructor
  · intro hl
    obtain ⟨level, hlevel, hheld, -⟩ := exists_mem_right h.levels hl
    have hsame := ((h.inverse _ _).mp hlookup).symm.trans ((h.inverse _ _).mp hheld)
    exact Option.some.inj hsame ▸ List.mem_map_of_mem hlevel
  · intro href
    obtain ⟨level, hlevel, rfl⟩ := List.mem_map.mp href
    obtain ⟨l', hl', hheld, -⟩ := exists_mem_left h.levels hlevel
    exact Option.some.inj (hheld.symm.trans hlookup) ▸ hl'

/-- Every reference of the oracle has a level. -/
theorem exists_level (h : Tracks config w ids) (href : ref ∈ w.oracle.refs) :
    ∃ l ∈ ids, w.refs.lookup ref = some l := by
  obtain ⟨level, hlevel, rfl⟩ := List.mem_map.mp href
  obtain ⟨l, hl, hheld, -⟩ := exists_mem_left h.levels hlevel
  exact ⟨l, hl, hheld⟩

/-- Two references are neighbours in the oracle when their levels are neighbours in the engine. -/
theorem infix_iff (h : Tracks config w ids) (hnewer : w.refs.lookup newerRef = some newer)
    (holder : w.refs.lookup olderRef = some older) :
    [newerRef, olderRef] <:+: w.oracle.refs ↔ [newer, older] <:+: ids := by
  have hlookups : w.oracle.refs.map w.refs.lookup = ids.map some :=
    (List.map_map ..).trans (map_eq_of_forall₂ (h.levels.flip.imp fun _ _ hlevel ↦ hlevel.1))
  have hrefOf : ids.map w.refOf.lookup = w.oracle.refs.map some := by
    rw [LogicalOracle.refs, List.map_map]
    exact map_eq_of_forall₂ (h.levels.imp fun _ _ hlevel ↦ (h.inverse _ _).mp hlevel.1)
  constructor
  · intro hrefs
    have hmap := hrefs.map w.refs.lookup
    rw [hlookups, List.map_cons, List.map_singleton, hnewer, holder] at hmap
    exact (map_infix_map (Option.some_injective _)).mp hmap
  · intro hids
    have hmap := hids.map w.refOf.lookup
    rw [hrefOf, List.map_cons, List.map_singleton, (h.inverse _ _).mp hnewer,
      (h.inverse _ _).mp holder] at hmap
    exact (map_infix_map (Option.some_injective _)).mp hmap

end Tracks

/-! ## The runner and its book -/

/-- The runner knows what the book says. -/
structure Books (config : Config) (w : BaselineWorkloadRunner) (b : LevelBook) : Prop where
  sound : ∃ ids, Sound config w ids
  live : w.live = b.toLiveLevels
  queryable : ∀ ref l, w.refs.lookup ref = some l → (l ∈ w.queryable ↔ ref ∈ b.indexed)
  indexed : ∀ ref ∈ b.indexed, ref ∈ w.refs

namespace Books

theorem init (config : Config) (seed : Int) (family : String) :
    Books config (.init (Engine.init config) seed family) (WorkloadScript.book []) where
  sound := ⟨[], .init config seed family⟩
  live := rfl
  queryable _ _ h := absurd (Finmap.mem_of_lookup_eq_some h) Finmap.notMem_empty
  indexed _ h := absurd h (Finset.notMem_empty _)

theorem levels (h : Books config w b) : w.oracle.levels = b.levels := congrArg LiveLevels.levels h.live

theorem refs (h : Books config w b) : w.oracle.refs = b.refs := by
  rw [LogicalOracle.refs, LevelBook.refs, h.levels]

theorem nextRef (h : Books config w b) : w.nextRef = b.published :=
  congrArg LiveLevels.published h.live

/-- Every level with blocks is queryable when the book has its reference. -/
theorem queryable_iff (h : Books config w b) (hs : Sound config w ids) :
    (∀ l ∈ ids, w.engine.hasBlocks l = true → l ∈ w.queryable) ↔
      ∀ level ∈ b.levels, level.2 ≠ ∅ → level.1 ∈ b.indexed := by
  have hmatches := hs.toTracks.forall₂_matches 0
  rw [h.levels] at hmatches
  have hlookup : ∀ {l ref}, w.levelRef l = .ok ref → w.refs.lookup ref = some l := fun href ↦
    (hs.inverse _ _).mpr (levelRef_eq_ok.mp href)
  constructor
  · intro hall level hlevel hne
    obtain ⟨l, hl, hmatch⟩ := exists_mem_left hmatches hlevel
    exact (h.queryable _ _ (hlookup hmatch.ref)).mp (hall l hl (hmatch.blocks.mpr hne))
  · intro hall l hl hblocks
    obtain ⟨level, hlevel, hmatch⟩ := exists_mem_right hmatches hl
    exact (h.queryable _ _ (hlookup hmatch.ref)).mpr (hall level hlevel (hmatch.blocks.mp hblocks))

/-- The references of a level that the book has can be looked up. -/
theorem levelId_of_mem (h : Books config w b) (hs : Sound config w ids) {ref : Option String}
    (href : ref ∈ b.refs.map some) :
    ∃ r l, ref = some r ∧ r ∈ w.oracle.refs ∧ w.refs.lookup r = some l ∧
      w.levelId ref = .ok l := by
  obtain ⟨r, hr, rfl⟩ := List.mem_map.mp href
  rw [← h.refs] at hr
  obtain ⟨l, -, hl⟩ := hs.toTracks.exists_level hr
  exact ⟨r, l, rfl, hr, hl, levelId_eq_ok.mpr ⟨r, rfl, hl⟩⟩

/-- The references of an accepted operation can be looked up, and the call is accepted. -/
theorem exists_call (h : Books config w b) (hs : Sound config w ids) (hop : b.Accepts op) :
    ∃ call, (resolve op).run w = .ok call w ∧ w.Accepts ids op call := by
  rw [LevelBook.Accepts] at hop
  rw [resolve, run_get_bind]
  cases hclass : op.operationClass with
  | none =>
    rw [hclass] at hop
    exact absurd hop id
  | some operationClass =>
    rw [hclass] at hop
    cases operationClass with
    | buildInitial => exact ⟨_, rfl, hop⟩
    | upsert => exact ⟨_, rfl, hop⟩
    | buildPgm =>
      obtain ⟨r, l, -, hr, hl, hlevel⟩ := h.levelId_of_mem hs hop
      exact ⟨_, run_liftExcept_bind_eq_ok.mpr ⟨l, hlevel, rfl⟩, (hs.toTracks.mem_ids_iff hl).mpr hr⟩
    | merge =>
      have hmem := List.IsInfix.subset hop
      obtain ⟨r₁, l₁, hr₁, -, hl₁, hlevel₁⟩ := h.levelId_of_mem hs (hmem List.mem_cons_self)
      obtain ⟨r₂, l₂, hr₂, -, hl₂, hlevel₂⟩ :=
        h.levelId_of_mem hs (hmem (List.mem_cons_of_mem _ List.mem_cons_self))
      have hinfix : [r₁, r₂] <:+: w.oracle.refs := by
        refine (map_infix_map (Option.some_injective _)).mp ?_
        rw [h.refs, List.map_cons, List.map_singleton, ← hr₁, ← hr₂]
        exact hop
      obtain ⟨pre, post, hids⟩ := (hs.toTracks.infix_iff hl₁ hl₂).mp hinfix
      refine ⟨.merge l₁ l₂, run_liftExcept_bind_eq_ok.mpr ⟨l₁, hlevel₁, ?_⟩, pre, post, ?_⟩
      · exact run_liftExcept_bind_eq_ok.mpr ⟨l₂, hlevel₂, rfl⟩
      · rw [← hids, List.append_assoc]
        rfl
    | query => exact ⟨_, rfl, hop.1, (h.queryable_iff hs).mpr hop.2⟩

/-- A call that is accepted is that of an accepted operation. -/
theorem accepts_of_call (h : Books config w b) (hs : Sound config w ids) {call : Call}
    (hcall : (resolve op).run w = .ok call w) (haccepts : w.Accepts ids op call) :
    b.Accepts op := by
  rw [resolve, run_get_bind] at hcall
  rw [LevelBook.Accepts]
  cases hclass : op.operationClass with
  | none =>
    rw [hclass] at hcall
    cases hcall
    exact haccepts
  | some operationClass =>
    rw [hclass] at hcall
    cases operationClass with
    | buildInitial =>
      cases hcall
      exact haccepts
    | upsert =>
      cases hcall
      exact haccepts
    | buildPgm =>
      obtain ⟨l, hl, ⟨⟩⟩ := run_liftExcept_bind_eq_ok.mp hcall
      obtain ⟨r, hr, hlookup⟩ := levelId_eq_ok.mp hl
      rw [LevelBook.AcceptsAs, Option.mem_def.mp hr, ← h.refs]
      exact List.mem_map_of_mem ((hs.toTracks.mem_ids_iff hlookup).mp haccepts)
    | merge =>
      obtain ⟨l₁, hl₁, hcall⟩ := run_liftExcept_bind_eq_ok.mp hcall
      obtain ⟨l₂, hl₂, ⟨⟩⟩ := run_liftExcept_bind_eq_ok.mp hcall
      obtain ⟨r₁, hr₁, hlookup₁⟩ := levelId_eq_ok.mp hl₁
      obtain ⟨r₂, hr₂, hlookup₂⟩ := levelId_eq_ok.mp hl₂
      obtain ⟨pre, post, hids⟩ := haccepts
      have hinfix : [l₁, l₂] <:+: ids := ⟨pre, post, by rw [hids, List.append_assoc]; rfl⟩
      rw [LevelBook.AcceptsAs, Option.mem_def.mp hr₁, Option.mem_def.mp hr₂, ← h.refs]
      exact ((hs.toTracks.infix_iff hlookup₁ hlookup₂).mpr hinfix).map some
    | query =>
      cases hcall
      exact ⟨haccepts.1, (h.queryable_iff hs).mp haccepts.2⟩

end Books

/-! ### One operation -/

/-- The call of an operation has its class. -/
theorem class_of_call {call : Call} (hcall : (resolve op).run w = .ok call w) :
    op.operationClass = call.operationClass := by
  rw [resolve, run_get_bind] at hcall
  cases hclass : op.operationClass with
  | none =>
    rw [hclass] at hcall
    cases hcall
    rfl
  | some operationClass =>
    rw [hclass] at hcall
    cases operationClass with
    | buildInitial | upsert | query =>
      cases hcall
      rfl
    | buildPgm =>
      obtain ⟨l, hl, ⟨⟩⟩ := run_liftExcept_bind_eq_ok.mp hcall
      rfl
    | merge =>
      obtain ⟨l₁, hl₁, hcall⟩ := run_liftExcept_bind_eq_ok.mp hcall
      obtain ⟨l₂, hl₂, ⟨⟩⟩ := run_liftExcept_bind_eq_ok.mp hcall
      rfl

theorem binds_iff {call : Call} (hclass : op.operationClass = call.operationClass) :
    call.Binds ↔ op.Binds := by
  rw [WorkloadOperation.Binds, hclass]
  cases call <;> simp [Call.Binds, Call.operationClass]

/-- The level that a call declares is the one whose reference the operation declares. -/
theorem declares_of_call {call : Call} (hcall : (resolve op).run w = .ok call w)
    (hnamed : Named w op call w') :
    (call.declares ⟨w.engine.nextLevelId⟩ = ∅ ∧ op.declares w.nextRef = ∅) ∨
      ∃ ref l, call.declares ⟨w.engine.nextLevelId⟩ = {l} ∧ op.declares w.nextRef = {ref} ∧
        w'.refs.lookup ref = some l := by
  have hclass := class_of_call hcall
  have hrefs := hnamed.refs
  rw [WorkloadOperation.declares, hclass]
  cases call with
  | buildInitial records => exact Or.inl ⟨rfl, rfl⟩
  | upsert records => exact Or.inl ⟨rfl, rfl⟩
  | query => exact Or.inl ⟨rfl, rfl⟩
  | unknown => exact Or.inl ⟨rfl, rfl⟩
  | buildPgm l =>
    rw [resolve, run_get_bind, hclass] at hcall
    obtain ⟨l', hl, hcall⟩ := run_liftExcept_bind_eq_ok.mp hcall
    cases hcall
    obtain ⟨ref, href, hlookup⟩ := levelId_eq_ok.mp hl
    have hbinds : ¬ (Call.buildPgm l).Binds := id
    rw [if_neg hbinds] at hrefs
    refine Or.inr ⟨ref, l, rfl, ?_, hrefs ▸ hlookup⟩
    simp only [Call.operationClass, Option.mem_def.mp href]
    rfl
  | merge newer older =>
    have hbinds : (Call.merge newer older).Binds := trivial
    rw [if_pos hbinds] at hrefs
    exact Or.inr ⟨_, _, rfl, rfl, hrefs ▸ Finmap.lookup_insert _⟩

/-- The levels that were queryable are those whose references the book had. -/
theorem Books.queryable_of_named {call : Call} (h : Books config w b) (hs : Sound config w ids)
    (hfresh : call.Binds → op.boundRef w.nextRef ∉ w.refs) (hnamed : Named w op call w')
    {ref : String} {l : LevelId} (hlookup : w'.refs.lookup ref = some l) :
    l ∈ w.queryable ↔ ref ∈ b.indexed := by
  rw [hnamed.refs] at hlookup
  split_ifs at hlookup with hbinds
  · by_cases href : ref = op.boundRef w.nextRef
    · -- the new level
      subst href
      rw [Finmap.lookup_insert, Option.some.injEq] at hlookup
      subst hlookup
      exact iff_of_false (fun hq ↦ lt_irrefl _ (hs.queryable_lt _ hq))
        fun hold ↦ hfresh hbinds (h.indexed _ hold)
    · rw [Finmap.lookup_insert_of_ne _ href] at hlookup
      exact h.queryable ref l hlookup
  · exact h.queryable ref l hlookup

/-- Looking up the references of an operation changes nothing. -/
theorem along_resolve (op : WorkloadOperation) : Along Eq (resolve op) := by
  have htrans : ∀ w₁ w₂ w₃ : BaselineWorkloadRunner, w₁ = w₂ → w₂ = w₃ → w₁ = w₃ :=
    fun _ _ _ ↦ Eq.trans
  have hlift : ∀ (x : Except WorkloadError LevelId) (f : LevelId → RunnerM Call),
      (∀ l, Along Eq (f l)) → Along Eq (liftExcept id x >>= f) :=
    fun x f hf ↦ .bind htrans (.liftExcept (fun _ ↦ rfl) id x) hf
  refine .bind htrans (.get fun _ ↦ rfl) fun w ↦ ?_
  cases op.operationClass with
  | none => exact .pure (fun _ ↦ rfl) _
  | some operationClass =>
    cases operationClass with
    | buildInitial | upsert | query => exact .pure (fun _ ↦ rfl) _
    | buildPgm => exact hlift _ _ fun _ ↦ .pure (fun _ ↦ rfl) _
    | merge => exact hlift _ _ fun _ ↦ hlift _ _ fun _ ↦ .pure (fun _ ↦ rfl) _

/-- An accepted operation returns, and the runner knows what the book says; any other one raises,
and leaves everything but the trace as it was. -/
theorem Books.performs (h : Books config w b) (hε : config.pgmEpsilon = some ε)
    (hfresh : op.Binds → op.boundRef w.nextRef ∉ w.refs) :
    (b.Accepts op → ∃ w', (runOperation op).run w = .ok ⟨⟩ w' ∧ Books config w' (b.next op)) ∧
      (¬ b.Accepts op → ∃ err w', (runOperation op).run w = .error err w' ∧
        w'.opened = w.opened) := by
  obtain ⟨ids, hs⟩ := h.sound
  constructor
  · intro hop
    obtain ⟨call, hcall, haccepts⟩ := h.exists_call hs hop
    have hclass := class_of_call hcall
    have hbinds := binds_iff hclass
    obtain ⟨w', r, hrun, hwent⟩ :=
      hs.run_accepted hε hclass (fun hb ↦ hfresh (hbinds.mp hb)) haccepts
    have hok : (runOperation op).run w = .ok ⟨⟩ w' :=
      (run_bind_of_ok hcall _).trans hrun
    obtain ⟨r', -, -, hperformed⟩ := runOperation_performed hs.toTracks hfresh hok
    have hdeclares := declares_of_call hcall hwent.named
    refine ⟨w', hok, hwent.sound, hperformed.live.trans (by rw [h.live]; rfl),
      fun ref l hlookup ↦ ?_, fun ref href ↦ ?_⟩
    · rw [hwent.named.queryable, LevelBook.next, Finset.mem_union, Finset.mem_union, ← h.nextRef]
      refine or_congr ?_ ?_
      · exact h.queryable_of_named hs (fun hb ↦ hfresh (hbinds.mp hb)) hwent.named hlookup
      · obtain ⟨ids', hs'⟩ := hwent.sound
        rcases hdeclares with ⟨hl, hr⟩ | ⟨ref', l', hl, hr, hlookup'⟩
        · rw [hl, hr]
          exact iff_of_false (Finset.notMem_empty _) (Finset.notMem_empty _)
        · rw [hl, hr, Finset.mem_singleton, Finset.mem_singleton]
          exact Inverse.value_eq_iff hs'.inverse hlookup hlookup'
    · have hgrows : ref ∈ w.refs → ref ∈ w'.refs := by
        rw [hwent.named.refs]
        split_ifs with hb
        · exact fun hold ↦ Finmap.mem_insert.mpr (Or.inr hold)
        · exact id
      rw [LevelBook.next, Finset.mem_union, ← h.nextRef] at href
      rcases href with hold | hnew
      · exact hgrows (h.indexed _ hold)
      · rcases hdeclares with ⟨-, hr⟩ | ⟨ref', l', -, hr, hlookup'⟩
        · rw [hr] at hnew
          exact absurd hnew (Finset.notMem_empty _)
        · rw [hr, Finset.mem_singleton] at hnew
          exact hnew ▸ Finmap.mem_of_lookup_eq_some hlookup'
  · intro hop
    cases hcall : (resolve op).run w with
    | error err w₁ =>
      have hsame : w = w₁ := (along_resolve op).of_run_eq_error hcall
      exact ⟨err, w₁, run_bind_of_error hcall _, hsame ▸ rfl⟩
    | ok call w₁ =>
      obtain rfl := resolve_eq_ok hcall
      obtain ⟨err, hrun⟩ := run_rejected hs fun hcall' ↦ hop (h.accepts_of_call hs hcall hcall')
      exact ⟨err, _, (run_bind_of_ok hcall _).trans hrun, rfl⟩

/-! ## A run -/

variable {ops : List WorkloadOperation} {seed : Int} {family : String}

/-- The reference of the next level is new. -/
theorem Follows.fresh (h : Follows config ops w)
    (hnodup : (WorkloadScript.boundRefs 0 (ops ++ [op])).Nodup) (hbinds : op.Binds) :
    op.boundRef w.nextRef ∉ w.refs := by
  intro hmem
  have hcount : w.nextRef = (WorkloadScript.boundRefs 0 ops).length :=
    (congrArg LiveLevels.published h.live).trans WorkloadScript.published_live
  rw [WorkloadScript.boundRefs_concat, Nat.zero_add, ← hcount, if_pos hbinds,
    List.nodup_append] at hnodup
  exact hnodup.2.2 _ (h.refs _ hmem) _ (List.mem_singleton_self _) rfl

/-- A run gets through when every operation is accepted by the book of those before it. -/
theorem exists_run (seed : Int) (family : String) (hε : config.pgmEpsilon = some ε)
    (hnodup : (WorkloadScript.boundRefs 0 ops).Nodup)
    (hops : ∀ i op, ops[i]? = some op → (WorkloadScript.book (ops.take i)).Accepts op) :
    ∃ w, (runOperations ops).run (init (Engine.init config) seed family) = .ok ⟨⟩ w ∧
      Books config w (WorkloadScript.book ops) := by
  induction ops using List.reverseRecOn with
  | nil => exact ⟨_, rfl, Books.init config seed family⟩
  | append_singleton ops op ih =>
    have hprefix : (WorkloadScript.boundRefs 0 ops).Nodup := by
      rw [WorkloadScript.boundRefs_concat] at hnodup
      exact (List.nodup_append.mp hnodup).1
    obtain ⟨hinit, hlast⟩ := WorkloadScript.forall_accepts_concat.mp hops
    obtain ⟨w, hrun, hbooks⟩ := ih hprefix hinit
    have hfresh := (follows_run hprefix hrun).fresh hnodup
    obtain ⟨w', hop, hbooks'⟩ := (hbooks.performs hε hfresh).1 hlast
    refine ⟨w', runOperations_concat.mpr ⟨w, hrun, hop⟩, ?_⟩
    rw [WorkloadScript.book_concat]
    exact hbooks'

/-- A run that gets through has had every operation accepted. -/
theorem accepts_of_run (hε : config.pgmEpsilon = some ε)
    (hnodup : (WorkloadScript.boundRefs 0 ops).Nodup)
    (hrun : (runOperations ops).run (init (Engine.init config) seed family) = .ok ⟨⟩ w) :
    ∀ i op, ops[i]? = some op → (WorkloadScript.book (ops.take i)).Accepts op := by
  induction ops using List.reverseRecOn generalizing w with
  | nil => exact fun i op hi ↦ by simp at hi
  | append_singleton ops op ih =>
    have hprefix : (WorkloadScript.boundRefs 0 ops).Nodup := by
      rw [WorkloadScript.boundRefs_concat] at hnodup
      exact (List.nodup_append.mp hnodup).1
    obtain ⟨w₁, hops, hop⟩ := runOperations_concat.mp hrun
    have hinit := ih hprefix hops
    obtain ⟨w₂, hrun₂, hbooks⟩ := exists_run seed family hε hprefix hinit
    cases hops.symm.trans hrun₂
    refine WorkloadScript.forall_accepts_concat.mpr ⟨hinit, ?_⟩
    by_contra hnot
    obtain ⟨err, w₃, herror, -⟩ :=
      (hbooks.performs hε ((follows_run hprefix hops).fresh hnodup)).2 hnot
    cases herror.symm.trans hop

end BaselineWorkloadRunner

open BaselineWorkloadRunner

theorem Config.make_isOk {capacity epsilon : Int} :
    (∃ config, Config.make capacity epsilon = .ok config) ↔ 1 ≤ capacity ∧ 0 ≤ epsilon := by
  unfold Config.make
  split_ifs with hcapacity hepsilon
  · exact iff_of_true ⟨_, rfl⟩ ⟨hcapacity, hepsilon⟩
  · refine iff_of_false ?_ fun h ↦ hepsilon h.2
    rintro ⟨config, ⟨⟩⟩
  · refine iff_of_false ?_ fun h ↦ hcapacity h.1
    rintro ⟨config, ⟨⟩⟩

theorem completes_iff {script : WorkloadScript} (hfresh : script.FreshRefs) :
    (∃ w, runScript script = .ok w) ↔
      1 ≤ script.capacity ∧ 0 ≤ script.epsilon ∧ script.Executable := by
  constructor
  · rintro ⟨w, hw⟩
    obtain ⟨config, hconfig, -, hrun⟩ := runScript_eq_ok hw
    obtain ⟨hcapacity, hepsilon⟩ := Config.make_isOk.mp ⟨config, hconfig⟩
    exact ⟨hcapacity, hepsilon, accepts_of_run (Config.make_eq_ok hconfig) hfresh hrun⟩
  · rintro ⟨hcapacity, hepsilon, hops⟩
    obtain ⟨config, hconfig⟩ := Config.make_isOk.mpr ⟨hcapacity, hepsilon⟩
    obtain ⟨w, hrun, -⟩ :=
      exists_run script.seed script.family (Config.make_eq_ok hconfig) hfresh hops
    refine ⟨w, ?_⟩
    simp only [runScript, WorkloadScript.runner, hconfig, ok_bind, hrun]
    rfl

/-- A script whose levels have references of their own runs to its end exactly when the
configuration is valid and every operation is accepted by the book of those before it. -/
theorem runScript_completes_iff (script : WorkloadScript) (hfresh : script.FreshRefs) :
    (∃ w, runScript script = .ok w) ↔
      1 ≤ script.capacity ∧ 0 ≤ script.epsilon ∧ script.Executable :=
  completes_iff hfresh

theorem runScript_completes_mergeScript : ∃ w, runScript mergeScript = .ok w :=
  (runScript_completes_iff mergeScript (by decide +kernel)).mpr (by decide +kernel)

end EnhancedLetIndex
