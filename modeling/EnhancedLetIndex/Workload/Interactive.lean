import EnhancedLetIndex.Workload.Builder

/-!
# The runner as a store

`BaselineWorkloadRunner` can be driven call by call, with the level ids that it has returned.
`LevelStore` says what a client sees: a list of dictionaries, newest first, and which of them can be
queried.  Whatever is called, and whichever calls raise, the runner stands for the store after the
calls that the store accepts (`session_refines`).
-/

namespace EnhancedLetIndex

/-! ## The methods -/

/-- A call of a method of the runner. -/
inductive RunnerCall where
  | buildInitial (records : List (Record String))
  | upsert (records : List (Record String))
  | buildPgm (levelId : LevelId)
  | merge (newerLevelId olderLevelId : LevelId)
  | query (key : Int)

namespace RunnerCall

/-- The operation that a method writes down. -/
def operation (w : BaselineWorkloadRunner) : RunnerCall → WorkloadOperation
  | .buildInitial _ => {
      index := w.records.length
      kind := OperationClass.buildInitial.text
      ref := some (levelName w.nextRef) }
  | .upsert _ => {
      index := w.records.length
      kind := OperationClass.upsert.text
      ref := some (levelName w.nextRef) }
  | .buildPgm levelId => {
      index := w.records.length
      kind := OperationClass.buildPgm.text
      levelRef := w.refOf.lookup levelId }
  | .merge newer older => {
      index := w.records.length
      kind := OperationClass.merge.text
      ref := some (levelName w.nextRef)
      newerRef := w.refOf.lookup newer
      olderRef := w.refOf.lookup older }
  | .query key => {
      index := w.records.length
      kind := OperationClass.query.text
      keys := [key] }

/-- The arguments that a method hands to `_run`. -/
def arguments : RunnerCall → Call
  | .buildInitial records => .buildInitial records
  | .upsert records => .upsert records
  | .buildPgm levelId => .buildPgm levelId
  | .merge newer older => .merge newer older
  | .query _ => .query

/-- `build_initial`, `upsert`, `build_pgm`, `merge` and `query`. -/
def perform (call : RunnerCall) : RunnerM Unit := do
  let w ← get
  BaselineWorkloadRunner.run (call.operation w) call.arguments

theorem operationClass_operation (w : BaselineWorkloadRunner) (call : RunnerCall) :
    (call.operation w).operationClass = call.arguments.operationClass := by
  cases call <;> exact OperationClass.ofText_eq_some.mpr rfl

end RunnerCall

/-! ## The store -/

/-- What a client sees: how many levels have been published, the live ones, newest first, and those
that can be queried. -/
structure LevelStore where
  published : Nat
  levels : List (LevelId × FinDict Int String)
  indexed : Finset LevelId

namespace LevelStore

def empty : LevelStore := ⟨0, [], ∅⟩

variable (s : LevelStore)

def ids : List LevelId := s.levels.map Prod.fst

/-- The newest value of a key. -/
def lookup (key : Int) : Option String := s.levels.findSome? (·.2.lookup key)

/-- Whether a call returns. -/
def Accepts : RunnerCall → Prop
  | .buildInitial records => (records.map (·.key)).Nodup
  | .upsert records => records ≠ [] ∧ (records.map (·.key)).Nodup
  | .buildPgm l => l ∈ s.ids
  | .merge newer older => [newer, older] <:+: s.ids
  | .query _ => ∀ level ∈ s.levels, level.2 ≠ ∅ → level.1 ∈ s.indexed

instance : DecidablePred s.Accepts
  | .buildInitial _ => inferInstanceAs (Decidable (List.Nodup _))
  | .upsert _ => inferInstanceAs (Decidable (_ ∧ List.Nodup _))
  | .buildPgm _ => inferInstanceAs (Decidable (_ ∈ _))
  | .merge _ _ => inferInstanceAs (Decidable (_ <:+: _))
  | .query _ => inferInstanceAs (Decidable (∀ _ ∈ _, _))

/-- The union of two neighbours in their place. -/
def union (newer older output : LevelId) :
    List (LevelId × FinDict Int String) → List (LevelId × FinDict Int String)
  | (l₁, c₁) :: (l₂, c₂) :: rest =>
    if newer = l₁ ∧ older = l₂ then (output, c₁ ∪ c₂) :: rest
    else (l₁, c₁) :: union newer older output ((l₂, c₂) :: rest)
  | levels => levels

/-- The store after a call that returns. -/
def next : RunnerCall → LevelStore
  | .buildInitial records | .upsert records =>
    ⟨s.published + 1, (⟨s.published⟩, contentsOf records) :: s.levels, s.indexed⟩
  | .buildPgm l => { s with indexed := insert l s.indexed }
  | .merge newer older =>
    ⟨s.published + 1, union newer older ⟨s.published⟩ s.levels, insert ⟨s.published⟩ s.indexed⟩
  | .query _ => s

/-- The store after a call: one that raises changes nothing. -/
def step (call : RunnerCall) : LevelStore := if s.Accepts call then s.next call else s

variable {s}

/-- The union takes the place of the neighbours. -/
theorem union_neighbours {front back : List (LevelId × FinDict Int String)}
    {newer older : LevelId} {c₁ c₂ : FinDict Int String} (output : LevelId)
    (hnewer : newer ∉ front.map Prod.fst) :
    union newer older output (front ++ (newer, c₁) :: (older, c₂) :: back) =
      front ++ (output, c₁ ∪ c₂) :: back := by
  induction front with
  | nil => exact if_pos ⟨rfl, rfl⟩
  | cons level front ih =>
    rw [List.map_cons, List.mem_cons, not_or] at hnewer
    cases front with
    | nil =>
      rw [List.singleton_append, union, if_neg fun h ↦ hnewer.1 h.1]
      exact congrArg (level :: ·) (ih hnewer.2)
    | cons next front =>
      rw [List.cons_append, List.cons_append, union, if_neg fun h ↦ hnewer.1 h.1]
      exact congrArg (level :: ·) (ih hnewer.2)

end LevelStore

namespace BaselineWorkloadRunner

variable {config : Config} {w w' : BaselineWorkloadRunner} {s : LevelStore} {call : RunnerCall}

/-! ## The runner stands for the store -/

/-- The reference of a level that a method publishes. -/
def nameOf (l : LevelId) : String := levelName l.value.toNat

/-- The runner stands for the store: its levels are numbered as they are published. -/
structure Stores (config : Config) (w : BaselineWorkloadRunner) (s : LevelStore) : Prop where
  sound : Sound config w s.ids
  nextLevelId : w.engine.nextLevelId = s.published
  nextRef : w.nextRef = s.published
  levels : w.oracle.levels = s.levels.map fun level ↦ (nameOf level.1, level.2)
  refs : ∀ ref l, w.refs.lookup ref = some l ↔ ∃ n < s.published, ref = levelName n ∧ l = ⟨n⟩
  queryable : w.queryable = s.indexed

namespace Stores

theorem init (config : Config) (seed : Int) (family : String) :
    Stores config (.init (Engine.init config) seed family) .empty where
  sound := .init config seed family
  nextLevelId := rfl
  nextRef := rfl
  levels := rfl
  refs ref l := by simp [BaselineWorkloadRunner.init, LevelStore.empty]
  queryable := rfl

/-- A level of the store has a number and a name. -/
theorem exists_number (h : Stores config w s) {l : LevelId} (hl : l ∈ s.ids) :
    ∃ n < s.published, l = ⟨n⟩ := by
  obtain ⟨level, -, hlookup, -⟩ := exists_mem_right h.sound.levels hl
  obtain ⟨n, hn, -, rfl⟩ := (h.refs _ _).mp hlookup
  exact ⟨n, hn, rfl⟩

/-- The name of a level of the store. -/
theorem refOf (h : Stores config w s) {l : LevelId} (hl : l ∈ s.ids) :
    w.refOf.lookup l = some (nameOf l) := by
  obtain ⟨n, hn, rfl⟩ := h.exists_number hl
  exact (h.sound.inverse _ _).mp ((h.refs _ _).mpr ⟨n, hn, rfl, rfl⟩)

theorem nameOf_injOn (h : Stores config w s) {l l' : LevelId} (hl : l ∈ s.ids) (hl' : l' ∈ s.ids)
    (hname : nameOf l = nameOf l') : l = l' := by
  have hlookup := (h.sound.inverse _ _).mpr (h.refOf hl)
  rw [hname] at hlookup
  exact Option.some.inj (hlookup.symm.trans ((h.sound.inverse _ _).mpr (h.refOf hl')))

/-- The next name is new. -/
theorem fresh (h : Stores config w s) : levelName w.nextRef ∉ w.refs := by
  intro hmem
  obtain ⟨l, hl⟩ := Finmap.mem_iff.mp hmem
  obtain ⟨n, hn, hname, -⟩ := (h.refs _ _).mp hl
  rw [h.nextRef] at hname
  exact hn.ne' (levelName_injective hname)

theorem boundRef (call : RunnerCall) (hbinds : call.arguments.Binds) :
    (call.operation w).boundRef w.nextRef = levelName w.nextRef := by
  cases call with
  | buildInitial | upsert | merge => rfl
  | buildPgm | query => exact absurd hbinds id

/-- The store accepts what the runner does. -/
theorem accepts_iff (h : Stores config w s) :
    w.Accepts s.ids (call.operation w) call.arguments ↔ s.Accepts call := by
  cases call with
  | buildInitial records => exact Iff.rfl
  | upsert records => exact Iff.rfl
  | buildPgm l => exact Iff.rfl
  | merge newer older =>
    refine exists_congr fun pre ↦ exists_congr fun post ↦ ?_
    rw [eq_comm, List.append_assoc]
    rfl
  | query key =>
    have hmatches := h.sound.toTracks.forall₂_matches 0
    rw [h.levels, List.forall₂_map_right_iff, LevelStore.ids, List.forall₂_map_left_iff,
      List.forall₂_same] at hmatches
    refine (and_iff_right (List.cons_ne_nil _ _)).trans ?_
    rw [LevelStore.ids, List.forall_mem_map, h.queryable]
    exact forall₂_congr fun level hlevel ↦ imp_congr_left (hmatches level hlevel).blocks

section Step

variable {r : OperationRecord}

theorem next_published : (s.next call).published =
    s.published + if call.arguments.Binds then 1 else 0 := by
  cases call <;> rfl

/-- The names after a call. -/
theorem refs_next (h : Stores config w s)
    (hwent : Went config w (call.operation w) call.arguments w' r) (ref : String) (l : LevelId) :
    w'.refs.lookup ref = some l ↔
      ∃ n < (s.next call).published, ref = levelName n ∧ l = ⟨n⟩ := by
  rw [hwent.named.refs, next_published]
  split_ifs with hbinds
  · rw [boundRef call hbinds, h.nextRef, h.nextLevelId]
    by_cases href : ref = levelName s.published
    · subst href
      rw [Finmap.lookup_insert, Option.some.injEq]
      constructor
      · rintro rfl
        exact ⟨_, Nat.lt_succ_self _, rfl, rfl⟩
      · rintro ⟨n, -, hname, rfl⟩
        rw [levelName_injective hname]
    · rw [Finmap.lookup_insert_of_ne _ href, h.refs]
      refine exists_congr fun n ↦ and_congr_left fun ⟨hname, _⟩ ↦ ?_
      have hne : n ≠ s.published := fun heq ↦ href (heq ▸ hname)
      omega
  · exact h.refs ref l

/-- The levels before and after a merge. -/
theorem exists_neighbours (h : Stores config w s) {newer older : LevelId}
    (hcall : s.Accepts (.merge newer older)) : ∃ levels₁ c₁ c₂ levels₂,
      s.levels = levels₁ ++ (newer, c₁) :: (older, c₂) :: levels₂ ∧
      s.ids = levels₁.map Prod.fst ++ newer :: older :: levels₂.map Prod.fst ∧
      newer ∉ levels₁.map Prod.fst ∧
      (s.next (.merge newer older)).levels =
        levels₁ ++ (⟨s.published⟩, c₁ ∪ c₂) :: levels₂ := by
  obtain ⟨front, back, hsplit⟩ := hcall
  rw [List.append_assoc] at hsplit
  obtain ⟨levels₁, rest₁, hlevels, rfl, hrest₁⟩ := List.map_eq_append_iff.mp hsplit.symm
  obtain ⟨⟨newer, c₁⟩, rest₂, rfl, rfl, hrest₂⟩ := List.map_eq_cons_iff.mp hrest₁
  obtain ⟨⟨older, c₂⟩, levels₂, rfl, rfl, rfl⟩ := List.map_eq_cons_iff.mp hrest₂
  obtain ⟨batches, hserves⟩ := h.sound.serves
  have hfront : newer ∉ levels₁.map Prod.fst :=
    (List.nodup_middle.mp (hsplit ▸ hserves.nodup)).notMem ∘ List.mem_append_left _
  refine ⟨levels₁, c₁, c₂, levels₂, hlevels, hsplit.symm, hfront, ?_⟩
  rw [LevelStore.next, hlevels]
  exact LevelStore.union_neighbours _ hfront

/-- The levels of the oracle after a call. -/
theorem levels_next (h : Stores config w s) (hcall : s.Accepts call) :
    w.levelsAfter ((call.operation w).boundRef w.nextRef) call.arguments =
      (s.next call).levels.map fun level ↦ (nameOf level.1, level.2) := by
  cases call with
  | buildInitial records | upsert records =>
    show (levelName w.nextRef, contentsOf records) :: w.oracle.levels = _
    rw [h.levels, h.nextRef]
    rfl
  | buildPgm l => exact h.levels
  | query key => exact h.levels
  | merge newer older =>
    obtain ⟨levels₁, c₁, c₂, levels₂, hlevels, hids, hfront, hnext⟩ := h.exists_neighbours hcall
    have hnewer : newer ∈ s.ids := by
      rw [hids]
      exact List.mem_append_right _ List.mem_cons_self
    have holder : older ∈ s.ids := by
      rw [hids]
      exact List.mem_append_right _ (List.mem_cons_of_mem _ List.mem_cons_self)
    have hname : nameOf newer ∉
        (levels₁.map fun level ↦ (nameOf level.1, level.2)).map Prod.fst := by
      rw [List.map_map]
      intro hmem
      obtain ⟨level, hlevel, heq⟩ := List.mem_map.mp hmem
      have hold : level.1 ∈ s.ids := by
        rw [hids]
        exact List.mem_append_left _ (List.mem_map_of_mem hlevel)
      exact hfront (h.nameOf_injOn hold hnewer heq ▸ List.mem_map_of_mem hlevel)
    rw [hnext, RunnerCall.arguments, levelsAfter, h.refOf hnewer, h.refOf holder, h.levels, hlevels,
      List.map_append, List.map_append]
    refine (mergeAt_neighbours hname).trans ?_
    rw [boundRef (.merge newer older) trivial, h.nextRef]
    rfl

/-- The levels of the store are numbered below the next one. -/
theorem number_next (h : Stores config w s) (hcall : s.Accepts call) :
    ∀ l ∈ (s.next call).ids, ∃ n < (s.next call).published, l = ⟨n⟩ := by
  have hold : ∀ l ∈ s.ids, ∃ n < s.published + 1, l = ⟨n⟩ := fun l hl ↦ by
    obtain ⟨n, hn, rfl⟩ := h.exists_number hl
    exact ⟨n, Nat.lt_succ_of_lt hn, rfl⟩
  have hnew : ∃ n < s.published + 1, (⟨s.published⟩ : LevelId) = ⟨n⟩ :=
    ⟨s.published, Nat.lt_succ_self _, rfl⟩
  cases call with
  | buildInitial records | upsert records => exact List.forall_mem_cons.mpr ⟨hnew, hold⟩
  | buildPgm l => exact fun l ↦ h.exists_number
  | query key => exact fun l ↦ h.exists_number
  | merge newer older =>
    obtain ⟨levels₁, c₁, c₂, levels₂, -, hids, -, hnext⟩ := h.exists_neighbours hcall
    rw [LevelStore.ids, hnext, List.map_append, List.map_cons]
    intro l hl
    rcases List.mem_cons.mp (List.perm_middle.mem_iff.mp hl) with rfl | hkept
    · exact hnew
    · refine hold l ?_
      rw [hids]
      rcases List.mem_append.mp hkept with hfront | hback
      · exact List.mem_append_left _ hfront
      · exact List.mem_append_right _ (List.mem_cons_of_mem _ (List.mem_cons_of_mem _ hback))

/-- A call that the store accepts returns. -/
theorem accepted {ε : Nat} (h : Stores config w s) (hε : config.pgmEpsilon = some ε)
    (hcall : s.Accepts call) : ∃ w' r, call.perform.run w = .ok ⟨⟩ w' ∧
      Stores config w' (s.next call) ∧
      Went config w (call.operation w) call.arguments w' r := by
  obtain ⟨w', r, hrun, hwent⟩ := h.sound.run_accepted hε
    (call.operationClass_operation w) (fun hbinds ↦ by rw [boundRef call hbinds]; exact h.fresh)
    (h.accepts_iff.mpr hcall)
  refine ⟨w', r, hrun, ?_, hwent⟩
  have hrefs := h.refs_next hwent
  have hlevels := hwent.levels.trans (h.levels_next hcall)
  obtain ⟨ids', hsound⟩ := hwent.sound
  have hids : ids' = (s.next call).ids := by
    have hheld := hsound.levels
    rw [hlevels, List.forall₂_map_right_iff] at hheld
    have hsame : ids'.map id = (s.next call).levels.map Prod.fst := by
      have hnumber := List.forall_mem_map.mp (h.number_next hcall)
      refine map_eq_of_forall₂
        (((List.forall₂_and_left _ _).mpr ⟨hnumber, hheld.flip⟩).flip.imp ?_)
      rintro l level ⟨⟨n, -, hlevel⟩, hlookup, -⟩
      obtain ⟨m, -, hname, rfl⟩ := (hrefs _ _).mp hlookup
      rw [hlevel] at hname ⊢
      rw [← levelName_injective hname]
      rfl
    rwa [List.map_id] at hsame
  subst hids
  refine ⟨hsound, ?_, ?_, hlevels, hrefs, ?_⟩
  · rw [hwent.named.nextLevelId, h.nextLevelId, next_published]
    split_ifs <;> simp
  · rw [hwent.nextRef, h.nextRef, next_published]
  · rw [hwent.named.queryable, h.queryable, h.nextLevelId]
    cases call with
    | buildInitial | upsert | query => exact Finset.union_empty _
    | buildPgm | merge => exact Finset.union_singleton ..

end Step

/-- A call that the store does not accept raises, and leaves the runner as it was but for the
trace. -/
theorem rejected (h : Stores config w s) (hcall : ¬ s.Accepts call) :
    ∃ err, call.perform.run w = .error err w.opened := by
  have hnot : ¬ w.Accepts s.ids (call.operation w) call.arguments := hcall ∘ h.accepts_iff.mp
  obtain ⟨err, hrun⟩ := run_rejected h.sound hnot
  exact ⟨err, hrun⟩

theorem opened (h : Stores config w s) : Stores config w.opened s :=
  ⟨h.sound.opened, h.nextLevelId, h.nextRef, h.levels, h.refs, h.queryable⟩

end Stores

/-! ## Whole sessions -/

/-- After some calls the runner stands for the store, its records are verified, and nothing has
failed as long as no level is empty. -/
structure Serving (config : Config) (calls : List RunnerCall) (w : BaselineWorkloadRunner)
    (s : LevelStore) : Prop extends Stores config w s where
  verified : ∀ r ∈ w.records, r.verification.ok = true
  filled : .buildInitial [] ∉ calls → w.mismatches = 0 ∧ ∀ level ∈ s.levels, level.2 ≠ ∅

/-- A query is answered by the store. -/
def Answered (w w' : BaselineWorkloadRunner) (s : LevelStore) (key : Int) : Prop :=
  ∃ r o, w'.records = w.records ++ [r] ∧ r.oracle = some (.query o) ∧ o.value = s.lookup key ∧
    o.found = (s.lookup key).isSome

/-- A call that publishes a level without records is an empty initial batch. -/
theorem Stores.filled_next (h : Stores config w s) (hcall : s.Accepts call)
    (hempty : call ≠ .buildInitial []) (hfilled : ∀ level ∈ s.levels, level.2 ≠ ∅) :
    ∀ level ∈ (s.next call).levels, level.2 ≠ ∅ := by
  cases call with
  | buildInitial records =>
    refine List.forall_mem_cons.mpr ⟨fun hnil ↦ ?_, hfilled⟩
    rw [contentsOf, dictOf_eq_empty] at hnil
    exact hempty (congrArg RunnerCall.buildInitial hnil)
  | upsert records =>
    refine List.forall_mem_cons.mpr ⟨fun hnil ↦ ?_, hfilled⟩
    rw [contentsOf, dictOf_eq_empty] at hnil
    exact hcall.1 hnil
  | buildPgm l => exact hfilled
  | query key => exact hfilled
  | merge newer older =>
    obtain ⟨levels₁, c₁, c₂, levels₂, hlevels, -, -, hnext⟩ := h.exists_neighbours hcall
    rw [hlevels, List.forall_mem_append, List.forall_mem_cons, List.forall_mem_cons] at hfilled
    obtain ⟨hfront, hnewer, -, hback⟩ := hfilled
    rw [hnext, List.forall_mem_append, List.forall_mem_cons]
    exact ⟨hfront, union_ne_empty hnewer, hback⟩

/-- A call that goes through while no level is empty matches the oracle. -/
theorem Stores.mismatches_next {r : OperationRecord} (h : Stores config w s)
    (hwent : Went config w (call.operation w) call.arguments w' r)
    (hfilled : ∀ level ∈ s.levels, level.2 ≠ ∅) : w'.mismatches = w.mismatches := by
  have hmatches : ∀ summary ∈ r.oracle, summary.matchesOracle = true := by
    refine hwent.compared.matches_iff.mpr fun key _ _ level hlevel ↦ ?_
    have hmem := LogicalOracle.searched_subset key _ hlevel
    rw [h.levels] at hmem
    obtain ⟨level', hlevel', rfl⟩ := List.mem_map.mp hmem
    exact hfilled level' hlevel'
  rw [hwent.mismatches, if_pos hmatches, Nat.add_zero]

section Session

variable {calls : List RunnerCall} {ε : Nat}

/-- A call keeps the runner serving, whether it returns or raises. -/
theorem Serving.step (h : Serving config calls w s) (hε : config.pgmEpsilon = some ε)
    (call : RunnerCall) :
    Serving config (calls ++ [call]) (finalState (call.perform.run w)) (s.step call) := by
  have hearlier : .buildInitial [] ∉ calls ++ [call] →
      .buildInitial [] ∉ calls ∧ call ≠ .buildInitial [] := by
    rw [List.mem_append, not_or, List.mem_singleton]
    exact And.imp_right Ne.symm
  by_cases hcall : s.Accepts call
  · obtain ⟨w', r, hrun, hstores, hwent⟩ := h.toStores.accepted hε hcall
    rw [hrun, finalState_ok, LevelStore.step, if_pos hcall]
    refine ⟨hstores, ?_, fun hnone ↦ ?_⟩
    · rw [hwent.records]
      exact List.forall_mem_append.mpr ⟨h.verified, List.forall_mem_singleton.mpr hwent.verified⟩
    · obtain ⟨hcalls, hempty⟩ := hearlier hnone
      obtain ⟨hmismatches, hfilled⟩ := h.filled hcalls
      exact ⟨(h.toStores.mismatches_next hwent hfilled).trans hmismatches,
        h.toStores.filled_next hcall hempty hfilled⟩
  · obtain ⟨err, hrun⟩ := h.toStores.rejected hcall
    rw [hrun, finalState_error, LevelStore.step, if_neg hcall]
    exact ⟨h.toStores.opened, h.verified, fun hnone ↦ h.filled (hearlier hnone).1⟩

end Session

end BaselineWorkloadRunner

open BaselineWorkloadRunner

end EnhancedLetIndex
