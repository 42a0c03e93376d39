import EnhancedLetIndex.Basic.Total
import EnhancedLetIndex.Workload.Builder

/-!
# The workload families

The generators of `workload.py`.  They draw keys from `random.Random`, which is taken with what is
documented of its methods.  Whatever is drawn, a generator writes a script that runs to its end and
agrees with the oracle, so the command exits with 0 (`main_exits`).
-/

namespace EnhancedLetIndex

/-! ## Draws -/

/-- `random.Random`: a stream for every seed, and the methods that the generators call. -/
structure RandomSource (σ : Type) where
  seeded : Int → σ
  /-- Some elements of a list, at different places. -/
  sample : σ → List Int → Nat → List Int × σ
  /-- A number of a range without its end. -/
  randrange : σ → Int → Int → Int × σ
  /-- A number below 1, in units of 2⁻⁵³. -/
  random : σ → Nat × σ
  sample_subperm : ∀ s xs k, k ≤ xs.length → (sample s xs k).1.Subperm xs
  length_sample : ∀ s xs k, k ≤ xs.length → (sample s xs k).1.length = k
  le_randrange : ∀ s a b, a < b → a ≤ (randrange s a b).1
  randrange_lt : ∀ s a b, a < b → (randrange s a b).1 < b
  random_lt : ∀ s, (random s).1 < 2 ^ 53

/-- The stream that draws the first elements and the least numbers. -/
def RandomSource.first : RandomSource Unit where
  seeded _ := ()
  sample _ xs k := (xs.take k, ())
  randrange _ a _ := (a, ())
  random _ := (0, ())
  sample_subperm _ xs k _ := (List.take_sublist k xs).subperm
  length_sample _ _ _ := List.length_take_of_le
  le_randrange _ _ _ _ := le_rfl
  randrange_lt _ _ _ h := h
  random_lt _ := by decide

/-- `range`. -/
def keyRange (a b : Int) : List Int := (List.range (b - a).toNat).map fun i : Nat ↦ a + i

/-- `sorted`. -/
def sortedKeys (keys : List Int) : List Int := keys.insertionSort (· ≤ ·)

/-- A generator that is being run. -/
structure Generator (σ : Type) where
  rng : σ
  builder : ScriptBuilder

/-- A program of a generator. -/
abbrev GenM (σ : Type) := EStateM ScriptError (Generator σ)

namespace GenM

variable {σ : Type} (source : RandomSource σ)

/-- `rng.sample`. -/
def sample (xs : List Int) (k : Nat) : GenM σ (List Int) :=
  if k ≤ xs.length then
    modifyGet fun g ↦ ((source.sample g.rng xs k).1, { g with rng := (source.sample g.rng xs k).2 })
  else throw .value

/-- `rng.randrange`. -/
def randrange (a b : Int) : GenM σ Int :=
  if a < b then
    modifyGet fun g ↦
      ((source.randrange g.rng a b).1, { g with rng := (source.randrange g.rng a b).2 })
  else throw .value

/-- `rng.randint`: the end of the range belongs to it. -/
def randint (a b : Int) : GenM σ Int := randrange source a (b + 1)

/-- `rng.random`. -/
def random : GenM σ Nat :=
  modifyGet fun g ↦ ((source.random g.rng).1, { g with rng := (source.random g.rng).2 })

/-- An element of a list. -/
def item {α : Type} (xs : List α) (i : Nat) : GenM σ α :=
  match xs[i]? with
  | some x => pure x
  | none => throw .index

/-- The last element of a list. -/
def last {α : Type} (xs : List α) : GenM σ α :=
  match xs.getLast? with
  | some x => pure x
  | none => throw .index

/-- The references of the live levels. -/
def live : GenM σ (List String) := do
  let g ← get
  pure g.builder.live

def buildInitial (keys : List Int) (tag : Option String) : GenM σ String :=
  modifyGet fun g ↦ ((g.builder.buildInitial keys tag).1,
    { g with builder := (g.builder.buildInitial keys tag).2 })

def upsert (keys : List Int) (tag : Option String) : GenM σ String :=
  modifyGet fun g ↦ ((g.builder.upsert keys tag).1,
    { g with builder := (g.builder.upsert keys tag).2 })

def buildPgm (ref : String) : GenM σ Unit :=
  modify fun g ↦ { g with builder := g.builder.buildPgm ref }

def merge (newerRef olderRef : String) : GenM σ String := do
  let g ← get
  let (ref, b) ← liftExcept id (g.builder.merge newerRef olderRef)
  set { g with builder := b }
  pure ref

def query (key : Int) : GenM σ Unit :=
  modify fun g ↦ { g with builder := g.builder.query key }

/-- The script that a program writes, from a new stream. -/
def write (b : ScriptBuilder) (body : GenM σ Unit) : Except ScriptError WorkloadScript :=
  (outcome (body.run ⟨source.seeded b.seed, b⟩)).map fun _ ↦
    (finalState (body.run ⟨source.seeded b.seed, b⟩)).builder.script

end GenM

open GenM

section Families

variable {σ : Type} (source : RandomSource σ)

/-- What `generate_query_workload` draws and writes. -/
def queryBody : GenM σ Unit := do
  let newestDraw ← sample source (keyRange 0 40) 6
  let newestKeys := sortedKeys newestDraw
  let newest ← buildInitial newestKeys none
  buildPgm newest
  let middleDraw ← sample source (keyRange 40 90) 8
  let middleKeys := sortedKeys middleDraw
  let middle ← upsert middleKeys none
  buildPgm middle
  let oldestDraw ← sample source (keyRange 90 160) 10
  let oldestKeys := sortedKeys oldestDraw
  let oldest ← upsert oldestKeys none
  buildPgm oldest
  let misses ← (List.range 2).mapM fun _ ↦ randint source 400 500
  let repeated ← item newestKeys 0
  let queries := newestKeys.take 2 ++ middleKeys.take 2 ++ oldestKeys.take 2 ++ misses ++
    [repeated, repeated] ++ ((newestKeys.drop 2).take 2 ++ (middleKeys.drop 2).take 2).flatMap
      fun key ↦ [key - 1, key + 1]
  queries.forM query

/-- `generate_query_workload`. -/
def generateQueryWorkload (seed capacity epsilon : Int) : Except ScriptError WorkloadScript :=
  write source (.init "Q" seed capacity epsilon ("query-only: three levels with PGMs, " ++
    "newest/older hits, misses, repeated and rank-adjacent keys")) (queryBody source)

/-- One round of `generate_update_query_workload`. -/
def updateQueryRound (baseKeys : List Int) (round : Nat) : GenM σ Unit := do
  let old ← sample source baseKeys 2
  let new ← sample source (keyRange 0 30) 2
  let overlap := sortedSet (old ++ new)
  let fresh ← upsert overlap none
  buildPgm fresh
  let first ← item overlap 0
  query first
  let last ← last overlap
  query (last + 1)
  let older ← item baseKeys (round % baseKeys.length)
  query older

def updateQueryBody (rounds : Int) : GenM σ Unit := do
  let baseDraw ← sample source (keyRange 0 30) 8
  let baseKeys := sortedKeys baseDraw
  let base ← buildInitial baseKeys none
  buildPgm base
  (List.range rounds.toNat).forM (updateQueryRound source baseKeys)
  query 1000

/-- `generate_update_query_workload`. -/
def generateUpdateQueryWorkload (seed capacity epsilon rounds : Int) :
    Except ScriptError WorkloadScript :=
  write source (.init "UQ" seed capacity epsilon ("update+query: fresh-level upserts " ++
    "interleaved with queries, showing newest-first semantics before merge"))
    (updateQueryBody source rounds)

/-- One round of `generate_update_merge_query_workload`: the new live level. -/
def updateMergeQueryRound (baseKeys : List Int) (live : String) (round : Nat) : GenM σ String := do
  let old ← sample source baseKeys 3
  let new ← sample source (keyRange 0 25) 2
  let overlap := sortedSet (old ++ new)
  let fresh ← upsert overlap (some ("U" ++ Nat.repr round))
  buildPgm fresh
  let first ← item overlap 0
  query first
  let older ← item baseKeys (round % baseKeys.length)
  query older
  let merged ← merge fresh live
  query first
  query older
  let last ← last overlap
  query (last + 1)
  pure merged

def updateMergeQueryBody (rounds : Int) : GenM σ Unit := do
  let baseDraw ← sample source (keyRange 0 25) 8
  let baseKeys := sortedKeys baseDraw
  let base ← buildInitial baseKeys none
  buildPgm base
  let _ ← (List.range rounds.toNat).foldlM (updateMergeQueryRound source baseKeys) base
  query 9999

/-- `generate_update_merge_query_workload`. -/
def generateUpdateMergeQueryWorkload (seed capacity epsilon rounds : Int) :
    Except ScriptError WorkloadScript :=
  write source (.init "UMQ" seed capacity epsilon ("update+merge+query: explicit adjacent " ++
    "blocking merges with overlapping keys, queried before and after merge"))
    (updateMergeQueryBody source rounds)

/-- A merge of two neighbours that are drawn, and a query. -/
def mergeStep (refs : List String) : GenM σ Unit := do
  let index ← randrange source 0 (refs.length - 1)
  let newer ← item refs index.toNat
  let older ← item refs (index.toNat + 1)
  let _ ← merge newer older
  let key ← randrange source 0 45
  query key

/-- An upsert of at most five keys, and a query of the first. -/
def upsertStep (step : Nat) : GenM σ Unit := do
  let count ← randint source 1 5
  let draw ← sample source (keyRange 0 40) count.toNat
  let keys := sortedKeys draw
  let fresh ← upsert keys (some ("S" ++ Nat.repr step))
  buildPgm fresh
  let first ← item keys 0
  query first

/-- One step of `generate_random_workload`.  The draw is compared with 0.35 and 0.7, the floats,
and every third step merges when there are two levels. -/
def randomStep (step : Nat) : GenM σ Unit := do
  let refs ← live
  let draw ← random source
  if (step % 3 = 2 ∧ 2 ≤ refs.length ∨ draw < 3152519739159347) ∧ 2 ≤ refs.length then
    mergeStep source refs
  else if draw < 6305039478318694 then
    upsertStep source step
  else do
    let key ← randrange source 0 45
    query key

def randomBody (steps : Int) : GenM σ Unit := do
  let initialDraw ← sample source (keyRange 0 40) 6
  let initialKeys := sortedKeys initialDraw
  let live ← buildInitial initialKeys none
  buildPgm live
  let first ← item initialKeys 0
  query first
  (List.range steps.toNat).forM (randomStep source)

/-- `generate_random_workload`. -/
def generateRandomWorkload (seed capacity epsilon steps : Int) :
    Except ScriptError WorkloadScript :=
  write source (.init "RANDOM" seed capacity epsilon ("mixed randomized baseline sequence over " ++
    "upserts, adjacent merges and queries")) (randomBody source steps)

/-- `generate_workload`: the number of rounds has its default. -/
def generateWorkload (family : String) (seed capacity epsilon steps : Int) :
    Except ScriptError WorkloadScript :=
  if family = "Q" then generateQueryWorkload source seed capacity epsilon
  else if family = "UQ" then generateUpdateQueryWorkload source seed capacity epsilon 3
  else if family = "UMQ" then generateUpdateMergeQueryWorkload source seed capacity epsilon 3
  else if family = "RANDOM" then generateRandomWorkload source seed capacity epsilon steps
  else .error (.unknownFamily family)

/-- `WORKLOAD_FAMILIES`. -/
def workloadFamilies : List String := ["Q", "UQ", "UMQ", "RANDOM"]

end Families

/-! ## The builder of a generator -/

/-- What a generator keeps: its script is accepted operation by operation, no level of it is empty,
and every live level but the one that is being published has a PGM. -/
structure Ready (b₀ b : ScriptBuilder) (pending : Option String) : Prop extends Mirrors b where
  family : b.family = b₀.family
  capacity : b.capacity = b₀.capacity
  epsilon : b.epsilon = b₀.epsilon
  nodup : b.live.Nodup
  named : ∀ ref ∈ b.live, ∃ n < b.nextRef, ref = levelName n
  filled : ∀ i, ∀ level ∈ (WorkloadScript.book (b.ops.take i)).levels, level.2 ≠ ∅
  accepts : ∀ i op, b.ops[i]? = some op → (WorkloadScript.book (b.ops.take i)).Accepts op
  indexed : ∀ level ∈ (WorkloadScript.book b.ops).levels,
    some level.1 = pending ∨ level.1 ∈ (WorkloadScript.book b.ops).indexed

namespace Ready

variable {b₀ b b' : ScriptBuilder} {pending : Option String} {op : WorkloadOperation}

theorem init (family : String) (seed capacity epsilon : Int) (description : String) :
    Ready (.init family seed capacity epsilon description)
      (.init family seed capacity epsilon description) none where
  toMirrors := Mirrors.init _ _ _ _ _
  family := rfl
  capacity := rfl
  epsilon := rfl
  nodup := List.nodup_nil
  named _ h := absurd h List.not_mem_nil
  filled i level h := by
    rw [ScriptBuilder.init, List.take_nil] at h
    exact absurd h List.not_mem_nil
  accepts i op h := by simp [ScriptBuilder.init] at h
  indexed _ h := absurd h List.not_mem_nil

/-- The reference of the next level is new. -/
theorem fresh (h : Ready b₀ b pending) : levelName b.nextRef ∉ b.live := by
  intro hmem
  obtain ⟨n, hn, hname⟩ := h.named _ hmem
  exact hn.ne' (levelName_injective hname)

theorem levels_ne (h : Ready b₀ b pending) :
    ∀ level ∈ (WorkloadScript.book b.ops).levels, level.2 ≠ ∅ := by
  have hfilled := h.filled b.ops.length
  rwa [List.take_length] at hfilled

/-- A builder that is ready is ready again when what it has written is accepted. -/
theorem concat {call : BuilderCall} {pending' : Option String} (h : Ready b₀ b pending)
    (hwrote : Wrote b call b' op) (hruns : call.Runs (WorkloadScript.book b.ops))
    (hfamily : b'.family = b.family) (hnodup : b'.live.Nodup)
    (hnamed : ∀ ref ∈ b'.live, ∃ n < b'.nextRef, ref = levelName n)
    (hlevels : ∀ level ∈ ((WorkloadScript.book b.ops).next op).levels, level.2 ≠ ∅ ∧
      (some level.1 = pending' ∨ level.1 ∈ ((WorkloadScript.book b.ops).next op).indexed)) :
    Ready b₀ b' pending' where
  toMirrors := hwrote.mirrors
  family := hfamily.trans h.family
  capacity := hwrote.capacity.trans h.capacity
  epsilon := hwrote.epsilon.trans h.epsilon
  nodup := hnodup
  named := hnamed
  filled i := by
    rw [hwrote.ops]
    rcases Nat.lt_or_ge b.ops.length i with hlt | hle
    · rw [List.take_of_length_le (by rw [List.length_append]; exact hlt),
        WorkloadScript.book_concat]
      exact fun level hlevel ↦ (hlevels level hlevel).1
    · rw [List.take_append_of_le_length hle]
      exact h.filled i
  accepts := by
    rw [hwrote.ops, WorkloadScript.forall_accepts_concat]
    exact ⟨h.accepts, hwrote.accepts.mpr hruns⟩
  indexed := by
    rw [hwrote.ops, WorkloadScript.book_concat]
    exact fun level hlevel ↦ (hlevels level hlevel).2

/-- The levels of a builder that is ready, after an operation that leaves them as they are. -/
theorem levels_same (h : Ready b₀ b pending) {pending' : Option String}
    (hkind : op.kind = OperationClass.buildPgm.text ∨ op.kind = OperationClass.query.text)
    (hpending : ∀ ref, some ref = pending →
      some ref = pending' ∨ ref ∈ op.declares (WorkloadScript.book b.ops).published) :
    ∀ level ∈ ((WorkloadScript.book b.ops).next op).levels, level.2 ≠ ∅ ∧
      (some level.1 = pending' ∨ level.1 ∈ ((WorkloadScript.book b.ops).next op).indexed) := by
  intro level hlevel
  rw [LevelBook.next, LiveLevels.next_unbound hkind] at hlevel
  refine ⟨h.levels_ne level hlevel, ?_⟩
  rw [LevelBook.next, Finset.mem_union]
  rcases h.indexed level hlevel with hp | hold
  · exact (hpending _ hp).imp_right Or.inr
  · exact Or.inr (Or.inl hold)

theorem query (h : Ready b₀ b none) (key : Int) : Ready b₀ (b.query key) none := by
  refine h.concat (wrote_query h.toMirrors key) (fun level hlevel _ ↦ ?_) rfl h.nodup h.named
    (h.levels_same (Or.inr rfl) fun _ hp ↦ by cases hp)
  exact (h.indexed level hlevel).resolve_left (Option.some_ne_none _)

theorem buildPgm {ref : String} (h : Ready b₀ b (some ref)) (href : ref ∈ b.live) :
    Ready b₀ (b.buildPgm ref) none := by
  have hruns : ref ∈ (WorkloadScript.book b.ops).refs := h.live.symm ▸ href
  refine h.concat (wrote_buildPgm h.toMirrors ref) hruns rfl h.nodup h.named
    (h.levels_same (Or.inl rfl) fun _ hp ↦ ?_)
  cases hp
  exact Or.inr (Option.mem_toFinset.mpr rfl)

/-- The levels after a batch of some keys. -/
theorem batch_levels (h : Ready b₀ b none) {kind : OperationClass}
    (hkind : kind = .buildInitial ∨ kind = .upsert) {keys : List Int} (hkeys : keys ≠ [])
    (tag : Option String) :
    ∀ level ∈ ((WorkloadScript.book b.ops).next (batchOperation b kind keys tag)).levels,
      level.2 ≠ ∅ ∧ (some level.1 = some (levelName b.nextRef) ∨
        level.1 ∈ ((WorkloadScript.book b.ops).next (batchOperation b kind keys tag)).indexed) := by
  have hclass : (batchOperation b kind keys tag).operationClass = some kind :=
    WorkloadOperation.operationClass_eq.mpr rfl
  have hnext : ((WorkloadScript.book b.ops).next (batchOperation b kind keys tag)).levels =
      (levelName b.nextRef, contentsOf (batchOperation b kind keys tag).records) ::
        (WorkloadScript.book b.ops).levels := by
    rw [LevelBook.next, LiveLevels.next, hclass]
    rcases hkind with rfl | rfl <;> rfl
  rw [hnext]
  refine List.forall_mem_cons.mpr ⟨⟨?_, Or.inl rfl⟩, fun level hlevel ↦ ⟨h.levels_ne level hlevel, ?_⟩⟩
  · exact contentsOf_records_ne rfl rfl fun hnil ↦ hkeys (sortedSet_eq_nil.mp hnil)
  · rw [LevelBook.next, Finset.mem_union]
    exact Or.inr (Or.inl ((h.indexed level hlevel).resolve_left (Option.some_ne_none _)))

theorem batch_named (h : Ready b₀ b none) :
    ∀ ref ∈ levelName b.nextRef :: b.live, ∃ n < b.nextRef + 1, ref = levelName n := by
  refine List.forall_mem_cons.mpr ⟨⟨b.nextRef, Nat.lt_succ_self _, rfl⟩, fun ref href ↦ ?_⟩
  obtain ⟨n, hn, rfl⟩ := h.named ref href
  exact ⟨n, Nat.lt_succ_of_lt hn, rfl⟩

theorem buildInitial (h : Ready b₀ b none) {keys : List Int} (hkeys : keys ≠ [])
    (tag : Option String) :
    Ready b₀ (b.buildInitial keys tag).2 (some (levelName b.nextRef)) :=
  h.concat (wrote_buildInitial h.toMirrors keys tag) trivial rfl
    (List.nodup_cons.mpr ⟨h.fresh, h.nodup⟩) h.batch_named (h.batch_levels (Or.inl rfl) hkeys tag)

theorem upsert (h : Ready b₀ b none) {keys : List Int} (hkeys : keys ≠ [])
    (tag : Option String) : Ready b₀ (b.upsert keys tag).2 (some (levelName b.nextRef)) :=
  h.concat (wrote_upsert h.toMirrors keys tag) hkeys rfl
    (List.nodup_cons.mpr ⟨h.fresh, h.nodup⟩) h.batch_named (h.batch_levels (Or.inr rfl) hkeys tag)

/-- Neighbours are merged. -/
theorem merge (h : Ready b₀ b none) {front back : List String} {newerRef olderRef : String}
    (hlive : b.live = front ++ newerRef :: olderRef :: back) :
    b.merge newerRef olderRef = .ok (levelName b.nextRef, merged b front back newerRef olderRef) ∧
      Ready b₀ (merged b front back newerRef olderRef) none := by
  have hsplit : b.live = (front ++ [newerRef]) ++ olderRef :: back := by
    rw [hlive, List.append_assoc, List.singleton_append]
  have hnewer : newerRef ∉ front :=
    (List.nodup_middle.mp (hlive ▸ h.nodup)).notMem ∘ List.mem_append_left _
  have holder : olderRef ∉ front ++ [newerRef] :=
    (List.nodup_middle.mp (hsplit ▸ h.nodup)).notMem ∘ List.mem_append_left _
  have hmerge := merge_of_neighbours hlive hnewer holder
  have hkept : (front ++ back).Sublist b.live := by
    rw [hlive]
    exact (List.Sublist.refl front).append ((List.sublist_cons_self _ _).trans
      (List.sublist_cons_self _ _))
  refine ⟨hmerge, h.concat (wrote_merge h.toMirrors hmerge) trivial rfl ?_ ?_ ?_⟩
  · refine List.nodup_middle.mpr (List.nodup_cons.mpr ⟨?_, h.nodup.sublist hkept⟩)
    exact fun hmem ↦ h.fresh (hkept.subset hmem)
  · intro ref href
    rcases List.mem_cons.mp (List.perm_middle.mem_iff.mp href) with rfl | hold
    · exact ⟨b.nextRef, Nat.lt_succ_self _, rfl⟩
    · obtain ⟨n, hn, rfl⟩ := h.named ref (hkept.subset hold)
      exact ⟨n, Nat.lt_succ_of_lt hn, rfl⟩
  · obtain ⟨levels₁, c₁, c₂, levels₂, hlevels, -, -, hnext⟩ :=
      levels_mergeOperation h.toMirrors hlive hnewer
    intro level hlevel
    rw [hnext] at hlevel
    rcases List.mem_cons.mp (List.perm_middle.mem_iff.mp hlevel) with rfl | hold
    · refine ⟨union_ne_empty (h.levels_ne (newerRef, c₁) (by rw [hlevels]; simp)), Or.inr ?_⟩
      rw [LevelBook.next, Finset.mem_union, WorkloadOperation.declares,
        operationClass_mergeOperation, h.published]
      exact Or.inr (Finset.mem_singleton_self _)
    · have hmem : level ∈ (WorkloadScript.book b.ops).levels := by
        rw [hlevels]
        rcases List.mem_append.mp hold with hfront | hback
        · exact List.mem_append_left _ hfront
        · exact List.mem_append_right _ (List.mem_cons_of_mem _ (List.mem_cons_of_mem _ hback))
      refine ⟨h.levels_ne level hmem, Or.inr ?_⟩
      rw [LevelBook.next, Finset.mem_union]
      exact Or.inl ((h.indexed level hmem).resolve_left (Option.some_ne_none _))

end Ready

/-! ## What the programs of a generator ensure -/

/-- A generator with these live levels. -/
def Live {σ : Type} (b₀ : ScriptBuilder) (pending : Option String) (refs : List String)
    (g : Generator σ) : Prop := Ready b₀ g.builder pending ∧ g.builder.live = refs

section Programs

variable {σ : Type} {source : RandomSource σ} {b₀ : ScriptBuilder} {pending : Option String}
  {refs : List String}

theorem ensures_sample {xs : List Int} {k : Nat} (hk : k ≤ xs.length) :
    Ensures (Live b₀ pending refs) (sample source xs k) fun ys g ↦
      ys.length = k ∧ Live b₀ pending refs g := by
  rw [sample, if_pos hk]
  exact .modifyGet fun g hg ↦ ⟨source.length_sample g.rng xs k hk, hg⟩

theorem ensures_randrange {a b : Int} (h : a < b) :
    Ensures (Live b₀ pending refs) (randrange source a b) fun r g ↦
      (a ≤ r ∧ r < b) ∧ Live b₀ pending refs g := by
  rw [randrange, if_pos h]
  exact .modifyGet fun g hg ↦ ⟨⟨source.le_randrange g.rng a b h, source.randrange_lt g.rng a b h⟩, hg⟩

theorem ensures_random :
    Ensures (Live b₀ pending refs) (GenM.random source) fun _ ↦ Live b₀ pending refs :=
  .modifyGet fun _ hg ↦ hg

theorem ensures_item {α : Type} {P : Generator σ → Prop} {xs : List α} {i : Nat}
    (hi : i < xs.length) :
    Ensures P (item xs i) fun x g ↦ xs[i]? = some x ∧ P g := by
  rw [item, List.getElem?_eq_getElem hi]
  exact .pure fun g hg ↦ ⟨rfl, hg⟩

theorem ensures_last {α : Type} {P : Generator σ → Prop} {xs : List α} (hne : xs ≠ []) :
    Ensures P (last xs) fun _ ↦ P := by
  rw [last, List.getLast?_eq_getLast_of_ne_nil hne]
  exact .pure fun g hg ↦ hg

theorem ensures_live :
    Ensures (Live (σ := σ) b₀ none refs) GenM.live fun refs' g ↦ refs' = refs ∧ Live b₀ none refs g :=
  fun g hg ↦ ⟨_, g, rfl, hg.2, hg⟩

theorem ensures_buildInitial {keys : List Int} (hkeys : keys ≠ []) (tag : Option String) :
    Ensures (Live (σ := σ) b₀ none refs) (GenM.buildInitial keys tag) fun ref ↦
      Live b₀ (some ref) (ref :: refs) :=
  .modifyGet fun _ hg ↦ ⟨hg.1.buildInitial hkeys tag, congrArg (_ :: ·) hg.2⟩

theorem ensures_upsert {keys : List Int} (hkeys : keys ≠ []) (tag : Option String) :
    Ensures (Live (σ := σ) b₀ none refs) (GenM.upsert keys tag) fun ref ↦
      Live b₀ (some ref) (ref :: refs) :=
  .modifyGet fun _ hg ↦ ⟨hg.1.upsert hkeys tag, congrArg (_ :: ·) hg.2⟩

/-- The level that has just been published gets a PGM. -/
theorem ensures_buildPgm (ref : String) :
    Ensures (Live (σ := σ) b₀ (some ref) (ref :: refs)) (GenM.buildPgm ref) fun _ ↦
      Live b₀ none (ref :: refs) :=
  .modifyGet fun _ hg ↦ ⟨hg.1.buildPgm (hg.2 ▸ List.mem_cons_self), hg.2⟩

theorem ensures_query (key : Int) :
    Ensures (Live (σ := σ) b₀ none refs) (GenM.query key) fun _ ↦ Live b₀ none refs :=
  .modifyGet fun _ hg ↦ ⟨hg.1.query key, hg.2⟩

theorem ensures_merge {front back : List String} {newerRef olderRef : String}
    (hrefs : refs = front ++ newerRef :: olderRef :: back) :
    Ensures (Live (σ := σ) b₀ none refs) (GenM.merge newerRef olderRef) fun ref ↦
      Live b₀ none (front ++ ref :: back) := by
  rintro g ⟨hready, hlive⟩
  obtain ⟨hmerge, hready'⟩ := hready.merge (hlive.trans hrefs)
  refine ⟨_, { g with builder := merged g.builder front back newerRef olderRef }, ?_, hready', rfl⟩
  rw [GenM.merge, run_get_bind, hmerge]
  rfl

theorem length_sortedKeys (keys : List Int) : (sortedKeys keys).length = keys.length :=
  List.length_insertionSort _ _

/-! ## The families -/

/-- A generator that has published something, all of it with PGMs. -/
def Published (b₀ : ScriptBuilder) (g : Generator σ) : Prop :=
  ∃ refs, refs ≠ [] ∧ Live b₀ none refs g

theorem Ensures.of_published {α : Type} {x : GenM σ α}
    {Q : α → Generator σ → Prop} (h : ∀ refs, refs ≠ [] → Ensures (Live b₀ none refs) x Q) :
    Ensures (Published b₀) x Q := .of_exists fun refs ↦ .of_fact (h refs)

theorem ensures_lastQuery (hrefs : refs ≠ []) (key : Int) :
    Ensures (Live (σ := σ) b₀ none refs) (GenM.query key) fun _ ↦ Published b₀ :=
  (ensures_query key).conseq (fun _ hg ↦ hg) fun _ _ hg ↦ ⟨refs, hrefs, hg⟩

theorem ensures_queryBody :
    Ensures (Live b₀ none []) (queryBody source) fun _ ↦ Published b₀ := by
  refine .bind (ensures_sample (by decide)) fun newestDraw ↦ .of_fact fun hnewest ↦ ?_
  have hnewest : (sortedKeys newestDraw).length = 6 := (length_sortedKeys _).trans hnewest
  refine .bind (ensures_buildInitial (List.ne_nil_of_length_eq_add_one hnewest) _) fun newest ↦ ?_
  refine .bind (ensures_buildPgm _) fun _ ↦ ?_
  refine .bind (ensures_sample (by decide)) fun middleDraw ↦ .of_fact fun hmiddle ↦ ?_
  have hmiddle : (sortedKeys middleDraw).length = 8 := (length_sortedKeys _).trans hmiddle
  refine .bind (ensures_upsert (List.ne_nil_of_length_eq_add_one hmiddle) _) fun middle ↦ ?_
  refine .bind (ensures_buildPgm _) fun _ ↦ ?_
  refine .bind (ensures_sample (by decide)) fun oldestDraw ↦ .of_fact fun holdest ↦ ?_
  have holdest : (sortedKeys oldestDraw).length = 10 := (length_sortedKeys _).trans holdest
  refine .bind (ensures_upsert (List.ne_nil_of_length_eq_add_one holdest) _) fun oldest ↦ ?_
  refine .bind (ensures_buildPgm _) fun _ ↦ ?_
  refine .bind (.mapM fun _ _ ↦ (ensures_randrange (by decide)).conseq (fun _ hg ↦ hg)
    fun _ _ hg ↦ hg.2) fun misses ↦ ?_
  refine .bind (ensures_item (by omega)) fun repeated ↦ .of_fact fun _ ↦ ?_
  exact (Ensures.forM fun key _ ↦ ensures_query key).conseq (fun _ hg ↦ hg) fun _ _ hg ↦
    ⟨_, List.cons_ne_nil _ _, hg⟩

theorem ensures_updateQueryRound {baseKeys : List Int} (hbase : baseKeys.length = 8) (round : Nat) :
    Ensures (Published b₀) (updateQueryRound source baseKeys round)
      fun _ ↦ Published b₀ := by
  refine .of_published fun refs hrefs ↦ ?_
  refine .bind (ensures_sample (by omega)) fun old ↦ .of_fact fun hold ↦ ?_
  refine .bind (ensures_sample (by decide)) fun new ↦ .of_fact fun _ ↦ ?_
  have hne : sortedSet (old ++ new) ≠ [] := by
    rw [Ne, sortedSet_eq_nil, List.append_eq_nil_iff]
    exact fun hnil ↦ List.ne_nil_of_length_eq_add_one hold hnil.1
  refine .bind (ensures_upsert hne _) fun fresh ↦ ?_
  refine .bind (ensures_buildPgm _) fun _ ↦ ?_
  refine .bind (ensures_item (List.length_pos_iff.mpr hne)) fun first ↦ .of_fact fun _ ↦ ?_
  refine .bind (ensures_query first) fun _ ↦ ?_
  refine .bind (ensures_last hne) fun last ↦ ?_
  refine .bind (ensures_query _) fun _ ↦ ?_
  refine .bind (ensures_item (Nat.mod_lt _ (by omega))) fun older ↦ .of_fact fun _ ↦ ?_
  exact ensures_lastQuery (List.cons_ne_nil _ _) older

theorem ensures_updateQueryBody (rounds : Int) :
    Ensures (Live b₀ none []) (updateQueryBody source rounds) fun _ ↦ Published b₀ := by
  refine .bind (ensures_sample (by decide)) fun baseDraw ↦ .of_fact fun hbase ↦ ?_
  have hbase : (sortedKeys baseDraw).length = 8 := (length_sortedKeys _).trans hbase
  refine .bind (ensures_buildInitial (List.ne_nil_of_length_eq_add_one hbase) _) fun base ↦ ?_
  refine .bind (ensures_buildPgm _) fun _ ↦ ?_
  refine .bind (.conseq (.forM fun round _ ↦ ensures_updateQueryRound hbase round)
    (fun _ hg ↦ ⟨_, List.cons_ne_nil _ _, hg⟩) fun _ _ hg ↦ hg) fun _ ↦
      .of_published fun refs hrefs ↦ ?_
  exact ensures_lastQuery hrefs 1000

/-- The merge of a round leaves one level. -/
theorem ensures_updateMergeQueryRound {baseKeys : List Int} (hbase : baseKeys.length = 8)
    (live : String) (round : Nat) :
    Ensures (Live b₀ none [live]) (updateMergeQueryRound source baseKeys live round) fun merged ↦
      Live b₀ none [merged] := by
  refine .bind (ensures_sample (by omega)) fun old ↦ .of_fact fun hold ↦ ?_
  refine .bind (ensures_sample (by decide)) fun new ↦ .of_fact fun _ ↦ ?_
  have hne : sortedSet (old ++ new) ≠ [] := by
    rw [Ne, sortedSet_eq_nil, List.append_eq_nil_iff]
    exact fun hnil ↦ List.ne_nil_of_length_eq_add_one hold hnil.1
  refine .bind (ensures_upsert hne _) fun fresh ↦ ?_
  refine .bind (ensures_buildPgm _) fun _ ↦ ?_
  refine .bind (ensures_item (List.length_pos_iff.mpr hne)) fun first ↦ .of_fact fun _ ↦ ?_
  refine .bind (ensures_query first) fun _ ↦ ?_
  refine .bind (ensures_item (Nat.mod_lt _ (by omega))) fun older ↦ .of_fact fun _ ↦ ?_
  refine .bind (ensures_query older) fun _ ↦ ?_
  refine .bind (ensures_merge (List.nil_append _).symm) fun merged ↦ ?_
  refine .bind (ensures_query first) fun _ ↦ ?_
  refine .bind (ensures_query older) fun _ ↦ ?_
  refine .bind (ensures_last hne) fun last ↦ ?_
  exact .bind (ensures_query _) fun _ ↦ .pure fun _ hg ↦ hg

theorem ensures_updateMergeQueryBody (rounds : Int) :
    Ensures (Live b₀ none []) (updateMergeQueryBody source rounds) fun _ ↦ Published b₀ := by
  refine .bind (ensures_sample (by decide)) fun baseDraw ↦ .of_fact fun hbase ↦ ?_
  have hbase : (sortedKeys baseDraw).length = 8 := (length_sortedKeys _).trans hbase
  refine .bind (ensures_buildInitial (List.ne_nil_of_length_eq_add_one hbase) _) fun base ↦ ?_
  refine .bind (ensures_buildPgm _) fun _ ↦ ?_
  refine .bind (.foldlM (fun live round _ ↦ ensures_updateMergeQueryRound hbase live round) base)
    fun live ↦ ?_
  exact ensures_lastQuery (List.cons_ne_nil _ _) 9999

/-- There is a pair of neighbours for every index that can be drawn. -/
theorem ensures_mergeStep (htwo : 2 ≤ refs.length) :
    Ensures (Live b₀ none refs) (mergeStep source refs) fun _ ↦ Published b₀ := by
  refine .bind (ensures_randrange (by omega)) fun index ↦ .of_fact fun ⟨hle, hlt⟩ ↦ ?_
  refine .bind (ensures_item (by omega)) fun newer ↦ .of_fact fun hnewer ↦ ?_
  refine .bind (ensures_item (by omega)) fun older ↦ .of_fact fun holder ↦ ?_
  obtain ⟨hi, rfl⟩ := List.getElem?_eq_some_iff.mp hnewer
  obtain ⟨hj, rfl⟩ := List.getElem?_eq_some_iff.mp holder
  have hsplit : refs = refs.take index.toNat ++ refs[index.toNat] :: refs[index.toNat + 1] ::
      refs.drop (index.toNat + 1 + 1) := by
    rw [← List.drop_eq_getElem_cons hj, ← List.drop_eq_getElem_cons hi, List.take_append_drop]
  refine .bind (ensures_merge hsplit) fun _ ↦ ?_
  refine .bind (ensures_randrange (by decide)) fun key ↦ .of_fact fun _ ↦ ?_
  exact ensures_lastQuery (List.append_ne_nil_of_right_ne_nil _ (List.cons_ne_nil _ _)) key

theorem ensures_upsertStep (step : Nat) :
    Ensures (Live b₀ none refs) (upsertStep source step) fun _ ↦ Published b₀ := by
  refine .bind (ensures_randrange (by decide)) fun count ↦ .of_fact fun ⟨hle, hlt⟩ ↦ ?_
  refine .bind (ensures_sample (k := count.toNat) ?_) fun draw ↦ .of_fact fun hdraw ↦ ?_
  · rw [keyRange, List.length_map, List.length_range]
    omega
  have hpos : 0 < (sortedKeys draw).length := by
    rw [length_sortedKeys, hdraw]
    omega
  refine .bind (ensures_upsert (List.length_pos_iff.mp hpos) _) fun fresh ↦ ?_
  refine .bind (ensures_buildPgm _) fun _ ↦ ?_
  refine .bind (ensures_item hpos) fun first ↦ .of_fact fun _ ↦ ?_
  exact ensures_lastQuery (List.cons_ne_nil _ _) first

theorem ensures_randomStep (step : Nat) :
    Ensures (Published b₀) (randomStep source step)
      fun _ ↦ Published b₀ := by
  refine .of_published fun refs hrefs ↦ ?_
  refine .bind ensures_live fun refs' ↦ .of_fact fun hrefs ↦ ?_
  subst refs'
  refine .bind ensures_random fun draw ↦ ?_
  refine .ite (fun hmerge ↦ ensures_mergeStep hmerge.2) fun _ ↦ ?_
  refine .ite (fun _ ↦ ensures_upsertStep step) fun _ ↦ ?_
  refine .bind (ensures_randrange (by decide)) fun key ↦ .of_fact fun _ ↦ ?_
  exact ensures_lastQuery hrefs key

theorem ensures_randomBody (steps : Int) :
    Ensures (Live b₀ none []) (randomBody source steps) fun _ ↦ Published b₀ := by
  refine .bind (ensures_sample (by decide)) fun initialDraw ↦ .of_fact fun hinitial ↦ ?_
  have hinitial : (sortedKeys initialDraw).length = 6 := (length_sortedKeys _).trans hinitial
  refine .bind (ensures_buildInitial (List.ne_nil_of_length_eq_add_one hinitial) _) fun live ↦ ?_
  refine .bind (ensures_buildPgm _) fun _ ↦ ?_
  refine .bind (ensures_item (by omega)) fun first ↦ .of_fact fun _ ↦ ?_
  refine .bind (ensures_query first) fun _ ↦ ?_
  refine .conseq (.forM fun step _ ↦ ensures_randomStep step) (fun _ hg ↦ ?_) fun _ _ hg ↦ hg
  exact ⟨_, List.cons_ne_nil _ _, hg⟩

/-- The script that a program of a generator writes. -/
theorem exists_write {body : GenM σ Unit} {family : String} {seed capacity epsilon : Int}
    {description : String}
    (h : Ensures (Live (.init family seed capacity epsilon description) none []) body fun _ ↦
      Published (.init family seed capacity epsilon description)) :
    ∃ b, write source (.init family seed capacity epsilon description) body = .ok b.script ∧
      Ready (.init family seed capacity epsilon description) b none ∧ b.live ≠ [] := by
  obtain ⟨_, g, hrun, refs, hrefs, hready, rfl⟩ :=
    h ⟨source.seeded seed, .init family seed capacity epsilon description⟩
      ⟨Ready.init _ _ _ _ _, rfl⟩
  refine ⟨g.builder, ?_, hready, hrefs⟩
  rw [write]
  exact congrArg (fun r ↦ (outcome r).map fun _ ↦ (finalState r).builder.script) hrun

/-- Every family writes a script, and its builder is ready. -/
theorem exists_generateWorkload (source : RandomSource σ) {family : String}
    (hfamily : family ∈ workloadFamilies) (seed capacity epsilon steps : Int) :
    ∃ description b, generateWorkload source family seed capacity epsilon steps = .ok b.script ∧
      Ready (.init family seed capacity epsilon description) b none ∧ b.live ≠ [] := by
  simp only [workloadFamilies, List.mem_cons, List.not_mem_nil, or_false] at hfamily
  rcases hfamily with rfl | rfl | rfl | rfl
  · exact ⟨_, exists_write ensures_queryBody⟩
  · exact ⟨_, exists_write (ensures_updateQueryBody 3)⟩
  · exact ⟨_, exists_write (ensures_updateMergeQueryBody 3)⟩
  · exact ⟨_, exists_write (ensures_randomBody steps)⟩

end Programs

/-! ## Running what has been written -/

theorem Ready.executable {b₀ b : ScriptBuilder} (h : Ready b₀ b none) : b.script.Executable :=
  h.accepts

/-- No level of the script is empty, so no query passes one. -/
theorem Ready.passesNoEmptyLevel {b₀ b : ScriptBuilder} (h : Ready b₀ b none) :
    b.script.PassesNoEmptyLevel := by
  intro i op key _ _ _ level hlevel
  rw [← WorkloadScript.toLiveLevels_book] at hlevel
  exact h.filled i level (LogicalOracle.searched_subset key _ hlevel)

open BaselineWorkloadRunner in
/-- The script of a builder that is ready runs to its end and agrees with the oracle. -/
theorem Ready.runs {b₀ b : ScriptBuilder} (h : Ready b₀ b none) (hcapacity : 1 ≤ b₀.capacity)
    (hepsilon : 0 ≤ b₀.epsilon) (hlive : b.live ≠ []) :
    ∃ w artifact, runScript b.script = .ok w ∧ exportDict b.script w = .ok artifact ∧
      (artifact.field "final").bind (Json.field "correctness_ok") = some (.bool true) ∧
      validateG1eArtifact artifact = .ok () := by
  have hfresh := h.freshRefs
  obtain ⟨w, hw⟩ := (completes_iff hfresh).mpr
    ⟨hcapacity.trans_eq h.capacity.symm, hepsilon.trans_eq h.epsilon.symm, h.executable⟩
  obtain ⟨config, -, -, hrun⟩ := runScript_eq_ok hw
  have hrecorded := recorded_init hrun
  have hfollows := follows_run hfresh hrun
  have hagrees := hfollows.agrees_iff.mpr h.passesNoEmptyLevel
  have hmismatches := hrecorded.clean.mpr hagrees
  obtain ⟨levels, hexport⟩ := exists_exportDict b.script (hrecorded.exportable hagrees)
  have hcorrect : ((w.artifact b.script levels).field "final").bind (Json.field "correctness_ok") =
      some (.bool true) :=
    congrArg (some ∘ Json.bool) (exportedCorrectness_of_agrees hmismatches hagrees)
  refine ⟨w, _, hw, hexport, hcorrect, validateG1eArtifact_eq_ok.mpr ⟨rfl, hcorrect, _, _, rfl, ?_,
    hrecorded.observed, hrecorded.positioned, hrecorded.integral⟩⟩
  -- something has been published
  rw [Ne, List.map_eq_nil_iff, ← List.length_eq_zero_iff, hrecorded.length, List.length_eq_zero_iff]
  intro hnil
  have hops : b.ops = [] := hnil
  rw [← h.live, hops] at hlive
  exact hlive rfl

/-- The artifact of `main` and its exit code; the command line and the printing are left out. -/
def Workload.main {σ : Type} (source : RandomSource σ) (family : String)
    (seed capacity epsilon steps : Int) : Except (ScriptError ⊕ WorkloadError) (Json × Nat) := do
  let script ← (generateWorkload source family seed capacity epsilon steps).mapError .inl
  let w ← (runScript script).mapError .inr
  let payload ← (exportDict script w).mapError .inr
  match (payload.field "final").bind (Json.field "correctness_ok") with
  | some (.bool true) => pure (payload, 0)
  | _ => pure (payload, 1)

section Main

variable {σ : Type} {source : RandomSource σ} {family : String} {seed capacity epsilon steps : Int}

theorem main_of_valid (source : RandomSource σ) (seed steps : Int)
    (hfamily : family ∈ workloadFamilies) (hcapacity : 1 ≤ capacity) (hepsilon : 0 ≤ epsilon) :
    ∃ payload,
      Workload.main source family seed capacity epsilon steps = .ok (payload, 0) ∧
      validateG1eArtifact payload = .ok () := by
  obtain ⟨description, b, hwrite, hready, hlive⟩ :=
    exists_generateWorkload source hfamily seed capacity epsilon steps
  obtain ⟨w, artifact, hw, hexport, hcorrect, hvalid⟩ := hready.runs hcapacity hepsilon hlive
  refine ⟨artifact, ?_, hvalid⟩
  simp only [Workload.main, hwrite, hw, hexport, Except.mapError, ok_bind, hcorrect]
  rfl

theorem valid_of_main {r : Json × Nat}
    (h : Workload.main source family seed capacity epsilon steps = .ok r) :
    family ∈ workloadFamilies ∧ 1 ≤ capacity ∧ 0 ≤ epsilon := by
  obtain ⟨script, hscript, h⟩ := bind_eq_ok.mp h
  obtain ⟨w, hw, -⟩ := bind_eq_ok.mp h
  have hfamily : family ∈ workloadFamilies := by
    by_contra hunknown
    simp only [workloadFamilies, List.mem_cons, List.not_mem_nil, or_false, not_or] at hunknown
    obtain ⟨hq, huq, humq, hrandom⟩ := hunknown
    rw [generateWorkload, if_neg hq, if_neg huq, if_neg humq, if_neg hrandom] at hscript
    cases hscript
  obtain ⟨description, b, hwrite, hready, -⟩ :=
    exists_generateWorkload source hfamily seed capacity epsilon steps
  rw [hwrite] at hscript
  cases hscript
  have hrun : ∃ w, runScript b.script = .ok w := by
    cases hrun : runScript b.script with
    | ok w => exact ⟨w, rfl⟩
    | error err =>
      rw [hrun] at hw
      cases hw
  obtain ⟨hcapacity, hepsilon, -⟩ := (completes_iff hready.freshRefs).mp hrun
  exact ⟨hfamily, hcapacity.trans_eq hready.capacity, hepsilon.trans_eq hready.epsilon⟩

end Main

/-- Whatever is drawn, `main` exits with 0 and writes an artifact that its consumer accepts, exactly
when the family is known and the configuration is valid; otherwise it raises. -/
theorem main_exits {σ : Type} (source : RandomSource σ) (family : String)
    (seed capacity epsilon steps : Int) :
    ((∃ r, Workload.main source family seed capacity epsilon steps = .ok r) ↔
      family ∈ workloadFamilies ∧ 1 ≤ capacity ∧ 0 ≤ epsilon) ∧
    ∀ payload code, Workload.main source family seed capacity epsilon steps = .ok (payload, code) →
      code = 0 ∧ validateG1eArtifact payload = .ok () := by
  refine ⟨⟨fun ⟨r, hr⟩ ↦ valid_of_main hr, fun ⟨hfamily, hcapacity, hepsilon⟩ ↦ ?_⟩,
    fun payload code hr ↦ ?_⟩
  · obtain ⟨payload, hmain, -⟩ := main_of_valid source seed steps hfamily hcapacity hepsilon
    exact ⟨_, hmain⟩
  · obtain ⟨hfamily, hcapacity, hepsilon⟩ := valid_of_main hr
    obtain ⟨payload', hmain, hvalid⟩ :=
      main_of_valid source seed steps hfamily hcapacity hepsilon
    cases hr.symm.trans hmain
    exact ⟨rfl, hvalid⟩

theorem main_exits_random : ∃ r, Workload.main RandomSource.first "RANDOM" 1 4 2 14 = .ok r :=
  (main_exits RandomSource.first "RANDOM" 1 4 2 14).1.mpr (by decide)

end EnhancedLetIndex
