import EnhancedLetIndex.Workload.Completes

/-!
# Writing scripts

`_ScriptBuilder` of `workload.py`.  A builder names the levels that it publishes, and keeps the
references of the live ones in the order of the oracle, so that it can reject a merge of levels
that are not neighbours.  `Mirrors` says that it does so for the script it has written: after a run
its references are those of the oracle (`builder_mirrors`).
-/

namespace EnhancedLetIndex

/-! ## The builder -/

/-- What the writing of a script raises: `WorkloadError`, by the check that raises it. -/
inductive ScriptError where
  | notAdjacent (newerRef olderRef : String) (newerIndex olderIndex : Nat) (live : List String)
  | unknownFamily (family : String)
  /-- The `IndexError` of a list. -/
  | index
  /-- The `ValueError` of `list.index` and of a draw. -/
  | value
deriving DecidableEq, Repr

/-- `_ScriptBuilder`. -/
structure ScriptBuilder where
  family : String
  seed : Int
  capacity : Int
  epsilon : Int
  description : String
  ops : List WorkloadOperation
  nextRef : Nat
  live : List String

/-- `sorted(set(keys))`. -/
def sortedSet (keys : List Int) : List Int := keys.dedup.insertionSort (· ≤ ·)

/-- The text of a reference. -/
def levelName (n : Nat) : String := "L" ++ Nat.repr n

namespace ScriptBuilder

/-- `__init__`. -/
def init (family : String) (seed capacity epsilon : Int) (description : String) : ScriptBuilder where
  family := family
  seed := seed
  capacity := capacity
  epsilon := epsilon
  description := description
  ops := []
  nextRef := 0
  live := []

variable (b : ScriptBuilder)

/-- `new_ref`. -/
def newRef : String × ScriptBuilder := (levelName b.nextRef, { b with nextRef := b.nextRef + 1 })

/-- `_add`: the operation gets the next index. -/
def add (op : Int → WorkloadOperation) : ScriptBuilder :=
  { b with ops := b.ops ++ [op b.ops.length] }

/-- `build_initial` and `upsert`, which differ in the kind of the operation. -/
def addBatch (kind : OperationClass) (keys : List Int) (tag : Option String) :
    String × ScriptBuilder :=
  let (ref, b) := b.newRef
  let tag := tag.getD ref
  let keys := sortedSet keys
  let b := b.add fun index ↦ {
    index := index
    kind := kind.text
    keys := keys
    values := keys.map fun k ↦ tag ++ ":" ++ toString k
    ref := some ref }
  (ref, { b with live := ref :: b.live })

/-- `build_initial`. -/
def buildInitial (keys : List Int) (tag : Option String) : String × ScriptBuilder :=
  b.addBatch .buildInitial keys tag

/-- `upsert`. -/
def upsert (keys : List Int) (tag : Option String) : String × ScriptBuilder :=
  b.addBatch .upsert keys tag

/-- `build_pgm`. -/
def buildPgm (ref : String) : ScriptBuilder :=
  b.add fun index ↦ { index := index, kind := OperationClass.buildPgm.text, levelRef := some ref }

/-- `live.index`. -/
def indexOf (ref : String) : Except ScriptError Nat :=
  match b.live.idxOf? ref with
  | some i => .ok i
  | none => .error .value

/-- `merge`. -/
def merge (newerRef olderRef : String) : Except ScriptError (String × ScriptBuilder) := do
  let iNewer ← b.indexOf newerRef
  let iOlder ← b.indexOf olderRef
  require (iOlder = iNewer + 1) (.notAdjacent newerRef olderRef iNewer iOlder b.live)
  let (ref, b) := b.newRef
  let b := b.add fun index ↦ {
    index := index
    kind := OperationClass.merge.text
    ref := some ref
    newerRef := some newerRef
    olderRef := some olderRef }
  pure (ref, { b with live := b.live.take iNewer ++ ref :: b.live.drop (iOlder + 1) })

/-- `query`. -/
def query (key : Int) : ScriptBuilder :=
  b.add fun index ↦ { index := index, kind := OperationClass.query.text, keys := [key] }

/-- `script`. -/
def script : WorkloadScript where
  family := b.family
  seed := b.seed
  capacity := b.capacity
  epsilon := b.epsilon
  operations := b.ops
  description := b.description

end ScriptBuilder

/-- A call of a method of the builder. -/
inductive BuilderCall where
  | buildInitial (keys : List Int) (tag : Option String)
  | upsert (keys : List Int) (tag : Option String)
  | buildPgm (ref : String)
  | merge (newerRef olderRef : String)
  | query (key : Int)
deriving DecidableEq, Repr

namespace BuilderCall

/-- The builder after a call. -/
def perform (b : ScriptBuilder) : BuilderCall → Except ScriptError ScriptBuilder
  | .buildInitial keys tag => .ok (b.buildInitial keys tag).2
  | .upsert keys tag => .ok (b.upsert keys tag).2
  | .buildPgm ref => .ok (b.buildPgm ref)
  | .merge newerRef olderRef => (b.merge newerRef olderRef).map Prod.snd
  | .query key => .ok (b.query key)

/-- Whether the operation of a call goes through when it is run, the levels being those of the
book. -/
def Runs (book : LevelBook) : BuilderCall → Prop
  | .buildInitial _ _ | .merge _ _ => True
  | .upsert keys _ => keys ≠ []
  | .buildPgm ref => ref ∈ book.refs
  | .query _ => ∀ level ∈ book.levels, level.2 ≠ ∅ → level.1 ∈ book.indexed

end BuilderCall

/-! ## Names and batches -/

theorem levelName_injective : levelName.Injective := by
  intro m n h
  have hrepr := (String.append_right_inj "L").mp h
  have hdigits : Nat.toDigits 10 m = Nat.toDigits 10 n := by
    rw [← Nat.toList_repr, hrepr, Nat.toList_repr]
  have hvalue := congrArg (fun digits ↦ Nat.ofDigitChars 10 digits 0) hdigits
  simpa only [Nat.ofDigitChars_toDigits (b := 10) (by decide) (by decide)] using hvalue

theorem nodup_levelNames (n : Nat) : ((List.range n).map levelName).Nodup :=
  List.nodup_range.map levelName_injective

theorem perm_sortedSet (keys : List Int) : (sortedSet keys).Perm keys.dedup :=
  List.perm_insertionSort _ _

theorem nodup_sortedSet (keys : List Int) : (sortedSet keys).Nodup :=
  (perm_sortedSet keys).nodup_iff.mpr (List.nodup_dedup keys)

@[simp] theorem mem_sortedSet {keys : List Int} {k : Int} : k ∈ sortedSet keys ↔ k ∈ keys :=
  (perm_sortedSet keys).mem_iff.trans List.mem_dedup

@[simp] theorem sortedSet_eq_nil {keys : List Int} : sortedSet keys = [] ↔ keys = [] := by
  simp only [List.eq_nil_iff_forall_not_mem, mem_sortedSet]

section Batch

variable {op : WorkloadOperation} {keys : List Int} {f : Int → String}

/-- The records of a batch have its keys. -/
theorem keys_records (hkeys : op.keys = keys) (hvalues : op.values = keys.map f) :
    op.records.map (·.key.value) = keys := by
  rw [WorkloadOperation.records, List.map_map, hkeys, hvalues]
  exact List.map_fst_zip (by rw [List.length_map])

theorem contentsOf_records_ne (hkeys : op.keys = keys) (hvalues : op.values = keys.map f)
    (hne : keys ≠ []) : contentsOf op.records ≠ ∅ := by
  rw [contentsOf, Ne, dictOf_eq_empty]
  intro hnil
  rw [← keys_records hkeys hvalues, hnil] at hne
  exact hne rfl

end Batch

/-! ## The builder and the book of its script -/

/-- The builder has the references of the levels that its script has published and of those that
are live. -/
structure Mirrors (b : ScriptBuilder) : Prop where
  published : (WorkloadScript.book b.ops).published = b.nextRef
  live : (WorkloadScript.book b.ops).refs = b.live
  names : WorkloadScript.boundRefs 0 b.ops = (List.range b.nextRef).map levelName
  indexes : b.ops.map (·.index) = (List.range b.ops.length).map (↑)

namespace Mirrors

variable {b b' : ScriptBuilder} {op : WorkloadOperation}

theorem init (family : String) (seed capacity epsilon : Int) (description : String) :
    Mirrors (.init family seed capacity epsilon description) := ⟨rfl, rfl, rfl, rfl⟩

/-- A builder that adds one operation, names the level that it publishes and lists the live ones. -/
theorem concat (h : Mirrors b) (hops : b'.ops = b.ops ++ [op]) (hindex : op.index = b.ops.length)
    (hnext : b'.nextRef = b.nextRef + if op.Binds then 1 else 0)
    (hname : op.Binds → op.ref = some (levelName b.nextRef))
    (hlive : ((WorkloadScript.book b.ops).next op).refs = b'.live) : Mirrors b' where
  published := by
    rw [hops, WorkloadScript.book_concat, LevelBook.next, LiveLevels.next_published, h.published,
      hnext]
  live := by rw [hops, WorkloadScript.book_concat, hlive]
  names := by
    rw [hops, WorkloadScript.boundRefs_concat, h.names, hnext]
    split_ifs with hbinds
    · rw [WorkloadOperation.boundRef, hname hbinds, List.range_succ, List.map_append]
      rfl
    · rw [List.append_nil, Nat.add_zero]
  indexes := by
    rw [hops, List.map_append, h.indexes, List.length_append, List.length_singleton,
      List.range_succ, List.map_append, List.map_singleton, List.map_singleton, hindex]

end Mirrors

section Kind

variable {op : WorkloadOperation} {kind : OperationClass}

theorem WorkloadOperation.operationClass_eq :
    op.operationClass = some kind ↔ op.kind = kind.text := OperationClass.ofText_eq_some

theorem WorkloadOperation.binds_iff_kind (h : op.kind = kind.text) :
    op.Binds ↔ kind ∈ [.buildInitial, .upsert, .merge] := by
  rw [WorkloadOperation.Binds, operationClass_eq.mpr h]
  cases kind <;> decide

end Kind

/-- An operation that publishes nothing leaves the levels as they are. -/
theorem LiveLevels.next_unbound {s : LiveLevels} {op : WorkloadOperation}
    (hkind : op.kind = OperationClass.buildPgm.text ∨ op.kind = OperationClass.query.text) :
    s.next op = s := by
  rw [LiveLevels.next]
  rcases hkind with hkind | hkind <;> rw [WorkloadOperation.operationClass_eq.mpr hkind]

theorem Mirrors.unbound {b : ScriptBuilder} (h : Mirrors b) (op : WorkloadOperation)
    (hkind : op.kind = OperationClass.buildPgm.text ∨ op.kind = OperationClass.query.text)
    (hindex : op.index = b.ops.length) : Mirrors { b with ops := b.ops ++ [op] } := by
  have hbinds : ¬ op.Binds := by
    rcases hkind with hkind | hkind <;> rw [WorkloadOperation.binds_iff_kind hkind] <;> decide
  refine h.concat rfl hindex (by rw [if_neg hbinds]; rfl) (fun hb ↦ absurd hb hbinds) ?_
  rw [LevelBook.next, LevelBook.refs, LiveLevels.next_unbound hkind]
  exact h.live

/-- What a call of the builder has done: it has written one operation, which goes through when the
call says so. -/
structure Wrote (b : ScriptBuilder) (call : BuilderCall) (b' : ScriptBuilder)
    (op : WorkloadOperation) : Prop where
  capacity : b'.capacity = b.capacity
  epsilon : b'.epsilon = b.epsilon
  ops : b'.ops = b.ops ++ [op]
  mirrors : Mirrors b'
  accepts : (WorkloadScript.book b.ops).Accepts op ↔ call.Runs (WorkloadScript.book b.ops)

section Calls

variable {b b' : ScriptBuilder}

/-- The operation that publishes a batch. -/
def batchOperation (b : ScriptBuilder) (kind : OperationClass) (keys : List Int)
    (tag : Option String) : WorkloadOperation where
  index := b.ops.length
  kind := kind.text
  keys := sortedSet keys
  values := (sortedSet keys).map fun k ↦
    tag.getD (levelName b.nextRef) ++ ":" ++ toString k
  ref := some (levelName b.nextRef)

theorem addBatch_ops (kind : OperationClass) (keys : List Int) (tag : Option String) :
    (b.addBatch kind keys tag).2.ops = b.ops ++ [batchOperation b kind keys tag] := rfl

theorem keys_batchOperation (kind : OperationClass) (keys : List Int) (tag : Option String) :
    (batchOperation b kind keys tag).records.map (·.key.value) = sortedSet keys :=
  keys_records rfl rfl

/-- The keys of a batch are different, so they are accepted when there are any. -/
theorem nodup_batchOperation (kind : OperationClass) (keys : List Int) (tag : Option String) :
    ((batchOperation b kind keys tag).records.map (·.key)).Nodup := by
  refine List.Nodup.of_map RecordKey.value ?_
  rw [List.map_map]
  exact (keys_batchOperation kind keys tag).symm ▸ nodup_sortedSet keys

theorem mirrors_addBatch (h : Mirrors b) {kind : OperationClass}
    (hkind : kind = .buildInitial ∨ kind = .upsert) (keys : List Int) (tag : Option String) :
    Mirrors (b.addBatch kind keys tag).2 := by
  have hclass : (batchOperation b kind keys tag).operationClass = some kind :=
    WorkloadOperation.operationClass_eq.mpr rfl
  have hbinds : (batchOperation b kind keys tag).Binds := by
    rw [WorkloadOperation.binds_iff_kind rfl]
    rcases hkind with rfl | rfl <;> decide
  refine h.concat (addBatch_ops kind keys tag) rfl (by rw [if_pos hbinds]; rfl) (fun _ ↦ rfl) ?_
  rw [LevelBook.next, LevelBook.refs, LiveLevels.next, hclass]
  rcases hkind with rfl | rfl <;> exact congrArg (levelName b.nextRef :: ·) h.live

theorem wrote_buildInitial (h : Mirrors b) (keys : List Int) (tag : Option String) :
    Wrote b (.buildInitial keys tag) (b.buildInitial keys tag).2
      (batchOperation b .buildInitial keys tag) where
  capacity := rfl
  epsilon := rfl
  ops := rfl
  mirrors := mirrors_addBatch h (Or.inl rfl) keys tag
  accepts := iff_of_true (nodup_batchOperation _ _ _) trivial

theorem wrote_upsert (h : Mirrors b) (keys : List Int) (tag : Option String) :
    Wrote b (.upsert keys tag) (b.upsert keys tag).2 (batchOperation b .upsert keys tag) where
  capacity := rfl
  epsilon := rfl
  ops := rfl
  mirrors := mirrors_addBatch h (Or.inr rfl) keys tag
  accepts := by
    have hrecords : (batchOperation b .upsert keys tag).records ≠ [] ↔ keys ≠ [] := by
      rw [Ne, ← List.map_eq_nil_iff (f := (·.key.value)), keys_batchOperation, sortedSet_eq_nil]
    exact (and_iff_left (nodup_batchOperation _ _ _)).trans hrecords

/-- The operation that builds the PGM of a level. -/
def pgmOperation (b : ScriptBuilder) (ref : String) : WorkloadOperation where
  index := b.ops.length
  kind := OperationClass.buildPgm.text
  levelRef := some ref

theorem wrote_buildPgm (h : Mirrors b) (ref : String) :
    Wrote b (.buildPgm ref) (b.buildPgm ref) (pgmOperation b ref) where
  capacity := rfl
  epsilon := rfl
  ops := rfl
  mirrors := h.unbound (pgmOperation b ref) (Or.inl rfl) rfl
  accepts := by
    show some ref ∈ _ ↔ ref ∈ _
    rw [List.mem_map]
    simp

/-- The operation that asks for a key. -/
def queryOperation (b : ScriptBuilder) (key : Int) : WorkloadOperation where
  index := b.ops.length
  kind := OperationClass.query.text
  keys := [key]

theorem wrote_query (h : Mirrors b) (key : Int) :
    Wrote b (.query key) (b.query key) (queryOperation b key) where
  capacity := rfl
  epsilon := rfl
  ops := rfl
  mirrors := h.unbound (queryOperation b key) (Or.inr rfl) rfl
  accepts := and_iff_right (List.cons_ne_nil _ _)

/-- The operation that merges two levels. -/
def mergeOperation (b : ScriptBuilder) (newerRef olderRef : String) : WorkloadOperation where
  index := b.ops.length
  kind := OperationClass.merge.text
  ref := some (levelName b.nextRef)
  newerRef := some newerRef
  olderRef := some olderRef

theorem indexOf_eq_ok {ref : String} {i : Nat} :
    b.indexOf ref = .ok i ↔ b.live.idxOf? ref = some i := by
  unfold ScriptBuilder.indexOf
  cases b.live.idxOf? ref <;> simp

section Merge

variable {front back : List String} {newerRef olderRef ref : String}

/-- The builder after a merge of neighbours. -/
def merged (b : ScriptBuilder) (front back : List String) (newerRef olderRef : String) :
    ScriptBuilder :=
  { b with
    ops := b.ops ++ [mergeOperation b newerRef olderRef]
    nextRef := b.nextRef + 1
    live := front ++ levelName b.nextRef :: back }

theorem merge_of_neighbours (hlive : b.live = front ++ newerRef :: olderRef :: back)
    (hnewer : newerRef ∉ front) (holder : olderRef ∉ front ++ [newerRef]) :
    b.merge newerRef olderRef = .ok (levelName b.nextRef, merged b front back newerRef olderRef) := by
  have hi : b.indexOf newerRef = .ok front.length :=
    indexOf_eq_ok.mpr (idxOf?_eq_some.mpr ⟨front, _, hlive, hnewer, rfl⟩)
  have hj : b.indexOf olderRef = .ok (front.length + 1) := by
    refine indexOf_eq_ok.mpr (idxOf?_eq_some.mpr ⟨front ++ [newerRef], back, ?_, holder, ?_⟩)
    · rw [hlive, List.append_assoc, List.singleton_append]
    · rw [List.length_append, List.length_singleton]
  have hlive' : b.live.take front.length ++ levelName b.nextRef ::
      b.live.drop (front.length + 1 + 1) = front ++ levelName b.nextRef :: back := by
    rw [hlive, List.take_left, Nat.add_assoc, List.drop_append]
    simp
  rw [ScriptBuilder.merge, hi, ok_bind, hj, ok_bind, require_of rfl, ok_bind, merged, ← hlive']
  rfl

/-- A merge that the builder accepts is between neighbours. -/
theorem neighbours_of_merge (h : b.merge newerRef olderRef = .ok (ref, b')) :
    ∃ front back, b.live = front ++ newerRef :: olderRef :: back ∧ newerRef ∉ front ∧
      olderRef ∉ front ++ [newerRef] ∧ ref = levelName b.nextRef ∧
      b' = merged b front back newerRef olderRef := by
  obtain ⟨i, hi, hmerge⟩ := bind_eq_ok.mp h
  obtain ⟨j, hj, hmerge⟩ := bind_eq_ok.mp hmerge
  obtain ⟨hnext, -⟩ := require_bind_eq_ok.mp hmerge
  obtain ⟨front, back₁, hlive, hnewer, rfl⟩ := idxOf?_eq_some.mp (indexOf_eq_ok.mp hi)
  obtain ⟨front₂, back, hlive₂, holder, hlength⟩ := idxOf?_eq_some.mp (indexOf_eq_ok.mp hj)
  have hsplit : front₂ ++ olderRef :: back = (front ++ [newerRef]) ++ back₁ := by
    rw [← hlive₂, hlive, List.append_assoc, List.singleton_append]
  obtain ⟨rfl, rfl⟩ := List.append_inj hsplit (by simp [hlength, hnext])
  cases (merge_of_neighbours hlive hnewer holder).symm.trans h
  exact ⟨front, back, hlive, hnewer, holder, rfl, rfl⟩

theorem operationClass_mergeOperation :
    (mergeOperation b newerRef olderRef).operationClass = some .merge :=
  WorkloadOperation.operationClass_eq.mpr rfl

/-- The levels before and after a merge. -/
theorem levels_mergeOperation (h : Mirrors b)
    (hlive : b.live = front ++ newerRef :: olderRef :: back) (hnewer : newerRef ∉ front) :
    ∃ levels₁ c₁ c₂ levels₂, (WorkloadScript.book b.ops).levels =
        levels₁ ++ (newerRef, c₁) :: (olderRef, c₂) :: levels₂ ∧
      levels₁.map Prod.fst = front ∧ levels₂.map Prod.fst = back ∧
      ((WorkloadScript.book b.ops).next (mergeOperation b newerRef olderRef)).levels =
        levels₁ ++ (levelName b.nextRef, c₁ ∪ c₂) :: levels₂ := by
  have hrefs : (WorkloadScript.book b.ops).refs = front ++ newerRef :: olderRef :: back :=
    h.live.trans hlive
  obtain ⟨levels₁, rest₁, hlevels, rfl, hrest₁⟩ := List.map_eq_append_iff.mp hrefs
  obtain ⟨⟨newerRef, c₁⟩, rest₂, rfl, rfl, hrest₂⟩ := List.map_eq_cons_iff.mp hrest₁
  obtain ⟨⟨olderRef, c₂⟩, levels₂, rfl, rfl, rfl⟩ := List.map_eq_cons_iff.mp hrest₂
  refine ⟨levels₁, c₁, c₂, levels₂, hlevels, rfl, rfl, ?_⟩
  rw [LevelBook.next, LiveLevels.next, operationClass_mergeOperation, hlevels, h.published]
  exact mergeAt_neighbours hnewer

theorem wrote_merge (h : Mirrors b) (hmerge : b.merge newerRef olderRef = .ok (ref, b')) :
    Wrote b (.merge newerRef olderRef) b' (mergeOperation b newerRef olderRef) := by
  obtain ⟨front, back, hlive, hnewer, -, -, rfl⟩ := neighbours_of_merge hmerge
  have hrefs : (WorkloadScript.book b.ops).refs = front ++ newerRef :: olderRef :: back :=
    h.live.trans hlive
  have hbinds : (mergeOperation b newerRef olderRef).Binds := by
    rw [WorkloadOperation.Binds, operationClass_mergeOperation]
    decide
  refine ⟨rfl, rfl, rfl, h.concat rfl rfl (by rw [if_pos hbinds]; rfl) (fun _ ↦ rfl) ?_,
    iff_of_true ?_ trivial⟩
  · obtain ⟨levels₁, c₁, c₂, levels₂, -, rfl, rfl, hnext⟩ := levels_mergeOperation h hlive hnewer
    rw [LevelBook.refs, hnext, List.map_append]
    rfl
  · rw [LevelBook.Accepts, operationClass_mergeOperation, LevelBook.AcceptsAs, hrefs]
    have hinfix : [newerRef, olderRef] <:+: front ++ newerRef :: olderRef :: back :=
      ⟨front, back, by simp⟩
    exact hinfix.map some

end Merge

theorem wrote_perform (h : Mirrors b) {call : BuilderCall} (hcall : call.perform b = .ok b') :
    ∃ op, Wrote b call b' op := by
  cases call with
  | buildInitial keys tag =>
    cases hcall
    exact ⟨_, wrote_buildInitial h keys tag⟩
  | upsert keys tag =>
    cases hcall
    exact ⟨_, wrote_upsert h keys tag⟩
  | buildPgm ref =>
    cases hcall
    exact ⟨_, wrote_buildPgm h ref⟩
  | merge newerRef olderRef =>
    rw [BuilderCall.perform] at hcall
    cases hmerge : b.merge newerRef olderRef with
    | error err =>
      rw [hmerge] at hcall
      cases hcall
    | ok r =>
      rw [hmerge] at hcall
      cases hcall
      exact ⟨_, wrote_merge h hmerge⟩
  | query key =>
    cases hcall
    exact ⟨_, wrote_query h key⟩

end Calls

/-! ## Any sequence of calls -/

/-- What some calls have written. -/
structure Written (b₀ : ScriptBuilder) (calls : List BuilderCall) (b : ScriptBuilder) : Prop where
  capacity : b.capacity = b₀.capacity
  epsilon : b.epsilon = b₀.epsilon
  mirrors : Mirrors b
  length : b.ops.length = calls.length
  accepts : ∀ i call, calls[i]? = some call → ∃ op, b.ops[i]? = some op ∧
    ((WorkloadScript.book (b.ops.take i)).Accepts op ↔ call.Runs (WorkloadScript.book (b.ops.take i)))

theorem written_calls {b₀ b : ScriptBuilder} {calls : List BuilderCall} (hmirrors : Mirrors b₀)
    (hops : b₀.ops = []) (h : calls.foldlM BuilderCall.perform b₀ = .ok b) : Written b₀ calls b := by
  induction calls using List.reverseRecOn generalizing b with
  | nil =>
    cases h
    exact ⟨rfl, rfl, hmirrors, by rw [hops]; rfl, fun i call hi ↦ by simp at hi⟩
  | append_singleton calls call ih =>
    rw [List.foldlM_append] at h
    obtain ⟨b₁, hcalls, hcall⟩ := bind_eq_ok.mp h
    have hcall : call.perform b₁ = .ok b := by
      rw [List.foldlM_cons] at hcall
      obtain ⟨b₂, hb₂, ⟨⟩⟩ := bind_eq_ok.mp hcall
      exact hb₂
    have h₁ := ih hcalls
    obtain ⟨op, hwrote⟩ := wrote_perform h₁.mirrors hcall
    refine ⟨hwrote.capacity.trans h₁.capacity, hwrote.epsilon.trans h₁.epsilon, hwrote.mirrors, ?_,
      fun i call' hi ↦ ?_⟩
    · rw [hwrote.ops, List.length_append, List.length_append, h₁.length]
      rfl
    · rw [hwrote.ops]
      rcases getElem?_concat_eq_some.mp hi with ⟨hlt, hi⟩ | ⟨rfl, rfl⟩
      · obtain ⟨op', hop', hiff⟩ := h₁.accepts i call' hi
        have hlt' : i < b₁.ops.length := h₁.length ▸ hlt
        refine ⟨op', getElem?_concat_eq_some.mpr (Or.inl ⟨hlt', hop'⟩), ?_⟩
        rw [List.take_append_of_le_length hlt'.le]
        exact hiff
      · refine ⟨op, getElem?_concat_eq_some.mpr (Or.inr ⟨h₁.length.symm, rfl⟩), ?_⟩
        rw [← h₁.length, List.take_left]
        exact hwrote.accepts

theorem Mirrors.freshRefs {b : ScriptBuilder} (h : Mirrors b) : b.script.FreshRefs := by
  rw [WorkloadScript.FreshRefs]
  exact h.names ▸ nodup_levelNames _

open BaselineWorkloadRunner in
/-- After a run the oracle has the references of the builder, in its order. -/
theorem Mirrors.oracle_refs {b : ScriptBuilder} {w : BaselineWorkloadRunner} (h : Mirrors b)
    (hrun : runScript b.script = .ok w) : w.oracle.refs = b.live ∧ w.nextRef = b.nextRef := by
  obtain ⟨config, hconfig, -, hops⟩ := runScript_eq_ok hrun
  have hlive := (follows_run h.freshRefs hops).live
  rw [← WorkloadScript.toLiveLevels_book] at hlive
  refine ⟨?_, (congrArg LiveLevels.published hlive).trans h.published⟩
  rw [LogicalOracle.refs, ← h.live, LevelBook.refs]
  exact congrArg (·.levels.map Prod.fst) hlive

/-- A builder that has accepted some calls has written a script whose levels have references of
their own.  It runs to its end exactly when no batch is an empty upsert, PGMs are built for live
levels only, and every level with records has a PGM when there is a query; the merges that the
builder has accepted always go through.  After the run the oracle has the builder's levels. -/
theorem builder_mirrors (family : String) (seed capacity epsilon : Int) (description : String)
    (calls : List BuilderCall) (b : ScriptBuilder)
    (h : calls.foldlM BuilderCall.perform (.init family seed capacity epsilon description) = .ok b) :
    b.script.FreshRefs ∧
      ((∃ w, runScript b.script = .ok w) ↔ 1 ≤ capacity ∧ 0 ≤ epsilon ∧
        ∀ i (call : BuilderCall), calls[i]? = some call →
          call.Runs (WorkloadScript.book (b.ops.take i))) ∧
      ∀ w, runScript b.script = .ok w → w.oracle.refs = b.live ∧ w.nextRef = b.nextRef := by
  have hwritten := written_calls (Mirrors.init _ _ _ _ _) rfl h
  refine ⟨hwritten.mirrors.freshRefs, ?_, fun w ↦ hwritten.mirrors.oracle_refs⟩
  have hcapacity : b.script.capacity = capacity := hwritten.capacity
  have hepsilon : b.script.epsilon = epsilon := hwritten.epsilon
  rw [completes_iff hwritten.mirrors.freshRefs, hcapacity, hepsilon]
  refine and_congr_right fun _ ↦ and_congr_right fun _ ↦ ?_
  constructor
  · intro hops i call hi
    obtain ⟨op, hop, hiff⟩ := hwritten.accepts i call hi
    exact hiff.mp (hops i op hop)
  · intro hcalls i op hop
    have hlt : i < calls.length := hwritten.length ▸ (List.getElem?_eq_some_iff.mp hop).1
    have hcall := List.getElem?_eq_getElem hlt
    obtain ⟨op', hop', hiff⟩ := hwritten.accepts i _ hcall
    cases hop.symm.trans hop'
    exact hiff.mpr (hcalls i _ hcall)

/-- Two batches, and their merge. -/
def mergeCalls : List BuilderCall := [.buildInitial [2, 1] none, .buildPgm "L0",
  .upsert [3, 1, 3] (some "U"), .buildPgm "L1", .merge "L1" "L0", .query 1]

theorem builder_mirrors_mergeCalls : ∃ b w,
    mergeCalls.foldlM BuilderCall.perform (.init "UMQ" 1 2 0 "") = .ok b ∧
      runScript b.script = .ok w ∧ w.oracle.refs = b.live := by
  let written := mergeCalls.foldlM BuilderCall.perform (.init "UMQ" 1 2 0 "")
  have hwritten : written.isOk = true := by decide +kernel
  obtain ⟨b, hb⟩ := exists_of_isOk hwritten
  have hrun : written.map (fun b ↦ (runScript b.script).isOk) = .ok true := by decide +kernel
  rw [hb] at hrun
  obtain ⟨w, hw⟩ := exists_of_isOk (Except.ok.inj hrun)
  exact ⟨b, w, hb, hw, ((builder_mirrors "UMQ" 1 2 0 "" mergeCalls b hb).2.2 w hw).1⟩

end EnhancedLetIndex
