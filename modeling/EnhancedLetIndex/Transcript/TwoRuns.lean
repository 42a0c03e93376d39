import EnhancedLetIndex.Transcript.Labels
import EnhancedLetIndex.Transcript.Metrics

/-!
# What a transcript depends on

Two artifacts that agree on the public fields have the same transcript, whatever their scripts,
keys, values, results and other sections are.  Under the equality channel the transcript shows
in addition which queries have equal keys, and nothing else of the keys.
-/

namespace EnhancedLetIndex

open Json

/-! ## Agreement -/

/-- Two records agree on the kind, the events and the counts. -/
def RecordsAgree (r s : Json) : Prop :=
  ∀ key ∈ ["kind", "events", "read_count", "write_count"], Agree (r.field key) (s.field key)

/-- Two artifacts agree on the family, the seed, the two public entries of the configuration and
on each operation. -/
structure ArtifactsAgree (a b : Json) : Prop where
  family : Agree (a.field "family") (b.field "family")
  seed : Agree (a.field "seed") (b.field "seed")
  config : ∀ key ∈ ["block_capacity", "pgm_epsilon"],
    Agree ((a.field "config").bind (field key)) ((b.field "config").bind (field key))
  operations : ∃ rs ss, a.field "operations" = some (.arr rs) ∧
    b.field "operations" = some (.arr ss) ∧ List.Forall₂ RecordsAgree rs ss

theorem RecordsAgree.symm {r s : Json} (h : RecordsAgree r s) : RecordsAgree s r :=
  fun key hkey ↦ (h key hkey).symm

theorem ArtifactsAgree.symm {a b : Json} (h : ArtifactsAgree a b) : ArtifactsAgree b a where
  family := h.family.symm
  seed := h.seed.symm
  config := fun key hkey ↦ (h.config key hkey).symm
  operations := by
    obtain ⟨rs, ss, hrs, hss, hagree⟩ := h.operations
    exact ⟨ss, rs, hss, hrs, hagree.flip.imp fun _ _ h ↦ RecordsAgree.symm h⟩

theorem agree_int {v : Option Json} {n : Int} (h : Agree (some (.int n)) v) :
    v = some (.int n) := by
  cases h with
  | some h => rw [same_int_iff.mp h.symm]

theorem agree_str {v : Option Json} {s : String} (h : Agree (some (.str s)) v) :
    v = some (.str s) := by
  cases h with
  | some h => rw [same_str_iff.mp h.symm]

/-! ## Extraction -/

/-- The events that values encode do not depend on the order of their fields. -/
theorem events_eq_of_same {xs ys : List Json} {es es' : List ObservedEvent}
    (h : List.Forall₂ Same xs ys) (hx : List.Forall₂ (fun x e ↦ x.Same e.toDict) xs es)
    (hy : List.Forall₂ (fun y e ↦ y.Same e.toDict) ys es') : es = es' := by
  induction h generalizing es es' with
  | nil =>
    cases hx
    cases hy
    rfl
  | cons hxy _ ih =>
    cases hx with
    | cons hx hxs =>
      cases hy with
      | cons hy hys =>
        have h₁ := requireEvent_eq_ok.mpr hx
        have h₂ := requireEvent_eq_ok.mpr (hxy.trans hy)
        rw [ih hxs hys, Except.ok.inj (h₁.symm.trans h₂)]

/-- Records that agree are observed alike, up to their index. -/
theorem RecordsAgree.observe_eq {r s : Json} (h : RecordsAgree r s) {o o' : ObservedOperation}
    (hr : observeRecord r = .ok o) (hs : observeRecord s = .ok o') (hindex : o.index = o'.index) :
    o = o' := by
  simp only [RecordsAgree, List.forall_mem_cons] at h
  obtain ⟨hkind, hevents, hreads, hwrites, -⟩ := h
  obtain ⟨-, h₁, ⟨xs, h₂, hxs⟩, h₃, h₄, h₅⟩ := observeRecord_eq_ok.mp hr
  obtain ⟨-, h₁', ⟨ys, h₂', hys⟩, h₃', h₄', h₅'⟩ := observeRecord_eq_ok.mp hs
  rw [h₁] at hkind
  rw [h₂, h₂'] at hevents
  rw [h₃] at hreads
  rw [h₄] at hwrites
  have hclass' := OperationClass.text_injective
    (Json.str.inj (Option.some.inj ((agree_str hkind).symm.trans h₁')))
  have hevents' : o.events = o'.events := by
    cases hevents with
    | some h =>
      cases h with
      | arr h => exact events_eq_of_same h hxs hys
  have hreads' := Json.int.inj (Option.some.inj ((agree_int hreads).symm.trans h₃'))
  have hwrites' := Json.int.inj (Option.some.inj ((agree_int hwrites).symm.trans h₄'))
  cases o
  cases o'
  simp only at hindex hclass' hevents' hreads' hwrites' h₅ h₅'
  subst hindex hclass' hevents' hreads' hwrites' h₅ h₅'
  rfl

/-- Records that agree are observed alike at equal positions. -/
theorem operations_eq_of_agree {rs ss : List Json} {os os' : List ObservedOperation} {start : Nat}
    (h : List.Forall₂ RecordsAgree rs ss)
    (hr : List.Forall₂ (fun r o ↦ observeRecord r = .ok o) rs os)
    (hs : List.Forall₂ (fun r o ↦ observeRecord r = .ok o) ss os')
    (hos : Positioned start os) (hos' : Positioned start os') : os = os' := by
  induction h generalizing os os' start with
  | nil =>
    cases hr
    cases hs
    rfl
  | cons hrs _ ih =>
    cases hr with
    | cons hr hrs' =>
      cases hs with
      | cons hs hss' =>
        obtain ⟨hindex, hos⟩ := positioned_cons.mp hos
        obtain ⟨hindex', hos'⟩ := positioned_cons.mp hos'
        rw [ih hrs' hss' hos hos', hrs.observe_eq hr hs (hindex.trans hindex'.symm)]

/-- An artifact that agrees with one that has a transcript has the same transcript. -/
theorem ArtifactsAgree.extract_eq {a b : Json} (h : ArtifactsAgree a b)
    (hb : validateG1eArtifact b = .ok ()) {t : AdversaryTranscript}
    (ht : extractTranscript a = .ok t) : extractTranscript b = .ok t := by
  obtain ⟨-, ⟨records, hrecords, hobserve⟩, hf, hs, hc, he, ht'⟩ := extractTranscript_eq_ok.mp ht
  obtain ⟨-, -, records', os', hrecords', -, hobserve', hpos', -⟩ :=
    validateG1eArtifact_eq_ok.mp hb
  obtain ⟨rs, ss, hrs, hss, hagree⟩ := h.operations
  obtain rfl := Json.arr.inj (Option.some.inj (hrecords.symm.trans hrs))
  obtain rfl := Json.arr.inj (Option.some.inj (hrecords'.symm.trans hss))
  obtain rfl := operations_eq_of_agree hagree hobserve hobserve'
    (wellFormed_extract ht).positioned hpos'
  have hfamily := h.family
  have hseed := h.seed
  have hcapacity := h.config "block_capacity" (by simp)
  have hepsilon := h.config "pgm_epsilon" (by simp)
  rw [hf] at hfamily
  rw [hs] at hseed
  rw [hc] at hcapacity
  rw [he] at hepsilon
  exact extractTranscript_eq_ok.mpr ⟨hb, ⟨_, hrecords', hobserve'⟩, agree_str hfamily,
    agree_int hseed, agree_int hcapacity, agree_int hepsilon, ht'⟩

/-! ## The keys of the queries -/

/-- The records of an artifact with the operations of its script. -/
def scriptPairs (a : Json) : List (Json × Json) :=
  match a.field "operations", (a.field "script").bind (field "operations") with
  | some (.arr records), some (.arr script) => records.zip script
  | _, _ => []

/-- The index and the key of a query. -/
def queryKeyOf (pair : Json × Json) : Option (Int × Int) :=
  if isText (pair.1.field "kind") OperationClass.query.text then
    match pair.1.field "index", pair.2.field "keys" with
    | some (.int index), some (.arr [.int key]) => some (index, key)
    | _, _ => none
  else none

/-- The queries of an artifact, each with its key. -/
def queryKeys (a : Json) : List (Int × Int) := (scriptPairs a).filterMap queryKeyOf

theorem requireQueryKey_eq_ok {position : Nat} {data : Fields} {key : Int} :
    requireQueryKey position data = .ok key ↔ data.lookup "keys" = some (.arr [.int key]) := by
  unfold requireQueryKey
  rcases data.lookup "keys" with _ | ⟨_ | _ | _ | _ | _ | xs | _⟩ <;> try simp
  rcases xs with _ | ⟨x, _ | ⟨y, xs⟩⟩ <;> try simp
  cases x <;> simp

theorem scriptOperations_eq_ok {data : Fields} {script : List Json} :
    scriptOperations data = .ok script ↔
      (data.lookup "script").bind (field "operations") = some (.arr script) := by
  unfold scriptOperations
  rcases data.lookup "script" with _ | ⟨_ | _ | _ | _ | _ | _ | fs⟩ <;> try simp [field]
  rcases fs.lookup "operations" with _ | ⟨_ | _ | _ | _ | _ | xs | _⟩ <;> simp

/-- The labels are the names of the keys by first occurrence, at the indices of the queries. -/
theorem equalityClasses_eq_ok {start : Nat} {pairs : List (Json × Json)}
    {classes labels : List (Int × String)}
    (h : equalityClasses start pairs classes = .ok labels) :
    labels.map Prod.fst = (pairs.filterMap queryKeyOf).map Prod.fst ∧
      labels.map Prod.snd = FirstOccurrence.classify classLabel classes
        ((pairs.filterMap queryKeyOf).map Prod.snd) := by
  induction pairs generalizing start classes labels with
  | nil =>
    cases h
    exact ⟨rfl, rfl⟩
  | cons pair pairs ih =>
    obtain ⟨record, scriptOperation⟩ := pair
    simp only [equalityClasses, bind_eq_ok, requireObject_eq_ok] at h
    obtain ⟨fs, rfl, data, rfl, -, -, h⟩ := h
    split_ifs at h with hquery
    · simp only [bind_eq_ok, requireQueryKey_eq_ok, requireInt_eq_ok, pure_eq_ok,
        Except.ok.injEq] at h
      obtain ⟨key, hkey, index, hindex, rest, hrest, rfl⟩ := h
      have hkeyOf : queryKeyOf (.obj fs, .obj data) = some (index, key) := by
        simp only [queryKeyOf, field_obj, hquery, if_true, hindex, hkey]
      obtain ⟨hfst, hsnd⟩ := ih hrest
      rw [List.filterMap_cons_some hkeyOf]
      refine ⟨congrArg (index :: ·) hfst, ?_⟩
      rw [List.map_cons, hsnd]
      rfl
    · have hkeyOf : queryKeyOf (.obj fs, .obj data) = none := by
        simp only [queryKeyOf, field_obj, hquery, Bool.false_eq_true, if_false]
      rw [List.filterMap_cons_none hkeyOf]
      exact ih h

/-- The labels are at the indices of the queries that are observed. -/
theorem fst_equalityClasses {start : Nat} {records script : List Json}
    {operations : List ObservedOperation} {classes labels : List (Int × String)}
    (hobserve : List.Forall₂ (fun r o ↦ observeRecord r = .ok o) records operations)
    (hlength : script.length = records.length)
    (h : equalityClasses start (records.zip script) classes = .ok labels) :
    labels.map Prod.fst = (operations.filter (·.operationClass = .query)).map (·.index) := by
  induction hobserve generalizing start script classes labels with
  | nil =>
    cases h
    rfl
  | @cons record o records operations ho _ ih =>
    obtain _ | ⟨scriptOperation, script⟩ := script
    · cases hlength
    have hlength' : script.length = records.length := Nat.succ.inj hlength
    obtain ⟨hindex, hkind, -⟩ := observeRecord_eq_ok.mp ho
    simp only [List.zip_cons_cons, equalityClasses, bind_eq_ok, requireObject_eq_ok] at h
    obtain ⟨fs, rfl, data, rfl, -, -, h⟩ := h
    rw [field_obj] at hindex hkind
    by_cases hclass : o.operationClass = .query
    · have hquery : isText (fs.lookup "kind") OperationClass.query.text = true :=
        isText_iff.mpr (hclass ▸ hkind)
      rw [if_pos hquery] at h
      simp only [bind_eq_ok, requireInt_eq_ok, pure_eq_ok, Except.ok.injEq] at h
      obtain ⟨key, -, index, hindex', rest, hrest, rfl⟩ := h
      rw [List.filter_cons_of_pos (by simpa using hclass), List.map_cons, List.map_cons,
        ih hlength' hrest, Json.int.inj (Option.some.inj (hindex.symm.trans hindex'))]
    · have hquery : ¬isText (fs.lookup "kind") OperationClass.query.text = true := by
        intro htext
        have htext' := Json.str.inj (Option.some.inj ((isText_iff.mp htext).symm.trans hkind))
        exact hclass (OperationClass.text_injective htext').symm
      rw [if_neg hquery] at h
      rw [List.filter_cons_of_neg (by simpa using hclass)]
      exact ih hlength' h

/-! ## Labels -/

theorem classLabel_injective : classLabel.Injective := by
  intro m n h
  have hrepr := (String.append_right_inj "QClass").mp h
  have hdigits : Nat.toDigits 10 m = Nat.toDigits 10 n := by
    rw [← Nat.toList_repr, hrepr, Nat.toList_repr]
  have hvalue := congrArg (fun digits ↦ Nat.ofDigitChars 10 digits 0) hdigits
  simpa only [Nat.ofDigitChars_toDigits (b := 10) (by decide) (by decide)] using hvalue

/-- The labels of the classes are documented ones. -/
theorem isClassLabel_classLabel (n : Nat) : IsClassLabel (classLabel n) := by
  refine ⟨Nat.repr n, fun h ↦ ?_, fun c hc ↦ ?_, rfl⟩
  · have hdigits : Nat.toDigits 10 n = [] := by rw [← Nat.toList_repr, h]; rfl
    exact Nat.toDigits_ne_nil hdigits
  · rw [Nat.toList_repr] at hc
    exact Nat.isDigit_of_mem_toDigits (by decide) (by decide) hc

/-- The labels of a transcript tell exactly which queries have the same key. -/
def LabelsTellKeys (keys : List (Int × Int)) (t : AdversaryTranscript) : Prop :=
  (∀ o ∈ t.operations, o.operationClass = .query → ∃ k, (o.index, k) ∈ keys) ∧
    ∀ o ∈ t.operations, ∀ o' ∈ t.operations, ∀ k k', (o.index, k) ∈ keys →
      (o'.index, k') ∈ keys → (o.queryEqualityClass = o'.queryEqualityClass ↔ k = k')

/-- The labels at the queries of an artifact, from the keys of its script. -/
theorem m1EqualityClasses_eq_ok {a : Json} {labels : List (Int × String)}
    {t : AdversaryTranscript} (ht : extractTranscript a = .ok t)
    (h : m1EqualityClasses a = .ok labels) :
    (queryKeys a).map Prod.fst =
        (t.operations.filter (·.operationClass = .query)).map (·.index) ∧
      labels = ((t.operations.filter (·.operationClass = .query)).map (·.index)).zip
        (FirstOccurrence.classify classLabel [] ((queryKeys a).map Prod.snd)) := by
  obtain ⟨-, ⟨records, hrecords, hobserve⟩, -⟩ := extractTranscript_eq_ok.mp ht
  simp only [m1EqualityClasses, bind_eq_ok, requireObject_eq_ok, requireList_eq_ok,
    scriptOperations_eq_ok] at h
  obtain ⟨-, -, fs, rfl, script, hscript, records', hrecords', ⟨⟩, hlength, h⟩ := h
  have hlength := require_eq_ok.mp hlength
  obtain rfl := Json.arr.inj (Option.some.inj (hrecords.symm.trans hrecords'))
  have hpairs : scriptPairs (.obj fs) = records.zip script := by
    simp only [scriptPairs, hrecords, field_obj, hscript]
  have hfst := fst_equalityClasses hobserve hlength h
  obtain ⟨hfst', hsnd⟩ := equalityClasses_eq_ok h
  rw [queryKeys, hpairs]
  refine ⟨hfst'.symm.trans hfst, ?_⟩
  rw [← hfst, ← hsnd, List.zip_map']
  exact (List.map_id _).symm

/-- A text among the labels, as a value. -/
theorem lookup_labels {labels : List (Int × String)} {i : Int} (hi : i ∈ labels.map Prod.fst) :
    ∃ l, (i, l) ∈ labels ∧ (labels.map fun l ↦ (l.1, Json.str l.2)).lookup i = some (.str l) := by
  cases hlookup : (labels.map fun l ↦ (l.1, Json.str l.2)).lookup i with
  | none =>
    have hkeys : (labels.map fun l ↦ (l.1, Json.str l.2)).map Prod.fst = labels.map Prod.fst := by
      rw [List.map_map]
      rfl
    exact absurd hi (hkeys ▸ lookup_eq_none.mp hlookup)
  | some v =>
    obtain ⟨⟨j, l⟩, hl, heq⟩ := List.mem_map.mp (mem_of_lookup hlookup)
    cases heq
    exact ⟨l, hl, rfl⟩

/-- What two lists have at a position of a third one they have at one position. -/
theorem mem_zip_of_mem_zip {α β γ : Type*} {xs : List α} {ys : List β} {zs : List γ}
    (hxs : xs.Nodup) {x : α} {y : β} {z : γ} (hy : (x, y) ∈ xs.zip ys) (hz : (x, z) ∈ xs.zip zs) :
    (y, z) ∈ ys.zip zs := by
  induction xs generalizing ys zs with
  | nil => cases hy
  | cons x₀ xs ih =>
    obtain ⟨hx₀, hxs⟩ := List.nodup_cons.mp hxs
    obtain _ | ⟨y₀, ys⟩ := ys
    · cases hy
    obtain _ | ⟨z₀, zs⟩ := zs
    · cases hz
    rw [List.zip_cons_cons, List.mem_cons] at hy hz ⊢
    rcases hy with hy | hy <;> rcases hz with hz | hz
    · cases hy
      cases hz
      exact .inl rfl
    · cases hy
      exact absurd (List.of_mem_zip hz).1 hx₀
    · cases hz
      exact absurd (List.of_mem_zip hy).1 hx₀
    · exact .inr (ih hxs hy hz)

/-- An artifact with a transcript and labels has an annotated transcript, whose labels tell
which keys are equal and which is the same transcript without its labels. -/
theorem exists_m1EqualityTranscript {a : Json} {labels : List (Int × String)}
    {t : AdversaryTranscript} (ht : extractTranscript a = .ok t)
    (h : m1EqualityClasses a = .ok labels) :
    ∃ t', m1EqualityTranscript a = .ok t' ∧ t'.unlabelled = t.unlabelled ∧
      LabelsTellKeys (queryKeys a) t' := by
  obtain ⟨hindices, hlabels⟩ := m1EqualityClasses_eq_ok ht h
  have hwf := wellFormed_extract ht
  set indices := (t.operations.filter (·.operationClass = .query)).map (·.index) with hdef
  set names := FirstOccurrence.classify classLabel [] ((queryKeys a).map Prod.snd) with hnames
  have hlength : indices.length = names.length := by
    rw [hnames, FirstOccurrence.length_classify, ← hindices, List.length_map, List.length_map]
  have hfst : labels.map Prod.fst = indices := by
    rw [hlabels]
    exact List.map_fst_zip hlength.le
  have hlabel : ∀ o ∈ t.operations, o.operationClass = .query → ∃ l, (o.index, l) ∈ labels ∧
      (labels.map fun l ↦ (l.1, Json.str l.2)).lookup o.index = some (.str l) := by
    intro o ho hclass
    refine lookup_labels ?_
    rw [hfst, hdef]
    exact List.mem_map_of_mem (List.mem_filter.mpr ⟨ho, by simpa using hclass⟩)
  obtain ⟨annotated, hannotated⟩ := exists_mapM_eq_ok
    (f := annotate (labels.map fun l ↦ (l.1, Json.str l.2))) (l := t.operations) fun o ho ↦ by
      by_cases hclass : o.operationClass = .query
      · obtain ⟨l, hl, hlookup⟩ := hlabel o ho hclass
        rw [hlabels] at hl
        obtain ⟨n, rfl⟩ := FirstOccurrence.exists_of_mem_classify (List.of_mem_zip hl).2
        exact ⟨_, annotate_eq_ok.mpr (.inl ⟨hclass, _, hlookup,
          matchesClassPattern_iff.mpr (.inl (isClassLabel_classLabel n)), rfl⟩)⟩
      · exact ⟨_, annotate_eq_ok.mpr (.inr ⟨hclass, rfl⟩)⟩
  have hforall := mapM_eq_ok_iff.mp hannotated
  -- the label of a query is the name of its key
  have hkey : ∀ o' ∈ annotated, ∀ k, (o'.index, k) ∈ queryKeys a → ∃ l,
      o'.queryEqualityClass = some l ∧ (k, l) ∈ ((queryKeys a).map Prod.snd).zip names := by
    intro o' ho' k hk
    obtain ⟨o, ho, hoo'⟩ := exists_of_mem_mapM hannotated ho'
    have hindex : o'.index = o.index := congrArg (·.index) (unlabelled_of_annotate hoo')
    have hmem : o.index ∈ indices := hindex ▸ hindices ▸ List.mem_map_of_mem hk
    rcases annotate_eq_ok.mp hoo' with ⟨-, l, hlookup, -, rfl⟩ | ⟨hclass, -⟩
    · refine ⟨l, rfl, ?_⟩
      obtain ⟨⟨i, l'⟩, hl, heq⟩ := List.mem_map.mp (mem_of_lookup hlookup)
      cases heq
      have hnodup : indices.Nodup :=
        (hwf.positioned.nodup.sublist (List.filter_sublist.map _))
      refine mem_zip_of_mem_zip hnodup ?_ (hlabels ▸ hl)
      rw [← hindices, List.zip_map']
      exact (List.map_id (queryKeys a)).symm ▸ hk
    · obtain ⟨q, hq, hqindex⟩ := List.mem_map.mp hmem
      obtain ⟨hq, hqclass⟩ := List.mem_filter.mp hq
      obtain rfl := List.inj_on_of_nodup_map hwf.positioned.nodup hq ho hqindex
      exact absurd (of_decide_eq_true hqclass) hclass
  refine ⟨{ t with equalityChannel := "M1", operations := annotated }, ?_, ?_, ?_, ?_⟩
  · rw [m1EqualityTranscript, ht, ok_bind, h, ok_bind]
    refine AdversaryTranscript.withEqualityChannel_eq_ok.mpr ⟨rfl, fun i ↦ ?_, hforall, rfl⟩
    rw [List.map_map, ← hdef, ← hfst]
    rfl
  · rw [AdversaryTranscript.unlabelled, AdversaryTranscript.unlabelled,
      map_unlabelled_of_annotate hforall]
  · intro o' ho' hclass
    obtain ⟨o, ho, hoo'⟩ := exists_of_mem_mapM hannotated ho'
    have hunlabelled := unlabelled_of_annotate hoo'
    have hindex : o'.index = o.index := congrArg (·.index) hunlabelled
    have hclass' : o.operationClass = .query := (congrArg (·.operationClass) hunlabelled) ▸ hclass
    have hmem : o.index ∈ (queryKeys a).map Prod.fst := by
      rw [hindices, hdef]
      exact List.mem_map_of_mem (List.mem_filter.mpr ⟨ho, by simpa using hclass'⟩)
    obtain ⟨⟨i, k⟩, hk, rfl⟩ := List.mem_map.mp hmem
    exact ⟨k, hindex ▸ hk⟩
  · intro o ho o' ho' k k' hk hk'
    obtain ⟨l, hl, hkl⟩ := hkey o ho k hk
    obtain ⟨l', hl', hkl'⟩ := hkey o' ho' k' hk'
    rw [hl, hl', Option.some.injEq]
    exact FirstOccurrence.zip_classify_inj classLabel_injective hkl hkl'

/-! ## Two runs -/

/-- The labels of two artifacts are the same when the keys of one are those of the other, renamed
injectively. -/
theorem m1EqualityClasses_eq_of_rename {a b : Json} {la lb : List (Int × String)}
    {t : AdversaryTranscript} (ha : extractTranscript a = .ok t) (hb : extractTranscript b = .ok t)
    (hla : m1EqualityClasses a = .ok la) (hlb : m1EqualityClasses b = .ok lb) {f : Int → Int}
    (hf : Set.InjOn f {k | k ∈ (queryKeys a).map Prod.snd})
    (hkeys : (queryKeys b).map Prod.snd = ((queryKeys a).map Prod.snd).map f) : la = lb := by
  obtain ⟨-, rfl⟩ := m1EqualityClasses_eq_ok ha hla
  obtain ⟨-, rfl⟩ := m1EqualityClasses_eq_ok hb hlb
  have hinj : Set.InjOn f {k | k ∈ ([] : List (Int × String)).map Prod.fst ∨
      k ∈ (queryKeys a).map Prod.snd} := hf.mono fun k hk ↦ by simpa using hk
  rw [hkeys]
  exact congrArg _ (FirstOccurrence.classify_map classLabel hinj).symm

/-- Artifacts that agree on the public fields have equal transcripts and equal metrics, or none.
When the keys of one are those of the other, renamed injectively, the annotated transcripts are
equal too: their labels tell which keys are equal, and their metrics are those of the transcript
without labels. -/
theorem extractTranscript_twoRuns {F : Type*} (arith : RatioArithmetic F) {a b : Json}
    (ha : validateG1eArtifact a = .ok ()) (hb : validateG1eArtifact b = .ok ())
    (hab : ArtifactsAgree a b) :
    (((∃ e, extractTranscript a = .error e) ∧ ∃ e, extractTranscript b = .error e) ∨
      ∃ t t', extractTranscript a = .ok t ∧ extractTranscript b = .ok t' ∧ t = t' ∧
        leakageMetrics arith t = leakageMetrics arith t') ∧
    ∀ (la lb : List (Int × String)) (f : Int → Int), m1EqualityClasses a = .ok la →
      m1EqualityClasses b = .ok lb → Set.InjOn f {k | k ∈ (queryKeys a).map Prod.snd} →
      (queryKeys b).map Prod.snd = ((queryKeys a).map Prod.snd).map f →
      ((∃ e, extractTranscript a = .error e) ∧ (∃ e, m1EqualityTranscript a = .error e) ∧
          ∃ e, m1EqualityTranscript b = .error e) ∨
        ∃ t t₁, extractTranscript a = .ok t ∧ m1EqualityTranscript a = .ok t₁ ∧
          m1EqualityTranscript b = .ok t₁ ∧ LabelsTellKeys (queryKeys a) t₁ ∧
          LabelsTellKeys (queryKeys b) t₁ ∧ leakageMetrics arith t₁ = leakageMetrics arith t := by
  cases hta : extractTranscript a with
  | error e =>
    have htb : ∃ e, extractTranscript b = .error e := by
      cases htb : extractTranscript b with
      | error e' => exact ⟨e', rfl⟩
      | ok t =>
        rw [hab.symm.extract_eq ha htb] at hta
        cases hta
    obtain ⟨e', htb⟩ := htb
    refine ⟨.inl ⟨⟨e, rfl⟩, e', htb⟩, fun _ _ _ _ _ _ _ ↦ .inl ⟨⟨e, rfl⟩, ⟨e, ?_⟩, e', ?_⟩⟩
    · rw [m1EqualityTranscript, hta, error_bind]
    · rw [m1EqualityTranscript, htb, error_bind]
  | ok t =>
    have htb := hab.extract_eq hb hta
    refine ⟨.inr ⟨t, t, rfl, htb, rfl, rfl⟩, fun la lb f hla hlb hf hkeys ↦ .inr ?_⟩
    obtain rfl := m1EqualityClasses_eq_of_rename hta htb hla hlb hf hkeys
    obtain ⟨t₁, ht₁, hunlabelled, htell⟩ := exists_m1EqualityTranscript hta hla
    obtain ⟨t₂, ht₂, -, htell'⟩ := exists_m1EqualityTranscript htb hlb
    have heq : m1EqualityTranscript b = m1EqualityTranscript a := by
      rw [m1EqualityTranscript, m1EqualityTranscript, hta, htb, ok_bind, ok_bind, hla, hlb]
    obtain rfl := Except.ok.inj (ht₁.symm.trans (heq ▸ ht₂))
    refine ⟨t, t₁, rfl, ht₁, ht₂, htell, htell', ?_⟩
    rw [← leakageMetrics_unlabelled, hunlabelled, leakageMetrics_unlabelled]

/-- Ratios as rational numbers with six decimals, the even one of two nearest. -/
def rationalArithmetic : RatioArithmetic ℚ where
  zero := 0
  quotient a b := a / b
  sum := List.sum
  divide q n := q / n
  round q :=
    let n := (q * 10 ^ 6).floor
    let rest := q * 10 ^ 6 - n
    (if rest < 1 / 2 ∨ (rest = 1 / 2 ∧ n % 2 = 0) then n else n + 1) / 10 ^ 6
  max := max
  min := min

/-- The record of a query that reads one slot. -/
def queryRecord (index slot : Int) : Json :=
  .obj [("index", .int index), ("kind", .str "QUERY"),
    ("events", .arr [ObservedEvent.toDict ⟨0, .read, slot⟩]), ("read_count", .int 1),
    ("write_count", .int 0)]

/-- The artifact of two queries with some keys. -/
def queryArtifact (key key' : Int) : Json :=
  .obj [("schema_version", .str "g1e-1"), ("final", .obj [("correctness_ok", .bool true)]),
    ("family", .str "uniform"), ("seed", .int 7),
    ("config", .obj [("block_capacity", .int 4), ("pgm_epsilon", .int 1)]),
    ("operations", .arr [queryRecord 0 3, queryRecord 1 5]),
    ("script", .obj [("operations", .arr
      [.obj [("kind", .str "QUERY"), ("keys", .arr [.int key])],
        .obj [("kind", .str "QUERY"), ("keys", .arr [.int key'])]])])]

theorem extractTranscript_twoRuns_small :
    queryKeys (queryArtifact 1 2) = [(0, 1), (1, 2)] ∧
      queryKeys (queryArtifact 9 4) = [(0, 9), (1, 4)] ∧
      ∃ t t₁, extractTranscript (queryArtifact 1 2) = .ok t ∧
        m1EqualityTranscript (queryArtifact 1 2) = .ok t₁ ∧
        m1EqualityTranscript (queryArtifact 9 4) = .ok t₁ ∧
        leakageMetrics rationalArithmetic t₁ = leakageMetrics rationalArithmetic t := by
  have hagree : ArtifactsAgree (queryArtifact 1 2) (queryArtifact 9 4) :=
    { family := .some (Same.refl _)
      seed := .some (Same.refl _)
      config := fun key hkey ↦ by
        simp only [List.mem_cons, List.not_mem_nil, or_false] at hkey
        rcases hkey with rfl | rfl <;> exact .some (Same.refl _)
      operations := ⟨_, _, rfl, rfl, List.forall₂_same.mpr fun r hr key hkey ↦ by
        simp only [List.mem_cons, List.not_mem_nil, or_false] at hr hkey
        rcases hr with rfl | rfl <;> rcases hkey with rfl | rfl | rfl | rfl <;>
          exact .some (Same.refl _)⟩ }
  refine ⟨rfl, rfl, ?_⟩
  rcases (extractTranscript_twoRuns rationalArithmetic rfl rfl hagree).2
      [(0, "QClass0"), (1, "QClass1")] [(0, "QClass0"), (1, "QClass1")]
      (fun k ↦ 14 - 5 * k) rfl rfl (fun k _ k' _ h ↦ by simpa using h) rfl with
    ⟨⟨e, h⟩, -⟩ | ⟨t, t₁, ht, ht₁, ht₁', -, -, hmetrics⟩
  · cases h
  · exact ⟨t, t₁, ht, ht₁, ht₁', hmetrics⟩

end EnhancedLetIndex
