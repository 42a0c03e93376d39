import EnhancedLetIndex.Transcript.Validate

/-!
# What the transcript decoders accept

Each decoder returns a part exactly when the value is the encoding of the part, up to the order
of fields, and the part is well formed.
-/

namespace EnhancedLetIndex

open Json

variable {p : Json} {data : Fields} {place key : String}

/-! ## The helpers -/

@[simp] theorem requireObject_eq_ok {fs : Fields} : requireObject place p = .ok fs ↔ p = .obj fs := by
  cases p <;> simp [requireObject]

@[simp] theorem requireList_eq_ok {v : Option Json} {xs : List Json} :
    requireList place v = .ok xs ↔ v = some (.arr xs) := by
  rcases v with _ | ⟨_ | _ | _ | _ | _ | _ | _⟩ <;> simp [requireList]

@[simp] theorem requireInt_eq_ok {n : Int} :
    requireInt data key place = .ok n ↔ data.lookup key = some (.int n) := by
  unfold requireInt
  rcases data.lookup key with _ | ⟨_ | _ | _ | _ | _ | _ | _⟩ <;> simp

@[simp] theorem requireEventOperation_eq_ok {operation : EventOperation} :
    requireEventOperation data = .ok operation ↔
      data.lookup "operation" = some (.str operation.text) := by
  unfold requireEventOperation
  rcases data.lookup "operation" with _ | ⟨_ | _ | _ | _ | s | _ | _⟩ <;> try simp
  rw [← EventOperation.ofText_eq_some]
  cases EventOperation.ofText s <;> simp

@[simp] theorem requireClass_eq_ok {field : String} {operationClass : OperationClass} :
    requireClass field data place = .ok operationClass ↔
      data.lookup field = some (.str operationClass.text) := by
  unfold requireClass
  rcases data.lookup field with _ | ⟨_ | _ | _ | _ | s | _ | _⟩ <;> try simp
  rw [← OperationClass.ofText_eq_some]
  cases OperationClass.ofText s <;> simp

@[simp] theorem requireOpaqueClass_eq_ok {label : String} :
    requireOpaqueClass p = .ok label ↔ p = .str label ∧ matchesClassPattern label := by
  cases p with
  | str s =>
    simp only [requireOpaqueClass, require_bind_eq_ok, pure_eq_ok, Except.ok.injEq, str.injEq]
    exact ⟨fun ⟨h, hs⟩ ↦ ⟨hs, hs ▸ h⟩, fun ⟨hs, h⟩ ↦ ⟨hs ▸ h, hs⟩⟩
  | _ => simp [requireOpaqueClass]

/-- The label a record carries. -/
theorem requireLabel_eq_ok {label : Option String} :
    requireLabel data = .ok label ↔
      data.lookup "query_equality_class" = label.map Json.str ∧
        ∀ l ∈ label, matchesClassPattern l := by
  unfold requireLabel
  cases hlookup : data.lookup "query_equality_class" with
  | none => cases label <;> simp
  | some v =>
    cases v <;> cases label <;> simp [bind_eq_ok, requireOpaqueClass_eq_ok]

@[simp] theorem rejectExtraFields_eq_ok {allowed : List String} {u : Unit} :
    rejectExtraFields data allowed place = .ok u ↔ ∀ f ∈ data, f.1 ∈ allowed := require_eq_ok

theorem mem_keys_iff {fs : Fields} : key ∈ fs.map Prod.fst ↔ ∃ v, fs.lookup key = some v := by
  rw [← not_iff_not, ← lookup_eq_none, ← Option.isSome_iff_exists, Option.not_isSome_iff_eq_none]

/-! ## Events and operations -/

/-- An event is accepted when it is the encoding of one. -/
theorem requireEvent_eq_ok {e : ObservedEvent} : requireEvent p = .ok e ↔ p.Same e.toDict := by
  rw [ObservedEvent.toDict, same_obj_iff (by simp)]
  simp only [requireEvent, bind_eq_ok, requireObject_eq_ok, require_eq_ok, ObservedEvent.fromDict,
    requireInt_eq_ok, requireEventOperation_eq_ok, pure_eq_ok, Except.ok.injEq]
  simp only [eventKeys, List.forall_mem_cons, List.map_cons, List.map_nil, same_int_iff,
    same_str_iff, mem_keys_iff]
  constructor
  · rintro ⟨fs, rfl, -, ⟨hkeys, -⟩, seq, hseq, operation, hoperation, slotId, hslot, rfl⟩
    exact ⟨fs, rfl, hkeys, ⟨_, hseq, rfl⟩, ⟨_, hoperation, rfl⟩, ⟨_, hslot, rfl⟩, by simp⟩
  · rintro ⟨fs, rfl, hkeys, ⟨_, hseq, rfl⟩, ⟨_, hoperation, rfl⟩, ⟨_, hslot, rfl⟩, -⟩
    exact ⟨fs, rfl, ⟨⟩, ⟨hkeys, ⟨_, hseq⟩, ⟨_, hoperation⟩, ⟨_, hslot⟩, by simp⟩, _, hseq, _,
      hoperation, _, hslot, rfl⟩

theorem eventCount_add (o : ObservedOperation) :
    o.eventCount .read + o.eventCount .write = o.events.length := by
  rw [ObservedOperation.eventCount, ObservedOperation.eventCount,
    List.length_eq_countP_add_countP (fun e ↦ decide (e.operation = .read))]
  congr 1
  refine List.countP_congr fun e _ ↦ ?_
  cases e.operation <;> simp

theorem checkEventIntegrity_eq_ok {o : ObservedOperation} {u : Unit} :
    checkEventIntegrity o place = .ok u ↔ o.Integral := by
  have hadd := eventCount_add o
  simp only [checkEventIntegrity, require_bind_eq_ok, require_eq_ok]
  constructor
  · rintro ⟨⟨hread, hwrite⟩, hseq⟩
    exact ⟨hread.symm, by omega, hseq⟩
  · rintro ⟨hread, hwrite, hseq⟩
    exact ⟨⟨hread.symm, by omega⟩, hseq⟩

/-- The label of an operation, if it has one, is accepted. -/
def ObservedOperation.Labelled (label : String → Prop) (o : ObservedOperation) : Prop :=
  ∀ l ∈ o.queryEqualityClass, label l

theorem nodup_operationFields (o : ObservedOperation) :
    ((([("index", .int o.index), ("class", .str o.operationClass.text),
      ("events", .arr (o.events.map ObservedEvent.toDict)), ("read_count", .int o.readCount),
      ("write_count", .int o.writeCount)] : Fields) ++ o.labelFields).map Prod.fst).Nodup := by
  unfold ObservedOperation.labelFields
  cases o.queryEqualityClass <;> simp

/-- The fields of a record are the ones of an operation, with the label where it has one. -/
theorem labelFields_iff {fs : Fields} {o : ObservedOperation} :
    ((∀ f ∈ fs, f.1 ∈ ["index", "class", "events", "read_count", "write_count"] ++
          o.labelFields.map Prod.fst) ∧
        ∀ x ∈ o.labelFields, ∃ v, fs.lookup x.1 = some v ∧ v.Same x.2) ↔
      (∀ f ∈ fs, f.1 ∈ operationAllKeys) ∧
        fs.lookup "query_equality_class" = o.queryEqualityClass.map Json.str := by
  unfold ObservedOperation.labelFields operationAllKeys
  cases o.queryEqualityClass with
  | none =>
    rw [Option.map_none, Option.map_none, lookup_eq_none, List.mem_map]
    simp only [Option.toList_none, List.map_nil, List.append_nil, List.not_mem_nil,
      false_imp_iff, implies_true, and_true, List.mem_cons, or_false]
    constructor
    · intro h
      refine ⟨fun f hf ↦ ?_, ?_⟩
      · have := h f hf
        tauto
      · rintro ⟨f, hf, hlabel⟩
        have := h f hf
        simp [hlabel] at this
    · rintro ⟨h, hlabel⟩ f hf
      have hne : f.1 ≠ "query_equality_class" := fun heq ↦ hlabel ⟨f, hf, heq⟩
      have := h f hf
      tauto
  | some l =>
    simp [same_str_iff]

/-- An operation is accepted when it is the encoding of one that is well formed. -/
theorem ObservedOperation.fromDict_eq_ok {o : ObservedOperation} :
    ObservedOperation.fromDict p = .ok o ↔
      o.Integral ∧ o.Labelled (matchesClassPattern ·) ∧ p.Same o.toDict := by
  rw [ObservedOperation.toDict, same_obj_iff (nodup_operationFields o)]
  simp only [ObservedOperation.fromDict, bind_eq_ok, requireObject_eq_ok, requireList_eq_ok,
    rejectExtraFields_eq_ok, requireLabel_eq_ok, requireInt_eq_ok, requireTranscriptClass,
    requireClass_eq_ok, mapM_eq_ok_iff, requireEvent_eq_ok, checkEventIntegrity_eq_ok, pure_eq_ok,
    Except.ok.injEq, List.forall_mem_append, List.forall_mem_cons, same_int_iff, same_str_iff,
    same_arr_map_iff]
  constructor
  · rintro ⟨fs, rfl, -, hkeys, events, hevents, label, ⟨hlabel, hmatch⟩, index, hindex, cls, hcls,
      es, hes, reads, hreads, writes, hwrites, -, hintegral, rfl⟩
    obtain ⟨hkeys', hlabel'⟩ :=
      labelFields_iff (o := ⟨index, cls, es, reads, writes, label⟩) |>.mpr ⟨hkeys, hlabel⟩
    exact ⟨hintegral, hmatch, fs, rfl, by simpa using hkeys', ⟨⟨_, hindex, rfl⟩, ⟨_, hcls, rfl⟩,
      ⟨_, hevents, events, rfl, hes⟩, ⟨_, hreads, rfl⟩, ⟨_, hwrites, rfl⟩, by simp⟩, hlabel'⟩
  · rintro ⟨hintegral, hmatch, fs, rfl, hkeys, ⟨⟨_, hindex, rfl⟩, ⟨_, hcls, rfl⟩,
      ⟨_, hevents, events, rfl, hes⟩, ⟨_, hreads, rfl⟩, ⟨_, hwrites, rfl⟩, -⟩, hlabel⟩
    obtain ⟨hkeys', hlabel'⟩ := labelFields_iff.mp ⟨by simpa using hkeys, hlabel⟩
    exact ⟨fs, rfl, ⟨⟩, hkeys', events, hevents, _, ⟨hlabel', hmatch⟩, _, hindex, _, hcls, _, hes,
      _, hreads, _, hwrites, ⟨⟩, hintegral, rfl⟩

/-! ## The parts of a transcript -/

theorem RunMetadata.same_toDict {m : RunMetadata} : p.Same m.toDict ↔ ∃ fs config,
    p = .obj fs ∧ (∀ f ∈ fs, f.1 ∈ ["family", "seed", "config"]) ∧
      fs.lookup "family" = some (.str m.family) ∧ fs.lookup "seed" = some (.int m.seed) ∧
      fs.lookup "config" = some (.obj config) ∧
      (∀ f ∈ config, f.1 ∈ ["block_capacity", "pgm_epsilon"]) ∧
      config.lookup "block_capacity" = some (.int m.blockCapacity) ∧
      config.lookup "pgm_epsilon" = some (.int m.pgmEpsilon) := by
  have hconfig : ∀ q : Json, q.Same (.obj [("block_capacity", .int m.blockCapacity),
      ("pgm_epsilon", .int m.pgmEpsilon)]) ↔ _ := fun q ↦ same_obj_iff (by simp)
  rw [RunMetadata.toDict, same_obj_iff (by simp)]
  simp only [List.forall_mem_cons, List.map_cons, List.map_nil, same_int_iff, same_str_iff,
    hconfig]
  constructor
  · rintro ⟨fs, rfl, hkeys, ⟨_, hfamily, rfl⟩, ⟨_, hseed, rfl⟩,
      ⟨_, hconfig, config, rfl, hkeys', ⟨_, hcapacity, rfl⟩, ⟨_, hepsilon, rfl⟩, -⟩, -⟩
    exact ⟨fs, config, rfl, hkeys, hfamily, hseed, hconfig, hkeys', hcapacity, hepsilon⟩
  · rintro ⟨fs, config, rfl, hkeys, hfamily, hseed, hconfig, hkeys', hcapacity, hepsilon⟩
    exact ⟨fs, rfl, hkeys, ⟨_, hfamily, rfl⟩, ⟨_, hseed, rfl⟩,
      ⟨_, hconfig, config, rfl, hkeys', ⟨_, hcapacity, rfl⟩, ⟨_, hepsilon, rfl⟩, by simp⟩,
      by simp⟩

/-- The metadata of a run, wherever the values are found. -/
theorem copyRunMetadata_eq_ok {m : RunMetadata} : copyRunMetadata p = .ok m ↔ ∃ fs config,
    p = .obj fs ∧ fs.lookup "family" = some (.str m.family) ∧
      fs.lookup "seed" = some (.int m.seed) ∧ fs.lookup "config" = some (.obj config) ∧
      config.lookup "block_capacity" = some (.int m.blockCapacity) ∧
      config.lookup "pgm_epsilon" = some (.int m.pgmEpsilon) := by
  simp only [copyRunMetadata, bind_eq_ok, requireObject_eq_ok]
  constructor
  · rintro ⟨fs, rfl, h⟩
    split at h
    · rename_i family hfamily
      split_ifs at h with hempty
      obtain ⟨seed, hseed, h⟩ := bind_eq_ok.mp h
      split at h
      · rename_i config hconfig
        obtain ⟨blockCapacity, hcapacity, h⟩ := bind_eq_ok.mp h
        obtain ⟨pgmEpsilon, hepsilon, h⟩ := bind_eq_ok.mp h
        cases h
        exact ⟨fs, config, rfl, hfamily, requireInt_eq_ok.mp hseed, hconfig,
          requireInt_eq_ok.mp hcapacity, requireInt_eq_ok.mp hepsilon⟩
      · cases h
    · cases h
  · rintro ⟨fs, config, rfl, hfamily, hseed, hconfig, hcapacity, hepsilon⟩
    refine ⟨fs, rfl, ?_⟩
    simp only [hfamily, dif_neg m.family_ne, requireInt_eq_ok.mpr hseed, ok_bind, hconfig,
      requireInt_eq_ok.mpr hcapacity, requireInt_eq_ok.mpr hepsilon, pure_eq_ok]

@[simp] theorem checkConfig_eq_ok {v : Option Json} {u : Unit} : checkConfig v = .ok u ↔
    ∃ config, v = some (.obj config) ∧
      ∀ f ∈ config, f.1 ∈ ["block_capacity", "pgm_epsilon"] := by
  rcases v with _ | ⟨_ | _ | _ | _ | _ | _ | config⟩ <;> simp [checkConfig]

/-- Metadata is accepted when it is the encoding of some. -/
theorem checkMetadata_eq_ok {v : Option Json} {m : RunMetadata} :
    checkMetadata v = .ok m ↔ ∃ p, v = some p ∧ p.Same m.toDict := by
  simp only [RunMetadata.same_toDict]
  constructor
  · intro h
    rcases v with _ | ⟨_ | _ | _ | _ | _ | _ | fs⟩ <;> try cases h
    simp only [checkMetadata, bind_eq_ok, rejectExtraFields_eq_ok, checkConfig_eq_ok,
      copyRunMetadata_eq_ok] at h
    obtain ⟨-, hkeys, -, ⟨config, hconfig, hkeys'⟩, fs, config', hfs, hfamily, hseed, hconfig',
      hcapacity, hepsilon⟩ := h
    obtain rfl := Json.obj.inj hfs
    cases hconfig.symm.trans hconfig'
    exact ⟨_, rfl, fs, config, rfl, hkeys, hfamily, hseed, hconfig, hkeys', hcapacity, hepsilon⟩
  · rintro ⟨_, rfl, fs, config, rfl, hkeys, hfamily, hseed, hconfig, hkeys', hcapacity, hepsilon⟩
    simp only [checkMetadata, bind_eq_ok, rejectExtraFields_eq_ok, checkConfig_eq_ok,
      copyRunMetadata_eq_ok]
    exact ⟨⟨⟩, hkeys, ⟨⟩, ⟨config, hconfig, hkeys'⟩, fs, config, rfl, hfamily, hseed, hconfig,
      hcapacity, hepsilon⟩

@[simp] theorem isText_iff {v : Option Json} {s : String} :
    isText v s = true ↔ v = some (.str s) := by
  rcases v with _ | ⟨_ | _ | _ | _ | _ | _ | _⟩ <;> simp [isText]

@[simp] theorem requireChannel_eq_ok {channel : String} : requireChannel data = .ok channel ↔
    data.lookup "equality_channel" = some (.str channel) ∧ channel ∈ ["M0", "M1"] := by
  unfold requireChannel
  rcases data.lookup "equality_channel" with _ | ⟨_ | _ | _ | _ | s | _ | _⟩ <;> try simp
  simp only [require_bind_eq_ok, Except.ok.injEq]
  constructor
  · rintro ⟨h, rfl⟩
    exact ⟨rfl, by simpa using h⟩
  · rintro ⟨rfl, h⟩
    exact ⟨by simpa using h, rfl⟩

theorem Summary.same_toDict {s : Summary} : p.Same s.toDict ↔ ∃ fs, p = .obj fs ∧
    (∀ f ∈ fs, f.1 ∈ s.fields.map Prod.fst) ∧
      ∀ field ∈ s.fields, fs.lookup field.1 = some (.int field.2) := by
  have hdict : s.toDict = .obj (s.fields.map fun field ↦ (field.1, .int field.2)) := rfl
  have hkeys : (s.fields.map fun field ↦ (field.1, Json.int field.2)).map Prod.fst =
      s.fields.map Prod.fst := by rw [List.map_map]; rfl
  rw [hdict, same_obj_iff (by rw [hkeys]; simp [Summary.fields]), hkeys]
  simp only [List.forall_mem_map, same_int_iff, exists_eq_right]

theorem requireCount_eq_ok {field : String × Int} {u : Unit} :
    requireCount data field = .ok u ↔ ∃ n, data.lookup field.1 = some (.int n) := by
  simp only [requireCount, bind_eq_ok, requireInt_eq_ok, pure_eq_ok, and_true]

theorem checkCount_eq_ok {field : String × Int} {u : Unit} :
    checkCount data field = .ok u ↔ data.lookup field.1 = some (.int field.2) := by
  simp only [checkCount, bind_eq_ok, requireInt_eq_ok, require_eq_ok, exists_eq_right]

/-- A summary is accepted when it is the encoding of the expected one. -/
theorem checkSummary_eq_ok {v : Option Json} {expected : Summary} {u : Unit} :
    checkSummary v expected = .ok u ↔ ∃ p, v = some p ∧ p.Same expected.toDict := by
  simp only [Summary.same_toDict]
  constructor
  · intro h
    rcases v with _ | ⟨_ | _ | _ | _ | _ | _ | fs⟩ <;> try cases h
    obtain ⟨⟨hkeys, -⟩, h⟩ := require_bind_eq_ok.mp h
    obtain ⟨-, -, h⟩ := bind_eq_ok.mp h
    exact ⟨_, rfl, fs, rfl, hkeys, fun field hfield ↦
      checkCount_eq_ok.mp (forM_eq_ok_iff.mp h field hfield)⟩
  · rintro ⟨_, rfl, fs, rfl, hkeys, hvalues⟩
    refine require_bind_eq_ok.mpr ⟨⟨hkeys, fun k hk ↦ ?_⟩, bind_eq_ok.mpr ⟨⟨⟩, ?_, ?_⟩⟩
    · obtain ⟨field, hfield, rfl⟩ := List.mem_map.mp hk
      exact mem_keys_iff.mpr ⟨_, hvalues field hfield⟩
    · exact forM_eq_ok_iff.mpr fun field hfield ↦
        requireCount_eq_ok.mpr ⟨_, hvalues field hfield⟩
    · exact forM_eq_ok_iff.mpr fun field hfield ↦ checkCount_eq_ok.mpr (hvalues field hfield)

theorem Summary.fromDict_eq_ok {v : Option Json} {s : Summary} : Summary.fromDict v = .ok s ↔
    ∃ fs, v = some (.obj fs) ∧ ∀ field ∈ s.fields, fs.lookup field.1 = some (.int field.2) := by
  constructor
  · intro h
    rcases v with _ | ⟨_ | _ | _ | _ | _ | _ | fs⟩ <;> try cases h
    simp only [Summary.fromDict, bind_eq_ok, requireInt_eq_ok, pure_eq_ok, Except.ok.injEq] at h
    obtain ⟨_, h₁, _, h₂, _, h₃, _, h₄, _, h₅, _, h₆, rfl⟩ := h
    refine ⟨fs, rfl, ?_⟩
    simp only [Summary.fields, List.forall_mem_cons]
    exact ⟨h₁, h₂, h₃, h₄, h₅, h₆, by simp⟩
  · rintro ⟨fs, rfl, h⟩
    simp only [Summary.fields, List.forall_mem_cons] at h
    obtain ⟨h₁, h₂, h₃, h₄, h₅, h₆, -⟩ := h
    simp only [Summary.fromDict, bind_eq_ok, requireInt_eq_ok, pure_eq_ok, Except.ok.injEq]
    exact ⟨_, h₁, _, h₂, _, h₃, _, h₄, _, h₅, _, h₆, rfl⟩

/-! ## The operations of a transcript -/

/-- The operations carry their positions, from `start` on. -/
def Positioned (start : Nat) (operations : List ObservedOperation) : Prop :=
  operations.map (·.index) = (List.range' start operations.length).map Int.ofNat

theorem positioned_cons {start : Nat} {o : ObservedOperation}
    {operations : List ObservedOperation} : Positioned start (o :: operations) ↔
      o.index = start ∧ Positioned (start + 1) operations := by
  rw [Positioned, Positioned, List.map_cons, List.length_cons, List.range'_succ, List.map_cons,
    List.cons.injEq]
  rfl

theorem lookup_label_of_fromDict {fs : Fields} {o : ObservedOperation}
    (h : ObservedOperation.fromDict (.obj fs) = .ok o) :
    fs.lookup "query_equality_class" = o.queryEqualityClass.map Json.str := by
  simp only [ObservedOperation.fromDict, bind_eq_ok, requireObject_eq_ok, requireList_eq_ok,
    requireLabel_eq_ok, pure_eq_ok, Except.ok.injEq] at h
  obtain ⟨fs', hfs, -, -, -, -, label, ⟨hlabel, -⟩, -, -, -, -, -, -, -, -, -, -, -, -, rfl⟩ := h
  obtain rfl := Json.obj.inj hfs
  exact hlabel

/-- The operations of a transcript, with the presence of their labels. -/
theorem parseOperations_eq_ok {start : Nat} {records : List Json}
    {parsed : List (ObservedOperation × Bool)} : parseOperations start records = .ok parsed ↔
      ∃ operations, parsed = operations.map (fun o ↦ (o, o.queryEqualityClass.isSome)) ∧
        List.Forall₂ (fun r o ↦ ObservedOperation.fromDict r = .ok o) records operations ∧
          Positioned start operations := by
  induction records generalizing start parsed with
  | nil =>
    simp only [parseOperations, pure_eq_ok, Except.ok.injEq, List.forall₂_nil_left_iff]
    constructor
    · rintro rfl
      exact ⟨[], rfl, rfl, rfl⟩
    · rintro ⟨_, rfl, rfl, -⟩
      rfl
  | cons record records ih =>
    simp only [parseOperations, bind_eq_ok, requireObject_eq_ok, require_eq_ok, ih,
      pure_eq_ok, Except.ok.injEq, List.forall₂_cons_left_iff]
    constructor
    · rintro ⟨fs, rfl, o, ho, -, hindex, _, ⟨operations, rfl, hrecords, hpos⟩, rfl⟩
      refine ⟨o :: operations, ?_, ⟨o, operations, ho, hrecords, rfl⟩,
        positioned_cons.mpr ⟨hindex, hpos⟩⟩
      rw [List.map_cons, lookup_label_of_fromDict ho, Option.isSome_map]
    · rintro ⟨_, rfl, ⟨o, operations, ho, hrecords, rfl⟩, hpos⟩
      obtain ⟨hindex, hpos⟩ := positioned_cons.mp hpos
      obtain ⟨fs, rfl⟩ : ∃ fs, record = .obj fs := by
        simp only [ObservedOperation.fromDict, bind_eq_ok, requireObject_eq_ok] at ho
        obtain ⟨fs, hfs, -⟩ := ho
        exact ⟨fs, hfs⟩
      refine ⟨fs, rfl, o, ho, ⟨⟩, hindex, _, ⟨operations, rfl, hrecords, hpos⟩, ?_⟩
      rw [List.map_cons, lookup_label_of_fromDict ho, Option.isSome_map]

end EnhancedLetIndex
