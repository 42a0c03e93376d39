import EnhancedLetIndex.Transcript.Extract

/-!
# What the extraction returns

The operations that are observed of an artifact, and the effect of the equality channel: a label
on each query and nothing else.
-/

namespace EnhancedLetIndex

open Json

variable {a p : Json}

/-! ## Records -/

/-- A record is observed field by field, without a label. -/
theorem observeRecord_eq_ok {o : ObservedOperation} : observeRecord p = .ok o ↔
    p.field "index" = some (.int o.index) ∧
      p.field "kind" = some (.str o.operationClass.text) ∧
      (∃ events, p.field "events" = some (.arr events) ∧
        List.Forall₂ (fun x (e : ObservedEvent) ↦ x.Same e.toDict) events o.events) ∧
      p.field "read_count" = some (.int o.readCount) ∧
      p.field "write_count" = some (.int o.writeCount) ∧ o.queryEqualityClass = none := by
  simp only [observeRecord, bind_eq_ok, requireObject_eq_ok, requireInt_eq_ok, requireSourceKind,
    requireClass_eq_ok, requireList_eq_ok, mapM_eq_ok_iff, requireEvent_eq_ok, pure_eq_ok,
    Except.ok.injEq]
  constructor
  · rintro ⟨fs, rfl, index, hindex, cls, hcls, events, hevents, es, hes, reads, hreads, writes,
      hwrites, rfl⟩
    exact ⟨hindex, hcls, ⟨events, hevents, hes⟩, hreads, hwrites, rfl⟩
  · rintro ⟨hindex, hcls, ⟨events, hevents, hes⟩, hreads, hwrites, hlabel⟩
    obtain ⟨fs, rfl, hindex⟩ := field_eq_some.mp hindex
    refine ⟨fs, rfl, _, hindex, _, hcls, events, hevents, _, hes, _, hreads, _, hwrites, ?_⟩
    rw [← hlabel]

theorem checkRecord_eq_ok {position : Nat} {u : Unit} : checkRecord position p = .ok u ↔
    ∃ o, observeRecord p = .ok o ∧ o.index = position ∧ o.Integral := by
  simp only [checkRecord, bind_eq_ok, requireObject_eq_ok, requireInt_eq_ok, require_eq_ok,
    checkEventIntegrity_eq_ok]
  constructor
  · rintro ⟨fs, rfl, index, hindex, -, rfl, o, ho, hintegral⟩
    have hindex' := (observeRecord_eq_ok.mp ho).1
    rw [field_obj, hindex] at hindex'
    exact ⟨o, ho, (Json.int.inj (Option.some.inj hindex')).symm, hintegral⟩
  · rintro ⟨o, ho, hposition, hintegral⟩
    obtain ⟨fs, rfl, hindex⟩ := field_eq_some.mp (observeRecord_eq_ok.mp ho).1
    exact ⟨fs, rfl, _, hindex, ⟨⟩, hposition, o, ho, hintegral⟩

/-- The records are accepted when what is observed of them is in order and complete. -/
theorem checkRecords_eq_ok {start : Nat} {records : List Json} {u : Unit} :
    checkRecords start records = .ok u ↔
      ∃ operations, List.Forall₂ (fun r o ↦ observeRecord r = .ok o) records operations ∧
        Positioned start operations ∧ ∀ o ∈ operations, o.Integral := by
  induction records generalizing start with
  | nil => simp [checkRecords, Positioned]
  | cons record records ih =>
    simp only [checkRecords, bind_eq_ok, checkRecord_eq_ok, ih, List.forall₂_cons_left_iff]
    constructor
    · rintro ⟨-, ⟨o, ho, hindex, hi⟩, operations, hrecords, hpos, his⟩
      exact ⟨o :: operations, ⟨o, operations, ho, hrecords, rfl⟩,
        positioned_cons.mpr ⟨hindex, hpos⟩, List.forall_mem_cons.mpr ⟨hi, his⟩⟩
    · rintro ⟨_, ⟨o, operations, ho, hrecords, rfl⟩, hpos, his⟩
      obtain ⟨hindex, hpos⟩ := positioned_cons.mp hpos
      obtain ⟨hi, his⟩ := List.forall_mem_cons.mp his
      exact ⟨⟨⟩, ⟨o, ho, hindex, hi⟩, operations, hrecords, hpos, his⟩

/-! ## Artifacts -/

theorem requireCorrectness_eq_ok {final : Option Json} {u : Unit} :
    requireCorrectness final = .ok u ↔
      final.bind (field "correctness_ok") = some (.bool true) := by
  unfold requireCorrectness
  rcases final with _ | ⟨_ | _ | _ | _ | _ | _ | data⟩ <;> try simp [field]
  rcases data.lookup "correctness_ok" with _ | ⟨_ | ⟨_ | _⟩ | _ | _ | _ | _ | _⟩ <;> simp

/-- An artifact is accepted when it records a successful run whose operations are observed. -/
theorem validateG1eArtifact_eq_ok {u : Unit} : validateG1eArtifact a = .ok u ↔
    a.field "schema_version" = some (.str Leakage.sourceSchemaVersion) ∧
      (a.field "final").bind (field "correctness_ok") = some (.bool true) ∧
      ∃ records operations, a.field "operations" = some (.arr records) ∧ records ≠ [] ∧
        List.Forall₂ (fun r o ↦ observeRecord r = .ok o) records operations ∧
        Positioned 0 operations ∧ ∀ o ∈ operations, o.Integral := by
  simp only [validateG1eArtifact, bind_eq_ok, requireObject_eq_ok, require_eq_ok, isText_iff,
    requireCorrectness_eq_ok, requireList_eq_ok, checkRecords_eq_ok]
  constructor
  · rintro ⟨fs, rfl, -, hversion, -, hfinal, records, hrecords, -, hne, operations, h⟩
    exact ⟨hversion, hfinal, records, operations, hrecords, hne, h⟩
  · rintro ⟨hversion, hfinal, records, operations, hrecords, hne, h⟩
    obtain ⟨fs, rfl, hversion⟩ := field_eq_some.mp hversion
    exact ⟨fs, rfl, ⟨⟩, hversion, ⟨⟩, hfinal, records, hrecords, ⟨⟩, hne, operations, h⟩

/-- The metadata is what the artifact carries at its top level. -/
theorem copyRunMetadata_source {fs : Fields} {m : RunMetadata} :
    copyRunMetadata (sourceMetadata fs) = .ok m ↔
      fs.lookup "family" = some (.str m.family) ∧ fs.lookup "seed" = some (.int m.seed) ∧
      (fs.lookup "config").bind (field "block_capacity") = some (.int m.blockCapacity) ∧
      (fs.lookup "config").bind (field "pgm_epsilon") = some (.int m.pgmEpsilon) := by
  rw [copyRunMetadata_eq_ok]
  have hget : ∀ {key : String} {v : Json}, v ≠ .null →
      (getField fs key = v ↔ fs.lookup key = some v) := by
    intro key v hv
    unfold getField
    cases fs.lookup key with
    | none => simp [hv.symm]
    | some w => simp
  constructor
  · rintro ⟨gs, config, hgs, hf, hs, hc, hb, he⟩
    obtain rfl := Json.obj.inj hgs
    have hf := (hget (by simp)).mp (Option.some.inj hf)
    have hs := (hget (by simp)).mp (Option.some.inj hs)
    have hc : (fs.lookup "config").getD (.obj []) = .obj config := Option.some.inj hc
    cases hconfig : fs.lookup "config" with
    | none =>
      rw [hconfig] at hc
      obtain rfl := Json.obj.inj hc
      cases hb
    | some v =>
      rw [hconfig] at hc
      obtain rfl : v = .obj config := hc
      exact ⟨hf, hs, hb, he⟩
  · rintro ⟨hf, hs, hb, he⟩
    obtain ⟨v, hconfig, hb⟩ := Option.bind_eq_some_iff.mp hb
    rw [hconfig] at he
    obtain ⟨config, rfl, hb⟩ := field_eq_some.mp hb
    refine ⟨_, config, rfl, ?_, ?_, ?_, hb, he⟩
    · exact congrArg some ((hget (by simp)).mpr hf)
    · exact congrArg some ((hget (by simp)).mpr hs)
    · show some ((fs.lookup "config").getD _) = _
      rw [hconfig]
      rfl

/-- The transcript of an artifact: what is observed of its records, with its metadata. -/
theorem extractTranscript_eq_ok {t : AdversaryTranscript} : extractTranscript a = .ok t ↔
    validateG1eArtifact a = .ok () ∧
      (∃ records, a.field "operations" = some (.arr records) ∧
        List.Forall₂ (fun r o ↦ observeRecord r = .ok o) records t.operations) ∧
      a.field "family" = some (.str t.runMetadata.family) ∧
      a.field "seed" = some (.int t.runMetadata.seed) ∧
      (a.field "config").bind (field "block_capacity") = some (.int t.runMetadata.blockCapacity) ∧
      (a.field "config").bind (field "pgm_epsilon") = some (.int t.runMetadata.pgmEpsilon) ∧
      t = ⟨Leakage.schemaVersion, Leakage.sourceSchemaVersion, t.runMetadata, t.operations,
        summarize t.operations, "M0"⟩ := by
  simp only [extractTranscript, bind_eq_ok, requireObject_eq_ok, requireList_eq_ok,
    mapM_eq_ok_iff, copyRunMetadata_source, pure_eq_ok, Except.ok.injEq]
  constructor
  · rintro ⟨⟨⟩, hvalid, fs, rfl, records, hrecords, operations, hoperations, m,
      ⟨hf, hs, hb, he⟩, rfl⟩
    exact ⟨hvalid, ⟨records, hrecords, hoperations⟩, hf, hs, hb, he, rfl⟩
  · rintro ⟨hvalid, ⟨records, hrecords, hoperations⟩, hf, hs, hb, he, ht⟩
    obtain ⟨fs, rfl, hrecords⟩ := field_eq_some.mp hrecords
    exact ⟨⟨⟩, hvalid, fs, rfl, records, hrecords, _, hoperations, _, ⟨hf, hs, hb, he⟩,
      ht.symm⟩

end EnhancedLetIndex
