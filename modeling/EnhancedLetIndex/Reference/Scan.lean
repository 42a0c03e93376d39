import EnhancedLetIndex.Reference.View

/-!
# The scan of an attack-facing payload

`AdversaryInput` of `ref_adversary.py` over the values of a program, which are more than JSON:
`json.dumps` writes a tuple as it writes a list, and `_collect_keys` goes through lists only.
What a tuple holds is serialised and never scanned, and the names in it are public exactly when
the caller took care (`separates_iff`).
-/

namespace EnhancedLetIndex

namespace Py

/-! ## Values -/

/-- The key of a dictionary: a string, or another key with the name `json.dumps` writes for it. -/
inductive Key where
  | str (name : String)
  | other (name : String)
deriving DecidableEq, Repr

/-- The name of a key in JSON. -/
def Key.name : Key → String
  | .str name => name
  | .other name => name

/-- A value that `json.dumps` writes. -/
inductive Value where
  | none
  | bool (value : Bool)
  | int (value : Int)
  | float (value : ℚ)
  | str (value : String)
  | list (items : List Value)
  | tuple (items : List Value)
  | dict (fields : List (Key × Value))

/-- The fields of a dictionary. -/
abbrev Dict := List (Key × Value)

mutual

/-- What `json.dumps` writes. -/
def Value.toJson : Value → Json
  | .none => .null
  | .bool value => .bool value
  | .int value => .int value
  | .float value => .float value
  | .str value => .str value
  | .list items => .arr (itemsToJson items)
  | .tuple items => .arr (itemsToJson items)
  | .dict fields => .obj (fieldsToJson fields)

/-- The items of an array. -/
def itemsToJson : List Value → List Json
  | [] => []
  | item :: items => item.toJson :: itemsToJson items

/-- The fields of an object. -/
def fieldsToJson : Dict → List (String × Json)
  | [] => []
  | (key, value) :: fields => (key.name, value.toJson) :: fieldsToJson fields

end

mutual

/-- `_collect_keys`: the keys of a payload, through dictionaries and lists. -/
def Value.collectKeys : Value → List Key
  | .dict fields => collectFieldKeys fields
  | .list items => collectItemKeys items
  | _ => []

/-- The keys of some fields and those in their values. -/
def collectFieldKeys : Dict → List Key
  | [] => []
  | (key, value) :: fields => key :: value.collectKeys ++ collectFieldKeys fields

/-- The keys in some items. -/
def collectItemKeys : List Value → List Key
  | [] => []
  | item :: items => item.collectKeys ++ collectItemKeys items

end

/-- A key may be in an attack-facing payload: it is a string, with a public name. -/
def Key.isPublic : Key → Bool
  | .str name => isPublicName name
  | .other _ => false

/-- `scan_forbidden_fields`, sorted by the names. -/
def scanForbiddenFields (payload : Value) : List Key :=
  (payload.collectKeys.dedup.filter fun key ↦ ¬key.isPublic).insertionSort (·.name ≤ ·.name)

mutual

/-- The names that a payload has inside of its tuples. -/
def Value.tupleNames : Value → List String
  | .dict fields => fieldTupleNames fields
  | .list items => itemTupleNames items
  | .tuple items => EnhancedLetIndex.collectItemKeys (itemsToJson items)
  | _ => []

/-- The names inside of tuples among the values of some fields. -/
def fieldTupleNames : Dict → List String
  | [] => []
  | (_, value) :: fields => value.tupleNames ++ fieldTupleNames fields

/-- The names inside of tuples among some items. -/
def itemTupleNames : List Value → List String
  | [] => []
  | item :: items => item.tupleNames ++ itemTupleNames items

end

mutual

/-- A JSON value, as a value. -/
def ofJson : Json → Value
  | .null => .none
  | .bool value => .bool value
  | .int value => .int value
  | .float value => .float value
  | .str value => .str value
  | .arr items => .list (ofItems items)
  | .obj fields => .dict (ofFields fields)

def ofItems : List Json → List Value
  | [] => []
  | item :: items => ofJson item :: ofItems items

def ofFields : List (String × Json) → Dict
  | [] => []
  | (name, value) :: fields => (.str name, ofJson value) :: ofFields fields

end

/-! ## The names of a payload -/

mutual

/-- A name is in the JSON of a payload when it is outside of its tuples or inside. -/
theorem mem_collectKeys_toJson (name : String) : ∀ v : Value,
    name ∈ EnhancedLetIndex.collectKeys v.toJson ↔
      name ∈ v.collectKeys.map Key.name ∨ name ∈ v.tupleNames
  | .none | .bool _ | .int _ | .float _ | .str _ => by
    simp [Value.toJson, Value.collectKeys, Value.tupleNames, EnhancedLetIndex.collectKeys]
  | .list items => mem_collectItemKeys_toJson name items
  | .tuple items => by
    have hkeys : (Value.tuple items).collectKeys = [] := rfl
    rw [hkeys, List.map_nil, or_iff_right List.not_mem_nil]
    exact Iff.rfl
  | .dict fields => mem_collectFieldKeys_toJson name fields

theorem mem_collectItemKeys_toJson (name : String) : ∀ items : List Value,
    name ∈ EnhancedLetIndex.collectItemKeys (itemsToJson items) ↔
      name ∈ (collectItemKeys items).map Key.name ∨ name ∈ itemTupleNames items
  | [] => by simp [itemsToJson, collectItemKeys, itemTupleNames, EnhancedLetIndex.collectItemKeys]
  | item :: items => by
    rw [itemsToJson, EnhancedLetIndex.collectItemKeys, List.mem_append,
      mem_collectKeys_toJson name item, mem_collectItemKeys_toJson name items, collectItemKeys,
      List.map_append, List.mem_append, itemTupleNames, List.mem_append]
    tauto

theorem mem_collectFieldKeys_toJson (name : String) : ∀ fields : Dict,
    name ∈ EnhancedLetIndex.collectFieldKeys (fieldsToJson fields) ↔
      name ∈ (collectFieldKeys fields).map Key.name ∨ name ∈ fieldTupleNames fields
  | [] => by
    simp [fieldsToJson, collectFieldKeys, fieldTupleNames, EnhancedLetIndex.collectFieldKeys]
  | (key, value) :: fields => by
    rw [fieldsToJson, EnhancedLetIndex.collectFieldKeys, List.cons_append, List.mem_cons,
      List.mem_append, mem_collectKeys_toJson name value, mem_collectFieldKeys_toJson name fields,
      collectFieldKeys, List.cons_append, List.map_cons, List.mem_cons, List.map_append,
      List.mem_append, fieldTupleNames, List.mem_append]
    tauto

end

mutual

/-- A JSON value has no tuples. -/
theorem tupleNames_ofJson : ∀ p : Json, (ofJson p).tupleNames = []
  | .null | .bool _ | .int _ | .float _ | .str _ => rfl
  | .arr items => itemTupleNames_ofItems items
  | .obj fields => fieldTupleNames_ofFields fields

theorem itemTupleNames_ofItems : ∀ items : List Json, itemTupleNames (ofItems items) = []
  | [] => rfl
  | item :: items => by
    rw [ofItems, itemTupleNames, tupleNames_ofJson item, itemTupleNames_ofItems items]
    rfl

theorem fieldTupleNames_ofFields : ∀ fields : List (String × Json),
    fieldTupleNames (ofFields fields) = []
  | [] => rfl
  | (name, value) :: fields => by
    rw [ofFields, fieldTupleNames, tupleNames_ofJson value, fieldTupleNames_ofFields fields]
    rfl

end

mutual

/-- The keys of a JSON value are its names. -/
theorem collectKeys_ofJson : ∀ p : Json,
    (ofJson p).collectKeys = (EnhancedLetIndex.collectKeys p).map Key.str
  | .null | .bool _ | .int _ | .float _ | .str _ => rfl
  | .arr items => collectItemKeys_ofItems items
  | .obj fields => collectFieldKeys_ofFields fields

theorem collectItemKeys_ofItems : ∀ items : List Json,
    collectItemKeys (ofItems items) = (EnhancedLetIndex.collectItemKeys items).map Key.str
  | [] => rfl
  | item :: items => by
    rw [ofItems, collectItemKeys, collectKeys_ofJson item, collectItemKeys_ofItems items,
      EnhancedLetIndex.collectItemKeys, List.map_append]

theorem collectFieldKeys_ofFields : ∀ fields : List (String × Json),
    collectFieldKeys (ofFields fields) = (EnhancedLetIndex.collectFieldKeys fields).map Key.str
  | [] => rfl
  | (name, value) :: fields => by
    rw [ofFields, collectFieldKeys, collectKeys_ofJson value, collectFieldKeys_ofFields fields,
      EnhancedLetIndex.collectFieldKeys, List.map_append, List.map_cons]

end

theorem Key.isPublicName_of_isPublic {key : Key} (h : key.isPublic = true) :
    isPublicName key.name = true := by
  cases key with
  | str name => exact h
  | other name => cases h

/-- A scan finds nothing when every key is public. -/
theorem scanForbiddenFields_eq_nil {payload : Value} :
    scanForbiddenFields payload = [] ↔ ∀ key ∈ payload.collectKeys, key.isPublic = true := by
  rw [scanForbiddenFields, ← List.length_eq_zero_iff, List.length_insertionSort,
    List.length_eq_zero_iff, List.filter_eq_nil_iff]
  simp only [List.mem_dedup, decide_not, Bool.not_eq_true', Bool.decide_eq_true, Bool.not_eq_false]

/-! ## The view -/

/-- The value of a field. -/
def lookup (fields : Dict) (name : String) : Option Value := List.lookup (.str name) fields

/-- An integer of the metadata, which no boolean is. -/
def requireInt (fields : Dict) (name place : String) : Except LeakageError Int :=
  match lookup fields name with
  | some (.int n) => .ok n
  | _ => .error (.notInteger place name)

/-- `_copy_run_metadata`. -/
def copyRunMetadata (metadata : Dict) : Except LeakageError RunMetadata :=
  match lookup metadata "family" with
  | some (.str family) =>
    if hfamily : family = "" then .error .family
    else do
      let seed ← requireInt metadata "seed" "run_metadata"
      match lookup metadata "config" with
      | some (.dict config) => do
        let blockCapacity ← requireInt config "block_capacity" "run_metadata.config"
        let pgmEpsilon ← requireInt config "pgm_epsilon" "run_metadata.config"
        pure ⟨family, seed, blockCapacity, pgmEpsilon, hfamily⟩
      | _ => .error (.notObject "run_metadata.config")
  | _ => .error .family

/-- `AdversaryTranscript`: its metadata and its summary are any dictionaries. -/
structure AdversaryTranscript where
  schemaVersion : String
  sourceSchemaVersion : String
  runMetadata : Dict
  operations : List ObservedOperation
  summary : Dict
  equalityChannel : String

/-- A field of the summary. -/
def summaryField (summary : Dict) (name : String) : Except AdversaryInputError (Key × Value) :=
  match lookup summary name with
  | some value => .ok (.str name, value)
  | none => .error (.missingField name)

/-- The fields of the summary, where they are. -/
def AdversaryTranscript.summaryFields (t : AdversaryTranscript) : Dict :=
  summaryKeys.filterMap fun name ↦ (lookup t.summary name).map fun value ↦ (.str name, value)

/-- `to_dict` of a transcript. -/
def AdversaryTranscript.toDict (t : AdversaryTranscript) : Except AdversaryInputError Value := do
  let metadata ← (copyRunMetadata t.runMetadata).mapError .leakage
  let summary ← summaryKeys.mapM (summaryField t.summary)
  pure (.dict [(.str "schema_version", .str t.schemaVersion),
    (.str "source_schema_version", .str t.sourceSchemaVersion),
    (.str "equality_channel", .str t.equalityChannel),
    (.str "run_metadata", ofJson metadata.toDict),
    (.str "operations", .list (t.operations.map fun o ↦ ofJson o.toDict)),
    (.str "summary", .dict summary)])

/-- `AdversaryInput`, before its constructor has checked it. -/
structure AdversaryInput where
  transcript : AdversaryTranscript
  publicConfig : Dict
  equalityChannel : String
  sourceProfile : String

namespace AdversaryInput

/-- `to_dict`. -/
def toDict (v : AdversaryInput) : Except AdversaryInputError Value := do
  let transcript ← v.transcript.toDict
  pure (.dict [(.str "equality_channel", .str v.equalityChannel),
    (.str "public_config", .dict v.publicConfig), (.str "transcript", transcript)])

/-- A key of `public_config` is declared. -/
def IsDeclared (key : Key) : Prop := ∃ name ∈ publicConfigKeys, key = .str name

instance (key : Key) : Decidable (IsDeclared key) :=
  inferInstanceAs (Decidable (∃ name ∈ publicConfigKeys, key = .str name))

/-- `__post_init__`. -/
def postInit (v : AdversaryInput) : Except AdversaryInputError Unit := do
  require (∀ f ∈ v.publicConfig, IsDeclared f.1)
    (.undeclared ((v.publicConfig.filter fun f ↦ ¬IsDeclared f.1).map (·.1.name)))
  let dict ← v.toDict
  require (scanForbiddenFields dict = []) (.forbidden ((scanForbiddenFields dict).map Key.name))

/-- `to_json`, as the value that is serialised. -/
def toJson (v : AdversaryInput) : Except AdversaryInputError Json := do
  let dict ← v.toDict
  pure dict.toJson

/-- What the caller puts into a payload: the public configuration, and the values of a summary. -/
def openFields (v : AdversaryInput) : Dict := v.publicConfig ++ v.transcript.summaryFields

/-- A name that is not declared, or one outside of the tuples that isn't public. -/
def Flagged (v : AdversaryInput) : Prop :=
  (∃ f ∈ v.publicConfig, ¬IsDeclared f.1) ∨
    ∃ key ∈ collectFieldKeys v.openFields, key.isPublic = false

/-- A name inside of a tuple that isn't public. -/
def Hides (v : AdversaryInput) : Prop :=
  ∃ name ∈ fieldTupleNames v.openFields, isPublicName name = false

/-- What is serialised of a view that is constructed has public names only, and a view that
would have another is not constructed. -/
def Separates (v : AdversaryInput) : Prop :=
  v.postInit = .ok () → ∀ json, v.toJson = .ok json → IsPublic json

end AdversaryInput

/-! ## Public keys -/

/-- Every key that is scanned is public. -/
def PublicKeys (v : Value) : Prop := ∀ key ∈ v.collectKeys, key.isPublic = true

theorem mem_collectFieldKeys {key : Key} {fields : Dict} :
    key ∈ collectFieldKeys fields ↔ ∃ f ∈ fields, key = f.1 ∨ key ∈ f.2.collectKeys := by
  induction fields with
  | nil => simp [collectFieldKeys]
  | cons f fields ih =>
    rw [collectFieldKeys, List.mem_append, List.mem_cons, ih]
    simp

theorem mem_collectItemKeys {key : Key} {items : List Value} :
    key ∈ collectItemKeys items ↔ ∃ x ∈ items, key ∈ x.collectKeys := by
  induction items with
  | nil => simp [collectItemKeys]
  | cons x items ih =>
    rw [collectItemKeys, List.mem_append, ih]
    simp

theorem mem_fieldTupleNames {name : String} {fields : Dict} :
    name ∈ fieldTupleNames fields ↔ ∃ f ∈ fields, name ∈ f.2.tupleNames := by
  induction fields with
  | nil => simp [fieldTupleNames]
  | cons f fields ih =>
    rw [fieldTupleNames, List.mem_append, ih]
    simp

theorem mem_itemTupleNames {name : String} {items : List Value} :
    name ∈ itemTupleNames items ↔ ∃ x ∈ items, name ∈ x.tupleNames := by
  induction items with
  | nil => simp [itemTupleNames]
  | cons x items ih =>
    rw [itemTupleNames, List.mem_append, ih]
    simp

theorem publicKeys_dict {fields : Dict} :
    PublicKeys (.dict fields) ↔ ∀ f ∈ fields, f.1.isPublic = true ∧ PublicKeys f.2 := by
  simp only [PublicKeys, Value.collectKeys, mem_collectFieldKeys]
  constructor
  · intro h f hf
    exact ⟨h f.1 ⟨f, hf, .inl rfl⟩, fun key hkey ↦ h key ⟨f, hf, .inr hkey⟩⟩
  · rintro h key ⟨f, hf, rfl | hkey⟩
    · exact (h f hf).1
    · exact (h f hf).2 key hkey

theorem publicKeys_str (s : String) : PublicKeys (.str s) := fun _ hkey ↦ by cases hkey

theorem publicKeys_ofJson {p : Json} (h : IsPublic p) : PublicKeys (ofJson p) := by
  intro key hkey
  rw [collectKeys_ofJson] at hkey
  obtain ⟨name, hname, rfl⟩ := List.mem_map.mp hkey
  exact h name hname

theorem publicKeys_operations (operations : List ObservedOperation) :
    PublicKeys (.list (operations.map fun o ↦ ofJson o.toDict)) := by
  intro key hkey
  obtain ⟨x, hx, hkey⟩ := mem_collectItemKeys.mp hkey
  obtain ⟨o, -, rfl⟩ := List.mem_map.mp hx
  exact publicKeys_ofJson (isPublic_operation o) key hkey

namespace AdversaryInput

variable {v : AdversaryInput} {dict : Value}

/-- The summary that is copied. -/
theorem mapM_summaryField {summary copied : Dict} {names : List String}
    (h : names.mapM (summaryField summary) = .ok copied) : copied =
      names.filterMap fun name ↦ (lookup summary name).map fun value ↦ (.str name, value) := by
  have h := mapM_eq_ok_iff.mp h
  induction h with
  | nil => rfl
  | @cons name field names copied hfield _ ih =>
    rw [summaryField] at hfield
    cases hlookup : lookup summary name with
    | none =>
      rw [hlookup] at hfield
      cases hfield
    | some value =>
      rw [hlookup] at hfield
      obtain rfl := Except.ok.inj hfield
      rw [List.filterMap_cons, hlookup, Option.map_some, ih (mapM_eq_ok_iff.mpr ‹_›)]

/-- The payload of a view, where it has one. -/
theorem toDict_eq_ok (h : v.toDict = .ok dict) : ∃ metadata, dict =
    .dict [(.str "equality_channel", .str v.equalityChannel),
      (.str "public_config", .dict v.publicConfig),
      (.str "transcript", .dict [(.str "schema_version", .str v.transcript.schemaVersion),
        (.str "source_schema_version", .str v.transcript.sourceSchemaVersion),
        (.str "equality_channel", .str v.transcript.equalityChannel),
        (.str "run_metadata", ofJson (RunMetadata.toDict metadata)),
        (.str "operations", .list (v.transcript.operations.map fun o ↦ ofJson o.toDict)),
        (.str "summary", .dict v.transcript.summaryFields)])] := by
  obtain ⟨transcript, htranscript, h⟩ := bind_eq_ok.mp h
  obtain ⟨metadata, -, htranscript⟩ := bind_eq_ok.mp htranscript
  obtain ⟨summary, hsummary, htranscript⟩ := bind_eq_ok.mp htranscript
  obtain rfl := Except.ok.inj htranscript
  obtain rfl := Except.ok.inj h
  rw [mapM_summaryField hsummary]
  exact ⟨metadata, rfl⟩

/-- The keys that are scanned are public when those of the caller are. -/
theorem publicKeys_toDict_iff (h : v.toDict = .ok dict) :
    PublicKeys dict ↔ ∀ key ∈ collectFieldKeys v.openFields, key.isPublic = true := by
  obtain ⟨metadata, rfl⟩ := toDict_eq_ok h
  have hnames : ["equality_channel", "public_config", "transcript", "schema_version",
      "source_schema_version", "run_metadata", "operations", "summary"].all isPublicName = true := by
    decide
  simp only [List.all_cons, List.all_nil, Bool.and_true, Bool.and_eq_true] at hnames
  have hmetadata := publicKeys_ofJson (isPublic_metadata metadata)
  have hopen : (∀ key ∈ collectFieldKeys v.openFields, key.isPublic = true) ↔
      PublicKeys (.dict v.publicConfig) ∧ PublicKeys (.dict v.transcript.summaryFields) := by
    rw [publicKeys_dict, publicKeys_dict, ← List.forall_mem_append, ← publicKeys_dict]
    exact Iff.rfl
  rw [hopen]
  simp only [publicKeys_dict, List.forall_mem_cons, List.not_mem_nil, false_implies, implies_true,
    Key.isPublic, hnames, publicKeys_str, hmetadata, publicKeys_operations, true_and, and_true]

/-- The names inside of tuples are those of the caller. -/
theorem mem_tupleNames_toDict (h : v.toDict = .ok dict) {name : String} :
    name ∈ dict.tupleNames ↔ name ∈ fieldTupleNames v.openFields := by
  obtain ⟨metadata, rfl⟩ := toDict_eq_ok h
  have hoperations : itemTupleNames (v.transcript.operations.map fun o ↦ ofJson o.toDict) = [] := by
    refine List.eq_nil_iff_forall_not_mem.mpr fun name hname ↦ ?_
    obtain ⟨x, hx, hname⟩ := mem_itemTupleNames.mp hname
    obtain ⟨o, -, rfl⟩ := List.mem_map.mp hx
    rw [tupleNames_ofJson] at hname
    exact List.not_mem_nil hname
  rw [openFields, mem_fieldTupleNames]
  simp only [Value.tupleNames, fieldTupleNames, tupleNames_ofJson, hoperations, List.nil_append,
    List.append_nil, List.mem_append, mem_fieldTupleNames, or_and_right, exists_or]

/-- The names of a view are separated exactly when the transcript is not exported, a name outside
of the tuples is refused, or the names inside are public. -/
theorem separates_iff (v : AdversaryInput) : v.Separates ↔
    (∀ dict, v.transcript.toDict ≠ .ok dict) ∨ v.Flagged ∨ ¬v.Hides := by
  cases htranscript : v.transcript.toDict with
  | error err =>
    refine iff_of_true (fun hok ↦ ?_) (.inl fun dict hdict ↦ by cases hdict)
    obtain ⟨-, hok⟩ := require_bind_eq_ok.mp hok
    rw [toDict, htranscript] at hok
    cases hok
  | ok transcript =>
    obtain ⟨dict, hdict⟩ : ∃ dict, v.toDict = .ok dict := by
      rw [toDict, htranscript]
      exact ⟨_, rfl⟩
    have hkeys := publicKeys_toDict_iff hdict
    have hinside (name : String) :
        name ∈ dict.tupleNames ↔ name ∈ fieldTupleNames v.openFields := mem_tupleNames_toDict hdict
    have hpost : v.postInit = .ok () ↔ ¬v.Flagged := by
      rw [postInit, require_bind_eq_ok, hdict, ok_bind, require_eq_ok, scanForbiddenFields_eq_nil,
        Flagged, not_or]
      refine and_congr ?_ (hkeys.trans ?_)
      · simp only [not_exists, not_and, not_not]
      · simp only [not_exists, not_and, Bool.not_eq_false]
    have hjson : v.toJson = .ok dict.toJson := by rw [toJson, hdict]; rfl
    rw [or_iff_right fun hnone ↦ hnone transcript rfl, Separates, hpost, or_iff_not_imp_left, hjson]
    refine imp_congr_right fun hflagged ↦ ?_
    have houtside : ∀ key ∈ dict.collectKeys, key.isPublic = true := by
      refine hkeys.mpr fun key hkey ↦ Bool.of_not_eq_false fun hbad ↦ hflagged ?_
      exact .inr ⟨key, hkey, hbad⟩
    constructor
    · rintro hpublic ⟨name, hname, hbad⟩
      have hmem := (mem_collectKeys_toJson name dict).mpr (.inr ((hinside name).mpr hname))
      exact Bool.false_ne_true (hbad.symm.trans (hpublic _ rfl name hmem))
    · rintro hhides json hjson name hname
      obtain rfl := Except.ok.inj hjson
      rcases (mem_collectKeys_toJson name dict).mp hname with hname | hname
      · obtain ⟨key, hkey, rfl⟩ := List.mem_map.mp hname
        exact Key.isPublicName_of_isPublic (houtside key hkey)
      · refine Bool.of_not_eq_false fun hbad ↦ hhides ⟨name, (hinside name).mp hname, hbad⟩

/-- A view of a run without operations, whose levels are a tuple of one dictionary. -/
def tupledLevels : AdversaryInput where
  transcript := {
    schemaVersion := "g2a-1"
    sourceSchemaVersion := "g2b0-ref-1"
    runMetadata := [(.str "family", .str "LETINDEX-REF-V1"), (.str "seed", .int 1),
      (.str "config", .dict [(.str "block_capacity", .int 4), (.str "pgm_epsilon", .int 8)])]
    operations := []
    summary := summaryKeys.map fun name ↦ (.str name, .int 0)
    equalityChannel := "M0" }
  publicConfig := [(.str "levels", .tuple [.dict [(.str "level", .int 3),
    (.str "placement", .list [.int 1, .int 0])]])]
  equalityChannel := "M0"
  sourceProfile := "LETINDEX-REF-V1"

/-- The placement of a level in a tuple is serialised. -/
theorem not_separates_tupledLevels : ¬tupledLevels.Separates := by
  have hpost : tupledLevels.postInit = .ok () := by decide +kernel
  have hname : tupledLevels.toJson.map (fun json ↦
      decide ("placement" ∈ EnhancedLetIndex.collectKeys json)) = .ok true := by decide +kernel
  intro h
  cases hjson : tupledLevels.toJson with
  | error err =>
    rw [hjson] at hname
    cases hname
  | ok json =>
    rw [hjson] at hname
    have hmem := of_decide_eq_true (Except.ok.inj hname)
    exact absurd (h hpost json hjson _ hmem) (by decide)

end AdversaryInput

end Py

end EnhancedLetIndex
