import TurboCopy.ResumeState

/-!
# The integrity check

When `deserialize` accepts a log of the current schema. The hash is compared when the log has
one; a log whose hash is missing or null is read like one of an old schema.
-/

namespace TurboCopy

variable {sha256 : Json → String} {now : String} {raw : List (String × Json)}

/-- A field is missing, stands for nothing, or is converted without an exception. -/
def Reads {α : Type} (raw : List (String × Json)) (key : String) (conv : Json → Option α) : Prop :=
  ∀ v, Json.field raw key = some v → v.isTrue = true → (conv v).isSome = true

/-- Every field of a log can be read. -/
structure Readable (now : String) (raw : List (String × Json)) : Prop where
  copied : Reads raw (if (Json.field raw "copied_file_ids").isSome then "copied_file_ids"
    else "copied_ids") Json.toStrings?
  failed : Reads raw "failed_items" fun v =>
    match v with
    | .arr l => l.mapM (FailedItem.fromDict? now)
    | _ => none
  folderMap : Reads raw "folder_map" Json.toDict?
  completed : Reads raw "completed_folder_ids" Json.toStrings?
  bytes : Reads raw "copied_bytes" Json.toInt?

theorem readOr_ok_iff {α : Type} {key : String} {default : α} {conv : Json → Option α} :
    (∃ a, readOr raw key default conv = .ok a) ↔ Reads raw key conv := by
  unfold readOr Reads
  cases hfield : Json.field raw key with
  | none => simp
  | some v =>
    cases htrue : v.isTrue with
    | false => simp [htrue]
    | true => cases hconv : conv v <;> simp [htrue, hconv]

theorem readOr_of_reads {α : Type} {key : String} (default : α) {conv : Json → Option α}
    (h : Reads raw key conv) : ∃ a, readOr raw key default conv = .ok a :=
  readOr_ok_iff.mpr h

theorem readState_ok_iff : (∃ t, readState now raw = .ok t) ↔ Readable now raw := by
  constructor
  · rintro ⟨t, ht⟩
    unfold readState at ht
    simp only [bind, Except.bind] at ht
    split at ht
    · exact nomatch ht
    rename_i copied hcopied
    split at ht
    · exact nomatch ht
    rename_i failed hfailed
    split at ht
    · exact nomatch ht
    rename_i folderMap hfolderMap
    split at ht
    · exact nomatch ht
    rename_i completed hcompleted
    split at ht
    · exact nomatch ht
    rename_i bytes hbytes
    exact ⟨readOr_ok_iff.mp ⟨copied, hcopied⟩, readOr_ok_iff.mp ⟨failed, hfailed⟩,
      readOr_ok_iff.mp ⟨folderMap, hfolderMap⟩, readOr_ok_iff.mp ⟨completed, hcompleted⟩,
      readOr_ok_iff.mp ⟨bytes, hbytes⟩⟩
  · intro h
    obtain ⟨copied, hcopied⟩ := readOr_of_reads [] h.copied
    obtain ⟨failed, hfailed⟩ := readOr_of_reads [] h.failed
    obtain ⟨folderMap, hfolderMap⟩ := readOr_of_reads ∅ h.folderMap
    obtain ⟨completed, hcompleted⟩ := readOr_of_reads [] h.completed
    obtain ⟨bytes, hbytes⟩ := readOr_of_reads 0 h.bytes
    unfold readState
    simp only [bind, Except.bind, hcopied, hfolderMap, hcompleted, hbytes]
    split
    · rename_i error herror
      exact nomatch herror.symm.trans hfailed
    · exact ⟨_, rfl⟩

/-! ## Logs of the current schema -/

theorem field_setField_of_ne {fields : List (String × Json)} {key k : String} (v : Json)
    (h : k ≠ key) : Json.field (setField fields key v) k = Json.field fields k := by
  unfold Json.field setField
  split_ifs
  · have hsame : ((fun e : String × Json => decide (e.1 = k)) ∘
        fun e => if e.1 = key then (key, v) else e) = fun e => decide (e.1 = k) := by
      funext e
      by_cases he : e.1 = key <;> simp [he]
    rw [List.find?_map, hsame]
    cases hfind : fields.find? fun e => decide (e.1 = k) with
    | none => rfl
    | some e =>
      have hkey : e.1 = k := by simpa using List.find?_some hfind
      have hne : e.1 ≠ key := hkey ▸ h
      simp [hne]
  · simp [List.find?_append, Ne.symm h]

theorem reads_setField {α : Type} {key k : String} {conv : Json → Option α} (v : Json)
    (h : k ≠ key) : Reads (setField raw key v) k conv ↔ Reads raw k conv := by
  unfold Reads
  rw [field_setField_of_ne v h]

/-- Setting the schema version changes nothing that is read. -/
theorem readable_setField (v : Json) :
    Readable now (setField raw "schema_version" v) ↔ Readable now raw := by
  have hkey : (if (Json.field (setField raw "schema_version" v) "copied_file_ids").isSome then
      "copied_file_ids" else "copied_ids") =
      if (Json.field raw "copied_file_ids").isSome then "copied_file_ids" else "copied_ids" := by
    rw [field_setField_of_ne v (by decide)]
  have hne : (if (Json.field raw "copied_file_ids").isSome then "copied_file_ids"
      else "copied_ids") ≠ "schema_version" := by
    split_ifs <;> decide
  constructor
  · rintro ⟨hcopied, hfailed, hfolderMap, hcompleted, hbytes⟩
    rw [hkey, reads_setField v hne] at hcopied
    exact ⟨hcopied, (reads_setField v (by decide)).mp hfailed,
      (reads_setField v (by decide)).mp hfolderMap, (reads_setField v (by decide)).mp hcompleted,
      (reads_setField v (by decide)).mp hbytes⟩
  · rintro ⟨hcopied, hfailed, hfolderMap, hcompleted, hbytes⟩
    rw [← reads_setField v hne, ← hkey] at hcopied
    exact ⟨hcopied, (reads_setField v (by decide)).mpr hfailed,
      (reads_setField v (by decide)).mpr hfolderMap,
      (reads_setField v (by decide)).mpr hcompleted, (reads_setField v (by decide)).mpr hbytes⟩

/-- A log that says it has the current schema. -/
def Current (raw : List (String × Json)) : Prop :=
  Json.field raw "schema_version" = some (.int currentSchemaVersion)

theorem migrate_current (h : Current raw) :
    migrate raw = .ok (setField raw "schema_version" (.int currentSchemaVersion)) := by
  unfold Current at h
  simp [migrate, h, Json.isTrue, Json.toInt?, currentSchemaVersion, pure, Except.pure, bind,
    Except.bind]

/-- The hash of a log matches its other fields. -/
def Sealed (sha256 : Json → String) (raw : List (String × Json)) : Prop :=
  Json.field raw "integrity" = some (.str (computeIntegrity sha256 raw))

/-- A log whose integrity field is missing or null is accepted whenever it can be read. -/
theorem deserialize_unhashed_ok_iff (hcurrent : Current raw)
    (h : Json.field raw "integrity" = none ∨ Json.field raw "integrity" = some .null) :
    (∃ t, deserialize sha256 now (.json (.obj raw)) = .ok t) ↔ Readable now raw := by
  have hread : deserialize sha256 now (.json (.obj raw)) =
      readState now (setField raw "schema_version" (.int currentSchemaVersion)) := by
    rcases h with h | h
    · simp only [deserialize, h, migrate_current hcurrent]
      rfl
    · simp only [deserialize, h, migrate_current hcurrent]
      rfl
  rw [hread, readState_ok_iff, readable_setField]

/-- A log whose integrity field is there is accepted only if it is the hash. -/
theorem sealed_of_ok {t : ResumeState} {v : Json} (h : Json.field raw "integrity" = some v)
    (hv : v ≠ .null) (hok : deserialize sha256 now (.json (.obj raw)) = .ok t) :
    Sealed sha256 raw := by
  simp only [deserialize, h] at hok
  cases v with
  | null => exact absurd rfl hv
  | str text =>
    by_cases hhash : (Json.str text).asString = some (computeIntegrity sha256 raw)
    · rw [Sealed, h, ← Option.some.inj hhash]
    · simp [hhash] at hok
  | _ => simp [Json.asString] at hok

/-- Logs of the current schema are accepted only with a matching hash if and only if those are
excepted that have lost their hash and can still be read. -/
theorem accepts_sealed_iff (sha256 : Json → String) (now : String) (hcurrent : Current raw) :
    (∀ t, deserialize sha256 now (.json (.obj raw)) = .ok t → Sealed sha256 raw) ↔
      (∃ v, Json.field raw "integrity" = some v ∧ v ≠ .null) ∨ ¬Readable now raw := by
  constructor
  · intro h
    by_cases hv : ∃ v, Json.field raw "integrity" = some v ∧ v ≠ .null
    · exact .inl hv
    · right
      have hlost : Json.field raw "integrity" = none ∨
          Json.field raw "integrity" = some .null := by
        cases hfield : Json.field raw "integrity" with
        | none => exact .inl rfl
        | some v =>
          right
          by_contra hne
          exact hv ⟨v, hfield, fun hnull => hne (congrArg some hnull)⟩
      intro hreadable
      obtain ⟨t, ht⟩ := (deserialize_unhashed_ok_iff hcurrent hlost).mpr hreadable
      have hsealed := h t ht
      unfold Sealed at hsealed
      rcases hlost with hlost | hlost <;> simp [hlost] at hsealed
  · rintro (⟨v, hfield, hv⟩ | hreadable) t ht
    · exact sealed_of_ok hfield hv ht
    · cases hfield : Json.field raw "integrity" with
      | none =>
        exact absurd ((deserialize_unhashed_ok_iff hcurrent (.inl hfield)).mp ⟨t, ht⟩) hreadable
      | some v =>
        by_cases hv : v = .null
        · rw [hv] at hfield
          exact absurd ((deserialize_unhashed_ok_iff hcurrent (.inr hfield)).mp ⟨t, ht⟩) hreadable
        · exact sealed_of_ok hfield hv ht

/-- The log of a state, with an id added to the copied files and the hash set to null. -/
def forgedLog (sha256 : Json → String) : List (String × Json) :=
  let s : ResumeState := { copiedIds := {"a"}, createdAt := "2024-01-01", updatedAt := "2024-01-02" }
  setField (setField (canonicalPayload s ++
    [("integrity", .str (computeIntegrity sha256 (canonicalPayload s)))])
    "copied_file_ids" (.strings ["a", "b"])) "integrity" .null

theorem forgedLog_current (sha256 : Json → String) : Current (forgedLog sha256) := by
  simp [Current, forgedLog, canonicalPayload, setField, Json.field]

/-- The exact condition, for the log that lost its hash. -/
theorem accepts_sealed_iff_forged :
    (∀ t, deserialize (fun _ => "hash") "" (.json (.obj (forgedLog fun _ => "hash"))) = .ok t →
      Sealed (fun _ => "hash") (forgedLog fun _ => "hash")) ↔
      (∃ v, Json.field (forgedLog fun _ => "hash") "integrity" = some v ∧ v ≠ .null) ∨
        ¬Readable "" (forgedLog fun _ => "hash") :=
  accepts_sealed_iff _ "" (forgedLog_current _)

theorem forgedLog_null (sha256 : Json → String) :
    Json.field (forgedLog sha256) "integrity" = some .null := by
  simp [forgedLog, canonicalPayload, setField, Json.field]

theorem forgedLog_loads (sha256 : Json → String) :
    ∃ t, deserialize sha256 "" (.json (.obj (forgedLog sha256))) = .ok t ∧ "b" ∈ t.copiedIds := by
  let t : ResumeState :=
    { copiedIds := ["a", "b"].toFinset, createdAt := "2024-01-01", updatedAt := "2024-01-02" }
  refine ⟨t, ?_, by decide⟩
  simp only [deserialize, forgedLog_null, migrate_current (forgedLog_current sha256)]
  rfl

/-- With no hash function is the forged log refused, or read without the added id. -/
theorem forgedLog_accepted : ¬∃ sha256 : Json → String,
    Sealed sha256 (forgedLog sha256) ∨
      ∀ t, deserialize sha256 "" (.json (.obj (forgedLog sha256))) = .ok t → "b" ∉ t.copiedIds := by
  rintro ⟨sha256, hsealed | hrefused⟩
  · simp [Sealed, forgedLog_null] at hsealed
  · obtain ⟨t, hload, hadded⟩ := forgedLog_loads sha256
    exact hrefused t hload hadded

end TurboCopy
