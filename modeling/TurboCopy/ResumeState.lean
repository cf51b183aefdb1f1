import TurboCopy.Json

/-!
# The resume log and its text

`ResumeState` and the pure half of `resume_store.py`: the payload written to the
log, its integrity hash, migration of older schemas and reading. The hash is a
parameter, a function of the canonical JSON value.
-/

namespace TurboCopy

def currentSchemaVersion : ℤ := 4
def logPrefix : String := ".gdrive_copy_resume"
def logSuffix : String := ".json"
def failedReportName : String := "failed_report.json"

structure ResumeState where
  schemaVersion : ℤ := currentSchemaVersion
  account : Option String := none
  sourceRootId : Option String := none
  destRootId : Option String := none
  runId : Option String := none
  copiedIds : Finset String := ∅
  folderMap : Dict String := ∅
  completedFolders : Finset String := ∅
  failedItems : List FailedItem := []
  copiedBytes : ℤ := 0
  createdAt : String := ""
  updatedAt : String := ""

namespace FailedItem

/-- The entries of `asdict(self)` that are not `None`. -/
def toDict (f : FailedItem) : Json :=
  let optional (key : String) (v : Option String) : List (String × Json) :=
    match v with
    | some s => [(key, .str s)]
    | none => []
  .obj ([("source_id", .str f.sourceId), ("name", .str f.name), ("mime_type", .str f.mimeType),
      ("reason", .str f.reason), ("error_message", .str f.errorMessage),
      ("timestamp", .str f.timestamp)] ++
    optional "parent_source_id" f.parentSourceId ++
    optional "shortcut_target_id" f.shortcutTargetId ++
    optional "source_shortcut_id" f.sourceShortcutId ++
    optional "effective_source_id" f.effectiveSourceId)

/-- `from_dict`; a value that is not an object is no failed item. -/
def fromDict? (now : String) : Json → Option FailedItem
  | .obj data =>
    let text (key default : String) : String := ((Json.field data key).bind Json.asString).getD default
    some
      { sourceId := text "source_id" ""
        name := text "name" "?"
        mimeType := ((Json.field data "mimeType").bind Json.asString).getD (text "mime_type" "")
        reason := text "reason" "unknown"
        errorMessage := text "error_message" ""
        timestamp := text "timestamp" now
        parentSourceId := Json.optString data "parent_source_id"
        shortcutTargetId := Json.optString data "shortcut_target_id"
        sourceShortcutId := Json.optString data "source_shortcut_id"
        effectiveSourceId := Json.optString data "effective_source_id" }
  | _ => none

theorem fromDict?_toDict (now : String) (f : FailedItem) : fromDict? now f.toDict = some f := by
  obtain ⟨a, b, c, d, e, t, p, q, r, s⟩ := f
  cases p <;> cases q <;> cases r <;> cases s <;> rfl

theorem mapM_fromDict?_toDict (now : String) (l : List FailedItem) :
    (l.map toDict).mapM (fromDict? now) = some l := by
  induction l with
  | nil => rfl
  | cons f l ih => simp [List.mapM_cons, fromDict?_toDict, ih]

end FailedItem

/-! ## Payload and integrity -/

/-- The entries of a dictionary as a JSON object with sorted keys. -/
def folderMapJson (d : Dict String) : Json :=
  .obj (((d.entries.map fun e => (e.1, e.2)).insertionSort fun a b => a.1 ≤ b.1).map
    fun e => (e.1, Json.str e.2))

def canonicalPayload (s : ResumeState) : List (String × Json) :=
  [("schema_version", .int currentSchemaVersion),
    ("account", .ofOption s.account),
    ("source_root_id", .ofOption s.sourceRootId),
    ("dest_root_id", .ofOption s.destRootId),
    ("run_id", .ofOption s.runId),
    ("copied_file_ids", .strings (sorted s.copiedIds)),
    ("folder_map", folderMapJson s.folderMap),
    ("completed_folder_ids", .strings (sorted s.completedFolders)),
    ("failed_items", .arr (s.failedItems.map FailedItem.toDict)),
    ("copied_bytes", .int s.copiedBytes),
    ("created_at", .str s.createdAt),
    ("updated_at", .str s.updatedAt)]

mutual
/-- The value printed with sorted keys. -/
def canonical : Json → Json
  | .arr items => .arr (canonicalItems items)
  | .obj fields => .obj ((canonicalFields fields).insertionSort fun a b => a.1 ≤ b.1)
  | .null => .null
  | .bool b => .bool b
  | .int n => .int n
  | .float q => .float q
  | .nonFinite text => .nonFinite text
  | .str s => .str s

def canonicalItems : List Json → List Json
  | [] => []
  | x :: xs => canonical x :: canonicalItems xs

def canonicalFields : List (String × Json) → List (String × Json)
  | [] => []
  | (k, x) :: xs => (k, canonical x) :: canonicalFields xs
end

variable (sha256 : Json → String)

/-- The hash of the payload without its `integrity` entry. -/
def computeIntegrity (payload : List (String × Json)) : String :=
  sha256 (canonical (.obj (payload.filter fun e => e.1 ≠ "integrity")))

def serialize (s : ResumeState) : Content :=
  let payload := canonicalPayload s
  .json (.obj (payload ++ [("integrity", .str (computeIntegrity sha256 payload))]))

/-! ## Migration and reading -/

def setField (fields : List (String × Json)) (key : String) (v : Json) : List (String × Json) :=
  if fields.any fun e => e.1 = key then
    fields.map fun e => if e.1 = key then (key, v) else e
  else fields ++ [(key, v)]

def setdefaultField (fields : List (String × Json)) (key : String) (v : Json) :
    List (String × Json) :=
  if fields.any fun e => e.1 = key then fields else fields ++ [(key, v)]

def Json.toRat? : Json → Option ℚ
  | .int n => some n
  | .float q => some q
  | .bool b => some (if b then 1 else 0)
  | _ => none

/-- `migrate`: bring a raw log of any earlier schema up to the current one. -/
def migrate (raw : List (String × Json)) : Except String (List (String × Json)) := do
  let stated := (Json.field raw "schema_version").getD ((Json.field raw "version").getD (.int 1))
  let some version := (if stated.isTrue then stated else .int 1).toInt?
    | .error "invalid schema_version"
  let data := raw
  let data := if version < 2 then
      setdefaultField data "copied_file_ids" ((Json.field raw "copied_ids").getD (.arr []))
    else data
  let data ← if version < 3 then do
      let stated := (Json.field raw "lifetime_size_mb").getD (.int 0)
      let some mb := (if stated.isTrue then stated else .int 0).toRat?
        | .error "could not convert lifetime_size_mb"
      let data := setdefaultField data "copied_bytes"
        (.int (if 0 ≤ mb then (mb * 1024 * 1024).floor else (mb * 1024 * 1024).ceil))
      pure (setdefaultField (setdefaultField (setdefaultField data "source_root_id" .null)
        "dest_root_id" .null) "run_id" .null)
    else pure data
  let data := if version < 4 then setdefaultField data "completed_folder_ids" (.arr []) else data
  pure (setField data "schema_version" (.int currentSchemaVersion))

/-- An entry read as `x or default` through a partial conversion. -/
def readOr {α : Type} (data : List (String × Json)) (key : String) (default : α)
    (conv : Json → Option α) : Except String α :=
  match Json.field data key with
  | none => .ok default
  | some v =>
    if v.isTrue then
      match conv v with
      | some a => .ok a
      | none => .error s!"{key} has the wrong type"
    else .ok default

/-- Read a migrated log. -/
def readState (now : String) (data : List (String × Json)) : Except String ResumeState := do
  let key := if (Json.field data "copied_file_ids").isSome then "copied_file_ids" else "copied_ids"
  let copied ← readOr data key [] Json.toStrings?
  let failed ← readOr data "failed_items" [] fun v =>
    match v with
    | .arr l => l.mapM (FailedItem.fromDict? now)
    | _ => none
  let folderMap ← readOr data "folder_map" ∅ Json.toDict?
  let completed ← readOr data "completed_folder_ids" [] Json.toStrings?
  let bytes ← readOr data "copied_bytes" 0 Json.toInt?
  pure
    { account := Json.optString data "account"
      sourceRootId := Json.optString data "source_root_id"
      destRootId := Json.optString data "dest_root_id"
      runId := Json.optString data "run_id"
      copiedIds := copied.toFinset
      folderMap := folderMap
      completedFolders := completed.toFinset
      failedItems := failed
      copiedBytes := bytes
      createdAt := orElse (Json.optString data "created_at") now
      updatedAt := orElse (Json.optString data "updated_at") now }

/-- `deserialize`: the integrity hash is checked when the log has one. -/
def deserialize (now : String) : Content → Except String ResumeState
  | .text _ => .error "not JSON"
  | .json (.obj raw) =>
    match Json.field raw "integrity" with
    | none | some .null => migrate raw >>= readState now
    | some h =>
      if h.asString = some (computeIntegrity sha256 raw) then migrate raw >>= readState now
      else .error "Resume log integrity hash mismatch (possibly corrupted)."
  | .json _ => .error "Resume log is not a JSON object."

/-- `re.sub(r"[^A-Za-z0-9._-]", "_", account)` inside the name of the log. -/
def logNameFor (account : Option String) : String :=
  match truthy account with
  | some a =>
    let safe := a.toList.map fun c => if isIdChar c || c = '.' then c else '_'
    logPrefix ++ "." ++ String.ofList safe ++ logSuffix
  | none => logPrefix ++ logSuffix

/-- A name the resume store uses for its own files. -/
def isStoreName (name : String) : Bool := startsWith name logPrefix || name = failedReportName

/-! ## Round trip -/

/-- Two states with the same data; the order of a dictionary is immaterial. -/
structure ResumeState.Same (s t : ResumeState) : Prop where
  account : t.account = s.account
  sourceRootId : t.sourceRootId = s.sourceRootId
  destRootId : t.destRootId = s.destRootId
  runId : t.runId = s.runId
  copiedIds : t.copiedIds = s.copiedIds
  folderMap : ∀ k, AList.lookup k t.folderMap = AList.lookup k s.folderMap
  completedFolders : t.completedFolders = s.completedFolders
  failedItems : t.failedItems = s.failedItems
  copiedBytes : t.copiedBytes = s.copiedBytes

theorem lookup_foldl_insert (es : List (String × String)) (d : Dict String) (k : String)
    (hn : (es.map Prod.fst).Nodup) :
    AList.lookup k (es.foldl (fun d e => AList.insert e.1 e.2 d) d) =
      ((es.find? fun e => e.1 = k).map Prod.snd).or (AList.lookup k d) := by
  induction es generalizing d with
  | nil => simp
  | cons e es ih =>
    rw [List.map_cons, List.nodup_cons] at hn
    rw [List.foldl_cons, ih _ hn.2, List.find?_cons]
    by_cases h : e.1 = k
    · have hnone : es.find? (fun e => e.1 = k) = none := by
        rw [List.find?_eq_none]
        intro x hx hk
        have hxk : x.1 = k := by simpa using hk
        exact hn.1 (h ▸ hxk ▸ List.mem_map_of_mem hx)
      subst h
      simp [hnone, AList.lookup_insert]
    · simp [h, AList.lookup_insert_ne (fun hk => h hk.symm)]

theorem folderMapJson_isTrue (d : Dict String) (h : (folderMapJson d).isTrue = false) :
    ∀ k, AList.lookup k d = none := by
  have hnil : d.entries = [] := by
    simp only [folderMapJson, Json.isTrue, Bool.not_eq_false', List.isEmpty_iff,
      List.map_eq_nil_iff] at h
    have hl := congrArg List.length h
    rw [List.length_insertionSort, List.length_map] at hl
    exact List.length_eq_zero_iff.mp hl
  intro k
  rw [AList.lookup_eq_none, AList.mem_keys, AList.keys, hnil]
  simp

/-- Reading back the folder map finds the same folders. -/
theorem toDict?_folderMapJson (d : Dict String) :
    ∃ e, Json.toDict? (folderMapJson d) = some e ∧ ∀ k, AList.lookup k e = AList.lookup k d := by
  refine ⟨_, Json.toDict?_obj _, fun k => ?_⟩
  have hperm := List.perm_insertionSort (fun a b : String × String => a.1 ≤ b.1)
    (d.entries.map fun e => (e.1, e.2))
  have hkeys : (d.entries.map fun e => (e.1, e.2)).map Prod.fst = d.keys := by
    simp [AList.keys, List.keys, Function.comp_def]
  have hnodup : ((d.entries.map fun e => (e.1, e.2)).map Prod.fst).Nodup := by
    rw [hkeys]
    exact d.keys_nodup
  rw [lookup_foldl_insert _ _ _ ((hperm.map Prod.fst).nodup_iff.mpr hnodup), AList.lookup_empty,
    Option.or_none]
  cases hk : AList.lookup k d with
  | none =>
    have hnone : ∀ v, (⟨k, v⟩ : Sigma fun _ : String => String) ∉ d.entries := by
      intro v hv
      rw [AList.mem_lookup_iff.mpr hv] at hk
      cases hk
    rw [Option.map_eq_none_iff, List.find?_eq_none]
    rintro ⟨k', v⟩ hx hkk
    obtain ⟨⟨a, b⟩, hab, heq⟩ := List.mem_map.mp (hperm.mem_iff.mp hx)
    simp only [Prod.mk.injEq] at heq
    simp only [decide_eq_true_eq] at hkk
    obtain ⟨rfl, rfl⟩ := heq
    subst hkk
    exact hnone _ hab
  | some v =>
    have hmem : (k, v) ∈ (d.entries.map fun e => (e.1, e.2)).insertionSort
        (fun a b => a.1 ≤ b.1) :=
      hperm.mem_iff.mpr (List.mem_map.mpr ⟨⟨k, v⟩, AList.mem_lookup_iff.mp hk, rfl⟩)
    have hfound : (((d.entries.map fun e => (e.1, e.2)).insertionSort
        (fun a b : String × String => a.1 ≤ b.1)).find? fun e => e.1 = k).isSome := by
      rw [List.find?_isSome]
      exact ⟨(k, v), hmem, by simp⟩
    obtain ⟨x, hx⟩ := Option.isSome_iff_exists.mp hfound
    rw [hx, Option.map_some]
    have hxk : x.1 = k := by simpa using List.find?_some hx
    obtain ⟨⟨a, b⟩, hab, heq⟩ := List.mem_map.mp (hperm.mem_iff.mp (List.mem_of_find?_eq_some hx))
    have hb : AList.lookup k d = some b := by
      apply AList.mem_lookup_iff.mpr
      rw [← hxk, ← heq]
      exact hab
    rw [← heq, ← hk, hb]

theorem optString_ofOption (o : Option String) : (Json.ofOption o).asString = o := by
  cases o <;> rfl

/-- A list read as `x or []`. -/
theorem readOr_list {α : Type} {data : List (String × Json)} {key : String} {l : List Json}
    {conv : Json → Option (List α)} {xs : List α} (hf : Json.field data key = some (.arr l))
    (hc : conv (.arr l) = some xs) (hnil : l = [] → xs = []) :
    readOr data key [] conv = .ok xs := by
  unfold readOr
  rw [hf]
  cases l with
  | nil => simp [Json.isTrue, hnil rfl]
  | cons x l => simp [Json.isTrue, hc]

/-- What is read back from a log written from a state: the state with a folder map that
finds the same folders, and the time of reading where a time was missing. -/
theorem deserialize_serialize_eq (now : String) (s : ResumeState) :
    ∃ m : Dict String, (∀ k, AList.lookup k m = AList.lookup k s.folderMap) ∧
      deserialize sha256 now (serialize sha256 s) = .ok
        { s with
          schemaVersion := currentSchemaVersion
          folderMap := m
          createdAt := orElse (some s.createdAt) now
          updatedAt := orElse (some s.updatedAt) now } := by
  obtain ⟨e, he, hlookup⟩ := toDict?_folderMapJson s.folderMap
  obtain ⟨m, hm, hmlookup⟩ : ∃ m, readOr (canonicalPayload s ++
      [("integrity", Json.str (computeIntegrity sha256 (canonicalPayload s)))]) "folder_map" ∅
      Json.toDict? = .ok m ∧ ∀ k, AList.lookup k m = AList.lookup k s.folderMap := by
    have hf : Json.field (canonicalPayload s ++
        [("integrity", Json.str (computeIntegrity sha256 (canonicalPayload s)))]) "folder_map" =
        some (folderMapJson s.folderMap) := by simp [Json.field, canonicalPayload]
    unfold readOr
    rw [hf]
    cases htrue : (folderMapJson s.folderMap).isTrue with
    | true => exact ⟨e, by simp [htrue, he], hlookup⟩
    | false =>
      exact ⟨∅, by simp [htrue], fun k => by
        rw [folderMapJson_isTrue _ htrue k, AList.lookup_empty]⟩
  generalize hraw : canonicalPayload s ++
    [("integrity", Json.str (computeIntegrity sha256 (canonicalPayload s)))] = raw at hm
  have hhash : computeIntegrity sha256 raw = computeIntegrity sha256 (canonicalPayload s) := by
    rw [← hraw]
    simp [computeIntegrity, canonicalPayload]
  have hmigrate : migrate raw = .ok raw := by
    rw [← hraw]
    simp [migrate, canonicalPayload, Json.field, Json.isTrue, Json.toInt?, currentSchemaVersion,
      setField, pure, Except.pure, bind, Except.bind]
  have hcopied : readOr raw "copied_file_ids" [] Json.toStrings? = .ok (sorted s.copiedIds) := by
    refine readOr_list ?_ (Json.toStrings?_strings _) (fun h => List.map_eq_nil_iff.mp h)
    rw [← hraw]
    simp [Json.field, canonicalPayload, Json.strings]
  have hcompleted : readOr raw "completed_folder_ids" [] Json.toStrings? =
      .ok (sorted s.completedFolders) := by
    refine readOr_list ?_ (Json.toStrings?_strings _) (fun h => List.map_eq_nil_iff.mp h)
    rw [← hraw]
    simp [Json.field, canonicalPayload, Json.strings]
  have hfailed : readOr raw "failed_items" [] (fun v => match v with
      | .arr l => l.mapM (FailedItem.fromDict? now)
      | _ => none) = .ok s.failedItems := by
    refine readOr_list ?_ (FailedItem.mapM_fromDict?_toDict now _)
      (fun h => List.map_eq_nil_iff.mp h)
    rw [← hraw]
    simp [Json.field, canonicalPayload]
  have hbytes : readOr raw "copied_bytes" 0 Json.toInt? = .ok s.copiedBytes := by
    rw [← hraw]
    by_cases h : s.copiedBytes = 0 <;>
      simp [readOr, Json.field, canonicalPayload, Json.isTrue, Json.toInt?, h]
  have htext (key : String) (v : Option String)
      (h : Json.field raw key = some (.ofOption v)) : Json.optString raw key = v := by
    rw [Json.optString, h, Option.bind_some, optString_ofOption]
  have haccount : Json.optString raw "account" = s.account :=
    htext _ _ (by rw [← hraw]; simp [Json.field, canonicalPayload])
  have hsource : Json.optString raw "source_root_id" = s.sourceRootId :=
    htext _ _ (by rw [← hraw]; simp [Json.field, canonicalPayload])
  have hdest : Json.optString raw "dest_root_id" = s.destRootId :=
    htext _ _ (by rw [← hraw]; simp [Json.field, canonicalPayload])
  have hrun : Json.optString raw "run_id" = s.runId :=
    htext _ _ (by rw [← hraw]; simp [Json.field, canonicalPayload])
  have hcreated : Json.optString raw "created_at" = some s.createdAt :=
    htext _ (some s.createdAt) (by rw [← hraw]; simp [Json.field, canonicalPayload, Json.ofOption])
  have hupdated : Json.optString raw "updated_at" = some s.updatedAt :=
    htext _ (some s.updatedAt) (by rw [← hraw]; simp [Json.field, canonicalPayload, Json.ofOption])
  have hkey : (Json.field raw "copied_file_ids").isSome = true := by
    rw [← hraw]
    simp [Json.field, canonicalPayload]
  have hint : Json.field raw "integrity" =
      some (.str (computeIntegrity sha256 (canonicalPayload s))) := by
    rw [← hraw]
    simp [Json.field, canonicalPayload]
  have hdes : deserialize sha256 now (serialize sha256 s) = readState now raw := by
    simp only [serialize, deserialize, hraw, hint, Json.asString, hhash, if_true, hmigrate]
    rfl
  refine ⟨m, hmlookup, ?_⟩
  rw [hdes]
  simp only [readState, hkey, if_true, hcopied, hfailed, hm, hcompleted, hbytes, haccount, hsource,
    hdest, hrun, hcreated, hupdated, toFinset_sorted, bind, Except.bind, pure, Except.pure]

/-- A log written from a state is read back as that state. -/
theorem deserialize_serialize (now : String) (s : ResumeState) :
    ∃ t, deserialize sha256 now (serialize sha256 s) = .ok t ∧ s.Same t := by
  obtain ⟨m, hm, hread⟩ := deserialize_serialize_eq sha256 now s
  exact ⟨_, hread, ⟨rfl, rfl, rfl, rfl, rfl, hm, rfl, rfl, rfl⟩⟩

/-- A state of the current schema with both of its times is read back as it was written;
its folder map is the same dictionary, whose order is immaterial. -/
theorem resume_log_round_trip (now : String) {s : ResumeState}
    (hschema : s.schemaVersion = currentSchemaVersion) (hcreated : s.createdAt ≠ "")
    (hupdated : s.updatedAt ≠ "") :
    ∃ t, deserialize sha256 now (serialize sha256 s) = .ok t ∧
      t = { s with folderMap := t.folderMap } ∧
      ∀ k, AList.lookup k t.folderMap = AList.lookup k s.folderMap := by
  obtain ⟨m, hm, hread⟩ := deserialize_serialize_eq sha256 now s
  refine ⟨_, hread, ?_, hm⟩
  rw [orElse_some hcreated, orElse_some hupdated, ← hschema]

/-- A log with a failed item some of whose fields are missing. -/
theorem resume_log_round_trip_failed :
    let s : ResumeState :=
      { account := some "me@example.com", copiedIds := {"b", "a"}, failedItems :=
          [⟨"a", "a.txt", "", "copyFailed", "", "2024-01-01T00:00:00", none, none, none, some "a"⟩]
        createdAt := "2024-01-01T00:00:00", updatedAt := "2024-01-02T00:00:00" }
    ∃ t, deserialize (fun _ => "hash") "" (serialize (fun _ => "hash") s) = .ok t ∧
      t = { s with folderMap := t.folderMap } ∧
      ∀ k, AList.lookup k t.folderMap = AList.lookup k s.folderMap :=
  resume_log_round_trip _ "" rfl (by decide) (by decide)

end TurboCopy
