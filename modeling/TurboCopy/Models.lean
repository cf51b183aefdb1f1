import TurboCopy.Python

/-!
# Records, constants and configuration

The dataclasses and enums of `models.py`. A Drive response is an `ApiFile`: a
field the response leaves out has the value `DriveFile.from_api` reads in its
place. Sizes in gigabytes and rates are exact rationals.
-/

namespace TurboCopy

def folderMime : String := "application/vnd.google-apps.folder"
def shortcutMime : String := "application/vnd.google-apps.shortcut"
def googleNativePrefix : String := "application/vnd.google-apps."
def toolTag : String := "GDrive_Turbo_Copy"
def gib : ℚ := 1024 ^ 3
def maxWorkers : ℤ := 16
def maxSingleFileCopyGb : ℚ := 750
def rateLimitStopThreshold : ℕ := 8
def appPropMaxEntryBytes : ℕ := 124
def appPropMaxEntries : ℕ := 30

inductive VerifyMode
  | checksum
  | nameSize
  | nameOnly
deriving DecidableEq

inductive ErrorClass
  | transient
  | fatalQuota
  | fatalPermission
  | fatalOther
deriving DecidableEq

/-- The fields of a file resource that a request can ask for. -/
inductive ApiField
  | id | name | mimeType | size | md5Checksum | shortcutDetails | appProperties | trashed
  | modifiedTime | createdTime | description | parents | capabilities
deriving DecidableEq

/-- A file resource as the API returns it. -/
structure ApiFile where
  id : String
  name : String := ""
  mimeType : String := ""
  size : Option String := none
  md5Checksum : Option String := none
  shortcutTarget : Option String := none
  appProperties : Dict String := ∅
  trashed : Bool := false
  modifiedTime : Option String := none
  createdTime : Option String := none
  description : Option String := none
  parents : List String := []
  canAddChildren : Option Bool := none
deriving DecidableEq

structure DriveFile where
  id : String
  name : String
  mimeType : String
  size : Option ℤ := none
  md5 : Option String := none
  shortcutTargetId : Option String := none
  appProperties : Dict String := ∅
  trashed : Bool := false
  modifiedTime : Option String := none
  createdTime : Option String := none
  description : Option String := none
deriving DecidableEq

namespace DriveFile

def isFolder (f : DriveFile) : Bool := f.mimeType = folderMime

def isShortcut (f : DriveFile) : Bool := f.mimeType = shortcutMime

def isGoogleNative (f : DriveFile) : Bool :=
  startsWith f.mimeType googleNativePrefix && !f.isFolder && !f.isShortcut

def fromApi (data : ApiFile) : DriveFile where
  id := data.id
  name := data.name
  mimeType := data.mimeType
  size := data.size.bind parseInt
  md5 := data.md5Checksum
  shortcutTargetId := data.shortcutTarget
  appProperties := data.appProperties
  trashed := data.trashed
  modifiedTime := data.modifiedTime
  createdTime := data.createdTime
  description := data.description

/-- `size or 0`. -/
def bytes (f : DriveFile) : ℤ := f.size.getD 0

theorem not_isFolder_of_isShortcut {f : DriveFile} (h : f.isShortcut = true) :
    f.isFolder = false := by
  simp only [isShortcut, decide_eq_true_eq] at h
  simp only [isFolder, h]
  decide

theorem not_isShortcut_of_isFolder {f : DriveFile} (h : f.isFolder = true) :
    f.isShortcut = false := by
  simp only [isFolder, decide_eq_true_eq] at h
  simp only [isShortcut, h]
  decide

end DriveFile

structure CopyConfig where
  sourceLink : String
  destLink : String
  workers : ℤ := 4
  maxCopySizeGb : ℚ := 730
  verifyMode : VerifyMode := .checksum
  excludeSubstrings : List String := []
  dryRun : Bool := false
  fromPage : ℤ := 0
  toPage : ℤ := 0
  allowNameOnly : Bool := false
  maxTps : ℚ := 10
  preserveMetadata : Bool := true
  ignoreDefaultVisibility : Bool := false
  keepRevisionForever : Bool := false
  fastList : Bool := false
  skipCompletedFolders : Bool := false

/-! ## Links -/

def isIdChar (c : Char) : Bool :=
  c.isAlpha || c.isDigit || c = '_' || c = '-'

/-- Leftmost match of `front([A-Za-z0-9_-]{least,})`, as the group it captures. -/
def searchId (front : List Char) (least : ℕ) : List Char → Option String
  | [] => none
  | c :: cs =>
    let run := ((c :: cs).drop front.length).takeWhile isIdChar
    if front.isPrefixOf (c :: cs) && least ≤ run.length then some (String.ofList run)
    else searchId front least cs

def extractFolderId (url : String) : Option String :=
  let cs := (strip url).toList
  (searchId "folders/".toList 10 cs).orElse fun _ =>
    (searchId "id=".toList 10 cs).orElse fun _ =>
      (searchId "/d/".toList 10 cs).orElse fun _ => searchId [] 25 cs

/-- The texts of `CopyConfig.validate`. `showFloat` is Python's `str` on floats. -/
def CopyConfig.validate (showFloat : ℚ → String) (c : CopyConfig) : List String :=
  let link (l empty invalid : String) : List String :=
    if strip l = "" then [empty] else if (extractFolderId l).isNone then [invalid] else []
  link c.sourceLink "Source link must not be empty."
      "Source link is invalid (no folder id found)." ++
  link c.destLink "Destination link must not be empty."
      "Destination link is invalid (no folder id found)." ++
  (if 1 ≤ c.workers ∧ c.workers ≤ maxWorkers then [] else
    [s!"workers must be between 1 and {maxWorkers} (got {c.workers})."]) ++
  (if c.maxCopySizeGb < 0 then
    [s!"max_copy_size_gb must be >= 0 (got {showFloat c.maxCopySizeGb})."] else []) ++
  (if c.maxTps < 0 then [s!"max_tps must be >= 0 (got {showFloat c.maxTps})."] else []) ++
  (if c.fromPage < 0 then [s!"from_page must be >= 0 (got {c.fromPage})."] else []) ++
  (if c.toPage < 0 then [s!"to_page must be >= 0 (got {c.toPage})."] else []) ++
  (if c.fromPage ≠ 0 ∧ c.toPage ≠ 0 ∧ c.toPage < c.fromPage then
    [s!"from_page ({c.fromPage}) must be <= to_page ({c.toPage})."] else [])

/-! ## Results -/

structure FailedItem where
  sourceId : String
  name : String
  mimeType : String
  reason : String
  errorMessage : String
  timestamp : String
  parentSourceId : Option String := none
  shortcutTargetId : Option String := none
  sourceShortcutId : Option String := none
  effectiveSourceId : Option String := none
deriving DecidableEq

structure CopyResult where
  copiedCount : ℕ := 0
  skippedCount : ℕ := 0
  skippedCompleteFolders : ℕ := 0
  failedItems : List FailedItem := []
  previousFailedItems : List FailedItem := []
  wouldCopyCount : ℕ := 0
  wouldCopyBytes : ℤ := 0
  copiedBytes : ℤ := 0
  hadListingErrors : Bool := false
  completed : Bool := false
  stopReason : Option String := none
  dryRun : Bool := false
  logSaveFailed : Bool := false
  logSaveError : Option String := none

def CopyResult.hasFailures (r : CopyResult) : Bool :=
  !(r.failedItems.isEmpty && r.previousFailedItems.isEmpty)

def CopyResult.fullyOk (r : CopyResult) : Bool :=
  r.completed && !r.hasFailures && !r.hadListingErrors && !r.dryRun && !r.logSaveFailed

/-! ## Errors -/

/-- The JSON body of an HTTP error: the `reason` and `message` of each entry of
`error.errors`, and the `message` and `status` of `error` itself. -/
structure ErrorBody where
  errors : List (Option String × Option String) := []
  message : Option String := none
  status : Option String := none
deriving DecidableEq

/-- An exception a client call raises: its text, the status of its response when
there is one, and its body when it parses. -/
structure ApiError where
  text : String
  status : Option ℤ := none
  content : Option ErrorBody := none
deriving DecidableEq

/-- The exceptions the engine raises or lets through. -/
inductive Exc
  | quotaStopped (reason : Option String)
  | runtimeError (message : String)
  | valueError (message : String)
  | client (error : ApiError)
deriving DecidableEq

def Exc.text : Exc → String
  | quotaStopped reason => reason.getD "None"
  | runtimeError message => message
  | valueError message => message
  | client error => error.text

/-- A tag that Drive takes as a private property. -/
def TagFits (key value : String) : Prop :=
  key.utf8ByteSize + value.utf8ByteSize ≤ appPropMaxEntryBytes

instance (key value : String) : Decidable (TagFits key value) :=
  inferInstanceAs (Decidable (_ ≤ _))

/-- `validate_app_properties`: the limits Drive documents for private properties. -/
def validateAppProperties (props : Dict String) : Except Exc Unit :=
  if appPropMaxEntries < props.entries.length then
    .error (.valueError s!"appProperties has {props.entries.length} entries (>{appPropMaxEntries}).")
  else
    -- A new entry of an `AList` stands first: the dict is walked from the oldest entry on.
    match props.entries.reverse.find? fun e =>
      appPropMaxEntryBytes < e.1.utf8ByteSize + e.2.utf8ByteSize with
    | some e => .error (.valueError (s!"appProperties entry '{e.1}' is " ++
        s!"{e.1.utf8ByteSize + e.2.utf8ByteSize} bytes (>{appPropMaxEntryBytes})."))
    | none => .ok ()

theorem validateAppProperties_error {props : Dict String} {e : Exc}
    (h : validateAppProperties props = .error e) : ∃ message, e = .valueError message := by
  unfold validateAppProperties at h
  split_ifs at h
  · cases h
    exact ⟨_, rfl⟩
  · split at h
    · cases h
      exact ⟨_, rfl⟩
    · cases h

/-- At most `n` tags that Drive takes. -/
structure TagsFit (n : ℕ) (props : Dict String) : Prop where
  few : props.entries.length ≤ n
  fit : ∀ e ∈ props.entries, TagFits e.1 e.2

theorem TagsFit.insert {n : ℕ} {props : Dict String} {key value : String} (h : TagsFit n props)
    (hfit : TagFits key value) : TagsFit (n + 1) (AList.insert key value props) := by
  have hkept : (props.entries.kerase key).Sublist props.entries := List.kerase_sublist ..
  constructor
  · rw [AList.entries_insert, List.length_cons]
    have hlen := hkept.length_le
    have hfew := h.few
    omega
  · intro e he
    rw [AList.entries_insert] at he
    rcases List.mem_cons.mp he with rfl | he
    · exact hfit
    · exact h.fit e (hkept.subset he)

end TurboCopy
