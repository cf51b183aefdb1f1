import TurboCopy.Copier.Memory

/-!
# The resume store and saving the log

`ResumeStore` of `resume_store.py` and the engine's `_save_log`, `_maybe_flush`,
`_record_failed` and `_reconcile_failed`. A loop over pages carries what it has
gathered and the token of the next page.
-/

namespace TurboCopy

open CopierM

/-- A `Copier` with what it takes from its surroundings: the hash of a canonical
JSON text and Python's text of a float. -/
structure Copier where
  config : CopyConfig
  runId : String
  sha256 : Json → String
  showFloat : ℚ → String

/-- The app properties of a file of the resume store. -/
def toolProps : Dict String := AList.insert "copied_by_tool" toolTag ∅

def isOwned (f : ApiFile) : Bool := AList.lookup "copied_by_tool" f.appProperties = some toolTag

/-- Gather something from all pages of a listing. -/
def pages {β : Type} (list : Option PageToken → CopierM Page) (add : β → List ApiFile → β)
    (init : β) : CopierM β :=
  iterate (fun s : β × Option PageToken => do
    let page ← list s.2
    match page.2 with
    | none => pure (.inr (add s.1 page.1))
    | some t => pure (.inl (add s.1 page.1, some t))) (init, none)

def listPage (parent : String) (token : Option PageToken) : CopierM Page := do
  orThrow (← ask (.listChildren parent none token))

def listLogFiles (parent : String) : CopierM (List ApiFile) :=
  pages (listPage parent) (fun out files => out ++ files.filter fun f => startsWith f.name logPrefix)
    []

namespace Copier

variable (cp : Copier)

/-! ## Loading -/

/-- The body of the merge loop of `load`. -/
def mergeLog (account : Option String) (merged : ResumeState) (entry : ApiFile)
    (state : ResumeState) : ResumeState :=
  let merged := { merged with
    copiedIds := merged.copiedIds ∪ state.copiedIds
    folderMap := state.folderMap.entries.foldl (fun d e => Dict.setdefault d e.1 e.2)
      merged.folderMap
    completedFolders := merged.completedFolders ∪ state.completedFolders
    failedItems := merged.failedItems ++ state.failedItems }
  if entry.name = logNameFor account then
    { merged with
      runId := state.runId
      copiedBytes := state.copiedBytes
      createdAt := state.createdAt
      sourceRootId := (truthy state.sourceRootId).orElse fun _ => merged.sourceRootId }
  else merged

def loadLog (entry : ApiFile) : CopierM ResumeState := do
  let unreadable (text : String) : Exc := .runtimeError
    (s!"Could not read resume log {entry.name}: {text}. " ++
      "Pass ignore_broken=True to skip it.")
  match ← ask (.getMedia entry.id) with
  | .error e => throw (unreadable e.text)
  | .ok raw =>
    let now ← ask .nowIso
    match deserialize cp.sha256 now raw with
    | .error text => throw (unreadable text)
    | .ok state => pure state

/-- Remember the log of this account as the one to overwrite. -/
def claimLog (account : Option String) (entry : ApiFile) : CopierM Unit :=
  if entry.name = logNameFor account then mem (.setOwnLog (some entry.id)) else pure ()

def loadLogs (account : Option String) : List ApiFile → ResumeState → CopierM ResumeState
  | [], merged => pure merged
  | entry :: rest, merged => do
    let state ← cp.loadLog entry
    claimLog account entry
    loadLogs account rest (mergeLog account merged entry state)

/-- `ResumeStore.load` with its default arguments. -/
def load (parent : String) (account : Option String) : CopierM ResumeState := do
  mem (.setOwnLogName (logNameFor account))
  let created ← ask .nowIso
  let updated ← ask .nowIso
  let merged : ResumeState :=
    { account := account, destRootId := some parent, createdAt := created, updatedAt := updated }
  match ← attempt (listLogFiles parent) with
  | .error e => throw (.runtimeError
      (s!"Could not list resume logs ({e.text}); stopping to avoid duplicate copies. " ++
        "Pass start_fresh=True to ignore."))
  | .ok files => cp.loadLogs account files merged

/-! ## Saving -/

/-- `ResumeStore.save`. -/
def save : CopierM Unit := do
  let now ← ask .nowIso
  let state ← mem (.snapshot now)
  let data := serialize cp.sha256 state
  let own ← mem .ownLog
  match truthy own.1 with
  | some id => orThrow (← ask (.updateFileContent id data))
  | none =>
    let name := orElse own.2 (logNameFor state.account)
    let created ← orThrow (← ask (.createJsonFile name (state.destRootId.getD "") data toolProps))
    mem (.setOwnLog created)

def saveLog (force : Bool) : CopierM Unit := do
  if cp.config.dryRun then pure ()
  else if (truthy (← mem .destRoot)).isNone then pure ()
  else if ← mem (.beginSave force) then
    match ← attempt cp.save with
    | .ok () => pure ()
    | .error e => mem (.logSaveFailed e.text)
  else pure ()

def maybeFlush : CopierM Unit := do
  if cp.config.dryRun then pure ()
  else if ← mem .flushDue then cp.saveLog false
  else pure ()

/-! ## Reports and cleanup -/

def reportContent (now : String) (failed : List FailedItem) : Content :=
  .json (.obj [("generated_at", .str now), ("total_failed", .int failed.length),
    ("items", .arr (failed.map FailedItem.toDict))])

/-- `_find_owned`: the first file of the listing with this name and the tool's tag. -/
def findOwned (parent name : String) : CopierM (Option String) :=
  iterate (fun token => do
    let page ← listPage parent token
    match page.1.find? fun f => f.name = name && isOwned f with
    | some f => pure (.inr (some f.id))
    | none =>
      match page.2 with
      | none => pure (.inr none)
      | some t => pure (.inl (some t))) none

def exportFailedReport (parent : String) (failed : List FailedItem) : CopierM Unit := do
  if failed.isEmpty || parent = "" then pure ()
  else
    let now ← ask .nowIso
    let data := reportContent now failed
    match truthy (← findOwned parent failedReportName) with
    | some id => orThrow (← ask (.updateFileContent id data))
    | none =>
      let _ ← orThrow (← ask (.createJsonFile failedReportName parent data toolProps))
      pure ()

/-- Trash a file of the store; a failure to do so is ignored. -/
def trashIfOwned (f : ApiFile) : CopierM Unit := do
  if isOwned f && isStoreName f.name then
    let _ ← ask (.trashFile f.id)
    pure ()
  else pure ()

def trashOwned : List ApiFile → CopierM Unit
  | [] => pure ()
  | f :: rest => do
    trashIfOwned f
    trashOwned rest

def cleanup (parent : String) : CopierM Unit :=
  iterate (fun token => do
    let page ← listPage parent token
    trashOwned page.1
    match page.2 with
    | none => pure (.inr ())
    | some t => pure (.inl (some t))) none

/-! ## Failures -/

def recordFailed (src : DriveFile) (reason message : String) (parentSourceId : Option String)
    (shortcutTargetId sourceShortcutId effectiveSourceId : Option String) : CopierM Unit := do
  let now ← ask .nowIso
  mem (.recordFailed
    { sourceId := src.id, name := src.name, mimeType := src.mimeType, reason := reason
      errorMessage := message, timestamp := now, parentSourceId := parentSourceId
      shortcutTargetId := shortcutTargetId, sourceShortcutId := sourceShortcutId
      effectiveSourceId := effectiveSourceId })

def reconcileFailed (effId : String) (src : DriveFile) : CopierM Unit := do
  if ← mem .hasPrevious then
    mem (.reconcile ([effId, src.id].filter fun k => k ≠ ""))
  else pure ()

/-- If the error is a fatal quota error, stop the run and raise `QuotaStopped`. -/
def raiseIfFatalQuota (e : ApiError) (context : String) : CopierM Unit := do
  if e.isFatalQuota then
    let (reason, message, _) := parseHttpError e
    let shown := orElse (some reason) "quotaExceeded"
    let text := s!"Daily Drive copy/upload quota hit while {context}: " ++
      s!"{shown} — {message}. Re-run after the quota resets " ++
      "(~24h); the resume log preserves progress."
    mem (.setStopReason text)
    mem .setStop
    if (truthy (← mem .destRoot)).isSome && !cp.config.dryRun then cp.saveLog true
    throw (.quotaStopped (some text))
  else pure ()

end Copier
end TurboCopy
