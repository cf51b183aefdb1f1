import TurboCopy.Copier.Folders

/-!
# The traversal and the run

`_process_level` in both traversals, `run` and `_finalize`, and the system in which
a run takes place: the copier's memory next to a Drive, with `request_stop` as the
environment's step.
-/

namespace TurboCopy

open CopierM Threads

namespace Copier

variable (cp : Copier)

/-! ## One level, the default traversal -/

def inaccessibleShortcut (src : DriveFile) (parentSourceId : String) : CopierM Unit :=
  recordFailed src "cannotAccessShortcutTarget" "Shortcut target is inaccessible."
    (some parentSourceId) src.shortcutTargetId (some src.id) (some src.id)

/-- The folder of a level or a shortcut in it could not be created. -/
def createFolderFailed (folder : DriveFile) (message parentSourceId : String)
    (shortcutId : Option String) : CopierM Unit :=
  recordFailed folder "createFolderFailed" message (some parentSourceId) none shortcutId
    (some (orElse shortcutId folder.id))

/-- `_get_or_create_folder` for a folder of a level; `none` when it failed and the
failure is recorded. -/
def enterFolder (l : Level) (folder : DriveFile) (shortcutId : Option String) :
    CopierM (Option (Option String)) := do
  match ← attempt (cp.getOrCreateFolder l.dest folder.name folder.id shortcutId) with
  | .ok dest => pure (some dest)
  | .error (.runtimeError message) =>
    createFolderFailed folder message l.parentSourceId shortcutId
    pure none
  | .error e => throw e

/-- Whether `_copy_folder` may ask for completed folders at all. -/
def mayBeComplete (shortcutId : Option String) : Bool :=
  cp.config.skipCompletedFolders && shortcutId.isNone

def skipCompleted (l : Level) (folder : DriveFile) (shortcutId : Option String) :
    CopierM Bool := do
  if cp.mayBeComplete shortcutId then
    if ← mem (.isCompleted l.dest folder.id) then
      mem .skipFolder
      pure true
    else pure false
  else pure false

/-- The level of a subfolder. -/
def Level.below (l : Level) (folderId : String) (dest : Option String)
    (children : List DriveFile) : Level where
  dest := dest
  children := children
  visited := insert folderId l.visited
  parentSourceId := folderId

/-- Whether `_process_level` is called for a subfolder. -/
def descends (dest : Option String) (children : List DriveFile) : Bool :=
  !children.isEmpty && ((truthy dest).isSome || cp.config.dryRun)

/-- The recursive call of a subfolder, when there is something to process. -/
def descend (l : Level) (folderId : String) (dest : Option String) (children : List DriveFile) :
    CopierM Unit :=
  if cp.descends dest children then enter (Level.below l folderId dest children) else pure ()

/-- `_copy_folder`. -/
def copyFolder (l : Level) (folder : DriveFile) (shortcutId : Option String) : CopierM Unit := do
  if folder.id ∈ l.visited then pure ()
  else if ← cp.skipCompleted l folder shortcutId then pure ()
  else
    match ← cp.enterFolder l folder shortcutId with
    | none => pure ()
    | some dest =>
      let children ← cp.listChildren folder.id 0 0 folder.id
      cp.recordTreeNode folder.id children
      cp.descend l folder.id dest children

/-- `_handle_container`. -/
def handleContainer (l : Level) (index : ℕ) (src : DriveFile) : CopierM Unit := do
  if src.isShortcut then
    match ← resolveShortcut src with
    | none => inaccessibleShortcut src l.parentSourceId
    | some target =>
      if target.isFolder then cp.copyFolder l target (some src.id)
      else cp.copyFile l.dest target index l.parentSourceId (some src.id)
  else cp.copyFolder l src none

def processChild (l : Level) (index : ℕ) (src : DriveFile) : CopierM Unit :=
  if src.isFolder || src.isShortcut then cp.handleContainer l index src
  else cp.submitFile l.dest src index l.parentSourceId

/-- The loop over the children. -/
def processChildren (l : Level) (index : ℕ) : List DriveFile → CopierM Unit
  | [] => pure ()
  | src :: rest => do
    if ← mem .stopIsSet then pure ()
    else
      cp.processChild l index src
      processChildren l index rest

/-! ## One level, the fast-list traversal -/

/-- A subfolder whose listing is pending: the source folder and its destination. -/
abbrev Pending := DriveFile × Option String

/-- `_enqueue_folder`. -/
def enqueueFolder (l : Level) (folder : DriveFile) (shortcutId : Option String)
    (pending : List Pending) : CopierM (List Pending) := do
  if folder.id ∈ l.visited then pure pending
  else
    match ← cp.enterFolder l folder shortcutId with
    | none => pure pending
    | some dest => pure (pending ++ [(folder, dest)])

def enqueueChild (l : Level) (index : ℕ) (src : DriveFile) (pending : List Pending) :
    CopierM (List Pending) := do
  if src.isShortcut then
    match ← resolveShortcut src with
    | none =>
      inaccessibleShortcut src l.parentSourceId
      pure pending
    | some target =>
      if target.isFolder then cp.enqueueFolder l target (some src.id) pending
      else
        cp.copyFile l.dest target index l.parentSourceId (some src.id)
        pure pending
  else if src.isFolder then cp.enqueueFolder l src none pending
  else
    cp.submitFile l.dest src index l.parentSourceId
    pure pending

/-- The loop over the children in the fast traversal. -/
def enqueueChildren (l : Level) (index : ℕ) :
    List DriveFile → List Pending → CopierM (List Pending)
  | [], pending => pure pending
  | src :: rest, pending => do
    if ← mem .stopIsSet then pure pending
    else
      let pending ← cp.enqueueChild l index src pending
      enqueueChildren l index rest pending

/-- The children found per folder. -/
abbrev ChildMap := Dict (List DriveFile)

/-- Hand a page to the folders of a group that are parents of its files. -/
def addPage (group : List String) (out : ChildMap) (files : List ApiFile) : ChildMap :=
  files.foldl (fun out f => f.parents.foldl (fun out pid =>
    if pid ∈ group then
      AList.insert pid ((AList.lookup pid out).getD [] ++ [DriveFile.fromApi f]) out
    else out) out) out

def emptyMap (group : List String) : ChildMap :=
  group.foldl (fun out pid => AList.insert pid [] out) ∅

/-- `_list_multi_pages`. -/
def listMultiPages (group : List String) : CopierM ChildMap :=
  pages (fun token => do
      orThrow (← ask (.listChildrenMulti group cp.config.excludeSubstrings token)))
    (addPage group) (emptyMap group)

/-- The batch of a group; `none` when its listing failed. -/
def listBatch (group : List String) : CopierM (Option ChildMap) := do
  match ← attempt (cp.listMultiPages group) with
  | .ok batched => pure (some batched)
  | .error (.client e) =>
    cp.raiseIfFatalQuota e "fast-list listing"
    pure none
  | .error e => throw e

/-- What the batch found for a folder, unless the folder has to be listed by itself. -/
def batchedChildren (group : List String) (batched : Option ChildMap) (folderId : String) :
    List DriveFile :=
  match batched with
  | none => []
  | some out =>
    if 1 < group.length && group.all fun pid => ((AList.lookup pid out).getD []).isEmpty then []
    else (AList.lookup folderId out).getD []

/-- List a folder by itself where the batch found nothing. -/
def confirmOne (group : List String) (batched : Option ChildMap) (folderId : String) :
    CopierM (List DriveFile) :=
  let got := batchedChildren group batched folderId
  if got.isEmpty then cp.listChildren folderId 0 0 folderId else pure got

def confirmBatch (group : List String) (batched : Option ChildMap) :
    List String → ChildMap → CopierM ChildMap
  | [], result => pure result
  | fid :: rest, result => do
    let kids ← cp.confirmOne group batched fid
    confirmBatch group batched rest (AList.insert fid kids result)

/-- `_batched_list` over the groups of at most 50 folders. -/
def batchedList : List (List String) → ChildMap → CopierM ChildMap
  | [], result => pure result
  | group :: rest, result => do
    if ← mem .stopIsSet then pure result
    else
      let batched ← cp.listBatch group
      let result ← cp.confirmBatch group batched group result
      batchedList rest result

/-- The loop over the pending folders. -/
def processPending (l : Level) (childMap : ChildMap) : List Pending → CopierM Unit
  | [] => pure ()
  | (folder, dest) :: rest => do
    if ← mem .stopIsSet then pure ()
    else
      cp.descend l folder.id dest ((AList.lookup folder.id childMap).getD [])
      processPending l childMap rest

def batchSize : ℕ := 50

/-- `_process_level_fast`. -/
def processLevelFast (l : Level) : CopierM Unit := do
  let index ← buildIndex l.dest
  let pending ← cp.enqueueChildren l index l.children []
  if pending.isEmpty then pure ()
  else if ← mem .stopIsSet then pure ()
  else
    let groups := slices batchSize [] (pending.map fun p => p.1.id)
    let childMap ← cp.batchedList groups ∅
    cp.processPending l childMap pending

/-- `_process_level`. -/
def processLevel (l : Level) : CopierM Unit := do
  if cp.config.fastList then cp.processLevelFast l
  else
    let index ← buildIndex l.dest
    cp.processChildren l index l.children

/-! ## The run -/

/-- `fetch_account_identifier`. -/
def accountId : CopierM (Option String) := do
  let byRoot : CopierM (Option String) := do
    match ← ask (.getMetadata "root" [.id]) with
    | .error _ => pure none
    | .ok data => pure (some s!"root-{data.id}")
  match ← ask .aboutUser with
  | .error _ => byRoot
  | .ok email =>
    match truthy email with
    | some e => pure (some e)
    | none => byRoot

/-- `_preflight`: why the destination parent cannot be used. -/
def preflight (destParent : String) : CopierM (Option String) := do
  match ← ask (.getMetadata destParent [.id, .mimeType, .trashed, .capabilities]) with
  | .error e => pure (some s!"Cannot access destination folder: {e.text}")
  | .ok data =>
    if data.trashed then pure (some "Destination folder is in the trash.")
    else if data.canAddChildren = some false then
      pure (some "You do not have permission to add files to the destination folder.")
    else pure none

/-- `return self._result` with a stop reason. -/
def stopWith (reason : String) : CopierM CopyResult := do
  mem (.setStopReason reason)
  mem .result

/-- Trash the logs after a run that went fully well. -/
def cleanupAfter (destRoot : Option String) : CopierM Unit := do
  let result ← mem .result
  match truthy destRoot with
  | none => pure ()
  | some parent =>
    if result.fullyOk then
      let _ ← attempt (cleanup parent)
      pure ()
    else pure ()

/-- Export the report of all failures. -/
def reportAfter (destRoot : Option String) : CopierM Unit := do
  let result ← mem .result
  let failed := result.previousFailedItems ++ result.failedItems
  match truthy destRoot with
  | none => pure ()
  | some parent =>
    if !failed.isEmpty && !cp.config.dryRun then
      let _ ← attempt (exportFailedReport parent failed)
      pure ()
    else pure ()

/-- `_finalize`. -/
def finalize (destRoot : Option String) (completed : Bool) : CopierM CopyResult := do
  mem (.setCompleted completed)
  cleanupAfter destRoot
  cp.reportAfter destRoot
  mem .result

/-- Enter the level of the source root. -/
def enterRoot (sourceId : String) (destRoot : Option String) : CopierM Unit := do
  let children ← cp.listChildren sourceId cp.config.fromPage cp.config.toPage sourceId
  cp.recordTreeNode sourceId children
  enter { dest := destRoot, children := children, visited := {sourceId}
          parentSourceId := sourceId }

/-- The body of the `try` of `run`: whether the traversal completed. -/
def traverse (sourceId : String) (destRoot : Option String) : CopierM Bool := do
  cp.enterRoot sourceId destRoot
  drainFutures
  let stopped ← mem .stopIsSet
  pure !stopped

def recordCompletedFolders : CopierM Unit :=
  if cp.config.skipCompletedFolders then mem .recordCompleted else pure ()

def saveAfter (destRoot : Option String) : CopierM Unit :=
  if !cp.config.dryRun && (truthy destRoot).isSome then cp.saveLog true else pure ()

/-- The `finally` of `run`. -/
def closing (destRoot : Option String) : CopierM Unit := do
  drainFutures
  cp.recordCompletedFolders
  cp.saveAfter destRoot

/-- Load the logs of a destination root and merge them into the state. -/
def resume (destRoot account : Option String) : CopierM Unit := do
  match truthy destRoot with
  | none => pure ()
  | some parent =>
    let loaded ← cp.load parent account
    mem (.mergeResume loaded)

/-- From the destination root on. -/
def copyInto (sourceId : String) (account : Option String) (destRoot : Option String) :
    CopierM CopyResult := do
  mem (.setDestRoot destRoot)
  match ← attempt (cp.resume destRoot account) with
  | .error (.runtimeError message) => stopWith message
  | .error e => throw e
  | .ok () =>
    let outcome ← attempt (cp.traverse sourceId destRoot)
    cp.closing destRoot
    match outcome with
    | .ok completed => cp.finalize destRoot completed
    | .error (.quotaStopped _) => cp.finalize destRoot false
    | .error e => throw e

def unsafeDestination : String :=
  "Destination equals or is inside the source tree; this would recurse infinitely. " ++
    "Choose a destination outside the source."

/-- From the metadata of the source folder on. -/
def copyTree (sourceId destParent : String) (account : Option String) : CopierM CopyResult := do
  match ← ask (.getMetadata sourceId [.id, .name, .mimeType]) with
  | .error e => stopWith s!"Cannot access source folder: {e.text}"
  | .ok source =>
    match ← attempt (cp.getOrCreateFolder (some destParent) source.name sourceId none) with
    | .error (.quotaStopped _) => cp.finalize none false
    | .error (.runtimeError message) =>
      stopWith s!"Could not create destination root folder: {message}"
    | .error e => throw e
    | .ok destRoot => cp.copyInto sourceId account destRoot

/-- `run` on the folder ids of its two links. -/
def runOn (sourceId destParent : String) : CopierM CopyResult := do
  let account ← accountId
  mem (.beginRun account sourceId)
  let inside ← if destParent = sourceId then pure true else isDescendantOf destParent sourceId
  if inside then stopWith unsafeDestination
  else
    match ← preflight destParent with
    | some error => stopWith error
    | none => cp.copyTree sourceId destParent account

/-- `run`. -/
def run : CopierM CopyResult := do
  match cp.config.validate cp.showFloat with
  | [] =>
    match extractFolderId cp.config.sourceLink, extractFolderId cp.config.destLink with
    | some sourceId, some destParent => cp.runOn sourceId destParent
    | _, _ => mem .result
  | error :: errors => stopWith ("Invalid input: " ++ "; ".intercalate (error :: errors))

/-- The source folder of a run, when the configuration names one. -/
def sourceId : String := (extractFolderId cp.config.sourceLink).getD ""

/-- The folder a run copies into, when the configuration names one. -/
def destParent : String := (extractFolderId cp.config.destLink).getD ""

/-- The memory of a new `Copier`. -/
def freshMem (now : String) : Mem where
  state := { runId := some cp.runId, createdAt := now, updatedAt := now }
  result := { dryRun := cp.config.dryRun }

end Copier

/-! ## The system -/

/-- A copier's memory next to a Drive. -/
structure Site (V : Service) where
  mem : Mem
  drive : V.State

/-- The system of one run over the Drive `V`. -/
def Copier.system (cp : Copier) (V : Service) : System copierSig where
  State := Site V
  perform
    | .mem o, s, x, s' => x = (s.mem.exec o).1 ∧ s' = ⟨(s.mem.exec o).2, s.drive⟩
    | .ask q, s, x, s' => V.serves q s.drive x s'.drive ∧ s'.mem = s.mem
  body := cp.processLevel
  env s s' := ∃ reason, s' = ⟨s.mem.requestStop reason, s.drive⟩

end TurboCopy
