import TurboCopy.Copier.Run
import TurboCopy.Threads.Protocol

/-!
# The protocol of a run

What a thread of a run holds while it works, as tokens, and the rules by which an
operation turns them. A file, a folder, a listing and the log each have a token that
moves through their stages, so the rules below say once what any step of a run can
do. `copierProtocol` collects them; that the engine keeps to it is shown afterwards.
-/

namespace TurboCopy

open Threads

/-- A file to be copied, with its place and its index. -/
structure FileJob where
  dest : Option String
  index : ℕ
  src : DriveFile
  parentSourceId : String
  shortcutId : Option String

/-- `eff_id`. -/
def FileJob.eff (j : FileJob) : String := orElse j.shortcutId j.src.id

inductive FileStage
  | start
  | matched (item : DriveFile)
  | missing
  | reserved
  | refused
  | created (newId : Option String)
  | verified (newId : String)
  | rejected
  | failing
  | settled

/-- A source folder to be mirrored under `dest`, with the folders on its path. -/
structure FolderJob where
  dest : Option String
  name : String
  folderId : String
  shortcutId : Option String
  visited : Finset String
  pageRange : ℤ × ℤ

/-- The effective key of a destination folder. -/
def FolderJob.key (j : FolderJob) : String := orElse j.shortcutId j.folderId

inductive FolderStage
  | start
  | cached (id : String)
  | searching
  | hit (id : String)
  | missing
  | made (id : String)
  | denied
  | placed (dest : Option String)

/-- What a thread can hold. -/
inductive Token
  | file (j : FileJob) (s : FileStage)
  | folder (j : FolderJob) (s : FolderStage)
  | shortcut (l : Level) (index : ℕ) (src : DriveFile)
  | broken (l : Level) (src : DriveFile)
  | reach (folderId : String)
  | listing (folderId : String) (range : ℤ × ℤ) (out : List DriveFile)
      (token : Option PageToken) (page : ℕ)
  | unlisted (folderId : String) (range : ℤ × ℤ) (out : List DriveFile)
  | listed (folderId : String) (range : ℤ × ℤ) (out : List DriveFile)
  | batch (group : List String) (out : Copier.ChildMap) (token : Option PageToken)
  | level (l : Level)
  | indexing (l : Level) (items : List DriveFile) (token : Option PageToken)
  | indexed (l : Level) (items : List DriveFile)
  | rootAt (dest : String)
  | scan (dest : String) (token : Option PageToken) (files : List ApiFile)
  | merging (todo : List ApiFile) (merged : ResumeState)
  | reading (entry : ApiFile) (raw : Content) (todo : List ApiFile) (merged : ResumeState)
  | own (entry : ApiFile)
  | saving (state : ResumeState)
  | writing (state : ResumeState) (own : Option String × Option String)
  | logged (newId : Option String)
  | idle
  | begin
  | stopped
  | complete
  | returned (r : CopyResult)

/-- What a child of a level becomes once the level has its index. -/
def Token.entry (l : Level) (index : ℕ) (src : DriveFile) : Token :=
  if src.isShortcut then .shortcut l index src
  else if src.isFolder then
    .folder ⟨l.dest, src.name, src.id, none, l.visited, (0, 0)⟩ .start
  else .file ⟨l.dest, index, src, l.parentSourceId, none⟩ .start

/-- The job of a shortcut's target. -/
def Token.target (l : Level) (index : ℕ) (src target : DriveFile) : Token :=
  if target.isFolder then
    .folder ⟨l.dest, target.name, target.id, some src.id, l.visited, (0, 0)⟩ .start
  else .file ⟨l.dest, index, target, l.parentSourceId, some src.id⟩ .start

/-- The item of a failure is about a file. -/
structure FailedItem.About (it : FailedItem) (src : DriveFile) (eff : String) : Prop where
  sourceId : it.sourceId = src.id
  mimeType : it.mimeType = src.mimeType
  effectiveSourceId : it.effectiveSourceId = some eff

/-! ## Rules -/

section Rules

variable (cp : Copier)

/-- Operations that cost nothing and change nothing a token speaks of. -/
inductive QuietRule : (o : CopierOp) → o.Out → Prop
  | stopIsSet (b) : QuietRule (.mem .stopIsSet) b
  | setStopReason (reason) (u) : QuietRule (.mem (.setStopReason reason)) u
  | beginRun (account sourceRoot) (u) : QuietRule (.mem (.beginRun account sourceRoot)) u
  | destRoot (d) : QuietRule (.mem .destRoot) d
  | isCopied (eff) (b) : QuietRule (.mem (.isCopied eff)) b
  | bumpStreak (b) : QuietRule (.mem .bumpStreak) b
  | resetStreak (u) : QuietRule (.mem .resetStreak) u
  | hasPrevious (b) : QuietRule (.mem .hasPrevious) b
  | flushDue (b) : QuietRule (.mem .flushDue) b
  | beginSave (force) (b) : QuietRule (.mem (.beginSave force)) b
  | setOwnLogName (account) (u) : QuietRule (.mem (.setOwnLogName (logNameFor account))) u
  | logSaveFailed (e) (u) : QuietRule (.mem (.logSaveFailed e)) u
  | notCompleted (d f) : QuietRule (.mem (.isCompleted d f)) false
  | skipFolder (u) : QuietRule (.mem .skipFolder) u
  | recordCompleted (u) : QuietRule (.mem .recordCompleted) u
  | notDone (u) : QuietRule (.mem (.setCompleted false)) u
  | failedFolder (it : FailedItem) (h : it.mimeType = folderMime) (u) :
      QuietRule (.mem (.recordFailed it)) u
  | nowIso (t) : QuietRule (.ask .nowIso) t
  | aboutUser (r) : QuietRule (.ask .aboutUser) r
  | getMetadata (id fields) (h : fields ≠ shortcutFields) (r) :
      QuietRule (.ask (.getMetadata id fields)) r

/-- Operations after which the stop flag is set. -/
inductive StopRule : (o : CopierOp) → o.Out → Prop
  | seen : StopRule (.mem .stopIsSet) true
  | set (u) : StopRule (.mem .setStop) u
  | overBudget (max size reason) : StopRule (.mem (.reserve max size reason)) false

inductive FileRule : (o : CopierOp) → o.Out → Multiset Token → Multiset Token → Prop
  | trusted (j : FileJob) (item) :
      FileRule (.mem (.trustResume j.index j.eff j.src)) (some item)
        {.file j .start} {.file j .settled}
  | distrusted (j : FileJob) :
      FileRule (.mem (.trustResume j.index j.eff j.src)) none {.file j .start} {.file j .start}
  | matched (j : FileJob) (item) :
      FileRule (.mem (.popMatch j.index j.src cp.config.verifyMode cp.config.allowNameOnly j.eff))
        (some item) {.file j .start} {.file j (.matched item)}
  | missing (j : FileJob) :
      FileRule (.mem (.popMatch j.index j.src cp.config.verifyMode cp.config.allowNameOnly j.eff))
        none {.file j .start} {.file j .missing}
  | existing (j : FileJob) (item) (u) :
      FileRule (.mem (.recordExisting j.eff)) u {.file j (.matched item)} {.file j .settled}
  | tooLarge (j : FileJob) (it : FailedItem) (u) (hl : Copier.tooLarge j.src = true)
      (h : it.About j.src j.eff) : FileRule (.mem (.recordFailed it)) u {.file j .missing} 0
  | wouldCopy (j : FileJob) (u) (h : cp.config.dryRun = true) :
      FileRule (.mem (.wouldCopy j.src.bytes)) u {.file j .missing} 0
  | reserved (j : FileJob) (reason) (hd : cp.config.dryRun = false)
      (hl : Copier.tooLarge j.src = false) :
      FileRule (.mem (.reserve cp.config.maxCopySizeGb j.src.bytes reason)) true
        {.file j .missing} {.file j .reserved}
  | copied (j : FileJob) (vis rev) (newId) :
      FileRule (.ask (.copyFile j.src.id (cp.copyBody j.dest j.src j.shortcutId) vis rev))
        (.ok newId) {.file j .reserved} {.file j (.created newId)}
  | refused (j : FileJob) (vis rev) (e) :
      FileRule (.ask (.copyFile j.src.id (cp.copyBody j.dest j.src j.shortcutId) vis rev))
        (.error e) {.file j .reserved} {.file j .refused}
  | returned (j : FileJob) (u) :
      FileRule (.mem (.release j.src.bytes none)) u {.file j .refused} {.file j .failing}
  | verified (j : FileJob) (id : String) (data) (hid : id ≠ "")
      (h : checkCopy j.src j.shortcutId (DriveFile.fromApi data) = none) :
      FileRule (.ask (.getMetadata id verifyFields)) (.ok data)
        {.file j (.created (some id))} {.file j (.verified id)}
  | unreadable (j : FileJob) (id : String) (e) :
      FileRule (.ask (.getMetadata id verifyFields)) (.error e)
        {.file j (.created (some id))} {.file j .rejected}
  | rejected (j : FileJob) (id : String) (data) (detail)
      (h : checkCopy j.src j.shortcutId (DriveFile.fromApi data) = some detail) :
      FileRule (.ask (.getMetadata id verifyFields)) (.ok data)
        {.file j (.created (some id))} {.file j .rejected}
  | withdrawn (j : FileJob) (detail) (u) :
      FileRule (.mem (.release j.src.bytes (some detail))) u
        {.file j .rejected} {.file j .failing}
  | marked (j : FileJob) (id) (u) :
      FileRule (.mem (.markCopied j.eff j.src.bytes)) u
        {.file j (.verified id)} {.file j .settled}
  | failed (j : FileJob) (it : FailedItem) (u) (h : it.About j.src j.eff) :
      FileRule (.mem (.recordFailed it)) u {.file j .failing} 0
  | invalid (j : FileJob) (it : FailedItem) (u) (h : it.About j.src j.eff) :
      FileRule (.mem (.recordFailed it)) u {.file j .reserved} 0
  | reconciled (j : FileJob) (u) :
      FileRule (.mem (.reconcile ([j.eff, j.src.id].filter fun k => k ≠ ""))) u
        {.file j .settled} 0
  | needed (j : FileJob) :
      FileRule (.mem .hasPrevious) true {.file j .settled} {.file j .settled}
  | unneeded (j : FileJob) : FileRule (.mem .hasPrevious) false {.file j .settled} 0

/-- The lookups and the creation of a destination folder. The main thread lends its
`idle` token to a lookup, so at most one is under way. -/
inductive FolderRule : (o : CopierOp) → o.Out → Multiset Token → Multiset Token → Prop
  | skipped (j : FolderJob) (hs : cp.config.skipCompletedFolders = true)
      (hn : j.shortcutId = none) :
      FolderRule (.mem (.isCompleted j.dest j.folderId)) true {.folder j .start} 0
  | cached (j : FolderJob) (p : String) (id) (c : String) (hp : j.dest = some p)
      (hk : j.key ≠ "") (h : truthy id = some c) :
      FolderRule (.mem (.cachedFolder p j.key)) id
        {.idle, .folder j .start} {.folder j (.cached c)}
  | uncached (j : FolderJob) (p : String) (id) (hp : j.dest = some p) (hk : j.key ≠ "")
      (h : truthy id = none) :
      FolderRule (.mem (.cachedFolder p j.key)) id
        {.idle, .folder j .start} {.folder j .searching}
  | confirmed (j : FolderJob) (c : String) (data)
      (h : isDestFolder (DriveFile.fromApi data) j.key j.shortcutId = true) :
      FolderRule (.ask (.getMetadata c folderFields)) (.ok data)
        {.folder j (.cached c)} {.idle, .folder j (.placed (some c))}
  | stale (j : FolderJob) (c : String) (data)
      (h : isDestFolder (DriveFile.fromApi data) j.key j.shortcutId = false) :
      FolderRule (.ask (.getMetadata c folderFields)) (.ok data)
        {.folder j (.cached c)} {.folder j .searching}
  | unverified (j : FolderJob) (c : String) (e) :
      FolderRule (.ask (.getMetadata c folderFields)) (.error e)
        {.folder j (.cached c)} {.folder j .searching}
  | hit (j : FolderJob) (p : String) (f : ApiFile) (rest tok) (hp : j.dest = some p)
      (h : firstById f rest ≠ "") :
      FolderRule (.ask (.search (folderQuery p j.folderId j.shortcutId) 10)) (.ok (f :: rest, tok))
        {.folder j .searching} {.folder j (.hit (firstById f rest))}
  | anonymous (j : FolderJob) (p : String) (f : ApiFile) (rest tok) (hp : j.dest = some p)
      (h : firstById f rest = "") :
      FolderRule (.ask (.search (folderQuery p j.folderId j.shortcutId) 10)) (.ok (f :: rest, tok))
        {.folder j .searching} {.folder j .missing}
  | notFound (j : FolderJob) (p : String) (tok) (hp : j.dest = some p) :
      FolderRule (.ask (.search (folderQuery p j.folderId j.shortcutId) 10)) (.ok ([], tok))
        {.folder j .searching} {.folder j .missing}
  | unsearched (j : FolderJob) (p : String) (e) (hp : j.dest = some p) :
      FolderRule (.ask (.search (folderQuery p j.folderId j.shortcutId) 10)) (.error e)
        {.folder j .searching} {.folder j .missing}
  | found (j : FolderJob) (p id : String) (u) (hp : j.dest = some p) :
      FolderRule (.mem (.mapFolder p j.key id)) u
        {.folder j (.hit id)} {.idle, .folder j (.placed (some id))}
  | made (j : FolderJob) (p id : String) (hp : j.dest = some p)
      (hd : cp.config.dryRun = false) (hid : id ≠ "") (hk : j.key ≠ "") :
      FolderRule (.ask (.createFolder j.name p (folderProps j.folderId j.shortcutId)))
        (.ok (some id)) {.folder j .missing} {.folder j (.made id)}
  | unnamed (j : FolderJob) (p : String) (id) (hp : j.dest = some p)
      (hd : cp.config.dryRun = false) (h : truthy id = none ∨ j.key = "") :
      FolderRule (.ask (.createFolder j.name p (folderProps j.folderId j.shortcutId)))
        (.ok id) {.folder j .missing} {.idle, .folder j (.placed id)}
  | denied (j : FolderJob) (p : String) (e) (hp : j.dest = some p)
      (hd : cp.config.dryRun = false) :
      FolderRule (.ask (.createFolder j.name p (folderProps j.folderId j.shortcutId)))
        (.error e) {.folder j .missing} {.folder j .denied}
  | mapped (j : FolderJob) (p id : String) (u) (hp : j.dest = some p) :
      FolderRule (.mem (.mapFolder p j.key id)) u
        {.folder j (.made id)} {.idle, .folder j (.placed (some id))}
  | recorded (j : FolderJob) (it : FailedItem) (u) (h : it.mimeType = folderMime) :
      FolderRule (.mem (.recordFailed it)) u {.folder j .denied} {.idle}

/-- The listings a batch found for a group. -/
def listedIn (out : Copier.ChildMap) (group : List String) : Multiset Token :=
  Multiset.map (fun f => .listed f (0, 0) ((AList.lookup f out).getD [])) group

/-- Listings of source folders, and the items of a level. -/
inductive ListRule : (o : CopierOp) → o.Out → Multiset Token → Multiset Token → Prop
  | page (f range out tok n) (files : List ApiFile) (t : PageToken)
      (h : (0 < range.2 && range.2 ≤ ((n + 1 : ℕ) : ℤ)) = false) :
      ListRule (.ask (.listChildren f (some cp.config.excludeSubstrings) tok))
        (.ok (files, some t)) {.listing f range out tok n}
        {.listing f range (Copier.keepPage range.1 range.2 out files (n + 1)) (some t) (n + 1)}
  | capped (f range out tok n) (files : List ApiFile) (t : PageToken)
      (h : (0 < range.2 && range.2 ≤ ((n + 1 : ℕ) : ℤ)) = true) :
      ListRule (.ask (.listChildren f (some cp.config.excludeSubstrings) tok))
        (.ok (files, some t)) {.listing f range out tok n}
        {.listed f range (Copier.keepPage range.1 range.2 out files (n + 1))}
  | lastPage (f range out tok n) (files : List ApiFile) :
      ListRule (.ask (.listChildren f (some cp.config.excludeSubstrings) tok))
        (.ok (files, none)) {.listing f range out tok n}
        {.listed f range (Copier.keepPage range.1 range.2 out files (n + 1))}
  | unlisted (f range out tok n) (e) :
      ListRule (.ask (.listChildren f (some cp.config.excludeSubstrings) tok)) (.error e)
        {.listing f range out tok n} {.unlisted f range out}
  | listingError (f range out) (u) :
      ListRule (.mem (.listingError f)) u {.unlisted f range out} {.listed f range out}
  | treeNode (f range out) (u) (h : cp.config.skipCompletedFolders = true) :
      ListRule (.mem (.recordTreeNode f out)) u {.listed f range out} {.listed f range out}
  | multiPage (group out tok) (files : List ApiFile) (t : PageToken) :
      ListRule (.ask (.listChildrenMulti group cp.config.excludeSubstrings tok))
        (.ok (files, some t)) {.batch group out tok}
        {.batch group (Copier.addPage group out files) (some t)}
  | multiLast (group out tok) (files : List ApiFile) :
      ListRule (.ask (.listChildrenMulti group cp.config.excludeSubstrings tok))
        (.ok (files, none)) {.batch group out tok}
        (listedIn (Copier.addPage group out files) group)
  | multiFailed (group out tok) (e) :
      ListRule (.ask (.listChildrenMulti group cp.config.excludeSubstrings tok)) (.error e)
        {.batch group out tok} 0
  | resolved (l index src target) (data)
      (h : truthy src.shortcutTargetId = some target) :
      ListRule (.ask (.getMetadata target shortcutFields)) (.ok data)
        {.shortcut l index src}
        {.target l index src { DriveFile.fromApi data with name := src.name }}
  | inaccessible (l index src target) (e) (h : truthy src.shortcutTargetId = some target) :
      ListRule (.ask (.getMetadata target shortcutFields)) (.error e)
        {.shortcut l index src} {.broken l src}
  | reported (l src) (it : FailedItem) (u) (h : it.About src src.id) :
      ListRule (.mem (.recordFailed it)) u {.broken l src} 0
  | indexPage (l items tok) (d : String) (files : List ApiFile) (t : PageToken)
      (h : truthy l.dest = some d) :
      ListRule (.ask (.listChildren d none tok)) (.ok (files, some t)) {.indexing l items tok}
        {.indexing l (items ++ files.map DriveFile.fromApi) (some t)}
  | indexLast (l items tok) (d : String) (files : List ApiFile) (h : truthy l.dest = some d) :
      ListRule (.ask (.listChildren d none tok)) (.ok (files, none)) {.indexing l items tok}
        {.indexed l (items ++ files.map DriveFile.fromApi)}
  | indexFailed (l items tok) (d : String) (e) (h : truthy l.dest = some d) :
      ListRule (.ask (.listChildren d none tok)) (.error e) {.indexing l items tok}
        {.indexed l items}
  | index (l items) (i) :
      ListRule (.mem (.newIndex l.dest items)) i {.indexed l items}
        (Multiset.map (Token.entry l i) l.children)

/-- The resume store. A finished or a failed scan may still be consulted. A report is that of
a result the run has read. -/
inductive StoreRule : (o : CopierOp) → o.Out → Multiset Token → Multiset Token → Prop
  | scanPage (d tok files) (fs : List ApiFile) (t) :
      StoreRule (.ask (.listChildren d none tok)) (.ok (fs, t))
        {.scan d tok files} {.scan d t (files ++ fs)}
  | scanFailed (d tok files) (e) :
      StoreRule (.ask (.listChildren d none tok)) (.error e) {.scan d tok files} 0
  | read (entry : ApiFile) (todo merged) (raw) :
      StoreRule (.ask (.getMedia entry.id)) (.ok raw)
        {.merging (entry :: todo) merged} {.reading entry raw todo merged}
  | unreadable (entry : ApiFile) (todo merged) (e) :
      StoreRule (.ask (.getMedia entry.id)) (.error e) {.merging (entry :: todo) merged} 0
  | owned (entry : ApiFile) (u) :
      StoreRule (.mem (.setOwnLog (some entry.id))) u {.own entry} 0
  | merge (merged) (u) : StoreRule (.mem (.mergeResume merged)) u {.merging [] merged} 0
  | snapshot (now st) : StoreRule (.mem (.snapshot now)) st 0 {.saving st}
  | ownLog (st own) : StoreRule (.mem .ownLog) own {.saving st} {.writing st own}
  | update (st own) (id : String) (r) (h : truthy own.1 = some id) :
      StoreRule (.ask (.updateFileContent id (serialize cp.sha256 st))) r {.writing st own} 0
  | create (st own newId) (h : truthy own.1 = none) :
      StoreRule (.ask (.createJsonFile (orElse own.2 (logNameFor st.account))
        (st.destRootId.getD "") (serialize cp.sha256 st) toolProps)) (.ok newId)
        {.writing st own} {.logged newId}
  | notCreated (st own e) (h : truthy own.1 = none) :
      StoreRule (.ask (.createJsonFile (orElse own.2 (logNameFor st.account))
        (st.destRootId.getD "") (serialize cp.sha256 st) toolProps)) (.error e)
        {.writing st own} 0
  | logged (newId) (u) : StoreRule (.mem (.setOwnLog newId)) u {.logged newId} 0
  | report (d tok) (files : List ApiFile) (f : ApiFile) (now) (res : CopyResult) (r) (hf : f ∈ files)
      (hn : f.name = failedReportName) (ho : isOwned f = true) :
      StoreRule (.ask (.updateFileContent f.id (Copier.reportContent now
        (res.previousFailedItems ++ res.failedItems)))) r
        {.returned res, .scan d tok files} {.scan d tok files}
  | newReport (d tok files now) (res : CopyResult) (r) :
      StoreRule (.ask (.createJsonFile failedReportName d (Copier.reportContent now
        (res.previousFailedItems ++ res.failedItems)) toolProps)) r
        {.returned res, .scan d tok files} {.scan d tok files}
  | trash (d tok) (files : List ApiFile) (f : ApiFile) (r) (hf : f ∈ files)
      (ho : isOwned f = true) (hn : isStoreName f.name = true) :
      StoreRule (.ask (.trashFile f.id)) r {.scan d tok files} {.scan d tok files}

end Rules

/-- The root of the destination as a folder to be placed. -/
def Copier.rootJob (cp : Copier) (sourceId destParent name : String) : FolderJob where
  dest := some destParent
  name := name
  folderId := sourceId
  shortcutId := none
  visited := ∅
  pageRange := (cp.config.fromPage, cp.config.toPage)

/-- The permission to use the store of a destination root, when there is one. -/
def rootTokens (destRoot : Option String) : Multiset Token :=
  match truthy destRoot with
  | some d => {.rootAt d}
  | none => 0

/-- The run from `sourceId` into `destParent`. -/
inductive RunRule (cp : Copier) (sourceId destParent : String) :
    (o : CopierOp) → o.Out → Multiset Token → Multiset Token → Prop
  | begin (data) :
      RunRule cp sourceId destParent (.ask (.getMetadata sourceId [.id, .name, .mimeType]))
        (.ok data) {.begin}
        {.folder (cp.rootJob sourceId destParent data.name) .start}
  | destRoot (name d) (u) :
      RunRule cp sourceId destParent (.mem (.setDestRoot d)) u
        {.folder (cp.rootJob sourceId destParent name) (.placed d)}
        ({.folder (cp.rootJob sourceId destParent name) (.placed d)} + rootTokens d)
  | completed (u) : RunRule cp sourceId destParent (.mem (.setCompleted true)) u {.complete} 0
  | returned (r) : RunRule cp sourceId destParent (.mem .result) r 0 {.returned r}

/-- What a step of a run can do. A thread that knows the stop flag to be set owes nothing,
and it cannot see the flag clear. -/
inductive CopierRule (cp : Copier) (sourceId destParent : String) :
    (o : CopierOp) → o.Out → Multiset Token → Multiset Token → Prop
  | quiet {o x} (h : QuietRule o x) : CopierRule cp sourceId destParent o x 0 0
  | stop {o x} (τ) (h : StopRule o x) : CopierRule cp sourceId destParent o x τ {.stopped}
  | absurd (τ) : CopierRule cp sourceId destParent (.mem .stopIsSet) false {.stopped} τ
  | file {o x τ τ'} (h : FileRule cp o x τ τ') : CopierRule cp sourceId destParent o x τ τ'
  | folder {o x τ τ'} (h : FolderRule cp o x τ τ') : CopierRule cp sourceId destParent o x τ τ'
  | list {o x τ τ'} (h : ListRule cp o x τ τ') : CopierRule cp sourceId destParent o x τ τ'
  | store {o x τ τ'} (h : StoreRule cp o x τ τ') : CopierRule cp sourceId destParent o x τ τ'
  | run {o x τ τ'} (h : RunRule cp sourceId destParent o x τ τ') :
      CopierRule cp sourceId destParent o x τ τ'

/-- Tokens that stand for knowledge only. -/
inductive Known : Token → Prop
  | reach (f) : Known (.reach f)
  | listed (f range out) : Known (.listed f range out)
  | scan (d tok files) : Known (.scan d tok files)
  | own (entry) : Known (.own entry)
  | saving (st) : Known (.saving st)
  | writing (st own) : Known (.writing st own)
  | logged (newId) : Known (.logged newId)
  | rootAt (d) : Known (.rootAt d)
  | stopped : Known .stopped
  | returned (r) : Known (.returned r)

/-- Steps of reasoning: what tokens turn into without an operation. -/
inductive CopierShift (cp : Copier) : Multiset Token → Multiset Token → Prop
  | forget {t} (h : Known t) : CopierShift cp {t} 0
  | copy (f range out) :
      CopierShift cp {.listed f range out} {.listed f range out, .listed f range out}
  | onPath (j : FolderJob) (h : j.folderId ∈ j.visited) : CopierShift cp {.folder j .start} 0
  | noDest (j : FolderJob) (h : j.dest = none) :
      CopierShift cp {.folder j .start} {.folder j (.placed none)}
  | noKey (j : FolderJob) (h : j.key = "") :
      CopierShift cp {.idle, .folder j .start} {.folder j .missing}
  | dry (j : FolderJob) (h : cp.config.dryRun = true) :
      CopierShift cp {.folder j .missing} {.idle, .folder j (.placed none)}
  | placed (j : FolderJob) (d) :
      CopierShift cp {.folder j (.placed d)} {.folder j (.placed d), .reach j.folderId}
  | empty (j : FolderJob) (d) :
      CopierShift cp {.folder j (.placed d), .listed j.folderId j.pageRange []}
        {.listed j.folderId j.pageRange []}
  | nowhere (j : FolderJob) (d) (h : truthy d = none) :
      CopierShift cp {.folder j (.placed d)} 0
  | list (f range) : CopierShift cp {.reach f} {.reach f, .listing f range [] none 0}
  | batch (group : List String) :
      CopierShift cp (Multiset.map Token.reach group)
        (Multiset.map Token.reach group + {.batch group (Copier.emptyMap group) none})
  | untraced (l index src) (h : truthy src.shortcutTargetId = none) :
      CopierShift cp {.shortcut l index src} {.broken l src}
  | anonymous (j : FileJob) (newId) (h : truthy newId = none) :
      CopierShift cp {.file j (.created newId)} {.file j .rejected}
  | index (l d) (h : truthy l.dest = some d) :
      CopierShift cp {.level l} {.indexing l [] none}
  | unindexed (l) (h : truthy l.dest = none) : CopierShift cp {.level l} {.indexed l []}
  | scan (d) : CopierShift cp {.rootAt d} {.rootAt d, .scan d none []}
  | merge (d tok account created updated) (files : List ApiFile) :
      CopierShift cp {.scan d tok files}
        {.merging (files.filter fun f => startsWith f.name logPrefix)
          { account := account, destRootId := some d, createdAt := created, updatedAt := updated }}
  | merged (entry raw todo merged account now st)
      (h : deserialize cp.sha256 now raw = .ok st) :
      CopierShift cp {.reading entry raw todo merged}
        {.merging todo (Copier.mergeLog account merged entry st), .own entry}

/-- Entering a level whose folder is placed and listed. -/
inductive CallRule : Level → Multiset Token → Multiset Token → Prop
  | enter (j : FolderJob) (dest : Option String) (out : List DriveFile) :
      CallRule ⟨dest, out, insert j.folderId j.visited, j.folderId⟩
        {.idle, .folder j (.placed dest), .listed j.folderId j.pageRange out}
        {.idle, .level ⟨dest, out, insert j.folderId j.visited, j.folderId⟩}

/-- A traversal after which nobody owes anything and the stop flag is not set. -/
inductive SoloRule : (o : CopierOp) → o.Out → Multiset Token → Multiset Token → Prop
  | finish (destRoot) : SoloRule (.mem .stopIsSet) false ({.idle} + rootTokens destRoot)
      ({.complete} + rootTokens destRoot)

/-- The properties of a copy or of a new folder are refused while its token is still held. -/
inductive Refuses (e : Exc) (τ : Multiset Token) : Prop
  | file (j : FileJob) (hj : .file j .reserved ∈ τ)
      (h : validateAppProperties (copyProps j.src j.shortcutId) = .error e)
  | folder (j : FolderJob) (hj : .folder j .missing ∈ τ)
      (h : validateAppProperties (folderProps j.folderId j.shortcutId) = .error e)

/-- The traversal raises when it is stopped and when properties are refused. -/
def Raises (e : Exc) (τ : Multiset Token) : Prop :=
  (∃ reason, e = .quotaStopped reason) ∨ Refuses e τ

theorem Refuses.valueError {e : Exc} {τ : Multiset Token} (h : Refuses e τ) :
    ∃ message, e = .valueError message := by
  cases h with
  | file j hj h => exact validateAppProperties_error h
  | folder j hj h => exact validateAppProperties_error h

theorem Refuses.frame {e : Exc} {τ : Multiset Token} (h : Refuses e τ) (φ : Multiset Token) :
    Refuses e (φ + τ) := by
  cases h with
  | file j hj h => exact .file j (Multiset.mem_add.mpr (.inr hj)) h
  | folder j hj h => exact .folder j (Multiset.mem_add.mpr (.inr hj)) h

theorem Raises.frame {e : Exc} {τ : Multiset Token} (h : Raises e τ) (φ : Multiset Token) :
    Raises e (φ + τ) := h.imp_right (·.frame φ)

theorem Raises.refuses {e : Exc} {τ : Multiset Token} (h : Raises e τ)
    (hne : ∀ reason, e ≠ .quotaStopped reason) : Refuses e τ :=
  h.resolve_left fun ⟨reason, he⟩ => hne reason he

theorem Raises.framed {e : Exc} {φ g : Multiset Token} (h : ∃ τ, g = φ + τ ∧ Raises e τ) :
    Raises e g := by
  obtain ⟨τ, rfl, h⟩ := h
  exact h.frame φ

/-- A call that returns hands the `idle` token back. -/
def callResult (_ : Level) : Except Exc Unit → Multiset Token → Prop
  | .ok _, τ => τ = {.idle}
  | .error e, τ => Raises e τ

/-- The protocol of a run of `cp` from `sourceId` into `destParent`. -/
def copierProtocol (cp : Copier) (sourceId destParent : String) : Protocol copierSig Token where
  rule := CopierRule cp sourceId destParent
  solo := SoloRule
  call := CallRule
  result := callResult
  shift := CopierShift cp

/-- The protocol of the run a configuration describes. -/
def Copier.protocol (cp : Copier) : Protocol copierSig Token :=
  copierProtocol cp cp.sourceId cp.destParent

end TurboCopy
