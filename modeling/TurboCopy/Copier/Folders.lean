import TurboCopy.Copier.Files

/-!
# Folders, shortcuts and listings

Finding or creating the destination folder of a source folder, resolving a shortcut,
and the listings of source and destination folders.
-/

namespace TurboCopy

open CopierM

/-- The key under which a destination folder is tagged. -/
def folderKeyName (shortcutId : Option String) : String :=
  if (truthy shortcutId).isSome then "source_shortcut_id" else "source_folder_id"

/-- The app properties of a new destination folder. -/
def folderProps (sourceFolderId : String) (shortcutId : Option String) : Dict String :=
  let props : Dict String := AList.insert "copied_by_tool" toolTag ∅
  match truthy shortcutId with
  | some s =>
    let props := AList.insert "source_shortcut_id" s props
    if sourceFolderId = "" then props else AList.insert "shortcut_target_id" sourceFolderId props
  | none =>
    if sourceFolderId = "" then props else AList.insert "source_folder_id" sourceFolderId props

def folderQuery (parent sourceFolderId : String) (shortcutId : Option String) : FolderQuery where
  parent := parent
  key := folderKeyName shortcutId
  value := orElse shortcutId sourceFolderId

def folderFields : List ApiField := [.id, .mimeType, .trashed, .appProperties]

def shortcutFields : List ApiField :=
  [.id, .name, .mimeType, .size, .md5Checksum, .shortcutDetails]

/-- The checks of `_verify_dest_folder` on the metadata of a cached folder. -/
def isDestFolder (df : DriveFile) (effectiveKey : String) (shortcutId : Option String) : Bool :=
  !df.trashed && df.isFolder &&
    AList.lookup (folderKeyName shortcutId) df.appProperties = some effectiveKey

/-- `sorted(files, key=lambda f: f["id"])[0]["id"]` of a list with a first file. -/
def firstById (f : ApiFile) : List ApiFile → String
  | [] => f.id
  | g :: rest => if g.id < f.id then firstById g rest else firstById f rest

namespace Copier

variable (cp : Copier)

def verifyDestFolder (folderId effectiveKey : String) (shortcutId : Option String) :
    CopierM Bool := do
  match ← ask (.getMetadata folderId folderFields) with
  | .error e =>
    cp.raiseIfFatalQuota e "verifying destination folder"
    pure false
  | .ok data => pure (isDestFolder (DriveFile.fromApi data) effectiveKey shortcutId)

/-- `_find_dest_folder`; only the first page of the search is read. -/
def findDestFolder (parent sourceFolderId : String) (shortcutId : Option String) :
    CopierM (Option String) := do
  if orElse shortcutId sourceFolderId = "" then pure none
  else
    match ← ask (.search (folderQuery parent sourceFolderId shortcutId) 10) with
    | .error e =>
      cp.raiseIfFatalQuota e "searching for destination folder"
      pure none
    | .ok page =>
      match page.1 with
      | [] => pure none
      | f :: rest => pure (some (firstById f rest))

/-- The cached folder under a key, when it is still the folder it should be. -/
def cachedDestFolder (parent key : String) (shortcutId : Option String) :
    CopierM (Option String) := do
  match truthy (← mem (.cachedFolder parent key)) with
  | none => pure none
  | some cached =>
    if ← cp.verifyDestFolder cached key shortcutId then pure (some cached) else pure none

/-- The lookups `_get_or_create_folder` makes before it creates a folder. -/
def knownFolder (parent sourceFolderId : String) (shortcutId : Option String) :
    CopierM (Option String) := do
  let key := orElse shortcutId sourceFolderId
  if key = "" then pure none
  else
    match ← cp.cachedDestFolder parent key shortcutId with
    | some cached => pure (some cached)
    | none =>
      match truthy (← cp.findDestFolder parent sourceFolderId shortcutId) with
      | none => pure none
      | some existing =>
        mem (.mapFolder parent key existing)
        pure (some existing)

def createFolder (parent name sourceFolderId : String) (shortcutId : Option String) :
    CopierM (Option String) := do
  match validateAppProperties (folderProps sourceFolderId shortcutId) with
  | .error e => throw e
  | .ok () =>
    match ← ask (.createFolder name parent (folderProps sourceFolderId shortcutId)) with
    | .error e =>
      cp.raiseIfFatalQuota e s!"creating folder {quoted name}"
      throw (.runtimeError s!"Could not create folder {quoted name}: {e.text}")
    | .ok newId =>
      let key := orElse shortcutId sourceFolderId
      match truthy newId with
      | none => pure newId
      | some id =>
        if key = "" then pure newId
        else
          mem (.mapFolder parent key id)
          cp.saveLog false
          pure newId

/-- `_get_or_create_folder`. -/
def getOrCreateFolder (dest : Option String) (name sourceFolderId : String)
    (shortcutId : Option String) : CopierM (Option String) := do
  match dest with
  | none => pure none
  | some parent =>
    match ← cp.knownFolder parent sourceFolderId shortcutId with
    | some id => pure (some id)
    | none =>
      if cp.config.dryRun then pure none
      else cp.createFolder parent name sourceFolderId shortcutId

/-- `_resolve_shortcut`: the target under the shortcut's display name. -/
def resolveShortcut (src : DriveFile) : CopierM (Option DriveFile) := do
  match truthy src.shortcutTargetId with
  | none => pure none
  | some target =>
    match ← ask (.getMetadata target shortcutFields) with
    | .error _ => pure none
    | .ok data => pure (some { DriveFile.fromApi data with name := src.name })

/-- The walk of `_is_descendant_of` up the parents, with its stack and what it saw. -/
def climb (ancestorId : String) (maxNodes : ℕ) (s : List String × List String) :
    CopierM ((List String × List String) ⊕ Bool) := do
  match s.1 with
  | [] => pure (.inr false)
  | cur :: stack =>
    if maxNodes ≤ s.2.length then pure (.inr false)
    else if cur = ancestorId then pure (.inr true)
    else if cur ∈ s.2 then pure (.inl (stack, s.2))
    else
      let seen := cur :: s.2
      match ← ask (.getMetadata cur [.id, .parents]) with
      | .error _ => pure (.inl (stack, seen))
      | .ok data =>
        pure (.inl ((data.parents.filter fun p => p ∉ seen).reverse ++ stack, seen))

def isDescendantOf (candidateId ancestorId : String) : CopierM Bool := do
  if candidateId = "" || ancestorId = "" then pure false
  else iterate (climb ancestorId 200) ([candidateId], [])

/-! ## Listings -/

/-- Stop the run because a listing met a fatal quota error. -/
def stopOnQuota {α : Type} (text : String) : CopierM α := do
  mem (.setStopReason text)
  mem .setStop
  throw (.quotaStopped (some text))

/-- The item that stands for a folder whose listing failed. -/
def unlistedFolder (folderId : String) : DriveFile where
  id := folderId
  name := s!"[folder:{folderId}]"
  mimeType := folderMime

def listingFailed (e : ApiError) (folderId : String) (page : ℕ) (parentSourceId : String) :
    CopierM Unit := do
  if e.isFatalQuota then stopOnQuota s!"Quota hit while listing {folderId}: {e.text}"
  else
    let (reason, message, _) := parseHttpError e
    recordFailed (unlistedFolder folderId) (orElse (some reason) "listingError")
      s!"Could not list (page {page + 1}): {orElse (some message) e.text}"
      (some parentSourceId) none none none
    mem (.listingError folderId)

/-- Whether `_list_children` keeps the files of a page. -/
def inPageRange (fromPage toPage : ℤ) (page : ℕ) : Bool :=
  (if 0 < fromPage then fromPage else 1) ≤ (page : ℤ) && (toPage = 0 || (page : ℤ) ≤ toPage)

/-- The files kept after a page. -/
def keepPage (fromPage toPage : ℤ) (out : List DriveFile) (files : List ApiFile) (page : ℕ) :
    List DriveFile :=
  if inPageRange fromPage toPage page then out ++ files.map DriveFile.fromApi else out

/-- One round of `_list_children`, with the files and the pages so far. -/
def listRound (folderId : String) (fromPage toPage : ℤ) (parentSourceId : String)
    (s : List DriveFile × Option PageToken × ℕ) :
    CopierM ((List DriveFile × Option PageToken × ℕ) ⊕ List DriveFile) := do
  match ← ask (.listChildren folderId (some cp.config.excludeSubstrings) s.2.1) with
  | .error e =>
    listingFailed e folderId s.2.2 parentSourceId
    pure (.inr s.1)
  | .ok files =>
    let page := s.2.2 + 1
    let out := keepPage fromPage toPage s.1 files.1 page
    match files.2 with
    | none => pure (.inr out)
    | some token =>
      if 0 < toPage && toPage ≤ (page : ℤ) then pure (.inr out)
      else pure (.inl (out, some token, page))

/-- `_list_children`. -/
def listChildren (folderId : String) (fromPage toPage : ℤ) (parentSourceId : String) :
    CopierM (List DriveFile) :=
  iterate (cp.listRound folderId fromPage toPage parentSourceId) ([], none, 0)

/-- One round of `_build_index`. -/
def indexRound (dest : String) (s : List DriveFile × Option PageToken) :
    CopierM ((List DriveFile × Option PageToken) ⊕ List DriveFile) := do
  match ← ask (.listChildren dest none s.2) with
  | .error e =>
    if e.isFatalQuota then stopOnQuota s!"Quota hit while indexing destination: {e.text}"
    else pure (.inr s.1)
  | .ok files =>
    let items := s.1 ++ files.1.map DriveFile.fromApi
    match files.2 with
    | none => pure (.inr items)
    | some token => pure (.inl (items, some token))

/-- `_build_index`: the reference of the new index. -/
def buildIndex (dest : Option String) : CopierM ℕ := do
  match truthy dest with
  | none => mem (.newIndex dest [])
  | some d =>
    let items ← iterate (indexRound d) ([], none)
    mem (.newIndex dest items)

def recordTreeNode (folder : String) (children : List DriveFile) : CopierM Unit := do
  if cp.config.skipCompletedFolders then mem (.recordTreeNode folder children)
  else pure ()

end Copier
end TurboCopy
