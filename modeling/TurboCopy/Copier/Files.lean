import TurboCopy.Copier.Store

/-!
# Copying one file

`_copy_file` with its steps, the verification of a copy and the worker that runs it
in the pool.
-/

namespace TurboCopy

open CopierM Threads

/-- Python's quoted text of a plain string. -/
def quoted (s : String) : String := "'" ++ s ++ "'"

/-- The checks `_verify_copy` makes on the metadata of the new file; the result is the
text of the first failed check. -/
def checkCopy (src : DriveFile) (shortcutId : Option String) (dst : DriveFile) : Option String :=
  let ap := dst.appProperties
  if AList.lookup "source_file_id" ap ≠ some src.id then
    some "appProperties.source_file_id mismatch"
  else if (truthy shortcutId).isSome && AList.lookup "source_shortcut_id" ap ≠ shortcutId then
    some "appProperties.source_shortcut_id mismatch"
  else if dst.name ≠ src.name then
    some s!"name mismatch ({quoted dst.name} != {quoted src.name})"
  else if src.mimeType ≠ "" && dst.mimeType ≠ "" && src.mimeType ≠ dst.mimeType then
    some s!"mimeType mismatch ({quoted dst.mimeType} != {quoted src.mimeType})"
  else if src.isGoogleNative || (src.md5.isNone && src.size.isNone) then none
  else if (truthy src.md5).isSome && (truthy dst.md5).isSome && src.md5 ≠ dst.md5 then
    some "md5 checksum mismatch"
  else
    match dst.size, src.size with
    | some d, some s => if s ≠ d then some s!"size mismatch ({d} != {s})" else none
    | _, _ => none

def verifyFields : List ApiField := [.id, .name, .mimeType, .size, .md5Checksum, .appProperties]

/-- The idempotency properties of the copy of `src`. -/
def copyProps (src : DriveFile) (shortcutId : Option String) : Dict String :=
  let props : Dict String := AList.insert "copied_by_tool" toolTag
    (AList.insert "source_md5" (src.md5.getD "") (AList.insert "source_file_id" src.id ∅))
  match truthy shortcutId with
  | some s => AList.insert "source_shortcut_id" s props
  | none => props

theorem lookup_copyProps_file (src : DriveFile) (shortcutId : Option String) :
    AList.lookup "source_file_id" (copyProps src shortcutId) = some src.id := by
  unfold copyProps
  split <;> simp [AList.lookup_insert_ne] <;> rfl

theorem lookup_copyProps_shortcut (src : DriveFile) (shortcutId : Option String) :
    AList.lookup "source_shortcut_id" (copyProps src shortcutId) = truthy shortcutId := by
  unfold copyProps
  split
  · rename_i s hs
    rw [AList.lookup_insert, hs]
  · rename_i hs
    rw [hs]
    simp [AList.lookup_insert_ne]
    rfl

namespace Copier

variable (cp : Copier)

def copyBody (dest : Option String) (src : DriveFile) (shortcutId : Option String) : CopyBody :=
  let kept (v : Option String) : Option String :=
    if cp.config.preserveMetadata then truthy v else none
  { name := src.name, parent := dest, appProperties := copyProps src shortcutId
    modifiedTime := kept src.modifiedTime, createdTime := kept src.createdTime
    description := kept src.description }

/-- `_verify_copy`: `none` when the copy passes. -/
def verifyCopy (newId : Option String) (src : DriveFile) (shortcutId : Option String) :
    CopierM (Option String) := do
  match truthy newId with
  | none => pure (some "copy returned no file id")
  | some id =>
    match ← ask (.getMetadata id verifyFields) with
    | .error e => pure (some s!"could not fetch copied file metadata: {e.text}")
    | .ok data => pure (checkCopy src shortcutId (DriveFile.fromApi data))

def markCopied (effId : String) (size : ℤ) : CopierM Unit := do
  mem (.markCopied effId size)
  cp.maybeFlush

def recordExisting (effId : String) : CopierM Unit := do
  mem (.recordExisting effId)
  cp.maybeFlush

/-- Step 1: trust a resume entry that the destination confirms by its app property, and
forget one that it does not. -/
def skipTrusted (effId : String) (src : DriveFile) (index : ℕ) : CopierM Bool := do
  if ← mem (.isCopied effId) then
    if (← mem (.trustResume index effId src)).isSome then
      reconcileFailed effId src
      pure true
    else pure false
  else pure false

/-- Step 2: a matching file already at the destination. -/
def skipMatched (effId : String) (src : DriveFile) (index : ℕ) : CopierM Bool := do
  if (← mem (.popMatch index src cp.config.verifyMode cp.config.allowNameOnly effId)).isSome then
    cp.recordExisting effId
    reconcileFailed effId src
    pure true
  else pure false

def tooLarge (src : DriveFile) : Bool :=
  src.bytes ≠ 0 && maxSingleFileCopyGb * gib < (src.bytes : ℚ)

def tooLargeText (src : DriveFile) : String :=
  s!"File is {fixed 1 ((src.bytes : ℚ) / gib)} GB, exceeds the " ++
    s!"~{fixed 0 maxSingleFileCopyGb} GB single-file copy limit."

def budgetText (src : DriveFile) : String :=
  s!"Reached max copy size {cp.showFloat cp.config.maxCopySizeGb} GB before copying " ++
    s!"{quoted src.name} ({fixed 2 ((src.bytes : ℚ) / gib)} GB). " ++
    "Re-run later to continue from the resume log."

def breakerText (reason : String) : String :=
  let shown := orElse (some reason) "rateLimitExceeded"
  s!"{rateLimitStopThreshold} consecutive copy operations were rate-limited " ++
    s!"(reason={shown}); likely the daily/server-side-copy " ++
    "cap. Stopping gracefully — re-run after the quota resets (~24h); the resume " ++
    "log preserves progress."

/-- The circuit breaker of `_handle_copy_exception`, or the end of a streak. -/
def noteStreak (e : ApiError) : CopierM Unit := do
  if e.isRate then
    if ← mem .bumpStreak then
      let text := breakerText (parseHttpError e).1
      mem (.setStopReason text)
      mem .setStop
      if (truthy (← mem .destRoot)).isSome && !cp.config.dryRun then cp.saveLog true
      throw (.quotaStopped (some text))
    else pure ()
  else mem .resetStreak

def handleCopyException (e : ApiError) (src : DriveFile) (parentSourceId : String)
    (shortcutId : Option String) (effId : String) : CopierM Unit := do
  cp.raiseIfFatalQuota e s!"copying {quoted src.name}"
  cp.noteStreak e
  let (reason, message, _) := parseHttpError e
  recordFailed src (orElse (some reason) "copyFailed") (orElse (some message) e.text)
    (some parentSourceId) (if (truthy shortcutId).isSome then some src.id else none) shortcutId
    (some effId)

/-- What follows a `files.copy` the server answered with `newId`. -/
def settleCopy (newId : Option String) (src : DriveFile) (parentSourceId : String)
    (shortcutId : Option String) (effId : String) : CopierM Unit := do
  match ← verifyCopy newId src shortcutId with
  | some detail =>
    mem (.release src.bytes (some detail))
    mem .resetStreak
    recordFailed src "verificationFailed" detail (some parentSourceId) none shortcutId (some effId)
  | none =>
    cp.markCopied effId src.bytes
    reconcileFailed effId src

/-- Steps 3 and 4: reserve the bytes, copy, verify. -/
def copyMissing (dest : Option String) (src : DriveFile) (parentSourceId : String)
    (shortcutId : Option String) (effId : String) : CopierM Unit := do
  if ← mem (.reserve cp.config.maxCopySizeGb src.bytes (cp.budgetText src)) then
    match validateAppProperties (copyProps src shortcutId) with
    | .error e => throw e
    | .ok () =>
      match ← ask (.copyFile src.id (cp.copyBody dest src shortcutId)
          cp.config.ignoreDefaultVisibility cp.config.keepRevisionForever) with
      | .error e =>
        mem (.release src.bytes none)
        cp.handleCopyException e src parentSourceId shortcutId effId
      | .ok newId => cp.settleCopy newId src parentSourceId shortcutId effId
  else throw (.quotaStopped (some (cp.budgetText src)))

/-- `_copy_file`. -/
def copyFile (dest : Option String) (src : DriveFile) (index : ℕ) (parentSourceId : String)
    (shortcutId : Option String) : CopierM Unit := do
  let effId := orElse shortcutId src.id
  if ← mem .stopIsSet then pure ()
  else if ← skipTrusted effId src index then pure ()
  else if ← cp.skipMatched effId src index then pure ()
  else if tooLarge src then
    recordFailed src "fileTooLargeToCopy" (tooLargeText src) (some parentSourceId) none shortcutId
      (some effId)
  else if cp.config.dryRun then mem (.wouldCopy src.bytes)
  else cp.copyMissing dest src parentSourceId shortcutId effId

/-- The reason and message `parse_http_error` finds in an exception. -/
def excReason : Exc → String × String
  | .client e => ((parseHttpError e).1, (parseHttpError e).2.1)
  | e => ("", e.text)

/-- `_copy_file_worker`, which lets no exception out. -/
def copyFileWorker (dest : Option String) (src : DriveFile) (index : ℕ)
    (parentSourceId : String) : Prog copierSig Unit :=
  let body : CopierM Unit := do
    if ← mem .stopIsSet then pure ()
    else
      match ← attempt (cp.copyFile dest src index parentSourceId none) with
      | .ok () => pure ()
      | .error (.quotaStopped _) => pure ()
      | .error e =>
        recordFailed src (orElse (some (excReason e).1) "workerError")
          (orElse (some (excReason e).2) e.text) (some parentSourceId) none none (some src.id)
  Prog.bind body fun _ => .pure ()

/-- Whether the run has an executor. -/
def pooled : Bool := 1 < max 1 (min cp.config.workers 16)

def maxPending : ℕ := max (cp.config.workers * 4).toNat 16

def submitFile (dest : Option String) (src : DriveFile) (index : ℕ) (parentSourceId : String) :
    CopierM Unit := do
  if cp.pooled then
    if cp.maxPending ≤ (← pendingFutures) then reapFutures
    if ← mem .stopIsSet then pure ()
    else submit (cp.copyFileWorker dest src index parentSourceId)
  else cp.copyFile dest src index parentSourceId none

end Copier
end TurboCopy
