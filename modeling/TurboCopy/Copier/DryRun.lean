import TurboCopy.Threads.Guarantee
import TurboCopy.Copier.Replay

/-!
# A dry run changes nothing

The texts of all procedures of the engine, read with `dry_run` set: none of them makes a
mutating call. The cleanup of the logs alone rests on a value the run computes, the result
it reads; that a dry run's result says so is an invariant of the memory.
-/

namespace TurboCopy

open Threads CopierM

/-- The outcomes of a dry run: a result that is read is that of a dry run. -/
def dryOutcome : (o : CopierOp) → o.Out → Prop
  | .mem .result, r => r.dryRun = true
  | _, _ => True

/-- An operation that changes nothing on the Drive. -/
def Harmless : CopierOp → Prop
  | .mem _ => True
  | .ask q => q.mutating = false

/-- A procedure that makes no mutating call in a dry run. -/
def CopierM.Spares {α : Type} (x : CopierM α) : Prop :=
  Prog.Guarantees (S := copierSig) dryOutcome Harmless x

namespace CopierM.Spares

variable {α β : Type}

theorem pure (a : α) : Spares (pure a : CopierM α) := trivial

theorem throw (e : Exc) : Spares (throw e : CopierM α) := trivial

theorem bind {x : CopierM α} {f : α → CopierM β} (hx : Spares x) (hf : ∀ a, Spares (f a)) :
    Spares (x >>= f) := by
  apply Prog.Guarantees.bind hx
  rintro (e | a)
  · trivial
  · exact hf a

theorem attempt {x : CopierM α} (hx : Spares x) : Spares (attempt x) :=
  Prog.Guarantees.bind hx fun _ => trivial

theorem mem (o : MemOp) : Spares (mem o) := ⟨trivial, fun _ _ => trivial⟩

theorem ask {q : Request} (hq : q.mutating = false) : Spares (ask q) := ⟨hq, fun _ _ => trivial⟩

/-- The result of a dry run is known to be one. -/
theorem result {f : CopyResult → CopierM α} (hf : ∀ r, r.dryRun = true → Spares (f r)) :
    Spares (CopierM.mem .result >>= f) := ⟨trivial, fun r hr => hf r hr⟩

theorem orThrow (r : Except ApiError α) : Spares (orThrow r) := by
  cases r with
  | ok a => exact pure a
  | error e => exact throw _

theorem enter (l : Level) : Spares (enter l) := fun _ => trivial

theorem iterate {body : β → CopierM (β ⊕ α)} (hbody : ∀ b, Spares (body b)) (b : β) :
    Spares (iterate body b) := by
  refine ⟨fun b => Prog.Guarantees.bind (hbody b) ?_, fun _ => trivial⟩
  rintro (e | b' | a) <;> trivial

theorem pendingFutures : Spares pendingFutures := fun _ => trivial

theorem reapFutures : Spares reapFutures := trivial

theorem drainFutures : Spares drainFutures := trivial

theorem submit {task : Prog copierSig Unit} (h : task.Guarantees dryOutcome Harmless) :
    Spares (submit task) := ⟨h, trivial⟩

theorem ite {x y : CopierM α} {p : Prop} [Decidable p] (hx : p → Spares x) (hy : ¬p → Spares y) :
    Spares (if p then x else y) := by
  split_ifs with h
  · exact hx h
  · exact hy h

end CopierM.Spares

namespace Copier

variable {cp : Copier}

/-! ## The resume store -/

theorem spares_recordFailed {src : DriveFile} {reason message : String}
    {parentSourceId shortcutTargetId sourceShortcutId effectiveSourceId : Option String} :
    Spares (recordFailed src reason message parentSourceId shortcutTargetId sourceShortcutId
      effectiveSourceId) :=
  Spares.bind (Spares.ask rfl) fun _ => Spares.mem _

theorem spares_reconcileFailed (effId : String) (src : DriveFile) :
    Spares (reconcileFailed effId src) :=
  Spares.bind (Spares.mem _) fun _ => Spares.ite (fun _ => Spares.mem _) fun _ => Spares.pure _

section Dry

variable (hdry : cp.config.dryRun = true)
include hdry

theorem spares_saveLog (force : Bool) : Spares (cp.saveLog force) := by
  unfold saveLog
  rw [if_pos hdry]
  exact Spares.pure _

theorem spares_maybeFlush : Spares cp.maybeFlush := by
  unfold maybeFlush
  rw [if_pos hdry]
  exact Spares.pure _

theorem spares_raiseIfFatalQuota (e : ApiError) (context : String) :
    Spares (cp.raiseIfFatalQuota e context) := by
  unfold raiseIfFatalQuota
  apply Spares.ite
  · intro _
    apply Spares.bind (Spares.mem _)
    intro _
    apply Spares.bind (Spares.mem _)
    intro _
    apply Spares.bind (Spares.mem _)
    intro dest
    apply Spares.ite
    · exact fun _ => Spares.bind (spares_saveLog hdry true) fun _ => Spares.throw _
    · exact fun _ => Spares.throw _
  · exact fun _ => Spares.pure _

end Dry

theorem spares_listPage (parent : String) (token : Option PageToken) :
    Spares (listPage parent token) := Spares.bind (Spares.ask rfl) fun _ => Spares.orThrow _

theorem spares_pages {β : Type} {list : Option PageToken → CopierM Page}
    (hlist : ∀ t, Spares (list t)) (add : β → List ApiFile → β) (init : β) :
    Spares (pages list add init) := by
  apply Spares.iterate
  intro s
  apply Spares.bind (hlist s.2)
  rintro ⟨files, _ | t⟩
  · exact Spares.pure _
  · exact Spares.pure _

theorem spares_loadLog (entry : ApiFile) : Spares (cp.loadLog entry) := by
  apply Spares.bind (Spares.ask rfl)
  rintro (e | raw)
  · exact Spares.throw _
  · apply Spares.bind (Spares.ask rfl)
    intro now
    dsimp only
    split
    · exact Spares.throw _
    · exact Spares.pure _

theorem spares_loadLogs (account : Option String) (logs : List ApiFile) :
    ∀ merged, Spares (cp.loadLogs account logs merged) := by
  induction logs with
  | nil => exact fun merged => Spares.pure _
  | cons entry rest ih =>
    intro merged
    apply Spares.bind (spares_loadLog entry)
    intro state
    apply Spares.bind
    · exact Spares.ite (fun _ => Spares.mem _) fun _ => Spares.pure _
    · exact fun _ => ih _

theorem spares_load (parent : String) (account : Option String) :
    Spares (cp.load parent account) := by
  apply Spares.bind (Spares.mem _)
  intro _
  apply Spares.bind (Spares.ask rfl)
  intro created
  apply Spares.bind (Spares.ask rfl)
  intro updated
  apply Spares.bind (Spares.attempt (spares_pages (fun _ => spares_listPage _ _) _ _))
  rintro (e | logs)
  · exact Spares.throw _
  · exact spares_loadLogs _ _ _

/-! ## Files -/

theorem spares_skipTrusted (effId : String) (src : DriveFile) (index : ℕ) :
    Spares (skipTrusted effId src index) := by
  apply Spares.bind (Spares.mem _)
  intro copied
  apply Spares.ite
  · intro _
    apply Spares.bind (Spares.mem _)
    intro item
    exact Spares.ite (fun _ => Spares.bind (spares_reconcileFailed _ _) fun _ => Spares.pure _) fun _ => Spares.pure _
  · exact fun _ => Spares.pure _

section Dry

variable (hdry : cp.config.dryRun = true)
include hdry

theorem spares_skipMatched (effId : String) (src : DriveFile) (index : ℕ) :
    Spares (cp.skipMatched effId src index) := by
  apply Spares.bind (Spares.mem _)
  intro item
  apply Spares.ite
  · intro _
    apply Spares.bind
    · exact Spares.bind (Spares.mem _) fun _ => spares_maybeFlush hdry
    · exact fun _ => Spares.bind (spares_reconcileFailed _ _) fun _ => Spares.pure _
  · exact fun _ => Spares.pure _

/-- `_copy_file` ends before it copies. -/
theorem spares_copyFile (dest : Option String) (src : DriveFile) (index : ℕ)
    (parentSourceId : String) (shortcutId : Option String) :
    Spares (cp.copyFile dest src index parentSourceId shortcutId) := by
  unfold copyFile
  apply Spares.bind (Spares.mem _)
  intro stopped
  apply Spares.ite (fun _ => Spares.pure _)
  intro _
  apply Spares.bind (spares_skipTrusted _ _ _)
  intro trusted
  apply Spares.ite (fun _ => Spares.pure _)
  intro _
  apply Spares.bind (spares_skipMatched hdry _ _ _)
  intro matched
  apply Spares.ite (fun _ => Spares.pure _)
  intro _
  apply Spares.ite (fun _ => spares_recordFailed)
  intro _
  rw [if_pos hdry]
  exact Spares.mem _

theorem spares_submitFile (dest : Option String) (src : DriveFile) (index : ℕ)
    (parentSourceId : String) : Spares (cp.submitFile dest src index parentSourceId) := by
  have hworker : (cp.copyFileWorker dest src index parentSourceId).Guarantees
      dryOutcome Harmless := by
    apply Prog.Guarantees.bind
    · apply Spares.bind (Spares.mem _)
      intro stopped
      apply Spares.ite (fun _ => Spares.pure _)
      intro _
      apply Spares.bind (Spares.attempt (spares_copyFile hdry dest src index parentSourceId none))
      rintro (e | u)
      · cases e with
        | quotaStopped reason => exact Spares.pure _
        | runtimeError message => exact spares_recordFailed
        | valueError message => exact spares_recordFailed
        | client error => exact spares_recordFailed
      · exact Spares.pure _
    · exact fun _ => trivial
  unfold submitFile
  apply Spares.ite
  · intro _
    have hsubmit : Spares (do
        if ← mem .stopIsSet then pure ()
        else submit (cp.copyFileWorker dest src index parentSourceId)) := by
      apply Spares.bind (Spares.mem _)
      exact fun _ => Spares.ite (fun _ => Spares.pure _) fun _ => Spares.submit hworker
    apply Spares.bind Spares.pendingFutures
    intro n
    exact Spares.ite (fun _ => Spares.bind Spares.reapFutures fun _ => hsubmit) fun _ => hsubmit
  · exact fun _ => spares_copyFile hdry _ _ _ _ _

/-! ## Folders and listings -/

theorem spares_knownFolder (parent sourceFolderId : String) (shortcutId : Option String) :
    Spares (cp.knownFolder parent sourceFolderId shortcutId) := by
  have hverify (id key : String) : Spares (cp.verifyDestFolder id key shortcutId) := by
    apply Spares.bind (Spares.ask rfl)
    rintro (e | data)
    · exact Spares.bind (spares_raiseIfFatalQuota hdry _ _) fun _ => Spares.pure _
    · exact Spares.pure _
  have hcached (key : String) : Spares (cp.cachedDestFolder parent key shortcutId) := by
    apply Spares.bind (Spares.mem _)
    intro id
    split
    · exact Spares.pure _
    · apply Spares.bind (hverify _ _)
      intro ok
      exact Spares.ite (fun _ => Spares.pure _) fun _ => Spares.pure _
  have hfind : Spares (cp.findDestFolder parent sourceFolderId shortcutId) := by
    apply Spares.ite (fun _ => Spares.pure _)
    intro _
    apply Spares.bind (Spares.ask rfl)
    rintro (e | page)
    · exact Spares.bind (spares_raiseIfFatalQuota hdry _ _) fun _ => Spares.pure _
    · dsimp only
      split
      · exact Spares.pure _
      · exact Spares.pure _
  unfold knownFolder
  apply Spares.ite (fun _ => Spares.pure _)
  intro _
  apply Spares.bind (hcached _)
  rintro (_ | cached)
  · apply Spares.bind hfind
    intro id
    split
    · exact Spares.pure _
    · exact Spares.bind (Spares.mem _) fun _ => Spares.pure _
  · exact Spares.pure _

/-- A folder that is not there is not created. -/
theorem spares_getOrCreateFolder (dest : Option String) (name sourceFolderId : String)
    (shortcutId : Option String) :
    Spares (cp.getOrCreateFolder dest name sourceFolderId shortcutId) := by
  unfold getOrCreateFolder
  split
  · exact Spares.pure _
  · apply Spares.bind (spares_knownFolder hdry _ _ _)
    rintro (_ | id)
    · dsimp only
      rw [if_pos hdry]
      exact Spares.pure _
    · exact Spares.pure _

end Dry

theorem spares_resolveShortcut (src : DriveFile) : Spares (resolveShortcut src) := by
  unfold resolveShortcut
  split
  · exact Spares.pure _
  · apply Spares.bind (Spares.ask rfl)
    rintro (e | data)
    · exact Spares.pure _
    · exact Spares.pure _

theorem spares_stopOnQuota {α : Type} (text : String) : Spares (stopOnQuota text : CopierM α) :=
  Spares.bind (Spares.mem _) fun _ => Spares.bind (Spares.mem _) fun _ => Spares.throw _

theorem spares_listChildren (folderId : String) (fromPage toPage : ℤ) (parentSourceId : String) :
    Spares (cp.listChildren folderId fromPage toPage parentSourceId) := by
  apply Spares.iterate
  intro s
  apply Spares.bind (Spares.ask rfl)
  rintro (e | files)
  · apply Spares.bind
    · unfold listingFailed
      exact Spares.ite (fun _ => spares_stopOnQuota _) fun _ => Spares.bind spares_recordFailed fun _ => Spares.mem _
    · exact fun _ => Spares.pure _
  · dsimp only
    split
    · exact Spares.pure _
    · exact Spares.ite (fun _ => Spares.pure _) fun _ => Spares.pure _

theorem spares_buildIndex (dest : Option String) : Spares (buildIndex dest) := by
  unfold buildIndex
  split
  · exact Spares.mem _
  · apply Spares.bind
    · apply Spares.iterate
      intro s
      apply Spares.bind (Spares.ask rfl)
      rintro (e | files)
      · exact Spares.ite (fun _ => spares_stopOnQuota _) fun _ => Spares.pure _
      · dsimp only
        split
        · exact Spares.pure _
        · exact Spares.pure _
    · exact fun _ => Spares.mem _

theorem spares_recordTreeNode (folder : String) (children : List DriveFile) :
    Spares (cp.recordTreeNode folder children) :=
  Spares.ite (fun _ => Spares.mem _) fun _ => Spares.pure _

/-! ## One level -/

section Dry

variable (hdry : cp.config.dryRun = true)
include hdry

theorem spares_enterFolder (l : Level) (folder : DriveFile) (shortcutId : Option String) :
    Spares (cp.enterFolder l folder shortcutId) := by
  apply Spares.bind (Spares.attempt (spares_getOrCreateFolder hdry _ _ _ _))
  rintro (e | dest)
  · cases e with
    | runtimeError message => exact Spares.bind spares_recordFailed fun _ => Spares.pure _
    | quotaStopped reason => exact Spares.throw _
    | valueError message => exact Spares.throw _
    | client error => exact Spares.throw _
  · exact Spares.pure _

theorem spares_copyFolder (l : Level) (folder : DriveFile) (shortcutId : Option String) :
    Spares (cp.copyFolder l folder shortcutId) := by
  unfold copyFolder
  apply Spares.ite (fun _ => Spares.pure _)
  intro _
  apply Spares.bind
  · unfold skipCompleted
    apply Spares.ite
    · intro _
      apply Spares.bind (Spares.mem _)
      intro done
      exact Spares.ite (fun _ => Spares.bind (Spares.mem _) fun _ => Spares.pure _) fun _ =>
        Spares.pure _
    · exact fun _ => Spares.pure _
  · intro skipped
    apply Spares.ite (fun _ => Spares.pure _)
    intro _
    apply Spares.bind (spares_enterFolder hdry _ _ _)
    rintro (_ | dest)
    · exact Spares.pure _
    · apply Spares.bind (spares_listChildren _ _ _ _)
      intro children
      apply Spares.bind (spares_recordTreeNode _ _)
      exact fun _ => Spares.ite (fun _ => Spares.enter _) fun _ => Spares.pure _

theorem spares_processChild (l : Level) (index : ℕ) (src : DriveFile) :
    Spares (cp.processChild l index src) := by
  unfold processChild
  apply Spares.ite
  · intro _
    unfold handleContainer
    apply Spares.ite
    · intro _
      apply Spares.bind (spares_resolveShortcut _)
      rintro (_ | target)
      · exact spares_recordFailed
      · exact Spares.ite (fun _ => spares_copyFolder hdry _ _ _) fun _ =>
          spares_copyFile hdry _ _ _ _ _
    · exact fun _ => spares_copyFolder hdry _ _ _
  · exact fun _ => spares_submitFile hdry _ _ _ _

theorem spares_processChildren (l : Level) (index : ℕ) (children : List DriveFile) :
    Spares (cp.processChildren l index children) := by
  induction children with
  | nil => exact Spares.pure _
  | cons src rest ih =>
    apply Spares.bind (Spares.mem _)
    intro stopped
    apply Spares.ite (fun _ => Spares.pure _)
    exact fun _ => Spares.bind (spares_processChild hdry _ _ _) fun _ => ih

theorem spares_enqueueFolder (l : Level) (folder : DriveFile) (shortcutId : Option String)
    (pending : List Pending) : Spares (cp.enqueueFolder l folder shortcutId pending) := by
  unfold enqueueFolder
  apply Spares.ite (fun _ => Spares.pure _)
  intro _
  apply Spares.bind (spares_enterFolder hdry _ _ _)
  rintro (_ | dest)
  · exact Spares.pure _
  · exact Spares.pure _

theorem spares_enqueueChild (l : Level) (index : ℕ) (src : DriveFile) (pending : List Pending) :
    Spares (cp.enqueueChild l index src pending) := by
  unfold enqueueChild
  apply Spares.ite
  · intro _
    apply Spares.bind (spares_resolveShortcut _)
    rintro (_ | target)
    · exact Spares.bind spares_recordFailed fun _ => Spares.pure _
    · exact Spares.ite (fun _ => spares_enqueueFolder hdry _ _ _ _) fun _ =>
        Spares.bind (spares_copyFile hdry _ _ _ _ _) fun _ => Spares.pure _
  · intro _
    exact Spares.ite (fun _ => spares_enqueueFolder hdry _ _ _ _) fun _ =>
      Spares.bind (spares_submitFile hdry _ _ _ _) fun _ => Spares.pure _

theorem spares_enqueueChildren (l : Level) (index : ℕ) (children : List DriveFile) :
    ∀ pending, Spares (cp.enqueueChildren l index children pending) := by
  induction children with
  | nil => exact fun _ => Spares.pure _
  | cons src rest ih =>
    intro pending
    apply Spares.bind (Spares.mem _)
    intro stopped
    apply Spares.ite (fun _ => Spares.pure _)
    exact fun _ => Spares.bind (spares_enqueueChild hdry _ _ _ _) fun _ => ih _

theorem spares_listBatch (group : List String) : Spares (cp.listBatch group) := by
  apply Spares.bind
  · exact Spares.attempt (spares_pages (fun _ => Spares.bind (Spares.ask rfl) fun _ =>
      Spares.orThrow _) _ _)
  · rintro (e | batched)
    · cases e with
      | client error =>
        exact Spares.bind (spares_raiseIfFatalQuota hdry _ _) fun _ => Spares.pure _
      | quotaStopped reason => exact Spares.throw _
      | valueError message => exact Spares.throw _
      | runtimeError message => exact Spares.throw _
    · exact Spares.pure _

omit hdry in
theorem spares_confirmBatch (group : List String) (batched : Option ChildMap)
    (folders : List String) : ∀ result, Spares (cp.confirmBatch group batched folders result) := by
  induction folders with
  | nil => exact fun _ => Spares.pure _
  | cons folder rest ih =>
    intro result
    apply Spares.bind
    · exact Spares.ite (fun _ => spares_listChildren _ _ _ _) fun _ => Spares.pure _
    · exact fun _ => ih _

theorem spares_batchedList (groups : List (List String)) :
    ∀ result, Spares (cp.batchedList groups result) := by
  induction groups with
  | nil => exact fun _ => Spares.pure _
  | cons group rest ih =>
    intro result
    apply Spares.bind (Spares.mem _)
    intro stopped
    apply Spares.ite (fun _ => Spares.pure _)
    intro _
    apply Spares.bind (spares_listBatch hdry group)
    intro batched
    exact Spares.bind (spares_confirmBatch _ _ _ _) fun _ => ih _

omit hdry in
theorem spares_processPending (l : Level) (childMap : ChildMap) (pending : List Pending) :
    Spares (cp.processPending l childMap pending) := by
  induction pending with
  | nil => exact Spares.pure _
  | cons p rest ih =>
    apply Spares.bind (Spares.mem _)
    intro stopped
    apply Spares.ite (fun _ => Spares.pure _)
    intro _
    apply Spares.bind
    · exact Spares.ite (fun _ => Spares.enter _) fun _ => Spares.pure _
    · exact fun _ => ih

theorem spares_processLevel (l : Level) : Spares (cp.processLevel l) := by
  unfold processLevel
  apply Spares.ite
  · intro _
    apply Spares.bind (spares_buildIndex _)
    intro index
    apply Spares.bind (spares_enqueueChildren hdry _ _ _ _)
    intro pending
    apply Spares.ite (fun _ => Spares.pure _)
    intro _
    apply Spares.bind (Spares.mem _)
    intro stopped
    apply Spares.ite (fun _ => Spares.pure _)
    intro _
    exact Spares.bind (spares_batchedList hdry _ _) fun _ => spares_processPending _ _ _
  · intro _
    exact Spares.bind (spares_buildIndex _) fun _ => spares_processChildren hdry _ _ _

/-! ## The run -/

omit hdry in
theorem spares_rootAccount : Spares (do
    match ← ask (.getMetadata "root" [.id]) with
    | .error _ => pure none
    | .ok data => pure (some s!"root-{data.id}")) := by
  apply Spares.bind (Spares.ask rfl)
  rintro (e | data)
  · exact Spares.pure _
  · exact Spares.pure _

omit hdry in
theorem spares_accountId : Spares accountId := by
  apply Spares.bind (Spares.ask rfl)
  rintro (e | email)
  · exact spares_rootAccount
  · dsimp only
    split
    · exact Spares.pure _
    · exact spares_rootAccount

omit hdry in
theorem spares_isDescendantOf (candidateId ancestorId : String) :
    Spares (isDescendantOf candidateId ancestorId) := by
  unfold isDescendantOf
  apply Spares.ite (fun _ => Spares.pure _)
  intro _
  apply Spares.iterate
  rintro ⟨_ | ⟨cur, stack⟩, seen⟩
  · exact Spares.pure _
  · unfold climb
    apply Spares.ite (fun _ => Spares.pure _)
    intro _
    apply Spares.ite (fun _ => Spares.pure _)
    intro _
    apply Spares.ite (fun _ => Spares.pure _)
    intro _
    apply Spares.bind (Spares.ask rfl)
    rintro (e | data)
    · exact Spares.pure _
    · exact Spares.pure _

omit hdry in
theorem spares_preflight (destParent : String) : Spares (preflight destParent) := by
  apply Spares.bind (Spares.ask rfl)
  rintro (e | data)
  · exact Spares.pure _
  · apply Spares.ite (fun _ => Spares.pure _)
    intro _
    exact Spares.ite (fun _ => Spares.pure _) fun _ => Spares.pure _

omit hdry in
theorem spares_stopWith (reason : String) : Spares (stopWith reason) :=
  Spares.bind (Spares.mem _) fun _ => Spares.mem _

/-- The result of a dry run is not `fully_ok`, so its logs stay. -/
theorem spares_finalize (destRoot : Option String) (completed : Bool) :
    Spares (cp.finalize destRoot completed) := by
  apply Spares.bind (Spares.mem _)
  intro _
  apply Spares.bind
  · apply Spares.result
    intro r hr
    split
    · exact Spares.pure _
    · rw [if_neg (by simp [CopyResult.fullyOk, hr])]
      exact Spares.pure _
  · intro _
    apply Spares.bind
    · apply Spares.bind (Spares.mem _)
      intro r
      dsimp only
      split
      · exact Spares.pure _
      · rw [if_neg (by simp [hdry])]
        exact Spares.pure _
    · exact fun _ => Spares.mem _

theorem spares_copyInto (sourceId : String) (account destRoot : Option String) :
    Spares (cp.copyInto sourceId account destRoot) := by
  have hclosing : Spares (cp.closing destRoot) := by
    apply Spares.bind Spares.drainFutures
    intro _
    apply Spares.bind
    · exact Spares.ite (fun _ => Spares.mem _) fun _ => Spares.pure _
    · exact fun _ => Spares.ite (fun _ => spares_saveLog hdry true) fun _ => Spares.pure _
  apply Spares.bind (Spares.mem _)
  intro _
  apply Spares.bind
  · apply Spares.attempt
    unfold resume
    split
    · exact Spares.pure _
    · exact Spares.bind (spares_load _ _) fun _ => Spares.mem _
  · rintro (e | u)
    · cases e with
      | runtimeError message => exact spares_stopWith message
      | quotaStopped reason => exact Spares.throw _
      | valueError message => exact Spares.throw _
      | client error => exact Spares.throw _
    · apply Spares.bind
      · apply Spares.attempt
        apply Spares.bind
        · apply Spares.bind (spares_listChildren _ _ _ _)
          exact fun _ => Spares.bind (spares_recordTreeNode _ _) fun _ => Spares.enter _
        · intro _
          apply Spares.bind Spares.drainFutures
          exact fun _ => Spares.bind (Spares.mem _) fun _ => Spares.pure _
      · intro outcome
        apply Spares.bind hclosing
        intro _
        rcases outcome with e | completed
        · cases e with
          | quotaStopped reason => exact spares_finalize hdry _ _
          | runtimeError message => exact Spares.throw _
          | valueError message => exact Spares.throw _
          | client error => exact Spares.throw _
        · exact spares_finalize hdry _ _

theorem spares_copyTree (sourceId destParent : String) (account : Option String) :
    Spares (cp.copyTree sourceId destParent account) := by
  apply Spares.bind (Spares.ask rfl)
  rintro (e | source)
  · exact spares_stopWith _
  · apply Spares.bind (Spares.attempt (spares_getOrCreateFolder hdry _ _ _ _))
    rintro (e | destRoot)
    · cases e with
      | quotaStopped reason => exact spares_finalize hdry _ _
      | runtimeError message => exact spares_stopWith _
      | valueError message => exact Spares.throw _
      | client error => exact Spares.throw _
    · exact spares_copyInto hdry _ _ _

theorem spares_afterCheck (sourceId destParent : String) (account : Option String)
    (inside : Bool) : Spares (if inside then stopWith unsafeDestination
      else do
        match ← preflight destParent with
        | some error => stopWith error
        | none => cp.copyTree sourceId destParent account) := by
  apply Spares.ite (fun _ => spares_stopWith _)
  intro _
  apply Spares.bind (spares_preflight _)
  rintro (_ | error)
  · exact spares_copyTree hdry _ _ _
  · exact spares_stopWith _

theorem spares_run : Spares cp.run := by
  unfold run
  split
  · split
    · apply Spares.bind spares_accountId
      intro account
      apply Spares.bind (Spares.mem _)
      intro _
      apply Spares.ite
      · exact fun _ => Spares.bind (Spares.pure _) fun _ => spares_afterCheck hdry _ _ _ _
      · exact fun _ => Spares.bind (spares_isDescendantOf _ _) fun _ =>
          spares_afterCheck hdry _ _ _ _
    · exact Spares.mem _
  · exact spares_stopWith _

end Dry
end Copier

/-! ## Every run -/

/-- The result of a run says whether it is a dry run. -/
theorem Mem.dryRun_exec (m : Mem) (o : MemOp) :
    (m.exec o).2.result.dryRun = m.result.dryRun := by
  cases o <;> simp only [Mem.exec] <;> (try split) <;>
    simp [Mem.setIndex, Mem.mergeResume, Mem.reconcile, Mem.recordTreeNode]

theorem Copier.admits_dryOutcome (cp : Copier) (V : Service) (ok : StepCondition V) :
    (cp.runs V ok).Admits dryOutcome fun s => s.mem.result.dryRun = true where
  outcome {o s x s'} hs h := by
    have hstep : Site.Step s ok o x s' := Site.step_of_perform h
    cases o with
    | ask q => trivial
    | mem o =>
      cases o with
      | result =>
        rw [hstep.1]
        exact hs
      | _ => trivial
  perform {o s x s'} hs h := by
    have hstep : Site.Step s ok o x s' := Site.step_of_perform h
    rw [hstep.after]
    cases o with
    | ask q => exact hs
    | mem o =>
      rw [Mem.after, Mem.dryRun_exec]
      exact hs
  env hs h := by
    obtain ⟨reason, rfl⟩ := h
    exact hs

section Runs

-- The text of `run` must not be unfolded when its guarantee is used.
attribute [local irreducible] Prog.Guarantees

/-- Whatever the Drive holds and answers, whatever the schedule and whenever a stop is
requested: a dry run makes no mutating call. -/
theorem dry_run_makes_no_mutating_call {V : Service} {ok : StepCondition V} {cp : Copier}
    (hdry : cp.config.dryRun = true) (now : String) (d : V.State)
    {c : Config (cp.runs V ok) (Except Exc CopyResult)}
    (h : Reach (cp.runs V ok) (start (cp.runs V ok) cp.run ⟨cp.freshMem now, d⟩ []) c)
    (q : Request) (x : q.Ret) (hm : .did (.ask q) x ∈ c.world.trace) : q.mutating = false := by
  have hrun : Prog.Guarantees (S := copierSig) dryOutcome Harmless cp.run := Copier.spares_run hdry
  exact hrun.reach (cp.admits_dryOutcome V ok) (Copier.spares_processLevel hdry) hdry h (.ask q) x
    hm

end Runs

/-- A dry run of one thread. -/
def dryCopier : Copier :=
  { smallCopier with config := { smallCopier.config with dryRun := true } }

/-- A file to be copied and the folder of an earlier run. -/
def dryDrive : Drive where
  nodes := [folderNode "sourcefolder" "Source" [], folderNode "targetfolder" "Target" [],
    fileNode "first" "a.txt" ["sourcefolder"] "10" "a",
    (folderNode "mirror" "Source" ["targetfolder"]).tagged
      [("source_folder_id", "sourcefolder"), ("copied_by_tool", toolTag)]]
  nodup := by decide

def dryCopierRun : Config (openRuns dryCopier) (Except Exc CopyResult) :=
  openRun dryCopier dryDrive {} 400

theorem dryCopierRun_reach :
    Reach (openRuns dryCopier) (openStart dryCopier dryDrive) dryCopierRun :=
  openRun_reach (fun _ => rfl) 400

/-- One file would be copied, and nothing is. -/
theorem dry_run_makes_no_mutating_call_one :
    (∃ r, dryCopierRun.Returned (.ok r) ∧ r.wouldCopyCount = 1) ∧
      ∀ (q : Request) (x : q.Ret), .did (.ask q) x ∈ dryCopierRun.world.trace →
        q.mutating = false := by
  constructor
  · obtain ⟨r, hr, hP⟩ := Config.returned_of_any (c := dryCopierRun)
      (P := fun r => r.wouldCopyCount == 1) (by decide +kernel)
    exact ⟨r, hr, by simpa using hP⟩
  · exact fun q x hm => dry_run_makes_no_mutating_call rfl "" dryDrive dryCopierRun_reach q x hm

end TurboCopy
