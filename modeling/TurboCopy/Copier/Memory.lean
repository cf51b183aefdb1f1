import TurboCopy.Client
import TurboCopy.Retry
import TurboCopy.DestinationIndex
import TurboCopy.Threads.Machine

/-!
# The memory of a copier

The attributes of a `Copier` and of its `ResumeStore`, and the accesses to them
that are atomic: each section under `self._lock` and each access outside one is an
operation. An operation also names values in scope that it does not use, so that
the history of a run shows what it was performed for: the folder an access is made
for, or what verification found wrong with a copy whose reservation is released.
-/

namespace TurboCopy

open Threads

/-- `_FolderNode`. The lists stand for sets in some order of iteration. -/
structure FolderNode where
  listingOk : Bool := true
  eligible : Bool := true
  fileEffIds : List String := []
  subfolderIds : List String := []

/-- An index together with the folder it was built for. -/
structure IndexCell where
  dest : Option String
  index : DestinationIndex

structure Mem where
  stop : Bool := false
  state : ResumeState
  result : CopyResult
  dirty : ℕ := 0
  copiedSession : ℕ := 0
  runBytes : ℤ := 0
  consecRateFail : ℕ := 0
  tree : Dict FolderNode := ∅
  listingErrorFolders : Finset String := ∅
  indexes : List IndexCell := []
  ownLogFileId : Option String := none
  ownLogName : Option String := none

def flushEvery : ℕ := 50

/-! ## Completed folders -/

/-- The ids under which a failed item is known. -/
def FailedItem.keys (f : FailedItem) : List String :=
  [f.effectiveSourceId, some f.sourceId, f.sourceShortcutId, f.shortcutTargetId].filterMap truthy

/-- `all(f(x) for x in xs)` with a memo table threaded through, stopping at the first
`False`. -/
def allMemo (f : String → Dict Bool → Bool × Dict Bool) :
    List String → Dict Bool → Bool × Dict Bool
  | [], memo => (true, memo)
  | x :: xs, memo =>
    let r := f x memo
    if r.1 then allMemo f xs r.2 else (false, r.2)

/-- `is_complete`. The recursion visits a recorded folder at most once per branch, so
the number of recorded folders bounds its depth. -/
def isComplete (known : Finset String) (tree : Dict FolderNode) (fileOk : String → Bool) :
    ℕ → List String → String → Dict Bool → Bool × Dict Bool
  | 0, _, _, memo => (false, memo)
  | fuel + 1, stack, fid, memo =>
    if fid ∈ known then (true, memo)
    else match AList.lookup fid memo with
    | some ok => (ok, memo)
    | none =>
      if fid ∈ stack then (false, memo)
      else match AList.lookup fid tree with
      | none => (false, AList.insert fid false memo)
      | some node =>
        if !node.listingOk || !node.eligible then (false, AList.insert fid false memo)
        else
          let r := if node.fileEffIds.all fileOk then
              allMemo (isComplete known tree fileOk fuel (fid :: stack)) node.subfolderIds memo
            else (false, memo)
          (r.1, AList.insert fid r.1 r.2)

/-- The members of `fids` that are complete, computed with one memo table. -/
def completeAmong (f : String → Dict Bool → Bool × Dict Bool) :
    List String → Dict Bool → List String
  | [], _ => []
  | x :: xs, memo =>
    let r := f x memo
    if r.1 then x :: completeAmong f xs r.2 else completeAmong f xs r.2

/-- `_compute_completed_folders`. -/
def Mem.computeCompletedFolders (m : Mem) : Finset String :=
  let failedIds := (m.result.failedItems ++ m.result.previousFailedItems).flatMap FailedItem.keys
  let fileOk := fun eid => decide (eid ∈ m.state.copiedIds) && !decide (eid ∈ failedIds)
  (completeAmong (isComplete m.state.completedFolders m.tree fileOk (m.tree.keys.length + 1) [])
    m.tree.keys ∅).toFinset

/-! ## Operations -/

inductive MemOp
  | stopIsSet
  | setStop
  | setStopReason (reason : String)
  | beginRun (account : Option String) (sourceRoot : String)
  | setDestRoot (id : Option String)
  | destRoot
  | mergeResume (loaded : ResumeState)
  | isCopied (effId : String)
  | trustResume (index : ℕ) (effId : String) (src : DriveFile)
  | popMatch (index : ℕ) (src : DriveFile) (mode : VerifyMode) (allowNameOnly : Bool)
      (effId : String)
  | wouldCopy (size : ℤ)
  | reserve (maxCopySizeGb : ℚ) (size : ℤ) (reason : String)
  | release (size : ℤ) (detail : Option String)
  | bumpStreak
  | resetStreak
  | markCopied (effId : String) (size : ℤ)
  | recordExisting (effId : String)
  | recordFailed (item : FailedItem)
  | hasPrevious
  | reconcile (keys : List String)
  | flushDue
  | beginSave (force : Bool)
  | snapshot (now : String)
  | ownLog
  | setOwnLog (id : Option String)
  | setOwnLogName (name : String)
  | logSaveFailed (error : String)
  | cachedFolder (dest key : String)
  | mapFolder (dest key id : String)
  | newIndex (dest : Option String) (items : List DriveFile)
  | listingError (folder : String)
  | recordTreeNode (folder : String) (children : List DriveFile)
  | isCompleted (dest : Option String) (folder : String)
  | skipFolder
  | recordCompleted
  | setCompleted (completed : Bool)
  | result

@[reducible] def MemOp.Out : MemOp → Type
  | stopIsSet => Bool
  | destRoot => Option String
  | isCopied _ => Bool
  | trustResume _ _ _ => Option DriveFile
  | popMatch _ _ _ _ _ => Option DriveFile
  | reserve _ _ _ => Bool
  | bumpStreak => Bool
  | hasPrevious => Bool
  | flushDue => Bool
  | beginSave _ => Bool
  | snapshot _ => ResumeState
  | ownLog => Option String × Option String
  | cachedFolder _ _ => Option String
  | newIndex _ _ => ℕ
  | isCompleted _ _ => Bool
  | result => CopyResult
  | _ => Unit

namespace Mem

/-- The index behind a reference; a reference that was never handed out is empty. -/
def indexAt (m : Mem) (i : ℕ) : DestinationIndex := ((m.indexes[i]?).map IndexCell.index).getD {}

def setIndex (m : Mem) (i : ℕ) (idx : DestinationIndex) : Mem :=
  { m with indexes := m.indexes.modify i fun c => { c with index := idx } }

/-- Lines 1080-1096: drop the prior failures known under one of `keys`, and rebuild the
list that is serialized. -/
def reconcile (m : Mem) (keys : List String) : Mem :=
  let hit (o : Option String) : Bool := o.any (· ∈ keys)
  let previous := m.result.previousFailedItems.filter fun f =>
    !(hit f.effectiveSourceId || decide (f.sourceId ∈ keys) || hit f.sourceShortcutId ||
      hit f.shortcutTargetId)
  { m with
    result := { m.result with previousFailedItems := previous }
    state := { m.state with
      failedItems := previous ++ m.state.failedItems.filter fun f => f ∉ previous } }

/-- Lines 1144-1152. -/
def mergeResume (m : Mem) (loaded : ResumeState) : Mem :=
  { m with
    state := { m.state with
      copiedIds := m.state.copiedIds ∪ loaded.copiedIds
      folderMap := loaded.folderMap.entries.foldl (fun d e => Dict.setdefault d e.1 e.2)
        m.state.folderMap
      completedFolders := m.state.completedFolders ∪ loaded.completedFolders
      copiedBytes := max m.state.copiedBytes loaded.copiedBytes
      createdAt := if loaded.createdAt = "" then m.state.createdAt else loaded.createdAt }
    result := { m.result with previousFailedItems := loaded.failedItems } }

/-- Lines 986-995. -/
def recordTreeNode (m : Mem) (folder : String) (children : List DriveFile) : Mem :=
  let step (n : FolderNode) (src : DriveFile) : FolderNode :=
    if src.isShortcut then { n with eligible := false }
    else if src.isFolder then { n with subfolderIds := n.subfolderIds.insert src.id }
    else { n with fileEffIds := n.fileEffIds.insert src.id }
  let node := children.foldl step { listingOk := folder ∉ m.listingErrorFolders }
  { m with tree := AList.insert folder node m.tree }

/-- The effect of an operation on the memory. -/
def exec (m : Mem) : (o : MemOp) → o.Out × Mem
  | .stopIsSet => (m.stop, m)
  | .setStop => ((), { m with stop := true })
  | .setStopReason reason => ((), { m with result := { m.result with stopReason := some reason } })
  | .beginRun account sourceRoot =>
    ((), { m with state := { m.state with account := account, sourceRootId := some sourceRoot } })
  | .setDestRoot id => ((), { m with state := { m.state with destRootId := id } })
  | .destRoot => (m.state.destRootId, m)
  | .mergeResume loaded => ((), m.mergeResume loaded)
  | .isCopied effId => (decide (effId ∈ m.state.copiedIds), m)
  | .trustResume i effId _ =>
    match (m.indexAt i).popByAppProp effId with
    | (some item, idx) =>
      (some item, { m.setIndex i idx with
        result := { m.result with skippedCount := m.result.skippedCount + 1 } })
    | (none, _) =>
      (none, { m with state := { m.state with copiedIds := m.state.copiedIds.erase effId } })
  | .popMatch i src mode allowNameOnly effId =>
    match (m.indexAt i).popMatch src mode allowNameOnly effId with
    | (some item, idx) => (some item, m.setIndex i idx)
    | (none, _) => (none, m)
  | .wouldCopy size =>
    ((), { m with result := { m.result with
      wouldCopyCount := m.result.wouldCopyCount + 1
      wouldCopyBytes := m.result.wouldCopyBytes + size } })
  | .reserve maxGb size reason =>
    if 0 < maxGb ∧ maxGb * gib < ((m.runBytes + size : ℤ) : ℚ) then
      (false, { m with stop := true, result := { m.result with stopReason := some reason } })
    else (true, { m with runBytes := m.runBytes + size })
  | .release size _ => ((), { m with runBytes := m.runBytes - size })
  | .bumpStreak =>
    (decide (rateLimitStopThreshold ≤ m.consecRateFail + 1),
      { m with consecRateFail := m.consecRateFail + 1 })
  | .resetStreak => ((), { m with consecRateFail := 0 })
  | .markCopied effId size =>
    ((), { m with
      state := { m.state with
        copiedIds := insert effId m.state.copiedIds
        copiedBytes := m.state.copiedBytes + size }
      result := { m.result with
        copiedCount := m.result.copiedCount + 1
        copiedBytes := m.result.copiedBytes + size }
      dirty := m.dirty + 1
      copiedSession := m.copiedSession + 1
      consecRateFail := 0 })
  | .recordExisting effId =>
    ((), { m with
      state := { m.state with copiedIds := insert effId m.state.copiedIds }
      result := { m.result with skippedCount := m.result.skippedCount + 1 }
      dirty := m.dirty + 1 })
  | .recordFailed item =>
    ((), { m with
      state := { m.state with failedItems := m.state.failedItems ++ [item] }
      result := { m.result with failedItems := m.result.failedItems ++ [item] } })
  | .hasPrevious => (!m.result.previousFailedItems.isEmpty, m)
  | .reconcile keys => ((), m.reconcile keys)
  | .flushDue => (decide (flushEvery ≤ m.dirty), m)
  | .beginSave force =>
    if force || decide (flushEvery ≤ m.dirty) then (true, { m with dirty := 0 }) else (false, m)
  | .snapshot now =>
    let state := { m.state with updatedAt := now }
    (state, { m with state := state })
  | .ownLog => ((m.ownLogFileId, m.ownLogName), m)
  | .setOwnLog id => ((), { m with ownLogFileId := id })
  | .setOwnLogName name => ((), { m with ownLogName := some name })
  | .logSaveFailed error =>
    ((), { m with result := { m.result with logSaveFailed := true, logSaveError := some error } })
  | .cachedFolder _ key => (AList.lookup key m.state.folderMap, m)
  | .mapFolder _ key id =>
    ((), { m with state := { m.state with folderMap := AList.insert key id m.state.folderMap } })
  | .newIndex dest items =>
    (m.indexes.length, { m with indexes := m.indexes ++ [⟨dest, DestinationIndex.build items⟩] })
  | .listingError folder =>
    ((), { m with
      result := { m.result with hadListingErrors := true }
      listingErrorFolders := insert folder m.listingErrorFolders })
  | .recordTreeNode folder children => ((), m.recordTreeNode folder children)
  | .isCompleted _ folder => (decide (folder ∈ m.state.completedFolders), m)
  | .skipFolder =>
    ((), { m with result := { m.result with
      skippedCompleteFolders := m.result.skippedCompleteFolders + 1 } })
  | .recordCompleted =>
    ((), { m with state := { m.state with
      completedFolders := m.state.completedFolders ∪ m.computeCompletedFolders } })
  | .setCompleted completed => ((), { m with result := { m.result with completed := completed } })
  | .result => (m.result, m)

/-- No operation clears the stop flag. -/
theorem stop_exec (m : Mem) (o : MemOp) (h : m.stop = true) : (m.exec o).2.stop = true := by
  cases o <;> simp only [exec] <;> (try split) <;>
    simp_all [setIndex, mergeResume, reconcile, recordTreeNode]

/-- `request_stop`, which a signal handler may call at any moment. -/
def requestStop (m : Mem) (reason : Option String) : Mem :=
  let text := orElse reason "Stop requested; progress saved to the resume log."
  { m with
    stop := true
    result := { m.result with
      stopReason := (truthy m.result.stopReason).orElse fun _ => some text } }

end Mem

/-! ## The signature of the engine -/

inductive CopierOp
  | mem (o : MemOp)
  | ask (q : Request)

@[reducible] def CopierOp.Out : CopierOp → Type
  | mem o => o.Out
  | ask q => q.Ret

/-- The arguments of `_process_level`. -/
structure Level where
  dest : Option String
  children : List DriveFile
  visited : Finset String
  parentSourceId : String

def copierSig : Sig where
  Op := CopierOp
  Out := CopierOp.Out
  Arg := Level
  Res := Except Exc Unit

/-- A procedure of the engine: a program that may raise. -/
def CopierM (α : Type) : Type 1 := Prog copierSig (Except Exc α)

namespace CopierM

variable {α β : Type}

def bind (x : CopierM α) (f : α → CopierM β) : CopierM β :=
  Prog.bind x fun
    | .ok a => f a
    | .error e => .pure (.error e)

instance : Monad CopierM where
  pure a := .pure (.ok a)
  bind := bind

def throw (e : Exc) : CopierM α := .pure (.error e)

/-- Run a procedure and hand over what it raised. -/
def attempt (x : CopierM α) : CopierM (Except Exc α) := Prog.bind x fun r => .pure (.ok r)

def mem (o : MemOp) : CopierM o.Out :=
  .act (S := copierSig) (.mem o) fun x => .pure (.ok x)

def ask (q : Request) : CopierM q.Ret :=
  .act (S := copierSig) (.ask q) fun x => .pure (.ok x)

/-- The result of a call, or its exception raised again. -/
def orThrow : Except ApiError α → CopierM α
  | .ok a => pure a
  | .error e => throw (.client e)

/-- The recursive call of `_process_level`. -/
def enter (l : Level) : CopierM Unit := .recur (S := copierSig) l fun r => .pure r

/-- `while True`: run the body until it breaks with a result or raises. -/
def iterate (body : β → CopierM (β ⊕ α)) (b : β) : CopierM α :=
  .loop (fun b => Prog.bind (body b) fun
    | .ok (.inl b') => .pure (.inl b')
    | .ok (.inr a) => .pure (.inr (.ok a))
    | .error e => .pure (.inr (.error e))) b .pure

/-- `self._executor.submit`, for a task that raises nothing. -/
def submit (task : Prog copierSig Unit) : CopierM Unit := .fork task (.pure (.ok ()))

/-- `len(self._futures)`. -/
def pendingFutures : CopierM ℕ := .pending fun n => .pure (.ok n)

/-- Wait for a first finished future and consume the finished ones. -/
def reapFutures : CopierM Unit := .reap (.pure (.ok ()))

/-- Wait until every future has finished. -/
def drainFutures : CopierM Unit := .drain (.pure (.ok ()))

end CopierM
end TurboCopy
