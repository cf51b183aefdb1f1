import TurboCopy.Threads.Promptness
import TurboCopy.Copier.Straight
import TurboCopy.Copier.Failures

/-!
# A stop is prompt

The texts of all procedures of the engine, read for what they do once the stop flag is set and for
the tasks they put into the pool. Between two looks at the flag a thread copies at most one file or
creates at most one folder, and the pool never holds more than `_max_pending` tasks.
-/

namespace TurboCopy

open Threads CopierM

/-- Who looks at the stop flag finds it set. -/
def stopHeard : (o : CopierOp) → o.Out → Prop
  | .mem .stopIsSet, b => b = true
  | _, _ => True

/-- The requests that add a copy or a folder to the destination. -/
def additions : CopierOp → ℕ
  | .ask (.copyFile _ _ _ _) => 1
  | .ask (.createFolder _ _ _) => 1
  | _ => 0

/-- A procedure that adds at most `m` items between two looks at the flag, at most `k` before the
first, and keeps the pool within bounds. -/
structure CopierM.Tame (cp : Copier) (m k : ℕ) {α : Type} (x : CopierM α) : Prop where
  poised : Prog.Poised (S := copierSig) stopHeard additions 1 x m
  spends : Prog.Spends (S := copierSig) stopHeard additions x k
  fits : Prog.Fits (S := copierSig) cp.maxPending x cp.maxPending

namespace CopierM

variable {cp : Copier} {α β : Type}

/-- It adds nothing. -/
abbrev Free (cp : Copier) (x : CopierM α) : Prop := Tame cp 0 0 x

/-- It looks at the flag before it adds anything. -/
abbrev Heeds (cp : Copier) (x : CopierM α) : Prop := Tame cp 1 0 x

/-- It adds at most one item before it looks at the flag. -/
abbrev Once (cp : Copier) (x : CopierM α) : Prop := Tame cp 1 1 x

namespace Tame

variable {m k n l M : ℕ}

theorem mono {x : CopierM α} (h : Tame cp m k x) (hm : m ≤ n) (hk : k ≤ l) : Tame cp n l x :=
  ⟨h.poised.mono hm, h.spends.mono hk, h.fits⟩

theorem pure (a : α) : Free cp (pure a : CopierM α) := ⟨trivial, trivial, trivial⟩

theorem throw (e : Exc) : Free cp (throw e : CopierM α) := ⟨trivial, trivial, trivial⟩

theorem mem (o : MemOp) : Free cp (mem o) :=
  ⟨⟨⟨Nat.zero_le _, fun _ _ => trivial⟩, fun _ => trivial⟩, ⟨Nat.zero_le _, fun _ _ => trivial⟩,
    fun _ => trivial⟩

theorem ask {q : Request} (hq : additions (.ask q) = 0) : Free cp (ask q) := by
  have hle : additions (.ask q) ≤ 0 := hq.le
  exact ⟨⟨⟨hle, fun _ _ => trivial⟩, fun _ => trivial⟩, ⟨hle, fun _ _ => trivial⟩, fun _ => trivial⟩

theorem adds {q : Request} (hq : additions (.ask q) = 1) : Once cp (CopierM.ask q) := by
  have hle : additions (.ask q) ≤ 1 := hq.le
  exact ⟨⟨⟨hle, fun _ _ => trivial⟩, fun _ => trivial⟩, ⟨hle, fun _ _ => trivial⟩, fun _ => trivial⟩

theorem bind {x : CopierM α} {f : α → CopierM β} (hx : Tame cp m k x)
    (hf : ∀ a, Tame cp n l (f a)) (hM : m + l ≤ M) (hn : n ≤ M) :
    Tame cp M (k + l) (x >>= f) where
  poised := by
    apply Prog.Poised.bind hx.poised (r := l) _ _ hM
    · rintro (e | a)
      · trivial
      · exact (hf a).spends
    · rintro (e | a)
      · trivial
      · exact (hf a).poised.mono hn
  spends := by
    apply Prog.Spends.bind hx.spends
    rintro (e | a)
    · trivial
    · exact (hf a).spends
  fits := by
    apply Prog.Fits.bind hx.fits le_rfl
    rintro (e | a)
    · trivial
    · exact (hf a).fits

theorem free {x : CopierM α} {f : α → CopierM β} (hx : Free cp x) (hf : ∀ a, Free cp (f a)) :
    Free cp (x >>= f) :=
  hx.bind hf le_rfl le_rfl

theorem heeds {x : CopierM α} {f : α → CopierM β} (hx : Heeds cp x)
    (hf : ∀ a, Heeds cp (f a)) : Heeds cp (x >>= f) :=
  hx.bind hf le_rfl le_rfl

/-- At most one item is added in the first part. -/
theorem first {x : CopierM α} {f : α → CopierM β} (hx : Once cp x)
    (hf : ∀ a, Heeds cp (f a)) : Once cp (x >>= f) :=
  hx.bind hf le_rfl le_rfl

/-- At most one item is added in the second part. -/
theorem second {x : CopierM α} {f : α → CopierM β} (hx : Free cp x)
    (hf : ∀ a, Once cp (f a)) : Once cp (x >>= f) := by
  have h := hx.bind hf (M := 1) le_rfl le_rfl
  rwa [Nat.zero_add] at h

theorem toHeeds {x : CopierM α} (h : Free cp x) : Heeds cp x := h.mono (Nat.zero_le _) le_rfl

theorem toOnce {x : CopierM α} (h : Heeds cp x) : Once cp x := h.mono le_rfl (Nat.zero_le _)

theorem asOnce {x : CopierM α} (h : Free cp x) : Once cp x := h.toHeeds.toOnce

/-- A look at the flag, and something to do when it is not set. -/
theorem checked {y z : CopierM α} (hz : Heeds cp z) (hy : Once cp y) :
    Heeds cp (CopierM.mem .stopIsSet >>= fun b => if b then z else y) where
  poised := by
    refine ⟨⟨Nat.zero_le _, ?_⟩, ?_⟩
    · rintro _ rfl
      exact hz.spends.mono (Nat.zero_le _)
    · rintro (_ | _)
      · exact hy.poised
      · exact hz.poised
  spends := by
    refine ⟨Nat.zero_le _, ?_⟩
    rintro _ rfl
    exact hz.spends
  fits := by
    rintro (_ | _)
    · exact hy.fits
    · exact hz.fits

/-- A procedure whose exceptions are caught. -/
theorem attempt {x : CopierM α} {f : Except Exc α → CopierM β} (hx : Tame cp m k x)
    (hf : ∀ r, Tame cp n l (f r)) (hM : m + l ≤ M) (hn : n ≤ M) :
    Tame cp M (k + l) (CopierM.attempt x >>= f) := by
  have heq : (CopierM.attempt x >>= f) = Prog.bind (S := copierSig) x f := Prog.bind_assoc x _ _
  rw [heq]
  exact ⟨Prog.Poised.bind hx.poised (r := l) (fun r => (hf r).spends)
    (fun r => (hf r).poised.mono hn) hM, Prog.Spends.bind hx.spends fun r => (hf r).spends,
    Prog.Fits.bind hx.fits le_rfl fun r => (hf r).fits⟩

theorem attemptFree {x : CopierM α} {f : Except Exc α → CopierM β} (hx : Free cp x)
    (hf : ∀ r, Free cp (f r)) : Free cp (CopierM.attempt x >>= f) := hx.attempt hf le_rfl le_rfl

theorem attemptHeeds {x : CopierM α} {f : Except Exc α → CopierM β} (hx : Heeds cp x)
    (hf : ∀ r, Heeds cp (f r)) : Heeds cp (CopierM.attempt x >>= f) := hx.attempt hf le_rfl le_rfl

theorem attemptOnce {x : CopierM α} {f : Except Exc α → CopierM β} (hx : Once cp x)
    (hf : ∀ r, Heeds cp (f r)) : Once cp (CopierM.attempt x >>= f) := hx.attempt hf le_rfl le_rfl

theorem ite {x y : CopierM α} {p : Prop} [hp : Decidable p] (hx : p → Tame cp m k x)
    (hy : ¬p → Tame cp m k y) : Tame cp m k (if p then x else y) := by
  cases hp with
  | isTrue h => exact hx h
  | isFalse h => exact hy h

theorem orThrow (r : Except ApiError α) : Free cp (orThrow r) := by
  cases r with
  | ok a => exact pure a
  | error e => exact throw _

theorem enter (l : Level) : Heeds cp (enter l) :=
  ⟨⟨⟨0, le_rfl, fun _ => trivial⟩, fun _ => trivial⟩, fun _ => trivial, fun _ => trivial⟩

theorem iterate {body : β → CopierM (β ⊕ α)} (hbody : ∀ b, Free cp (body b)) (b : β) :
    Free cp (iterate body b) where
  poised := by
    refine ⟨fun b => Prog.Poised.bind (hbody b).poised (r := 0) ?_ ?_ le_rfl, fun _ => trivial,
      fun _ => trivial⟩
    · rintro (e | b' | a) <;> trivial
    · rintro (e | b' | a) <;> trivial
  spends := by
    refine ⟨fun b => Prog.Spends.bind (n := 0) (hbody b).spends ?_, fun _ => trivial⟩
    rintro (e | b' | a) <;> trivial
  fits := by
    refine ⟨fun b => Prog.Fits.bind (hbody b).fits le_rfl ?_, fun _ => trivial⟩
    rintro (e | b' | a) <;> trivial

end Tame
end CopierM

namespace Copier

variable {cp : Copier}

/-! ## Saving and recording -/

theorem free_recordFailed {src : DriveFile} {reason message : String}
    {parentSourceId shortcutTargetId sourceShortcutId effectiveSourceId : Option String} :
    Free cp (recordFailed src reason message parentSourceId shortcutTargetId sourceShortcutId
      effectiveSourceId) :=
  Tame.free (Tame.ask rfl) fun _ => Tame.mem _

theorem free_reconcileFailed (effId : String) (src : DriveFile) :
    Free cp (reconcileFailed effId src) :=
  Tame.free (Tame.mem _) fun _ => Tame.ite (fun _ => Tame.mem _) fun _ => Tame.pure _

theorem free_save : Free cp cp.save := by
  apply Tame.free (Tame.ask rfl)
  intro now
  apply Tame.free (Tame.mem _)
  intro state
  apply Tame.free (Tame.mem _)
  intro own
  dsimp only
  split
  · exact Tame.free (Tame.ask rfl) fun _ => Tame.orThrow _
  · apply Tame.free (Tame.ask rfl)
    intro r
    exact Tame.free (Tame.orThrow _) fun _ => Tame.mem _

theorem free_saveLog (force : Bool) : Free cp (cp.saveLog force) := by
  apply Tame.ite fun _ => Tame.pure _
  intro _
  apply Tame.free (Tame.mem _)
  intro dest
  apply Tame.ite fun _ => Tame.pure _
  intro _
  apply Tame.free (Tame.mem _)
  intro due
  apply Tame.ite _ fun _ => Tame.pure _
  intro _
  apply Tame.attemptFree free_save
  rintro (e | u)
  · exact Tame.mem _
  · exact Tame.pure _

theorem free_maybeFlush : Free cp cp.maybeFlush := by
  apply Tame.ite fun _ => Tame.pure _
  intro _
  apply Tame.free (Tame.mem _)
  exact fun _ => Tame.ite (fun _ => free_saveLog false) fun _ => Tame.pure _

theorem free_stopping (text : String) :
    Free cp (do
      mem (.setStopReason text)
      mem .setStop
      if (truthy (← mem .destRoot)).isSome && !cp.config.dryRun then cp.saveLog true
      throw (.quotaStopped (some text)) : CopierM Unit) := by
  apply Tame.free (Tame.mem _)
  intro _
  apply Tame.free (Tame.mem _)
  intro _
  apply Tame.free (Tame.mem _)
  intro dest
  apply Tame.ite
  · exact fun _ => Tame.free (free_saveLog true) fun _ => Tame.throw _
  · exact fun _ => Tame.throw _

theorem free_raiseIfFatalQuota (e : ApiError)
    (context : String) : Free cp (cp.raiseIfFatalQuota e context) := by
  unfold raiseIfFatalQuota
  exact Tame.ite (fun _ => free_stopping _) fun _ => Tame.pure _

/-! ## Files -/

theorem free_verifyCopy (newId : Option String) (src : DriveFile) (shortcutId : Option String) :
    Free cp (verifyCopy newId src shortcutId) := by
  unfold verifyCopy
  split
  · exact Tame.pure _
  · apply Tame.free (Tame.ask rfl)
    rintro (e | data)
    · exact Tame.pure _
    · exact Tame.pure _

theorem free_skipTrusted (effId : String) (src : DriveFile) (index : ℕ) :
    Free cp (skipTrusted effId src index) := by
  apply Tame.free (Tame.mem _)
  intro copied
  apply Tame.ite
  · intro _
    apply Tame.free (Tame.mem _)
    intro item
    apply Tame.ite
    · exact fun _ => Tame.free (free_reconcileFailed _ _) fun _ => Tame.pure _
    · exact fun _ => Tame.pure _
  · exact fun _ => Tame.pure _

theorem free_skipMatched (effId : String) (src : DriveFile) (index : ℕ) :
    Free cp (cp.skipMatched effId src index) := by
  apply Tame.free (Tame.mem _)
  intro item
  apply Tame.ite
  · intro _
    apply Tame.free
    · exact Tame.free (Tame.mem _) fun _ => free_maybeFlush
    · exact fun _ => Tame.free (free_reconcileFailed _ _) fun _ => Tame.pure _
  · exact fun _ => Tame.pure _

theorem free_handleCopyException (e : ApiError)
    (src : DriveFile) (parentSourceId : String) (shortcutId : Option String) (effId : String) :
    Free cp (cp.handleCopyException e src parentSourceId shortcutId effId) := by
  apply Tame.free (free_raiseIfFatalQuota _ _)
  intro _
  apply Tame.free
  · unfold noteStreak
    apply Tame.ite
    · intro _
      apply Tame.free (Tame.mem _)
      exact fun _ => Tame.ite (fun _ => free_stopping _) fun _ => Tame.pure _
    · exact fun _ => Tame.mem _
  · exact fun _ => free_recordFailed

theorem free_settleCopy (newId : Option String) (src : DriveFile) (parentSourceId : String)
    (shortcutId : Option String) (effId : String) :
    Free cp (cp.settleCopy newId src parentSourceId shortcutId effId) := by
  apply Tame.free (free_verifyCopy _ _ _)
  rintro (_ | detail)
  · apply Tame.free
    · exact Tame.free (Tame.mem _) fun _ => free_maybeFlush
    · exact fun _ => free_reconcileFailed _ _
  · apply Tame.free (Tame.mem _)
    intro _
    apply Tame.free (Tame.mem _)
    exact fun _ => free_recordFailed

/-- The copy, with no look at the flag. -/
theorem once_copyMissing (dest : Option String) (src : DriveFile) (parentSourceId : String)
    (shortcutId : Option String) (effId : String) :
    Once cp (cp.copyMissing dest src parentSourceId shortcutId effId) := by
  apply Tame.second (Tame.mem _)
  intro granted
  apply Tame.ite
  · intro _
    split
    · exact (Tame.throw _).asOnce
    · apply Tame.first (Tame.adds rfl)
      rintro (e | newId)
      · apply Tame.toHeeds
        apply Tame.free (Tame.mem _)
        exact fun _ => free_handleCopyException _ _ _ _ _
      · exact (free_settleCopy _ _ _ _ _).toHeeds
  · exact fun _ => (Tame.throw _).asOnce

theorem heeds_copyFile (dest : Option String) (src : DriveFile) (index : ℕ)
    (parentSourceId : String) (shortcutId : Option String) :
    Heeds cp (cp.copyFile dest src index parentSourceId shortcutId) := by
  unfold copyFile
  apply Tame.checked (Tame.pure _).toHeeds
  apply Tame.second (free_skipTrusted _ _ _)
  intro trusted
  apply Tame.ite fun _ => (Tame.pure _).asOnce
  intro _
  apply Tame.second (free_skipMatched _ _ _)
  intro matched
  apply Tame.ite fun _ => (Tame.pure _).asOnce
  intro _
  apply Tame.ite fun _ => free_recordFailed.asOnce
  intro _
  exact Tame.ite (fun _ => (Tame.mem _).asOnce) fun _ => once_copyMissing _ _ _ _ _

/-! ## The pool -/

theorem heeds_workerBody (dest : Option String) (src : DriveFile) (index : ℕ)
    (parentSourceId : String) : Heeds cp (do
      if ← mem .stopIsSet then pure ()
      else
        match ← attempt (cp.copyFile dest src index parentSourceId none) with
        | .ok () => pure ()
        | .error (.quotaStopped _) => pure ()
        | .error e =>
          recordFailed src (orElse (some (excReason e).1) "workerError")
            (orElse (some (excReason e).2) e.text) (some parentSourceId) none none
            (some src.id)) := by
  apply Tame.checked (Tame.pure _).toHeeds
  apply Tame.toOnce
  apply Tame.attemptHeeds (heeds_copyFile dest src index parentSourceId none)
  rintro ((reason | message | message | error) | u)
  · exact (Tame.pure _).toHeeds
  · exact free_recordFailed.toHeeds
  · exact free_recordFailed.toHeeds
  · exact free_recordFailed.toHeeds
  · exact (Tame.pure _).toHeeds

theorem lone_copyFileWorker (dest : Option String) (src : DriveFile) (index : ℕ)
    (parentSourceId : String) : (cp.copyFileWorker dest src index parentSourceId).Lone :=
  (straight_workerBody dest src index parentSourceId).lone.bind fun _ => trivial

theorem maxPending_pos : 0 < cp.maxPending := lt_max_of_lt_right (by norm_num)

/-- The submission of a task, apart from the room it needs. -/
structure Submits (cp : Copier) (x : CopierM Unit) : Prop where
  poised : Prog.Poised (S := copierSig) stopHeard additions 1 x 1
  spends : Prog.Spends (S := copierSig) stopHeard additions x 0
  fits : ∀ n < cp.maxPending, Prog.Fits (S := copierSig) cp.maxPending x n

theorem submits_checked {task : Prog copierSig Unit} (hlone : task.Lone)
    (hspends : task.Spends stopHeard additions 0) (hpoised : task.Poised stopHeard additions 1 1) :
    Submits cp (do if ← mem .stopIsSet then pure () else submit task) where
  poised := by
    refine ⟨⟨Nat.zero_le _, ?_⟩, ?_⟩
    · rintro _ rfl
      trivial
    · rintro (_ | _)
      · exact ⟨⟨hspends, hpoised⟩, trivial, trivial⟩
      · trivial
  spends := by
    refine ⟨Nat.zero_le _, ?_⟩
    rintro _ rfl
    trivial
  fits := by
    rintro n hn (_ | _)
    · exact ⟨hlone, hn, trivial⟩
    · trivial

theorem of_ite {α : Type} {P : CopierM α → Prop} {x y : CopierM α} {p : Prop} [hp : Decidable p]
    (hx : p → P x) (hy : ¬p → P y) : P (if p then x else y) := by
  cases hp with
  | isTrue h => exact hx h
  | isFalse h => exact hy h

/-- A task is submitted when there is room for it in the pool. -/
theorem heeds_submitting {x : CopierM Unit} (hx : Submits cp x) :
    Heeds cp (pendingFutures >>= fun n =>
      if cp.maxPending ≤ n then reapFutures >>= fun _ => x else x) := by
  have hpos : 0 < cp.maxPending := maxPending_pos
  have hspends (n : ℕ) : Prog.Spends (S := copierSig) stopHeard additions
      (if cp.maxPending ≤ n then reapFutures >>= fun _ => x else x : CopierM Unit) 0 :=
    of_ite (P := fun y => Prog.Spends (S := copierSig) stopHeard additions y 0)
      (fun _ => hx.spends) fun _ => hx.spends
  constructor
  · refine ⟨fun n => (hspends n).mono (Nat.zero_le 1), fun n => ?_⟩
    exact of_ite (P := fun y => Prog.Poised (S := copierSig) stopHeard additions 1 y 1)
      (fun _ => ⟨hx.spends.mono (Nat.zero_le 1), hx.poised⟩) fun _ => hx.poised
  · exact hspends
  · intro n hn
    exact of_ite (P := fun y => Prog.Fits (S := copierSig) cp.maxPending y n)
      (fun _ => hx.fits (n - 1) (by omega)) fun h => hx.fits n (by omega)

theorem heeds_submitFile (dest : Option String) (src : DriveFile) (index : ℕ)
    (parentSourceId : String) :
    Heeds cp (cp.submitFile dest src index parentSourceId) := by
  have hbody := @heeds_workerBody cp dest src index parentSourceId
  unfold submitFile
  apply Tame.ite
  · intro _
    refine heeds_submitting (submits_checked (lone_copyFileWorker _ _ _ _) ?_ ?_)
    · exact hbody.spends.bind (n := 0) fun _ => trivial
    · exact hbody.poised.bind (r := 0) (fun _ => trivial) (fun _ => trivial) le_rfl
  · exact fun _ => heeds_copyFile _ _ _ _ _

/-! ## Folders and listings -/

theorem free_knownFolder (parent sourceFolderId : String)
    (shortcutId : Option String) : Free cp (cp.knownFolder parent sourceFolderId shortcutId) := by
  have hverify (id key : String) : Free cp (cp.verifyDestFolder id key shortcutId) := by
    apply Tame.free (Tame.ask rfl)
    rintro (e | data)
    · exact Tame.free (free_raiseIfFatalQuota _ _) fun _ => Tame.pure _
    · exact Tame.pure _
  have hcached (key : String) : Free cp (cp.cachedDestFolder parent key shortcutId) := by
    apply Tame.free (Tame.mem _)
    intro id
    split
    · exact Tame.pure _
    · apply Tame.free (hverify _ _)
      exact fun _ => Tame.ite (fun _ => Tame.pure _) fun _ => Tame.pure _
  have hfind : Free cp (cp.findDestFolder parent sourceFolderId shortcutId) := by
    apply Tame.ite fun _ => Tame.pure _
    intro _
    apply Tame.free (Tame.ask rfl)
    rintro (e | page)
    · exact Tame.free (free_raiseIfFatalQuota _ _) fun _ => Tame.pure _
    · dsimp only
      split
      · exact Tame.pure _
      · exact Tame.pure _
  unfold knownFolder
  apply Tame.ite fun _ => Tame.pure _
  intro _
  apply Tame.free (hcached _)
  rintro (_ | cached)
  · apply Tame.free hfind
    intro id
    split
    · exact Tame.pure _
    · exact Tame.free (Tame.mem _) fun _ => Tame.pure _
  · exact Tame.pure _

/-- The creation of a folder, with no look at the flag. -/
theorem once_createFolder (parent name sourceFolderId : String) (shortcutId : Option String) :
    Once cp (cp.createFolder parent name sourceFolderId shortcutId) := by
  unfold createFolder
  split
  · exact (Tame.throw _).asOnce
  · apply Tame.first (Tame.adds rfl)
    rintro (e | newId)
    · apply Tame.toHeeds
      apply Tame.free (free_raiseIfFatalQuota _ _)
      exact fun _ => Tame.throw _
    · apply Tame.toHeeds
      dsimp only
      split
      · exact Tame.pure _
      · apply Tame.ite fun _ => Tame.pure _
        intro _
        apply Tame.free (Tame.mem _)
        exact fun _ => Tame.free (free_saveLog false) fun _ => Tame.pure _

theorem once_getOrCreateFolder (dest : Option String) (name sourceFolderId : String)
    (shortcutId : Option String) :
    Once cp (cp.getOrCreateFolder dest name sourceFolderId shortcutId) := by
  unfold getOrCreateFolder
  split
  · exact (Tame.pure _).asOnce
  · apply Tame.second (free_knownFolder _ _ _)
    rintro (_ | id)
    · exact Tame.ite (fun _ => (Tame.pure _).asOnce) fun _ => once_createFolder _ _ _ _
    · exact (Tame.pure _).asOnce

theorem free_resolveShortcut (src : DriveFile) : Free cp (resolveShortcut src) := by
  unfold resolveShortcut
  split
  · exact Tame.pure _
  · apply Tame.free (Tame.ask rfl)
    rintro (e | data)
    · exact Tame.pure _
    · exact Tame.pure _

theorem free_stopOnQuota {α : Type} (text : String) :
    Free cp (stopOnQuota text : CopierM α) :=
  Tame.free (Tame.mem _) fun _ => Tame.free (Tame.mem _) fun _ => Tame.throw _

theorem free_listChildren (folderId : String)
    (fromPage toPage : ℤ) (parentSourceId : String) :
    Free cp (cp.listChildren folderId fromPage toPage parentSourceId) := by
  apply Tame.iterate
  intro s
  apply Tame.free (Tame.ask rfl)
  rintro (e | files)
  · apply Tame.free
    · unfold listingFailed
      apply Tame.ite fun _ => free_stopOnQuota _
      exact fun _ => Tame.free free_recordFailed fun _ => Tame.mem _
    · exact fun _ => Tame.pure _
  · dsimp only
    split
    · exact Tame.pure _
    · exact Tame.ite (fun _ => Tame.pure _) fun _ => Tame.pure _

theorem free_buildIndex (dest : Option String) :
    Free cp (buildIndex dest) := by
  unfold buildIndex
  split
  · exact Tame.mem _
  · apply Tame.free
    · apply Tame.iterate
      intro s
      apply Tame.free (Tame.ask rfl)
      rintro (e | files)
      · exact Tame.ite (fun _ => free_stopOnQuota _) fun _ => Tame.pure _
      · dsimp only
        split
        · exact Tame.pure _
        · exact Tame.pure _
    · exact fun _ => Tame.mem _

theorem free_recordTreeNode (folder : String) (children : List DriveFile) :
    Free cp (cp.recordTreeNode folder children) :=
  Tame.ite (fun _ => Tame.mem _) fun _ => Tame.pure _

/-! ## One level -/

theorem once_enterFolder (l : Level) (folder : DriveFile) (shortcutId : Option String) :
    Once cp (cp.enterFolder l folder shortcutId) := by
  apply Tame.attemptOnce (once_getOrCreateFolder _ _ _ _)
  rintro ((reason | message | message | error) | dest)
  · exact (Tame.throw _).toHeeds
  · exact (Tame.free free_recordFailed fun _ => Tame.pure _).toHeeds
  · exact (Tame.throw _).toHeeds
  · exact (Tame.throw _).toHeeds
  · exact (Tame.pure _).toHeeds

theorem heeds_descend (l : Level) (folderId : String) (dest : Option String)
    (children : List DriveFile) : Heeds cp (cp.descend l folderId dest children) :=
  Tame.ite (fun _ => Tame.enter _) fun _ => (Tame.pure _).toHeeds

theorem once_copyFolder (l : Level) (folder : DriveFile) (shortcutId : Option String) :
    Once cp (cp.copyFolder l folder shortcutId) := by
  unfold copyFolder
  apply Tame.ite fun _ => (Tame.pure _).asOnce
  intro _
  apply Tame.second
  · unfold skipCompleted
    apply Tame.ite
    · intro _
      apply Tame.free (Tame.mem _)
      intro done
      exact Tame.ite (fun _ => Tame.free (Tame.mem _) fun _ => Tame.pure _) fun _ => Tame.pure _
    · exact fun _ => Tame.pure _
  · intro skipped
    apply Tame.ite fun _ => (Tame.pure _).asOnce
    intro _
    apply Tame.first (once_enterFolder _ _ _)
    rintro (_ | dest)
    · exact (Tame.pure _).toHeeds
    · apply Tame.heeds (free_listChildren _ _ _ _).toHeeds
      intro children
      exact Tame.heeds (free_recordTreeNode _ _).toHeeds fun _ => heeds_descend _ _ _ _

theorem once_processChild (l : Level) (index : ℕ) (src : DriveFile) :
    Once cp (cp.processChild l index src) := by
  unfold processChild
  apply Tame.ite
  · intro _
    unfold handleContainer
    apply Tame.ite
    · intro _
      apply Tame.second (free_resolveShortcut _)
      rintro (_ | target)
      · exact free_recordFailed.asOnce
      · exact Tame.ite (fun _ => once_copyFolder _ _ _) fun _ => (heeds_copyFile _ _ _ _ _).toOnce
    · exact fun _ => once_copyFolder _ _ _
  · exact fun _ => (heeds_submitFile _ _ _ _).toOnce

theorem heeds_processChildren (l : Level) (index : ℕ) (children : List DriveFile) :
    Heeds cp (cp.processChildren l index children) := by
  induction children with
  | nil => exact (Tame.pure _).toHeeds
  | cons src rest ih =>
    apply Tame.checked (Tame.pure _).toHeeds
    exact Tame.first (once_processChild _ _ _) fun _ => ih

theorem once_enqueueFolder (l : Level) (folder : DriveFile) (shortcutId : Option String)
    (pending : List Pending) : Once cp (cp.enqueueFolder l folder shortcutId pending) := by
  unfold enqueueFolder
  apply Tame.ite fun _ => (Tame.pure _).asOnce
  intro _
  apply Tame.first (once_enterFolder _ _ _)
  rintro (_ | dest)
  · exact (Tame.pure _).toHeeds
  · exact (Tame.pure _).toHeeds

theorem once_enqueueChild (l : Level) (index : ℕ) (src : DriveFile) (pending : List Pending) :
    Once cp (cp.enqueueChild l index src pending) := by
  unfold enqueueChild
  apply Tame.ite
  · intro _
    apply Tame.second (free_resolveShortcut _)
    rintro (_ | target)
    · exact (Tame.free free_recordFailed fun _ => Tame.pure _).asOnce
    · apply Tame.ite fun _ => once_enqueueFolder _ _ _ _
      intro _
      exact Tame.first (heeds_copyFile _ _ _ _ _).toOnce fun _ => (Tame.pure _).toHeeds
  · intro _
    apply Tame.ite fun _ => once_enqueueFolder _ _ _ _
    intro _
    exact Tame.first (heeds_submitFile _ _ _ _).toOnce fun _ => (Tame.pure _).toHeeds

theorem heeds_enqueueChildren (l : Level) (index : ℕ) (children : List DriveFile) :
    ∀ pending, Heeds cp (cp.enqueueChildren l index children pending) := by
  induction children with
  | nil => exact fun _ => (Tame.pure _).toHeeds
  | cons src rest ih =>
    intro pending
    apply Tame.checked (Tame.pure _).toHeeds
    exact Tame.first (once_enqueueChild _ _ _ _) fun _ => ih _

theorem free_pages {β : Type} {list : Option PageToken → CopierM Page}
    (hlist : ∀ t, Free cp (list t)) (add : β → List ApiFile → β) (init : β) :
    Free cp (pages list add init) := by
  apply Tame.iterate
  intro s
  apply Tame.free (hlist s.2)
  rintro ⟨files, _ | t⟩
  · exact Tame.pure _
  · exact Tame.pure _

theorem free_listBatch (group : List String) : Free cp (cp.listBatch group) := by
  have hpages : Free cp (cp.listMultiPages group) := by
    apply free_pages
    exact fun t => Tame.free (Tame.ask rfl) fun r => Tame.orThrow _
  apply Tame.attemptFree hpages
  rintro ((reason | message | message | error) | out)
  · exact Tame.throw _
  · exact Tame.throw _
  · exact Tame.throw _
  · apply Tame.free (free_raiseIfFatalQuota _ _)
    exact fun _ => Tame.pure _
  · exact Tame.pure _

theorem free_confirmBatch (group : List String) (batched : Option ChildMap)
    (folders : List String) :
    ∀ result, Free cp (cp.confirmBatch group batched folders result) := by
  induction folders with
  | nil => exact fun _ => Tame.pure _
  | cons folder rest ih =>
    intro result
    apply Tame.free
    · exact Tame.ite (fun _ => free_listChildren _ _ _ _) fun _ => Tame.pure _
    · exact fun _ => ih _

theorem free_batchedList (groups : List (List String)) :
    ∀ result, Free cp (cp.batchedList groups result) := by
  induction groups with
  | nil => exact fun _ => Tame.pure _
  | cons group rest ih =>
    intro result
    apply Tame.free (Tame.mem _)
    intro stopped
    apply Tame.ite fun _ => Tame.pure _
    intro _
    apply Tame.free (free_listBatch group)
    intro batched
    exact Tame.free (free_confirmBatch _ _ _ _) fun _ => ih _

theorem heeds_processPending (l : Level) (childMap : ChildMap) (pending : List Pending) :
    Heeds cp (cp.processPending l childMap pending) := by
  induction pending with
  | nil => exact (Tame.pure _).toHeeds
  | cons p rest ih =>
    apply Tame.checked (Tame.pure _).toHeeds
    apply Tame.toOnce
    exact Tame.heeds (heeds_descend _ _ _ _) fun _ => ih

theorem heeds_processLevel (l : Level) : Heeds cp (cp.processLevel l) := by
  unfold processLevel
  apply Tame.ite
  · intro _
    apply Tame.heeds (free_buildIndex _).toHeeds
    intro index
    apply Tame.heeds (heeds_enqueueChildren _ _ _ _)
    intro pending
    apply Tame.ite fun _ => (Tame.pure _).toHeeds
    intro _
    apply Tame.checked (Tame.pure _).toHeeds
    apply Tame.toOnce
    exact Tame.heeds (free_batchedList _ _).toHeeds fun _ => heeds_processPending _ _ _
  · intro _
    apply Tame.heeds (free_buildIndex _).toHeeds
    exact fun _ => heeds_processChildren _ _ _

/-! ## The run -/

theorem free_rootAccount : Free cp (do
    match ← ask (.getMetadata "root" [.id]) with
    | .error _ => pure none
    | .ok data => pure (some s!"root-{data.id}")) := by
  apply Tame.free (Tame.ask rfl)
  rintro (e | data)
  · exact Tame.pure _
  · exact Tame.pure _

theorem free_accountId : Free cp accountId := by
  apply Tame.free (Tame.ask rfl)
  rintro (e | email)
  · exact free_rootAccount
  · dsimp only
    split
    · exact Tame.pure _
    · exact free_rootAccount

theorem free_isDescendantOf (candidateId ancestorId : String) :
    Free cp (isDescendantOf candidateId ancestorId) := by
  unfold isDescendantOf
  apply Tame.ite fun _ => Tame.pure _
  intro _
  apply Tame.iterate
  rintro ⟨_ | ⟨cur, stack⟩, seen⟩
  · exact Tame.pure _
  · unfold climb
    apply Tame.ite fun _ => Tame.pure _
    intro _
    apply Tame.ite fun _ => Tame.pure _
    intro _
    apply Tame.ite fun _ => Tame.pure _
    intro _
    apply Tame.free (Tame.ask rfl)
    rintro (e | data)
    · exact Tame.pure _
    · exact Tame.pure _

theorem free_preflight (destParent : String) : Free cp (preflight destParent) := by
  apply Tame.free (Tame.ask rfl)
  rintro (e | data)
  · exact Tame.pure _
  · apply Tame.ite fun _ => Tame.pure _
    exact fun _ => Tame.ite (fun _ => Tame.pure _) fun _ => Tame.pure _

theorem free_stopWith (reason : String) : Free cp (stopWith reason) :=
  Tame.free (Tame.mem _) fun _ => Tame.mem _

theorem free_loadLogs (account : Option String) (files : List ApiFile) :
    ∀ merged, Free cp (cp.loadLogs account files merged) := by
  induction files with
  | nil => exact fun _ => Tame.pure _
  | cons entry rest ih =>
    intro merged
    apply Tame.free
    · apply Tame.free (Tame.ask rfl)
      rintro (e | raw)
      · exact Tame.throw _
      · apply Tame.free (Tame.ask rfl)
        intro now
        dsimp only
        split
        · exact Tame.throw _
        · exact Tame.pure _
    · intro state
      apply Tame.free
      · exact Tame.ite (fun _ => Tame.mem _) fun _ => Tame.pure _
      · exact fun _ => ih _

theorem free_listPage (parent : String) (token : Option PageToken) :
    Free cp (listPage parent token) :=
  Tame.free (Tame.ask rfl) fun _ => Tame.orThrow _

theorem free_load (parent : String) (account : Option String) :
    Free cp (cp.load parent account) := by
  apply Tame.free (Tame.mem _)
  intro _
  apply Tame.free (Tame.ask rfl)
  intro _
  apply Tame.free (Tame.ask rfl)
  intro _
  apply Tame.attemptFree (free_pages (free_listPage parent) _ _)
  rintro (e | files)
  · exact Tame.throw _
  · exact free_loadLogs account files _

theorem free_trashOwned (files : List ApiFile) : Free cp (trashOwned files) := by
  induction files with
  | nil => exact Tame.pure _
  | cons f rest ih =>
    apply Tame.free
    · exact Tame.ite (fun _ => Tame.free (Tame.ask rfl) fun _ => Tame.pure _) fun _ => Tame.pure _
    · exact fun _ => ih

theorem free_cleanup (parent : String) : Free cp (cleanup parent) := by
  apply Tame.iterate
  intro token
  apply Tame.free (free_listPage _ _)
  rintro ⟨files, _ | t⟩
  · exact Tame.free (free_trashOwned _) fun _ => Tame.pure _
  · exact Tame.free (free_trashOwned _) fun _ => Tame.pure _

theorem free_findOwned (parent name : String) :
    Free cp (findOwned parent name) := by
  apply Tame.iterate
  intro token
  apply Tame.free (free_listPage _ _)
  rintro ⟨files, token'⟩
  dsimp only
  split
  · exact Tame.pure _
  · cases token' with
    | none => exact Tame.pure _
    | some t => exact Tame.pure _

theorem free_exportFailedReport (parent : String) (failed : List FailedItem) :
    Free cp (exportFailedReport parent failed) := by
  apply Tame.ite fun _ => Tame.pure _
  intro _
  apply Tame.free (Tame.ask rfl)
  intro now
  apply Tame.free (free_findOwned _ _)
  intro found
  split
  · exact Tame.free (Tame.ask rfl) fun _ => Tame.orThrow _
  · apply Tame.free (Tame.ask rfl)
    exact fun _ => Tame.free (Tame.orThrow _) fun _ => Tame.pure _

theorem free_finalize (destRoot : Option String) (completed : Bool) :
    Free cp (cp.finalize destRoot completed) := by
  have hcleanup : Free cp (cleanupAfter destRoot) := by
    apply Tame.free (Tame.mem _)
    intro result
    split
    · exact Tame.pure _
    · apply Tame.ite _ fun _ => Tame.pure _
      exact fun _ => Tame.attemptFree (free_cleanup _) fun _ => Tame.pure _
  have hreport : Free cp (cp.reportAfter destRoot) := by
    apply Tame.free (Tame.mem _)
    intro result
    dsimp only
    split
    · exact Tame.pure _
    · apply Tame.ite _ fun _ => Tame.pure _
      intro _
      exact Tame.attemptFree (free_exportFailedReport _ _) fun _ => Tame.pure _
  apply Tame.free (Tame.mem _)
  intro _
  apply Tame.free hcleanup
  exact fun _ => Tame.free hreport fun _ => Tame.mem _

theorem free_drainFutures : Free cp drainFutures :=
  ⟨⟨trivial, trivial⟩, trivial, trivial⟩

theorem free_closing (destRoot : Option String) : Free cp (cp.closing destRoot) := by
  apply Tame.free free_drainFutures
  intro _
  apply Tame.free
  · exact Tame.ite (fun _ => Tame.mem _) fun _ => Tame.pure _
  · exact fun _ => Tame.ite (fun _ => free_saveLog true) fun _ => Tame.pure _

theorem heeds_traverse (sourceId : String) (destRoot : Option String) :
    Heeds cp (cp.traverse sourceId destRoot) := by
  apply Tame.heeds
  · apply Tame.heeds (free_listChildren _ _ _ _).toHeeds
    intro children
    exact Tame.heeds (free_recordTreeNode _ _).toHeeds fun _ => Tame.enter _
  · intro _
    apply Tame.toHeeds
    apply Tame.free free_drainFutures
    exact fun _ => Tame.free (Tame.mem _) fun _ => Tame.pure _

theorem heeds_copyInto (sourceId : String) (account destRoot : Option String) :
    Heeds cp (cp.copyInto sourceId account destRoot) := by
  apply Tame.heeds (Tame.mem _).toHeeds
  intro _
  have hresume : Free cp (cp.resume destRoot account) := by
    unfold resume
    split
    · exact Tame.pure _
    · exact Tame.free (free_load _ _) fun _ => Tame.mem _
  apply Tame.attemptHeeds hresume.toHeeds
  rintro ((reason | message | message | error) | u)
  · exact (Tame.throw _).toHeeds
  · exact (free_stopWith _).toHeeds
  · exact (Tame.throw _).toHeeds
  · exact (Tame.throw _).toHeeds
  · apply Tame.attemptHeeds (heeds_traverse sourceId destRoot)
    intro outcome
    apply Tame.toHeeds
    apply Tame.free (free_closing _)
    intro _
    rcases outcome with (reason | message | message | error) | completed
    · exact free_finalize _ _
    · exact Tame.throw _
    · exact Tame.throw _
    · exact Tame.throw _
    · exact free_finalize _ _

theorem once_copyTree (sourceId destParent : String) (account : Option String) :
    Once cp (cp.copyTree sourceId destParent account) := by
  apply Tame.second (Tame.ask rfl)
  rintro (e | source)
  · exact (free_stopWith _).asOnce
  · apply Tame.attemptOnce (once_getOrCreateFolder _ _ _ _)
    rintro ((reason | message | message | error) | dest)
    · exact (free_finalize _ _).toHeeds
    · exact (free_stopWith _).toHeeds
    · exact (Tame.throw _).toHeeds
    · exact (Tame.throw _).toHeeds
    · exact heeds_copyInto _ _ _

theorem once_afterCheck (sourceId destParent : String) (account : Option String) (inside : Bool) :
    Once cp (if inside then stopWith unsafeDestination
      else do
        match ← preflight destParent with
        | some error => stopWith error
        | none => cp.copyTree sourceId destParent account) := by
  apply Tame.ite fun _ => (free_stopWith _).asOnce
  intro _
  apply Tame.second (free_preflight _)
  rintro (_ | error)
  · exact once_copyTree _ _ _
  · exact (free_stopWith _).asOnce

theorem once_runOn (sourceId destParent : String) :
    Once cp (cp.runOn sourceId destParent) := by
  apply Tame.second free_accountId
  intro account
  apply Tame.second (Tame.mem _)
  intro _
  apply Tame.ite
  · exact fun _ => Tame.second (Tame.pure _) fun _ => once_afterCheck _ _ _ _
  · exact fun _ => Tame.second (free_isDescendantOf _ _) fun _ => once_afterCheck _ _ _ _

theorem once_run : Once cp cp.run := by
  unfold run
  split
  · split
    · exact once_runOn _ _
    · exact (Tame.mem _).asOnce
  · exact (free_stopWith _).asOnce

end Copier

/-! ## Every run -/

theorem Copier.admits_stopHeard (cp : Copier) (V : Service) (ok : StepCondition V) :
    (cp.runs V ok).Admits stopHeard fun s => s.mem.stop = true where
  outcome {o s x s'} hs h := by
    have hstep : Site.Step s ok o x s' := Site.step_of_perform h
    cases o with
    | ask q => trivial
    | mem o =>
      cases o with
      | stopIsSet =>
        rw [hstep.1]
        exact hs
      | _ => trivial
  perform hs h := (Site.step_of_perform h).stop_mono hs
  env hs h := by
    obtain ⟨reason, rfl⟩ := h
    rfl

section Runs

-- The text of `run` must not be unfolded when what it leaves to do is used.
attribute [local irreducible] Prog.Poised Prog.Fits

variable {V : Service} {ok : StepCondition V} {cp : Copier} {now : String} {d : V.State}
  {c : Config (cp.runs V ok) (Except Exc CopyResult)}

/-- The pool never holds more tasks than `_max_pending`. -/
theorem pool_never_overfull
    (h : Reach (cp.runs V ok) (start (cp.runs V ok) cp.run ⟨cp.freshMem now, d⟩ []) c) :
    c.tasks.length ≤ cp.maxPending :=
  Prog.Fits.tasks_le (fun l => (Copier.heeds_processLevel l).fits)
    (Copier.once_run.fits.anti (Nat.zero_le _)) h

/-- Once the stop flag is set, by whom and at whatever moment, the whole run copies and creates at
most one more item in the main thread and one for each task in the pool. -/
theorem stop_is_prompt {c' : Config (cp.runs V ok) (Except Exc CopyResult)}
    (h : Reach (cp.runs V ok) (start (cp.runs V ok) cp.run ⟨cp.freshMem now, d⟩ []) c)
    (hstop : c.world.state.mem.stop = true) (h' : Reach (cp.runs V ok) c c') :
    spent additions c'.world.trace ≤ spent additions c.world.trace + (1 + c.tasks.length) := by
  have hbody : (cp.runs V ok).CallsCost stopHeard additions 1 := fun l =>
    ⟨(Copier.heeds_processLevel l).spends, (Copier.heeds_processLevel l).poised⟩
  have hle := Copier.once_run.poised.spent_le (cp.admits_stopHeard V ok) hbody h hstop h'
  rwa [Nat.one_mul] at hle

end Runs

/-! ## A stop while a file is being copied -/

/-- A copier of two threads. -/
def poolCopier : Copier :=
  { smallCopier with config := { smallCopier.config with workers := 2 } }

/-- A stop is requested when the task has looked at the flag. -/
def lateStop : Plan := { stop := fun k => k == 22 }

def lateScript : Script (openRuns poolCopier) :=
  lateStop.script poolCopier openProfile anyStep (fun _ => true) fun _ _ _ _ => true

/-- The run when the stop is requested. -/
def stoppedPool : Config (openRuns poolCopier) (Except Exc CopyResult) :=
  lateScript.run (.main :: List.replicate 3 (.task 0)) (openRun poolCopier oneFileDrive lateStop 30)

/-- The same run after the copy. -/
def stoppedCopy : Config (openRuns poolCopier) (Except Exc CopyResult) :=
  lateScript.run (List.replicate 4 (.task 0)) stoppedPool

theorem lateScript_legal : lateScript.Legal :=
  Plan.legal (openProfile_admits fun _ => rfl) fun _ _ _ _ _ => trivial

theorem stoppedPool_reach :
    Reach (openRuns poolCopier) (openStart poolCopier oneFileDrive) stoppedPool :=
  (openRun_reach (fun _ => rfl) 30).trans (lateScript_legal.reach_run _ _)

theorem stop_is_prompt_late : stoppedPool.world.state.mem.stop = true ∧
    spent additions stoppedPool.world.trace = 0 ∧ spent additions stoppedCopy.world.trace = 1 ∧
    spent additions stoppedCopy.world.trace ≤
      spent additions stoppedPool.world.trace + (1 + stoppedPool.tasks.length) := by
  have hstop : stoppedPool.world.state.mem.stop = true := by decide +kernel
  exact ⟨hstop, by decide +kernel, by decide +kernel,
    stop_is_prompt stoppedPool_reach hstop (lateScript_legal.reach_run _ _)⟩

theorem pool_never_overfull_late :
    stoppedPool.tasks.length = 1 ∧ stoppedPool.tasks.length ≤ poolCopier.maxPending :=
  ⟨by decide +kernel, pool_never_overfull stoppedPool_reach⟩

end TurboCopy
