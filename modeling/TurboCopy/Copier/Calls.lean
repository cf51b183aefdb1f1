import TurboCopy.Threads.Crew
import TurboCopy.Copier.Replay

/-!
# Calls that threads make at one time

Copies of files and saves of the log as the programs of a crew. Most steps of these
procedures matter neither to the bytes a copy has reserved nor to the log it writes; a
private state of the thread that plain steps and saves leave alone is left alone by every
procedure around the copy itself.
-/

namespace TurboCopy

open Threads CopierM

/-- A call of `_copy_file`, by a worker of the pool or by the thread that meets a file or a
shortcut to it, or a call of `_save_log`. -/
inductive CopierCall
  | work (dest : Option String) (src : DriveFile) (index : ℕ) (parentSourceId : String)
  | copy (dest : Option String) (src : DriveFile) (index : ℕ) (parentSourceId : String)
      (shortcutId : Option String)
  | save (force : Bool)

/-- The file a call copies, with the shortcut that led to it. -/
def CopierCall.file? : CopierCall → Option (DriveFile × Option String)
  | .work _ src _ _ => some (src, none)
  | .copy _ src _ _ shortcutId => some (src, shortcutId)
  | .save _ => none

/-- The program of the thread that makes a call. -/
def Copier.makes (cp : Copier) : CopierCall → Prog copierSig Unit
  | .work dest src index parent => cp.copyFileWorker dest src index parent
  | .copy dest src index parent shortcut =>
    Prog.bind (cp.copyFile dest src index parent shortcut) fun _ => .pure ()
  | .save force => Prog.bind (cp.saveLog force) fun _ => .pure ()

/-- The program that starts a thread for each call. -/
def Copier.makesAll (cp : Copier) (calls : List CopierCall) : Prog copierSig Unit :=
  forkAll (calls.map cp.makes)

/-- The operations that move bytes between the run, a reservation and the result. -/
def Accounts : CopierOp → Prop
  | .mem (.reserve _ _ _) => True
  | .mem (.release _ _) => True
  | .mem (.markCopied _ _) => True
  | _ => False

/-- The operations that decide which log is written. -/
def PointsLog : CopierOp → Prop
  | .mem .ownLog => True
  | .mem (.setOwnLog _) => True
  | .ask (.createJsonFile _ _ _ _) => True
  | _ => False

/-- The operations that decide what a copy attempt means for the circuit breaker. -/
def TurnsBreaker : CopierOp → Prop
  | .mem .bumpStreak => True
  | .mem .resetStreak => True
  | .mem .setStop => True
  | .ask (.copyFile _ _ _ _) => True
  | _ => False

section Passive

variable {σ α β : Type} {M : Moving copierSig σ} {g : σ}

theorem CopierM.tracks_ite {x y : CopierM α} {Q : Except Exc α → σ → Prop} {p : Prop}
    [hp : Decidable p] (hx : p → Prog.Tracks M x Q g) (hy : ¬p → Prog.Tracks M y Q g) :
    Prog.Tracks M (if p then x else y : CopierM α) Q g := by
  cases hp with
  | isTrue h => exact hx h
  | isFalse h => exact hy h

/-- The procedure ends, with a result or an exception, in the private state it began in. -/
def CopierM.Passive (M : Moving copierSig σ) (g : σ) (x : CopierM α) : Prop :=
  Prog.Tracks M x (fun _ g' => g' = g) g

namespace CopierM.Passive

theorem pure (a : α) : Passive M g (pure a : CopierM α) := rfl

theorem throw (e : Exc) : Passive M g (throw e : CopierM α) := rfl

theorem bind {x : CopierM α} {f : α → CopierM β} (hx : Passive M g x) (hf : ∀ a, Passive M g (f a)) :
    Passive M g (x >>= f) := by
  apply Prog.Tracks.bind hx
  rintro (e | a) _ rfl
  · exact throw e
  · exact hf a

theorem attempt {x : CopierM α} (hx : Passive M g x) : Passive M g (attempt x) :=
  Prog.Tracks.bind hx fun _ _ h => h

theorem mem {o : MemOp} (h : ∀ x, M (.mem o) x g g) : Passive M g (mem o) :=
  fun x => ⟨g, h x, rfl⟩

theorem ask {q : Request} (h : ∀ x, M (.ask q) x g g) : Passive M g (ask q) :=
  fun x => ⟨g, h x, rfl⟩

theorem orThrow (r : Except ApiError α) : Passive M g (orThrow r) := by
  cases r with
  | ok a => exact pure a
  | error e => exact throw _

theorem ite {x y : CopierM α} {p : Prop} [Decidable p] (hx : p → Passive M g x)
    (hy : ¬p → Passive M g y) : Passive M g (if p then x else y) := tracks_ite hx hy

/-- A thread that makes a procedure its last. -/
theorem last {x : CopierM α} (hx : Passive M g x) :
    (Prog.bind x fun _ => .pure ()).Tracks M (fun _ g' => g' = g) g :=
  Prog.Tracks.bind hx fun _ _ h => h

end CopierM.Passive
end Passive

namespace Copier

variable {cp : Copier} {σ : Type} {M : Moving copierSig σ} {g : σ}

/-! ## Saving the log -/

theorem passive_save (h : ∀ o x, ¬Accounts o → ¬TurnsBreaker o → M o x g g) : Passive M g cp.save := by
  apply Passive.bind (Passive.ask fun x => h _ x id id)
  intro now
  apply Passive.bind (Passive.mem fun x => h _ x id id)
  intro state
  apply Passive.bind (Passive.mem fun x => h _ x id id)
  intro own
  dsimp only
  split
  · exact Passive.bind (Passive.ask fun x => h _ x id id) fun r => Passive.orThrow r
  · apply Passive.bind (Passive.ask fun x => h _ x id id)
    intro r
    apply Passive.bind (Passive.orThrow r)
    exact fun created => Passive.mem fun x => h _ x id id

/-- What saving does around `ResumeStore.save`. -/
theorem passive_saveLog_of (h : ∀ o x, ¬Accounts o → ¬PointsLog o → ¬TurnsBreaker o → M o x g g)
    (hsave : Passive M g cp.save) (force : Bool) : Passive M g (cp.saveLog force) := by
  unfold saveLog
  apply Passive.ite fun _ => Passive.pure _
  intro _
  apply Passive.bind (Passive.mem fun x => h _ x id id id)
  intro dest
  apply Passive.ite fun _ => Passive.pure _
  intro _
  apply Passive.bind (Passive.mem fun x => h _ x id id id)
  intro due
  apply Passive.ite _ fun _ => Passive.pure _
  intro _
  apply Passive.bind (Passive.attempt hsave)
  rintro (e | u)
  · exact Passive.mem fun x => h _ x id id id
  · exact Passive.pure _

/-! ## The procedures around a copy -/

section Plain

variable (h : ∀ o x, ¬Accounts o → ¬PointsLog o → ¬TurnsBreaker o → M o x g g)
  (hsave : Passive M g cp.save)
include h

theorem passive_recordFailed {src : DriveFile} {reason message : String}
    {parentSourceId shortcutTargetId sourceShortcutId effectiveSourceId : Option String} :
    Passive M g (recordFailed src reason message parentSourceId shortcutTargetId sourceShortcutId
      effectiveSourceId) := by
  apply Passive.bind (Passive.ask fun x => h _ x id id id)
  exact fun now => Passive.mem fun x => h _ x id id id

theorem passive_reconcileFailed (effId : String) (src : DriveFile) :
    Passive M g (reconcileFailed effId src) := by
  apply Passive.bind (Passive.mem fun x => h _ x id id id)
  intro waiting
  apply Passive.ite _ fun _ => Passive.pure _
  exact fun _ => Passive.mem fun x => h _ x id id id

/-- The verification raises nothing. -/
theorem tracks_verifyCopy (newId : Option String) (src : DriveFile)
    (shortcutId : Option String) : Prog.Tracks M (verifyCopy newId src shortcutId)
      (fun r g' => (∃ detail, r = .ok detail) ∧ g' = g) g := by
  unfold verifyCopy
  split
  · exact ⟨⟨_, rfl⟩, rfl⟩
  · intro r
    refine ⟨g, h _ r id id id, ?_⟩
    cases r with
    | error e => exact ⟨⟨_, rfl⟩, rfl⟩
    | ok data => exact ⟨⟨_, rfl⟩, rfl⟩

theorem passive_skipTrusted (effId : String) (src : DriveFile) (index : ℕ) :
    Passive M g (skipTrusted effId src index) := by
  apply Passive.bind (Passive.mem fun x => h _ x id id id)
  intro copied
  apply Passive.ite _ fun _ => Passive.pure _
  intro _
  apply Passive.bind (Passive.mem fun x => h _ x id id id)
  intro item
  apply Passive.ite _ fun _ => Passive.pure _
  exact fun _ => Passive.bind (passive_reconcileFailed h _ _) fun _ => Passive.pure _

include hsave

theorem passive_maybeFlush : Passive M g cp.maybeFlush := by
  unfold maybeFlush
  apply Passive.ite fun _ => Passive.pure _
  intro _
  apply Passive.bind (Passive.mem fun x => h _ x id id id)
  intro due
  exact Passive.ite (fun _ => passive_saveLog_of h hsave false) fun _ => Passive.pure _

theorem passive_skipMatched (effId : String) (src : DriveFile) (index : ℕ) :
    Passive M g (cp.skipMatched effId src index) := by
  apply Passive.bind (Passive.mem fun x => h _ x id id id)
  intro item
  apply Passive.ite _ fun _ => Passive.pure _
  intro _
  apply Passive.bind
  · exact Passive.bind (Passive.mem fun x => h _ x id id id) fun _ => passive_maybeFlush h hsave
  · exact fun _ => Passive.bind (passive_reconcileFailed h _ _) fun _ => Passive.pure _

/-- The forced save of a run that stops, and the exception that ends its copy. -/
theorem tracks_stopped (text : String) : Prog.Tracks M (do
    if (truthy (← mem .destRoot)).isSome && !cp.config.dryRun then cp.saveLog true
    throw (.quotaStopped (some text)) : CopierM Unit)
    (fun r g' => (∃ x, r = .error x) ∧ g' = g) g := by
  apply Prog.Tracks.bind (Passive.mem fun x => h _ x id id id)
  rintro (e | dest) _ rfl
  · exact ⟨⟨e, rfl⟩, rfl⟩
  refine tracks_ite (fun _ => ?_) fun _ => ?_
  · apply Prog.Tracks.bind (passive_saveLog_of h hsave true)
    rintro (e | u) _ rfl
    · exact ⟨⟨e, rfl⟩, rfl⟩
    · exact ⟨⟨_, rfl⟩, rfl⟩
  · exact ⟨⟨_, rfl⟩, rfl⟩

/-- A copy that ends where it began once the bytes are reserved does so from its start. -/
theorem passive_copyFile {dest : Option String} {src : DriveFile} {index : ℕ}
    {parentSourceId : String} {shortcutId : Option String}
    (hmissing : Passive M g
      (cp.copyMissing dest src parentSourceId shortcutId (orElse shortcutId src.id))) :
    Passive M g (cp.copyFile dest src index parentSourceId shortcutId) := by
  unfold copyFile
  apply Passive.bind (Passive.mem fun x => h _ x id id id)
  intro stopped
  apply Passive.ite fun _ => Passive.pure _
  intro _
  apply Passive.bind (passive_skipTrusted h _ _ _)
  intro trusted
  apply Passive.ite fun _ => Passive.pure _
  intro _
  apply Passive.bind (passive_skipMatched h hsave _ _ _)
  intro matched
  apply Passive.ite fun _ => Passive.pure _
  intro _
  apply Passive.ite fun _ => passive_recordFailed h
  intro _
  exact Passive.ite (fun _ => Passive.mem fun x => h _ x id id id) fun _ => hmissing

/-- A call ends where it began when its copy does. -/
theorem tracks_makes (call : CopierCall)
    (hmissing : ∀ dest src parentSourceId shortcutId, call.file? = some (src, shortcutId) →
      Passive M g (cp.copyMissing dest src parentSourceId shortcutId (orElse shortcutId src.id))) :
    (cp.makes call).Tracks M (fun _ g' => g' = g) g := by
  cases call with
  | save force => exact (passive_saveLog_of h hsave force).last
  | copy dest src index parent shortcut =>
    exact (passive_copyFile h hsave (hmissing dest src parent shortcut rfl)).last
  | work dest src index parent =>
    apply Passive.last
    apply Passive.bind (Passive.mem fun x => h _ x id id id)
    intro stopped
    apply Passive.ite fun _ => Passive.pure _
    intro _
    apply Passive.bind (Passive.attempt (passive_copyFile h hsave (hmissing dest src parent none rfl)))
    rintro (e | u)
    · cases e with
      | quotaStopped reason => exact Passive.pure _
      | runtimeError message => exact passive_recordFailed h
      | valueError message => exact passive_recordFailed h
      | client error => exact passive_recordFailed h
    · exact Passive.pure _

end Plain

/-- A failed copy, for a private state that the breaker does not touch either. -/
theorem passive_handleCopyException (h : ∀ o x, ¬Accounts o → ¬PointsLog o → M o x g g)
    (hsave : Passive M g cp.save) (e : ApiError) (src : DriveFile) (parentSourceId : String)
    (shortcutId : Option String) (effId : String) :
    Passive M g (cp.handleCopyException e src parentSourceId shortcutId effId) := by
  have hplain : ∀ o x, ¬Accounts o → ¬PointsLog o → ¬TurnsBreaker o → M o x g g :=
    fun o x ha hp _ => h o x ha hp
  have hstop (text : String) : Passive M g (do
      mem (.setStopReason text)
      mem .setStop
      if (truthy (← mem .destRoot)).isSome && !cp.config.dryRun then cp.saveLog true
      throw (.quotaStopped (some text)) : CopierM Unit) := by
    apply Passive.bind (Passive.mem fun x => h _ x id id)
    intro _
    apply Passive.bind (Passive.mem fun x => h _ x id id)
    exact fun _ => (tracks_stopped hplain hsave text).mono fun _ _ h => h.2
  apply Passive.bind
  · exact Passive.ite (fun _ => hstop _) fun _ => Passive.pure _
  intro _
  apply Passive.bind
  · apply Passive.ite _ fun _ => Passive.mem fun x => h _ x id id
    intro _
    apply Passive.bind (Passive.mem fun x => h _ x id id)
    intro tripped
    exact Passive.ite (fun _ => hstop _) fun _ => Passive.pure _
  · exact fun _ => passive_recordFailed hplain

end Copier

/-! ## Calls on a small Drive -/

section Replay

variable (ok : StepCondition (Drive.service openProfile)) (m : Mem) (d : Drive)
  (calls : List CopierCall)

/-- Calls of `smallCopier` about to start. -/
def callsStart : Config (smallCopier.runs (Drive.service openProfile) ok) Unit :=
  start _ (smallCopier.makesAll calls) ⟨m, d⟩ []

/-- The calls after the threads had some turns. -/
def callsAfter (turns : List Turn) : Config (smallCopier.runs (Drive.service openProfile) ok) Unit :=
  (Plan.script smallCopier openProfile ok (fun _ => true) {} fun _ _ _ _ => true).run turns
    (callsStart ok m d calls)

variable {ok m d calls}

theorem callsAfter_reach (h : ∀ o s x s', ok o s x s') (turns : List Turn) :
    Reach _ (callsStart ok m d calls) (callsAfter ok m d calls turns) :=
  (Plan.legal (openProfile_admits fun _ => rfl) fun o s x s' _ => h o s x s').reach_run turns _

end Replay
end TurboCopy
