import TurboCopy.Threads.Recursion
import TurboCopy.Copier.Run

/-!
# Procedures without loops and calls

Most procedures of the engine are straight: whatever their operations answer they end, and the
exceptions they let out are those of a kind. A copy and the placing of a folder let out
`QuotaStopped` and the refusal of app properties, and nothing else leaves them.
-/

namespace TurboCopy

open Threads CopierM

section Straight

variable {α β : Type} {E : Exc → Prop}

/-- The procedure has no loops and no calls, and the exceptions it raises satisfy `E`. -/
def CopierM.Straight (E : Exc → Prop) (x : CopierM α) : Prop :=
  Prog.Tracks (fun _ _ _ _ => True) x (fun r (_ : Unit) => ∀ e, r = .error e → E e) ()

namespace CopierM.Straight

theorem pure (a : α) : Straight E (pure a : CopierM α) := fun _ h => nomatch h

theorem throw {e : Exc} (h : E e) : Straight E (throw e : CopierM α) := by
  rintro e' he
  cases he
  exact h

theorem bind {x : CopierM α} {f : α → CopierM β} (hx : Straight E x) (hf : ∀ a, Straight E (f a)) :
    Straight E (x >>= f) := by
  apply Prog.Tracks.bind hx
  rintro (e | a) ⟨⟩ h
  · exact throw (h e rfl)
  · exact hf a

/-- A procedure whose exceptions are caught. -/
theorem attempt {E' : Exc → Prop} {x : CopierM α} {f : Except Exc α → CopierM β}
    (hx : Straight E' x) (hok : ∀ a, Straight E (f (.ok a)))
    (herror : ∀ e, E' e → Straight E (f (.error e))) : Straight E (attempt x >>= f) := by
  have hattempt : Prog.Tracks (fun _ _ _ _ => True) (CopierM.attempt x)
      (fun r (_ : Unit) => ∃ r', r = .ok r' ∧ ∀ e, r' = .error e → E' e) () :=
    Prog.Tracks.bind hx fun r _ h => ⟨r, rfl, h⟩
  apply Prog.Tracks.bind hattempt
  rintro _ ⟨⟩ ⟨e | a, rfl, h⟩
  · exact herror e (h e rfl)
  · exact hok a

theorem mem (o : MemOp) : Straight E (mem o) := fun _ => ⟨(), trivial, fun _ h => nomatch h⟩

theorem ask (q : Request) : Straight E (ask q) := fun _ => ⟨(), trivial, fun _ h => nomatch h⟩

theorem ite {x y : CopierM α} {p : Prop} [hp : Decidable p] (hx : p → Straight E x)
    (hy : ¬p → Straight E y) : Straight E (if p then x else y) := by
  cases hp with
  | isTrue h => exact hx h
  | isFalse h => exact hy h

theorem orThrow {r : Except ApiError α} (h : ∀ e, E (.client e)) : Straight E (orThrow r) := by
  cases r with
  | ok a => exact pure a
  | error e => exact throw (h e)

/-- A program made of straight operations makes no calls. -/
theorem quiet {σ : Type} {M : Moving copierSig σ} {p : Prog copierSig α} {Q : α → σ → Prop} {g : σ}
    (h : p.Tracks M Q g) : p.Quiet := by
  induction p generalizing g with
  | pure a => exact fun _ hc => hc
  | act o k ih =>
    rintro a ⟨x, hx⟩
    obtain ⟨g', -, hk⟩ := h x
    exact ih x hk a hx
  | _ => exact h.elim

end CopierM.Straight
end Straight

/-! ## What a procedure notes of its operations -/

section Notes

variable {α β : Type} {E : Exc → List (Event copierSig) → Prop} {t : List (Event copierSig)}

/-- The procedure has no loops and no calls; with its own operations after `t`, what it returns
satisfies `Q`, and the exceptions it raises satisfy `E`. -/
def CopierM.Notes (E : Exc → List (Event copierSig) → Prop) (t : List (Event copierSig)) (x : CopierM α)
    (Q : α → List (Event copierSig) → Prop) : Prop :=
  Prog.Tracks Logs x (fun r g => match r with
    | .ok a => Q a g
    | .error e => E e g) t

namespace CopierM.Notes

variable {Q R : α → List (Event copierSig) → Prop}

theorem pure {a : α} (h : Q a t) : Notes E t (pure a : CopierM α) Q := h

theorem throw {e : Exc} (h : E e t) : Notes E t (throw e : CopierM α) Q := h

theorem bind {x : CopierM α} {f : α → CopierM β} {Q : β → List (Event copierSig) → Prop}
    (hx : Notes E t x R) (hf : ∀ a g, R a g → Notes E g (f a) Q) : Notes E t (x >>= f) Q := by
  apply Prog.Tracks.bind hx
  rintro (e | a) g h
  · exact h
  · exact hf a g h

theorem mono {x : CopierM α} (h : Notes E t x R) (hR : ∀ a g, R a g → Q a g) : Notes E t x Q := by
  apply Prog.Tracks.mono h
  rintro (e | a) g hr
  · exact hr
  · exact hR a g hr

theorem mem {o : MemOp} {Q : o.Out → List (Event copierSig) → Prop}
    (h : ∀ x, Q x (.did (.mem o) x :: t)) : Notes E t (mem o) Q :=
  fun x => ⟨_, rfl, h x⟩

theorem ask {q : Request} {Q : q.Ret → List (Event copierSig) → Prop}
    (h : ∀ x, Q x (.did (.ask q) x :: t)) : Notes E t (ask q) Q :=
  fun x => ⟨_, rfl, h x⟩

theorem ite {x y : CopierM α} {p : Prop} [hp : Decidable p] (hx : p → Notes E t x Q)
    (hy : ¬p → Notes E t y Q) : Notes E t (if p then x else y) Q := by
  cases hp with
  | isTrue h => exact hx h
  | isFalse h => exact hy h

/-- A procedure whose exceptions are caught. -/
theorem attempt {E' : Exc → List (Event copierSig) → Prop} {x : CopierM α} {f : Except Exc α → CopierM β}
    {Q : β → List (Event copierSig) → Prop} (hx : Notes E' t x R)
    (hok : ∀ a g, R a g → Notes E g (f (.ok a)) Q)
    (herror : ∀ e g, E' e g → Notes E g (f (.error e)) Q) : Notes E t (attempt x >>= f) Q := by
  have hattempt : Prog.Tracks Logs (CopierM.attempt x) (fun r g => ∃ r', r = .ok r' ∧
      match r' with
      | .ok a => R a g
      | .error e => E' e g) t :=
    Prog.Tracks.bind hx fun r _ h => ⟨r, rfl, h⟩
  apply Prog.Tracks.bind hattempt
  rintro _ g ⟨e | a, rfl, h⟩
  · exact herror e g h
  · exact hok a g h

/-- A procedure that raises nothing. -/
theorem straight {x : CopierM α} (h : Straight (fun _ => False) x) :
    Notes E t x fun _ g => t ⊆ g := by
  apply Prog.Tracks.mono (h.logs t)
  rintro (e | a) g ⟨he, hsub⟩
  · exact (he e rfl).elim
  · exact hsub

/-- What is noted of the exceptions, without the history. -/
theorem toStraight {E' : Exc → Prop} {x : CopierM α} {P : α → List (Event copierSig) → Prop}
    (h : Notes E t x P) (hE : ∀ e g, E e g → E' e) : Straight E' x := by
  apply Prog.Tracks.forget h
  rintro (e | a) g hr
  · rintro _ ⟨⟩
    exact hE e g hr
  · exact fun _ hr => nomatch hr

end CopierM.Notes
end Notes

/-- A failure with the source id `id` was recorded. -/
def RecordedFailed (t : List (Event copierSig)) (id : String) : Prop :=
  ∃ item : FailedItem, .did (.mem (.recordFailed item)) () ∈ t ∧ item.sourceId = id

/-- The run was stopped: the flag was seen, it was set, or the budget refused a file. -/
inductive StopMet (t : List (Event copierSig)) : Prop
  | seen (h : .did (.mem .stopIsSet) true ∈ t)
  | set (h : .did (.mem .setStop) () ∈ t)
  | refused (limit : ℚ) (size : ℤ) (text : String)
      (h : .did (.mem (.reserve limit size text)) false ∈ t)

theorem StopMet.grow {t t' : List (Event copierSig)} (h : StopMet t) (hsub : t ⊆ t') :
    StopMet t' := by
  cases h with
  | seen h => exact .seen (hsub h)
  | set h => exact .set (hsub h)
  | refused limit size text h => exact .refused limit size text (hsub h)

/-- Exceptions that a procedure may raise when they stop the run. -/
def AtStop (E : Exc → List (Event copierSig) → Prop) : Prop :=
  ∀ reason t, StopMet t → E (.quotaStopped reason) t

/-- A folder was created whose id the answer does not have. -/
def CreatedUnnamed (t : List (Event copierSig)) : Prop :=
  ∃ name parent props id,
    .did (.ask (.createFolder name parent props)) (.ok id) ∈ t ∧ truthy id = none

/-- The metadata of the target of a shortcut was read. -/
def ReadTarget (t : List (Event copierSig)) (src target : DriveFile) : Prop :=
  ∃ id data, truthy src.shortcutTargetId = some id ∧
    .did (.ask (.getMetadata id shortcutFields)) (.ok data) ∈ t ∧
    target = { DriveFile.fromApi data with name := src.name }

namespace Copier

variable {cp : Copier}

section Quiet

variable {E : Exc → Prop}

/-! ## Saving and recording -/

theorem straight_save : Straight (fun _ => True) cp.save := by
  apply Straight.bind (Straight.ask _)
  intro now
  apply Straight.bind (Straight.mem _)
  intro state
  apply Straight.bind (Straight.mem _)
  intro own
  dsimp only
  split
  · exact Straight.bind (Straight.ask _) fun r => Straight.orThrow fun _ => trivial
  · apply Straight.bind (Straight.ask _)
    intro r
    apply Straight.bind (Straight.orThrow fun _ => trivial)
    exact fun created => Straight.mem _

theorem straight_saveLog (force : Bool) : Straight E (cp.saveLog force) := by
  apply Straight.ite fun _ => Straight.pure _
  intro _
  apply Straight.bind (Straight.mem _)
  intro dest
  apply Straight.ite fun _ => Straight.pure _
  intro _
  apply Straight.bind (Straight.mem _)
  intro due
  apply Straight.ite _ fun _ => Straight.pure _
  intro _
  exact Straight.attempt straight_save (fun _ => Straight.pure _) fun _ _ => Straight.mem _

theorem straight_maybeFlush : Straight E cp.maybeFlush := by
  apply Straight.ite fun _ => Straight.pure _
  intro _
  apply Straight.bind (Straight.mem _)
  intro due
  exact Straight.ite (fun _ => straight_saveLog false) fun _ => Straight.pure _

theorem straight_recordFailed {src : DriveFile} {reason message : String}
    {parentSourceId shortcutTargetId sourceShortcutId effectiveSourceId : Option String} :
    Straight E (recordFailed src reason message parentSourceId shortcutTargetId sourceShortcutId
      effectiveSourceId) :=
  Straight.bind (Straight.ask _) fun _ => Straight.mem _

theorem straight_reconcileFailed (effId : String) (src : DriveFile) :
    Straight E (reconcileFailed effId src) := by
  apply Straight.bind (Straight.mem _)
  exact fun _ => Straight.ite (fun _ => Straight.mem _) fun _ => Straight.pure _

theorem straight_verifyCopy (newId : Option String) (src : DriveFile) (shortcutId : Option String) :
    Straight E (verifyCopy newId src shortcutId) := by
  unfold verifyCopy
  split
  · exact Straight.pure _
  · apply Straight.bind (Straight.ask _)
    rintro (e | data)
    · exact Straight.pure _
    · exact Straight.pure _

theorem straight_skipTrusted (effId : String) (src : DriveFile) (index : ℕ) :
    Straight E (skipTrusted effId src index) := by
  apply Straight.bind (Straight.mem _)
  intro copied
  apply Straight.ite _ fun _ => Straight.pure _
  intro _
  apply Straight.bind (Straight.mem _)
  intro item
  apply Straight.ite _ fun _ => Straight.pure _
  exact fun _ => Straight.bind (straight_reconcileFailed _ _) fun _ => Straight.pure _

theorem straight_skipMatched (effId : String) (src : DriveFile) (index : ℕ) :
    Straight E (cp.skipMatched effId src index) := by
  apply Straight.bind (Straight.mem _)
  intro item
  apply Straight.ite _ fun _ => Straight.pure _
  intro _
  apply Straight.bind
  · exact Straight.bind (Straight.mem _) fun _ => straight_maybeFlush
  · exact fun _ => Straight.bind (straight_reconcileFailed _ _) fun _ => Straight.pure _

theorem straight_settleCopy (newId : Option String) (src : DriveFile) (parentSourceId : String)
    (shortcutId : Option String) (effId : String) :
    Straight E (cp.settleCopy newId src parentSourceId shortcutId effId) := by
  apply Straight.bind (straight_verifyCopy _ _ _)
  rintro (_ | detail)
  · apply Straight.bind
    · exact Straight.bind (Straight.mem _) fun _ => straight_maybeFlush
    · exact fun _ => straight_reconcileFailed _ _
  · apply Straight.bind (Straight.mem _)
    intro _
    exact Straight.bind (Straight.mem _) fun _ => straight_recordFailed

end Quiet

variable {E : Exc → List (Event copierSig) → Prop} {t : List (Event copierSig)}

/-! ## Stops -/

/-- Stopping the run with the forced save. -/
theorem notes_stopping (hE : AtStop E) (text : String) :
    Notes E t (do
      mem (.setStopReason text)
      mem .setStop
      if (truthy (← mem .destRoot)).isSome && !cp.config.dryRun then cp.saveLog true
      throw (.quotaStopped (some text)) : CopierM Unit) fun _ _ => True := by
  apply Notes.bind (Notes.mem (Q := fun _ _ => True) fun _ => trivial)
  intro _ _ _
  apply Notes.bind (Notes.mem (Q := fun _ g => StopMet g) fun _ => .set (List.mem_cons_self ..))
  intro _ g hstopped
  apply Notes.bind (Notes.mem (Q := fun _ g => StopMet g) fun _ =>
    hstopped.grow (List.subset_cons_self ..))
  intro dest g hstopped
  apply Notes.ite
  · intro _
    apply Notes.bind (Notes.straight (straight_saveLog true))
    exact fun _ _ hsub => Notes.throw (hE _ _ (hstopped.grow hsub))
  · exact fun _ => Notes.throw (hE _ _ hstopped)

theorem notes_raiseIfFatalQuota (hE : AtStop E) (e : ApiError) (context : String) :
    Notes E t (cp.raiseIfFatalQuota e context) fun _ _ => True :=
  Notes.ite (fun _ => notes_stopping hE _) fun _ => Notes.pure trivial

theorem notes_handleCopyException (hE : AtStop E) (e : ApiError) (src : DriveFile)
    (parentSourceId : String) (shortcutId : Option String) (effId : String) :
    Notes E t (cp.handleCopyException e src parentSourceId shortcutId effId) fun _ _ => True := by
  apply Notes.bind (notes_raiseIfFatalQuota hE _ _)
  intro _ _ _
  apply Notes.bind (R := fun _ _ => True)
  · refine Notes.ite (fun _ => ?_) fun _ => Notes.mem fun _ => trivial
    apply Notes.bind (Notes.mem (Q := fun _ _ => True) fun _ => trivial)
    intro tripped _ _
    exact Notes.ite (fun _ => notes_stopping hE _) fun _ => Notes.pure trivial
  · exact fun _ _ _ => (Notes.straight straight_recordFailed).mono fun _ _ _ => trivial

theorem notes_copyMissing (hE : AtStop E) (dest : Option String) (src : DriveFile)
    (parentSourceId : String) (shortcutId : Option String) (effId : String)
    (hrefused : ∀ e g, validateAppProperties (copyProps src shortcutId) = .error e → E e g) :
    Notes E t (cp.copyMissing dest src parentSourceId shortcutId effId) fun _ _ => True := by
  apply Notes.bind (Notes.mem (Q := fun granted g => granted = false → StopMet g) ?_)
  · intro granted g hgranted
    refine Notes.ite (fun _ => ?_) fun hno => Notes.throw (hE _ _ (hgranted ?_))
    · split
      · rename_i e he
        exact Notes.throw (hrefused e _ he)
      · apply Notes.bind (Notes.ask (Q := fun _ _ => True) fun _ => trivial)
        rintro (e | newId) _ _
        · apply Notes.bind (Notes.mem (Q := fun _ _ => True) fun _ => trivial)
          exact fun _ _ _ => notes_handleCopyException hE _ _ _ _ _
        · apply (Notes.straight (straight_settleCopy _ _ _ _ _)).mono
          exact fun _ _ _ => trivial
    · simpa using hno
  · rintro _ rfl
    exact .refused _ _ _ (List.mem_cons_self ..)

theorem notes_copyFile (hE : AtStop E) (dest : Option String) (src : DriveFile) (index : ℕ)
    (parentSourceId : String) (shortcutId : Option String)
    (hrefused : ¬cp.config.dryRun →
      ∀ e g, validateAppProperties (copyProps src shortcutId) = .error e → E e g) :
    Notes E t (cp.copyFile dest src index parentSourceId shortcutId) fun _ _ => True := by
  apply Notes.bind (Notes.mem (Q := fun _ _ => True) fun _ => trivial)
  intro stopped _ _
  apply Notes.ite fun _ => Notes.pure trivial
  intro _
  apply Notes.bind (Notes.straight (straight_skipTrusted _ _ _))
  intro trusted _ _
  apply Notes.ite fun _ => Notes.pure trivial
  intro _
  apply Notes.bind (Notes.straight (straight_skipMatched _ _ _))
  intro matched _ _
  apply Notes.ite fun _ => Notes.pure trivial
  intro _
  apply Notes.ite fun _ => (Notes.straight straight_recordFailed).mono fun _ _ _ => trivial
  intro _
  exact Notes.ite (fun _ => Notes.mem fun _ => trivial) fun hreal =>
    notes_copyMissing hE _ _ _ _ _ (hrefused hreal)

/-- A copy raises a stop, or the refusal of its app properties. -/
theorem straight_copyFile {E : Exc → Prop} (hE : ∀ reason, E (.quotaStopped reason))
    (dest : Option String) (src : DriveFile) (index : ℕ) (parentSourceId : String)
    (shortcutId : Option String) (hrefused : ¬cp.config.dryRun →
      ∀ e, validateAppProperties (copyProps src shortcutId) = .error e → E e) :
    Straight E (cp.copyFile dest src index parentSourceId shortcutId) :=
  Notes.toStraight (E := fun e _ => E e) (t := [])
    (notes_copyFile (fun reason _ _ => hE reason) dest src index parentSourceId shortcutId
      fun hreal e _ he => hrefused hreal e he) fun _ _ h => h

theorem straight_workerBody (dest : Option String) (src : DriveFile) (index : ℕ)
    (parentSourceId : String) : Straight (fun _ => True) (do
      if ← mem .stopIsSet then pure ()
      else
        match ← attempt (cp.copyFile dest src index parentSourceId none) with
        | .ok () => pure ()
        | .error (.quotaStopped _) => pure ()
        | .error e =>
          recordFailed src (orElse (some (excReason e).1) "workerError")
            (orElse (some (excReason e).2) e.text) (some parentSourceId) none none
            (some src.id)) := by
  apply Straight.bind (Straight.mem _)
  intro stopped
  apply Straight.ite fun _ => Straight.pure _
  intro _
  apply Straight.attempt (straight_copyFile (E := fun _ => True) (fun _ => trivial) dest src index
    parentSourceId none fun _ _ _ => trivial)
  · exact fun _ => Straight.pure _
  · rintro (reason | message | message | error) _
    · exact Straight.pure _
    · exact straight_recordFailed
    · exact straight_recordFailed
    · exact straight_recordFailed

/-- The destination of a folder has an id, unless there is nothing to copy into. -/
def Placed (cp : Copier) (dest r : Option String) (t : List (Event copierSig)) : Prop :=
  (truthy r).isSome ∨ cp.config.dryRun ∨ dest = none ∨ CreatedUnnamed t

end Copier
end TurboCopy
