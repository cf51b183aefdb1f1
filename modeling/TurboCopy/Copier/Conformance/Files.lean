import TurboCopy.Copier.Conformance.Triples

/-!
# The engine keeps to its protocol

Every procedure of the engine with the tokens it needs and the tokens it leaves, from
the resume store up to `run`.
-/

namespace TurboCopy

open Threads CopierM

variable {cp : Copier} {sourceId destParent : String} {α : Type}

section Steps

variable {τ φ : Multiset Token} {E : Exc → Multiset Token → Prop}

/-- An operation that costs nothing. -/
theorem does_quiet {o : MemOp} {Q : o.Out → Multiset Token → Prop}
    (h : ∀ x, QuietRule (.mem o) x) (hQ : ∀ x, Q x τ) :
    Does (copierProtocol cp sourceId destParent) τ (mem o) Q E := by
  have h₀ : Does (copierProtocol cp sourceId destParent) 0 (mem o) (fun _ g => g = 0) fun _ _ =>
      False := Does.mem fun x => ⟨0, .quiet (h x), rfl⟩
  have h₁ := Does.frame τ h₀
  rw [add_zero] at h₁
  refine h₁.mono ?_ ?_
  · rintro a g ⟨_, rfl, rfl⟩
    rw [add_zero]
    exact hQ a
  · rintro e g ⟨_, _, h⟩
    exact h.elim

/-- A request that costs nothing. -/
theorem asks_quiet {q : Request} {Q : q.Ret → Multiset Token → Prop}
    (h : ∀ x, QuietRule (.ask q) x) (hQ : ∀ x, Q x τ) :
    Does (copierProtocol cp sourceId destParent) τ (ask q) Q E := by
  have h₀ : Does (copierProtocol cp sourceId destParent) 0 (ask q) (fun _ g => g = 0) fun _ _ =>
      False := Does.ask fun x => ⟨0, .quiet (h x), rfl⟩
  have h₁ := Does.frame τ h₀
  rw [add_zero] at h₁
  refine h₁.mono ?_ ?_
  · rintro a g ⟨_, rfl, rfl⟩
    rw [add_zero]
    exact hQ a
  · rintro e g ⟨_, _, h⟩
    exact h.elim

/-- Setting the stop flag frees the thread of what it owes. -/
theorem does_setStop {Q : Unit → Multiset Token → Prop} (hQ : Q () 0) :
    Does (copierProtocol cp sourceId destParent) τ (mem .setStop) Q E := by
  refine Protocol.Spec.act fun u => ⟨{Token.stopped}, .stop τ (.set u), ?_⟩
  exact Protocol.Spec.shift (.forget .stopped) (Protocol.Spec.pure hQ)

/-- The look at the stop flag before a piece of work, which costs `τ`. -/
theorem does_unlessStoppedPart {x : CopierM α} {a : α} {Q : α → Multiset Token → Prop} (hQ : Q a φ)
    (hx : Does (copierProtocol cp sourceId destParent) (φ + τ) x Q E) :
    Does (copierProtocol cp sourceId destParent) (φ + τ)
      (do if ← mem .stopIsSet then pure a else x) Q E := by
  intro f b
  refine Protocol.Leads.intro fun stop => .inl ?_
  cases stop with
  | true =>
    refine ⟨f + φ, τ, {Token.stopped}, (add_assoc f φ τ).symm, .stop τ .seen, ?_⟩
    have h : Does (copierProtocol cp sourceId destParent) (φ + {Token.stopped})
        (pure a : CopierM α) Q E := by
      refine Protocol.Spec.shifts (.step (.forget .stopped) (.refl _)) ?_
      rw [add_zero]
      exact Does.pure hQ
    have h' := h f b
    rwa [← add_assoc] at h'
  | false =>
    refine ⟨f + (φ + τ), 0, 0, (add_zero _).symm, .quiet (.stopIsSet false), ?_⟩
    rw [add_zero]
    exact hx f b

theorem does_unlessStopped {x : CopierM α} {a : α} {Q : α → Multiset Token → Prop} (hQ : Q a 0)
    (hx : Does (copierProtocol cp sourceId destParent) τ x Q E) :
    Does (copierProtocol cp sourceId destParent) τ
      (do if ← mem .stopIsSet then pure a else x) Q E := by
  have h := does_unlessStoppedPart (φ := 0) (τ := τ) (x := x) (a := a) (E := E) hQ
    (by rwa [zero_add])
  rwa [zero_add] at h

end Steps

/-! ## The resume store -/

section Store

variable {τ : Multiset Token} {E : Exc → Multiset Token → Prop}

theorem does_save : Does (copierProtocol cp sourceId destParent) 0 cp.save (fun _ g => g = 0)
    fun _ g => g = 0 := by
  refine Does.seq (σ := 0) (asks_quiet (fun x => .nowIso x) fun _ => rfl) ?_
  intro now
  refine Does.bind (R := fun st g => g = {.saving st})
    (Does.mem fun st => ⟨_, .store (.snapshot now st), rfl⟩) ?_
  rintro st _ rfl
  refine Does.bind (R := fun own g => g = {.writing st own})
    (Does.mem fun own => ⟨_, .store (.ownLog st own), rfl⟩) ?_
  rintro own _ rfl
  dsimp only
  cases h : truthy own.1 with
  | some id =>
    refine Does.seq (σ := 0)
      (Does.ask fun r => ⟨0, .store (.update st own id r h), rfl⟩) ?_
    intro r
    exact Does.orThrow (fun _ _ => rfl) fun _ _ => rfl
  | none =>
    refine Does.bind (R := fun r g => match r with
        | .ok newId => g = {.logged newId}
        | .error _ => g = 0) (Does.ask ?_) ?_
    · rintro (e | newId)
      · exact ⟨0, .store (.notCreated st own e h), rfl⟩
      · exact ⟨_, .store (.create st own newId h), rfl⟩
    · rintro (e | newId) _ hg
      · exact Does.throw hg
      · refine Does.bind (R := fun i g => g = {.logged i}) (Does.pure hg) ?_
        rintro i _ rfl
        exact Does.mem fun u => ⟨0, .store (.logged i u), rfl⟩

/-- Saving the log leaves everything as it was and raises nothing. -/
theorem does_saveLog (force : Bool) (τ : Multiset Token) :
    Does (copierProtocol cp sourceId destParent) τ (cp.saveLog force) (fun _ g => g = τ) E := by
  unfold Copier.saveLog
  split_ifs
  · exact Does.pure rfl
  · refine Does.seq (σ := τ) (does_quiet (fun d => .destRoot d) fun _ => rfl) ?_
    intro d
    split_ifs
    · exact Does.pure rfl
    · refine Does.seq (σ := τ)
        (does_quiet (fun b => .beginSave force b) fun _ => rfl) ?_
      intro b
      split_ifs
      · have hsave : Does (copierProtocol cp sourceId destParent) (τ + 0) (attempt cp.save)
            (fun _ g => g = τ) E := by
          refine Does.attempt ((Does.frame τ does_save).mono ?_ ?_)
          · rintro _ g ⟨_, rfl, rfl⟩
            exact add_zero τ
          · rintro _ g ⟨_, rfl, rfl⟩
            exact add_zero τ
        rw [add_zero] at hsave
        refine Does.bind hsave ?_
        rintro (e | u) _ rfl
        · exact does_quiet (fun u => .logSaveFailed e.text u) fun _ => rfl
        · exact Does.pure rfl
      · exact Does.pure rfl

theorem does_maybeFlush (τ : Multiset Token) :
    Does (copierProtocol cp sourceId destParent) τ cp.maybeFlush (fun _ g => g = τ) E := by
  unfold Copier.maybeFlush
  split_ifs
  · exact Does.pure rfl
  · refine Does.seq (σ := τ) (does_quiet (fun b => .flushDue b) fun _ => rfl) ?_
    intro b
    split_ifs
    · exact does_saveLog false τ
    · exact Does.pure rfl

/-- A fatal quota error ends the thread's work; any other error changes nothing. -/
theorem does_raiseIfFatalQuota (e : ApiError) (context : String) (τ : Multiset Token) :
    Does (copierProtocol cp sourceId destParent) τ (cp.raiseIfFatalQuota e context)
      (fun _ g => g = τ) fun e' g => (∃ reason, e' = .quotaStopped reason) ∧ g = 0 := by
  unfold Copier.raiseIfFatalQuota
  split_ifs
  · refine Does.seq (σ := τ)
      (does_quiet (fun u => .setStopReason _ u) fun _ => rfl) ?_
    intro u
    refine Does.seq (σ := 0) (does_setStop rfl) ?_
    intro u
    refine Does.seq (σ := 0) (does_quiet (fun d => .destRoot d) fun _ => rfl) ?_
    intro d
    dsimp only
    split_ifs
    · refine Does.seq (σ := 0) (does_saveLog true 0) ?_
      intro u
      exact Does.throw ⟨⟨_, rfl⟩, rfl⟩
    · exact Does.throw ⟨⟨_, rfl⟩, rfl⟩
  · exact Does.pure rfl

end Store

/-! ## Files -/

section Files

variable {τ : Multiset Token} {E : Exc → Multiset Token → Prop} {j : FileJob}

theorem does_recordFailed {src : DriveFile} {reason message : String}
    {parentSourceId shortcutTargetId sourceShortcutId effectiveSourceId : Option String}
    {Q : Unit → Multiset Token → Prop}
    (h : ∀ it : FailedItem, it.sourceId = src.id → it.mimeType = src.mimeType →
      it.effectiveSourceId = effectiveSourceId →
      ∃ τ', CopierRule cp sourceId destParent (.mem (.recordFailed it)) () τ τ' ∧ Q () τ') :
    Does (copierProtocol cp sourceId destParent) τ (Copier.recordFailed src reason message
      parentSourceId shortcutTargetId sourceShortcutId effectiveSourceId) Q E := by
  unfold Copier.recordFailed
  refine Does.seq (σ := τ) (asks_quiet (fun t => .nowIso t) fun _ => rfl) ?_
  intro now
  exact Does.mem fun _ => h _ rfl rfl rfl

theorem does_reconcileFailed : Does (copierProtocol cp sourceId destParent)
    {.file j .settled} (Copier.reconcileFailed j.eff j.src) (fun _ g => g = 0) E := by
  refine Does.bind (R := fun b g => g = if b then {.file j .settled} else 0) (Does.mem ?_) ?_
  · rintro (_ | _)
    · exact ⟨0, .file (.unneeded j), rfl⟩
    · exact ⟨_, .file (.needed j), rfl⟩
  · rintro (_ | _) _ rfl
    · exact Does.pure rfl
    · exact Does.mem fun u => ⟨_, .file (.reconciled j u), rfl⟩

theorem does_skipTrusted : Does (copierProtocol cp sourceId destParent) {.file j .start}
    (Copier.skipTrusted j.eff j.src j.index)
    (fun found g => g = if found then 0 else {.file j .start}) E := by
  unfold Copier.skipTrusted
  refine Does.seq (σ := {.file j .start}) (does_quiet (fun b => .isCopied j.eff b) fun _ => rfl) ?_
  intro b
  split_ifs
  · refine Does.bind (R := fun item g =>
      g = if item.isSome then {.file j .settled} else {.file j .start}) (Does.mem ?_) ?_
    · rintro (_ | item)
      · exact ⟨_, .file (.distrusted j), rfl⟩
      · exact ⟨_, .file (.trusted j item), rfl⟩
    · rintro (_ | item) _ rfl
      · exact Does.pure rfl
      · refine Does.seq (σ := 0) does_reconcileFailed ?_
        intro u
        exact Does.pure rfl
  · exact Does.pure rfl

theorem does_skipMatched : Does (copierProtocol cp sourceId destParent) {.file j .start}
    (cp.skipMatched j.eff j.src j.index)
    (fun found g => g = if found then 0 else {.file j .missing}) E := by
  unfold Copier.skipMatched
  refine Does.bind (R := fun item g => g = match item with
      | some item => {.file j (.matched item)}
      | none => {.file j .missing}) (Does.mem ?_) ?_
  · rintro (_ | item)
    · exact ⟨_, .file (.missing j), rfl⟩
    · exact ⟨_, .file (.matched j item), rfl⟩
  · rintro (_ | item) _ rfl
    · exact Does.pure rfl
    · refine Does.seq (σ := {.file j .settled}) ?_ ?_
      · refine Does.seq (σ := {.file j .settled})
          (Does.mem fun u => ⟨_, .file (.existing j item u), rfl⟩) ?_
        intro u
        exact does_maybeFlush _
      · intro u
        refine Does.seq (σ := 0) does_reconcileFailed ?_
        intro u
        exact Does.pure rfl

theorem does_noteStreak (e : ApiError) : Does (copierProtocol cp sourceId destParent) τ
    (cp.noteStreak e) (fun _ g => g = τ)
    fun e' g => (∃ reason, e' = .quotaStopped reason) ∧ g = 0 := by
  unfold Copier.noteStreak
  split_ifs
  · refine Does.seq (σ := τ) (does_quiet (fun b => .bumpStreak b) fun _ => rfl) ?_
    intro b
    split_ifs
    · refine Does.seq (σ := τ) (does_quiet (fun u => .setStopReason _ u) fun _ => rfl) ?_
      intro u
      refine Does.seq (σ := 0) (does_setStop rfl) ?_
      intro u
      refine Does.seq (σ := 0) (does_quiet (fun d => .destRoot d) fun _ => rfl) ?_
      intro d
      dsimp only
      split_ifs
      · refine Does.seq (σ := 0) (does_saveLog true 0) ?_
        intro u
        exact Does.throw ⟨⟨_, rfl⟩, rfl⟩
      · exact Does.throw ⟨⟨_, rfl⟩, rfl⟩
    · exact Does.pure rfl
  · exact does_quiet (fun u => .resetStreak u) fun _ => rfl

theorem does_handleCopyException (e : ApiError) : Does (copierProtocol cp sourceId destParent)
    {.file j .failing}
    (cp.handleCopyException e j.src j.parentSourceId j.shortcutId j.eff) (fun _ g => g = 0)
    fun e' g => (∃ reason, e' = .quotaStopped reason) ∧ g = 0 := by
  unfold Copier.handleCopyException
  refine Does.seq (σ := {.file j .failing}) (does_raiseIfFatalQuota e _ _) ?_
  intro u
  refine Does.seq (σ := {.file j .failing}) (does_noteStreak e) ?_
  intro u
  exact does_recordFailed fun it h₁ h₂ h₃ =>
    ⟨_, .file (.failed j it () ⟨h₁, h₂, h₃⟩), rfl⟩

theorem does_verifyCopy (newId : Option String) : Does (copierProtocol cp sourceId destParent)
    {.file j (.created newId)} (Copier.verifyCopy newId j.src j.shortcutId)
    (fun detail g => match detail with
      | some _ => g = {.file j .rejected}
      | none => ∃ id, g = {.file j (.verified id)}) E := by
  unfold Copier.verifyCopy
  cases h : truthy newId with
  | none =>
    refine Does.shift (.anonymous j newId h) ?_
    exact Does.pure rfl
  | some id =>
    obtain ⟨rfl, hid⟩ := truthy_eq_some.mp h
    refine Does.bind (R := fun r g => Answered (fun _ => g = {.file j .rejected})
        (fun data => (checkCopy j.src j.shortcutId (DriveFile.fromApi data)).elim
          (g = {.file j (.verified id)}) fun _ => g = {.file j .rejected}) r) (Does.ask ?_) ?_
    · rintro (e | data)
      · exact ⟨_, .file (.unreadable j id e), rfl⟩
      · dsimp only [Answered]
        cases hc : checkCopy j.src j.shortcutId (DriveFile.fromApi data) with
        | some detail => exact ⟨_, .file (.rejected j id data detail hc), rfl⟩
        | none => exact ⟨_, .file (.verified j id data hid hc), rfl⟩
    · rintro (e | data) g hg
      · exact Does.pure hg
      · dsimp only [Answered] at hg
        dsimp only
        cases hc : checkCopy j.src j.shortcutId (DriveFile.fromApi data) with
        | some detail =>
          rw [hc] at hg
          exact Does.pure hg
        | none =>
          rw [hc] at hg
          exact Does.pure ⟨id, hg⟩

theorem does_settleCopy (newId : Option String) : Does (copierProtocol cp sourceId destParent)
    {.file j (.created newId)}
    (cp.settleCopy newId j.src j.parentSourceId j.shortcutId j.eff) (fun _ g => g = 0) E := by
  unfold Copier.settleCopy
  refine Does.bind (does_verifyCopy newId) ?_
  rintro (_ | detail) g hg
  · obtain ⟨id, rfl⟩ := hg
    refine Does.seq (σ := {.file j .settled}) ?_ fun u => does_reconcileFailed
    refine Does.seq (σ := {.file j .settled})
      (Does.mem fun u => ⟨_, .file (.marked j id u), rfl⟩) ?_
    intro u
    exact does_maybeFlush _
  · obtain rfl : g = {.file j .rejected} := hg
    refine Does.seq (σ := {.file j .failing})
      (Does.mem fun u => ⟨_, .file (.withdrawn j detail u), rfl⟩) ?_
    intro u
    refine Does.seq (σ := {.file j .failing}) (does_quiet (fun u => .resetStreak u) fun _ => rfl) ?_
    intro u
    exact does_recordFailed fun it h₁ h₂ h₃ =>
      ⟨_, .file (.failed j it () ⟨h₁, h₂, h₃⟩), rfl⟩

/-- What a file's thread holds when `_copy_file` raises. -/
def Raised (j : FileJob) (e : Exc) (g : Multiset Token) : Prop :=
  (∃ reason, e = .quotaStopped reason) ∧ g = 0 ∨
    validateAppProperties (copyProps j.src j.shortcutId) = .error e ∧ g = {.file j .reserved}

theorem Raised.raises {e : Exc} {g : Multiset Token} (h : Raised j e g) : Raises e g := by
  rcases h with ⟨hstop, rfl⟩ | ⟨hv, rfl⟩
  · exact .inl hstop
  · exact .inr (.file j (Multiset.mem_singleton_self _) hv)

theorem does_copyMissing (hd : cp.config.dryRun = false) (hl : Copier.tooLarge j.src = false) :
    Does (copierProtocol cp sourceId destParent) {.file j .missing}
      (cp.copyMissing j.dest j.src j.parentSourceId j.shortcutId j.eff) (fun _ g => g = 0)
      (Raised j) := by
  unfold Copier.copyMissing
  refine Does.bind (R := fun b g => g = if b then {.file j .reserved} else {.stopped})
    (Does.mem ?_) ?_
  · rintro (_ | _)
    · exact ⟨{Token.stopped}, .stop _ (.overBudget _ _ _), rfl⟩
    · exact ⟨_, .file (.reserved j _ hd hl), rfl⟩
  · rintro (_ | _) _ rfl
    · exact Does.shift (.forget .stopped) (Does.throw (.inl ⟨⟨_, rfl⟩, rfl⟩))
    · rw [if_pos rfl, if_pos rfl]
      cases hv : validateAppProperties (copyProps j.src j.shortcutId) with
      | error e => exact Does.throw (.inr ⟨hv, rfl⟩)
      | ok u =>
        refine Does.bind (R := fun r g => match r with
            | .ok newId => g = {.file j (.created newId)}
            | .error _ => g = {.file j .refused}) (Does.ask ?_) ?_
        · rintro (e | newId)
          · exact ⟨_, .file (.refused j _ _ e), rfl⟩
          · exact ⟨_, .file (.copied j _ _ newId), rfl⟩
        · rintro (e | newId) g hg
          · obtain rfl : g = {.file j .refused} := hg
            refine Does.seq (σ := {.file j .failing})
              (Does.mem fun u => ⟨_, .file (.returned j u), rfl⟩) ?_
            intro u
            exact (does_handleCopyException e).mono (fun _ _ h => h) fun _ _ h => .inl h
          · obtain rfl : g = {.file j (.created newId)} := hg
            exact does_settleCopy newId

theorem does_copyFile : Does (copierProtocol cp sourceId destParent) {.file j .start}
    (cp.copyFile j.dest j.src j.index j.parentSourceId j.shortcutId) (fun _ g => g = 0)
    (Raised j) := by
  unfold Copier.copyFile
  refine does_unlessStopped rfl ?_
  refine Does.bind does_skipTrusted ?_
  rintro (_ | _) _ rfl
  · refine Does.bind does_skipMatched ?_
    rintro (_ | _) _ rfl
    · rw [if_neg (by simp), if_neg (by simp)]
      split_ifs with hl hd
      · exact does_recordFailed fun it h₁ h₂ h₃ =>
          ⟨0, .file (.tooLarge j it () hl ⟨h₁, h₂, h₃⟩), rfl⟩
      · exact Does.mem fun u => ⟨0, .file (.wouldCopy j u hd), rfl⟩
      · exact does_copyMissing (by simpa using hd) (by simpa using hl)
    · exact Does.pure rfl
  · exact Does.pure rfl

theorem spec_copyFileWorker (hj : j.shortcutId = none) :
    (copierProtocol cp sourceId destParent).Spec {.file j .start}
      (cp.copyFileWorker j.dest j.src j.index j.parentSourceId) fun _ g => g = 0 := by
  have heff : j.eff = j.src.id := by rw [FileJob.eff, hj]; rfl
  have hcopy : Does (copierProtocol cp sourceId destParent) {.file j .start} _ _ _ := does_copyFile
  rw [hj] at hcopy
  refine Protocol.Spec.bind (?_ : Does (copierProtocol cp sourceId destParent)
    {.file j .start} _ (fun _ g => g = 0) fun _ g => g = 0) ?_
  · refine does_unlessStopped rfl (Does.bind (R := fun r g => match r with
      | .ok _ => g = 0
      | .error e => Raised j e g) (Does.attempt hcopy) ?_)
    rintro (e | u) g hg
    · rcases hg with ⟨⟨reason, rfl⟩, rfl⟩ | ⟨hv, rfl⟩
      · exact Does.pure rfl
      · obtain ⟨message, rfl⟩ := validateAppProperties_error hv
        exact does_recordFailed fun it h₁ h₂ h₃ =>
          ⟨0, .file (.invalid j it () ⟨h₁, h₂, heff ▸ h₃⟩), rfl⟩
    · exact Does.pure hg
  · rintro (e | u) g h
    · exact Protocol.Spec.pure h
    · exact Protocol.Spec.pure h

theorem does_submitFile (hj : j.shortcutId = none) :
    Does (copierProtocol cp sourceId destParent) {.file j .start}
      (cp.submitFile j.dest j.src j.index j.parentSourceId) (fun _ g => g = 0)
      Raises := by
  have hfork (φ : Multiset Token) : Does (copierProtocol cp sourceId destParent)
      (φ + {.file j .start}) (submit (cp.copyFileWorker j.dest j.src j.index j.parentSourceId))
      (fun _ g => g = φ) Raises := Does.submit (spec_copyFileWorker hj) rfl
  have hlast : Does (copierProtocol cp sourceId destParent) {.file j .start} (do
      if ← mem .stopIsSet then pure ()
      else submit (cp.copyFileWorker j.dest j.src j.index j.parentSourceId))
      (fun _ g => g = 0) Raises :=
    does_unlessStopped rfl (by simpa using hfork 0)
  unfold Copier.submitFile
  split_ifs
  · refine Does.seq (σ := {.file j .start}) (Does.pendingFutures fun _ => rfl) ?_
    intro n
    dsimp only
    split_ifs
    · refine Does.seq (σ := {.file j .start}) (Does.reapFutures rfl) ?_
      intro u
      exact hlast
    · exact hlast
  · have h : Does (copierProtocol cp sourceId destParent) {.file j .start} _ _ _ := does_copyFile
    rw [hj] at h
    exact h.mono (fun _ _ h => h) fun _ _ h => h.raises

end Files

end TurboCopy
