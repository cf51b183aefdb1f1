import TurboCopy.Copier.Calls
import TurboCopy.Threads.Guarantee

/-!
# The circuit breaker

Workers count consecutive rate-limit failures in one shared counter. The counter is the
length of the last run of rate-limit failures among the outcomes, in the order in which the
workers note them; a failure trips the breaker exactly when it makes that run long enough.
Each thread handles the outcome of its copy by itself: `Breaking` lists the steps of it, and
the histories of the threads, which the history of the run interleaves, follow them.
-/

namespace TurboCopy

open Threads CopierM

/-! ## The streak -/

/-- Whether an event notes a rate-limit failure, where it notes the outcome of a copy. -/
def notedRate : Event copierSig → Option Bool
  | .did (.mem .bumpStreak) _ => some true
  | .did (.mem .resetStreak) _ => some false
  | .did (.mem (.markCopied _ _)) _ => some false
  | _ => none

/-- The rate-limit failures since the last other outcome. -/
def streak (past : List (Event copierSig)) : ℕ :=
  ((past.filterMap notedRate).takeWhile id).length

theorem streak_rate (x : Bool) (past : List (Event copierSig)) :
    streak (.did (.mem .bumpStreak) x :: past) = streak past + 1 := by
  have hnoted : notedRate (.did (.mem .bumpStreak) x) = some true := rfl
  rw [streak, List.filterMap_cons_some hnoted, List.takeWhile_cons_of_pos rfl, List.length_cons,
    streak]

theorem streak_other {e : Event copierSig} (past : List (Event copierSig))
    (h : notedRate e = some false) : streak (e :: past) = 0 := by
  rw [streak, List.filterMap_cons_some h, List.takeWhile_cons_of_neg (by simp), List.length_nil]

theorem streak_unnoted {e : Event copierSig} (past : List (Event copierSig))
    (h : notedRate e = none) : streak (e :: past) = streak past := by
  rw [streak, List.filterMap_cons_none h, streak]

theorem Mem.consecRateFail_exec (m : Mem) {o : MemOp} {x : CopierOp.Out (.mem o)}
    (h : notedRate (.did (.mem o) x) = none) : (m.exec o).2.consecRateFail = m.consecRateFail := by
  cases o with
  | bumpStreak => exact nomatch h
  | resetStreak => exact nomatch h
  | markCopied effId size => exact nomatch h
  | trustResume i effId src => simp only [exec]; split <;> rfl
  | popMatch i src mode allow effId => simp only [exec]; split <;> rfl
  | reserve max size reason => simp only [exec]; split <;> rfl
  | beginSave force => simp only [exec]; split <;> rfl
  | _ => rfl

/-- The counter is the streak of the history, and each rate-limit failure so far tripped the
breaker exactly when the streak had become long enough. -/
structure StreakCounted {cp : Copier} {V : Service} {ok : StepCondition V} (w : World (cp.runs V ok)) :
    Prop where
  counter : w.state.mem.consecRateFail = streak w.trace
  trips : ∀ later tripped earlier,
    w.trace = later ++ .did (.mem .bumpStreak) tripped :: earlier →
      (tripped = true ↔ rateLimitStopThreshold ≤ streak earlier + 1)

section Counting

variable {cp : Copier} {V : Service} {ok : StepCondition V} {w : World (cp.runs V ok)}

/-- An event that is no rate-limit failure. -/
theorem StreakCounted.log {s : Site V} {e : Event copierSig} (h : StreakCounted w)
    (he : notedRate e ≠ some true)
    (hs : s.mem.consecRateFail = streak (e :: w.trace)) : StreakCounted (w.log s e) := by
  refine ⟨hs, fun later tripped earlier htrace => ?_⟩
  rcases later with _ | ⟨e', later⟩
  · rw [(List.cons.inj htrace).1] at he
    exact absurd rfl he
  · exact h.trips later tripped earlier (List.cons.inj htrace).2

theorem StreakCounted.act {o : CopierOp} {x : o.Out} {s : Site V}
    (hp : (cp.runs V ok).perform o w.state x s) (h : StreakCounted w) :
    StreakCounted (w.log s (.did o x)) := by
  have hs : w.state.Step ok o x s := Site.step_of_perform hp
  cases o with
  | ask q =>
    refine h.log nofun ?_
    rw [streak_unnoted _ rfl, hs.2.1, h.counter]
  | mem o =>
    obtain ⟨rfl, rfl, -⟩ := hs
    by_cases hnone : notedRate (.did (.mem o) (w.state.mem.exec o).1) = none
    · refine h.log (by rw [hnone]; exact nofun) ?_
      rw [streak_unnoted _ hnone, ← h.counter]
      exact w.state.mem.consecRateFail_exec hnone
    · cases o with
      | resetStreak => exact h.log nofun (streak_other _ rfl).symm
      | markCopied effId size => exact h.log nofun (streak_other _ rfl).symm
      | bumpStreak =>
        constructor
        · change _ = streak (_ :: w.trace)
          rw [streak_rate, ← h.counter]
          rfl
        · intro later tripped earlier htrace
          rcases later with _ | ⟨e', later⟩
          · obtain ⟨he, rfl⟩ := List.cons.inj htrace
            cases he
            rw [← h.counter]
            exact decide_eq_true_iff
          · exact h.trips later tripped earlier (List.cons.inj htrace).2
      | _ => exact absurd rfl hnone

theorem StreakCounted.grows {w' : World (cp.runs V ok)} (hg : w.Grows w') (h : StreakCounted w) :
    StreakCounted w' := by
  cases hg with
  | same => exact h
  | act hp => exact h.act hp
  | enter l => exact h.log nofun (h.counter.trans (streak_unnoted _ rfl).symm)
  | env he =>
    obtain ⟨reason, rfl⟩ := he
    exact ⟨h.counter, h.trips⟩

/-- The run lemma, for any program: the copies of a crew or a whole run. -/
theorem StreakCounted.reach {α : Type} {p : Prog copierSig α} {m : Mem} (hm : m.consecRateFail = 0)
    (d : V.State) {c : Config (cp.runs V ok) α} (h : Reach _ (start (cp.runs V ok) p ⟨m, d⟩ []) c) :
    StreakCounted c.world := by
  apply Reach.world StreakCounted.grows h
  refine ⟨hm, fun later tripped earlier htrace => ?_⟩
  exact absurd htrace (List.append_ne_nil_of_right_ne_nil _ (List.cons_ne_nil _ _)).symm

end Counting

/-! ## Handling the outcome of a copy -/

/-- Where a thread is with the outcome of its copy. -/
inductive Handling
  | idle
  | copied (src : DriveFile) (shortcutId : Option String)
  | unverified (src : DriveFile) (shortcutId : Option String)
  | failed (src : DriveFile) (shortcutId : Option String) (e : ApiError)
  | released (src : DriveFile) (shortcutId : Option String) (e : ApiError)
  | tripped
  | unrecorded (src : DriveFile) (shortcutId : Option String)

/-- The record of a failed copy names the source item. -/
def FailedItem.Names (item : FailedItem) (src : DriveFile) (shortcutId : Option String) : Prop :=
  item.sourceId = src.id ∧ item.effectiveSourceId = some (orElse shortcutId src.id)

/-- How a thread handles the outcome of its copy. -/
inductive Breaking (cp : Copier) : Moving copierSig Handling
  | reserved (max size reason) (x) : Breaking cp (.mem (.reserve max size reason)) x .idle .idle
  | copied {src dest shortcutId visibility forever} (newId) :
      Breaking cp (.ask (.copyFile src.id (cp.copyBody dest src shortcutId) visibility forever))
        (.ok newId) .idle (.copied src shortcutId)
  | succeeded {src shortcutId} (u) :
      Breaking cp (.mem (.markCopied (orElse shortcutId src.id) src.bytes)) u
        (.copied src shortcutId) .idle
  | unverified {src shortcutId} (detail : String) (u) :
      Breaking cp (.mem (.release src.bytes (some detail))) u (.copied src shortcutId)
        (.unverified src shortcutId)
  | verificationFailure {src shortcutId} (u) :
      Breaking cp (.mem .resetStreak) u (.unverified src shortcutId) (.unrecorded src shortcutId)
  | failed {src dest shortcutId visibility forever} (e) :
      Breaking cp (.ask (.copyFile src.id (cp.copyBody dest src shortcutId) visibility forever))
        (.error e) .idle (.failed src shortcutId e)
  | released {src shortcutId e} (u) :
      Breaking cp (.mem (.release src.bytes none)) u (.failed src shortcutId e)
        (.released src shortcutId e)
  | quota {src shortcutId e} (he : e.isFatalQuota = true) (u) :
      Breaking cp (.mem .setStop) u (.released src shortcutId e) .idle
  | rateLimited {src shortcutId e} (he : e.isFatalQuota = false) (hr : e.isRate = true) :
      Breaking cp (.mem .bumpStreak) false (.released src shortcutId e)
        (.unrecorded src shortcutId)
  | trips {src shortcutId e} (he : e.isFatalQuota = false) (hr : e.isRate = true) :
      Breaking cp (.mem .bumpStreak) true (.released src shortcutId e) .tripped
  | otherFailure {src shortcutId e} (he : e.isFatalQuota = false) (hr : e.isRate = false) (u) :
      Breaking cp (.mem .resetStreak) u (.released src shortcutId e) (.unrecorded src shortcutId)
  | stopped (u) : Breaking cp (.mem .setStop) u .tripped .idle
  | recorded {src shortcutId} {item : FailedItem} (h : item.Names src shortcutId) (u) :
      Breaking cp (.mem (.recordFailed item)) u (.unrecorded src shortcutId) .idle
  | other {o : CopierOp} (x) (g : Handling) (ha : ¬Accounts o) (hb : ¬TurnsBreaker o) :
      Breaking cp o x g g

section Texts

variable {cp : Copier}

theorem Breaking.plain (g : Handling) (o : CopierOp) (x : o.Out) (ha : ¬Accounts o)
    (_ : ¬PointsLog o) (hb : ¬TurnsBreaker o) : Breaking cp o x g g := .other x g ha hb

namespace Copier

theorem passive_breakerSave (g : Handling) : Passive (Breaking cp) g cp.save :=
  passive_save fun _ x ha hb => .other x g ha hb

theorem tracks_record {src : DriveFile} {reason message : String}
    {parentSourceId shortcutTargetId shortcutId : Option String} :
    Prog.Tracks (Breaking cp) (recordFailed src reason message parentSourceId shortcutTargetId
      shortcutId (some (orElse shortcutId src.id))) (fun _ g => g = .idle)
      (.unrecorded src shortcutId) := by
  intro now
  exact ⟨_, .other now _ id id, fun u => ⟨.idle, .recorded ⟨rfl, rfl⟩ u, rfl⟩⟩

/-- A thread that has to stop the run sets the flag, and its copy raises. -/
theorem tracks_stopping {g : Handling} (text : String)
    (hset : ∀ u, Breaking cp (.mem .setStop) u g .idle) : Prog.Tracks (Breaking cp) (do
      mem (.setStopReason text)
      mem .setStop
      if (truthy (← mem .destRoot)).isSome && !cp.config.dryRun then cp.saveLog true
      throw (.quotaStopped (some text)) : CopierM Unit)
      (fun r g => (∃ x, r = .error x) ∧ g = .idle) g := by
  intro u
  refine ⟨g, .other u g id id, fun u => ⟨.idle, hset u, ?_⟩⟩
  exact tracks_stopped (Breaking.plain .idle) (passive_breakerSave .idle) text

theorem tracks_raiseIfFatalQuota (src : DriveFile) (shortcutId : Option String) (e : ApiError)
    (context : String) : Prog.Tracks (Breaking cp) (cp.raiseIfFatalQuota e context)
      (fun r g => (∃ x, r = .error x) ∧ g = .idle ∨
        r = .ok () ∧ e.isFatalQuota = false ∧ g = .released src shortcutId e)
      (.released src shortcutId e) := by
  refine tracks_ite (fun he => ?_) fun he => ?_
  · exact (tracks_stopping _ (.quota he)).mono fun _ _ => .inl
  · exact .inr ⟨rfl, Bool.eq_false_iff.mpr he, rfl⟩

theorem tracks_noteStreak {src : DriveFile} {shortcutId : Option String} {e : ApiError}
    (he : e.isFatalQuota = false) : Prog.Tracks (Breaking cp) (cp.noteStreak e)
      (fun r g => (∃ x, r = .error x) ∧ g = .idle ∨ r = .ok () ∧ g = .unrecorded src shortcutId)
      (.released src shortcutId e) := by
  refine tracks_ite (fun hr => ?_) fun hr => ?_
  · rintro (_ | _)
    · exact ⟨_, .rateLimited he hr, .inr ⟨rfl, rfl⟩⟩
    · exact ⟨_, .trips he hr, (tracks_stopping _ .stopped).mono fun _ _ => .inl⟩
  · exact fun u => ⟨_, .otherFailure he (Bool.eq_false_iff.mpr hr) u, .inr ⟨rfl, rfl⟩⟩

theorem tracks_handleCopyException (e : ApiError) (src : DriveFile) (parentSourceId : String)
    (shortcutId : Option String) : Prog.Tracks (Breaking cp)
      (cp.handleCopyException e src parentSourceId shortcutId (orElse shortcutId src.id))
      (fun _ g => g = .idle) (.released src shortcutId e) := by
  apply Prog.Tracks.bind (tracks_raiseIfFatalQuota src shortcutId e _)
  rintro _ _ (⟨⟨x, rfl⟩, rfl⟩ | ⟨rfl, he, rfl⟩)
  · rfl
  apply Prog.Tracks.bind (tracks_noteStreak he)
  rintro _ _ (⟨⟨x, rfl⟩, rfl⟩ | ⟨rfl, rfl⟩)
  · rfl
  · exact tracks_record

theorem tracks_outcome (newId : Option String) (src : DriveFile) (parentSourceId : String)
    (shortcutId : Option String) : Prog.Tracks (Breaking cp)
      (cp.settleCopy newId src parentSourceId shortcutId (orElse shortcutId src.id))
      (fun _ g => g = .idle) (.copied src shortcutId) := by
  apply Prog.Tracks.bind (tracks_verifyCopy (Breaking.plain _) newId src shortcutId)
  rintro _ _ ⟨⟨_ | detail, rfl⟩, rfl⟩
  · intro u
    refine ⟨.idle, .succeeded u, ?_⟩
    apply Passive.bind (passive_maybeFlush (Breaking.plain .idle) (passive_breakerSave .idle))
    exact fun _ => passive_reconcileFailed (Breaking.plain .idle) _ _
  · exact fun u => ⟨_, .unverified detail u, fun u => ⟨_, .verificationFailure u, tracks_record⟩⟩

theorem passive_attempt {dest : Option String} {src : DriveFile} {parentSourceId : String}
    {shortcutId : Option String} : Passive (Breaking cp) .idle
      (cp.copyMissing dest src parentSourceId shortcutId (orElse shortcutId src.id)) := by
  apply Passive.bind (Passive.mem fun x => .reserved _ _ _ x)
  intro granted
  apply Passive.ite _ fun _ => Passive.throw _
  intro _
  split
  · exact Passive.throw _
  rintro (e | newId)
  · refine ⟨_, .failed e, fun u => ⟨_, .released u, ?_⟩⟩
    exact tracks_handleCopyException e src parentSourceId shortcutId
  · exact ⟨_, .copied newId, tracks_outcome newId src parentSourceId shortcutId⟩

/-- A call handles the outcome of its copy before it ends. -/
theorem tracks_breaking (call : CopierCall) :
    (cp.makes call).Tracks (Breaking cp) (fun _ g => g = .idle) .idle :=
  tracks_makes (Breaking.plain .idle) (passive_breakerSave .idle) call
    fun _ _ _ _ _ => passive_attempt

end Copier
end Texts

/-! ## What the history of a thread shows -/

/-- The copy of `src` failed with `e`. -/
def FailedIn (cp : Copier) (src : DriveFile) (shortcutId : Option String) (e : ApiError)
    (past : List (Event copierSig)) : Prop :=
  ∃ dest visibility forever, .did (.ask (.copyFile src.id (cp.copyBody dest src shortcutId)
    visibility forever)) (.error e) ∈ past

/-- The copy of `src` failed with `e`, and then its reservation was released. -/
def ReleasedIn (cp : Copier) (src : DriveFile) (shortcutId : Option String) (e : ApiError)
    (past : List (Event copierSig)) : Prop :=
  ∃ later u earlier, past = later ++ .did (.mem (.release src.bytes none)) u :: earlier ∧
    FailedIn cp src shortcutId e earlier

/-- A record of the failure of `src`. -/
def RecordedIn (src : DriveFile) (shortcutId : Option String) (past : List (Event copierSig)) :
    Prop :=
  ∃ item : FailedItem, item.Names src shortcutId ∧ ∃ u, .did (.mem (.recordFailed item)) u ∈ past

theorem FailedIn.mono {cp : Copier} {src : DriveFile} {shortcutId : Option String} {e : ApiError}
    {past past' : List (Event copierSig)} (h : FailedIn cp src shortcutId e past)
    (hsub : past ⊆ past') : FailedIn cp src shortcutId e past' := by
  obtain ⟨dest, visibility, forever, hm⟩ := h
  exact ⟨dest, visibility, forever, hsub hm⟩

theorem ReleasedIn.cons {cp : Copier} {src : DriveFile} {shortcutId : Option String}
    {e : ApiError} {past : List (Event copierSig)} (ev : Event copierSig)
    (h : ReleasedIn cp src shortcutId e past) : ReleasedIn cp src shortcutId e (ev :: past) := by
  obtain ⟨later, u, earlier, rfl, hfailed⟩ := h
  exact ⟨ev :: later, u, earlier, rfl, hfailed⟩

theorem ReleasedIn.failed {cp : Copier} {src : DriveFile} {shortcutId : Option String}
    {e : ApiError} {past : List (Event copierSig)} (h : ReleasedIn cp src shortcutId e past) :
    FailedIn cp src shortcutId e past := by
  obtain ⟨later, u, earlier, rfl, hfailed⟩ := h
  exact hfailed.mono fun _ hm => List.mem_append_right _ (List.mem_cons_of_mem _ hm)

theorem RecordedIn.cons {src : DriveFile} {shortcutId : Option String}
    {past : List (Event copierSig)} (ev : Event copierSig) (h : RecordedIn src shortcutId past) :
    RecordedIn src shortcutId (ev :: past) := by
  obtain ⟨item, hnames, u, hm⟩ := h
  exact ⟨item, hnames, u, List.mem_cons_of_mem _ hm⟩

section Trails

variable {cp : Copier} {h : List (Event copierSig)} {g : Handling}

/-- A rate-limit failure trips the breaker. -/
abbrev tripEvent : Event copierSig := .did (.mem .bumpStreak) true

/-- What the history of a thread says of the failure it handles. -/
def Handling.Explains (cp : Copier) (h : List (Event copierSig)) : Handling → Prop
  | .failed src shortcutId e => FailedIn cp src shortcutId e h
  | .released src shortcutId e => ReleasedIn cp src shortcutId e h
  | .tripped => tripEvent ∈ h
  | _ => True

theorem explains_of_trail (ht : Trail (Breaking cp) .idle h g) : g.Explains cp h := by
  induction ht with
  | start => trivial
  | @move h g₁ g₂ o x _ hm ih =>
    cases hm with
    | failed e => exact ⟨_, _, _, List.mem_cons_self ..⟩
    | released u => exact ⟨[], u, h, rfl, ih⟩
    | trips he hr => exact List.mem_cons_self ..
    | other x g ha hb =>
      cases g₁ with
      | failed src shortcutId e => exact FailedIn.mono ih (List.subset_cons_self ..)
      | released src shortcutId e => exact ReleasedIn.cons _ ih
      | tripped => exact List.mem_cons_of_mem _ ih
      | _ => trivial
    | _ => trivial

/-- A rate-limit failure, whose reservation is released. -/
def RateLimitedIn (cp : Copier) (src : DriveFile) (shortcutId : Option String)
    (past : List (Event copierSig)) : Prop :=
  ∃ e : ApiError, e.isFatalQuota = false ∧ e.isRate = true ∧ ReleasedIn cp src shortcutId e past

/-- A rate-limit failure that does not trip the breaker had its reservation released, and is
recorded later or the thread is about to record it. -/
theorem recorded_of_trail (ht : Trail (Breaking cp) .idle h g)
    {later earlier : List (Event copierSig)}
    (hbump : h = later ++ .did (.mem .bumpStreak) false :: earlier) :
    ∃ src shortcutId, RateLimitedIn cp src shortcutId earlier ∧
      (g = .unrecorded src shortcutId ∨ RecordedIn src shortcutId later) := by
  induction ht generalizing later with
  | start => exact absurd hbump (by simp)
  | @move h g₁ g₂ o x ht hm ih =>
    rcases later with _ | ⟨ev, later⟩
    · obtain ⟨hev, rfl⟩ := List.cons.inj hbump
      cases hev
      cases hm with
      | rateLimited he hr =>
        exact ⟨_, _, ⟨_, he, hr, explains_of_trail ht⟩, .inl rfl⟩
      | other x g ha hb => exact absurd trivial hb
    obtain ⟨hev, hh⟩ := List.cons.inj hbump
    obtain ⟨src, shortcutId, hrate, rfl | hrec⟩ := ih hh
    · cases hm with
      | recorded hnames u =>
        exact ⟨src, shortcutId, hrate, .inr ⟨_, hnames, u, hev ▸ List.mem_cons_self ..⟩⟩
      | other x g ha hb => exact ⟨src, shortcutId, hrate, .inl rfl⟩
    · exact ⟨src, shortcutId, hrate, .inr (hrec.cons ev)⟩

/-- A thread whose failure trips the breaker sets the stop flag or is about to. -/
theorem stops_of_trail (ht : Trail (Breaking cp) .idle h g)
    {later earlier : List (Event copierSig)}
    (hbump : h = later ++ tripEvent :: earlier) :
    (∃ src shortcutId, RateLimitedIn cp src shortcutId earlier) ∧
      (g = .tripped ∨ ∃ u, .did (.mem .setStop) u ∈ later) := by
  induction ht generalizing later with
  | start => exact absurd hbump (by simp)
  | @move h g₁ g₂ o x ht hm ih =>
    rcases later with _ | ⟨ev, later⟩
    · obtain ⟨hev, rfl⟩ := List.cons.inj hbump
      cases hev
      cases hm with
      | trips he hr => exact ⟨⟨_, _, _, he, hr, explains_of_trail ht⟩, .inl rfl⟩
      | other x g ha hb => exact absurd trivial hb
    obtain ⟨hev, hh⟩ := List.cons.inj hbump
    obtain ⟨hrate, rfl | ⟨u, hset⟩⟩ := ih hh
    · refine ⟨hrate, ?_⟩
      cases hm with
      | stopped u => exact .inr ⟨u, hev ▸ List.mem_cons_self ..⟩
      | other x g ha hb => exact .inl rfl
    · exact ⟨hrate, .inr ⟨u, List.mem_cons_of_mem _ hset⟩⟩

/-- A thread sets the stop flag only after a failure that tripped the breaker, or one that
says that a quota is used up. -/
theorem caused_of_trail (ht : Trail (Breaking cp) .idle h g)
    {later earlier : List (Event copierSig)} {u : Unit}
    (hset : h = later ++ .did (.mem .setStop) u :: earlier) :
    tripEvent ∈ earlier ∨
      ∃ src shortcutId e, e.isFatalQuota = true ∧ FailedIn cp src shortcutId e earlier := by
  induction ht generalizing later with
  | start => exact absurd hset (by simp)
  | @move h g₁ g₂ o x ht hm ih =>
    rcases later with _ | ⟨ev, later⟩
    · obtain ⟨hev, rfl⟩ := List.cons.inj hset
      cases hev
      cases hm with
      | quota he => exact .inr ⟨_, _, _, he, (explains_of_trail ht).failed⟩
      | stopped => exact .inl (explains_of_trail ht)
      | other x g ha hb => exact absurd trivial hb
    · exact ih (List.cons.inj hset).2

/-- Whether an event is the outcome of a copy that no quota stopped. -/
def isOutcome : Event copierSig → Bool
  | .did (.ask (.copyFile _ _ _ _)) (.ok _) => true
  | .did (.ask (.copyFile _ _ _ _)) (.error e) => !e.isFatalQuota
  | _ => false

/-- The outcomes a thread has yet to note: one, from the end of its copy on. -/
def Handling.due : Handling → ℕ
  | .copied _ _ => 1
  | .unverified _ _ => 1
  | .failed _ _ e => if e.isFatalQuota then 0 else 1
  | .released _ _ e => if e.isFatalQuota then 0 else 1
  | _ => 0

theorem unnoted_of_plain {o : CopierOp} (x : o.Out) (ha : ¬Accounts o) (hb : ¬TurnsBreaker o) :
    notedRate (.did o x) = none ∧ isOutcome (.did o x) = false := by
  cases o with
  | mem o => cases o <;> first | exact ⟨rfl, rfl⟩ | exact absurd trivial ha | exact absurd trivial hb
  | ask q => cases q <;> first | exact ⟨rfl, rfl⟩ | exact absurd trivial hb

/-- Each outcome is noted once. -/
theorem noted_of_trail (ht : Trail (Breaking cp) .idle h g) :
    h.countP isOutcome = (h.filterMap notedRate).length + g.due := by
  induction ht with
  | start => rfl
  | @move h g₁ g₂ o x _ hm ih =>
    cases hm with
    | other x _ ha hb =>
      obtain ⟨hnoted, hout⟩ := unnoted_of_plain x ha hb
      rw [List.countP_cons_of_neg (by simp [hout]), List.filterMap_cons_none hnoted, ih]
    | failed e =>
      cases hquota : e.isFatalQuota <;>
        simp_all [List.filterMap_cons, isOutcome, notedRate, Handling.due]
    | _ => simp_all [List.countP_cons, List.filterMap_cons, isOutcome, notedRate, Handling.due]

end Trails

/-! ## The breaker in every interleaving -/

/-- What the history of a thread at `g` shows: each outcome is noted once, each rate-limit
failure that does not trip the breaker is recorded with its reservation released, each one
that does sets the stop flag, and nothing else of the breaker does. -/
structure HandledBy (cp : Copier) (h : List (Event copierSig)) (g : Handling) : Prop where
  trail : Trail (Breaking cp) .idle h g
  noted : h.countP isOutcome = (h.filterMap notedRate).length + g.due
  recorded : ∀ later earlier, h = later ++ .did (.mem .bumpStreak) false :: earlier →
    ∃ src shortcutId, RateLimitedIn cp src shortcutId earlier ∧
      (g = .unrecorded src shortcutId ∨ RecordedIn src shortcutId later)
  stops : ∀ later earlier, h = later ++ tripEvent :: earlier →
    (∃ src shortcutId, RateLimitedIn cp src shortcutId earlier) ∧
      (g = .tripped ∨ ∃ u, .did (.mem .setStop) u ∈ later)
  caused : ∀ later u earlier, h = later ++ .did (.mem .setStop) u :: earlier →
    tripEvent ∈ earlier ∨
      ∃ src shortcutId e, e.isFatalQuota = true ∧ FailedIn cp src shortcutId e earlier

/-- What the circuit breaker did in a configuration of a crew. -/
structure BreakerSound {cp : Copier} {V : Service} {ok : StepCondition V}
    (c : Config (cp.runs V ok) Unit) : Prop where
  counted : StreakCounted c.world
  threads : ∃ hs, Interleaved hs c.world.trace ∧ List.Forall₂ (fun p h => ∃ g,
    HandledBy cp h g ∧ p.Tracks (Breaking cp) (fun _ g => g = .idle) g ∧
      (Finished p → g = .idle)) c.tasks hs
  causes : ∀ later u earlier, c.world.trace = later ++ .did (.mem .setStop) u :: earlier →
    (∃ later' earlier', earlier = later' ++ tripEvent :: earlier' ∧
      rateLimitStopThreshold ≤ streak earlier' + 1) ∨
    ∃ src shortcutId e, e.isFatalQuota = true ∧ FailedIn cp src shortcutId e earlier
  stopped : (∀ p ∈ c.tasks, Finished p) → tripEvent ∈ c.world.trace →
    c.world.state.mem.stop = true

/-- The flag is set once a thread has set it. -/
theorem stop_of_setStop {cp : Copier} {V : Service} {ok : StepCondition V} {α : Type}
    {p : Prog copierSig α} {s : Site V} {c : Config (cp.runs V ok) α}
    (h : Reach _ (start (cp.runs V ok) p s []) c) (u : Unit)
    (hset : .did (.mem .setStop) u ∈ c.world.trace) : c.world.state.mem.stop = true := by
  revert hset
  refine Reach.world (K := fun w : World (cp.runs V ok) =>
    .did (.mem .setStop) u ∈ w.trace → w.state.mem.stop = true) ?_ h nofun
  intro w w' hg ih
  cases hg with
  | same => exact ih
  | act hp =>
    have hs := Site.step_of_perform hp
    intro hm
    rcases List.mem_cons.mp hm with heq | hm
    · cases heq
      exact StopRule.sets (.set u) hs
    · exact hs.stop_mono (ih hm)
  | enter l =>
    intro hm
    rcases List.mem_cons.mp hm with heq | hm
    · exact nomatch heq
    · exact ih hm
  | env he =>
    obtain ⟨reason, rfl⟩ := he
    exact fun _ => rfl

/-- The breaker trips exactly on a streak, in every interleaving of copies and saves. -/
theorem breaker_trips_on_streak {cp : Copier} {V : Service} {ok : StepCondition V}
    {calls : List CopierCall} {m : Mem} (hm : m.consecRateFail = 0) (d : V.State)
    {c : Config (cp.runs V ok) Unit}
    (h : Reach _ (start (cp.runs V ok) (cp.makesAll calls) ⟨m, d⟩ []) c) : BreakerSound c := by
  have htracks : ∀ p ∈ calls.map cp.makes,
      p.Tracks (Breaking cp) (fun _ g => g = .idle) .idle := by
    intro p hp
    obtain ⟨call, -, rfl⟩ := List.mem_map.mp hp
    exact Copier.tracks_breaking call
  have hcounted : StreakCounted c.world := StreakCounted.reach hm d h
  obtain ⟨hs, hi, htrails⟩ := Crewed.trails htracks h
  have hthreads : List.Forall₂ (fun p h => ∃ g, HandledBy cp h g ∧
      p.Tracks (Breaking cp) (fun _ g => g = .idle) g ∧ (Finished p → g = .idle)) c.tasks hs := by
    apply htrails.imp
    rintro p h ⟨g, ht, hp⟩
    refine ⟨g, ⟨ht, noted_of_trail ht, fun _ _ => recorded_of_trail ht, fun _ _ => stops_of_trail ht,
      fun _ _ _ => caused_of_trail ht⟩, hp, ?_⟩
    rintro rfl
    exact hp
  refine ⟨hcounted, ⟨hs, hi, hthreads⟩, ?_, ?_⟩
  · intro later u earlier htrace
    obtain ⟨h', hmem, later', earlier', hh, hsub⟩ := hi.owner htrace
    obtain ⟨p, -, g, hg, -⟩ := hthreads.exists_of_mem hmem
    rcases hg.caused later' u earlier' hh with htrip | ⟨src, shortcutId, e, he, hfailed⟩
    · left
      obtain ⟨newer, older, rfl⟩ := List.append_of_mem (hsub.subset htrip)
      refine ⟨newer, older, rfl, ?_⟩
      apply (hcounted.trips (later ++ .did (.mem .setStop) u :: newer) true older ?_).mp rfl
      rw [htrace, List.append_assoc, List.cons_append]
    · exact .inr ⟨src, shortcutId, e, he, hfailed.mono hsub.subset⟩
  · intro hfinished htrip
    obtain ⟨newer, older, htrace⟩ := List.append_of_mem htrip
    obtain ⟨h', hmem, later', earlier', hh, -⟩ := hi.owner htrace
    obtain ⟨p, hp, g, hg, -, hidle⟩ := hthreads.exists_of_mem hmem
    obtain ⟨-, htripped | ⟨u, hset⟩⟩ := hg.stops later' earlier' hh
    · exact nomatch (hidle (hfinished p hp)).symm.trans htripped
    · apply stop_of_setStop h u
      apply (hi.sublist h' hmem).subset
      rw [hh]
      exact List.mem_append_left _ hset

/-! ## A streak -/

def throttled : ApiError where
  text := "Rate Limit Exceeded"
  status := some 429

def Request.isCopyFile : Request → Bool
  | .copyFile _ _ _ _ => true
  | _ => false

/-- Workers that copy a file each. -/
def streakCalls : List CopierCall :=
  (List.range rateLimitStopThreshold).map fun k => .work (some "target")
    { id := s!"file{k}", name := "a.txt", mimeType := "", size := some 1 } 0 "source"

/-- Each copy is throttled; the workers note it one after the other. -/
def streakRun : Config (openRuns smallCopier) Unit :=
  (Plan.script smallCopier openProfile anyStep Request.isCopyFile
    { raise := fun _ => some throttled } fun _ _ _ _ => true).run
    (List.replicate rateLimitStopThreshold .main ++
      (List.range rateLimitStopThreshold).flatMap fun k => List.replicate 10 (.task k))
    (callsStart anyStep (smallCopier.freshMem "") ⟨[], by simp⟩ streakCalls)

/-- The last worker trips the breaker, the others record their failures. -/
theorem breaker_trips_on_streak_eighth :
    streakRun.world.state.mem.stop = true ∧
      streakRun.world.state.mem.result.failedItems.length + 1 = rateLimitStopThreshold ∧
      BreakerSound streakRun := by
  have hlegal : (Plan.script smallCopier openProfile anyStep Request.isCopyFile
      { raise := fun _ => some throttled } fun _ _ _ _ => true).Legal :=
    Plan.legal ⟨fun _ _ => trivial, fun _ n body id => ⟨⟨id, rfl⟩, rfl⟩⟩ fun _ _ _ _ _ => trivial
  have hreach : Reach _ (callsStart anyStep (smallCopier.freshMem "") ⟨[], by simp⟩ streakCalls)
      streakRun := hlegal.reach_run _ _
  have hzero : (smallCopier.freshMem "").consecRateFail = 0 := rfl
  exact ⟨by decide +kernel, by decide +kernel, breaker_trips_on_streak hzero _ hreach⟩

end TurboCopy
