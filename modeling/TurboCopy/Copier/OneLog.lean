import TurboCopy.Copier.Calls

/-!
# Logs created by overlapping saves

`ResumeStore.save` reads the id of its log, creates a log when there is none and then
remembers the new id, without a lock. Saves that do not overlap while one of them creates a
log create at most one; two that both find no id create two.
-/

namespace TurboCopy

open Threads CopierM

/-! ## Saves in the history -/

/-- A save looks for its log. -/
def readsLog : Event copierSig → Bool
  | .did (.mem .ownLog) _ => true
  | _ => false

/-- A save finds no log. -/
def opensSave : Event copierSig → Bool
  | .did (.mem .ownLog) own => (truthy own.1).isNone
  | _ => false

/-- A save that found no log is over: it could not create one, or the new one is known. -/
def closesSave : Event copierSig → Bool
  | .did (.ask (.createJsonFile _ _ _ _)) (.error _) => true
  | .did (.mem (.setOwnLog _)) _ => true
  | _ => false

/-- The id in the response to the creation of a log. -/
def createdLog : Event copierSig → Option (Option String)
  | .did (.ask (.createJsonFile _ _ _ _)) (.ok newId) => some newId
  | _ => none

/-- The saves that found no log and are not over. -/
def savesInFlight (past : List (Event copierSig)) : ℤ :=
  past.countP opensSave - past.countP closesSave

def logsCreated (past : List (Event copierSig)) : ℕ := past.countP fun e => (createdLog e).isSome

/-- No save looks for its log while another that found none is in flight, and the response
to each creation carries an id. -/
def SavesApart : List (Event copierSig) → Prop
  | [] => True
  | e :: past => SavesApart past ∧ (readsLog e = true → savesInFlight past = 0) ∧
      ((createdLog e).all fun newId => (truthy newId).isSome) = true

instance SavesApart.decidable : (past : List (Event copierSig)) → Decidable (SavesApart past)
  | [] => .isTrue trivial
  | e :: past =>
    have := SavesApart.decidable past
    inferInstanceAs (Decidable (SavesApart past ∧ (readsLog e = true → savesInFlight past = 0) ∧
      ((createdLog e).all fun newId => (truthy newId).isSome) = true))

/-! ## The stages of a save -/

inductive Saving
  | idle
  | creating
  | created (newId : Option String)

def Saving.isCreating : Saving → Bool
  | .creating => true
  | _ => false

def Saving.isCreated : Saving → Bool
  | .created _ => true
  | _ => false

/-- How operations move the stage of a save. -/
inductive SaveMove : Moving copierSig Saving
  | found {own : Option String × Option String} (h : (truthy own.1).isSome = true) :
      SaveMove (.mem .ownLog) own .idle .idle
  | missing {own : Option String × Option String} (h : truthy own.1 = none) :
      SaveMove (.mem .ownLog) own .idle .creating
  | created (name parent : String) (data : Content) (props : Dict String)
      (newId : Option String) :
      SaveMove (.ask (.createJsonFile name parent data props)) (.ok newId) .creating
        (.created newId)
  | notCreated (name parent : String) (data : Content) (props : Dict String) (e : ApiError) :
      SaveMove (.ask (.createJsonFile name parent data props)) (.error e) .creating .idle
  | known (newId : Option String) (u) :
      SaveMove (.mem (.setOwnLog newId)) u (.created newId) .idle
  | other {o : CopierOp} (x) (g : Saving) (h : ¬PointsLog o) : SaveMove o x g g

section Texts

variable {cp : Copier}

theorem Copier.passive_saveMove : Passive SaveMove .idle cp.save := by
  apply Passive.bind (Passive.ask fun x => .other x _ id)
  intro now
  apply Passive.bind (Passive.mem fun x => .other x _ id)
  intro state own
  cases hown : truthy own.1 with
  | some id =>
    refine ⟨.idle, .found (by rw [hown]; rfl), ?_⟩
    simp only [Prog.pure_bind, hown]
    apply Passive.bind (Passive.ask fun x => .other x _ fun h => h)
    exact fun r => Passive.orThrow r
  | none =>
    refine ⟨.creating, .missing hown, ?_⟩
    simp only [Prog.pure_bind, hown]
    rintro (e | newId)
    · exact ⟨.idle, .notCreated _ _ _ _ e, Passive.throw _⟩
    · exact ⟨.created newId, .created _ _ _ _ newId, fun u => ⟨.idle, .known newId u, rfl⟩⟩

/-- A copy of a file does not touch the log but in its saves. -/
theorem Copier.passive_copy {dest : Option String} {src : DriveFile} {parentSourceId : String}
    {shortcutId : Option String} {effId : String} :
    Passive SaveMove .idle (cp.copyMissing dest src parentSourceId shortcutId effId) := by
  have hplain (o : CopierOp) (x : o.Out) (_ : ¬Accounts o) (ho : ¬PointsLog o)
      (_ : ¬TurnsBreaker o) : SaveMove o x .idle .idle := .other x _ ho
  apply Passive.bind (Passive.mem fun x => .other x _ id)
  intro granted
  apply Passive.ite _ fun _ => Passive.throw _
  intro _
  split
  · exact Passive.throw _
  apply Passive.bind (Passive.ask fun x => .other x _ id)
  rintro (e | newId)
  · apply Passive.bind (Passive.mem fun x => .other x _ id)
    exact fun _ => passive_handleCopyException (fun _ x _ ho => .other x _ ho)
      passive_saveMove _ _ _ _ _
  · apply Passive.bind
    · exact (tracks_verifyCopy hplain newId src shortcutId).mono fun _ _ h => h.2
    rintro (_ | detail)
    · apply Passive.bind
      · apply Passive.bind (Passive.mem fun x => .other x _ id)
        exact fun _ => passive_maybeFlush hplain passive_saveMove
      · exact fun _ => passive_reconcileFailed hplain _ _
    · apply Passive.bind (Passive.mem fun x => .other x _ id)
      intro _
      apply Passive.bind (Passive.mem fun x => .other x _ id)
      exact fun _ => passive_recordFailed hplain

end Texts

/-! ## The stages of a crew -/

section Events

variable {o : CopierOp} {x : o.Out} {past : List (Event copierSig)}

/-- An operation that has nothing to do with logs leaves their history as it is. -/
theorem quiet_log (h : ¬PointsLog o) : readsLog (.did o x) = false ∧ opensSave (.did o x) = false ∧
    closesSave (.did o x) = false ∧ createdLog (.did o x) = none := by
  cases o with
  | mem o => cases o <;> first | exact ⟨rfl, rfl, rfl, rfl⟩ | exact absurd trivial h
  | ask q => cases q <;> first | exact ⟨rfl, rfl, rfl, rfl⟩ | exact absurd trivial h

theorem Mem.ownLogFileId_exec (m : Mem) {o : MemOp} (h : ¬PointsLog (.mem o)) :
    (m.exec o).2.ownLogFileId = m.ownLogFileId := by
  cases o with
  | setOwnLog id => exact absurd trivial h
  | trustResume i effId src => simp only [Mem.exec]; split <;> rfl
  | popMatch i src mode allow effId => simp only [Mem.exec]; split <;> rfl
  | reserve max size reason => simp only [Mem.exec]; split <;> rfl
  | beginSave force => simp only [Mem.exec]; split <;> rfl
  | _ => rfl

end Events

/-- Numbers of saves: how many found no log, how many of these are over, how many are about
to create one and how many have created one that is not known yet, next to the logs created
so far. -/
structure SaveTally (opens closes creating created made : ℕ) (known : Prop) : Prop where
  inFlight : opens = closes + (creating + created)
  single : creating + created ≤ 1
  atMostOne : made ≤ 1
  before : 0 < creating → made = 0
  after : made = 1 → 0 < created ∨ known

namespace SaveTally

variable {opens closes creating created made : ℕ} {known known' : Prop}

theorem found (h : SaveTally opens closes creating created made known) (hin : opens = closes)
    (hnot : ¬known) : SaveTally (opens + 1) closes (creating + 1) created made known := by
  obtain ⟨hflight, hsingle, hmade, -, hknown⟩ := h
  have hzero : made = 0 := by
    by_contra hne
    rcases hknown (by omega) with hpos | hk
    · omega
    · exact hnot hk
  exact ⟨by omega, by omega, hmade, fun _ => hzero, fun h1 => absurd h1 (by omega)⟩

theorem create (h : SaveTally opens closes (creating + 1) created made known) :
    SaveTally opens closes creating (created + 1) (made + 1) known := by
  obtain ⟨hflight, hsingle, hmade, hbefore, -⟩ := h
  have hzero : made = 0 := hbefore (Nat.succ_pos _)
  exact ⟨by omega, by omega, by omega, by omega, fun _ => .inl (Nat.succ_pos _)⟩

theorem fail (h : SaveTally opens closes (creating + 1) created made known) :
    SaveTally opens (closes + 1) creating created made known := by
  obtain ⟨hflight, hsingle, hmade, hbefore, -⟩ := h
  have hzero : made = 0 := hbefore (Nat.succ_pos _)
  exact ⟨by omega, by omega, hmade, fun _ => hzero, fun h1 => absurd h1 (by omega)⟩

theorem learn (h : SaveTally opens closes creating (created + 1) made known') (hknown : known) :
    SaveTally opens (closes + 1) creating created made known := by
  obtain ⟨hflight, hsingle, hmade, -, -⟩ := h
  exact ⟨by omega, by omega, hmade, by omega, fun _ => .inr hknown⟩

end SaveTally

/-- The saves of the threads next to the history, while no two creations overlap. -/
structure Stages {cp : Copier} {V : Service} {ok : StepCondition V} (w : World (cp.runs V ok))
    (gs : List Saving) : Prop where
  tally : SaveTally (w.trace.countP opensSave) (w.trace.countP closesSave)
    (gs.countP Saving.isCreating) (gs.countP Saving.isCreated) (logsCreated w.trace)
    ((truthy w.state.mem.ownLogFileId).isSome = true)
  ids : ∀ newId, .created newId ∈ gs → (truthy newId).isSome = true

theorem countP_middle {α : Type} (p : α → Bool) (us : List α) (a : α) (vs : List α) :
    (us ++ a :: vs).countP p = (us ++ vs).countP p + if p a then 1 else 0 := by
  simp only [List.countP_append, List.countP_cons]
  omega

section Crew

variable {cp : Copier} {V : Service} {ok : StepCondition V} {w : World (cp.runs V ok)}
  {us vs : List Saving} {o : CopierOp} {x : o.Out} {s : Site V} {g g' : Saving}

theorem Stages.ids_move (h : Stages w (us ++ g :: vs)) (h' : ∀ newId, g' = .created newId →
    (truthy newId).isSome = true) :
    ∀ newId, .created newId ∈ us ++ g' :: vs → (truthy newId).isSome = true := by
  intro newId hm
  rcases List.mem_append.mp hm with hm | hm
  · exact h.ids newId (List.mem_append_left _ hm)
  · rcases List.mem_cons.mp hm with heq | hm
    · exact h' newId heq.symm
    · exact h.ids newId (List.mem_append_right _ (List.mem_cons_of_mem _ hm))

/-- One operation of a thread, when it does not overlap with the creation of a log. -/
theorem Stages.act (hp : (cp.runs V ok).perform o w.state x s) (hm : SaveMove o x g g')
    (hapart : SavesApart (.did o x :: w.trace)) (h : Stages w (us ++ g :: vs)) :
    Stages (w.log s (.did o x)) (us ++ g' :: vs) := by
  have hs : w.state.Step ok o x s := Site.step_of_perform hp
  have hmem : s.mem = w.state.mem.after o := hs.after
  obtain ⟨-, hreads, hid⟩ := hapart
  have htally := h.tally
  refine ⟨?_, h.ids_move ?_⟩
  · change SaveTally ((Event.did o x :: w.trace).countP opensSave)
      ((Event.did o x :: w.trace).countP closesSave) _ _ (logsCreated (.did o x :: w.trace))
      ((truthy s.mem.ownLogFileId).isSome = true)
    rw [countP_middle, countP_middle] at htally
    rw [countP_middle, countP_middle, logsCreated, List.countP_cons, List.countP_cons,
      List.countP_cons, ← logsCreated, hmem]
    cases hm with
    | @found own hown =>
      have hopens : opensSave (.did (.mem .ownLog) own) = false := by
        change (truthy own.1).isNone = false
        rw [← Option.not_isSome, hown]
        rfl
      rw [hopens]
      exact htally
    | @missing own hown =>
      have hopens : opensSave (.did (.mem .ownLog) own) = true := by
        change (truthy own.1).isNone = true
        rw [hown]
        rfl
      have hzero : savesInFlight w.trace = 0 := hreads rfl
      rw [hopens]
      apply htally.found
      · unfold savesInFlight at hzero
        exact Int.ofNat_inj.mp (sub_eq_zero.mp hzero)
      · obtain rfl : own = _ := hs.1
        change truthy w.state.mem.ownLogFileId = none at hown
        simp [hown]
    | created name parent data props newId => exact htally.create
    | notCreated name parent data props e => exact htally.fail
    | known newId u => exact htally.learn (h.ids newId (by simp))
    | other x g ho =>
      obtain ⟨-, hopens, hcloses, hnone⟩ := quiet_log (x := x) ho
      rw [hopens, hcloses, hnone]
      cases o with
      | mem o => rw [Mem.after, Mem.ownLogFileId_exec _ ho]; exact htally
      | ask q => exact htally
  · intro newId hnew
    cases hm with
    | created name parent data props id =>
      cases hnew
      exact hid
    | other x g ho => exact h.ids newId (by simp [hnew])
    | _ => cases hnew

/-- While no save reads the pointer during a creation, the stages are those of one save. -/
theorem Stages.keeps : CrewKeeps (cp.runs V ok) SaveMove .idle
    fun w gs => SavesApart w.trace → Stages w gs where
  join h hapart := by
    obtain ⟨htally, hids⟩ := h hapart
    refine ⟨?_, ?_⟩
    · rw [List.countP_append, List.countP_append]
      exact htally
    · intro newId hm
      rcases List.mem_append.mp hm with hm | hm
      · exact hids newId hm
      · exact nomatch List.mem_singleton.mp hm
  act hp hm h hapart := (h hapart.1).act hp hm hapart
  env he h hapart := by
    obtain ⟨reason, rfl⟩ := he
    obtain ⟨htally, hids⟩ := h hapart
    exact ⟨htally, hids⟩

end Crew

/-- Saves that keep apart while one of them creates a log create at most one, in every
interleaving of copies and saves. -/
theorem one_log_created {cp : Copier} {V : Service} {ok : StepCondition V}
    {calls : List CopierCall} (m : Mem) (d : V.State) {c : Config (cp.runs V ok) Unit}
    (h : Reach _ (start (cp.runs V ok) (cp.makesAll calls) ⟨m, d⟩ []) c)
    (hapart : SavesApart c.world.trace) : logsCreated c.world.trace ≤ 1 := by
  have hplain (o : CopierOp) (x : o.Out) (_ : ¬Accounts o) (ho : ¬PointsLog o)
      (_ : ¬TurnsBreaker o) : SaveMove o x .idle .idle := .other x _ ho
  have htracks : ∀ p ∈ calls.map cp.makes, p.Tracks SaveMove (fun _ g => g = .idle) .idle := by
    intro p hp
    obtain ⟨call, -, rfl⟩ := List.mem_map.mp hp
    exact Copier.tracks_makes hplain Copier.passive_saveMove call fun _ _ _ _ _ => Copier.passive_copy
  have hstart : SavesApart ([] : List (Event copierSig)) →
      Stages (⟨⟨m, d⟩, []⟩ : World (cp.runs V ok)) [] := by
    intro _
    exact ⟨⟨rfl, by simp, by simp [logsCreated], by simp, by simp [logsCreated]⟩, by simp⟩
  obtain ⟨gs, hcrew⟩ := Crewed.reach Stages.keeps htracks hstart h
  exact (hcrew.world hapart).tally.atMostOne

/-! ## Two forced saves -/

/-- A copier whose destination root is known and which has no log yet. -/
def unloggedMem : Mem :=
  (smallCopier.freshMem "").exec (.setDestRoot (some "target")) |>.2

def rootDrive : Drive where
  nodes := [folderNode "target" "Target" []]
  nodup := by decide

def savesTwice : List CopierCall := [.save true, .save true]

/-- The second save starts when the first has found no log. -/
def overlapped : Config (smallCopier.runs (Drive.service openProfile) anyStep) Unit :=
  callsAfter anyStep unloggedMem rootDrive savesTwice ([.main, .main] ++
    List.replicate 5 (.task 0) ++ List.replicate 10 (.task 1) ++ List.replicate 5 (.task 0))

/-- The second save starts when the first is over. -/
def oneByOne : Config (smallCopier.runs (Drive.service openProfile) anyStep) Unit :=
  callsAfter anyStep unloggedMem rootDrive savesTwice ([.main, .main] ++
    List.replicate 10 (.task 0) ++ List.replicate 10 (.task 1))

/-- The second save writes to the log of the first. -/
theorem one_log_created_twice : SavesApart oneByOne.world.trace ∧
    logsCreated oneByOne.world.trace = 1 ∧ logsCreated oneByOne.world.trace ≤ 1 := by
  have hapart : SavesApart oneByOne.world.trace := by decide +kernel
  have hreach : Reach _ (callsStart anyStep unloggedMem rootDrive savesTwice) oneByOne :=
    callsAfter_reach (fun _ _ _ _ => trivial) _
  refine ⟨hapart, by decide +kernel, ?_⟩
  exact one_log_created (V := Drive.service openProfile) unloggedMem rootDrive hreach hapart

/-- Both saves create a log of the account in the destination root. -/
theorem two_logs_created : unloggedMem.ownLogFileId = none ∧
    Reach _ (callsStart anyStep unloggedMem rootDrive savesTwice) overlapped ∧
    logsCreated overlapped.world.trace = 2 ∧
    (overlapped.world.state.drive.nodes.filter fun n =>
      n.file.name = logNameFor none ∧ n.file.parents = ["target"]).length = 2 :=
  ⟨rfl, callsAfter_reach (fun _ _ _ _ => trivial) _, by decide +kernel, by decide +kernel⟩

end TurboCopy
