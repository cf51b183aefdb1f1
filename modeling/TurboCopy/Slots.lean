import TurboCopy.Concurrency
import TurboCopy.Threads.Monitor

/-!
# Calls that wait for a slot

`_run` of `drive_client.py` enters a slot of the controller, does what `_exec` does and leaves the
slot. `_acquire` waits at the condition variable, which is notified by `_release` and by a success
that raises a limit, and not by a throttle.
-/

namespace TurboCopy

open Threads (Monitor Scene Caller Stage)

/-- The condition of `record_success` under which the limit grows and all who wait are notified. -/
def Limiter.grows (l : Limiter) : Bool :=
  decide (l.increaseAfter ≤ l.successes + 1 ∧ l.limit < l.maxLimit)

/-- The sections of the controller under its condition variable: `_acquire`, `_release`, and the
steps of a call that record an outcome. -/
def slots : Monitor (OperationType → Limiter) OperationType ClientStep where
  free limiters op := (limiters op).hasRoom
  enter limiters op := Function.update limiters op (limiters op).acquire
  leave limiters op := Function.update limiters op (limiters op).release
  act limiters _ step :=
    match step with
    | .success op => Function.update limiters op (limiters op).recordSuccess
    | .throttle op => Function.update limiters op (limiters op).recordThrottle
    | _ => limiters
  wakes limiters _ step :=
    match step with
    | .success op => (limiters op).grows
    | _ => false

/-- A call of `_run`: the operation, and what its attempts meet and return. -/
structure ClientCall where
  op : OperationType
  env : Surroundings
  answers : ℕ → Except HttpError Unit

/-- What the call does in its slot. -/
def ClientCall.steps (c : DriveClient) (call : ClientCall) : List ClientStep :=
  (c.exec call.op call.env call.answers).1

/-- Threads that are to make their calls through a client with a new controller. -/
def DriveClient.begin {T : Type} (c : DriveClient) (args : ControllerArgs)
    (calls : T → List ClientCall) : Scene (OperationType → Limiter) OperationType ClientStep T where
  shared := args.limiters
  callers t :=
    { calls := (calls t).map fun call => (call.op, call.steps { c with controller := true }) }

namespace Slots

/-! ## Limiters and the slots that are taken -/

/-- The limiters are sound for the number of calls in a slot of each type. -/
def Bounded (args : ControllerArgs) (limiters : OperationType → Limiter)
    (n : OperationType → ℕ) : Prop :=
  ∀ op, Controller.Sound (limiters op) (n op) ∧
    (limiters op).maxLimit = (args.limiters op).maxLimit

variable {args : ControllerArgs} {limiters : OperationType → Limiter} {n : OperationType → ℕ}
  {op : OperationType}

/-- One limiter has changed. -/
theorem Bounded.update (h : Bounded args limiters n) {a : SlotAction Unit} {l : Limiter} {i : ℕ}
    (hc : Controller.Change a (limiters op) (n op) l i) :
    Bounded args (Function.update limiters op l) (Function.update n op i) := by
  intro op'
  obtain ⟨hsound, hmax⟩ := h op'
  by_cases hop : op' = op
  · subst hop
    rw [Function.update_self, Function.update_self]
    exact ⟨hc.sound hsound, hc.fixed.1.trans hmax⟩
  · rw [Function.update_of_ne hop, Function.update_of_ne hop]
    exact ⟨hsound, hmax⟩

theorem Bounded.outcome (h : Bounded args limiters n) {a : SlotAction Unit} {l : Limiter}
    (hc : Controller.Change a (limiters op) (n op) l (n op)) :
    Bounded args (Function.update limiters op l) n := by
  have hnext : Bounded args (Function.update limiters op l) (Function.update n op (n op)) :=
    h.update hc
  rwa [Function.update_eq_self] at hnext

theorem hasRoom_of_acquire {l : Limiter} (h : l.acquire.hasRoom = true) : l.hasRoom = true := by
  have hlt : l.inFlight + 1 < l.limit := of_decide_eq_true h
  exact decide_eq_true (by omega)

/-- A throttle makes no room. -/
theorem hasRoom_of_recordThrottle {l : Limiter} {i : ℕ} (hl : Controller.Sound l i)
    (h : l.recordThrottle.hasRoom = true) : l.hasRoom = true := by
  have hlt : l.inFlight < max l.minLimit (l.limit / 2) := of_decide_eq_true h
  obtain ⟨hmin, hpos, -, -, -⟩ := hl
  exact decide_eq_true (by omega)

/-- A success that does not raise the limit makes no room. -/
theorem hasRoom_of_recordSuccess {l : Limiter} (hgrows : l.grows = false)
    (h : l.recordSuccess.hasRoom = true) : l.hasRoom = true := by
  have hnot : ¬(l.increaseAfter ≤ l.successes + 1 ∧ l.limit < l.maxLimit) :=
    of_decide_eq_false hgrows
  unfold Limiter.recordSuccess at h
  dsimp only at h
  rwa [if_neg hnot] at h

theorem free_of_update {l : Limiter} {op' : OperationType}
    (hroom : l.hasRoom = true → (limiters op).hasRoom = true)
    (h : (Function.update limiters op l op').hasRoom = true) : (limiters op').hasRoom = true := by
  by_cases hop : op' = op
  · subst hop
    rw [Function.update_self] at h
    exact hroom h
  · rwa [Function.update_of_ne hop] at h

/-- The controller keeps its limiters sound, and it notifies whenever it makes room. -/
theorem lawful (args : ControllerArgs) : slots.Lawful (Bounded args) where
  enter {x n k} h hfree := h.update (.granted (a := .enter () k) rfl (of_decide_eq_true hfree))
  leave {x n k i} h hi := by
    apply h.update (a := .exit () k)
    rw [hi]
    exact .released rfl
  act step h := by
    cases step with
    | success op => exact h.outcome (.success (a := .recordSuccess () op) rfl)
    | throttle op => exact h.outcome (.throttle (a := .recordThrottle () op) rfl)
    | _ => exact h
  enter_frees _ hfree := free_of_update hasRoom_of_acquire hfree
  act_frees {x n k k' step} h hwakes hfree := by
    cases step with
    | success op => exact free_of_update (hasRoom_of_recordSuccess hwakes) hfree
    | throttle op => exact free_of_update (hasRoom_of_recordThrottle (h op).1) hfree
    | _ => exact hfree
  vacant {x n k} h hzero := by
    obtain ⟨⟨-, hpos, -, hflight, -⟩, -⟩ := h k
    rw [hzero] at hflight
    exact decide_eq_true (by omega)

/-! ## The steps of the controller -/

/-- The type of the slot a thread is in. -/
def holds (c : Caller OperationType ClientStep) : Option OperationType :=
  match c.stage with
  | .inside op _ => some op
  | _ => none

/-- The type a thread waits for, asleep or woken. -/
def awaits (c : Caller OperationType ClientStep) : Option OperationType :=
  match c.stage with
  | .asleep op _ => some op
  | .woken op _ => some op
  | _ => none

@[simp] theorem holds_wake (c : Caller OperationType ClientStep) : holds c.wake = holds c := by
  obtain ⟨stage, calls⟩ := c
  cases stage <;> rfl

@[simp] theorem awaits_wake (c : Caller OperationType ClientStep) : awaits c.wake = awaits c := by
  obtain ⟨stage, calls⟩ := c
  cases stage <;> rfl

section Lists

variable {T : Type} [DecidableEq T] {f : T → Option OperationType} {t : T}
  {pairs : List (T × OperationType)}

/-- The pairs are those of a function, each once. -/
structure Lists (f : T → Option OperationType) (pairs : List (T × OperationType)) : Prop where
  nodup : pairs.Nodup
  mem : ∀ t op, (t, op) ∈ pairs ↔ f t = some op

theorem Lists.cons (h : Lists f pairs) (hf : f t = none) (op : OperationType) :
    Lists (Function.update f t (some op)) ((t, op) :: pairs) := by
  constructor
  · rw [List.nodup_cons, h.mem, hf]
    exact ⟨nofun, h.nodup⟩
  · intro t' op'
    rw [List.mem_cons, h.mem, Prod.mk.injEq]
    by_cases ht : t' = t
    · subst ht
      rw [Function.update_self, hf, Option.some.injEq]
      simp [eq_comm]
    · rw [Function.update_of_ne ht]
      simp [ht]

theorem Lists.erase (h : Lists f pairs) {op : OperationType} (hf : f t = some op) :
    Lists (Function.update f t none) (pairs.erase (t, op)) := by
  constructor
  · exact h.nodup.erase _
  · intro t' op'
    rw [h.nodup.mem_erase_iff, h.mem, ne_eq, Prod.mk.injEq]
    by_cases ht : t' = t
    · subst ht
      rw [Function.update_self, hf, Option.some.injEq]
      simp [eq_comm]
    · rw [Function.update_of_ne ht]
      simp [ht]

theorem Lists.same (h : Lists f pairs) {op? : Option OperationType} (hf : f t = op?) :
    Lists (Function.update f t op?) pairs := by
  rwa [← hf, Function.update_eq_self]

end Lists

section Shows

variable {T : Type} [DecidableEq T]
  {s s' : Scene (OperationType → Limiter) OperationType ClientStep T}
  {u : Controller T} {t : T} {actions : List (SlotAction T)}

/-- A state of the controller has the limiters of a scene, and the slots and the waiting threads of
its calls. -/
structure Shows (s : Scene (OperationType → Limiter) OperationType ClientStep T)
    (u : Controller T) : Prop where
  limiters : u.limiters = s.shared
  opened : Lists (holds ∘ s.callers) u.opened
  waiting : Lists (awaits ∘ s.callers) u.waiting

omit [DecidableEq T] in
theorem Shows.wakeAll (h : Shows s u) : Shows s.wakeAll u := by
  obtain ⟨hlimiters, hopened, hwaiting⟩ := h
  have hholds : holds ∘ s.wakeAll.callers = holds ∘ s.callers := by
    funext t
    simp
  have hawaits : awaits ∘ s.wakeAll.callers = awaits ∘ s.callers := by
    funext t
    simp
  exact ⟨hlimiters, by rwa [hholds], by rwa [hawaits]⟩

/-- A thread has changed, and the lists of the controller with it. -/
theorem Shows.put {c : Caller OperationType ClientStep} {limiters : OperationType → Limiter}
    (hlimiters : u.limiters = limiters)
    (hopened : Lists (Function.update (holds ∘ s.callers) t (holds c)) u.opened)
    (hwaiting : Lists (Function.update (awaits ∘ s.callers) t (awaits c)) u.waiting) :
    Shows (s.put t c limiters) u := by
  refine ⟨hlimiters, ?_, ?_⟩
  · rwa [← Function.comp_update] at hopened
  · rwa [← Function.comp_update] at hwaiting

/-- A thread that tests its key makes the controller's step of entering or of waking up. -/
theorem Shows.knock (h : Shows s u) {op : OperationType} {left : List ClientStep}
    {calls : List (OperationType × List ClientStep)}
    (hc : Monitor.Knocks (s.callers t) op left calls) :
    ∃ a u', u.step a = some u' ∧
      ((s.shared op).hasRoom = true →
        Shows (s.put t ⟨.inside op left, calls⟩ (slots.enter s.shared op)) u') ∧
      ((s.shared op).hasRoom = false → Shows (s.put t ⟨.asleep op left, calls⟩ s.shared) u') := by
  obtain ⟨hlimiters, hopened, hwaiting⟩ := h
  have hout : (holds ∘ s.callers) t = none := by
    rcases hc with hc | hc <;> simp [hc, holds]
  rw [← hlimiters]
  rcases hc with hc | hc
  · have hnone : (awaits ∘ s.callers) t = none := by simp [hc, awaits]
    refine ⟨.enter t op, _, rfl, ?_, ?_⟩
    · intro hroom
      rw [if_pos hroom]
      exact .put rfl (hopened.cons hout op) (hwaiting.same hnone)
    · intro hroom
      rw [if_neg (Bool.eq_false_iff.mp hroom)]
      exact .put rfl (hopened.same hout) (hwaiting.cons hnone op)
  · have hsome : (awaits ∘ s.callers) t = some op := by simp [hc, awaits]
    have hmem : (t, op) ∈ u.waiting := (hwaiting.mem t op).mpr hsome
    refine ⟨.wake t op, _, if_pos hmem, ?_, ?_⟩
    · intro hroom
      rw [if_pos hroom]
      exact .put rfl (hopened.cons hout op) (hwaiting.erase hsome)
    · intro hroom
      rw [if_neg (Bool.eq_false_iff.mp hroom)]
      exact .put rfl (hopened.same hout) (hwaiting.same hsome)

/-- A thread in a slot takes a step: it records an outcome, or the controller does nothing. -/
theorem Shows.act (h : Shows s u) (hr : Controller.Run args actions u) {op : OperationType}
    {step : ClientStep} {left : List ClientStep} {calls : List (OperationType × List ClientStep)}
    (hc : s.callers t = ⟨.inside op (step :: left), calls⟩) :
    ∃ actions' u', Controller.Run args actions' u' ∧
      Shows (s.put t ⟨.inside op left, calls⟩ (slots.act s.shared op step)) u' := by
  obtain ⟨hlimiters, hopened, hwaiting⟩ := h
  have hin : (holds ∘ s.callers) t = some op := by simp [hc, holds]
  have hnone : (awaits ∘ s.callers) t = none := by simp [hc, awaits]
  rw [← hlimiters]
  cases step with
  | success op' =>
    exact ⟨_, _, hr.next (a := .recordSuccess t op') rfl,
      .put rfl (hopened.same hin) (hwaiting.same hnone)⟩
  | throttle op' =>
    exact ⟨_, _, hr.next (a := .recordThrottle t op') rfl,
      .put rfl (hopened.same hin) (hwaiting.same hnone)⟩
  | _ => exact ⟨_, _, hr, .put rfl (hopened.same hin) (hwaiting.same hnone)⟩

/-- What a thread does at the condition variable is a step of the controller, or none. -/
theorem Shows.move (h : Shows s u) (hr : Controller.Run args actions u) (hm : slots.Move t s s') :
    ∃ actions' u', Controller.Run args actions' u' ∧ Shows s' u' := by
  cases hm with
  | enters hc hfree =>
    obtain ⟨a, u', hstep, hroom, -⟩ := h.knock hc
    exact ⟨_, u', hr.next hstep, hroom hfree⟩
  | sleeps hc hfree =>
    obtain ⟨a, u', hstep, -, hfull⟩ := h.knock hc
    exact ⟨_, u', hr.next hstep, hfull hfree⟩
  | @leaves k calls hc =>
    obtain ⟨hlimiters, hopened, hwaiting⟩ := h
    have hin : (holds ∘ s.callers) t = some k := by simp [hc, holds]
    have hnone : (awaits ∘ s.callers) t = none := by simp [hc, awaits]
    have hstep : u.step (.exit t k) =
        some { u.update k Limiter.release with opened := u.opened.erase (t, k) } :=
      if_pos ((hopened.mem t k).mpr hin)
    refine ⟨_, _, hr.next hstep, Shows.wakeAll (.put ?_ (hopened.erase hin) (hwaiting.same hnone))⟩
    rw [← hlimiters]
    rfl
  | acts hc _ => exact h.act hr hc
  | rouses hc _ =>
    obtain ⟨actions', u', hr', hshows⟩ := h.act hr hc
    exact ⟨actions', u', hr', hshows.wakeAll⟩

end Shows

section Runs

variable {T : Type} [DecidableEq T] {c : DriveClient} {calls : T → List ClientCall}
  {schedule : List T} {s : Scene (OperationType → Limiter) OperationType ClientStep T}

/-- The threads of a client do at the condition variable what a run of the controller does. -/
theorem exists_run (args : ControllerArgs)
    (h : slots.run schedule (c.begin args calls) = some s) :
    ∃ actions u, Controller.Run args actions u ∧ Shows s u := by
  apply Monitor.run_induction (P := fun s => ∃ actions u, Controller.Run args actions u ∧ Shows s u)
    _ h
  · exact ⟨[], _, .start, rfl, ⟨.nil, by simp [holds, DriveClient.begin]⟩,
      ⟨.nil, by simp [awaits, DriveClient.begin]⟩⟩
  · rintro t s s' ⟨actions, u, hr, hshows⟩ hstep
    exact hshows.move hr (Monitor.step_cases hstep)

variable [Fintype T]

omit [DecidableEq T] in
theorem settled_begin (args : ControllerArgs) (c : DriveClient) (calls : T → List ClientCall) :
    slots.Settled (Bounded args) (c.begin args calls) := by
  refine ⟨?_, fun h => nomatch h⟩
  intro op
  have hzero : (c.begin args calls).insiders op = 0 := Finset.sum_eq_zero fun t _ => rfl
  rw [hzero]
  exact ⟨Controller.sound_limiters args op, rfl⟩

theorem settled (args : ControllerArgs) (h : slots.run schedule (c.begin args calls) = some s) :
    slots.Settled (Bounded args) s :=
  (lawful args).settled_run h (settled_begin args c calls)

/-- No wake-up is lost. At every moment the calls in a slot of a type are counted by its limiter
and do not exceed its maximum, and a thread sleeps for a slot only while there is no room for it
and another call of the type is in a slot. -/
theorem no_wakeup_lost (args : ControllerArgs) (c : DriveClient) (calls : T → List ClientCall)
    (h : slots.run schedule (c.begin args calls) = some s) (op : OperationType) :
    ((s.shared op).inFlight = s.insiders op ∧
      (s.insiders op : ℤ) ≤ (args.limiters op).maxLimit) ∧
    ∀ t left, (s.callers t).stage = .asleep op left →
      (s.shared op).limit ≤ (s.shared op).inFlight ∧
        ∃ t' left', (s.callers t').stage = .inside op left' := by
  have hsettled : slots.Settled (Bounded args) s := settled args h
  obtain ⟨hsound, hmax⟩ := hsettled.keeps op
  refine ⟨⟨hsound.inFlight, hmax ▸ hsound.bounded⟩, ?_⟩
  intro t left hasleep
  constructor
  · exact not_lt.mp (of_decide_eq_false (hsettled.asleep hasleep))
  · exact (lawful args).exists_inside hsettled hasleep

/-- The calls come to an end. Whatever the calls meet and in whatever order the threads go on,
they take a bounded number of steps, some thread can go on until all calls have ended, and then
no slot is taken. -/
theorem calls_end (args : ControllerArgs) (c : DriveClient) (calls : T → List ClientCall)
    (h : slots.run schedule (c.begin args calls) = some s) :
    schedule.length ≤ (∑ t, ((calls t).map fun call =>
      (call.steps { c with controller := true }).length + 3).sum) * (Fintype.card T + 1) ∧
    ((∀ t, slots.step t s = none) → s.Done ∧ ∀ op, (s.shared op).inFlight = 0) ∧
    ∃ rest s', slots.run (schedule ++ rest) (c.begin args calls) = some s' ∧ s'.Done := by
  have hend : ∀ {schedule s}, slots.run schedule (c.begin args calls) = some s →
      (∀ t, slots.step t s = none) → s.Done :=
    fun hrun hstuck => (lawful args).done_of_stuck (settled args hrun) hstuck
  refine ⟨?_, ?_, ?_⟩
  · have hle : schedule.length + s.toGo ≤ (c.begin args calls).toGo := Monitor.length_le_toGo h
    have hwoken : (c.begin args calls).wokenUp = 0 := Finset.sum_eq_zero fun t _ => rfl
    have hwork : (c.begin args calls).work = ∑ t, ((calls t).map fun call =>
        (call.steps { c with controller := true }).length + 3).sum := by
      apply Finset.sum_congr rfl
      intro t _
      simp [Caller.work, DriveClient.begin, Function.comp_def]
    unfold Scene.toGo at hle
    rw [hwork, hwoken] at hle
    omega
  · intro hstuck
    have hdone : s.Done := hend h hstuck
    refine ⟨hdone, fun op => ?_⟩
    rw [((settled args h).keeps op).1.inFlight, Scene.insiders_of_done hdone op]
    rfl
  · obtain ⟨rest, s', hrest, hstuck⟩ := Monitor.exists_stuck slots s
    have hall : slots.run (schedule ++ rest) (c.begin args calls) = some s' := by
      rw [Monitor.run_append h, hrest]
    exact ⟨rest, s', hall, hend hall hstuck⟩

end Runs

/-! ## Two calls and one slot -/

def copyCall : ClientCall := ⟨.copy, calm, fun _ => .ok ()⟩

def oneWorker : DriveClient := ⟨true, false, {}⟩

/-- The first of two threads is in the slot, and the second sleeps. -/
def crowded : Scene (OperationType → Limiter) OperationType ClientStep Bool :=
  let args : ControllerArgs := { copyWorkers := 1 }
  let taken := slots.enter args.limiters .copy
  ((oneWorker.begin args fun _ => [copyCall]).put false
    ⟨.inside .copy (copyCall.steps oneWorker), []⟩ taken).put true
      ⟨.asleep .copy (copyCall.steps oneWorker), []⟩ taken

theorem crowded_run : slots.run [false, true]
    (oneWorker.begin { copyWorkers := 1 } fun _ => [copyCall]) = some crowded := rfl

theorem no_wakeup_lost_crowded : (crowded.shared .copy).limit ≤ (crowded.shared .copy).inFlight ∧
    ∃ t left, (crowded.callers t).stage = .inside .copy left :=
  (no_wakeup_lost { copyWorkers := 1 } oneWorker (fun _ => [copyCall]) crowded_run .copy).2
    true _ rfl

theorem calls_end_crowded : ∃ rest s,
    slots.run ([false, true] ++ rest)
      (oneWorker.begin { copyWorkers := 1 } fun _ => [copyCall]) = some s ∧ s.Done :=
  (calls_end { copyWorkers := 1 } oneWorker (fun _ => [copyCall]) crowded_run).2.2

theorem exists_run_crowded : ∃ actions u,
    Controller.Run { copyWorkers := 1 } actions u ∧ Shows crowded u :=
  exists_run { copyWorkers := 1 } crowded_run

end Slots
end TurboCopy
