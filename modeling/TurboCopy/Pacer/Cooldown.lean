import TurboCopy.Pacer.Model
import TurboCopy.Threads.Protocol
import TurboCopy.Threads.Schedule

/-!
# The cooldown of the pacer

The cooldown is waited out in one critical section and the tokens are taken in another. A
worker that is not waiting holds a token of the protocol that remembers its last check: what
was opened before the check is over when the tokens are granted. So a grant respects all
deadlines exactly when it respects those opened since its worker's last check.
-/

namespace TurboCopy

open Threads

namespace Pacer

/-! ## The history -/

/-- The cooldown deadline a step opens. -/
def deadlineOf : Event pacerSig → Option ℚ
  | .did (.throttle (some r)) x => if 0 < r then some (x.time + r) else none
  | _ => none

def deadlines (past : List (Event pacerSig)) : List ℚ := past.filterMap deadlineOf

/-- A check of the cooldown made for a worker. -/
def isCheck (worker : ℕ) : Event pacerSig → Bool
  | .did (.cooldown w) _ => w = worker
  | _ => false

/-- The steps since a worker last checked the cooldown. -/
def sinceCheck (worker : ℕ) (past : List (Event pacerSig)) : List (Event pacerSig) :=
  past.takeWhile fun e => !isCheck worker e

/-- The steps up to a worker's last check of the cooldown. -/
def untilCheck (worker : ℕ) (past : List (Event pacerSig)) : List (Event pacerSig) :=
  past.dropWhile fun e => !isCheck worker e

/-- The worker whose `acquire` a step grants, and when: the tokens are taken, or the rate is
found to be no rate at all. -/
def grant : Event pacerSig → Option (ℕ × ℚ)
  | .did (.take worker _) x => if x.value.isNone then some (worker, x.time) else none
  | .did (.readRate worker) x => if x.value ≤ 0 then some (worker, x.time) else none
  | _ => none

section History

variable {worker : ℕ} {e : Event pacerSig} {past : List (Event pacerSig)}

theorem deadlines_cons_none (h : deadlineOf e = none) : deadlines (e :: past) = deadlines past :=
  List.filterMap_cons_none h

theorem mem_deadlines_cons {d : ℚ} :
    d ∈ deadlines (e :: past) ↔ deadlineOf e = some d ∨ d ∈ deadlines past := by
  simp [deadlines, List.mem_filterMap]

theorem untilCheck_cons (h : isCheck worker e = false) :
    untilCheck worker (e :: past) = untilCheck worker past := by
  rw [untilCheck, List.dropWhile_cons_of_pos (by simp [h]), untilCheck]

theorem untilCheck_check (h : isCheck worker e = true) :
    untilCheck worker (e :: past) = e :: past := by
  rw [untilCheck, List.dropWhile_cons_of_neg (by simp [h])]

theorem mem_deadlines_iff {d : ℚ} : d ∈ deadlines past ↔
    d ∈ deadlines (sinceCheck worker past) ∨ d ∈ deadlines (untilCheck worker past) := by
  rw [← List.mem_append, deadlines, deadlines, deadlines, ← List.filterMap_append, sinceCheck,
    untilCheck, List.takeWhile_append_dropWhile]

end History

/-! ## The protocol -/

/-- A worker that is to check the cooldown, and one whose last check, if it has made one, let it
pass. -/
inductive Permit
  | ready (worker : ℕ)
  | cleared (worker : ℕ)
deriving DecidableEq

def Permit.worker : Permit → ℕ
  | ready w => w
  | cleared w => w

/-- Steps that need no permit. -/
def free : PacerOp → Bool
  | .readRate _ => false
  | .cooldown _ => false
  | .take _ _ => false
  | _ => true

inductive PermitRule :
    (o : PacerOp) → Timed o.Ret → Multiset Permit → Multiset Permit → Prop
  | free (o) (x) (h : free o = true) : PermitRule o x 0 0
  | read (w) (x : Timed ℚ) : PermitRule (.readRate w) x {.cleared w} {.cleared w}
  | wait (w) (x : Timed ℚ) (h : 0 < x.value) :
      PermitRule (.cooldown w) x {.ready w} {.ready w}
  | pass (w) (x : Timed ℚ) (h : x.value ≤ 0) :
      PermitRule (.cooldown w) x {.ready w} {.cleared w}
  | granted (w tokens) (x : Timed (Option ℚ)) :
      PermitRule (.take w tokens) x {.cleared w} {.cleared w}

/-- A worker goes to check the cooldown, or has made its last call. -/
inductive PermitShift : Multiset Permit → Multiset Permit → Prop
  | enter (w) : PermitShift {.cleared w} {.ready w}
  | leave (w) : PermitShift {.cleared w} 0

def permits : Protocol pacerSig Permit where
  rule := PermitRule
  solo _ _ _ _ := False
  call := nofun
  result _ _ _ := True
  shift := PermitShift

variable {worker : ℕ}

theorem spec_step {o : PacerOp} {τ : Multiset Permit} {Q : o.Ret → Multiset Permit → Prop}
    (h : ∀ x : Timed o.Ret, ∃ τ', PermitRule o x τ τ' ∧ Q x.value τ') :
    permits.Spec τ (step o) Q := by
  apply Protocol.Spec.act
  intro x
  obtain ⟨τ', hr, hQ⟩ := h x
  exact ⟨τ', hr, Protocol.Spec.pure hQ⟩

theorem spec_free {o : PacerOp} {τ : Multiset Permit} (h : free o = true) :
    permits.Spec τ (step o) fun _ g => g = τ := by
  have h₀ : permits.Spec (τ + 0) (step o) fun _ g => ∃ τ', g = τ + τ' ∧ τ' = 0 :=
    Protocol.Spec.frame τ (spec_step fun x => ⟨0, .free o x h, rfl⟩)
  rw [add_zero] at h₀
  apply h₀.mono
  rintro a _ ⟨_, rfl, rfl⟩
  exact add_zero τ

/-- A loop of sleeps ends with what its last round leaves. -/
theorem spec_waiting {τ τ' : Multiset Permit} {attempt : Prog pacerSig (Option ℚ)}
    (h : permits.Spec τ attempt fun r g => match r with
      | none => g = τ'
      | some _ => g = τ) :
    permits.Spec τ (waiting attempt) fun _ g => g = τ' := by
  apply Protocol.Spec.loop (fun _ g => g = τ) (fun _ g => g = τ') rfl
  · intro slept g hg
    rw [hg]
    apply Protocol.Spec.bind h
    rintro (_ | wait) g' hg'
    · exact Protocol.Spec.pure hg'
    · have hnap : permits.Spec g' (nap wait) fun _ g => g = τ := by
        rw [hg']
        apply Protocol.Spec.bind (spec_free rfl)
        rintro deadline _ rfl
        exact spec_free rfl
      apply Protocol.Spec.bind hnap
      exact fun u g'' hg'' => Protocol.Spec.pure hg''
  · exact fun slept g hg => Protocol.Spec.pure hg

theorem spec_readRate : permits.Spec {.cleared worker} (step (.readRate worker))
    fun _ g => g = {.cleared worker} :=
  spec_step fun x => ⟨_, .read worker x, rfl⟩

theorem spec_acquire (tokens : ℚ) :
    permits.Spec {.cleared worker} (acquire worker tokens) fun _ g => g = {.cleared worker} := by
  have hcool : permits.Spec {.ready worker} (awaitCooldown worker)
      fun _ g => g = {.cleared worker} := by
    apply spec_waiting
    apply Protocol.Spec.bind (R := fun wait g => g =
      if wait ≤ 0 then {.cleared worker} else {.ready worker})
    · apply spec_step
      intro x
      by_cases hx : x.value ≤ 0
      · exact ⟨_, .pass worker x hx, (if_pos hx).symm⟩
      · exact ⟨_, .wait worker x (not_le.mp hx), (if_neg hx).symm⟩
    · rintro wait _ rfl
      apply Protocol.Spec.pure
      split_ifs <;> rfl
  have htokens : permits.Spec {.cleared worker} (awaitTokens worker tokens)
      fun _ g => g = {.cleared worker} := by
    apply Protocol.Spec.bind spec_readRate
    rintro rate _ rfl
    split_ifs
    · exact Protocol.Spec.pure rfl
    · apply spec_waiting
      apply spec_step
      intro x
      refine ⟨_, .granted worker tokens x, ?_⟩
      cases x.value <;> rfl
  apply Protocol.Spec.bind spec_readRate
  rintro rate _ rfl
  split_ifs
  · exact Protocol.Spec.pure rfl
  · apply Protocol.Spec.shift (PermitShift.enter worker)
    apply Protocol.Spec.bind hcool
    rintro slept _ rfl
    apply Protocol.Spec.bind htokens
    rintro more _ rfl
    exact Protocol.Spec.pure rfl

theorem spec_work (calls : List Call) :
    permits.Spec {.cleared worker} (work worker calls) fun _ g => g = 0 := by
  induction calls with
  | nil =>
    apply Protocol.Spec.shift (PermitShift.leave worker)
    exact Protocol.Spec.pure rfl
  | cons call calls ih =>
    have hcall : permits.Spec {.cleared worker} (call.run worker)
        fun _ g => g = {.cleared worker} := by
      cases call with
      | acquire tokens =>
        apply Protocol.Spec.bind (spec_acquire tokens)
        rintro slept _ rfl
        exact Protocol.Spec.pure rfl
      | throttle retryAfter => exact spec_free rfl
      | success => exact spec_free rfl
    apply Protocol.Spec.bind hcall
    rintro u _ rfl
    exact ih

/-- The permits of the workers numbered from `worker` on. -/
def badges (worker : ℕ) (calls : List (List Call)) : Multiset Permit :=
  (List.range' worker calls.length).map Permit.cleared

theorem spec_crew (calls : List (List Call)) :
    ∀ worker, permits.Spec (badges worker calls) (crew worker calls) fun _ g => g = 0 := by
  induction calls with
  | nil => exact fun worker => Protocol.Spec.pure rfl
  | cons first rest ih =>
    intro worker
    have hb : badges worker (first :: rest) = badges (worker + 1) rest + {.cleared worker} := by
      rw [badges, List.length_cons, List.range'_succ, List.map_cons, ← Multiset.cons_coe,
        ← Multiset.singleton_add, add_comm, badges]
    rw [hb]
    exact Protocol.Spec.fork (spec_work first) (ih (worker + 1))

/-! ## The invariant -/

variable {pp : PacerParams}

theorem floor_pos (pp : PacerParams) : 0 < pp.floor :=
  lt_of_lt_of_le (by norm_num) (le_max_left (1 / 10) pp.minRate)

/-- A deadline that is opened becomes part of the cooldown, and no step shortens it. -/
theorem le_cooldownUntil_exec {p : Pacer} {now d : ℚ} {o : PacerOp} {x : Timed o.Ret}
    (hx : x.time = now) (h : deadlineOf (.did o x) = some d ∨ d ≤ p.cooldownUntil) :
    d ≤ (pp.exec p now o).2.cooldownUntil := by
  have hmono : p.cooldownUntil ≤ (pp.exec p now o).2.cooldownUntil := by
    cases o with
    | throttle r =>
      cases r with
      | none => exact le_rfl
      | some r =>
        simp only [PacerParams.exec, PacerParams.recordThrottle]
        split_ifs
        · exact le_max_left _ _
        · exact le_rfl
    | success =>
      simp only [PacerParams.exec, PacerParams.recordSuccess]
      split_ifs <;> exact le_rfl
    | take w tokens =>
      simp only [PacerParams.exec, Pacer.take, Pacer.refill]
      split_ifs <;> exact le_rfl
    | _ => exact le_rfl
  rcases h with h | h
  · cases o with
    | throttle r =>
      cases r with
      | none => exact nomatch h
      | some r =>
        simp only [deadlineOf, Option.ite_none_right_eq_some, Option.some.injEq] at h
        obtain ⟨hr, rfl⟩ := h
        simp only [PacerParams.exec, PacerParams.recordThrottle, if_pos hr, hx]
        exact le_max_right _ _
    | _ => exact nomatch h
  · exact h.trans hmono

/-- A grant respects every deadline exactly when it respects those opened since its worker
last checked the cooldown. -/
def Decided (past : List (Event pacerSig)) (worker : ℕ) (t : ℚ) : Prop :=
  (∀ d ∈ deadlines past, d ≤ t) ↔ ∀ d ∈ deadlines (sinceCheck worker past), d ≤ t

theorem decided_of_until {past : List (Event pacerSig)} {t : ℚ}
    (h : ∀ d ∈ deadlines (untilCheck worker past), d ≤ t) : Decided past worker t := by
  constructor
  · intro hall d hd
    exact hall d (mem_deadlines_iff.mpr (.inl hd))
  · intro hsince d hd
    rcases mem_deadlines_iff.mp hd with hd | hd
    · exact hsince d hd
    · exact h d hd

structure Cooled (L : Protocol.Ledger Permit pp.system) : Prop where
  workers : (L.tokens.map Permit.worker).Nodup
  cooldown : ∀ d ∈ deadlines L.world.trace, d ≤ L.world.state.pacer.cooldownUntil
  cleared : ∀ w, .cleared w ∈ L.tokens →
    ∀ d ∈ deadlines (untilCheck w L.world.trace), d ≤ L.world.state.now
  grants : ∀ e past w t, e :: past <:+ L.world.trace → grant e = some (w, t) → Decided past w t

section Moves

variable {w : World pp.system} {G τ τ' : Multiset Permit} {o : PacerOp} {x : Timed o.Ret}
  {s : Paced}

/-- What no permit decides: a step keeps the pacer's part of the invariant. -/
theorem Cooled.act (h : Cooled ⟨w, G + τ⟩) (hp : pp.system.perform o w.state x s)
    (hworkers : τ'.map Permit.worker ≤ τ.map Permit.worker)
    (hcleared : ∀ v, .cleared v ∈ G + τ' →
      ∀ d ∈ deadlines (untilCheck v (.did o x :: w.trace)), d ≤ s.now)
    (hgrant : ∀ v t, grant (.did o x) = some (v, t) → Decided w.trace v t) :
    Cooled (⟨w.log s (.did o x), G + τ'⟩ : Protocol.Ledger Permit pp.system) where
  workers := by
    apply Multiset.nodup_of_le _ h.workers
    rw [Multiset.map_add, Multiset.map_add]
    exact add_le_add_right hworkers _
  cooldown := by
    intro d hd
    have hpacer : s.pacer = (pp.exec w.state.pacer w.state.now o).2 := (Prod.ext_iff.mp hp.2.1).2
    change d ≤ s.pacer.cooldownUntil
    rw [hpacer]
    exact le_cooldownUntil_exec hp.1 ((mem_deadlines_cons.mp hd).imp_right (h.cooldown d))
  cleared := hcleared
  grants := by
    intro e past v t hs hg
    rcases List.suffix_cons_iff.mp hs with heq | hs
    · cases heq
      exact hgrant v t hg
    · exact h.grants e past v t hs hg

/-- A worker holds one permit. -/
theorem Cooled.other {t : Permit} (h : Cooled (⟨w, G + {t}⟩ : Protocol.Ledger Permit pp.system)) {v : ℕ}
    (hv : .cleared v ∈ G) : t.worker ≠ v := by
  intro heq
  have hnodup := h.workers
  rw [Multiset.map_add, Multiset.map_singleton, Multiset.nodup_add] at hnodup
  have hmem : v ∈ G.map Permit.worker := Multiset.mem_map_of_mem Permit.worker hv
  exact Multiset.disjoint_left.mp hnodup.2.2 hmem (by simp [heq])

/-- The permits that stay keep what they know while another worker checks the cooldown. -/
theorem Cooled.stays {t : Permit} {u : ℕ} {x : Timed ℚ} (h : Cooled (⟨w, G + {t}⟩ : Protocol.Ledger Permit pp.system))
    (hp : pp.system.perform (.cooldown u) w.state x s) (hu : t.worker = u) {v : ℕ}
    (hv : .cleared v ∈ G) :
    ∀ d ∈ deadlines (untilCheck v (.did (.cooldown u) x :: w.trace)), d ≤ s.now := by
  have hne : u ≠ v := hu ▸ h.other hv
  rw [untilCheck_cons (by simpa [isCheck] using hne), hp.2.2.1]
  exact h.cleared v (Multiset.mem_add.mpr (.inl hv))

end Moves

theorem Cooled.kept : Protocol.Kept permits (Cooled : Protocol.Ledger Permit pp.system → Prop) := by
  rintro ⟨w, G⟩ L h hmove
  cases hmove with
  | @act _ G τ τ' o x s hr hp =>
    have hnow : s.now = w.state.now := hp.2.2.1
    cases hr with
    | free _ _ hf =>
      refine h.act hp le_rfl ?_ ?_
      · intro v hv d hd
        have hcheck : isCheck v (.did o x) = false := by
          cases o with
          | cooldown _ => exact nomatch hf
          | _ => rfl
        rw [untilCheck_cons hcheck] at hd
        exact (h.cleared v hv d hd).trans hnow.ge
      · intro v t hg
        cases o with
        | readRate _ => exact nomatch hf
        | take _ _ => exact nomatch hf
        | _ => exact nomatch hg
    | read u x =>
      have hcleared (v : ℕ) (hv : .cleared v ∈ G + {.cleared u}) :
          ∀ d ∈ deadlines (untilCheck v w.trace), d ≤ s.now := by
        rw [hnow]
        exact h.cleared v hv
      refine h.act hp le_rfl ?_ ?_
      · intro v hv
        rw [untilCheck_cons rfl]
        exact hcleared v hv
      · intro v t hg
        simp only [grant, Option.ite_none_right_eq_some, Option.some.injEq, Prod.mk.injEq] at hg
        obtain ⟨-, rfl, rfl⟩ := hg
        apply decided_of_until
        rw [hp.1, ← hnow]
        exact hcleared u (by simp)
    | wait u _ hx =>
      refine h.act hp le_rfl ?_ (fun v t hg => nomatch hg)
      intro v hv
      have hG : .cleared v ∈ G := by simpa using hv
      exact h.stays hp rfl hG
    | pass u x hx =>
      refine h.act hp le_rfl ?_ (fun v t hg => nomatch hg)
      intro v hv d hd
      by_cases hvu : u = v
      · subst hvu
        rw [untilCheck_check (by simp [isCheck]), deadlines_cons_none rfl] at hd
        have hle : d ≤ w.state.pacer.cooldownUntil := h.cooldown d hd
        have hwait : x.value = w.state.pacer.cooldownUntil - w.state.now :=
          (Prod.ext_iff.mp hp.2.1).1
        linarith
      · have hG : .cleared v ∈ G := by
          rcases Multiset.mem_add.mp hv with hG | hv
          · exact hG
          · exact absurd (Permit.cleared.inj (Multiset.mem_singleton.mp hv)).symm hvu
        exact h.stays hp rfl hG d hd
    | granted u tokens x =>
      have hcleared (v : ℕ) (hv : .cleared v ∈ G + {.cleared u}) :
          ∀ d ∈ deadlines (untilCheck v w.trace), d ≤ s.now := by
        rw [hnow]
        exact h.cleared v hv
      refine h.act hp le_rfl ?_ ?_
      · intro v hv
        rw [untilCheck_cons rfl]
        exact hcleared v hv
      · intro v t hg
        simp only [grant, Option.ite_none_right_eq_some, Option.some.injEq, Prod.mk.injEq] at hg
        obtain ⟨-, rfl, rfl⟩ := hg
        apply decided_of_until
        rw [hp.1, ← hnow]
        exact hcleared u (by simp)
  | solo hr _ => exact hr.elim
  | @call _ _ _ _ a hc => exact a.elim
  | @shift w G τ τ' hr =>
    have hsub : ∀ v, .cleared v ∈ G + τ' → .cleared v ∈ G + τ := by
      intro v hv
      cases hr <;> simp_all
    have hworkers : τ'.map Permit.worker ≤ τ.map Permit.worker := by
      cases hr with
      | enter u => exact le_rfl
      | leave u => exact Multiset.zero_le _
    refine ⟨?_, h.cooldown, fun v hv => h.cleared v (hsub v hv), h.grants⟩
    apply Multiset.nodup_of_le _ h.workers
    rw [Multiset.map_add, Multiset.map_add]
    exact add_le_add_right hworkers _
  | @env w G s he =>
    obtain ⟨hpacer, hnow⟩ := he
    refine ⟨h.workers, ?_, fun v hv d hd => (h.cleared v hv d hd).trans hnow, h.grants⟩
    change ∀ d ∈ deadlines w.trace, d ≤ s.pacer.cooldownUntil
    rw [hpacer]
    exact h.cooldown

/-- The runs of a crew of workers. -/
abbrev crewStart (pp : PacerParams) (now : ℚ) (calls : List (List Call)) : Config pp.system Unit :=
  start pp.system (crew 0 calls) ⟨pp.init now, now⟩ []

theorem workers_badges (calls : List (List Call)) :
    ((badges 0 calls).map Permit.worker).Nodup := by
  rw [badges, Multiset.map_coe, List.map_map]
  simpa [Function.comp_def, Permit.worker] using List.nodup_range'

end Pacer

open Pacer in
/-- In every interleaving, a grant comes at or after every cooldown deadline opened so far
if and only if it does so for those opened since the worker last checked the cooldown. -/
theorem granted_after_cooldown_iff {pp : PacerParams} {now : ℚ} {calls : List (List Call)}
    {c : Config pp.system Unit} (h : Reach pp.system (crewStart pp now calls) c)
    {e : Event pacerSig} {past : List (Event pacerSig)} (hs : e :: past <:+ c.world.trace)
    {worker : ℕ} {t : ℚ} (hg : grant e = some (worker, t)) :
    (∀ d ∈ deadlines past, d ≤ t) ↔ ∀ d ∈ deadlines (sinceCheck worker past), d ≤ t := by
  have hstart : Cooled (⟨⟨⟨pp.init now, now⟩, []⟩, badges 0 calls⟩ :
      Protocol.Ledger Permit pp.system) := by
    refine ⟨workers_badges calls, by simp [deadlines], ?_, ?_⟩
    · intro w _
      simp [deadlines, untilCheck]
    · intro e past w t hs hg
      simp at hs
  have hobeys := spec_crew calls 0 0 true
  rw [zero_add] at hobeys
  have hbody : permits.Verified pp.system.body := nofun
  obtain ⟨⟨G, hG⟩, -⟩ := Protocol.sound hbody Cooled.kept hstart hobeys h
  exact hG.grants e past worker t hs hg

namespace Pacer

/-- Workers under a clock that stands still but for a jump after a number of steps. -/
def clockwork (pp : PacerParams) (jumpAfter : ℕ) (jump : ℚ) : Script pp.system where
  outcome _ o s :=
    let r := pp.exec s.pacer s.now o
    (⟨s.now, r.1⟩, ⟨r.2, s.now⟩)
  check o s _ _ := match o with
    | .wake deadline => deadline ≤ s.now
    | _ => true
  poke n s := if n = jumpAfter then some ⟨s.pacer, max s.now jump⟩ else none

theorem clockwork_legal (pp : PacerParams) (jumpAfter : ℕ) (jump : ℚ) :
    (clockwork pp jumpAfter jump).Legal where
  outcome n o s h := by
    refine ⟨rfl, rfl, rfl, ?_⟩
    rintro deadline rfl
    simpa [clockwork] using h
  poke n s s' h := by
    simp only [clockwork] at h
    split_ifs at h
    cases h
    exact ⟨rfl, le_max_left _ _⟩

/-- The last step is a grant in front of a history that satisfies `P`. -/
def lastGrant (P : List (Event pacerSig) → ℕ → ℚ → Bool) : List (Event pacerSig) → Bool
  | e :: past => (grant e).any fun g => P past g.1 g.2
  | [] => false

theorem exists_of_lastGrant {P : List (Event pacerSig) → ℕ → ℚ → Bool}
    {trace : List (Event pacerSig)} (h : lastGrant P trace = true) :
    ∃ e past worker t, e :: past <:+ trace ∧ grant e = some (worker, t) ∧
      P past worker t = true := by
  cases trace with
  | nil => simp [lastGrant] at h
  | cons e past =>
    cases hg : grant e with
    | none => simp [lastGrant, hg] at h
    | some g =>
      refine ⟨e, past, g.1, g.2, List.suffix_refl _, hg, ?_⟩
      simpa [lastGrant, hg] using h

/-- One worker calls `acquire`, the other reports a throttle of 30 seconds. -/
def pair : List (List Call) := [[.acquire 1], [.throttle (some 30)]]

def tenPerSecond : PacerParams where
  maxRate := 10

/-- The throttle comes between the check of the first worker and its grant. -/
def overtaken : Config tenPerSecond.system Unit :=
  (clockwork tenPerSecond 0 0).run
    [.main, .main, .task 0, .task 0, .task 0, .task 1, .task 0, .task 0, .task 0]
    (crewStart tenPerSecond 0 pair)

/-- The throttle comes first and the first worker sleeps until the cooldown is over. -/
def waitedOut : Config tenPerSecond.system Unit :=
  (clockwork tenPerSecond 4 30).run
    [.main, .main, .task 1, .task 0, .task 0, .task 0, .task 0, .task 0, .task 0, .task 0,
      .task 0, .task 0, .task 0]
    (crewStart tenPerSecond 0 pair)

end Pacer

open Pacer in
/-- Thirty seconds of cooldown are waited out. -/
theorem granted_after_cooldown_iff_waited : ∃ e past worker t,
    e :: past <:+ waitedOut.world.trace ∧ grant e = some (worker, t) ∧ 30 ∈ deadlines past ∧
      ∀ d ∈ deadlines past, d ≤ t := by
  have hlast : lastGrant (fun past worker _ => decide (30 ∈ deadlines past) &&
      (deadlines (sinceCheck worker past)).isEmpty) waitedOut.world.trace = true := by
    decide +kernel
  obtain ⟨e, past, worker, t, hs, hg, hP⟩ := exists_of_lastGrant hlast
  simp only [Bool.and_eq_true, decide_eq_true_eq, List.isEmpty_iff] at hP
  refine ⟨e, past, worker, t, hs, hg, hP.1, ?_⟩
  have hreach : Reach tenPerSecond.system (crewStart tenPerSecond 0 pair) waitedOut :=
    (clockwork_legal _ _ _).reach_run _ _
  apply (granted_after_cooldown_iff hreach hs hg).mpr
  rw [hP.2]
  exact fun d hd => nomatch hd

open Pacer in
/-- An `acquire` is granted at once although a cooldown of thirty seconds is open. -/
theorem granted_during_cooldown : ∃ c : Config tenPerSecond.system Unit,
    Reach tenPerSecond.system (crewStart tenPerSecond 0 pair) c ∧ ∃ e past worker t,
      e :: past <:+ c.world.trace ∧ grant e = some (worker, t) ∧ ∃ d ∈ deadlines past, t < d := by
  have hlast : lastGrant (fun past _ t => (deadlines past).any fun d => t < d)
      overtaken.world.trace = true := by decide +kernel
  obtain ⟨e, past, worker, t, hs, hg, hP⟩ := exists_of_lastGrant hlast
  obtain ⟨d, hd, hlt⟩ := List.any_eq_true.mp hP
  exact ⟨overtaken, (clockwork_legal _ _ _).reach_run _ _, e, past, worker, t, hs, hg, d, hd,
    by simpa using hlt⟩

end TurboCopy
