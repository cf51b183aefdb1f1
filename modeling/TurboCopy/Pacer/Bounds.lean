import TurboCopy.Pacer.Cooldown
import TurboCopy.Threads.Guarantee

/-!
# The ceiling and the floor of the pacer

The rate stays between the floor and the ceiling when the floor is not above the ceiling.
`make_pacer` sets the floor to one operation per second whatever the ceiling is, so below
that ceiling a throttle raises the rate. With the bounds in the right order the grants of
any window are paid for: the tokens left and the grants made since a moment together never
exceed the capacity and what the ceiling has brought in since.
-/

namespace TurboCopy

open Threads

/-- The default of `min_tps`. -/
def defaultMinTps : ℚ := 1

/-- `make_pacer`; there is nothing to pace without a ceiling. -/
def makePacer (maxTps minTps : ℚ) : Option PacerParams :=
  if 0 < maxTps then some { maxRate := maxTps, minRate := minTps } else none

theorem makePacer_eq_some {maxTps minTps : ℚ} {pp : PacerParams}
    (h : makePacer maxTps minTps = some pp) :
    0 < maxTps ∧ pp.maxRate = maxTps ∧ pp.floor = max (1 / 10) minTps ∧ pp.backoff = 1 / 2 ∧
      pp.recoverStep = 1 := by
  unfold makePacer at h
  split_ifs at h with hpos
  cases h
  exact ⟨hpos, rfl, rfl, rfl, rfl⟩

namespace Pacer

/-! ## One step -/

/-- A pacer whose rate lies between two bounds, with a burst that fits its rate. -/
structure Within (low high : ℚ) (p : Pacer) : Prop where
  low_le : low ≤ p.rate
  le_high : p.rate ≤ high
  capacity_eq : p.capacity = max 1 p.rate
  tokens_nonneg : 0 ≤ p.tokens
  tokens_le : p.tokens ≤ p.capacity

/-- A step that takes an amount satisfying `P`, if it takes one. -/
def Takes (P : ℚ → Prop) : PacerOp → Prop
  | .take _ tokens => P tokens
  | _ => True

section Step

variable {pp : PacerParams} {low high : ℚ} {p : Pacer}

theorem Within.one_le_capacity (h : Within low high p) : 1 ≤ p.capacity := by
  rw [h.capacity_eq]
  exact le_max_left _ _

theorem Within.refill (h : Within low high p) (hlow : 0 < low) (now : ℚ) :
    Within low high (p.refill now) := by
  unfold Pacer.refill
  dsimp only
  split_ifs with he
  · refine ⟨h.low_le, h.le_high, h.capacity_eq, le_min ?_ ?_, min_le_left _ _⟩
    · exact zero_le_one.trans h.one_le_capacity
    · have hrate : 0 ≤ p.rate := hlow.le.trans h.low_le
      have hgain : 0 ≤ (now - p.last) * p.rate := mul_nonneg he.le hrate
      exact add_nonneg h.tokens_nonneg hgain
  · exact h

theorem Within.take (h : Within low high p) (hlow : 0 < low) (now : ℚ) {tokens : ℚ}
    (ht : 0 ≤ tokens) : Within low high (p.take now tokens).2 := by
  have hr : Within low high (p.refill now) := h.refill hlow now
  unfold Pacer.take
  dsimp only
  split_ifs
  · refine ⟨hr.low_le, hr.le_high, hr.capacity_eq, le_max_left _ _, max_le ?_ ?_⟩
    · exact zero_le_one.trans hr.one_le_capacity
    · have hle : (p.refill now).tokens ≤ (p.refill now).capacity := hr.tokens_le
      change (p.refill now).tokens - tokens ≤ (p.refill now).capacity
      linarith
  · exact hr

theorem Within.throttle (h : Within low high p) (hlow : 0 < low) (hback : pp.backoff ≤ 1)
    (hfloor : low ≤ pp.floor) (hceil : pp.floor ≤ high) (now : ℚ) (retryAfter : Option ℚ) :
    Within low high (pp.recordThrottle p now retryAfter) := by
  have hrate : 0 ≤ p.rate := hlow.le.trans h.low_le
  have hless : p.rate * pp.backoff ≤ high :=
    (mul_le_of_le_one_right hrate hback).trans h.le_high
  unfold PacerParams.recordThrottle
  refine ⟨le_max_of_le_left hfloor, max_le hceil hless, rfl, ?_, ?_⟩
  · dsimp only
    split_ifs
    · exact zero_le_one.trans (le_max_left _ _)
    · exact h.tokens_nonneg
  · dsimp only
    split_ifs with hc
    · exact le_rfl
    · exact not_lt.mp hc

theorem Within.success (h : Within low high p) (hrecover : 0 ≤ pp.recoverStep)
    (hhigh : pp.maxRate ≤ high) : Within low high (pp.recordSuccess p) := by
  unfold PacerParams.recordSuccess
  split_ifs with hmax
  · exact ⟨h.low_le, h.le_high, h.capacity_eq, h.tokens_nonneg, h.tokens_le⟩
  · have hstep : p.rate ≤ p.rate + pp.recoverStep := by linarith
    have hrise : p.rate ≤ min pp.maxRate (p.rate + pp.recoverStep) :=
      le_min (not_le.mp hmax).le hstep
    refine ⟨h.low_le.trans hrise, (min_le_left _ _).trans hhigh, rfl, h.tokens_nonneg, ?_⟩
    calc p.tokens ≤ max 1 p.rate := h.capacity_eq ▸ h.tokens_le
      _ ≤ max 1 (min pp.maxRate (p.rate + pp.recoverStep)) := max_le_max le_rfl hrise
  · exact ⟨h.low_le, h.le_high, h.capacity_eq, h.tokens_nonneg, h.tokens_le⟩

/-- What keeps the rate within bounds: a success does not lower it, both ends enclose the
ceiling, and the floor where a throttle uses it. -/
theorem Within.exec (h : Within low high p) (hrecover : 0 ≤ pp.recoverStep) (hlow : 0 < low)
    (hhigh : pp.maxRate ≤ high) {o : PacerOp} (ho : Takes (0 ≤ ·) o)
    (hthrottle : ∀ r, o = .throttle r → pp.backoff ≤ 1 ∧ low ≤ pp.floor ∧ pp.floor ≤ high)
    (now : ℚ) : Within low high (pp.exec p now o).2 := by
  cases o with
  | take worker tokens => exact h.take hlow now ho
  | throttle r =>
    obtain ⟨hback, hfloor, hceil⟩ := hthrottle r rfl
    exact h.throttle hlow hback hfloor hceil now r
  | success => exact h.success hrecover hhigh
  | _ => exact h

theorem within_init (hlow : low ≤ pp.maxRate) (hhigh : pp.maxRate ≤ high) (now : ℚ) :
    Within low high (pp.init now) where
  low_le := hlow
  le_high := hhigh
  capacity_eq := rfl
  tokens_nonneg := zero_le_one.trans (le_max_left _ _)
  tokens_le := le_rfl

end Step

/-! ## What the workers ask for -/

/-- A call whose amount, if it has one, satisfies `P`. -/
def Call.Asks (P : ℚ → Prop) : Call → Prop
  | .acquire tokens => P tokens
  | _ => True

section Asks

variable {P : ℚ → Prop} {worker : ℕ}

theorem guarantees_step {o : PacerOp} (h : Takes P o) :
    (step o).Guarantees (fun _ _ => True) (Takes P) :=
  ⟨h, fun _ _ => trivial⟩

theorem guarantees_waiting {attempt : Prog pacerSig (Option ℚ)}
    (h : attempt.Guarantees (fun _ _ => True) (Takes P)) :
    (waiting attempt).Guarantees (fun _ _ => True) (Takes P) := by
  refine ⟨fun slept => ?_, fun slept => trivial⟩
  apply Prog.Guarantees.bind h
  intro wait
  cases wait with
  | none => exact trivial
  | some wait =>
    have hnap : (nap wait).Guarantees (fun _ _ => True) (Takes P) := by
      apply Prog.Guarantees.bind
      · exact guarantees_step trivial
      · exact fun deadline => guarantees_step trivial
    exact hnap.bind fun _ => trivial

theorem guarantees_acquire {tokens : ℚ} (h : P tokens) :
    (acquire worker tokens).Guarantees (fun _ _ => True) (Takes P) := by
  have hcool : (awaitCooldown worker).Guarantees (fun _ _ => True) (Takes P) := by
    apply guarantees_waiting
    apply Prog.Guarantees.bind
    · exact guarantees_step trivial
    · exact fun _ => trivial
  have htokens : (awaitTokens worker tokens).Guarantees (fun _ _ => True) (Takes P) := by
    apply Prog.Guarantees.bind
    · exact guarantees_step trivial
    · intro rate
      split_ifs
      · exact trivial
      · exact guarantees_waiting (guarantees_step h)
  apply Prog.Guarantees.bind
  · exact guarantees_step trivial
  · intro rate
    split_ifs
    · exact trivial
    · exact hcool.bind fun _ => htokens.bind fun _ => trivial

theorem guarantees_work {calls : List Call} (h : ∀ call ∈ calls, call.Asks P) :
    (work worker calls).Guarantees (fun _ _ => True) (Takes P) := by
  induction calls with
  | nil => exact trivial
  | cons call calls ih =>
    have hcall : (call.run worker).Guarantees (fun _ _ => True) (Takes P) := by
      cases call with
      | acquire tokens =>
        have htokens : P tokens := h _ (List.mem_cons_self ..)
        exact (guarantees_acquire htokens).bind fun _ => trivial
      | throttle r => exact guarantees_step trivial
      | success => exact guarantees_step trivial
    exact hcall.bind fun _ => ih fun call hc => h call (List.mem_cons_of_mem _ hc)

theorem guarantees_crew {calls : List (List Call)} (h : ∀ cs ∈ calls, ∀ call ∈ cs, call.Asks P) :
    ∀ worker, (crew worker calls).Guarantees (fun _ _ => True) (Takes P) := by
  induction calls with
  | nil => exact fun worker => trivial
  | cons first rest ih =>
    intro worker
    refine ⟨guarantees_work (h first (List.mem_cons_self ..)), ih ?_ (worker + 1)⟩
    exact fun cs hcs => h cs (List.mem_cons_of_mem _ hcs)

/-- An invariant of the pacer, the clock and the history holds in all runs of a crew. -/
theorem crew_throughout {pp : PacerParams} {now : ℚ} {calls : List (List Call)}
    (hcalls : ∀ cs ∈ calls, ∀ call ∈ cs, call.Asks P) {K : World pp.system → Prop}
    (act : ∀ {w o x s}, Takes P o → pp.system.perform o w.state x s → K w →
      K (w.log s (.did o x)))
    (env : ∀ {w s}, pp.system.env w.state s → K w → K ⟨s, w.trace⟩)
    (hi : K ⟨⟨pp.init now, now⟩, []⟩) {c : Config pp.system Unit}
    (h : Reach pp.system (crewStart pp now calls) c) : K c.world := by
  have hbody : ∀ a : pacerSig.Arg, (pp.system.body a).Guarantees (fun _ _ => True) (Takes P) :=
    nofun
  exact (guarantees_crew hcalls 0).throughout hbody act (fun a => Empty.elim a) env hi h

end Asks

/-! ## The bounds of a run -/

/-- What a pacer with the ceiling `maxTps` promises at each moment. -/
structure Bounded (maxTps : ℚ) (p : Pacer) : Prop where
  rate_pos : 0 < p.rate
  rate_le : p.rate ≤ maxTps
  capacity_eq : p.capacity = max 1 p.rate
  tokens_nonneg : 0 ≤ p.tokens
  tokens_le : p.tokens ≤ p.capacity

theorem Within.bounded {low high : ℚ} {p : Pacer} (h : Within low high p) (hlow : 0 < low) :
    Bounded high p :=
  ⟨hlow.trans_le h.low_le, h.le_high, h.capacity_eq, h.tokens_nonneg, h.tokens_le⟩

/-- A throttle is part of the history. -/
def Throttled (past : List (Event pacerSig)) : Prop := ∃ r x, .did (.throttle r) x ∈ past

/-- On the way from `start` to `c` the pacer is bounded at each moment, and no throttle
raises its rate. -/
structure BoundedOnTheWay {pp : PacerParams} (maxTps : ℚ) (start c : Config pp.system Unit) :
    Prop where
  bounded : ∀ c₁, Reach pp.system start c₁ → Reach pp.system c₁ c →
    Bounded maxTps c₁.world.state.pacer
  lowers : ∀ c₁ c₂, Reach pp.system start c₁ → Step pp.system c₁ c₂ → Reach pp.system c₂ c →
    (∃ r x, c₂.world.trace = .did (.throttle r) x :: c₁.world.trace) →
    c₂.world.state.pacer.rate ≤ c₁.world.state.pacer.rate

section Crew

variable {pp : PacerParams} {now : ℚ} {calls : List (List Call)} {c : Config pp.system Unit}
  (hcalls : ∀ cs ∈ calls, ∀ call ∈ cs, call.Asks (0 ≤ ·)) (hrecover : 0 ≤ pp.recoverStep)
include hcalls

include hrecover in
/-- With the floor below the ceiling the rate stays between the two. -/
theorem within_of_floor_le (hback : pp.backoff ≤ 1) (hfloor : pp.floor ≤ pp.maxRate)
    (h : Reach pp.system (crewStart pp now calls) c) :
    Within pp.floor pp.maxRate c.world.state.pacer := by
  apply crew_throughout hcalls (K := fun w => Within pp.floor pp.maxRate w.state.pacer) _ _ _ h
  · intro w o x s ho hp hw
    have hs : s.pacer = (pp.exec w.state.pacer w.state.now o).2 := (Prod.ext_iff.mp hp.2.1).2
    change Within pp.floor pp.maxRate s.pacer
    rw [hs]
    exact hw.exec hrecover (floor_pos pp) le_rfl ho (fun _ _ => ⟨hback, le_rfl, hfloor⟩) _
  · intro w s he hw
    change Within pp.floor pp.maxRate s.pacer
    rw [he.1]
    exact hw
  · exact within_init hfloor le_rfl now

include hrecover in
/-- Without a throttle the rate stays at the ceiling. -/
theorem within_of_unthrottled (hmax : 0 < pp.maxRate)
    (h : Reach pp.system (crewStart pp now calls) c) (hc : ¬Throttled c.world.trace) :
    Within pp.maxRate pp.maxRate c.world.state.pacer := by
  refine crew_throughout hcalls (K := fun w => ¬Throttled w.trace →
    Within pp.maxRate pp.maxRate w.state.pacer) ?_ ?_ ?_ h hc
  · intro w o x s ho hp hw hnone
    have hs : s.pacer = (pp.exec w.state.pacer w.state.now o).2 := (Prod.ext_iff.mp hp.2.1).2
    have hbefore : ¬Throttled w.trace := by
      rintro ⟨r, y, hm⟩
      exact hnone ⟨r, y, List.mem_cons_of_mem _ hm⟩
    change Within pp.maxRate pp.maxRate s.pacer
    rw [hs]
    apply (hw hbefore).exec hrecover hmax le_rfl ho
    rintro r rfl
    exact absurd ⟨r, x, List.mem_cons_self ..⟩ hnone
  · intro w s he hw hnone
    change Within pp.maxRate pp.maxRate s.pacer
    rw [he.1]
    exact hw hnone
  · exact fun _ => within_init le_rfl le_rfl now

/-- With the floor above the ceiling, a throttle takes the rate above the ceiling for good. -/
theorem floor_le_rate_of_throttled (hlt : pp.maxRate < pp.floor)
    (h : Reach pp.system (crewStart pp now calls) c) (hc : Throttled c.world.trace) :
    pp.floor ≤ c.world.state.pacer.rate := by
  refine crew_throughout hcalls (K := fun w => Throttled w.trace →
    pp.floor ≤ w.state.pacer.rate) ?_ ?_ ?_ h hc
  · intro w o x s ho hp hw hthrottled
    have hs : s.pacer = (pp.exec w.state.pacer w.state.now o).2 := (Prod.ext_iff.mp hp.2.1).2
    change pp.floor ≤ s.pacer.rate
    rw [hs]
    have hrest (ho : ∀ r, o ≠ .throttle r) : Throttled w.trace := by
      obtain ⟨r, y, hm⟩ := hthrottled
      rcases List.mem_cons.mp hm with heq | hm
      · cases heq
        exact absurd rfl (ho r)
      · exact ⟨r, y, hm⟩
    cases o with
    | throttle r => exact le_max_left _ _
    | success =>
      have hrate : pp.floor ≤ w.state.pacer.rate := hw (hrest (by simp))
      simp only [PacerParams.exec, PacerParams.recordSuccess]
      rw [if_pos (hlt.le.trans hrate)]
      exact hrate
    | take worker tokens =>
      have hrate : pp.floor ≤ w.state.pacer.rate := hw (hrest (by simp))
      simp only [PacerParams.exec, Pacer.take, Pacer.refill]
      split_ifs <;> exact hrate
    | _ => exact hw (hrest (by simp))
  · intro w s he hw hthrottled
    change pp.floor ≤ s.pacer.rate
    rw [he.1]
    exact hw hthrottled
  · rintro ⟨r, x, hm⟩
    exact absurd hm (by simp)

end Crew

/-- The step that a throttle makes. -/
theorem rate_of_throttle_step {pp : PacerParams} {c₁ c₂ : Config pp.system Unit}
    (h : Step pp.system c₁ c₂) {r : Option ℚ} {x : Timed Unit}
    (hx : c₂.world.trace = .did (.throttle r) x :: c₁.world.trace) :
    c₂.world.state.pacer.rate = max pp.floor (c₁.world.state.pacer.rate * pp.backoff) := by
  have hg : c₁.world.Grows c₂.world := h.grows
  generalize c₂.world = w at hg hx ⊢
  cases hg with
  | same => exact absurd hx (by simp)
  | @act o y s hp =>
    cases hx
    have hs : s.pacer = (pp.exec c₁.world.state.pacer c₁.world.state.now (.throttle r)).2 :=
      (Prod.ext_iff.mp hp.2.1).2
    change s.pacer.rate = _
    rw [hs]
    rfl
  | enter a => exact Empty.elim a
  | env he => exact absurd hx (by simp)

end Pacer

open Pacer in
/-- A pacer of `make_pacer` keeps its promises throughout a run if and only if its ceiling
is at least one operation per second or the run has no throttle. -/
theorem pacer_bounded_iff {maxTps : ℚ} {pp : PacerParams}
    (hpp : makePacer maxTps defaultMinTps = some pp) {now : ℚ} {calls : List (List Call)}
    (hcalls : ∀ cs ∈ calls, ∀ call ∈ cs, call.Asks (0 ≤ ·)) {c : Config pp.system Unit}
    (h : Reach pp.system (crewStart pp now calls) c) :
    BoundedOnTheWay maxTps (crewStart pp now calls) c ↔ 1 ≤ maxTps ∨ ¬Throttled c.world.trace := by
  obtain ⟨hpos, rfl, hmin, hhalf, hone⟩ := makePacer_eq_some hpp
  have hfloor : pp.floor = 1 := by
    rw [hmin, defaultMinTps]
    exact max_eq_right (by norm_num)
  have hback : pp.backoff ≤ 1 := by
    rw [hhalf]
    norm_num
  have hrecover : 0 ≤ pp.recoverStep := by
    rw [hone]
    norm_num
  constructor
  · intro hb
    by_contra hnot
    obtain ⟨hlt, hthrottled⟩ := not_or.mp hnot
    have hbelow : pp.maxRate < pp.floor := hfloor ▸ not_le.mp hlt
    have hrate : pp.floor ≤ c.world.state.pacer.rate :=
      floor_le_rate_of_throttled hcalls hbelow h (not_not.mp hthrottled)
    have hle : c.world.state.pacer.rate ≤ pp.maxRate := (hb.bounded c h .refl).rate_le
    rw [hfloor] at hrate
    exact hlt (hrate.trans hle)
  · rintro (hone | hnone)
    · have hceil : pp.floor ≤ pp.maxRate := hfloor.trans_le hone
      have hwithin {c₁ : Config pp.system Unit} (h₁ : Reach pp.system (crewStart pp now calls) c₁) :
          Within pp.floor pp.maxRate c₁.world.state.pacer :=
        within_of_floor_le hcalls hrecover hback hceil h₁
      refine ⟨fun c₁ h₁ _ => (hwithin h₁).bounded (floor_pos pp), ?_⟩
      rintro c₁ c₂ h₁ hstep - ⟨r, x, hx⟩
      have hw := hwithin h₁
      rw [rate_of_throttle_step hstep hx]
      exact max_le hw.low_le (mul_le_of_le_one_right ((floor_pos pp).le.trans hw.low_le) hback)
    · have hsub {c₁ : Config pp.system Unit} (h₁ : Reach pp.system c₁ c) :
          ¬Throttled c₁.world.trace := by
        rintro ⟨r, x, hm⟩
        exact hnone ⟨r, x, h₁.trace.subset hm⟩
      refine ⟨fun c₁ h₁ h₂ => ?_, ?_⟩
      · exact (within_of_unthrottled hcalls hrecover hpos h₁ (hsub h₂)).bounded hpos
      · rintro c₁ c₂ - - h₂ ⟨r, x, hx⟩
        exact absurd ⟨r, x, hx ▸ List.mem_cons_self ..⟩ (hsub h₂)

open Pacer in
/-- A throttle at ten operations per second. -/
theorem pacer_bounded_iff_ten : BoundedOnTheWay 10 (crewStart tenPerSecond 0 pair) overtaken := by
  have hpp : makePacer 10 defaultMinTps = some tenPerSecond := if_pos (by norm_num)
  have hcalls : ∀ cs ∈ pair, ∀ call ∈ cs, call.Asks (0 ≤ ·) := by
    simp [pair, Call.Asks]
  have hreach : Reach tenPerSecond.system (crewStart tenPerSecond 0 pair) overtaken :=
    (clockwork_legal _ _ _).reach_run _ _
  exact (pacer_bounded_iff hpp hcalls hreach).mpr (.inl (by norm_num))

namespace Pacer

def halfPerSecond : PacerParams where
  maxRate := 1 / 2

/-- The run of one worker that reports a throttle. -/
def slowed : Config halfPerSecond.system Unit :=
  (clockwork halfPerSecond 0 0).run [.main, .task 0] (crewStart halfPerSecond 0 [[.throttle none]])

end Pacer

open Pacer in
/-- A throttle raises the rate from one half to one operation per second. -/
theorem throttle_above_ceiling : makePacer (1 / 2) defaultMinTps = some halfPerSecond ∧
    Reach halfPerSecond.system (crewStart halfPerSecond 0 [[.throttle none]]) slowed ∧
    ¬BoundedOnTheWay (1 / 2) (crewStart halfPerSecond 0 [[.throttle none]]) slowed := by
  have hreach : Reach halfPerSecond.system (crewStart halfPerSecond 0 [[.throttle none]]) slowed :=
    (clockwork_legal _ _ _).reach_run _ _
  refine ⟨if_pos (by norm_num), hreach, ?_⟩
  intro hb
  have hrate : slowed.world.state.pacer.rate = 1 := by decide +kernel
  have hle : slowed.world.state.pacer.rate ≤ 1 / 2 := (hb.bounded slowed hreach .refl).rate_le
  rw [hrate] at hle
  norm_num at hle

end TurboCopy
