import TurboCopy.Pacer.Bounds

/-!
# Grants in a window

The tokens of the pacer are refilled lazily, at the rate in force when somebody asks. The
invariant therefore charges the grants made since a moment against the capacity and what
the ceiling brings in from that moment to the last refill, and what is left in the bucket
is part of the bill. A grant pays the amount up to the slack of `acquire`.
-/

namespace TurboCopy

open Threads

namespace Pacer

/-- The step is a grant made from the moment `s` on. -/
def grantedSince (s : ℚ) (e : Event pacerSig) : Bool := (grant e).any fun g => s ≤ g.2

/-- The step is a grant made between `s` and `t`. -/
def grantedIn (s t : ℚ) (e : Event pacerSig) : Bool :=
  (grant e).any fun g => s ≤ g.2 && g.2 ≤ t

def grantsSince (s : ℚ) (past : List (Event pacerSig)) : ℕ := past.countP (grantedSince s)

/-- The number of acquires granted in a window. -/
def grantsIn (s t : ℚ) (past : List (Event pacerSig)) : ℕ := past.countP (grantedIn s t)

section Count

variable {s t : ℚ} {e : Event pacerSig} {past : List (Event pacerSig)}

theorem grantsIn_le_since : grantsIn s t past ≤ grantsSince s past := by
  apply List.countP_mono_left
  intro e _ he
  unfold grantedIn at he
  unfold grantedSince
  cases hg : grant e with
  | none => simp [hg] at he
  | some g =>
    rw [hg] at he
    exact (Bool.and_eq_true_iff.mp he).1

theorem grantsSince_cons_none (h : grant e = none) :
    grantsSince s (e :: past) = grantsSince s past := by
  simp [grantsSince, grantedSince, h]

theorem grantsIn_cons_none (h : grant e = none) :
    grantsIn s t (e :: past) = grantsIn s t past := by
  simp [grantsIn, grantedIn, h]

theorem grantsSince_cons_some {g : ℕ × ℚ} (h : grant e = some g) :
    grantsSince s (e :: past) = grantsSince s past + if s ≤ g.2 then 1 else 0 := by
  simp [grantsSince, grantedSince, h, List.countP_cons]

theorem grantsIn_cons_after {g : ℕ × ℚ} (h : grant e = some g) (ht : t < g.2) :
    grantsIn s t (e :: past) = grantsIn s t past := by
  simp [grantsIn, grantedIn, h, ht]

/-- Nothing was granted since a moment that all grants precede. -/
theorem grantsSince_eq_zero {last : ℚ} (h : ∀ e ∈ past, ∀ g, grant e = some g → g.2 ≤ last)
    (hs : last < s) : grantsSince s past = 0 := by
  apply List.countP_eq_zero.mpr
  intro e he
  unfold grantedSince
  cases hg : grant e with
  | none => simp
  | some g => simpa using (h e he g hg).trans_lt hs

end Count

/-! ## What a grant pays -/

/-- Since each moment, the grants and the tokens left cost at most the capacity and what the
ceiling `top` has brought in up to the last refill. -/
def Paid (top : ℚ) (past : List (Event pacerSig)) (p : Pacer) : Prop :=
  ∀ s, (grantsSince s past : ℚ) * (1 - eps) + p.tokens ≤ max 1 top + top * max 0 (p.last - s)

section Paid

variable {low top now : ℚ} {p : Pacer} {past : List (Event pacerSig)}

theorem last_refill (h : p.last ≤ now) : (p.refill now).last = now := by
  unfold Pacer.refill
  dsimp only
  split_ifs with he
  · rfl
  · linarith [not_lt.mp he]

theorem tokens_refill_le (hrate : 0 ≤ p.rate) (hle : p.rate ≤ top) (h : p.last ≤ now) :
    (p.refill now).tokens ≤ p.tokens + (now - p.last) * top := by
  have hgain : (now - p.last) * p.rate ≤ (now - p.last) * top :=
    mul_le_mul_of_nonneg_left hle (sub_nonneg.mpr h)
  have hpos : 0 ≤ (now - p.last) * p.rate := mul_nonneg (sub_nonneg.mpr h) hrate
  unfold Pacer.refill
  dsimp only
  split_ifs
  · exact (min_le_right _ _).trans (by linarith)
  · linarith

/-- A refill brings in no more than the ceiling does since the last one, and no more than
the capacity for a moment that no grant has reached. -/
theorem Paid.refill (h : Paid top past p) (hw : Within low top p) (hlow : 0 < low)
    (hlast : p.last ≤ now) (hgrants : ∀ e ∈ past, ∀ g, grant e = some g → g.2 ≤ p.last) :
    Paid top past (p.refill now) := by
  intro s
  have hrate : 0 ≤ p.rate := hlow.le.trans hw.low_le
  have htop : 0 ≤ top := hrate.trans hw.le_high
  rw [last_refill hlast]
  by_cases hs : s ≤ p.last
  · have hgain : (p.refill now).tokens ≤ p.tokens + (now - p.last) * top :=
      tokens_refill_le hrate hw.le_high hlast
    have hbill := h s
    rw [max_eq_right (sub_nonneg.mpr hs)] at hbill
    rw [max_eq_right (sub_nonneg.mpr (hs.trans hlast))]
    linarith
  · have hr : Within low top (p.refill now) := hw.refill hlow now
    have hcap : (p.refill now).capacity ≤ max 1 top := by
      rw [hr.capacity_eq]
      exact max_le_max le_rfl hr.le_high
    have hin : 0 ≤ top * max 0 (now - s) := mul_nonneg htop (le_max_left _ _)
    rw [grantsSince_eq_zero hgrants (not_le.mp hs)]
    push_cast
    linarith [hr.tokens_le]

/-- Taking a token leaves at most what it costs less, up to the slack. -/
theorem tokens_after_grant {tokens : ℚ} (h : 1 - eps ≤ tokens) :
    (1 - eps) + max 0 (tokens - 1) ≤ tokens := by
  have heps : 0 ≤ eps := by norm_num [eps]
  rcases max_cases 0 (tokens - 1) with ⟨hmax, -⟩ | ⟨hmax, -⟩
  · rw [hmax]
    linarith
  · rw [hmax]
    linarith

end Paid

/-! ## The invariant -/

/-- The pacer is within its bounds, every grant came before the last refill, and the grants
since any moment are paid for. -/
structure Funded {pp : PacerParams} (w : World pp.system) : Prop where
  within : Within pp.floor pp.maxRate w.state.pacer
  last_le : w.state.pacer.last ≤ w.state.now
  grants : ∀ e ∈ w.trace, ∀ g, grant e = some g → g.2 ≤ w.state.pacer.last
  paid : Paid pp.maxRate w.trace w.state.pacer
  window : ∀ s t, s ≤ t →
    (grantsIn s t w.trace : ℚ) * (1 - eps) ≤ max 1 pp.maxRate + pp.maxRate * (t - s)

section Moves

variable {pp : PacerParams} {w : World pp.system} {s : Paced} {o : PacerOp} {x : Timed o.Ret}

/-- A step without a grant keeps what the pacer after it still pays for. -/
theorem Funded.ungranted (h : Funded w) (hg : grant (.did o x) = none)
    (hw : Within pp.floor pp.maxRate s.pacer) (hlast : w.state.pacer.last ≤ s.pacer.last)
    (hnow : s.pacer.last ≤ s.now) (hpaid : Paid pp.maxRate w.trace s.pacer) :
    Funded (w.log s (.did o x)) where
  within := hw
  last_le := hnow
  grants := by
    intro e he g hge
    rcases List.mem_cons.mp he with rfl | he
    · rw [hg] at hge
      exact nomatch hge
    · exact (h.grants e he g hge).trans hlast
  paid := by
    intro u
    change (grantsSince u (.did o x :: w.trace) : ℚ) * (1 - eps) + s.pacer.tokens ≤
      max 1 pp.maxRate + pp.maxRate * max 0 (s.pacer.last - u)
    rw [grantsSince_cons_none hg]
    exact hpaid u
  window := by
    intro u t hut
    change (grantsIn u t (.did o x :: w.trace) : ℚ) * (1 - eps) ≤ _
    rw [grantsIn_cons_none hg]
    exact h.window u t hut

/-- A step that refills nothing, grants nothing and adds no tokens. -/
theorem Funded.idle (h : Funded w) (hg : grant (.did o x) = none)
    (hw : Within pp.floor pp.maxRate s.pacer) (hnow : s.now = w.state.now)
    (hlast : s.pacer.last = w.state.pacer.last) (htokens : s.pacer.tokens ≤ w.state.pacer.tokens) :
    Funded (w.log s (.did o x)) := by
  apply h.ungranted hg hw hlast.ge
  · rw [hlast, hnow]
    exact h.last_le
  · intro u
    have hbill := h.paid u
    rw [hlast]
    linarith

/-- A grant at the time of the last refill, out of a bucket that holds a token up to the
slack, is paid for. -/
theorem Funded.granted (h : Funded w) {p : Pacer} {g : ℕ × ℚ} (hg : grant (.did o x) = some g)
    (hw : Within pp.floor pp.maxRate s.pacer) (hpaid : Paid pp.maxRate w.trace p)
    (hfull : 1 - eps ≤ p.tokens) (hold : ∀ e ∈ w.trace, ∀ g, grant e = some g → g.2 ≤ p.last)
    (hlast : s.pacer.last = p.last) (htokens : s.pacer.tokens = max 0 (p.tokens - 1))
    (htime : g.2 = p.last) (hnow : p.last ≤ s.now) : Funded (w.log s (.did o x)) := by
  have hslack : 0 ≤ 1 - eps := by norm_num [eps]
  have hcost := tokens_after_grant hfull
  have hbill : Paid pp.maxRate (.did o x :: w.trace) s.pacer := by
    intro u
    have hbefore := hpaid u
    rw [grantsSince_cons_some hg, hlast, htokens]
    push_cast
    split_ifs
    · linarith
    · linarith
  refine ⟨hw, hlast.trans_le hnow, ?_, hbill, ?_⟩
  · intro e he g' hge
    change g'.2 ≤ s.pacer.last
    rw [hlast]
    rcases List.mem_cons.mp he with rfl | he
    · rw [hg] at hge
      cases hge
      exact htime.le
    · exact hold e he g' hge
  · intro u t hut
    change (grantsIn u t (.did o x :: w.trace) : ℚ) * (1 - eps) ≤ _
    by_cases ht : t < g.2
    · rw [grantsIn_cons_after hg ht]
      exact h.window u t hut
    · -- The window reaches up to this grant, so it is charged like the moment it begins at.
      have htop : 0 ≤ pp.maxRate := (floor_pos pp).le.trans (hw.low_le.trans hw.le_high)
      have hle : (grantsIn u t (.did o x :: w.trace) : ℚ) ≤ grantsSince u (.did o x :: w.trace) :=
        Nat.cast_le.mpr grantsIn_le_since
      have hscale := mul_le_mul_of_nonneg_right hle hslack
      have hspan : max 0 (s.pacer.last - u) ≤ t - u := by
        rw [hlast, ← htime]
        exact max_le (sub_nonneg.mpr hut) (sub_le_sub_right (not_lt.mp ht) u)
      have hin := mul_le_mul_of_nonneg_left hspan htop
      have hu := hbill u
      linarith [hw.tokens_nonneg]

/-- Asking for a token: the bucket is refilled, and a grant takes one. -/
theorem Funded.take (h : Funded w) {worker : ℕ} {x : Timed (Option ℚ)}
    (hp : pp.system.perform (.take worker 1) w.state x s) :
    Funded (w.log s (.did (.take worker 1) x)) := by
  obtain ⟨htime, hexec, hnow, -⟩ := hp
  have hpos : 0 < pp.floor := floor_pos pp
  have hpacer : s.pacer = (w.state.pacer.take w.state.now 1).2 := (Prod.ext_iff.mp hexec).2
  have hvalue : x.value = (w.state.pacer.take w.state.now 1).1 := (Prod.ext_iff.mp hexec).1
  have hlast : (w.state.pacer.refill w.state.now).last = w.state.now := last_refill h.last_le
  have hpaid : Paid pp.maxRate w.trace (w.state.pacer.refill w.state.now) :=
    h.paid.refill h.within hpos h.last_le h.grants
  have hwithin : Within pp.floor pp.maxRate s.pacer := by
    rw [hpacer]
    exact h.within.take hpos w.state.now zero_le_one
  unfold Pacer.take at hpacer hvalue
  dsimp only at hpacer hvalue
  by_cases hfull : 1 - eps ≤ (w.state.pacer.refill w.state.now).tokens
  · rw [if_pos hfull] at hpacer hvalue
    have hg : grant (.did (.take worker 1) x) = some (worker, w.state.now) := by
      simp [grant, hvalue, htime]
    apply h.granted hg hwithin hpaid hfull
    · intro e he g hge
      rw [hlast]
      exact (h.grants e he g hge).trans h.last_le
    · rw [hpacer]
    · rw [hpacer]
    · exact hlast.symm
    · exact (hlast.trans hnow.symm).le
  · rw [if_neg hfull] at hpacer hvalue
    have hg : grant (.did (.take worker 1) x) = none := by simp [grant, hvalue]
    apply h.ungranted hg hwithin
    · rw [hpacer, hlast]
      exact h.last_le
    · rw [hpacer, hlast]
      exact hnow.ge
    · rw [hpacer]
      exact hpaid

theorem Funded.perform (h : Funded w) (hback : pp.backoff ≤ 1) (hrecover : 0 ≤ pp.recoverStep)
    (hfloor : pp.floor ≤ pp.maxRate) (ho : Takes (· = 1) o) (hp : pp.system.perform o w.state x s) :
    Funded (w.log s (.did o x)) := by
  have hs : s.pacer = (pp.exec w.state.pacer w.state.now o).2 := (Prod.ext_iff.mp hp.2.1).2
  have hw (hsound : Takes (0 ≤ ·) o) : Within pp.floor pp.maxRate s.pacer := by
    rw [hs]
    exact h.within.exec hrecover (floor_pos pp) le_rfl hsound (fun _ _ => ⟨hback, le_rfl, hfloor⟩) _
  cases o with
  | take worker tokens =>
    cases ho
    exact h.take hp
  | throttle r =>
    refine h.idle rfl (hw trivial) hp.2.2.1 (by rw [hs]; rfl) ?_
    rw [hs]
    simp only [PacerParams.exec, PacerParams.recordThrottle]
    split_ifs with hc
    · exact hc.le
    · exact le_rfl
  | success =>
    apply h.idle rfl (hw trivial) hp.2.2.1
    · rw [hs]
      simp only [PacerParams.exec, PacerParams.recordSuccess]
      split_ifs <;> rfl
    · rw [hs]
      simp only [PacerParams.exec, PacerParams.recordSuccess]
      split_ifs <;> exact le_rfl
  | readRate worker =>
    have hrate : 0 < w.state.pacer.rate := (floor_pos pp).trans_le h.within.low_le
    have hvalue : x.value = w.state.pacer.rate := (Prod.ext_iff.mp hp.2.1).1
    have hg : grant (.did (.readRate worker) x) = none := by
      simp [grant, hvalue, hrate]
    exact h.idle hg (hw trivial) hp.2.2.1 (by rw [hs]; rfl) (by rw [hs]; exact le_rfl)
  | cooldown worker =>
    exact h.idle rfl (hw trivial) hp.2.2.1 (by rw [hs]; rfl) (by rw [hs]; exact le_rfl)
  | sleep seconds =>
    exact h.idle rfl (hw trivial) hp.2.2.1 (by rw [hs]; rfl) (by rw [hs]; exact le_rfl)
  | wake deadline =>
    exact h.idle rfl (hw trivial) hp.2.2.1 (by rw [hs]; rfl) (by rw [hs]; exact le_rfl)

theorem Funded.env (h : Funded w) (he : pp.system.env w.state s) :
    Funded (⟨s, w.trace⟩ : World pp.system) := by
  obtain ⟨hpacer, hnow⟩ := he
  have heq : (⟨s, w.trace⟩ : World pp.system).state.pacer = w.state.pacer := hpacer
  refine ⟨heq ▸ h.within, ?_, heq ▸ h.grants, heq ▸ h.paid, h.window⟩
  rw [heq]
  exact h.last_le.trans hnow

end Moves

theorem funded_init {pp : PacerParams} (hfloor : pp.floor ≤ pp.maxRate) (now : ℚ) :
    Funded (⟨⟨pp.init now, now⟩, []⟩ : World pp.system) where
  within := within_init hfloor le_rfl now
  last_le := le_rfl
  grants := by simp
  paid := by
    intro s
    have htop : 0 ≤ pp.maxRate := (floor_pos pp).le.trans hfloor
    have hin : 0 ≤ pp.maxRate * max 0 (now - s) := mul_nonneg htop (le_max_left _ _)
    simpa [grantsSince, PacerParams.init] using hin
  window := by
    intro s t hst
    have htop : 0 ≤ pp.maxRate := (floor_pos pp).le.trans hfloor
    have hin : 0 ≤ pp.maxRate * (t - s) := mul_nonneg htop (sub_nonneg.mpr hst)
    have hcap : (0 : ℚ) ≤ max 1 pp.maxRate := zero_le_one.trans (le_max_left _ _)
    simpa [grantsIn] using add_nonneg hcap hin

end Pacer

open Pacer in
/-- In every interleaving, a window of a pacer whose floor is not above its ceiling and
whose throttles do not raise the rate and whose successes do not lower it has at most the grants
its ceiling pays for. -/
theorem grants_in_window {pp : PacerParams} (hback : pp.backoff ≤ 1)
    (hrecover : 0 ≤ pp.recoverStep) (hfloor : pp.floor ≤ pp.maxRate) {now : ℚ} {calls : List (List Call)}
    (hcalls : ∀ cs ∈ calls, ∀ call ∈ cs, call.Asks (· = 1)) {c : Config pp.system Unit}
    (h : Reach pp.system (crewStart pp now calls) c) {s t : ℚ} (hst : s ≤ t) :
    (grantsIn s t c.world.trace : ℚ) * (1 - eps) ≤ max 1 pp.maxRate + pp.maxRate * (t - s) := by
  have hfunded : Funded c.world :=
    crew_throughout hcalls (fun ho hp hw => hw.perform hback hrecover hfloor ho hp)
      (fun he hw => hw.env he) (funded_init hfloor now) h
  exact hfunded.window s t hst

namespace Pacer

/-- A pacer whose throttles double the rate. -/
def doubling : PacerParams where
  maxRate := 1
  backoff := 2

def eager : List (List Call) := [[.throttle none, .acquire 1, .acquire 1]]

/-- A throttle, and a second later two calls. -/
def doubled : Config doubling.system Unit :=
  (clockwork doubling 1 1).run (.main :: List.replicate 20 (.task 0)) (crewStart doubling 0 eager)

end Pacer

open Pacer in
/-- The grant that a cooldown put off until the thirtieth second. -/
theorem grants_in_window_waited : grantsIn 30 30 waitedOut.world.trace = 1 ∧
    (grantsIn 30 30 waitedOut.world.trace : ℚ) * (1 - eps) ≤ max 1 10 + 10 * (30 - 30) := by
  have hcalls : ∀ cs ∈ pair, ∀ call ∈ cs, call.Asks (· = 1) := by
    simp [pair, Call.Asks]
  have hreach : Reach tenPerSecond.system (crewStart tenPerSecond 0 pair) waitedOut :=
    (clockwork_legal _ _ _).reach_run _ _
  have hfloor : tenPerSecond.floor ≤ tenPerSecond.maxRate := by
    norm_num [PacerParams.floor, tenPerSecond]
  have hback : tenPerSecond.backoff ≤ 1 := by norm_num [tenPerSecond]
  have hrecover : 0 ≤ tenPerSecond.recoverStep := by norm_num [tenPerSecond]
  exact ⟨by decide +kernel, grants_in_window hback hrecover hfloor hcalls hreach le_rfl⟩

open Pacer in
/-- With a throttle that doubles the rate, two calls are granted at one moment. -/
theorem grants_beyond_ceiling : doubling.floor ≤ doubling.maxRate ∧
    (∀ cs ∈ eager, ∀ call ∈ cs, call.Asks (· = 1)) ∧
    Reach doubling.system (crewStart doubling 0 eager) doubled ∧
    ¬(grantsIn 1 1 doubled.world.trace : ℚ) * (1 - eps) ≤
      max 1 doubling.maxRate + doubling.maxRate * (1 - 1) := by
  refine ⟨by norm_num [PacerParams.floor, doubling], by simp [eager, Call.Asks],
    (clockwork_legal _ _ _).reach_run _ _, ?_⟩
  have htwo : grantsIn 1 1 doubled.world.trace = 2 := by decide +kernel
  rw [htwo]
  norm_num [eps, doubling]

end TurboCopy
