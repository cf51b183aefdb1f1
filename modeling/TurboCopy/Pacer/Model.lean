import Mathlib.Algebra.Order.Field.Rat
import TurboCopy.Threads.Machine

/-!
# The adaptive pacer

`TokenBucket` and `AdaptivePacer` of `pacer.py`: the attributes, the sections under the
lock as functions of the clock, and the methods as programs of a worker. Numbers are exact.
The history of a run gives each step the time at which it was made and, where a step is
made for a worker, the worker.
-/

namespace TurboCopy

open Threads

/-- The parameters of an `AdaptivePacer`. -/
structure PacerParams where
  maxRate : ℚ
  minRate : ℚ := 1
  backoff : ℚ := 1 / 2
  recoverStep : ℚ := 1
  recoverAfter : ℕ := 25

/-- The attributes that change. -/
structure Pacer where
  rate : ℚ
  capacity : ℚ
  tokens : ℚ
  last : ℚ
  successes : ℕ := 0
  cooldownUntil : ℚ := 0

namespace PacerParams

variable (pp : PacerParams)

/-- `self.min_rate`. -/
def floor : ℚ := max (1 / 10) pp.minRate

/-- `__init__` at the time `now`. -/
def init (now : ℚ) : Pacer where
  rate := pp.maxRate
  capacity := max 1 pp.maxRate
  tokens := max 1 pp.maxRate
  last := now

/-- The body of `record_throttle`. -/
def recordThrottle (p : Pacer) (now : ℚ) (retryAfter : Option ℚ) : Pacer :=
  let rate := max pp.floor (p.rate * pp.backoff)
  let capacity := max 1 rate
  { p with
    successes := 0
    rate := rate
    capacity := capacity
    tokens := if capacity < p.tokens then capacity else p.tokens
    cooldownUntil := match retryAfter with
      | some r => if 0 < r then max p.cooldownUntil (now + r) else p.cooldownUntil
      | none => p.cooldownUntil }

/-- The body of `record_success`. -/
def recordSuccess (p : Pacer) : Pacer :=
  if pp.maxRate ≤ p.rate then { p with successes := 0 }
  else if max 1 pp.recoverAfter ≤ p.successes + 1 then
    let rate := min pp.maxRate (p.rate + pp.recoverStep)
    { p with successes := 0, rate := rate, capacity := max 1 rate }
  else { p with successes := p.successes + 1 }

end PacerParams

namespace Pacer

/-- `_refill_locked`. -/
def refill (p : Pacer) (now : ℚ) : Pacer :=
  let elapsed := now - p.last
  if 0 < elapsed then
    { p with tokens := min p.capacity (p.tokens + elapsed * p.rate), last := now }
  else p

def eps : ℚ := 1 / 1000000000

/-- The section of `TokenBucket.acquire` under the lock: the seconds to wait, or `none`
when the tokens are granted. -/
def take (p : Pacer) (now tokens : ℚ) : Option ℚ × Pacer :=
  let p := p.refill now
  if tokens - eps ≤ p.tokens then (none, { p with tokens := max 0 (p.tokens - tokens) })
  else (some ((tokens - p.tokens) / p.rate), p)

end Pacer

/-! ## Steps -/

/-- The atomic steps: reading the rate, the sections under the lock, and the two ends of a
sleep. -/
inductive PacerOp
  | readRate (worker : ℕ)
  | cooldown (worker : ℕ)
  | take (worker : ℕ) (tokens : ℚ)
  | sleep (seconds : ℚ)
  | wake (deadline : ℚ)
  | throttle (retryAfter : Option ℚ)
  | success

/-- What a step returns to its worker. A sleep that begins returns when it may end. -/
@[reducible] def PacerOp.Ret : PacerOp → Type
  | readRate _ => ℚ
  | cooldown _ => ℚ
  | take _ _ => Option ℚ
  | sleep _ => ℚ
  | _ => Unit

/-- What a step returned, and when. -/
structure Timed (α : Type) where
  time : ℚ
  value : α

@[reducible] def pacerSig : Sig where
  Op := PacerOp
  Out o := Timed o.Ret
  Arg := Empty
  Res := Unit

/-- What a step made at the time `now` returns, and the pacer after it. -/
def PacerParams.exec (pp : PacerParams) (p : Pacer) (now : ℚ) : (o : PacerOp) → o.Ret × Pacer
  | .readRate _ => (p.rate, p)
  | .cooldown _ => (p.cooldownUntil - now, p)
  | .take _ tokens => p.take now tokens
  | .sleep seconds => (now + seconds, p)
  | .wake _ => ((), p)
  | .throttle retryAfter => ((), pp.recordThrottle p now retryAfter)
  | .success => ((), pp.recordSuccess p)

/-- The pacer and the clock. -/
structure Paced where
  pacer : Pacer
  now : ℚ

/-- The workers of a pacer under a clock that never goes back. A sleep ends no earlier
than it should. -/
def PacerParams.system (pp : PacerParams) : System pacerSig where
  State := Paced
  perform o s x s' := x.time = s.now ∧ (x.value, s'.pacer) = pp.exec s.pacer s.now o ∧
    s'.now = s.now ∧ ∀ deadline, o = .wake deadline → deadline ≤ s.now
  body := nofun
  env s s' := s'.pacer = s.pacer ∧ s.now ≤ s'.now

/-! ## Methods -/

namespace Pacer

/-- One step of a worker. -/
def step (o : PacerOp) : Prog pacerSig o.Ret := .act o fun x => .pure x.value

/-- `self._sleep`. -/
def nap (seconds : ℚ) : Prog pacerSig Unit := do
  let deadline ← step (.sleep seconds)
  step (.wake deadline)

/-- `while True`, with the seconds slept so far; the body returns how long to sleep before
the next round, or `none` to end. -/
def waiting (attempt : Prog pacerSig (Option ℚ)) : Prog pacerSig ℚ :=
  .loop (fun slept => do
    match ← attempt with
    | none => pure (.inr slept)
    | some wait =>
      nap wait
      pure (.inl (slept + wait))) 0 .pure

/-- The first loop of `AdaptivePacer.acquire`. -/
def awaitCooldown (worker : ℕ) : Prog pacerSig ℚ :=
  waiting do
    let wait ← step (.cooldown worker)
    pure (if wait ≤ 0 then none else some wait)

/-- `TokenBucket.acquire`. -/
def awaitTokens (worker : ℕ) (tokens : ℚ) : Prog pacerSig ℚ := do
  let rate ← step (.readRate worker)
  if rate ≤ 0 then pure 0
  else waiting (step (.take worker tokens))

/-- `AdaptivePacer.acquire`. -/
def acquire (worker : ℕ) (tokens : ℚ) : Prog pacerSig ℚ := do
  let rate ← step (.readRate worker)
  if rate ≤ 0 then pure 0
  else
    let slept ← awaitCooldown worker
    let more ← awaitTokens worker tokens
    pure (slept + more)

/-- A method call of a worker. -/
inductive Call
  | acquire (tokens : ℚ)
  | throttle (retryAfter : Option ℚ)
  | success

def Call.run (worker : ℕ) : Call → Prog pacerSig Unit
  | .acquire tokens => do
    let _ ← Pacer.acquire worker tokens
    pure ()
  | .throttle retryAfter => step (.throttle retryAfter)
  | .success => step .success

/-- A worker that makes these calls one after another. -/
def work (worker : ℕ) : List Call → Prog pacerSig Unit
  | [] => pure ()
  | call :: calls => do
    call.run worker
    work worker calls

/-- Start a worker for each list of calls, numbered from `worker` on. -/
def crew (worker : ℕ) : List (List Call) → Prog pacerSig Unit
  | [] => pure ()
  | calls :: rest => .fork (work worker calls) (crew (worker + 1) rest)

end Pacer
end TurboCopy
