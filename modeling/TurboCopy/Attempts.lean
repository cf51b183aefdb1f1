import TurboCopy.Retry
import TurboCopy.Pacer.Model

/-!
# Attempts of a client call

`execute_with_retry` of `retry.py` and `_exec` of `drive_client.py`: an operation is
attempted until it returns, fails for good or has no attempt left, and the throttles among
its failures are to reach the pacer and the concurrency controller. What the attempts of an
operation return is a function of their number, counted from one. The delays are exact numbers,
except that an integer beyond the range of a float raises when it is converted to one.
-/

namespace TurboCopy

inductive OperationType
  | list
  | copy
  | createFolder
  | logUpdate
  | metadata
deriving DecidableEq

def OperationType.value : OperationType → String
  | list => "list"
  | copy => "copy"
  | createFolder => "create_folder"
  | logUpdate => "log_update"
  | metadata => "metadata"

def ErrorClass.value : ErrorClass → String
  | transient => "transient"
  | fatalQuota => "fatal_quota"
  | fatalPermission => "fatal_permission"
  | fatalOther => "fatal_other"

/-- An exception with the `Retry-After` header of its response. -/
structure HttpError extends ApiError where
  retryAfter : Option String := none
deriving DecidableEq

/-- What `execute_with_retry` raises: the error of an attempt, or an exception of its own between
two attempts. -/
inductive RetryError
  | client (e : HttpError)
  | overflowError
  | sleepError
deriving DecidableEq

/-- The exception as its callers see it. -/
def RetryError.toApiError : RetryError → ApiError
  | client e => e.toApiError
  | overflowError => { text := "int too large to convert to float" }
  | sleepError => { text := "timestamp too large to convert to C _PyTime_t" }

/-- The least integer that rounds to no float. -/
def floatBound : ℤ := 2 ^ 1024 - 2 ^ 970

/-- `float(n)`. -/
def float (n : ℤ) : Except RetryError ℚ :=
  if floatBound ≤ |n| then .error .overflowError else .ok n

/-- The integer in a `Retry-After` header. -/
def headerInt (e : HttpError) : Option ℤ :=
  (truthy e.retryAfter).bind fun value => parseInt (strip value)

/-- `parse_retry_after`, with the function that reads an HTTP date. An `OverflowError` is not among
the exceptions it catches. -/
def parseRetryAfter (parseDate : String → Option ℚ) (now : ℚ) (e : HttpError) :
    Except RetryError (Option ℚ) :=
  match truthy e.retryAfter with
  | none => .ok none
  | some value =>
    match parseInt (strip value) with
    | some n => (float n).map fun x => some (max 0 x)
    | none => .ok ((parseDate value).map fun t => max 0 (t - now))

/-- `full_jitter_delay`, where `uniform x` is `rng.uniform(0, x)`. -/
def fullJitterDelay (attempt : ℕ) (base cap : ℚ) (uniform : ℚ → ℚ) : Except RetryError ℚ :=
  (float (2 ^ (attempt - 1))).map fun power => uniform (min cap (base * power))

structure RetryPolicy where
  maxAttempts : ℤ := 6
  baseDelay : ℚ := 1
  maxDelay : ℚ := 32

structure RetryEvent where
  operation : String
  attempt : ℕ
  maxAttempts : ℤ
  errorClass : String
  reason : String
  status : Option ℤ
  delay : ℚ
  message : String
  retryAfter : Option ℚ

/-- What an operation meets while it is attempted: the reading of HTTP dates, after each attempt
the time and the random number generator, and the delays that `sleep` takes. -/
structure Surroundings where
  parseDate : String → Option ℚ
  now : ℕ → ℚ
  uniform : ℕ → ℚ → ℚ
  sleeps : ℚ → Bool := fun _ => true

/-- The delay after an attempt, with the parsed `Retry-After`. -/
def delayAfter (policy : RetryPolicy) (env : Surroundings) (attempt : ℕ) (e : HttpError) :
    Except RetryError (Option ℚ × ℚ) :=
  match parseRetryAfter env.parseDate (env.now attempt) e with
  | .error x => .error x
  | .ok (some d) => .ok (some d, d)
  | .ok none =>
    (fullJitterDelay attempt policy.baseDelay policy.maxDelay (env.uniform attempt)).map
      fun d => (none, d)

/-- The event of an attempt that is followed by another. -/
def retryEvent (operation : String) (policy : RetryPolicy) (env : Surroundings) (attempt : ℕ)
    (e : HttpError) : Except RetryError RetryEvent :=
  let (reason, message, status) := parseHttpError e.toApiError
  let cls := classifyError e.toApiError
  (delayAfter policy env attempt e).map fun (retryAfter, delay) =>
    { operation := operation, attempt := attempt, maxAttempts := policy.maxAttempts
      errorClass := cls.value, reason := orElse (some reason) cls.value, status := status
      delay := delay, message := String.ofList (message.toList.take 200)
      retryAfter := retryAfter }

/-- What `execute_with_retry` does: an attempt, the report of an event, a sleep. -/
inductive RetryStep
  | called (attempt : ℕ)
  | reported (event : RetryEvent)
  | slept (delay : ℚ)

/-- The number of attempts an operation is allowed. -/
def RetryPolicy.allowed (policy : RetryPolicy) : ℕ := max 1 policy.maxAttempts.toNat

section Retry

variable {α : Type} (operation : String) (policy : RetryPolicy) (env : Surroundings)
  (func : ℕ → Except HttpError α)

/-- A round of the loop of `execute_with_retry`: its steps, and how it leaves the loop, if it
does. -/
def retryRound (attempt : ℕ) : List RetryStep × Option (Except RetryError α) :=
  match func attempt with
  | .ok a => ([.called attempt], some (.ok a))
  | .error e =>
    if classifyError e.toApiError ≠ .transient ∨ policy.maxAttempts ≤ attempt then
      ([.called attempt], some (.error (.client e)))
    else
      match retryEvent operation policy env attempt e with
      | .error x => ([.called attempt], some (.error x))
      | .ok event =>
        if env.sleeps event.delay then
          ([.called attempt, .reported event, .slept event.delay], none)
        else ([.called attempt, .reported event], some (.error .sleepError))

/-- `while True` after some attempts: the steps and the outcome, when the loop ends within
`fuel` rounds. -/
def whileTrue : (fuel attempt : ℕ) → Option (List RetryStep × Except RetryError α)
  | 0, _ => none
  | fuel + 1, done =>
    let r := retryRound operation policy env func (done + 1)
    match r.2 with
    | some x => some (r.1, x)
    | none => (whileTrue fuel (done + 1)).map fun rest => (r.1 ++ rest.1, rest.2)

/-- A round with the last attempt that is allowed leaves the loop. -/
theorem retryRound_allowed {attempt : ℕ} (h : policy.allowed ≤ attempt) :
    (retryRound operation policy env func attempt).2.isSome = true := by
  have hmax : policy.maxAttempts ≤ attempt := by
    unfold RetryPolicy.allowed at h
    omega
  unfold retryRound
  split
  · rfl
  · rw [if_pos (.inr hmax)]
    rfl

theorem whileTrue_isSome (fuel : ℕ) : ∀ done, policy.allowed ≤ done + fuel → 0 < fuel →
    (whileTrue operation policy env func fuel done).isSome = true := by
  induction fuel with
  | zero => exact fun _ _ hpos => absurd hpos (lt_irrefl 0)
  | succ fuel ih =>
    intro done hle _
    unfold whileTrue
    dsimp only
    split
    · rfl
    · rename_i hnone
      rw [Option.isSome_map]
      apply ih (done + 1) (by omega)
      by_contra hzero
      have hlast : policy.allowed ≤ done + 1 := by omega
      have hend := retryRound_allowed operation policy env func hlast
      rw [hnone] at hend
      exact Bool.false_ne_true hend

/-- `execute_with_retry`. The loop has ended when all attempts have been made. -/
def executeWithRetry : List RetryStep × Except RetryError α :=
  (whileTrue operation policy env func policy.allowed 0).get
    (whileTrue_isSome operation policy env func policy.allowed 0 (Nat.le_add_left _ _)
      (le_max_left 1 _))

end Retry

/-! ## The client -/

/-- A `DriveClient`: whether it has a controller and a pacer, and its policy. -/
structure DriveClient where
  controller : Bool
  pacer : Bool
  policy : RetryPolicy := {}

/-- What an operation does to the surroundings of the client: attempts, calls of the pacer
and of the controller, sleeps. -/
inductive ClientStep
  | attempt (attempt : ℕ)
  | pacer (call : Pacer.Call)
  | throttle (op : OperationType)
  | success (op : OperationType)
  | slept (delay : ℚ)

namespace DriveClient

variable (c : DriveClient) (op : OperationType)

def isThrottle (event : RetryEvent) : Bool :=
  event.status = some 429 || event.reason.toLower ∈ rateLimitReasons

/-- `on_event`. -/
def onEvent (event : RetryEvent) : List ClientStep :=
  if !isThrottle event then []
  else (if c.controller then [.throttle op] else []) ++
    if c.pacer then [.pacer (.throttle event.retryAfter)] else []

/-- The steps of the client for a step of `execute_with_retry`; an attempt is `call`. -/
def follow : RetryStep → List ClientStep
  | .called attempt => (if c.pacer then [.pacer (.acquire 1)] else []) ++ [.attempt attempt]
  | .reported event => c.onEvent op event
  | .slept delay => [.slept delay]

/-- What `_exec` does after `execute_with_retry` has returned. -/
def succeed : List ClientStep :=
  (if c.controller then [.success op] else []) ++ if c.pacer then [.pacer .success] else []

/-- `_exec`. -/
def exec {α : Type} (env : Surroundings) (func : ℕ → Except HttpError α) :
    List ClientStep × Except RetryError α :=
  let run := executeWithRetry op.value c.policy env func
  match run.2 with
  | .ok a => (run.1.flatMap (c.follow op) ++ c.succeed op, .ok a)
  | .error e => (run.1.flatMap (c.follow op), .error e)

end DriveClient

/-! ## How the attempts of an operation end -/

section Runs

variable {α : Type} {operation : String} {policy : RetryPolicy} {env : Surroundings}
  {func : ℕ → Except HttpError α} {attempt k : ℕ} {e : HttpError}

/-- The delay after the attempt takes an integer to a float that has none: that of the header,
or the power of two of an attempt beyond the 1024th. -/
def Overflows (env : Surroundings) (attempt : ℕ) (e : HttpError) : Prop :=
  (∃ n, headerInt e = some n ∧ floatBound ≤ |n|) ∨
    parseRetryAfter env.parseDate (env.now attempt) e = .ok none ∧ 1024 < attempt

theorem float_eq_ok {n : ℤ} (h : |n| < floatBound) : float n = .ok n := if_neg (not_le.mpr h)

theorem float_eq_error {n : ℤ} (h : floatBound ≤ |n|) : float n = .error .overflowError := if_pos h

theorem power_lt_floatBound (h : k < 1024) : |(2 : ℤ) ^ k| < floatBound := by
  have hle : (2 : ℤ) ^ k ≤ 2 ^ 1023 := pow_le_pow_right₀ (by norm_num) (by omega)
  rw [abs_of_nonneg (by positivity)]
  calc (2 : ℤ) ^ k ≤ 2 ^ 1023 := hle
    _ < floatBound := by decide +kernel

theorem floatBound_le_power (h : 1024 ≤ k) : floatBound ≤ |(2 : ℤ) ^ k| := by
  have hle : (2 : ℤ) ^ 1024 ≤ 2 ^ k := pow_le_pow_right₀ (by norm_num) h
  rw [abs_of_nonneg (by positivity)]
  calc floatBound ≤ (2 : ℤ) ^ 1024 := by decide +kernel
    _ ≤ 2 ^ k := hle

/-- Only an integer beyond the floats keeps a header from being read. -/
theorem parseRetryAfter_cases (parseDate : String → Option ℚ) (now : ℚ) (e : HttpError) :
    ((∃ n, headerInt e = some n ∧ floatBound ≤ |n|) ∧
      parseRetryAfter parseDate now e = .error .overflowError) ∨
    (¬(∃ n, headerInt e = some n ∧ floatBound ≤ |n|) ∧
      ∃ r, parseRetryAfter parseDate now e = .ok r) := by
  unfold parseRetryAfter
  cases hvalue : truthy e.retryAfter with
  | none =>
    have hheader : headerInt e = none := by simp only [headerInt, hvalue, Option.bind_none]
    exact .inr ⟨by simp [hheader], none, rfl⟩
  | some value =>
    have hheader : headerInt e = parseInt (strip value) := by
      simp only [headerInt, hvalue, Option.bind_some]
    dsimp only
    rw [hheader]
    cases parseInt (strip value) with
    | none => exact .inr ⟨by simp, _, rfl⟩
    | some n =>
      dsimp only
      by_cases hn : floatBound ≤ |n|
      · rw [float_eq_error hn]
        exact .inl ⟨⟨n, rfl, hn⟩, rfl⟩
      · rw [float_eq_ok (not_le.mp hn)]
        refine .inr ⟨?_, _, rfl⟩
        rintro ⟨n', hn', hlarge⟩
        obtain rfl := Option.some.inj hn'
        exact hn hlarge

/-- The delay after an attempt: an overflow, the parsed `Retry-After`, or else a random number. -/
theorem delayAfter_cases (policy : RetryPolicy) (env : Surroundings) (e : HttpError)
    (hattempt : 1 ≤ attempt) :
    (Overflows env attempt e ∧ delayAfter policy env attempt e = .error .overflowError) ∨
    (¬Overflows env attempt e ∧ ∃ r,
      parseRetryAfter env.parseDate (env.now attempt) e = .ok r ∧
        delayAfter policy env attempt e = .ok (r, r.getD
          (env.uniform attempt (min policy.maxDelay (policy.baseDelay * 2 ^ (attempt - 1)))))) := by
  unfold Overflows delayAfter
  rcases parseRetryAfter_cases env.parseDate (env.now attempt) e with
    ⟨hlarge, hparse⟩ | ⟨hsmall, r, hparse⟩
  · exact .inl ⟨.inl hlarge, by rw [hparse]⟩
  · rw [hparse]
    cases r with
    | some d => exact .inr ⟨by simp [hsmall], some d, rfl, rfl⟩
    | none =>
      by_cases hlate : 1024 < attempt
      · have hpower := float_eq_error (floatBound_le_power (k := attempt - 1) (by omega))
        exact .inl ⟨.inr ⟨rfl, hlate⟩, by simp only [fullJitterDelay, hpower, Except.map]⟩
      · have hpower := float_eq_ok (power_lt_floatBound (k := attempt - 1) (by omega))
        refine .inr ⟨by simp [hsmall, hlate], none, rfl, ?_⟩
        simp only [fullJitterDelay, hpower, Except.map, Option.getD_none]
        push_cast
        rfl

/-- The attempt fails with an error after which the operation may be attempted again. -/
def Passes (func : ℕ → Except HttpError α) (attempt : ℕ) : Prop :=
  ∃ e, func attempt = .error e ∧ classifyError e.toApiError = .transient

/-- The attempt fails with an error whose delay overflows. -/
def OverflowsAt (env : Surroundings) (func : ℕ → Except HttpError α) (attempt : ℕ) : Prop :=
  ∃ e, func attempt = .error e ∧ Overflows env attempt e

/-- The attempt fails with an error whose delay `sleep` does not take. -/
def SleeplessAt (policy : RetryPolicy) (env : Surroundings) (func : ℕ → Except HttpError α)
    (attempt : ℕ) : Prop :=
  ∃ e r d, func attempt = .error e ∧ delayAfter policy env attempt e = .ok (r, d) ∧
    env.sleeps d = false

/-- The attempt is followed by another. -/
structure GoesOn (policy : RetryPolicy) (env : Surroundings) (func : ℕ → Except HttpError α)
    (attempt : ℕ) : Prop where
  passes : Passes func attempt
  allowed : attempt < policy.allowed
  fits : ¬OverflowsAt env func attempt
  sleeps : ¬SleeplessAt policy env func attempt

theorem lt_allowed_iff (h : 1 ≤ attempt) :
    attempt < policy.allowed ↔ ¬policy.maxAttempts ≤ (attempt : ℤ) := by
  unfold RetryPolicy.allowed
  omega

/-- The event of an attempt with the error of the attempt. -/
structure Announces (operation : String) (policy : RetryPolicy) (env : Surroundings)
    (func : ℕ → Except HttpError α) (attempt : ℕ) (e : HttpError) (event : RetryEvent) :
    Prop where
  fails : func attempt = .error e
  transient : classifyError e.toApiError = .transient
  allowed : attempt < policy.allowed
  fits : ¬Overflows env attempt e
  eq : retryEvent operation policy env attempt e = .ok event
  parsed : parseRetryAfter env.parseDate (env.now attempt) e = .ok event.retryAfter
  delay : event.delay = event.retryAfter.getD
    (env.uniform attempt (min policy.maxDelay (policy.baseDelay * 2 ^ (attempt - 1))))

/-- How a round of the loop goes: its steps, and how it leaves the loop. -/
inductive Goes (operation : String) (policy : RetryPolicy) (env : Surroundings)
    (func : ℕ → Except HttpError α) (attempt : ℕ) :
    List RetryStep × Option (Except RetryError α) → Prop
  | returns {a : α} (h : func attempt = .ok a) :
    Goes operation policy env func attempt ([.called attempt], some (.ok a))
  | raises {e : HttpError} (h : func attempt = .error e)
    (hends : ¬Passes func attempt ∨ policy.allowed ≤ attempt) :
    Goes operation policy env func attempt ([.called attempt], some (.error (.client e)))
  | overflows (hpasses : Passes func attempt) (hallowed : attempt < policy.allowed)
    (hover : OverflowsAt env func attempt) :
    Goes operation policy env func attempt ([.called attempt], some (.error .overflowError))
  | sleepless {e : HttpError} {event : RetryEvent}
    (h : Announces operation policy env func attempt e event)
    (hsleeps : SleeplessAt policy env func attempt) :
    Goes operation policy env func attempt
      ([.called attempt, .reported event], some (.error .sleepError))
  | again {e : HttpError} {event : RetryEvent}
    (h : Announces operation policy env func attempt e event)
    (hsleeps : ¬SleeplessAt policy env func attempt) :
    Goes operation policy env func attempt
      ([.called attempt, .reported event, .slept event.delay], none)

theorem retryRound_goes (operation : String) (policy : RetryPolicy) (env : Surroundings)
    (func : ℕ → Except HttpError α) (hattempt : 1 ≤ attempt) :
    Goes operation policy env func attempt
      (retryRound operation policy env func attempt) := by
  unfold retryRound
  cases hfunc : func attempt with
  | ok a => exact .returns hfunc
  | error e =>
    dsimp only
    split_ifs with hends
    · refine .raises hfunc ?_
      rcases hends with hcls | hmax
      · left
        rintro ⟨e', he', hcls'⟩
        obtain rfl : e = e' := Except.error.inj (hfunc.symm.trans he')
        exact hcls hcls'
      · right
        by_contra hlt
        exact (lt_allowed_iff hattempt).mp (not_le.mp hlt) hmax
    · push Not at hends
      obtain ⟨hcls, hmax⟩ := hends
      have hallowed : attempt < policy.allowed := (lt_allowed_iff hattempt).mpr (not_le.mpr hmax)
      rcases delayAfter_cases policy env e hattempt with
        ⟨hover, hdelay⟩ | ⟨hfits, r, hparse, hdelay⟩
      · have hevent : retryEvent operation policy env attempt e = .error .overflowError := by
          simp only [retryEvent, hdelay, Except.map]
        rw [hevent]
        exact .overflows ⟨e, hfunc, hcls⟩ hallowed ⟨e, hfunc, hover⟩
      · obtain ⟨event, hevent, hretry, hevdelay⟩ : ∃ event,
            retryEvent operation policy env attempt e = .ok event ∧ event.retryAfter = r ∧
            event.delay = r.getD (env.uniform attempt
              (min policy.maxDelay (policy.baseDelay * 2 ^ (attempt - 1)))) := by
          unfold retryEvent
          rw [hdelay]
          exact ⟨_, rfl, rfl, rfl⟩
        have hannounces : Announces operation policy env func attempt e event :=
          ⟨hfunc, hcls, hallowed, hfits, hevent, hretry ▸ hparse, hretry ▸ hevdelay⟩
        have hsleepless : SleeplessAt policy env func attempt ↔
            env.sleeps event.delay = false := by
          constructor
          · rintro ⟨e', r', d, he', hdelay', hnot⟩
            obtain rfl : e = e' := Except.error.inj (hfunc.symm.trans he')
            obtain ⟨-, rfl⟩ := Prod.mk.inj (Except.ok.inj (hdelay.symm.trans hdelay'))
            rwa [hevdelay]
          · intro hnot
            exact ⟨e, r, _, hfunc, hdelay, hevdelay ▸ hnot⟩
        rw [hevent]
        dsimp only
        split_ifs with hsleeps
        · exact .again hannounces fun h => by simp [hsleepless.mp h] at hsleeps
        · exact .sleepless hannounces (hsleepless.mpr (Bool.eq_false_iff.mpr hsleeps))

/-- An attempt is followed by another, if and only if its round does not leave the loop. -/
theorem retryRound_none_iff (operation : String) (hattempt : 1 ≤ attempt) :
    (retryRound operation policy env func attempt).2 = none ↔ GoesOn policy env func attempt := by
  have hgoes := retryRound_goes operation policy env func hattempt
  generalize retryRound operation policy env func attempt = round at hgoes
  cases hgoes with
  | returns h => exact ⟨nofun, fun hon => by obtain ⟨e, he, -⟩ := hon.passes; simp [h] at he⟩
  | raises h hends =>
    refine ⟨nofun, fun hon => ?_⟩
    rcases hends with hnot | hlast
    · exact absurd hon.passes hnot
    · exact absurd hon.allowed (not_lt.mpr hlast)
  | overflows _ _ hover => exact ⟨nofun, fun hon => absurd hover hon.fits⟩
  | sleepless _ hsleeps => exact ⟨nofun, fun hon => absurd hsleeps hon.sleeps⟩
  | again h hsleeps =>
    refine ⟨fun _ => ⟨⟨_, h.fails, h.transient⟩, h.allowed, ?_, hsleeps⟩, fun _ => rfl⟩
    rintro ⟨e', he', hover⟩
    obtain rfl := Except.error.inj (h.fails.symm.trans he')
    exact h.fits hover

/-- The number of attempts that are made. -/
structure Made (policy : RetryPolicy) (env : Surroundings) (func : ℕ → Except HttpError α)
    (k : ℕ) : Prop where
  pos : 1 ≤ k
  before : ∀ i, 1 ≤ i → i < k → GoesOn policy env func i
  ends : ¬GoesOn policy env func k

theorem exists_made (policy : RetryPolicy) (env : Surroundings)
    (func : ℕ → Except HttpError α) : ∃ k, Made policy env func k := by
  classical
  have hsome : ∃ k, 1 ≤ k ∧ ¬GoesOn policy env func k :=
    ⟨policy.allowed, le_max_left _ _, fun hon => lt_irrefl _ hon.allowed⟩
  obtain ⟨hpos, hends⟩ := Nat.find_spec hsome
  refine ⟨Nat.find hsome, hpos, fun i hi hlt => ?_, hends⟩
  by_contra hnot
  exact Nat.find_min hsome hlt ⟨hi, hnot⟩

theorem Made.unique {k k' : ℕ} (h : Made policy env func k) (h' : Made policy env func k') :
    k = k' := by
  rcases lt_trichotomy k k' with hlt | rfl | hlt
  · exact absurd (h'.before k h.pos hlt) h.ends
  · rfl
  · exact absurd (h.before k' h'.pos hlt) h'.ends

theorem Made.le_allowed (h : Made policy env func k) : k ≤ policy.allowed := by
  by_contra hlt
  have hpos : 1 ≤ policy.allowed := le_max_left _ _
  exact lt_irrefl _ (h.before _ hpos (not_le.mp hlt)).allowed

/-- The steps of some rounds, the first of them with a number. -/
def stepsFrom (operation : String) (policy : RetryPolicy) (env : Surroundings)
    (func : ℕ → Except HttpError α) (attempt n : ℕ) : List RetryStep :=
  (List.range' attempt n).flatMap fun i => (retryRound operation policy env func i).1

/-- Rounds that do not leave the loop only put their steps before the rest. -/
theorem whileTrue_skip (operation : String) (n : ℕ) : ∀ done fuel : ℕ,
    (∀ i, done < i → i ≤ done + n → GoesOn policy env func i) →
    whileTrue operation policy env func (fuel + n) done =
      (whileTrue operation policy env func fuel (done + n)).map fun rest =>
        (stepsFrom operation policy env func (done + 1) n ++ rest.1, rest.2) := by
  induction n with
  | zero =>
    intro done fuel _
    simp [stepsFrom]
  | succ n ih =>
    intro done fuel h
    have hnone : (retryRound operation policy env func (done + 1)).2 = none :=
      (retryRound_none_iff operation (by omega)).mpr (h (done + 1) (by omega) (by omega))
    have hrest := ih (done + 1) fuel fun i hlt hle => h i (by omega) (by omega)
    rw [← Nat.add_assoc]
    conv_lhs => unfold whileTrue
    dsimp only
    rw [hnone]
    dsimp only
    rw [hrest, Option.map_map, Nat.add_right_comm done 1 n, Nat.add_assoc done n 1]
    unfold stepsFrom
    rw [List.range'_succ, List.flatMap_cons]
    simp only [Function.comp_def, List.append_assoc]

/-- The loop ends with the round of the last attempt that is made. -/
theorem whileTrue_made (operation : String) (h : Made policy env func k) :
    ∃ x, (retryRound operation policy env func k).2 = some x ∧ ∀ fuel, k ≤ fuel →
      whileTrue operation policy env func fuel 0 =
        some (stepsFrom operation policy env func 1 k, x) := by
  obtain ⟨n, rfl⟩ : ∃ n, k = n + 1 := ⟨k - 1, (Nat.sub_add_cancel h.pos).symm⟩
  obtain ⟨x, hx⟩ := Option.ne_none_iff_exists'.mp
    fun hnone => h.ends ((retryRound_none_iff operation h.pos).mp hnone)
  refine ⟨x, hx, fun fuel hfuel => ?_⟩
  obtain ⟨extra, rfl⟩ : ∃ extra, fuel = extra + 1 + n := ⟨fuel - (n + 1), by omega⟩
  rw [whileTrue_skip operation n 0 (extra + 1) fun i hlt hle => h.before i hlt (by omega),
    Nat.zero_add, Nat.zero_add, whileTrue, hx]
  unfold stepsFrom
  rw [List.range'_concat, List.flatMap_append, Nat.one_mul, Nat.add_comm 1 n]
  simp

/-- `execute_with_retry` makes its attempts and leaves the loop as the last of them does. -/
theorem executeWithRetry_made (operation : String) (h : Made policy env func k) :
    ∃ x, (retryRound operation policy env func k).2 = some x ∧
      executeWithRetry operation policy env func =
        (stepsFrom operation policy env func 1 k, x) := by
  obtain ⟨x, hx, hruns⟩ := whileTrue_made operation h
  refine ⟨x, hx, ?_⟩
  unfold executeWithRetry
  exact Option.get_of_mem _ (hruns policy.allowed h.le_allowed)

end Runs

/-! ## What reaches the pacer -/

namespace ClientStep

def attempt? : ClientStep → Option ℕ
  | attempt n => some n
  | _ => none

/-- The throttle a step tells the pacer. -/
def pacerThrottle? : ClientStep → Option (Option ℚ)
  | pacer (.throttle retryAfter) => some retryAfter
  | _ => none

def throttle? : ClientStep → Option OperationType
  | throttle op => some op
  | _ => none

def pacerSuccess? : ClientStep → Option Unit
  | pacer .success => some ()
  | _ => none

def success? : ClientStep → Option OperationType
  | success op => some op
  | _ => none

end ClientStep

section Feedback

variable {α : Type}

/-- The `Retry-After` of an attempt that failed with a rate-limit error after which the
operation may be attempted again. -/
def throttledAt (env : Surroundings) (func : ℕ → Except HttpError α) (attempt : ℕ) :
    Option (Option ℚ) :=
  match func attempt with
  | .ok _ => none
  | .error e =>
    if classifyError e.toApiError = .transient ∧ e.isRate = true then
      some (parseRetryAfter env.parseDate (env.now attempt) e).toOption.join
    else none

/-- The steps of an operation tell the pacer and the controller each throttle among its
attempts, and one success if it returns. -/
structure FeedsBack (c : DriveClient) (op : OperationType) (env : Surroundings)
    (func : ℕ → Except HttpError α) (run : List ClientStep × Except RetryError α) : Prop where
  pacer : c.pacer = true → run.1.filterMap ClientStep.pacerThrottle? =
    (run.1.filterMap ClientStep.attempt?).filterMap (throttledAt env func)
  controller : c.controller = true → run.1.filterMap ClientStep.throttle? =
    ((run.1.filterMap ClientStep.attempt?).filterMap (throttledAt env func)).map fun _ => op
  pacerSuccess : c.pacer = true → run.1.filterMap ClientStep.pacerSuccess? =
    if run.2.isOk then [()] else []
  success : c.controller = true → run.1.filterMap ClientStep.success? =
    if run.2.isOk then [op] else []

/-- An attempt whose predecessors are all followed by another fails with a rate-limit error, and
it is the last one allowed or its delay overflows. -/
def LosesThrottle (policy : RetryPolicy) (env : Surroundings) (func : ℕ → Except HttpError α) :
    Prop :=
  ∃ k, 1 ≤ k ∧ (∀ i, 1 ≤ i → i < k → GoesOn policy env func i) ∧
    (throttledAt env func k).isSome = true ∧ (policy.allowed ≤ k ∨ OverflowsAt env func k)

variable {operation : String} {policy : RetryPolicy} {env : Surroundings}
  {func : ℕ → Except HttpError α} {c : DriveClient} {op : OperationType} {attempt k : ℕ}

/-- The event of an attempt tells a throttle by the reason or, when the error has none, by
the name of its class, which is no rate-limit reason. -/
theorem Announces.isThrottle {e : HttpError} {event : RetryEvent}
    (h : Announces operation policy env func attempt e event) :
    DriveClient.isThrottle event = e.isRate := by
  have hevent := h.eq
  unfold retryEvent at hevent
  cases hdelay : delayAfter policy env attempt e with
  | error x => simp [hdelay, Except.map] at hevent
  | ok d =>
    simp only [hdelay, Except.map, Except.ok.injEq] at hevent
    subst hevent
    unfold DriveClient.isThrottle ApiError.isRate
    obtain ⟨reason, message, status⟩ := parseHttpError e.toApiError
    simp only [h.transient]
    by_cases hreason : reason = ""
    · subst hreason
      have hempty : "".toLower ∉ rateLimitReasons := by decide +kernel
      have hclass : (orElse (some "") ErrorClass.transient.value).toLower ∉ rateLimitReasons := by
        decide +kernel
      simp only [hempty, hclass]
    · simp only [orElse_some hreason]

/-- The steps make `attempts` and tell `throttles`, and no success. -/
structure Tells (c : DriveClient) (op : OperationType) (throttles : List (Option ℚ))
    (attempts : List ℕ) (steps : List ClientStep) : Prop where
  attempts : steps.filterMap ClientStep.attempt? = attempts
  pacer : c.pacer = true → steps.filterMap ClientStep.pacerThrottle? = throttles
  controller : c.controller = true →
    steps.filterMap ClientStep.throttle? = throttles.map fun _ => op
  pacerSuccess : steps.filterMap ClientStep.pacerSuccess? = []
  success : steps.filterMap ClientStep.success? = []

theorem Tells.append {throttles throttles' : List (Option ℚ)} {attempts attempts' : List ℕ}
    {steps steps' : List ClientStep} (h : Tells c op throttles attempts steps)
    (h' : Tells c op throttles' attempts' steps') :
    Tells c op (throttles ++ throttles') (attempts ++ attempts') (steps ++ steps') where
  attempts := by rw [List.filterMap_append, h.attempts, h'.attempts]
  pacer hon := by rw [List.filterMap_append, h.pacer hon, h'.pacer hon]
  controller hon := by
    rw [List.filterMap_append, h.controller hon, h'.controller hon, List.map_append]
  pacerSuccess := by rw [List.filterMap_append, h.pacerSuccess, h'.pacerSuccess, List.append_nil]
  success := by rw [List.filterMap_append, h.success, h'.success, List.append_nil]

theorem passes_of_throttledAt (h : (throttledAt env func attempt).isSome = true) :
    Passes func attempt := by
  unfold throttledAt at h
  split at h
  · exact nomatch h
  · rename_i e he
    split_ifs at h with hcls
    · exact ⟨e, he, hcls.1⟩
    · exact nomatch h

/-- An attempt alone tells nothing. -/
theorem tells_called (c : DriveClient) (op : OperationType) (attempt : ℕ) :
    Tells c op [] [attempt] (c.follow op (.called attempt)) := by
  simp only [DriveClient.follow]
  cases hp : c.pacer <;> exact ⟨rfl, fun _ => rfl, fun _ => rfl, rfl, rfl⟩

/-- An event tells the throttle of its attempt. -/
theorem Announces.tells {e : HttpError} {event : RetryEvent} (c : DriveClient)
    (op : OperationType) (h : Announces operation policy env func attempt e event) :
    Tells c op (throttledAt env func attempt).toList [] (c.follow op (.reported event)) := by
  have hthrottled : throttledAt env func attempt =
      if e.isRate = true then some event.retryAfter else none := by
    simp only [throttledAt, h.fails, h.transient, true_and, h.parsed, Except.toOption]
    rfl
  rw [hthrottled]
  simp only [DriveClient.follow, DriveClient.onEvent, h.isThrottle]
  cases e.isRate <;> cases hp : c.pacer <;> cases hc : c.controller <;>
    refine ⟨rfl, fun hon => ?_, fun hon => ?_, rfl, rfl⟩ <;>
      first | rfl | exact nomatch hp.symm.trans hon | exact nomatch hc.symm.trans hon

theorem tells_slept (c : DriveClient) (op : OperationType) (d : ℚ) :
    Tells c op [] [] (c.follow op (.slept d)) :=
  ⟨rfl, fun _ => rfl, fun _ => rfl, rfl, rfl⟩

theorem Announces.not_overflowsAt {e : HttpError} {event : RetryEvent}
    (h : Announces operation policy env func attempt e event) : ¬OverflowsAt env func attempt := by
  rintro ⟨e', he', hover⟩
  obtain rfl := Except.error.inj (h.fails.symm.trans he')
  exact h.fits hover

/-- A round tells the throttle of its attempt, unless the attempt is the last one allowed or its
delay overflows. Then it tells nothing. -/
theorem tells_round (c : DriveClient) (op : OperationType) (operation : String)
    (policy : RetryPolicy) (env : Surroundings) (func : ℕ → Except HttpError α)
    (hattempt : 1 ≤ attempt) :
    ∃ throttles, Tells c op throttles [attempt]
        ((retryRound operation policy env func attempt).1.flatMap (c.follow op)) ∧
      (policy.allowed ≤ attempt ∨ OverflowsAt env func attempt → throttles = []) ∧
      (¬(policy.allowed ≤ attempt ∨ OverflowsAt env func attempt) →
        throttles = (throttledAt env func attempt).toList) := by
  have hcalled := tells_called c op attempt
  have hgoes := retryRound_goes operation policy env func hattempt
  generalize retryRound operation policy env func attempt = round at hgoes
  cases hgoes with
  | returns h =>
    refine ⟨[], ?_, fun _ => rfl, fun _ => ?_⟩
    · rwa [List.flatMap_singleton]
    · simp only [throttledAt, h, Option.toList_none]
  | raises h hends =>
    refine ⟨[], ?_, fun _ => rfl, fun hkept => ?_⟩
    · rwa [List.flatMap_singleton]
    · rcases hends with hnot | hlast
      · have hnone : throttledAt env func attempt = none := by
          by_contra hsome
          exact hnot (passes_of_throttledAt (Option.isSome_iff_ne_none.mpr hsome))
        rw [hnone, Option.toList_none]
      · exact absurd (.inl hlast) hkept
  | overflows _ _ hover =>
    refine ⟨[], ?_, fun _ => rfl, fun hkept => absurd (.inr hover) hkept⟩
    rwa [List.flatMap_singleton]
  | sleepless h _ =>
    refine ⟨(throttledAt env func attempt).toList, ?_, fun hlost => ?_, fun _ => rfl⟩
    · have htold := hcalled.append (h.tells c op)
      simpa only [List.flatMap_cons, List.flatMap_nil, List.append_nil, List.nil_append] using htold
    · exact absurd hlost (by simp [h.not_overflowsAt, h.allowed])
  | @again e event h _ =>
    refine ⟨(throttledAt env func attempt).toList, ?_, fun hlost => ?_, fun _ => rfl⟩
    · have htold := (hcalled.append (h.tells c op)).append (tells_slept c op event.delay)
      simpa only [List.flatMap_cons, List.flatMap_nil, List.append_nil, List.nil_append,
        List.append_assoc] using htold
    · exact absurd hlost (by simp [h.not_overflowsAt, h.allowed])

theorem GoesOn.kept (h : GoesOn policy env func attempt) :
    ¬(policy.allowed ≤ attempt ∨ OverflowsAt env func attempt) := by
  rintro (hlast | hover)
  · exact absurd h.allowed (not_lt.mpr hlast)
  · exact h.fits hover

/-- The rounds that do not leave the loop tell the throttles of their attempts. -/
theorem tells_stepsFrom (c : DriveClient) (op : OperationType) (operation : String) (n : ℕ) :
    ∀ attempt, 1 ≤ attempt →
    (∀ i, attempt ≤ i → i < attempt + n → GoesOn policy env func i) →
    Tells c op ((List.range' attempt n).filterMap (throttledAt env func))
      (List.range' attempt n)
      ((stepsFrom operation policy env func attempt n).flatMap (c.follow op)) := by
  induction n with
  | zero => exact fun attempt _ _ => ⟨rfl, fun _ => rfl, fun _ => rfl, rfl, rfl⟩
  | succ n ih =>
    intro attempt hattempt h
    obtain ⟨throttles, htold, -, hkept⟩ := tells_round c op operation policy env func hattempt
    obtain rfl := hkept (h attempt le_rfl (by omega)).kept
    have hrest := ih (attempt + 1) (by omega) fun i hle hlt => h i (by omega) (by omega)
    have happend := htold.append hrest
    have hfilter : (attempt :: List.range' (attempt + 1) n).filterMap (throttledAt env func) =
        (throttledAt env func attempt).toList ++
          (List.range' (attempt + 1) n).filterMap (throttledAt env func) := by
      rw [List.filterMap_cons]
      cases throttledAt env func attempt <;> rfl
    unfold stepsFrom at happend ⊢
    rw [List.range'_succ, List.flatMap_cons, List.flatMap_append, hfilter]
    exact happend

/-- What `_exec` does at the end tells the success and nothing else. -/
theorem filterMap_succeed (c : DriveClient) (op : OperationType) :
    (c.succeed op).filterMap ClientStep.attempt? = [] ∧
      (c.succeed op).filterMap ClientStep.pacerThrottle? = [] ∧
      (c.succeed op).filterMap ClientStep.throttle? = [] ∧
      (c.pacer = true → (c.succeed op).filterMap ClientStep.pacerSuccess? = [()]) ∧
      (c.controller = true → (c.succeed op).filterMap ClientStep.success? = [op]) := by
  unfold DriveClient.succeed
  cases c.controller <;> cases c.pacer <;> simp [List.filterMap_cons, ClientStep.attempt?,
    ClientStep.pacerThrottle?, ClientStep.throttle?, ClientStep.pacerSuccess?, ClientStep.success?]

/-- The end of an operation. -/
def DriveClient.finish (c : DriveClient) (op : OperationType) (steps : List ClientStep) :
    Except RetryError α → List ClientStep × Except RetryError α
  | .ok a => (steps ++ c.succeed op, .ok a)
  | .error e => (steps, .error e)

theorem finish_attempts {attempts : List ℕ} {throttles : List (Option ℚ)}
    {steps : List ClientStep} (h : Tells c op throttles attempts steps) (x : Except RetryError α) :
    (c.finish op steps x).1.filterMap ClientStep.attempt? = attempts := by
  cases x <;> simp [DriveClient.finish, h.attempts, filterMap_succeed c op]

/-- The client feeds back all it should, if and only if the steps tell all throttles of the
attempts. -/
theorem feedsBack_iff {attempts : List ℕ} {throttles : List (Option ℚ)} {steps : List ClientStep}
    (h : Tells c op throttles attempts steps)
    (hbegins : throttles <+: attempts.filterMap (throttledAt env func)) (x : Except RetryError α) :
    FeedsBack c op env func (c.finish op steps x) ↔
      (c.pacer = true ∨ c.controller = true →
        throttles = attempts.filterMap (throttledAt env func)) := by
  obtain ⟨-, hpacer, hthrottle, hpacerSuccess, hsuccess⟩ := filterMap_succeed c op
  have hattempts := finish_attempts h x
  have hpacers (hon : c.pacer = true) :
      (c.finish op steps x).1.filterMap ClientStep.pacerThrottle? = throttles := by
    cases x <;> simp [DriveClient.finish, h.pacer hon, hpacer]
  have hcontrollers (hon : c.controller = true) :
      (c.finish op steps x).1.filterMap ClientStep.throttle? = throttles.map fun _ => op := by
    cases x <;> simp [DriveClient.finish, h.controller hon, hthrottle]
  constructor
  · rintro hfeeds (hon | hon)
    · rw [← hpacers hon, hfeeds.pacer hon, hattempts]
    · have hmap := hfeeds.controller hon
      rw [hattempts, hcontrollers hon] at hmap
      apply hbegins.eq_of_length
      simpa only [List.length_map] using congrArg List.length hmap
  · intro hall
    constructor
    · intro hon
      rw [hpacers hon, hattempts, hall (.inl hon)]
    · intro hon
      rw [hcontrollers hon, hattempts, hall (.inr hon)]
    · intro hon
      cases x <;> simp [DriveClient.finish, Except.isOk, Except.toBool, h.pacerSuccess,
        hpacerSuccess hon]
    · intro hon
      cases x <;> simp [DriveClient.finish, Except.isOk, Except.toBool, h.success, hsuccess hon]

/-- An operation loses a throttle if the last of its attempts does. -/
theorem Made.losesThrottle_iff (h : Made policy env func k) :
    LosesThrottle policy env func ↔ (throttledAt env func k).isSome = true ∧
      (policy.allowed ≤ k ∨ OverflowsAt env func k) := by
  constructor
  · rintro ⟨k', hpos, hbefore, hsome, hlost⟩
    obtain rfl : k' = k := Made.unique ⟨hpos, hbefore, fun hon => hon.kept hlost⟩ h
    exact ⟨hsome, hlost⟩
  · rintro ⟨hsome, hlost⟩
    exact ⟨k, h.pos, h.before, hsome, hlost⟩

theorem stepsFrom_succ (operation : String) (policy : RetryPolicy) (env : Surroundings)
    (func : ℕ → Except HttpError α) (n : ℕ) :
    stepsFrom operation policy env func 1 (n + 1) = stepsFrom operation policy env func 1 n ++
      (retryRound operation policy env func (n + 1)).1 := by
  unfold stepsFrom
  rw [List.range'_concat, List.flatMap_append, Nat.one_mul, Nat.add_comm 1 n,
    List.flatMap_singleton]

/-- The attempts of an operation and what the client tells of them before it returns. -/
theorem exec_spec (c : DriveClient) (op : OperationType) (h : Made c.policy env func k) :
    ∃ throttles steps x, Tells c op throttles (List.range' 1 k) steps ∧
      throttles <+: (List.range' 1 k).filterMap (throttledAt env func) ∧
      (throttles = (List.range' 1 k).filterMap (throttledAt env func) ↔
        ¬LosesThrottle c.policy env func) ∧
      (retryRound op.value c.policy env func k).2 = some x ∧
      c.exec op env func = c.finish op steps x := by
  obtain ⟨x, hx, hrun⟩ := executeWithRetry_made op.value h
  obtain ⟨n, rfl⟩ : ∃ n, k = n + 1 := ⟨k - 1, (Nat.sub_add_cancel h.pos).symm⟩
  obtain ⟨last, htold, hlost, hkept⟩ := tells_round c op op.value c.policy env func h.pos
  have hbefore : Tells c op ((List.range' 1 n).filterMap (throttledAt env func))
      (List.range' 1 n) ((stepsFrom op.value c.policy env func 1 n).flatMap (c.follow op)) :=
    tells_stepsFrom c op op.value n 1 le_rfl fun i hle hlt => h.before i hle (by omega)
  have hrange : List.range' 1 (n + 1) = List.range' 1 n ++ [n + 1] := by
    rw [List.range'_concat, Nat.one_mul, Nat.add_comm 1 n]
  have hfilter : (List.range' 1 (n + 1)).filterMap (throttledAt env func) =
      (List.range' 1 n).filterMap (throttledAt env func) ++
        (throttledAt env func (n + 1)).toList := by
    rw [hrange, List.filterMap_append, List.filterMap_cons]
    cases throttledAt env func (n + 1) <;> rfl
  refine ⟨_, _, x, hrange ▸ hbefore.append htold, ?_, ?_, hx, ?_⟩
  · rw [hfilter, List.prefix_append_right_inj]
    by_cases hends : c.policy.allowed ≤ n + 1 ∨ OverflowsAt env func (n + 1)
    · rw [hlost hends]
      exact List.nil_prefix
    · rw [hkept hends]
  · rw [hfilter, List.append_cancel_left_eq, h.losesThrottle_iff]
    by_cases hends : c.policy.allowed ≤ n + 1 ∨ OverflowsAt env func (n + 1)
    · rw [hlost hends]
      cases throttledAt env func (n + 1) <;> simp [hends]
    · simp [hkept hends, hends]
  · unfold DriveClient.exec
    rw [hrun, stepsFrom_succ]
    dsimp only
    rw [List.flatMap_append]
    cases x <;> rfl

theorem exec_made (c : DriveClient) (op : OperationType) (h : Made c.policy env func k) :
    (c.exec op env func).1.filterMap ClientStep.attempt? = List.range' 1 k ∧
      (retryRound op.value c.policy env func k).2 = some (c.exec op env func).2 := by
  obtain ⟨throttles, steps, x, htells, -, -, hx, hexec⟩ := exec_spec c op h
  rw [hexec]
  refine ⟨finish_attempts htells x, ?_⟩
  cases x <;> exact hx

/-- The client tells the pacer and the controller what they need to know about an operation,
if it has one of them, if and only if the operation does not lose a throttle. -/
theorem throttles_fed_back_iff (c : DriveClient) (op : OperationType) (env : Surroundings)
    (func : ℕ → Except HttpError α) : FeedsBack c op env func (c.exec op env func) ↔
      (c.pacer = true ∨ c.controller = true → ¬LosesThrottle c.policy env func) := by
  obtain ⟨k, hmade⟩ := exists_made c.policy env func
  obtain ⟨throttles, steps, x, htells, hbegins, hall, -, hexec⟩ := exec_spec c op hmade
  rw [hexec, feedsBack_iff htells hbegins, hall]

end Feedback

/-! ## An operation that gives up on a throttle -/

/-- Every attempt is answered with status 429. -/
def tooMany : ℕ → Except HttpError Unit := fun _ => .error { text := "", status := some 429 }

def calm : Surroundings where
  parseDate _ := none
  now _ := 0
  uniform _ _ := 0

/-- Six attempts are throttled, and the pacer is told of five. -/
theorem last_throttle_lost :
    let run := DriveClient.exec ⟨true, true, {}⟩ .copy calm tooMany
    run.1.filterMap ClientStep.attempt? = [1, 2, 3, 4, 5, 6] ∧
      (∀ n, throttledAt calm tooMany n = some none) ∧
      run.1.filterMap ClientStep.pacerThrottle? = [none, none, none, none, none] ∧
      ¬FeedsBack ⟨true, true, {}⟩ .copy calm tooMany run := by
  intro run
  have hattempts : run.1.filterMap ClientStep.attempt? = [1, 2, 3, 4, 5, 6] := by decide +kernel
  have hthrottled (n : ℕ) : throttledAt calm tooMany n = some none := by
    have hone : throttledAt calm tooMany 1 = some none := by decide +kernel
    exact hone
  have htold : run.1.filterMap ClientStep.pacerThrottle? = [none, none, none, none, none] := by
    decide +kernel
  refine ⟨hattempts, hthrottled, htold, fun hfeeds => ?_⟩
  have hpacer := hfeeds.pacer rfl
  rw [hattempts, htold] at hpacer
  simp [hthrottled] at hpacer

end TurboCopy
