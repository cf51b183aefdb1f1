import TurboCopy.Attempts

/-!
# The retry loop

What `execute_with_retry` is documented to do: as many attempts as it takes, with an event and a
delay between one and the next, and the outcome of the last. An exception of the loop itself leaves
it in place of the error of an attempt; where there is none, the loop does what is documented.
-/

namespace TurboCopy

namespace RetryStep

def called? : RetryStep → Option ℕ
  | called attempt => some attempt
  | _ => none

def reported? : RetryStep → Option RetryEvent
  | reported event => some event
  | _ => none

def slept? : RetryStep → Option ℚ
  | slept delay => some delay
  | _ => none

end RetryStep

/-- The random number generator draws from the interval it is given. -/
def Surroundings.Uniform (env : Surroundings) : Prop :=
  ∀ i x, 0 ≤ x → 0 ≤ env.uniform i x ∧ env.uniform i x ≤ x

section Spec

variable {α : Type} (operation : String) (policy : RetryPolicy) (env : Surroundings)
  (func : ℕ → Except HttpError α)

/-- `execute_with_retry` ends with the steps and the outcome. -/
def Executes (run : List RetryStep × Except RetryError α) : Prop :=
  ∃ rounds, ∀ fuel, rounds ≤ fuel → whileTrue operation policy env func fuel 0 = some run

/-- The number of the last attempt: the first one that does not pass or is the last allowed. -/
structure Last (k : ℕ) : Prop where
  pos : 1 ≤ k
  passes : ∀ i, 1 ≤ i → i < k → Passes func i
  allowed : ∀ i, 1 ≤ i → i < k → i < policy.allowed
  ends : ¬Passes func k ∨ policy.allowed ≤ k

/-- A delay is the parsed `Retry-After`, or else it is within the backoff of the attempt. -/
def DelayOk (attempt : ℕ) (e : HttpError) (d : ℚ) : Prop :=
  match parseRetryAfter env.parseDate (env.now attempt) e with
  | .ok (some retryAfter) => d = retryAfter
  | .ok none => 0 ≤ d ∧ d ≤ min policy.maxDelay (policy.baseDelay * 2 ^ (attempt - 1))
  | .error _ => False

/-- The run makes the attempts up to the last, with an event and a delay between one and the
next, and its outcome is that of the last. -/
structure Obeys (run : List RetryStep × Except RetryError α) (k : ℕ) : Prop where
  attempts : run.1.filterMap RetryStep.called? = List.range' 1 k
  outcome : run.2 = (func k).mapError RetryError.client
  events : (run.1.filterMap RetryStep.reported?).length = k - 1
  sleeps : (run.1.filterMap RetryStep.slept?).length = k - 1
  delays : ∀ i, 1 ≤ i → i < k → ∃ e d, func i = .error e ∧
    (run.1.filterMap RetryStep.slept?)[i - 1]? = some d ∧ DelayOk policy env i e d

variable {operation policy env func} {i k : ℕ}

theorem exists_last (policy : RetryPolicy) (func : ℕ → Except HttpError α) :
    ∃ k, Last policy func k := by
  classical
  have hsome : ∃ k, 1 ≤ k ∧ (¬Passes func k ∨ policy.allowed ≤ k) :=
    ⟨policy.allowed, le_max_left _ _, .inr le_rfl⟩
  obtain ⟨hpos, hends⟩ := Nat.find_spec hsome
  have hbefore : ∀ i, 1 ≤ i → i < Nat.find hsome → Passes func i ∧ i < policy.allowed := by
    intro i hi hlt
    have hnot := Nat.find_min hsome hlt
    push Not at hnot
    exact hnot hi
  exact ⟨Nat.find hsome, hpos, fun i hi hlt => (hbefore i hi hlt).1,
    fun i hi hlt => (hbefore i hi hlt).2, hends⟩

theorem Last.unique {k' : ℕ} (h : Last policy func k) (h' : Last policy func k') : k = k' := by
  rcases lt_trichotomy k k' with hlt | rfl | hlt
  · rcases h.ends with hend | hend
    · exact absurd (h'.passes k h.pos hlt) hend
    · exact absurd (h'.allowed k h.pos hlt) (by omega)
  · rfl
  · rcases h'.ends with hend | hend
    · exact absurd (h.passes k' h'.pos hlt) hend
    · exact absurd (h.allowed k' h'.pos hlt) (by omega)

/-- No attempt before the last makes the loop raise an exception of its own, if and only if all
attempts up to the last are made. -/
theorem Last.made_iff (h : Last policy func k) : Made policy env func k ↔
    ∀ i, 1 ≤ i → i < k → ¬OverflowsAt env func i ∧ ¬SleeplessAt policy env func i := by
  constructor
  · intro hmade i hi hlt
    have hon := hmade.before i hi hlt
    exact ⟨hon.fits, hon.sleeps⟩
  · intro hquiet
    refine ⟨h.pos, fun i hi hlt => ?_, fun hon => ?_⟩
    · obtain ⟨hfits, hsleeps⟩ := hquiet i hi hlt
      exact ⟨h.passes i hi hlt, h.allowed i hi hlt, hfits, hsleeps⟩
    · rcases h.ends with hnot | hlast
      · exact hnot hon.passes
      · exact absurd hon.allowed (not_lt.mpr hlast)

theorem retryRound_called (operation : String) (policy : RetryPolicy) (env : Surroundings)
    (func : ℕ → Except HttpError α) (hi : 1 ≤ i) :
    (retryRound operation policy env func i).1.filterMap RetryStep.called? = [i] := by
  have hgoes := retryRound_goes operation policy env func hi
  generalize retryRound operation policy env func i = round at hgoes
  cases hgoes <;> rfl

theorem stepsFrom_called (operation : String) (n : ℕ) : ∀ first, 1 ≤ first →
    (stepsFrom operation policy env func first n).filterMap RetryStep.called? =
      List.range' first n := by
  induction n with
  | zero => exact fun _ _ => rfl
  | succ n ih =>
    intro first hpos
    have hrest := ih (first + 1) (by omega)
    unfold stepsFrom at hrest ⊢
    rw [List.range'_succ, List.flatMap_cons, List.filterMap_append, hrest,
      retryRound_called operation policy env func hpos]
    rfl

/-- The round of the last attempt. -/
theorem Last.round (operation : String) (h : Last policy func k) :
    retryRound operation policy env func k =
      ([.called k], some ((func k).mapError RetryError.client)) := by
  have hgoes := retryRound_goes operation policy env func h.pos
  generalize retryRound operation policy env func k = round at hgoes
  have hnever : Passes func k → ¬k < policy.allowed := fun hpasses hlt => by
    rcases h.ends with hnot | hlast
    · exact hnot hpasses
    · exact absurd hlt (not_lt.mpr hlast)
  cases hgoes with
  | returns hk => rw [hk]; rfl
  | raises hk _ => rw [hk]; rfl
  | overflows hpasses hlt _ => exact absurd hlt (hnever hpasses)
  | sleepless hk _ => exact absurd hk.allowed (hnever ⟨_, hk.fails, hk.transient⟩)
  | again hk _ => exact absurd hk.allowed (hnever ⟨_, hk.fails, hk.transient⟩)

theorem retryRound_goesOn (operation : String) (hi : 1 ≤ i) (h : GoesOn policy env func i) :
    ∃ e event, Announces operation policy env func i e event ∧
      (retryRound operation policy env func i).1 =
        [.called i, .reported event, .slept event.delay] := by
  have hnone := (retryRound_none_iff operation hi).mpr h
  have hgoes := retryRound_goes operation policy env func hi
  generalize retryRound operation policy env func i = round at hgoes hnone
  cases hgoes with
  | again hannounces _ => exact ⟨_, _, hannounces, rfl⟩
  | _ => exact nomatch hnone

/-- The rounds that are followed by another report an event each, and sleep for its delay. -/
theorem stepsFrom_goesOn (operation : String) (n : ℕ) : ∀ first, 1 ≤ first →
    (∀ i, first ≤ i → i < first + n → GoesOn policy env func i) →
    ∃ events,
      (stepsFrom operation policy env func first n).filterMap RetryStep.reported? = events ∧
      (stepsFrom operation policy env func first n).filterMap RetryStep.slept? =
        events.map RetryEvent.delay ∧
      List.Forall₂ (fun i event => ∃ e, Announces operation policy env func i e event)
        (List.range' first n) events := by
  induction n with
  | zero => exact fun _ _ _ => ⟨[], rfl, rfl, .nil⟩
  | succ n ih =>
    intro first hpos h
    obtain ⟨e, event, hannounces, hround⟩ :=
      retryRound_goesOn operation hpos (h first le_rfl (by omega))
    obtain ⟨events, hreported, hslept, hall⟩ :=
      ih (first + 1) (by omega) fun i hle hlt => h i (by omega) (by omega)
    unfold stepsFrom at hreported hslept ⊢
    rw [List.range'_succ, List.flatMap_cons, hround, List.filterMap_append,
      List.filterMap_append, hreported, hslept]
    exact ⟨event :: events, rfl, rfl, .cons ⟨e, hannounces⟩ hall⟩

theorem Announces.delayOk {e : HttpError} {event : RetryEvent} (huniform : env.Uniform)
    (hbase : 0 ≤ policy.baseDelay) (hcap : 0 ≤ policy.maxDelay)
    (h : Announces operation policy env func i e event) : DelayOk policy env i e event.delay := by
  unfold DelayOk
  rw [h.parsed, h.delay]
  cases event.retryAfter with
  | some r => rfl
  | none => exact huniform i _ (le_min hcap (by positivity))

/-- The run that makes all attempts up to the last. -/
theorem Last.obeys (huniform : env.Uniform) (hbase : 0 ≤ policy.baseDelay)
    (hcap : 0 ≤ policy.maxDelay) (h : Last policy func k) (hmade : Made policy env func k) :
    Obeys policy env func (executeWithRetry operation policy env func) k := by
  obtain ⟨x, hx, hrun⟩ := executeWithRetry_made operation hmade
  obtain ⟨n, rfl⟩ : ∃ n, k = n + 1 := ⟨k - 1, (Nat.sub_add_cancel h.pos).symm⟩
  obtain ⟨events, hreported, hslept, hall⟩ :=
    stepsFrom_goesOn operation n 1 le_rfl fun i hle hlt => hmade.before i hle (by omega)
  have hlength : events.length = n := by rw [← hall.length_eq, List.length_range']
  have hsteps : stepsFrom operation policy env func 1 (n + 1) =
      stepsFrom operation policy env func 1 n ++ [.called (n + 1)] := by
    unfold stepsFrom
    rw [List.range'_concat, List.flatMap_append, Nat.one_mul, Nat.add_comm 1 n,
      List.flatMap_singleton, h.round operation]
  rw [h.round operation] at hx
  have hannounces : (stepsFrom operation policy env func 1 (n + 1)).filterMap RetryStep.reported? =
      events := by
    rw [hsteps, List.filterMap_append, hreported]
    exact List.append_nil _
  have hsleeps : (stepsFrom operation policy env func 1 (n + 1)).filterMap RetryStep.slept? =
      events.map RetryEvent.delay := by
    rw [hsteps, List.filterMap_append, hslept]
    exact List.append_nil _
  rw [hrun]
  constructor
  · exact stepsFrom_called operation (n + 1) 1 le_rfl
  · exact (Option.some.inj hx).symm
  · rw [hannounces, hlength, Nat.add_sub_cancel]
  · rw [hsleeps, List.length_map, hlength, Nat.add_sub_cancel]
  · intro i hi hlt
    have hlt' : i - 1 < events.length := by omega
    obtain ⟨e, hevent⟩ := (List.forall₂_iff_get.mp hall).2 (i - 1)
      (by rw [List.length_range']; omega) hlt'
    have hnum : (List.range' 1 n).get ⟨i - 1, by rw [List.length_range']; omega⟩ = i := by
      simp only [List.get_eq_getElem, List.getElem_range']
      omega
    rw [hnum] at hevent
    refine ⟨e, _, hevent.fails, ?_, hevent.delayOk huniform hbase hcap⟩
    rw [hsleeps, List.getElem?_map, List.getElem?_eq_getElem hlt']
    rfl

theorem executeWithRetry_called (operation : String) (h : Made policy env func k) :
    (executeWithRetry operation policy env func).1.filterMap RetryStep.called? =
      List.range' 1 k := by
  obtain ⟨x, -, hrun⟩ := executeWithRetry_made operation h
  rw [hrun]
  exact stepsFrom_called operation k 1 le_rfl

theorem Obeys.made (h : Obeys policy env func (executeWithRetry operation policy env func) k) :
    Made policy env func k := by
  obtain ⟨k', hmade⟩ := exists_made policy env func
  have hlists : List.range' 1 k = List.range' 1 k' :=
    h.attempts.symm.trans (executeWithRetry_called operation hmade)
  have hlength := congrArg List.length hlists
  rw [List.length_range', List.length_range'] at hlength
  rwa [hlength]

theorem executes_iff {run : List RetryStep × Except RetryError α} :
    Executes operation policy env func run ↔ run = executeWithRetry operation policy env func := by
  obtain ⟨k, hmade⟩ := exists_made policy env func
  obtain ⟨x, hx, hruns⟩ := whileTrue_made operation hmade
  obtain ⟨x', hx', hrun⟩ := executeWithRetry_made operation hmade
  obtain rfl : x = x' := Option.some.inj (hx.symm.trans hx')
  rw [hrun]
  constructor
  · rintro ⟨rounds, hexecutes⟩
    exact Option.some.inj ((hexecutes (max rounds k) (le_max_left _ _)).symm.trans
      (hruns _ (le_max_right _ _)))
  · rintro rfl
    exact ⟨k, hruns⟩

/-- The loop ends and does what is documented, if and only if no delay between two of its
attempts overflows or is refused. -/
theorem executeWithRetry_meets_iff (operation : String) (policy : RetryPolicy)
    (env : Surroundings) (func : ℕ → Except HttpError α) (huniform : env.Uniform)
    (hbase : 0 ≤ policy.baseDelay) (hcap : 0 ≤ policy.maxDelay) :
    (∃ run k, Executes operation policy env func run ∧ Last policy func k ∧
      Obeys policy env func run k) ↔
      ∀ k, Last policy func k → ∀ i, 1 ≤ i → i < k →
        ¬OverflowsAt env func i ∧ ¬SleeplessAt policy env func i := by
  obtain ⟨k, hlast⟩ := exists_last policy func
  constructor
  · rintro ⟨run, k', hexecutes, hlast', hobeys⟩ k'' hlast''
    obtain rfl := hlast'.unique hlast''
    obtain rfl := executes_iff.mp hexecutes
    exact hlast'.made_iff.mp hobeys.made
  · intro hquiet
    exact ⟨_, k, executes_iff.mpr rfl, hlast,
      hlast.obeys huniform hbase hcap (hlast.made_iff.mpr (hquiet k hlast))⟩

end Spec

/-- A generator that draws the middle of the interval. -/
def middle : Surroundings where
  parseDate _ := none
  now _ := 0
  uniform _ x := x / 2

theorem middle_uniform : middle.Uniform := by
  intro i x hx
  constructor
  · exact div_nonneg hx (by norm_num)
  · exact div_le_self hx (by norm_num)

/-- A server that is never available. -/
def unavailable (_ : ℕ) : Except HttpError Unit := .error { text := "", status := some 503 }

theorem unavailable_passes (i : ℕ) : Passes unavailable i :=
  ⟨_, rfl, by decide +kernel⟩

theorem unavailable_last {policy : RetryPolicy} : Last policy unavailable policy.allowed :=
  ⟨le_max_left _ _, fun i _ _ => unavailable_passes i, fun _ _ hlt => hlt, .inr le_rfl⟩

/-- With six attempts nothing overflows. -/
theorem executeWithRetry_meets_iff_unavailable :
    (∃ run k, Executes "drive_op" {} middle unavailable run ∧ Last {} unavailable k ∧
      Obeys {} middle unavailable run k) ↔
      ∀ k, Last {} unavailable k → ∀ i, 1 ≤ i → i < k →
        ¬OverflowsAt middle unavailable i ∧ ¬SleeplessAt {} middle unavailable i :=
  executeWithRetry_meets_iff "drive_op" {} middle unavailable middle_uniform (by decide +kernel)
    (by decide +kernel)

theorem unavailable_overflows (i : ℕ) : OverflowsAt middle unavailable i ↔ 1024 < i := by
  constructor
  · rintro ⟨e, he, hover⟩
    obtain rfl := Except.error.inj he
    rcases hover with ⟨n, hn, -⟩ | ⟨-, hlate⟩
    · exact nomatch hn
    · exact hlate
  · exact fun hlate => ⟨_, rfl, .inr ⟨rfl, hlate⟩⟩

/-- With 1100 attempts the loop does not make them: it ends at the 1025th, with an
`OverflowError`. -/
theorem patient_retry_overflows :
    (¬∃ run k, Executes "drive_op" { maxAttempts := 1100 } middle unavailable run ∧
      Last { maxAttempts := 1100 } unavailable k ∧
      Obeys { maxAttempts := 1100 } middle unavailable run k) ∧
    ∃ steps, Executes "drive_op" { maxAttempts := 1100 } middle unavailable
      (steps, .error .overflowError) ∧
      steps.filterMap RetryStep.called? = List.range' 1 1025 := by
  let policy : RetryPolicy := { maxAttempts := 1100 }
  have hallowed : policy.allowed = 1100 := by decide
  have hover : OverflowsAt middle unavailable 1025 := (unavailable_overflows 1025).mpr (by omega)
  have hmade : Made policy middle unavailable 1025 := by
    refine ⟨by omega, fun i _ hlt => ⟨unavailable_passes i, by omega, ?_, ?_⟩, fun hon =>
      hon.fits hover⟩
    · rw [unavailable_overflows]
      omega
    · rintro ⟨e, r, d, -, -, hnot⟩
      exact nomatch hnot
  have hlast : Last policy unavailable 1100 := hallowed ▸ unavailable_last
  constructor
  · rintro ⟨run, k, hexecutes, hlast', hobeys⟩
    obtain rfl := executes_iff.mp hexecutes
    obtain rfl := hlast'.unique hlast
    exact absurd (hobeys.made.unique hmade) (by omega)
  · obtain ⟨x, hx, hrun⟩ := executeWithRetry_made "drive_op" hmade
    have hgoes := retryRound_goes "drive_op" policy middle unavailable hmade.pos
    have houtcome : x = .error .overflowError := by
      generalize retryRound "drive_op" policy middle unavailable 1025 = round at hx hgoes
      cases hgoes with
      | overflows => exact (Option.some.inj hx).symm
      | returns h => exact nomatch h
      | raises _ hends =>
        rcases hends with hnot | hlate
        · exact absurd (unavailable_passes 1025) hnot
        · omega
      | sleepless h _ => exact absurd hover h.not_overflowsAt
      | again h _ => exact absurd hover h.not_overflowsAt
    refine ⟨_, executes_iff.mpr (hrun.trans (by rw [houtcome])).symm, ?_⟩
    exact stepsFrom_called "drive_op" 1025 1 le_rfl

end TurboCopy
