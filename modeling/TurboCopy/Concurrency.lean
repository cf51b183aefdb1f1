import TurboCopy.Attempts

/-!
# The concurrency controller

`AdaptiveConcurrencyController` of `concurrency.py`: a limiter for each type of operation, and
the sections under the condition variable as atomic steps of any threads. A thread that finds no
free slot waits, and tests again when it wakes up.
-/

namespace TurboCopy

/-- `_Limiter`. -/
structure Limiter where
  limit : ℤ
  minLimit : ℤ
  maxLimit : ℤ
  inFlight : ℤ := 0
  successes : ℤ := 0
  increaseAfter : ℤ := 20

namespace Limiter

/-- The test of `_acquire` for a free slot. -/
def hasRoom (l : Limiter) : Bool := decide (l.inFlight < l.limit)

def acquire (l : Limiter) : Limiter := { l with inFlight := l.inFlight + 1 }

def release (l : Limiter) : Limiter := { l with inFlight := l.inFlight - 1 }

def recordSuccess (l : Limiter) : Limiter :=
  let successes := l.successes + 1
  if l.increaseAfter ≤ successes ∧ l.limit < l.maxLimit then
    { l with limit := l.limit + 1, successes := 0 }
  else { l with successes := successes }

def recordThrottle (l : Limiter) : Limiter :=
  { l with successes := 0, limit := max l.minLimit (l.limit / 2) }

end Limiter

/-- The arguments of the constructor. -/
structure ControllerArgs where
  copyWorkers : ℤ
  listWorkers : Option ℤ := none
  createWorkers : Option ℤ := none
  logWorkers : ℤ := 1
  metadataWorkers : Option ℤ := none
  increaseAfter : ℤ := 20

/-- `__init__`. The limiter of log updates keeps the default of `increase_after`. -/
def ControllerArgs.limiters (args : ControllerArgs) : OperationType → Limiter :=
  let copyWorkers := max 1 args.copyWorkers
  let half := copyWorkers / 2
  let listMax := args.listWorkers.getD (max 2 copyWorkers)
  let createMax := args.createWorkers.getD (max 1 (if half = 0 then 1 else half))
  let metaMax := args.metadataWorkers.getD copyWorkers
  fun
  | .copy => { limit := copyWorkers, minLimit := 1, maxLimit := copyWorkers
               increaseAfter := args.increaseAfter }
  | .list => { limit := max 1 listMax, minLimit := 1, maxLimit := max 1 listMax
               increaseAfter := args.increaseAfter }
  | .createFolder => { limit := max 1 createMax, minLimit := 1, maxLimit := max 1 createMax
                       increaseAfter := args.increaseAfter }
  | .logUpdate => { limit := max 1 args.logWorkers, minLimit := 1
                    maxLimit := max 1 args.logWorkers }
  | .metadata => { limit := max 1 metaMax, minLimit := 1, maxLimit := max 1 metaMax
                   increaseAfter := args.increaseAfter }

/-! ## Steps -/

/-- The controller with the slots that are open and the threads that wait for one. -/
structure Controller (T : Type) where
  limiters : OperationType → Limiter
  opened : List (T × OperationType) := []
  waiting : List (T × OperationType) := []

/-- What a thread does: it enters a slot, wakes up while it waits for one, leaves one, or records
the outcome of an operation. -/
inductive SlotAction (T : Type)
  | enter (t : T) (op : OperationType)
  | wake (t : T) (op : OperationType)
  | exit (t : T) (op : OperationType)
  | recordSuccess (t : T) (op : OperationType)
  | recordThrottle (t : T) (op : OperationType)

def SlotAction.op {T : Type} : SlotAction T → OperationType
  | enter _ op => op
  | wake _ op => op
  | exit _ op => op
  | recordSuccess _ op => op
  | recordThrottle _ op => op

/-- The action records an outcome. -/
def SlotAction.records {T : Type} : SlotAction T → Bool
  | recordSuccess _ _ => true
  | recordThrottle _ _ => true
  | _ => false

namespace Controller

variable {T : Type}

/-- A step of one limiter. -/
def update (s : Controller T) (op : OperationType) (f : Limiter → Limiter) : Controller T :=
  { s with limiters := Function.update s.limiters op (f (s.limiters op)) }

def grant (s : Controller T) (t : T) (op : OperationType) : Controller T :=
  { s.update op Limiter.acquire with opened := (t, op) :: s.opened }

/-- The number of open slots of a type. -/
def openedFor (s : Controller T) (op : OperationType) : ℕ := (s.opened.map Prod.snd).count op

/-- A step, if the thread can make it: only a waiting thread wakes up, and a thread leaves a slot
that it has entered. -/
def step [DecidableEq T] (s : Controller T) : SlotAction T → Option (Controller T)
  | .enter t op =>
    some (if (s.limiters op).hasRoom then s.grant t op
      else { s with waiting := (t, op) :: s.waiting })
  | .wake t op =>
    if (t, op) ∈ s.waiting then
      some (if (s.limiters op).hasRoom then
          { s.grant t op with waiting := s.waiting.erase (t, op) }
        else s)
    else none
  | .exit t op =>
    if (t, op) ∈ s.opened then
      some { s.update op Limiter.release with opened := s.opened.erase (t, op) }
    else none
  | .recordSuccess _ op => some (s.update op Limiter.recordSuccess)
  | .recordThrottle _ op => some (s.update op Limiter.recordThrottle)

/-- The runs of a controller, with what the threads did, in order. -/
inductive Run [DecidableEq T] (args : ControllerArgs) : List (SlotAction T) → Controller T → Prop
  | start : Run args [] { limiters := args.limiters }
  | next {actions : List (SlotAction T)} {s s' : Controller T} {a : SlotAction T}
      (h : Run args actions s) (hs : s.step a = some s') : Run args (actions ++ [a]) s'

/-! ## What a step does -/

/-- What an action does to the limiter of its type and the number of its open slots. -/
inductive Change (a : SlotAction T) (l : Limiter) : ℕ → Limiter → ℕ → Prop
  | granted {n : ℕ} (ha : a.records = false) (h : l.inFlight < l.limit) :
    Change a l n l.acquire (n + 1)
  | nothing {n : ℕ} (ha : a.records = false) : Change a l n l n
  | released {n : ℕ} (ha : a.records = false) : Change a l (n + 1) l.release n
  | success {n : ℕ} {t : T} {op : OperationType} (ha : a = .recordSuccess t op) :
    Change a l n l.recordSuccess n
  | throttle {n : ℕ} {t : T} {op : OperationType} (ha : a = .recordThrottle t op) :
    Change a l n l.recordThrottle n

section Step

variable {s s' : Controller T} {a : SlotAction T} {t : T} {op op' : OperationType}

@[simp] theorem update_limiters (f : Limiter → Limiter) :
    (s.update op f).limiters op = f (s.limiters op) := Function.update_self ..

theorem update_limiters_of_ne (f : Limiter → Limiter) (h : op' ≠ op) :
    (s.update op f).limiters op' = s.limiters op' := Function.update_of_ne h ..

theorem openedFor_cons (pairs : List (T × OperationType)) :
    (((t, op) :: pairs).map Prod.snd).count op = (pairs.map Prod.snd).count op + 1 := by
  simp

theorem openedFor_cons_of_ne (pairs : List (T × OperationType)) (h : op' ≠ op) :
    (((t, op) :: pairs).map Prod.snd).count op' = (pairs.map Prod.snd).count op' := by
  simp [Ne.symm h]

variable [DecidableEq T]

theorem openedFor_erase {pairs : List (T × OperationType)} (h : (t, op) ∈ pairs)
    (op' : OperationType) : (pairs.map Prod.snd).count op' =
      (((t, op) :: pairs.erase (t, op)).map Prod.snd).count op' :=
  ((List.perm_cons_erase h).map Prod.snd).count_eq op'

/-- A step changes the limiter and the open slots of its own type only. -/
theorem step_cases (h : s.step a = some s') :
    Change a (s.limiters a.op) (s.openedFor a.op) (s'.limiters a.op) (s'.openedFor a.op) ∧
      ∀ op, op ≠ a.op → s'.limiters op = s.limiters op ∧ s'.openedFor op = s.openedFor op := by
  unfold openedFor
  have hgrant : ∀ t op, a.records = false → (s.limiters op).hasRoom = true →
      Change a (s.limiters op) ((s.opened.map Prod.snd).count op)
        ((s.grant t op).limiters op) (((s.grant t op).opened.map Prod.snd).count op) ∧
      ∀ op', op' ≠ op → (s.grant t op).limiters op' = s.limiters op' ∧
        ((s.grant t op).opened.map Prod.snd).count op' = (s.opened.map Prod.snd).count op' := by
    intro t op ha hroom
    constructor
    · change Change a _ _ ((s.update op Limiter.acquire).limiters op)
        ((((t, op) :: s.opened).map Prod.snd).count op)
      rw [update_limiters, openedFor_cons]
      exact .granted ha (of_decide_eq_true hroom)
    · intro op' hop
      exact ⟨update_limiters_of_ne _ hop, openedFor_cons_of_ne _ hop⟩
  cases a with
  | enter t op =>
    obtain rfl := Option.some.inj h
    simp only [SlotAction.op]
    split_ifs with hroom
    · exact hgrant t op rfl hroom
    · exact ⟨.nothing rfl, fun _ _ => ⟨rfl, rfl⟩⟩
  | wake t op =>
    simp only [step] at h
    split_ifs at h with hwaits hroom
    · obtain rfl := Option.some.inj h
      exact hgrant t op rfl hroom
    · obtain rfl := Option.some.inj h
      exact ⟨.nothing rfl, fun _ _ => ⟨rfl, rfl⟩⟩
  | exit t op =>
    simp only [step] at h
    split_ifs at h with hopened
    obtain rfl := Option.some.inj h
    simp only [SlotAction.op]
    constructor
    · rw [openedFor_erase hopened op, openedFor_cons, update_limiters]
      exact .released rfl
    · intro op' hop
      rw [openedFor_erase hopened op', openedFor_cons_of_ne _ hop]
      exact ⟨update_limiters_of_ne _ hop, rfl⟩
  | recordSuccess t op =>
    obtain rfl := Option.some.inj h
    refine ⟨?_, fun op' hop => ⟨update_limiters_of_ne _ hop, rfl⟩⟩
    simp only [SlotAction.op, update_limiters]
    exact .success rfl
  | recordThrottle t op =>
    obtain rfl := Option.some.inj h
    refine ⟨?_, fun op' hop => ⟨update_limiters_of_ne _ hop, rfl⟩⟩
    simp only [SlotAction.op, update_limiters]
    exact .throttle rfl

end Step

/-! ## Runs -/

/-- A limiter and the number of its open slots. -/
structure Sound (l : Limiter) (opened : ℕ) : Prop where
  min : l.minLimit = 1
  pos : 1 ≤ l.limit
  le : l.limit ≤ l.maxLimit
  inFlight : l.inFlight = opened
  bounded : (opened : ℤ) ≤ l.maxLimit

/-- The action is a success of the type. -/
def isSuccess (op : OperationType) : SlotAction T → Bool
  | .recordSuccess _ op' => decide (op' = op)
  | _ => false

section Limiter

variable {a : SlotAction T} {l l' : Limiter} {n n' : ℕ}

theorem Change.sound (hc : Change a l n l' n') (h : Sound l n) : Sound l' n' := by
  obtain ⟨hmin, hpos, hle, hflight, hbounded⟩ := h
  cases hc with
  | granted _ hroom =>
    refine ⟨hmin, hpos, hle, ?_, ?_⟩
    · simp [Limiter.acquire, hflight]
    · simp only [Limiter.acquire]
      omega
  | nothing => exact ⟨hmin, hpos, hle, hflight, hbounded⟩
  | released =>
    refine ⟨hmin, hpos, hle, ?_, ?_⟩
    · simp [Limiter.release, hflight]
    · simp only [Limiter.release]
      omega
  | success =>
    unfold Limiter.recordSuccess
    dsimp only
    split_ifs with hgrows
    · exact ⟨hmin, by dsimp only; omega, by dsimp only; omega, hflight, hbounded⟩
    · exact ⟨hmin, hpos, hle, hflight, hbounded⟩
  | throttle =>
    refine ⟨hmin, ?_, ?_, hflight, hbounded⟩
    · simp only [Limiter.recordThrottle]
      omega
    · simp only [Limiter.recordThrottle]
      omega

/-- The bounds of a limiter do not change. -/
theorem Change.fixed (hc : Change a l n l' n') :
    l'.maxLimit = l.maxLimit ∧ l'.increaseAfter = l.increaseAfter := by
  cases hc with
  | success =>
    unfold Limiter.recordSuccess
    dsimp only
    split_ifs <;> exact ⟨rfl, rfl⟩
  | _ => exact ⟨rfl, rfl⟩

/-- A limit grows only by a success, by one, after as many successes as are asked for. -/
theorem Change.grows (hc : Change a l n l' n') (h : Sound l n) (hlt : l.limit < l'.limit) :
    (∃ t op, a = .recordSuccess t op) ∧ l'.limit = l.limit + 1 ∧
      l.increaseAfter ≤ l.successes + 1 := by
  obtain ⟨hmin, hpos, -, -, -⟩ := h
  cases hc with
  | granted => exact absurd hlt (lt_irrefl _)
  | nothing => exact absurd hlt (lt_irrefl _)
  | released => exact absurd hlt (lt_irrefl _)
  | success ha =>
    unfold Limiter.recordSuccess at hlt ⊢
    dsimp only at hlt ⊢
    split_ifs at hlt ⊢ with hgrows
    · exact ⟨⟨_, _, ha⟩, rfl, hgrows.1⟩
    · exact absurd hlt (lt_irrefl _)
  | throttle =>
    simp only [Limiter.recordThrottle] at hlt
    omega

/-- More slots are open after an action only if there was room for one. -/
theorem Change.grants (hc : Change a l n l' n') (hlt : n < n') : l.inFlight < l.limit := by
  cases hc with
  | granted _ hroom => exact hroom
  | nothing => exact absurd hlt (lt_irrefl _)
  | released => omega
  | success => exact absurd hlt (lt_irrefl _)
  | throttle => exact absurd hlt (lt_irrefl _)

theorem isSuccess_of_records (op : OperationType) (ha : a.records = false) :
    isSuccess op a = false := by
  cases a with
  | recordSuccess t op' => exact nomatch ha
  | _ => rfl

theorem ne_throttle_of_records (ha : a.records = false) (t : T) (op : OperationType) :
    a ≠ .recordThrottle t op := by
  rintro rfl
  exact nomatch ha

/-- A limiter keeps its limit and counts a success, or it begins to count anew. -/
theorem Change.counts (hc : Change a l n l' n') :
    (l'.limit = l.limit ∧ (∀ t, a ≠ .recordThrottle t a.op) ∧
      l'.successes = l.successes + if isSuccess a.op a then 1 else 0) ∨ l'.successes = 0 := by
  cases hc with
  | granted ha =>
    exact .inl ⟨rfl, fun t => ne_throttle_of_records ha t _,
      by simp [isSuccess_of_records _ ha, Limiter.acquire]⟩
  | nothing ha =>
    exact .inl ⟨rfl, fun t => ne_throttle_of_records ha t _, by simp [isSuccess_of_records _ ha]⟩
  | released ha =>
    exact .inl ⟨rfl, fun t => ne_throttle_of_records ha t _,
      by simp [isSuccess_of_records _ ha, Limiter.release]⟩
  | success ha =>
    subst ha
    unfold Limiter.recordSuccess
    dsimp only
    by_cases hgrows : l.increaseAfter ≤ l.successes + 1 ∧ l.limit < l.maxLimit
    · rw [if_pos hgrows]
      exact .inr rfl
    · rw [if_neg hgrows]
      exact .inl ⟨rfl, fun t h => (nomatch h), by simp [isSuccess, SlotAction.op]⟩
  | throttle => exact .inr rfl

end Limiter

section Run

variable [DecidableEq T] {args : ControllerArgs} {actions : List (SlotAction T)}
  {s s' : Controller T} {a : SlotAction T} {op : OperationType}

theorem sound_limiters (args : ControllerArgs) (op : OperationType) :
    Sound (args.limiters op) 0 := by
  cases op <;> exact ⟨rfl, le_max_left _ _, le_rfl, rfl, by simp [ControllerArgs.limiters]⟩

/-- The limiters of a run are sound, with the bounds the constructor has set. -/
theorem Run.sound (h : Run args actions s) (op : OperationType) :
    Sound (s.limiters op) (s.openedFor op) ∧
      (s.limiters op).maxLimit = (args.limiters op).maxLimit ∧
      (s.limiters op).increaseAfter = (args.limiters op).increaseAfter := by
  induction h with
  | start => exact ⟨sound_limiters args op, rfl, rfl⟩
  | @next actions s s' a _ hs ih =>
    obtain ⟨hchange, hothers⟩ := step_cases hs
    by_cases hop : op = a.op
    · subst hop
      obtain ⟨hmax, hafter⟩ := hchange.fixed
      exact ⟨hchange.sound ih.1, hmax.trans ih.2.1, hafter.trans ih.2.2⟩
    · obtain ⟨hlimiter, hopened⟩ := hothers op hop
      rw [hlimiter, hopened]
      exact ih

theorem Run.unique {s₁ s₂ : Controller T} (h₁ : Run args actions s₁) (h₂ : Run args actions s₂) :
    s₁ = s₂ := by
  induction h₁ generalizing s₂ with
  | start =>
    generalize hnil : ([] : List (SlotAction T)) = actions at h₂
    cases h₂ with
    | start => rfl
    | next => simp at hnil
  | @next actions s s' a _ hs ih =>
    generalize hsnoc : actions ++ [a] = all at h₂
    cases h₂ with
    | start => simp at hsnoc
    | next h₂ hs₂ =>
      obtain ⟨rfl, hlast⟩ := List.append_inj' hsnoc rfl
      obtain rfl := List.singleton_inj.mp hlast
      obtain rfl := ih h₂
      exact Option.some.inj (hs.symm.trans hs₂)

/-- From its `k`th action on, a run has no throttle of the type, and its limit stays the same. -/
structure Calm (args : ControllerArgs) (actions : List (SlotAction T)) (s : Controller T)
    (op : OperationType) (k : ℕ) : Prop where
  le : k ≤ actions.length
  throttles : ∀ t, .recordThrottle t op ∉ actions.drop k
  limit : ∀ m s', k ≤ m → Run args (actions.take m) s' →
    (s'.limiters op).limit = (s.limiters op).limit

theorem Calm.step {k : ℕ} (hc : Calm args actions s op k) (h : Run args actions s)
    (hs : s.step a = some s') (ha : ∀ t, a ≠ .recordThrottle t op)
    (hlimit : (s'.limiters op).limit = (s.limiters op).limit) :
    Calm args (actions ++ [a]) s' op k := by
  have hle := hc.le
  constructor
  · rw [List.length_append]
    omega
  · intro t hmem
    rw [List.drop_append_of_le_length hle] at hmem
    rcases List.mem_append.mp hmem with hmem | hmem
    · exact hc.throttles t hmem
    · exact ha t (List.mem_singleton.mp hmem).symm
  · intro m r hm hr
    by_cases hpast : m ≤ actions.length
    · rw [List.take_append_of_le_length hpast] at hr
      rw [hlimit]
      exact hc.limit m r hm hr
    · rw [List.take_of_length_le (by rw [List.length_append, List.length_singleton]; omega)] at hr
      rw [hr.unique (h.next hs)]

/-- A run is calm from its end on. -/
theorem Run.calm_end (h : Run args actions s) : Calm args actions s op actions.length := by
  refine ⟨le_rfl, fun t hmem => ?_, fun m r hm hr => ?_⟩
  · rw [List.drop_length] at hmem
    exact nomatch hmem
  · rw [List.take_of_length_le hm] at hr
    rw [hr.unique h]

/-- The successes a limiter counts are those since the last throttle or growth of its type. -/
theorem Run.successes (h : Run args actions s) (op : OperationType) :
    ∃ k, Calm args actions s op k ∧
      (s.limiters op).successes = ((actions.drop k).countP (isSuccess op) : ℕ) := by
  induction h with
  | start =>
    refine ⟨0, Run.start.calm_end, ?_⟩
    cases op <;> rfl
  | @next actions s s' a h hs ih =>
    obtain ⟨k, hcalm, hcount⟩ := ih
    obtain ⟨hchange, hothers⟩ := step_cases hs
    have hmore : (s'.limiters op).limit = (s.limiters op).limit →
        (∀ t, a ≠ .recordThrottle t op) →
        (s'.limiters op).successes =
          (s.limiters op).successes + (if isSuccess op a then 1 else 0) →
        ∃ k, Calm args (actions ++ [a]) s' op k ∧
          (s'.limiters op).successes =
            (((actions ++ [a]).drop k).countP (isSuccess op) : ℕ) := by
      intro hlimit ha hsuccesses
      refine ⟨k, hcalm.step h hs ha hlimit, ?_⟩
      rw [hsuccesses, hcount, List.drop_append_of_le_length hcalm.le, List.countP_append,
        List.countP_singleton]
      push_cast
      rfl
    by_cases hop : op = a.op
    · subst hop
      rcases hchange.counts with ⟨hlimit, ha, hsuccesses⟩ | hzero
      · exact hmore hlimit ha hsuccesses
      · refine ⟨_, (h.next hs).calm_end, ?_⟩
        rw [List.drop_length]
        exact hzero
    · obtain ⟨hlimiter, -⟩ := hothers op hop
      apply hmore (by rw [hlimiter])
      · rintro t rfl
        exact hop rfl
      · have hnot : isSuccess op a = false := by
          cases a with
          | recordSuccess t op' => exact decide_eq_false (Ne.symm hop)
          | _ => rfl
        rw [hlimiter, hnot]
        simp

/-- In every run of any threads the limiters are sound: their limits and their open slots are
bounded, a slot is granted below the limit, a limit grows by one after enough successes without
a throttle or a growth between, no throttle raises it, and a step leaves the other types alone. -/
theorem limiter_sound (h : Run args actions s) (op : OperationType) :
    (1 ≤ (s.limiters op).limit ∧ (s.limiters op).limit ≤ (args.limiters op).maxLimit) ∧
    ((s.limiters op).inFlight = s.openedFor op ∧ 0 ≤ (s.limiters op).inFlight ∧
      (s.limiters op).inFlight ≤ (args.limiters op).maxLimit) ∧
    ∀ a s', s.step a = some s' →
      (s.openedFor op < s'.openedFor op → (s.limiters op).inFlight < (s.limiters op).limit) ∧
      ((s.limiters op).limit < (s'.limiters op).limit →
        (s'.limiters op).limit = (s.limiters op).limit + 1 ∧
        ∃ k, Calm args actions s op k ∧ (args.limiters op).increaseAfter ≤
          (((actions ++ [a]).drop k).countP (isSuccess op) : ℕ)) ∧
      (∀ t, a = .recordThrottle t op → (s'.limiters op).limit ≤ (s.limiters op).limit) ∧
      (a.op ≠ op → s'.limiters op = s.limiters op) := by
  obtain ⟨hsound, hmax, hafter⟩ := h.sound op
  refine ⟨⟨hsound.pos, hmax ▸ hsound.le⟩, ⟨hsound.inFlight, ?_, ?_⟩, ?_⟩
  · rw [hsound.inFlight]
    exact Int.natCast_nonneg _
  · rw [hsound.inFlight, ← hmax]
    exact hsound.bounded
  · intro a s' hs
    obtain ⟨hchange, hothers⟩ := step_cases hs
    by_cases hop : op = a.op
    · subst hop
      refine ⟨?_, ?_, ?_, fun hne => absurd rfl hne⟩
      · exact hchange.grants
      · intro hlt
        obtain ⟨⟨t, op, ha⟩, hone, henough⟩ := hchange.grows hsound hlt
        obtain ⟨k, hcalm, hcount⟩ := h.successes a.op
        refine ⟨hone, k, hcalm, ?_⟩
        have hyes : isSuccess a.op a = true := by
          subst ha
          exact decide_eq_true rfl
        rw [List.drop_append_of_le_length hcalm.le, List.countP_append, List.countP_singleton,
          hyes, ← hafter]
        push_cast
        rw [← hcount]
        exact henough
      · intro t ha
        by_contra hlt
        obtain ⟨⟨t', op, ha'⟩, -⟩ := hchange.grows hsound (not_le.mp hlt)
        exact nomatch ha.symm.trans ha'
    · obtain ⟨hlimiter, hopened⟩ := hothers op hop
      rw [hlimiter, hopened]
      refine ⟨fun hlt => absurd hlt (lt_irrefl _), fun hlt => absurd hlt (lt_irrefl _),
        fun _ _ => le_rfl, fun _ => rfl⟩

end Run

/-- Two threads and one slot: the second thread waits. -/
def oneSlot : Controller ℕ :=
  { ({ limiters := ControllerArgs.limiters { copyWorkers := 1 } } : Controller ℕ).grant 1 .copy with
    waiting := [(2, .copy)] }

theorem oneSlot_run : Run { copyWorkers := 1 } [.enter 1 .copy, .enter 2 .copy] oneSlot :=
  .next (.next .start rfl) rfl

theorem limiter_sound_oneSlot :
    (1 ≤ (oneSlot.limiters .copy).limit ∧ (oneSlot.limiters .copy).limit ≤
      (ControllerArgs.limiters { copyWorkers := 1 } .copy).maxLimit) ∧
    ((oneSlot.limiters .copy).inFlight = oneSlot.openedFor .copy ∧
      0 ≤ (oneSlot.limiters .copy).inFlight ∧ (oneSlot.limiters .copy).inFlight ≤
        (ControllerArgs.limiters { copyWorkers := 1 } .copy).maxLimit) :=
  ⟨(limiter_sound oneSlot_run .copy).1, (limiter_sound oneSlot_run .copy).2.1⟩

end Controller
end TurboCopy
