import Mathlib.Algebra.BigOperators.Group.Finset.Basic
import Mathlib.Algebra.GroupWithZero.Nat
import Mathlib.Algebra.Order.BigOperators.Group.Finset
import Mathlib.Data.Fintype.BigOperators

/-!
# Threads that wait at a monitor

A state behind one lock with a condition variable. A thread goes in with a key when the test of
the key holds. When it does not, the thread sleeps until it is woken, and tests again. Inside it
performs its sections, some of which wake the threads that sleep, and when it leaves it wakes
them all. Between a wake-up and the test that follows any other thread may go in.
-/

namespace Threads

/-- The test of a key, and what the sections do to the state. -/
structure Monitor (σ κ α : Type) where
  free : σ → κ → Bool
  enter : σ → κ → σ
  leave : σ → κ → σ
  act : σ → κ → α → σ
  wakes : σ → κ → α → Bool

/-- Where a thread is in a call, with the sections it has left. -/
inductive Stage (κ α : Type)
  | outside
  | asleep (k : κ) (left : List α)
  | woken (k : κ) (left : List α)
  | inside (k : κ) (left : List α)

/-- A thread with the calls it has not begun, each with its key and its sections. -/
structure Caller (κ α : Type) where
  stage : Stage κ α := .outside
  calls : List (κ × List α)

/-- The state of a monitor and its threads. -/
structure Scene (σ κ α T : Type) where
  shared : σ
  callers : T → Caller κ α

variable {σ κ α T : Type}

namespace Caller

def wake (c : Caller κ α) : Caller κ α :=
  match c.stage with
  | .asleep k left => { c with stage := .woken k left }
  | _ => c

/-- One if the thread is inside with the key. -/
def insideFor [DecidableEq κ] (k : κ) (c : Caller κ α) : ℕ :=
  match c.stage with
  | .inside k' _ => if k' = k then 1 else 0
  | _ => 0

/-- One if the thread is woken and has not tested again. -/
def wokenUp (c : Caller κ α) : ℕ :=
  match c.stage with
  | .woken _ _ => 1
  | _ => 0

/-- The steps a thread has left, without those that it goes back to sleep with. -/
def work (c : Caller κ α) : ℕ :=
  (match c.stage with
    | .outside => 0
    | .asleep _ left => left.length + 2
    | .woken _ left => left.length + 2
    | .inside _ left => left.length + 1) +
  (c.calls.map fun call => call.2.length + 3).sum

/-- The thread has ended its calls. -/
def Done (c : Caller κ α) : Prop := c.stage = .outside ∧ c.calls = []

@[simp] theorem work_wake (c : Caller κ α) : c.wake.work = c.work := by
  obtain ⟨stage, calls⟩ := c
  cases stage <;> rfl

@[simp] theorem insideFor_wake [DecidableEq κ] (k : κ) (c : Caller κ α) :
    c.wake.insideFor k = c.insideFor k := by
  obtain ⟨stage, calls⟩ := c
  cases stage <;> rfl

theorem wokenUp_le (c : Caller κ α) : c.wokenUp ≤ 1 := by
  unfold wokenUp
  split
  · exact le_rfl
  · exact Nat.zero_le 1

theorem stage_wake_ne (c : Caller κ α) (k : κ) (left : List α) :
    c.wake.stage ≠ .asleep k left := by
  obtain ⟨stage, calls⟩ := c
  cases stage <;> simp [wake]

@[simp] theorem insideFor_inside [DecidableEq κ] (k k' : κ) (left : List α)
    (calls : List (κ × List α)) :
    insideFor k ⟨.inside k' left, calls⟩ = if k' = k then 1 else 0 := rfl

theorem insideFor_pos [DecidableEq κ] {c : Caller κ α} {k : κ} (h : c.insideFor k ≠ 0) :
    ∃ left, c.stage = .inside k left := by
  obtain ⟨stage, calls⟩ := c
  cases stage with
  | inside k' left =>
    by_cases hk : k' = k
    · exact ⟨left, by rw [hk]⟩
    · simp [insideFor, hk] at h
  | _ => simp [insideFor] at h

end Caller

namespace Scene

/-- A thread and the shared state have changed. -/
def put [DecidableEq T] (s : Scene σ κ α T) (t : T) (c : Caller κ α) (shared : σ) :
    Scene σ κ α T :=
  ⟨shared, Function.update s.callers t c⟩

def wakeAll (s : Scene σ κ α T) : Scene σ κ α T := { s with callers := fun t => (s.callers t).wake }

/-- The number of threads that are inside with a key. -/
def insiders [DecidableEq κ] [Fintype T] (s : Scene σ κ α T) (k : κ) : ℕ :=
  ∑ t, (s.callers t).insideFor k

def work [Fintype T] (s : Scene σ κ α T) : ℕ := ∑ t, (s.callers t).work

def wokenUp [Fintype T] (s : Scene σ κ α T) : ℕ := ∑ t, (s.callers t).wokenUp

/-- A bound on the steps that the threads have left. A step of work may wake all of them. -/
def toGo [Fintype T] (s : Scene σ κ α T) : ℕ := s.work * (Fintype.card T + 1) + s.wokenUp

def Done (s : Scene σ κ α T) : Prop := ∀ t, (s.callers t).Done

section Counts

variable (s : Scene σ κ α T)

@[simp] theorem wakeAll_shared : s.wakeAll.shared = s.shared := rfl

@[simp] theorem wakeAll_callers (t : T) : s.wakeAll.callers t = (s.callers t).wake := rfl

variable [Fintype T]

@[simp] theorem work_wakeAll : s.wakeAll.work = s.work := by
  simp [work]

@[simp] theorem insiders_wakeAll [DecidableEq κ] : s.wakeAll.insiders = s.insiders := by
  funext k
  simp [insiders]

variable {s} in
theorem insiders_of_done [DecidableEq κ] (h : s.Done) (k : κ) : s.insiders k = 0 := by
  apply Finset.sum_eq_zero
  intro t _
  simp [Caller.insideFor, (h t).1]

theorem wokenUp_le : s.wokenUp ≤ Fintype.card T := by
  calc s.wokenUp ≤ ∑ _t : T, 1 := Finset.sum_le_sum fun t _ => (s.callers t).wokenUp_le
    _ = Fintype.card T := by simp

variable {s} in
/-- With less work left the end is nearer, whoever has been woken. -/
theorem toGo_lt {s' : Scene σ κ α T} (h : s'.work < s.work) : s'.toGo < s.toGo := by
  have hwoken : s'.wokenUp ≤ Fintype.card T := s'.wokenUp_le
  unfold toGo
  calc s'.work * (Fintype.card T + 1) + s'.wokenUp
      < (s'.work + 1) * (Fintype.card T + 1) := by rw [Nat.add_mul]; omega
    _ ≤ s.work * (Fintype.card T + 1) := Nat.mul_le_mul_right _ h
    _ ≤ s.work * (Fintype.card T + 1) + s.wokenUp := Nat.le_add_right _ _

end Counts

section Put

variable [DecidableEq T] {s : Scene σ κ α T} {t t' : T} {c : Caller κ α} {shared : σ}

@[simp] theorem put_shared : (s.put t c shared).shared = shared := rfl

@[simp] theorem put_self : (s.put t c shared).callers t = c := Function.update_self ..

theorem put_of_ne (h : t' ≠ t) : (s.put t c shared).callers t' = s.callers t' :=
  Function.update_of_ne h ..

variable [Fintype T]

/-- What is counted over the threads changes by what the one thread changes. -/
theorem sum_put (f : Caller κ α → ℕ) :
    ∑ t', f ((s.put t c shared).callers t') + f (s.callers t) = ∑ t', f (s.callers t') + f c := by
  have hothers : ∑ t' ∈ Finset.univ.erase t, f ((s.put t c shared).callers t') =
      ∑ t' ∈ Finset.univ.erase t, f (s.callers t') :=
    Finset.sum_congr rfl fun t' ht' => by rw [put_of_ne (Finset.ne_of_mem_erase ht')]
  rw [← Finset.add_sum_erase _ _ (Finset.mem_univ t), hothers, put_self,
    ← Finset.add_sum_erase _ (fun t' => f (s.callers t')) (Finset.mem_univ t)]
  omega

theorem work_put : (s.put t c shared).work + (s.callers t).work = s.work + c.work :=
  sum_put Caller.work

theorem wokenUp_put :
    (s.put t c shared).wokenUp + (s.callers t).wokenUp = s.wokenUp + c.wokenUp :=
  sum_put Caller.wokenUp

theorem insiders_put [DecidableEq κ] (k : κ) :
    (s.put t c shared).insiders k + (s.callers t).insideFor k = s.insiders k + c.insideFor k :=
  sum_put (Caller.insideFor k)

end Put

end Scene

/-! ## Steps -/

namespace Monitor

variable [DecidableEq T] (m : Monitor σ κ α)

/-- A thread tests its key. -/
def knock (t : T) (k : κ) (left : List α) (calls : List (κ × List α)) (s : Scene σ κ α T) :
    Scene σ κ α T :=
  if m.free s.shared k then s.put t ⟨.inside k left, calls⟩ (m.enter s.shared k)
  else s.put t ⟨.asleep k left, calls⟩ s.shared

/-- The next step of a thread, unless it sleeps or has ended its calls. -/
def step (t : T) (s : Scene σ κ α T) : Option (Scene σ κ α T) :=
  let c := s.callers t
  match c.stage with
  | .outside =>
    match c.calls with
    | [] => none
    | (k, left) :: calls => some (m.knock t k left calls s)
  | .asleep _ _ => none
  | .woken k left => some (m.knock t k left c.calls s)
  | .inside k [] => some (s.put t ⟨.outside, c.calls⟩ (m.leave s.shared k)).wakeAll
  | .inside k (a :: left) =>
    let s' := s.put t ⟨.inside k left, c.calls⟩ (m.act s.shared k a)
    some (if m.wakes s.shared k a then s'.wakeAll else s')

/-- The threads of a schedule take their steps. -/
def run : List T → Scene σ κ α T → Option (Scene σ κ α T)
  | [], s => some s
  | t :: schedule, s => (m.step t s).bind (run schedule)

/-- The thread is about to test the key: it begins a call, or it has been woken. -/
def Knocks (c : Caller κ α) (k : κ) (left : List α) (calls : List (κ × List α)) : Prop :=
  c = ⟨.outside, (k, left) :: calls⟩ ∨ c = ⟨.woken k left, calls⟩

/-- What a step of a thread is. -/
inductive Move (t : T) (s : Scene σ κ α T) : Scene σ κ α T → Prop
  | enters {k : κ} {left : List α} {calls : List (κ × List α)}
    (hc : Knocks (s.callers t) k left calls) (hfree : m.free s.shared k = true) :
    Move t s (s.put t ⟨.inside k left, calls⟩ (m.enter s.shared k))
  | sleeps {k : κ} {left : List α} {calls : List (κ × List α)}
    (hc : Knocks (s.callers t) k left calls) (hfree : m.free s.shared k = false) :
    Move t s (s.put t ⟨.asleep k left, calls⟩ s.shared)
  | leaves {k : κ} {calls : List (κ × List α)} (hc : s.callers t = ⟨.inside k [], calls⟩) :
    Move t s (s.put t ⟨.outside, calls⟩ (m.leave s.shared k)).wakeAll
  | acts {k : κ} {a : α} {left : List α} {calls : List (κ × List α)}
    (hc : s.callers t = ⟨.inside k (a :: left), calls⟩) (hwakes : m.wakes s.shared k a = false) :
    Move t s (s.put t ⟨.inside k left, calls⟩ (m.act s.shared k a))
  | rouses {k : κ} {a : α} {left : List α} {calls : List (κ × List α)}
    (hc : s.callers t = ⟨.inside k (a :: left), calls⟩) (hwakes : m.wakes s.shared k a = true) :
    Move t s (s.put t ⟨.inside k left, calls⟩ (m.act s.shared k a)).wakeAll

variable {m} {t : T} {s s' : Scene σ κ α T}

theorem knock_move {k : κ} {left : List α} {calls : List (κ × List α)}
    (hc : Knocks (s.callers t) k left calls) : m.Move t s (m.knock t k left calls s) := by
  unfold knock
  split_ifs with hfree
  · exact .enters hc hfree
  · exact .sleeps hc (Bool.eq_false_iff.mpr hfree)

theorem step_cases (h : m.step t s = some s') : m.Move t s s' := by
  unfold step at h
  cases hc : s.callers t with
  | mk stage calls =>
    rw [hc] at h
    cases stage with
    | outside =>
      cases calls with
      | nil => cases h
      | cons call calls =>
        obtain rfl := Option.some.inj h
        exact knock_move (.inl hc)
    | asleep k left => cases h
    | woken k left =>
      obtain rfl := Option.some.inj h
      exact knock_move (.inr hc)
    | inside k left =>
      cases left with
      | nil =>
        obtain rfl := Option.some.inj h
        exact .leaves hc
      | cons a left =>
        obtain rfl := Option.some.inj h
        dsimp only
        split_ifs with hwakes
        · exact .rouses hc hwakes
        · exact .acts hc (Bool.eq_false_iff.mpr hwakes)

/-- What every step keeps, every schedule keeps. -/
theorem run_induction {P : Scene σ κ α T → Prop}
    (hstep : ∀ t s s', P s → m.step t s = some s' → P s') {schedule : List T}
    (h : m.run schedule s = some s') (hs : P s) : P s' := by
  induction schedule generalizing s with
  | nil =>
    obtain rfl := Option.some.inj h
    exact hs
  | cons t schedule ih =>
    obtain ⟨s₁, hs₁, hrest⟩ := Option.bind_eq_some_iff.mp h
    exact ih hrest (hstep t s s₁ hs hs₁)

theorem run_append {schedule schedule' : List T} (h : m.run schedule s = some s') :
    m.run (schedule ++ schedule') s = m.run schedule' s' := by
  induction schedule generalizing s with
  | nil =>
    obtain rfl := Option.some.inj h
    rfl
  | cons t schedule ih =>
    obtain ⟨s₁, hs₁, hrest⟩ := Option.bind_eq_some_iff.mp h
    calc m.run (t :: schedule ++ schedule') s
        = (m.step t s).bind (m.run (schedule ++ schedule')) := rfl
      _ = m.run (schedule ++ schedule') s₁ := by rw [hs₁, Option.bind_some]
      _ = m.run schedule' s' := ih hrest

/-- Only a thread that sleeps or has ended its calls cannot take a step. -/
theorem step_none (h : m.step t s = none) :
    (s.callers t).Done ∨ ∃ k left, (s.callers t).stage = .asleep k left := by
  unfold step at h
  cases hc : s.callers t with
  | mk stage calls =>
    rw [hc] at h
    cases stage with
    | outside =>
      cases calls with
      | nil => exact .inl ⟨rfl, rfl⟩
      | cons call calls => cases h
    | asleep k left => exact .inr ⟨k, left, rfl⟩
    | woken k left => cases h
    | inside k left => cases left <;> cases h

/-! ## Every schedule ends -/

section Length

variable [Fintype T]

theorem work_put_lt {c : Caller κ α} {shared : σ} (h : c.work < (s.callers t).work) :
    (s.put t c shared).work < s.work := by
  have hput : (s.put t c shared).work + (s.callers t).work = s.work + c.work := Scene.work_put
  omega

theorem Move.toGo_lt (h : m.Move t s s') : s'.toGo < s.toGo := by
  cases h with
  | enters hc _ =>
    apply Scene.toGo_lt (work_put_lt _)
    rcases hc with hc | hc <;> simp [hc, Caller.work]
  | @sleeps k left calls hc _ =>
    rcases hc with hc | hc
    · apply Scene.toGo_lt (work_put_lt _)
      simp [hc, Caller.work]
    · -- the work of a thread that goes back to sleep stays, but it is woken no more
      have hwork : (s.put t ⟨.asleep k left, calls⟩ s.shared).work + (s.callers t).work =
          s.work + Caller.work ⟨.asleep k left, calls⟩ := Scene.work_put
      have hwoken : (s.put t ⟨.asleep k left, calls⟩ s.shared).wokenUp + (s.callers t).wokenUp =
          s.wokenUp + Caller.wokenUp ⟨.asleep k left, calls⟩ := Scene.wokenUp_put
      simp only [hc, Caller.work, Nat.add_right_cancel_iff] at hwork
      simp only [hc, Caller.wokenUp, Nat.add_zero] at hwoken
      unfold Scene.toGo
      rw [hwork]
      omega
  | leaves hc =>
    apply Scene.toGo_lt
    rw [Scene.work_wakeAll]
    apply work_put_lt
    simp [hc, Caller.work]
  | acts hc _ =>
    apply Scene.toGo_lt (work_put_lt _)
    simp [hc, Caller.work]
  | rouses hc _ =>
    apply Scene.toGo_lt
    rw [Scene.work_wakeAll]
    apply work_put_lt
    simp [hc, Caller.work]

/-- A schedule is no longer than the way to go. -/
theorem length_le_toGo {schedule : List T} (h : m.run schedule s = some s') :
    schedule.length + s'.toGo ≤ s.toGo := by
  induction schedule generalizing s with
  | nil =>
    obtain rfl := Option.some.inj h
    simp
  | cons t schedule ih =>
    obtain ⟨s₁, hs₁, hrest⟩ := Option.bind_eq_some_iff.mp h
    have hle : schedule.length + s'.toGo ≤ s₁.toGo := ih hrest
    have hlt : s₁.toGo < s.toGo := (step_cases hs₁).toGo_lt
    rw [List.length_cons]
    omega

/-- Threads that go on as long as one of them can come to a state where none can. -/
theorem exists_stuck (m : Monitor σ κ α) (s : Scene σ κ α T) :
    ∃ schedule s', m.run schedule s = some s' ∧ ∀ t, m.step t s' = none := by
  induction hn : s.toGo using Nat.strong_induction_on generalizing s with
  | _ n ih =>
    by_cases hstuck : ∀ t, m.step t s = none
    · exact ⟨[], s, rfl, hstuck⟩
    · obtain ⟨t, ht⟩ := not_forall.mp hstuck
      obtain ⟨s₁, hs₁⟩ := Option.ne_none_iff_exists'.mp ht
      have hlt : s₁.toGo < n := hn ▸ (step_cases hs₁).toGo_lt
      obtain ⟨schedule, s', hrun, hend⟩ := ih _ hlt s₁ rfl
      refine ⟨t :: schedule, s', ?_, hend⟩
      rw [run, hs₁, Option.bind_some, hrun]

end Length

/-! ## No wake-up is lost -/

/-- What the state of a monitor keeps, with the number of threads inside for each key, and what
makes its wake-ups enough: going in and the sections that wake nobody free no key, and a key with
nobody inside is free. -/
structure Lawful [DecidableEq κ] (m : Monitor σ κ α) (I : σ → (κ → ℕ) → Prop) : Prop where
  enter : ∀ {x n k}, I x n → m.free x k = true → I (m.enter x k) (Function.update n k (n k + 1))
  leave : ∀ {x n k i}, I x n → n k = i + 1 → I (m.leave x k) (Function.update n k i)
  act : ∀ {x n k} (a), I x n → I (m.act x k a) n
  enter_frees : ∀ {x n k k'}, I x n → m.free (m.enter x k) k' = true → m.free x k' = true
  act_frees : ∀ {x n k k' a}, I x n → m.wakes x k a = false →
    m.free (m.act x k a) k' = true → m.free x k' = true
  vacant : ∀ {x n k}, I x n → n k = 0 → m.free x k = true

/-- The state is kept, and a thread sleeps only while its key is not free. -/
structure Settled [DecidableEq κ] [Fintype T] (m : Monitor σ κ α) (I : σ → (κ → ℕ) → Prop)
    (s : Scene σ κ α T) : Prop where
  keeps : I s.shared s.insiders
  asleep : ∀ {t k left}, (s.callers t).stage = .asleep k left → m.free s.shared k = false

section Wakeups

variable [DecidableEq κ] [Fintype T] {I : σ → (κ → ℕ) → Prop}

/-- The number of threads inside after one of them has changed. -/
theorem insiders_put_eq {c : Caller κ α} {shared : σ} {k : κ} {i : ℕ}
    (hk : i + (s.callers t).insideFor k = s.insiders k + c.insideFor k)
    (hothers : ∀ k', k' ≠ k → (s.callers t).insideFor k' = 0 ∧ c.insideFor k' = 0) :
    (s.put t c shared).insiders = Function.update s.insiders k i := by
  funext k'
  have hput : (s.put t c shared).insiders k' + (s.callers t).insideFor k' =
      s.insiders k' + c.insideFor k' := Scene.insiders_put k'
  by_cases hk' : k' = k
  · subst hk'
    rw [Function.update_self]
    omega
  · obtain ⟨hbefore, hafter⟩ := hothers k' hk'
    rw [Function.update_of_ne hk']
    omega

/-- A thread changes, and what it does frees no key. -/
theorem Settled.put (hs : m.Settled I s) {c : Caller κ α} {shared : σ}
    (hkeeps : I shared (s.put t c shared).insiders)
    (hfrees : ∀ k, m.free shared k = true → m.free s.shared k = true)
    (hc : ∀ k left, c.stage = .asleep k left → m.free shared k = false) :
    m.Settled I (s.put t c shared) := by
  refine ⟨hkeeps, ?_⟩
  intro t' k left hasleep
  by_cases ht : t' = t
  · subst ht
    rw [Scene.put_self] at hasleep
    exact hc k left hasleep
  · rw [Scene.put_of_ne ht] at hasleep
    apply Bool.eq_false_iff.mpr
    intro hfree
    exact Bool.eq_false_iff.mp (hs.asleep hasleep) (hfrees k hfree)

omit [DecidableEq T] in
/-- Where all threads have been woken none sleeps. -/
theorem settled_wakeAll (hkeeps : I s.shared s.insiders) : m.Settled I s.wakeAll := by
  refine ⟨?_, ?_⟩
  · rwa [Scene.insiders_wakeAll, Scene.wakeAll_shared]
  · intro t k left hasleep
    exact absurd hasleep (Caller.stage_wake_ne _ k left)

theorem insiders_put_same {c : Caller κ α} {shared : σ}
    (hc : ∀ k, c.insideFor k = (s.callers t).insideFor k) :
    (s.put t c shared).insiders = s.insiders := by
  funext k
  have hput : (s.put t c shared).insiders k + (s.callers t).insideFor k =
      s.insiders k + c.insideFor k := Scene.insiders_put k
  rw [hc k] at hput
  exact Nat.add_right_cancel hput

theorem Knocks.insideFor {c : Caller κ α} {k : κ} {left : List α} {calls : List (κ × List α)}
    (h : Knocks c k left calls) (k' : κ) : c.insideFor k' = 0 := by
  rcases h with rfl | rfl <;> rfl

theorem Lawful.settled_move (hm : m.Lawful I) (hs : m.Settled I s) (h : m.Move t s s') :
    m.Settled I s' := by
  cases h with
  | @enters k left calls hc hfree =>
    have hinsiders : (s.put t ⟨.inside k left, calls⟩ (m.enter s.shared k)).insiders =
        Function.update s.insiders k (s.insiders k + 1) := by
      apply insiders_put_eq
      · simp [hc.insideFor k]
      · intro k' hk'
        exact ⟨hc.insideFor k', by simp [Ne.symm hk']⟩
    apply hs.put
    · rw [hinsiders]
      exact hm.enter hs.keeps hfree
    · intro k' hfree'
      exact hm.enter_frees hs.keeps hfree'
    · intro k' left' hstage
      cases hstage
  | @sleeps k left calls hc hfree =>
    apply hs.put
    · rw [insiders_put_same (c := ⟨.asleep k left, calls⟩) fun k' => (hc.insideFor k').symm]
      exact hs.keeps
    · exact fun k' hfree' => hfree'
    · intro k' left' hstage
      cases hstage
      exact hfree
  | @leaves k calls hc =>
    have hone : (s.callers t).insideFor k = 1 := by simp [hc]
    have hpos : (s.callers t).insideFor k ≤ s.insiders k :=
      Finset.single_le_sum (f := fun t' => (s.callers t').insideFor k) (fun _ _ => Nat.zero_le _)
        (Finset.mem_univ t)
    obtain ⟨i, hi⟩ : ∃ i, s.insiders k = i + 1 := ⟨s.insiders k - 1, by omega⟩
    have hinsiders : (s.put t ⟨.outside, calls⟩ (m.leave s.shared k)).insiders =
        Function.update s.insiders k i := by
      apply insiders_put_eq
      · rw [hone, hi]
        rfl
      · intro k' hk'
        exact ⟨by simp [hc, Ne.symm hk'], rfl⟩
    apply settled_wakeAll
    rw [hinsiders]
    exact hm.leave hs.keeps hi
  | @acts k a left calls hc hwakes =>
    apply hs.put
    · rw [insiders_put_same fun k' => by simp [hc]]
      exact hm.act a hs.keeps
    · intro k' hfree'
      exact hm.act_frees hs.keeps hwakes hfree'
    · intro k' left' hstage
      cases hstage
  | @rouses k a left calls hc hwakes =>
    apply settled_wakeAll
    rw [insiders_put_same fun k' => by simp [hc]]
    exact hm.act a hs.keeps

theorem Lawful.settled_run (hm : m.Lawful I) {schedule : List T} (h : m.run schedule s = some s')
    (hs : m.Settled I s) : m.Settled I s' :=
  run_induction (fun _ _ _ hs hstep => hm.settled_move hs (step_cases hstep)) h hs

omit [DecidableEq T] in
/-- While a thread sleeps for a key another thread is inside with it. -/
theorem Lawful.exists_inside (hm : m.Lawful I) (hs : m.Settled I s) {k : κ} {left : List α}
    (h : (s.callers t).stage = .asleep k left) :
    ∃ t' left', (s.callers t').stage = .inside k left' := by
  have hnot : s.insiders k ≠ 0 := by
    intro hnone
    exact Bool.eq_false_iff.mp (hs.asleep h) (hm.vacant hs.keeps hnone)
  obtain ⟨t', -, ht'⟩ := Finset.exists_ne_zero_of_sum_ne_zero hnot
  obtain ⟨left', hleft'⟩ := Caller.insideFor_pos ht'
  exact ⟨t', left', hleft'⟩

/-- Threads that cannot go on have all ended their calls. -/
theorem Lawful.done_of_stuck (hm : m.Lawful I) (hs : m.Settled I s)
    (hstuck : ∀ t, m.step t s = none) : s.Done := by
  intro t
  rcases step_none (hstuck t) with hdone | ⟨k, left, hasleep⟩
  · exact hdone
  · obtain ⟨t', left', hinside⟩ := hm.exists_inside hs hasleep
    rcases step_none (hstuck t') with hdone | ⟨k', left'', hasleep'⟩
    · rw [hdone.1] at hinside
      cases hinside
    · rw [hasleep'] at hinside
      cases hinside

end Wakeups

end Monitor
end Threads
