import TurboCopy.Threads.Program

/-!
# Interleaving execution

A configuration holds the main thread, the tasks it forked and the shared world.
A step lets one thread perform one action, or lets the environment act; the
order is arbitrary, so a statement about reachable configurations covers every
schedule. The world keeps the history of all actions, newest first.

The replay at the end of the file executes the main thread against a fixed
choice of outcomes and of environment steps. It only produces reachable
configurations, so evaluating it exhibits a run.
-/

namespace Threads

variable {S : Sig}

/-- An action of the history: an operation with its outcome, or the start of a
recursive call. -/
inductive Event (S : Sig) where
  | did (o : S.Op) (x : S.Out o)
  | entered (a : S.Arg)

/-- A meaning for a signature: the shared state, what each operation may do to it,
the body of the recursive procedure, and the spontaneous changes of the state. -/
structure System (S : Sig) where
  State : Type
  perform : (o : S.Op) → State → S.Out o → State → Prop
  body : S.Arg → Prog S S.Res
  env : State → State → Prop

/-- The steps of `Y` that satisfy a condition on the operation, its outcome and
the states around it. -/
def System.restrict (Y : System S)
    (ok : (o : S.Op) → Y.State → S.Out o → Y.State → Prop) : System S where
  State := Y.State
  perform o s x s' := Y.perform o s x s' ∧ ok o s x s'
  body := Y.body
  env := Y.env

structure World (Y : System S) where
  state : Y.State
  trace : List (Event S)

structure Config (Y : System S) (α : Type) where
  main : Prog S α
  tasks : List (Prog S Unit)
  world : World Y

variable {Y : System S} {α β : Type}

namespace World

def log (w : World Y) (s : Y.State) (e : Event S) : World Y := ⟨s, e :: w.trace⟩

@[simp] theorem log_state (w : World Y) (s : Y.State) (e : Event S) :
    (w.log s e).state = s := rfl

@[simp] theorem log_trace (w : World Y) (s : Y.State) (e : Event S) :
    (w.log s e).trace = e :: w.trace := rfl

end World

/-- A task that has run to its end. -/
def Finished (p : Prog S Unit) : Prop := p = .pure ()

/-- One action of one thread, with the tasks it forks. -/
inductive Advance (Y : System S) :
    {α : Type} → Prog S α → World Y → Prog S α → World Y → List (Prog S Unit) → Prop
  | act {α : Type} {o : S.Op} {k : S.Out o → Prog S α} {w : World Y} {x : S.Out o} {s : Y.State}
      (h : Y.perform o w.state x s) : Advance Y (.act o k) w (k x) (w.log s (.did o x)) []
  | recur {α : Type} {a : S.Arg} {k : S.Res → Prog S α} {w : World Y} :
      Advance Y (.recur a k) w ((Y.body a).bind k) (w.log w.state (.entered a)) []
  | loop {α β γ : Type} {body : β → Prog S (β ⊕ γ)} {b : β} {k : γ → Prog S α} {w : World Y} :
      Advance Y (.loop body b k) w
        ((body b).bind (Sum.elim (fun b' => .loop body b' k) k)) w []
  | fork {α : Type} {task : Prog S Unit} {k : Prog S α} {w : World Y} :
      Advance Y (.fork task k) w k w [task]

/-- One step of a configuration. Only the main thread looks at the pool: `pending`
reads its size, `reap` waits for a finished task and consumes some finished tasks,
`drain` waits until all have finished. -/
inductive Step (Y : System S) : Config Y α → Config Y α → Prop
  | main {p p' : Prog S α} {ts new : List (Prog S Unit)} {w w' : World Y}
      (h : Advance Y p w p' w' new) : Step Y ⟨p, ts, w⟩ ⟨p', ts ++ new, w'⟩
  | task {p : Prog S α} {q q' : Prog S Unit} {us vs new : List (Prog S Unit)} {w w' : World Y}
      (h : Advance Y q w q' w' new) :
      Step Y ⟨p, us ++ q :: vs, w⟩ ⟨p, us ++ q' :: vs ++ new, w'⟩
  | pending {k : ℕ → Prog S α} {ts : List (Prog S Unit)} {w : World Y} :
      Step Y ⟨.pending k, ts, w⟩ ⟨k ts.length, ts, w⟩
  | reap {k : Prog S α} {ts done rest : List (Prog S Unit)} {w : World Y}
      (perm : ts.Perm (done ++ rest)) (some : done ≠ []) (all : ∀ p ∈ done, Finished p) :
      Step Y ⟨.reap k, ts, w⟩ ⟨k, rest, w⟩
  | drain {k : Prog S α} {ts : List (Prog S Unit)} {w : World Y}
      (all : ∀ p ∈ ts, Finished p) : Step Y ⟨.drain k, ts, w⟩ ⟨k, [], w⟩
  | env {p : Prog S α} {ts : List (Prog S Unit)} {w : World Y} {s : Y.State}
      (h : Y.env w.state s) : Step Y ⟨p, ts, w⟩ ⟨p, ts, ⟨s, w.trace⟩⟩

/-- The configurations a run may pass through. -/
def Reach (Y : System S) : Config Y α → Config Y α → Prop := Relation.ReflTransGen (Step Y)

/-- The configuration in which a program starts, with the history so far. -/
def start (Y : System S) (p : Prog S α) (s : Y.State) (past : List (Event S)) : Config Y α :=
  ⟨p, [], ⟨s, past⟩⟩

/-- The run of the program has returned `a` and no task is left over. -/
def Config.Returned (c : Config Y α) (a : α) : Prop :=
  c.main = .pure a ∧ ∀ p ∈ c.tasks, Finished p

/-! ## Results that can be computed -/

/-- The value of a program that has ended. -/
def Prog.value? : {α : Type} → Prog S α → Option α
  | _, .pure a => some a
  | _, _ => none

theorem Prog.eq_pure {p : Prog S α} {a : α} (h : p.value? = some a) : p = .pure a := by
  cases p with
  | pure b => rw [Prog.value?, Option.some.injEq] at h; rw [h]
  | _ => exact nomatch h

/-- The result of a run that has returned one. -/
def Config.result? {ε : Type} (c : Config Y (Except ε α)) : Option α :=
  if c.tasks.all fun p => p.value?.isSome then c.main.value?.bind Except.toOption else none

theorem Config.returned_of_any {ε : Type} {c : Config Y (Except ε α)} {P : α → Bool}
    (h : c.result?.any P = true) : ∃ a, c.Returned (.ok a) ∧ P a = true := by
  unfold Config.result? at h
  split_ifs at h with ht
  · cases hv : c.main.value? with
    | none => rw [hv] at h; exact nomatch h
    | some r =>
      rw [hv] at h
      cases r with
      | error e => exact nomatch h
      | ok a =>
        refine ⟨a, ⟨Prog.eq_pure hv, fun p hp => ?_⟩, h⟩
        obtain ⟨u, hu⟩ := Option.isSome_iff_exists.mp (List.all_eq_true.mp ht p hp)
        exact Prog.eq_pure hu
  · exact nomatch h

/-! ## Replay -/

/-- Outcomes and environment steps fixed in advance, as functions of the number of
actions performed so far, and a check of the outcomes. -/
structure Script (Y : System S) where
  outcome : ℕ → (o : S.Op) → Y.State → S.Out o × Y.State
  check : (o : S.Op) → Y.State → S.Out o → Y.State → Bool
  poke : ℕ → Y.State → Option Y.State

/-- The script only makes choices the system allows. -/
structure Script.Legal (sc : Script Y) : Prop where
  outcome : ∀ n o s, sc.check o s (sc.outcome n o s).1 (sc.outcome n o s).2 = true →
    Y.perform o s (sc.outcome n o s).1 (sc.outcome n o s).2
  poke : ∀ n s s', sc.poke n s = some s' → Y.env s s'

/-- The world after the environment step the script has before the next action. -/
def Script.poked (sc : Script Y) (w : World Y) : World Y :=
  match sc.poke w.trace.length w.state with
  | some s => ⟨s, w.trace⟩
  | none => w

/-- The main thread's next action under a script; forking stops the replay, and so does an
outcome that fails the check. -/
def Script.next (sc : Script Y) (ts : List (Prog S Unit)) (w : World Y) :
    Prog S α → Option (Config Y α)
  | .pure _ => none
  | .act o k =>
    let r := sc.outcome w.trace.length o w.state
    if sc.check o w.state r.1 r.2 then some ⟨k r.1, ts, w.log r.2 (.did o r.1)⟩ else none
  | .recur a k => some ⟨(Y.body a).bind k, ts, w.log w.state (.entered a)⟩
  | .loop body b k =>
    some ⟨(body b).bind (Sum.elim (fun b' => .loop body b' k) k), ts, w⟩
  | .pending k => some ⟨k ts.length, ts, w⟩
  | .drain k => if ts.isEmpty then some ⟨k, [], w⟩ else none
  | .fork _ _ => none
  | .reap _ => none

/-- Execute the main thread for at most `fuel` actions. -/
def replay (sc : Script Y) : ℕ → Config Y α → Config Y α
  | 0, c => c
  | fuel + 1, c =>
    match sc.next c.tasks (sc.poked c.world) c.main with
    | none => ⟨c.main, c.tasks, sc.poked c.world⟩
    | some c' => replay sc fuel c'

theorem Script.Legal.reach_poked {sc : Script Y} (hsc : sc.Legal) (c : Config Y α) :
    Reach Y c ⟨c.main, c.tasks, sc.poked c.world⟩ := by
  unfold Script.poked
  split
  · rename_i s hs
    exact Relation.ReflTransGen.single (Step.env (hsc.poke _ _ _ hs))
  · exact Relation.ReflTransGen.refl

theorem Script.Legal.step_next {sc : Script Y} (hsc : sc.Legal) {ts : List (Prog S Unit)}
    {w : World Y} {p : Prog S α} {c' : Config Y α} (h : sc.next ts w p = some c') :
    Step Y ⟨p, ts, w⟩ c' := by
  cases p with
  | pure a => simp [Script.next] at h
  | act o k =>
    simp only [Script.next, Option.ite_none_right_eq_some, Option.some.injEq] at h
    obtain ⟨hc, rfl⟩ := h
    have ha : Advance Y (.act o k) w _ _ [] := Advance.act (hsc.outcome w.trace.length o w.state hc)
    have hs : Step Y ⟨.act o k, ts, w⟩ ⟨_, ts ++ [], _⟩ := Step.main ha
    rwa [List.append_nil] at hs
  | recur a k =>
    simp only [Script.next, Option.some.injEq] at h
    subst h
    have ha : Advance Y (.recur a k) w _ _ [] := Advance.recur
    have hs : Step Y ⟨.recur a k, ts, w⟩ ⟨_, ts ++ [], _⟩ := Step.main ha
    rwa [List.append_nil] at hs
  | loop body b k =>
    simp only [Script.next, Option.some.injEq] at h
    subst h
    have ha : Advance Y (.loop body b k) w _ _ [] := Advance.loop
    have hs : Step Y ⟨.loop body b k, ts, w⟩ ⟨_, ts ++ [], _⟩ := Step.main ha
    rwa [List.append_nil] at hs
  | pending k =>
    simp only [Script.next, Option.some.injEq] at h
    subst h
    exact Step.pending
  | drain k =>
    simp only [Script.next] at h
    split at h
    · simp only [Option.some.injEq] at h
      subst h
      exact Step.drain (by simp_all)
    · simp at h
  | fork task k => simp [Script.next] at h
  | reap k => simp [Script.next] at h

/-- A replay of a legal script is a run. -/
theorem replay_reach {sc : Script Y} (hsc : sc.Legal) :
    ∀ (fuel : ℕ) (c : Config Y α), Reach Y c (replay sc fuel c) := by
  intro fuel
  induction fuel with
  | zero => intro c; exact Relation.ReflTransGen.refl
  | succ fuel ih =>
    intro c
    refine (hsc.reach_poked c).trans ?_
    rw [replay]
    split
    · exact Relation.ReflTransGen.refl
    · rename_i c' h
      exact Relation.ReflTransGen.head (hsc.step_next h) (ih c')

end Threads
