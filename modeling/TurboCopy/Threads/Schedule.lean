import TurboCopy.Threads.Machine

/-!
# Replaying an interleaving

A replay of several threads: a script fixes the outcomes and the environment's steps, and
a list of turns says which thread moves next. As with the replay of one thread, executing
it only produces reachable configurations.
-/

namespace Threads

variable {S : Sig} {Y : System S} {α : Type}

/-- The thread that moves: the main thread, or a task by its position in the pool. -/
inductive Turn
  | main
  | task (i : ℕ)

/-- The next action of a thread under a script, with the tasks it forks. -/
def Script.advance (sc : Script Y) (w : World Y) :
    Prog S α → Option (Prog S α × World Y × List (Prog S Unit))
  | .act o k =>
    let r := sc.outcome w.trace.length o w.state
    if sc.check o w.state r.1 r.2 then some (k r.1, w.log r.2 (.did o r.1), []) else none
  | .recur a k => some ((Y.body a).bind k, w.log w.state (.entered a), [])
  | .loop body b k => some ((body b).bind (Sum.elim (fun b' => .loop body b' k) k), w, [])
  | .fork task k => some (k, w, [task])
  | _ => none

theorem Script.Legal.advance {sc : Script Y} (hsc : sc.Legal) {w w' : World Y} {p p' : Prog S α}
    {new : List (Prog S Unit)} (h : sc.advance w p = some (p', w', new)) :
    Advance Y p w p' w' new := by
  cases p with
  | act o k =>
    simp only [Script.advance, Option.ite_none_right_eq_some, Option.some.injEq,
      Prod.mk.injEq] at h
    obtain ⟨hc, rfl, rfl, rfl⟩ := h
    exact .act (hsc.outcome _ _ _ hc)
  | recur a k =>
    simp only [Script.advance, Option.some.injEq, Prod.mk.injEq] at h
    obtain ⟨rfl, rfl, rfl⟩ := h
    exact .recur
  | loop body b k =>
    simp only [Script.advance, Option.some.injEq, Prod.mk.injEq] at h
    obtain ⟨rfl, rfl, rfl⟩ := h
    exact .loop
  | fork task k =>
    simp only [Script.advance, Option.some.injEq, Prod.mk.injEq] at h
    obtain ⟨rfl, rfl, rfl⟩ := h
    exact .fork
  | pure a => exact nomatch h
  | pending k => exact nomatch h
  | reap k => exact nomatch h
  | drain k => exact nomatch h

/-- One turn, after the environment's step before it. A thread that cannot move skips
its turn. -/
def Script.turn (sc : Script Y) (c : Config Y α) : Turn → Config Y α
  | .main =>
    match sc.advance (sc.poked c.world) c.main with
    | some (p, w, new) => ⟨p, c.tasks ++ new, w⟩
    | none => ⟨c.main, c.tasks, sc.poked c.world⟩
  | .task i =>
    match c.tasks.drop i with
    | [] => ⟨c.main, c.tasks, sc.poked c.world⟩
    | q :: vs =>
      match sc.advance (sc.poked c.world) q with
      | some (q', w, new) => ⟨c.main, c.tasks.take i ++ q' :: vs ++ new, w⟩
      | none => ⟨c.main, c.tasks, sc.poked c.world⟩

def Script.run (sc : Script Y) : List Turn → Config Y α → Config Y α
  | [], c => c
  | t :: ts, c => sc.run ts (sc.turn c t)

theorem Script.Legal.reach_turn {sc : Script Y} (hsc : sc.Legal) (c : Config Y α) (t : Turn) :
    Reach Y c (sc.turn c t) := by
  apply (hsc.reach_poked c).trans
  cases t with
  | main =>
    unfold Script.turn
    dsimp only
    split
    · rename_i p w new h
      exact Relation.ReflTransGen.single (Step.main (hsc.advance h))
    · exact Relation.ReflTransGen.refl
  | task i =>
    unfold Script.turn
    dsimp only
    split
    · exact Relation.ReflTransGen.refl
    · rename_i q vs hq
      split
      · rename_i q' w new h
        apply Relation.ReflTransGen.single
        have htasks : c.tasks = c.tasks.take i ++ q :: vs := by
          rw [← hq, List.take_append_drop]
        have hs : Step Y ⟨c.main, c.tasks.take i ++ q :: vs, sc.poked c.world⟩
            ⟨c.main, c.tasks.take i ++ q' :: vs ++ new, w⟩ := Step.task (hsc.advance h)
        rwa [← htasks] at hs
      · exact Relation.ReflTransGen.refl

/-- A schedule of a legal script is a run. -/
theorem Script.Legal.reach_run {sc : Script Y} (hsc : sc.Legal) :
    ∀ (ts : List Turn) (c : Config Y α), Reach Y c (sc.run ts c) := by
  intro ts
  induction ts with
  | nil => exact fun c => Relation.ReflTransGen.refl
  | cons t ts ih => exact fun c => (hsc.reach_turn c t).trans (ih _)

end Threads
