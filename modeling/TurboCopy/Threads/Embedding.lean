import TurboCopy.Threads.Machine

/-!
# A system inside another

A map of the states that keeps every operation and every step of the environment takes the runs of
one system to runs of the other, with the same programs and the same history.
-/

namespace Threads

variable {S : Sig} {Y Z : System S} {α β : Type}

/-- What the one system does, the other may do as well. -/
structure Embeds (Y Z : System S) (f : Y.State → Z.State) : Prop where
  perform : ∀ o s x s', Y.perform o s x s' → Z.perform o (f s) x (f s')
  body : ∀ a, Y.body a = Z.body a
  env : ∀ s s', Y.env s s' → Z.env (f s) (f s')

def World.map (f : Y.State → Z.State) (w : World Y) : World Z := ⟨f w.state, w.trace⟩

def Config.map (f : Y.State → Z.State) (c : Config Y α) : Config Z α :=
  ⟨c.main, c.tasks, c.world.map f⟩

@[simp] theorem Config.map_trace (f : Y.State → Z.State) (c : Config Y α) :
    (c.map f).world.trace = c.world.trace := rfl

@[simp] theorem Config.map_state (f : Y.State → Z.State) (c : Config Y α) :
    (c.map f).world.state = f c.world.state := rfl

namespace Embeds

variable {f : Y.State → Z.State} {w w' : World Y} {new : List (Prog S Unit)} {c c' : Config Y α}

theorem advance (h : Embeds Y Z f) {p p' : Prog S α} (ha : Advance Y p w p' w' new) :
    Advance Z p (w.map f) p' (w'.map f) new := by
  cases ha with
  | act hs => exact Advance.act (h.perform _ _ _ _ hs)
  | @recur a k _ =>
    have ha : Advance Z (.recur a k) (w.map f) ((Z.body a).bind k)
        ((w.map f).log (w.map f).state (.entered a)) [] := Advance.recur
    rw [← h.body a] at ha
    exact ha
  | loop => exact Advance.loop
  | fork => exact Advance.fork

theorem step (h : Embeds Y Z f) (hs : Step Y c c') : Step Z (c.map f) (c'.map f) := by
  cases hs with
  | main ha => exact Step.main (h.advance ha)
  | task ha => exact Step.task (h.advance ha)
  | pending => exact Step.pending
  | reap perm some all => exact Step.reap perm some all
  | drain all => exact Step.drain all
  | env he => exact Step.env (h.env _ _ he)

/-- A run of the one system is a run of the other. -/
theorem reach (h : Embeds Y Z f) (hr : Reach Y c c') : Reach Z (c.map f) (c'.map f) :=
  Relation.ReflTransGen.lift (Config.map f) (fun _ _ => h.step) c c' hr

theorem reach_start (h : Embeds Y Z f) {p : Prog S α} {s : Y.State} {past : List (Event S)}
    (hr : Reach Y (start Y p s past) c) : Reach Z (start Z p (f s) past) (c.map f) :=
  h.reach hr

end Embeds
end Threads
