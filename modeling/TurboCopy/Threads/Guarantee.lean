import TurboCopy.Threads.Machine

/-!
# What a program never does

`Guarantees` reads the text of a program: every operation in it satisfies `P`, as long
as the outcomes it has seen are among those `A` admits. When all outcomes a system
produces are admitted, the operations of every run satisfy `P`, whatever the schedule.
-/

namespace Threads

variable {S : Sig} {α β γ : Type} {A : (o : S.Op) → S.Out o → Prop} {P : S.Op → Prop}

/-- Every operation of the program and of the tasks it forks satisfies `P`, provided
the outcomes before it satisfy `A`. -/
def Prog.Guarantees (A : (o : S.Op) → S.Out o → Prop) (P : S.Op → Prop) :
    {α : Type} → Prog S α → Prop
  | _, .pure _ => True
  | _, .act o k => P o ∧ ∀ x, A o x → (k x).Guarantees A P
  | _, .recur _ k => ∀ x, (k x).Guarantees A P
  | _, .loop body _ k => (∀ b, (body b).Guarantees A P) ∧ ∀ c, (k c).Guarantees A P
  | _, .fork task k => task.Guarantees A P ∧ k.Guarantees A P
  | _, .pending k => ∀ n, (k n).Guarantees A P
  | _, .reap k => k.Guarantees A P
  | _, .drain k => k.Guarantees A P

theorem Prog.Guarantees.bind {p : Prog S α} {f : α → Prog S β} (hp : p.Guarantees A P)
    (hf : ∀ a, (f a).Guarantees A P) : (p.bind f).Guarantees A P := by
  induction p with
  | pure a => exact hf a
  | act o k ih => exact ⟨hp.1, fun x hx => ih x (hp.2 x hx) hf⟩
  | recur a k ih => exact fun x => ih x (hp x) hf
  | loop body b k _ ih => exact ⟨hp.1, fun c => ih c (hp.2 c) hf⟩
  | fork task k _ ih => exact ⟨hp.1, ih hp.2 hf⟩
  | pending k ih => exact fun n => ih n (hp n) hf
  | reap k ih => exact ih hp hf
  | drain k ih => exact ih hp hf

variable {Y : System S} {I : Y.State → Prop}

/-- While `I` holds, which every step keeps, all outcomes are admitted by `A`. -/
structure System.Admits (Y : System S) (A : (o : S.Op) → S.Out o → Prop)
    (I : Y.State → Prop) : Prop where
  outcome : ∀ {o s x s'}, I s → Y.perform o s x s' → A o x
  perform : ∀ {o s x s'}, I s → Y.perform o s x s' → I s'
  env : ∀ {s s'}, I s → Y.env s s' → I s'

/-- What a guarantee says about a configuration: all threads still give it, and the
operations so far satisfied it. -/
structure Guaranteed (A : (o : S.Op) → S.Out o → Prop) (P : S.Op → Prop)
    (I : Y.State → Prop) (c : Config Y α) : Prop where
  main : c.main.Guarantees A P
  tasks : ∀ q ∈ c.tasks, q.Guarantees A P
  state : I c.world.state
  trace : ∀ o x, .did o x ∈ c.world.trace → P o

theorem Advance.guarantees (hY : Y.Admits A I) (hbody : ∀ a, (Y.body a).Guarantees A P)
    {p p' : Prog S α} {w w' : World Y} {new : List (Prog S Unit)} (h : Advance Y p w p' w' new)
    (hp : p.Guarantees A P) (hi : I w.state) (ht : ∀ o x, .did o x ∈ w.trace → P o) :
    Guaranteed A P I (⟨p', new, w'⟩ : Config Y α) := by
  cases h with
  | act hs =>
    refine ⟨hp.2 _ (hY.outcome hi hs), by simp, hY.perform hi hs, ?_⟩
    intro o' x' hm
    rcases List.mem_cons.mp hm with heq | hm
    · cases heq
      exact hp.1
    · exact ht o' x' hm
  | recur =>
    refine ⟨(hbody _).bind hp, by simp, hi, ?_⟩
    intro o x hm
    rcases List.mem_cons.mp hm with heq | hm
    · exact nomatch heq
    · exact ht o x hm
  | loop =>
    refine ⟨(hp.1 _).bind ?_, by simp, hi, ht⟩
    rintro (b' | c)
    · exact hp
    · exact hp.2 c
  | fork =>
    refine ⟨hp.2, ?_, hi, ht⟩
    intro q hq
    rw [List.mem_singleton.mp hq]
    exact hp.1

theorem Guaranteed.step (hY : Y.Admits A I) (hbody : ∀ a, (Y.body a).Guarantees A P)
    {c c' : Config Y α} (hc : Guaranteed A P I c) (h : Step Y c c') : Guaranteed A P I c' := by
  obtain ⟨hmain, htasks, hi, ht⟩ := hc
  cases h with
  | main ha =>
    have h' := ha.guarantees hY hbody hmain hi ht
    refine ⟨h'.main, ?_, h'.state, h'.trace⟩
    intro q hq
    rcases List.mem_append.mp hq with hq | hq
    · exact htasks q hq
    · exact h'.tasks q hq
  | @task p q q' us vs new w w' ha =>
    have h' := ha.guarantees hY hbody (htasks q (by simp)) hi ht
    refine ⟨hmain, ?_, h'.state, h'.trace⟩
    intro r hr
    rcases List.mem_append.mp hr with hr | hr
    · rcases List.mem_append.mp hr with hr | hr
      · exact htasks r (List.mem_append_left _ hr)
      · rcases List.mem_cons.mp hr with rfl | hr
        · exact h'.main
        · exact htasks r (List.mem_append_right _ (List.mem_cons_of_mem _ hr))
    · exact h'.tasks r hr
  | pending => exact ⟨hmain _, htasks, hi, ht⟩
  | reap perm _ _ =>
    refine ⟨hmain, ?_, hi, ht⟩
    intro q hq
    exact htasks q (perm.mem_iff.mpr (List.mem_append_right _ hq))
  | drain _ => exact ⟨hmain, by simp, hi, ht⟩
  | env he => exact ⟨hmain, htasks, hY.env hi he, ht⟩

/-- Every operation of every run of a program satisfies what its text guarantees. -/
theorem Prog.Guarantees.reach (hY : Y.Admits A I) (hbody : ∀ a, (Y.body a).Guarantees A P)
    {p : Prog S α} (hp : p.Guarantees A P) {s : Y.State} (hi : I s) {c : Config Y α}
    (h : Reach Y (start Y p s []) c) : ∀ o x, .did o x ∈ c.world.trace → P o := by
  have hg : Guaranteed A P I c := by
    induction h with
    | refl => exact ⟨hp, by simp [start], hi, by simp [start]⟩
    | tail _ hs ih => exact ih.step hY hbody hs
  exact hg.trace

/-! ## Invariants of the world -/

/-- What a step of any thread does to the world. -/
inductive World.Grows (w : World Y) : World Y → Prop
  | same : Grows w w
  | act {o : S.Op} {x : S.Out o} {s : Y.State} (h : Y.perform o w.state x s) :
      Grows w (w.log s (.did o x))
  | enter (a : S.Arg) : Grows w (w.log w.state (.entered a))
  | env {s : Y.State} (h : Y.env w.state s) : Grows w ⟨s, w.trace⟩

theorem Advance.grows {p p' : Prog S α} {w w' : World Y} {new : List (Prog S Unit)}
    (h : Advance Y p w p' w' new) : w.Grows w' := by
  cases h with
  | act h => exact .act h
  | recur => exact .enter _
  | loop => exact .same
  | fork => exact .same

theorem Step.grows {c c' : Config Y α} (h : Step Y c c') : c.world.Grows c'.world := by
  cases h with
  | main ha => exact ha.grows
  | task ha => exact ha.grows
  | pending => exact .same
  | reap _ _ _ => exact .same
  | drain _ => exact .same
  | env he => exact .env he

theorem World.Grows.trace {w w' : World Y} (h : w.Grows w') : w.trace <:+ w'.trace := by
  cases h with
  | act h => exact List.suffix_cons _ _
  | enter a => exact List.suffix_cons _ _
  | _ => exact List.suffix_refl _

/-- The history of a run is the end of every later one. -/
theorem Reach.trace {c c' : Config Y α} (h : Reach Y c c') :
    c.world.trace <:+ c'.world.trace := by
  induction h with
  | refl => exact List.suffix_refl _
  | tail _ hs ih => exact ih.trans hs.grows.trace

/-- A property of the world that every step keeps, whatever the programs. -/
theorem Reach.world {K : World Y → Prop} (hK : ∀ {w w'}, w.Grows w' → K w → K w')
    {c c' : Config Y α} (h : Reach Y c c') (hi : K c.world) : K c'.world := by
  induction h with
  | refl => exact hi
  | tail _ hs ih => exact hK hs.grows ih

/-- A property of the world that every operation the programs guarantee keeps holds
throughout their runs. -/
theorem Prog.Guarantees.throughout (hbody : ∀ a, (Y.body a).Guarantees (fun _ _ => True) P)
    {p : Prog S α} (hp : p.Guarantees (fun _ _ => True) P) {K : World Y → Prop}
    (act : ∀ {w o x s}, P o → Y.perform o w.state x s → K w → K (w.log s (.did o x)))
    (enter : ∀ {w} (a : S.Arg), K w → K (w.log w.state (.entered a)))
    (env : ∀ {w s}, Y.env w.state s → K w → K ⟨s, w.trace⟩)
    {s : Y.State} (hi : K ⟨s, []⟩) {c : Config Y α} (h : Reach Y (start Y p s []) c) :
    K c.world := by
  have hY : Y.Admits (fun _ _ => True) fun _ => True :=
    ⟨fun _ _ => trivial, fun _ _ => trivial, fun _ _ => trivial⟩
  induction h with
  | refl => exact hi
  | @tail c c' hr hs ih =>
    have hops := hp.reach hY hbody trivial (hr.tail hs)
    generalize hw : c'.world = w' at hops ⊢
    have hg : c.world.Grows w' := hw ▸ hs.grows
    cases hg with
    | same => exact ih
    | act h => exact act (hops _ _ (List.mem_cons_self ..)) h ih
    | enter a => exact enter a ih
    | env h => exact env h ih

end Threads
