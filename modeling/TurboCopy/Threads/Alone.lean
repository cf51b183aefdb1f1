import TurboCopy.Threads.Machine

/-!
# Total correctness of a thread that runs alone

`Alone` reads a program that forks nothing and is not disturbed by the environment: from a
world the program ends, it is never stuck, and it ends only in worlds of `Q`, whatever the
outcomes of its operations. `Yields` says the same of the configurations of a run; the first
implies the second.
-/

namespace Threads

variable {S : Sig} {Y : System S} {α β γ : Type}

/-- From `w` the program ends, and only as `Q` says. -/
inductive Alone (Y : System S) :
    {α : Type} → Prog S α → World Y → (α → World Y → Prop) → Prop
  | pure {α : Type} {a : α} {w : World Y} {Q : α → World Y → Prop} (h : Q a w) :
      Alone Y (.pure a) w Q
  | act {α : Type} {o : S.Op} {k : S.Out o → Prog S α} {w : World Y} {Q : α → World Y → Prop}
      (some : ∃ x s, Y.perform o w.state x s)
      (h : ∀ x s, Y.perform o w.state x s → Alone Y (k x) (w.log s (.did o x)) Q) :
      Alone Y (.act o k) w Q
  | recur {α : Type} {a : S.Arg} {k : S.Res → Prog S α} {w : World Y} {Q : α → World Y → Prop}
      {R : S.Res → World Y → Prop} (hb : Alone Y (Y.body a) (w.log w.state (.entered a)) R)
      (h : ∀ x w', R x w' → Alone Y (k x) w' Q) : Alone Y (.recur a k) w Q
  | loop {α β γ : Type} {body : β → Prog S (β ⊕ γ)} {b : β} {k : γ → Prog S α} {w : World Y}
      {Q : α → World Y → Prop} {R : β ⊕ γ → World Y → Prop} (hb : Alone Y (body b) w R)
      (h : ∀ y w', R y w' → Alone Y (Sum.elim (fun b' => .loop body b' k) k y) w' Q) :
      Alone Y (.loop body b k) w Q
  | pending {α : Type} {k : ℕ → Prog S α} {w : World Y} {Q : α → World Y → Prop}
      (h : Alone Y (k 0) w Q) : Alone Y (.pending k) w Q
  | drain {α : Type} {k : Prog S α} {w : World Y} {Q : α → World Y → Prop}
      (h : Alone Y k w Q) : Alone Y (.drain k) w Q

namespace Alone

variable {w : World Y} {Q R : α → World Y → Prop}

theorem mono {p : Prog S α} (h : Alone Y p w R) (hR : ∀ a w, R a w → Q a w) : Alone Y p w Q := by
  induction h with
  | pure h => exact .pure (hR _ _ h)
  | act some _ ih => exact .act some fun x s hx => ih x s hx hR
  | recur hb _ _ ih => exact .recur hb fun x w' hx => ih x w' hx hR
  | loop hb _ _ ih => exact .loop hb fun y w' hy => ih y w' hy hR
  | pending _ ih => exact .pending (ih hR)
  | drain _ ih => exact .drain (ih hR)

theorem bind {p : Prog S α} {f : α → Prog S β} {Q : β → World Y → Prop} (h : Alone Y p w R)
    (hf : ∀ a w', R a w' → Alone Y (f a) w' Q) : Alone Y (p.bind f) w Q := by
  induction h with
  | pure h => exact hf _ _ h
  | act some _ ih => exact .act some fun x s hx => ih x s hx hf
  | recur hb _ _ ih => exact .recur hb fun x w' hx => ih x w' hx hf
  | @loop _ _ _ body b k w _ _ hb _ _ ih =>
    refine .loop hb fun y w' hy => ?_
    have hy' := ih y w' hy hf
    cases y with
    | inl b' => exact hy'
    | inr c => exact hy'
  | pending _ ih => exact .pending (ih hf)
  | drain _ ih => exact .drain (ih hf)

/-- A loop ends when its state decreases with every round. -/
theorem loop_decreasing {ι : Type} [Preorder ι] [WellFoundedLT ι] {body : β → Prog S (β ⊕ γ)}
    {k : γ → Prog S α} (size : β → ι) (J : β → World Y → Prop) (D : γ → World Y → Prop)
    (hbody : ∀ b w, J b w → Alone Y (body b) w fun y w' => match y with
      | .inl b' => J b' w' ∧ size b' < size b
      | .inr c => D c w')
    (hk : ∀ c w, D c w → Alone Y (k c) w Q) {b : β} (hb : J b w) :
    Alone Y (.loop body b k) w Q := by
  induction hn : size b using WellFoundedLT.induction generalizing b w with
  | ind n ih =>
    refine .loop (hbody b w hb) ?_
    rintro (b' | c) w' hy
    · exact ih (size b') (hn ▸ hy.2) hy.1 rfl
    · exact hk c w' hy

/-- One action of a program that runs alone. -/
theorem advance {p p' : Prog S α} {w' : World Y} {new : List (Prog S Unit)}
    (h : Alone Y p w Q) (ha : Advance Y p w p' w' new) : new = [] ∧ Alone Y p' w' Q := by
  cases ha with
  | act hs =>
    cases h with
    | act _ h => exact ⟨rfl, h _ _ hs⟩
  | recur =>
    cases h with
    | recur hb h => exact ⟨rfl, hb.bind h⟩
  | loop =>
    cases h with
    | loop hb h => exact ⟨rfl, hb.bind h⟩
  | fork => cases h

theorem step {p : Prog S α} {c : Config Y α} (henv : ∀ s s', ¬Y.env s s') (h : Alone Y p w Q)
    (hs : Step Y ⟨p, [], w⟩ c) : c.tasks = [] ∧ Alone Y c.main c.world Q := by
  generalize hc : (⟨p, [], w⟩ : Config Y α) = c₀ at hs
  cases hs with
  | main ha =>
    cases hc
    obtain ⟨rfl, h'⟩ := h.advance ha
    exact ⟨rfl, h'⟩
  | task ha => simp at hc
  | pending =>
    cases hc
    cases h with
    | pending h => exact ⟨rfl, h⟩
  | reap perm some _ =>
    cases hc
    exact absurd (List.append_eq_nil_iff.mp perm.nil_eq.symm).1 some
  | drain _ =>
    cases hc
    cases h with
    | drain h => exact ⟨rfl, h⟩
  | env he => exact absurd he (henv _ _)

/-- A program that runs alone can be run to where its continuation starts. -/
theorem reach_bind {p : Prog S α} (h : Alone Y p w Q) : ∀ {β : Type} (f : α → Prog S β),
    ∃ a w', Q a w' ∧ Reach Y ⟨p.bind f, [], w⟩ ⟨f a, [], w'⟩ := by
  induction h with
  | pure h => exact fun f => ⟨_, _, h, .refl⟩
  | act some h ih =>
    intro β f
    obtain ⟨x, s, hs⟩ := some
    obtain ⟨a, w', hQ, hr⟩ := ih x s hs f
    exact ⟨a, w', hQ, hr.head (Step.main (.act hs))⟩
  | @recur _ _ k _ _ _ _ _ ihb ih =>
    intro β f
    obtain ⟨x, w₁, hx, hr₁⟩ := ihb fun x => (k x).bind f
    obtain ⟨a', w', hQ, hr₂⟩ := ih x w₁ hx f
    exact ⟨a', w', hQ, (hr₁.trans hr₂).head (Step.main .recur)⟩
  | @loop _ _ _ body b k _ _ _ _ _ ihb ih =>
    intro β f
    let k' := fun c => (k c).bind f
    obtain ⟨y, w₁, hy, hr₁⟩ := ihb (Sum.elim (fun b' => .loop body b' k') k')
    obtain ⟨a, w', hQ, hr₂⟩ := ih y w₁ hy f
    refine ⟨a, w', hQ, (hr₁.trans ?_).head (Step.main .loop)⟩
    cases y with
    | inl b' => exact hr₂
    | inr c => exact hr₂
  | pending _ ih =>
    intro β f
    obtain ⟨a, w', hQ, hr⟩ := ih f
    exact ⟨a, w', hQ, hr.head Step.pending⟩
  | drain _ ih =>
    intro β f
    obtain ⟨a, w', hQ, hr⟩ := ih f
    exact ⟨a, w', hQ, hr.head (Step.drain (by simp))⟩

/-- A program that runs alone can be run to its end. -/
theorem reach {p : Prog S α} (h : Alone Y p w Q) :
    ∃ a w', Q a w' ∧ Reach Y ⟨p, [], w⟩ ⟨.pure a, [], w'⟩ := by
  have hreach := h.reach_bind .pure
  rwa [Prog.bind_pure] at hreach

end Alone

/-- Every run of the program can be completed, and each that has ended satisfies `P`. -/
structure Yields (Y : System S) (p : Prog S α) (s : Y.State) (P : α → World Y → Prop) : Prop where
  completes : ∀ c, Reach Y (start Y p s []) c → ∃ c' a, Reach Y c c' ∧ c'.Returned a
  returned : ∀ c a, Reach Y (start Y p s []) c → c.Returned a → P a c.world

/-- A program that ends when it runs alone does so in a system without an environment. -/
theorem Alone.yields (henv : ∀ s s', ¬Y.env s s') {p : Prog S α} {s : Y.State}
    {Q : α → World Y → Prop} (h : Alone Y p ⟨s, []⟩ Q) : Yields Y p s Q := by
  have hreach (c : Config Y α) (hc : Reach Y (start Y p s []) c) :
      c.tasks = [] ∧ Alone Y c.main c.world Q := by
    induction hc with
    | refl => exact ⟨rfl, h⟩
    | @tail c _ _ hs ih =>
      obtain ⟨main, tasks, world⟩ := c
      obtain ⟨rfl, h⟩ := ih
      exact h.step henv hs
  constructor
  · intro c hc
    obtain ⟨htasks, halone⟩ := hreach c hc
    obtain ⟨a, w', -, hr⟩ := halone.reach
    obtain ⟨main, tasks, world⟩ := c
    obtain rfl : tasks = [] := htasks
    exact ⟨_, a, hr, rfl, fun p hp => nomatch hp⟩
  · intro c a hc ha
    have halone := (hreach c hc).2
    rw [ha.1] at halone
    cases halone with
    | pure h => exact h

end Threads
