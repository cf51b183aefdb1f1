import TurboCopy.Threads.Crew

/-!
# The recursion of a program

`MayCall` reads off the text of a program which recursive calls it may make; a branch is a
chain of calls, each in the text of the procedure for the one before. `Halts` reads the text
for total correctness of one thread among others: whatever the outcomes it sees and whatever
the others do in between, it ends after finitely many steps of its own, all its calls are
allowed, and its part of the history says what the contract of each call promises. `Halts` is
sound for every schedule.
-/

namespace Threads

variable {S : Sig} {α β γ : Type}

/-! ## Calls and branches -/

/-- The recursive calls in the text of a program and of the tasks it forks. -/
def Prog.MayCall : {α : Type} → Prog S α → S.Arg → Prop
  | _, .pure _, _ => False
  | _, .act _ k, a => ∃ x, (k x).MayCall a
  | _, .recur b k, a => a = b ∨ ∃ x, (k x).MayCall a
  | _, .loop body _ k, a => (∃ b, (body b).MayCall a) ∨ ∃ c, (k c).MayCall a
  | _, .fork task k, a => task.MayCall a ∨ k.MayCall a
  | _, .pending k, a => ∃ n, (k n).MayCall a
  | _, .reap k, a => k.MayCall a
  | _, .drain k, a => k.MayCall a

theorem Prog.MayCall.of_bind {p : Prog S α} {f : α → Prog S β} {a : S.Arg}
    (h : (p.bind f).MayCall a) : p.MayCall a ∨ ∃ x, (f x).MayCall a := by
  induction p with
  | pure x => exact .inr ⟨x, h⟩
  | act o k ih =>
    obtain ⟨x, hx⟩ := h
    exact (ih x hx).imp_left fun h => ⟨x, h⟩
  | recur b k ih =>
    rcases h with rfl | ⟨x, hx⟩
    · exact .inl (.inl rfl)
    · exact (ih x hx).imp_left fun h => .inr ⟨x, h⟩
  | loop body b k _ ih =>
    rcases h with h | ⟨c, hc⟩
    · exact .inl (.inl h)
    · exact (ih c hc).imp_left fun h => .inr ⟨c, h⟩
  | fork task k _ ih =>
    rcases h with h | h
    · exact .inl (.inl h)
    · exact (ih h).imp_left .inr
  | pending k ih =>
    obtain ⟨n, hn⟩ := h
    exact (ih n hn).imp_left fun h => ⟨n, h⟩
  | reap k ih => exact ih h
  | drain k ih => exact ih h

/-- A program without recursive calls. -/
def Prog.Quiet (p : Prog S α) : Prop := ∀ a, ¬p.MayCall a

/-- The calls in the text of a program satisfy `C`, and its results satisfy `Q`. -/
def Prog.Guarded (C : S.Arg → Prop) : {α : Type} → Prog S α → (α → Prop) → Prop
  | _, .pure a, Q => Q a
  | _, .act _ k, Q => ∀ x, (k x).Guarded C Q
  | _, .recur a k, Q => C a ∧ ∀ x, (k x).Guarded C Q
  | _, .loop body _ k, Q => (∀ b, (body b).Guarded C fun _ => True) ∧ ∀ c, (k c).Guarded C Q
  | _, .fork task k, Q => task.Quiet ∧ k.Guarded C Q
  | _, .pending k, Q => ∀ n, (k n).Guarded C Q
  | _, .reap k, Q => k.Guarded C Q
  | _, .drain k, Q => k.Guarded C Q

namespace Prog.Guarded

variable {C : S.Arg → Prop} {Q R : α → Prop}

theorem bind {p : Prog S α} {f : α → Prog S β} {Q : β → Prop} (h : p.Guarded C R)
    (hf : ∀ a, R a → (f a).Guarded C Q) : (p.bind f).Guarded C Q := by
  induction p with
  | pure a => exact hf a h
  | act o k ih => exact fun x => ih x (h x) hf
  | recur a k ih => exact ⟨h.1, fun x => ih x (h.2 x) hf⟩
  | loop body b k _ ih => exact ⟨h.1, fun c => ih c (h.2 c) hf⟩
  | fork task k _ ih => exact ⟨h.1, ih h.2 hf⟩
  | pending k ih => exact fun n => ih n (h n) hf
  | reap k ih => exact ih h hf
  | drain k ih => exact ih h hf

theorem mono {p : Prog S α} (h : p.Guarded C R) (hR : ∀ a, R a → Q a) : p.Guarded C Q := by
  have hpure := h.bind (f := .pure) hR
  rwa [Prog.bind_pure] at hpure

/-- A program without loops and calls. -/
theorem of_tracks {σ : Type} {M : Moving S σ} {p : Prog S α} {g : σ}
    (h : p.Tracks M (fun a _ => Q a) g) : p.Guarded C Q := by
  induction p generalizing g with
  | pure a => exact h
  | act o k ih =>
    intro x
    obtain ⟨g', -, hk⟩ := h x
    exact ih x hk
  | _ => exact h.elim

theorem calls {p : Prog S α} (h : p.Guarded C Q) {a : S.Arg} (ha : p.MayCall a) : C a := by
  induction p with
  | pure x => exact ha.elim
  | act o k ih =>
    obtain ⟨x, hx⟩ := ha
    exact ih x (h x) hx
  | recur b k ih =>
    rcases ha with rfl | ⟨x, hx⟩
    · exact h.1
    · exact ih x (h.2 x) hx
  | loop body b k ihb ih =>
    rcases ha with ⟨b', hb⟩ | ⟨c, hc⟩
    · exact ihb b' (h.1 b') hb
    · exact ih c (h.2 c) hc
  | fork task k _ ih =>
    rcases ha with ha | ha
    · exact absurd ha (h.1 a)
    · exact ih h.2 ha
  | pending k ih =>
    obtain ⟨n, hn⟩ := ha
    exact ih n (h n) hn
  | reap k ih => exact ih h ha
  | drain k ih => exact ih h ha

end Prog.Guarded

/-- A chain of nested calls that starts with `a₀`, the innermost call first. -/
inductive CallStack (body : S.Arg → Prog S S.Res) (a₀ : S.Arg) : List S.Arg → Prop
  | root : CallStack body a₀ [a₀]
  | call {a b : S.Arg} {rest : List S.Arg} :
      CallStack body a₀ (b :: rest) → (body b).MayCall a → CallStack body a₀ (a :: b :: rest)

variable {Y : System S}

/-- Whose text has the call: the program's, or that of a call made before. -/
def Called (Y : System S) (p : Prog S α) (past : List (Event S)) (a : S.Arg) : Prop :=
  p.MayCall a ∨ ∃ b, .entered b ∈ past ∧ (Y.body b).MayCall a

theorem Called.grow {p : Prog S α} {past past' : List (Event S)} {a : S.Arg}
    (h : Called Y p past a) (hsub : past ⊆ past') : Called Y p past' a :=
  h.imp_right fun ⟨b, hb, ha⟩ => ⟨b, hsub hb, ha⟩

/-- The calls of a configuration, those made and those to come, are in some text. -/
structure Attributed (p : Prog S α) (c : Config Y α) : Prop where
  main : ∀ a, c.main.MayCall a → Called Y p c.world.trace a
  tasks : ∀ q ∈ c.tasks, ∀ a, q.MayCall a → Called Y p c.world.trace a
  made : ∀ later a earlier, c.world.trace = later ++ .entered a :: earlier → Called Y p earlier a

theorem Advance.attributed {p : Prog S α} {q q' : Prog S β} {w w' : World Y}
    {new : List (Prog S Unit)} (h : Advance Y q w q' w' new)
    (hq : ∀ a, q.MayCall a → Called Y p w.trace a)
    (hmade : ∀ later a earlier, w.trace = later ++ .entered a :: earlier → Called Y p earlier a) :
    (∀ a, q'.MayCall a → Called Y p w'.trace a) ∧
      (∀ r ∈ new, ∀ a, r.MayCall a → Called Y p w'.trace a) ∧ w.trace ⊆ w'.trace ∧
      ∀ later a earlier, w'.trace = later ++ .entered a :: earlier → Called Y p earlier a := by
  cases h with
  | @act o k _ x s hs =>
    refine ⟨fun a ha => (hq a ⟨x, ha⟩).grow (List.subset_cons_self ..), by simp,
      List.subset_cons_self .., fun later a earlier htrace => ?_⟩
    rcases later with _ | ⟨e, later⟩
    · exact nomatch (List.cons.inj htrace).1
    · exact hmade later a earlier (List.cons.inj htrace).2
  | @recur b k =>
    refine ⟨fun a ha => ?_, by simp, List.subset_cons_self .., fun later a earlier htrace => ?_⟩
    · rcases ha.of_bind with ha | ⟨x, ha⟩
      · exact .inr ⟨b, List.mem_cons_self .., ha⟩
      · exact (hq a (.inr ⟨x, ha⟩)).grow (List.subset_cons_self ..)
    · rcases later with _ | ⟨e, later⟩
      · obtain ⟨he, rfl⟩ := List.cons.inj htrace
        cases he
        exact hq b (.inl rfl)
      · exact hmade later a earlier (List.cons.inj htrace).2
  | @loop _ _ body b k =>
    refine ⟨fun a ha => ?_, by simp, List.Subset.refl _, hmade⟩
    rcases ha.of_bind with ha | ⟨b' | c, ha⟩
    · exact hq a (.inl ⟨b, ha⟩)
    · exact hq a ha
    · exact hq a (.inr ⟨c, ha⟩)
  | fork =>
    refine ⟨fun a ha => hq a (.inr ha), ?_, List.Subset.refl _, hmade⟩
    intro r hr a ha
    rw [List.mem_singleton.mp hr] at ha
    exact hq a (.inl ha)

theorem Attributed.step {p : Prog S α} {c c' : Config Y α} (hc : Attributed p c)
    (h : Step Y c c') : Attributed p c' := by
  obtain ⟨hmain, htasks, hmade⟩ := hc
  cases h with
  | main ha =>
    obtain ⟨hmain', hnew, hsub, hmade'⟩ := ha.attributed hmain hmade
    refine ⟨hmain', fun q hq a hqa => ?_, hmade'⟩
    rcases List.mem_append.mp hq with hq | hq
    · exact (htasks q hq a hqa).grow hsub
    · exact hnew q hq a hqa
  | @task m q q' us vs new w w' ha =>
    obtain ⟨hq', hnew, hsub, hmade'⟩ := ha.attributed (htasks q (by simp)) hmade
    refine ⟨fun a ha => (hmain a ha).grow hsub, fun r hr a hra => ?_, hmade'⟩
    rcases List.mem_append.mp hr with hr | hr
    · rcases List.mem_append.mp hr with hr | hr
      · exact (htasks r (List.mem_append_left _ hr) a hra).grow hsub
      · rcases List.mem_cons.mp hr with rfl | hr
        · exact hq' a hra
        · exact (htasks r (by simp [hr]) a hra).grow hsub
    · exact hnew r hr a hra
  | pending => exact ⟨fun a ha => hmain a ⟨_, ha⟩, htasks, hmade⟩
  | reap perm _ _ =>
    refine ⟨hmain, fun q hq => htasks q ?_, hmade⟩
    exact perm.mem_iff.mpr (List.mem_append_right _ hq)
  | drain _ => exact ⟨hmain, fun q hq => (nomatch hq), hmade⟩
  | env he => exact ⟨hmain, htasks, hmade⟩

theorem Attributed.reach {p : Prog S α} {s : Y.State} {c : Config Y α}
    (h : Reach Y (start Y p s []) c) : Attributed p c := by
  induction h with
  | refl =>
    refine ⟨fun a ha => .inl ha, fun q hq => (nomatch hq), fun later a earlier htrace => ?_⟩
    exact absurd htrace (by simp [start])
  | tail _ hs ih => exact ih.step hs

/-- Every call of a run that starts with the call `a₀` is at the end of a branch of it, made of
earlier calls. -/
theorem Attributed.branch {a₀ : S.Arg} {k : S.Res → Prog S α} (hk : ∀ x, (k x).Quiet)
    {c : Config Y α} (hc : Attributed (.recur a₀ k) c) {later earlier : List (Event S)} {a : S.Arg}
    (htrace : c.world.trace = later ++ .entered a :: earlier) :
    ∃ rest, CallStack Y.body a₀ (a :: rest) ∧ ∀ b ∈ rest, .entered b ∈ earlier := by
  induction hn : earlier.length using Nat.strong_induction_on generalizing later earlier a with
  | _ n ih =>
    rcases hc.made later a earlier htrace with (rfl | ⟨x, hx⟩) | ⟨b, hb, ha⟩
    · exact ⟨[], .root, by simp⟩
    · exact absurd hx (hk x a)
    · obtain ⟨newer, older, rfl⟩ := List.append_of_mem hb
      have hlt : older.length < n := by
        rw [← hn, List.length_append, List.length_cons]
        omega
      have htrace' : c.world.trace =
          (later ++ .entered a :: newer) ++ .entered b :: older := by
        rw [htrace, List.append_assoc, List.cons_append]
      obtain ⟨rest, hbranch, hrest⟩ := ih older.length hlt htrace' rfl
      refine ⟨b :: rest, hbranch.call ha, fun b' hb' => ?_⟩
      rcases List.mem_cons.mp hb' with rfl | hb'
      · exact hb
      · exact List.mem_append_right _ (List.mem_cons_of_mem _ (hrest b' hb'))

/-- A thread that keeps its own operations in mind. -/
def Logs : Moving S (List (Event S)) := fun o x g g' => g' = .did o x :: g

/-- Whatever a program without loops and calls does, it can keep its operations in mind. -/
theorem Prog.Tracks.logs {σ : Type} {M : Moving S σ} {p : Prog S α} {P : α → Prop} {g : σ}
    (h : p.Tracks M (fun a _ => P a) g) (t : List (Event S)) :
    p.Tracks Logs (fun a t' => P a ∧ t ⊆ t') t := by
  suffices hs : ∀ t', t ⊆ t' → p.Tracks Logs (fun a t' => P a ∧ t ⊆ t') t' from
    hs t (List.Subset.refl t)
  induction p generalizing g with
  | pure a => exact fun t' hsub => ⟨h, hsub⟩
  | act o k ih =>
    intro t' hsub x
    obtain ⟨g', -, hk⟩ := h x
    exact ⟨_, rfl, ih x hk _ fun e he => List.mem_cons_of_mem _ (hsub he)⟩
  | _ => exact h.elim

/-- What it keeps in mind can be forgotten. -/
theorem Prog.Tracks.forget {σ : Type} {M : Moving S σ} {p : Prog S α} {P : α → σ → Prop}
    {Q : α → Prop} {g : σ} (h : p.Tracks M P g) (hQ : ∀ a g, P a g → Q a) :
    p.Tracks (fun _ _ _ _ => True) (fun a (_ : Unit) => Q a) () := by
  induction p generalizing g with
  | pure a => exact hQ a g h
  | act o k ih =>
    intro x
    obtain ⟨g', -, hk⟩ := h x
    exact ⟨(), trivial, ih x hk hQ⟩
  | _ => exact h.elim

/-! ## Ending among other threads -/

section Halts

variable (body : S.Arg → Prog S S.Res) (A : (o : S.Op) → S.Out o → Prop) (C : S.Arg → Prop)
  (D : S.Arg → S.Res → List (Event S) → Prop)

/-- A program ends after finitely many steps of its own, in `Q` of its result and the history
`t` since its call began, which other threads extend as they like. The outcomes it sees are
those that `A` admits, and the calls it makes satisfy `C` and keep the contract `D`. -/
inductive Halts : {α : Type} → Prog S α → List (Event S) → (α → List (Event S) → Prop) → Prop
  | pure {α : Type} {a : α} {t : List (Event S)} {Q : α → List (Event S) → Prop} (h : Q a t) :
      Halts (.pure a) t Q
  | act {α : Type} {o : S.Op} {k : S.Out o → Prog S α} {t : List (Event S)}
      {Q : α → List (Event S) → Prop}
      (h : ∀ t' x, t ⊆ t' → A o x → Halts (k x) (.did o x :: t') Q) : Halts (.act o k) t Q
  | recur {α : Type} {a : S.Arg} {k : S.Res → Prog S α} {t : List (Event S)}
      {Q : α → List (Event S) → Prop} (hc : C a) (hb : Halts (body a) [] (D a))
      (h : ∀ t' x during, .entered a :: t ⊆ t' → during ⊆ t' → D a x during → Halts (k x) t' Q) :
      Halts (.recur a k) t Q
  | loop {α β γ : Type} {round : β → Prog S (β ⊕ γ)} {b : β} {k : γ → Prog S α}
      {t : List (Event S)} {Q : α → List (Event S) → Prop} {R : β ⊕ γ → List (Event S) → Prop}
      (hb : ∀ t', t ⊆ t' → Halts (round b) t' R)
      (h : ∀ y t', R y t' → Halts (Sum.elim (fun b' => .loop round b' k) k y) t' Q) :
      Halts (.loop round b k) t Q
  | fork {α : Type} {task : Prog S Unit} {k : Prog S α} {t : List (Event S)}
      {Q : α → List (Event S) → Prop} (ht : task.Quiet) (h : ∀ t', t ⊆ t' → Halts k t' Q) :
      Halts (.fork task k) t Q
  | pending {α : Type} {k : ℕ → Prog S α} {t : List (Event S)} {Q : α → List (Event S) → Prop}
      (h : ∀ n t', t ⊆ t' → Halts (k n) t' Q) : Halts (.pending k) t Q
  | reap {α : Type} {k : Prog S α} {t : List (Event S)} {Q : α → List (Event S) → Prop}
      (h : ∀ t', t ⊆ t' → Halts k t' Q) : Halts (.reap k) t Q
  | drain {α : Type} {k : Prog S α} {t : List (Event S)} {Q : α → List (Event S) → Prop}
      (h : ∀ t', t ⊆ t' → Halts k t' Q) : Halts (.drain k) t Q

variable {body A C D} {t : List (Event S)} {Q R : α → List (Event S) → Prop}

theorem Halts.mono {p : Prog S α} (h : Halts body A C D p t R) (hR : ∀ a t, R a t → Q a t) :
    Halts body A C D p t Q := by
  induction h with
  | pure h => exact .pure (hR _ _ h)
  | act _ ih => exact .act fun t' x ht hx => ih t' x ht hx hR
  | recur hc hb _ _ ih => exact .recur hc hb fun t' x during ht hd hx => ih t' x during ht hd hx hR
  | loop hb _ _ ih => exact .loop hb fun y t' hy => ih y t' hy hR
  | fork ht _ ih => exact .fork ht fun t' hsub => ih t' hsub hR
  | pending _ ih => exact .pending fun n t' hsub => ih n t' hsub hR
  | reap _ ih => exact .reap fun t' hsub => ih t' hsub hR
  | drain _ ih => exact .drain fun t' hsub => ih t' hsub hR

theorem Halts.bind {p : Prog S α} {f : α → Prog S β} {Q : β → List (Event S) → Prop}
    (h : Halts body A C D p t R) (hf : ∀ a t', R a t' → Halts body A C D (f a) t' Q) :
    Halts body A C D (p.bind f) t Q := by
  induction h with
  | pure h => exact hf _ _ h
  | act _ ih => exact .act fun t' x ht hx => ih t' x ht hx hf
  | recur hc hb _ _ ih => exact .recur hc hb fun t' x during ht hd hx => ih t' x during ht hd hx hf
  | @loop _ _ _ round b k _ _ _ hb _ _ ih =>
    refine .loop hb fun y t' hy => ?_
    have hy' := ih y t' hy hf
    cases y with
    | inl b' => exact hy'
    | inr c => exact hy'
  | fork ht _ ih => exact .fork ht fun t' hsub => ih t' hsub hf
  | pending _ ih => exact .pending fun n t' hsub => ih n t' hsub hf
  | reap _ ih => exact .reap fun t' hsub => ih t' hsub hf
  | drain _ ih => exact .drain fun t' hsub => ih t' hsub hf

/-- The history of a program grows. -/
theorem Halts.grows {p : Prog S α} (h : Halts body A C D p t Q) {t₀ : List (Event S)}
    (hsub : t₀ ⊆ t) : Halts body A C D p t fun a t' => Q a t' ∧ t₀ ⊆ t' := by
  induction h with
  | pure h => exact .pure ⟨h, hsub⟩
  | act _ ih =>
    exact .act fun t' x ht hx => ih t' x ht hx (List.subset_cons_of_subset _ (List.Subset.trans hsub ht))
  | recur hc hb _ _ ih =>
    refine .recur hc hb fun t' x during ht hd hx => ih t' x during ht hd hx ?_
    exact List.Subset.trans (List.subset_cons_of_subset _ hsub) ht
  | loop _ _ ihb ih =>
    refine .loop (fun t' ht => ihb t' ht (List.Subset.trans hsub ht)) ?_
    exact fun y t' hy => ih y t' hy.1 hy.2
  | fork ht _ ih => exact .fork ht fun t' ht => ih t' ht (List.Subset.trans hsub ht)
  | pending _ ih => exact .pending fun n t' ht => ih n t' ht (List.Subset.trans hsub ht)
  | reap _ ih => exact .reap fun t' ht => ih t' ht (List.Subset.trans hsub ht)
  | drain _ ih => exact .drain fun t' ht => ih t' ht (List.Subset.trans hsub ht)

/-- A loop ends when its state decreases with every round. -/
theorem Halts.loop_decreasing {ι : Type} [Preorder ι] [WellFoundedLT ι]
    {round : β → Prog S (β ⊕ γ)} {k : γ → Prog S α} (size : β → ι)
    (J : β → List (Event S) → Prop) (E : γ → List (Event S) → Prop)
    (hJ : ∀ b t t', t ⊆ t' → J b t → J b t')
    (hround : ∀ b t, J b t → Halts body A C D (round b) t fun y t' => match y with
      | .inl b' => J b' t' ∧ size b' < size b
      | .inr c => E c t')
    (hk : ∀ c t, E c t → Halts body A C D (k c) t Q) {b : β} (hb : J b t) :
    Halts body A C D (.loop round b k) t Q := by
  induction hn : size b using WellFoundedLT.induction generalizing b t with
  | ind n ih =>
    refine .loop (fun t' hsub => hround b t' (hJ b t t' hsub hb)) ?_
    rintro (b' | c) t' hy
    · exact ih (size b') (hn ▸ hy.2) hy.1 rfl
    · exact hk c t' hy

/-- A program without loops and calls ends. What it tells of its own operations holds. -/
theorem Halts.of_tracks {p : Prog S α} {g : List (Event S)} {P : α → List (Event S) → Prop}
    (h : p.Tracks Logs P g) (hg : ∀ o x, .did o x ∈ g → A o x) (hsub : g ⊆ t) :
    Halts body A C D p t fun a t' => ∃ own, P a own ∧ (∀ o x, .did o x ∈ own → A o x) ∧ own ⊆ t' := by
  induction p generalizing g t with
  | pure a => exact .pure ⟨g, h, hg, hsub⟩
  | act o k ih =>
    refine .act fun t' x ht hx => ?_
    obtain ⟨_, rfl, hk⟩ := h x
    refine ih x hk ?_ ?_
    · intro o' x' hm
      rcases List.mem_cons.mp hm with heq | hm
      · cases heq
        exact hx
      · exact hg o' x' hm
    · exact List.cons_subset_cons _ fun e he => ht (hsub he)
  | _ => exact h.elim

end Halts

/-! ## Soundness -/

section Fate

variable (body : S.Arg → Prog S S.Res) (A : (o : S.Op) → S.Out o → Prop) (C : S.Arg → Prop)

/-- A step of the main thread: the program, the history and the tasks it forks. -/
inductive MainMove : Prog S α → List (Event S) → Prog S α → List (Event S) →
    List (Prog S Unit) → Prop
  | act {o : S.Op} {k : S.Out o → Prog S α} {t : List (Event S)} {x : S.Out o} (hx : A o x) :
      MainMove (.act o k) t (k x) (.did o x :: t) []
  | recur {a : S.Arg} {k : S.Res → Prog S α} {t : List (Event S)} :
      MainMove (.recur a k) t ((body a).bind k) (.entered a :: t) []
  | loop {β γ : Type} {round : β → Prog S (β ⊕ γ)} {b : β} {k : γ → Prog S α}
      {t : List (Event S)} : MainMove (.loop round b k) t
        ((round b).bind (Sum.elim (fun b' => .loop round b' k) k)) t []
  | fork {task : Prog S Unit} {k : Prog S α} {t : List (Event S)} :
      MainMove (.fork task k) t k t [task]
  | pending {k : ℕ → Prog S α} {t : List (Event S)} (n : ℕ) : MainMove (.pending k) t (k n) t []
  | reap {k : Prog S α} {t : List (Event S)} : MainMove (.reap k) t k t []
  | drain {k : Prog S α} {t : List (Event S)} : MainMove (.drain k) t k t []

/-- A part of the history without a call. -/
def Plain (t : List (Event S)) : Prop := ∀ a, .entered a ∉ t

/-- What becomes of a main thread while other threads, which make no calls, extend the history:
it ends after finitely many steps, in `R`, and its calls satisfy `C`. -/
inductive Fate (R : α → List (Event S) → Prop) : Prog S α → List (Event S) → Prop
  | intro {p : Prog S α} {t : List (Event S)}
      (done : ∀ a ext, Plain ext → p = .pure a → R a (ext ++ t))
      (calls : ∀ a k, p = .recur a k → C a)
      (forks : ∀ ext p' t' new, Plain ext → MainMove body A p (ext ++ t) p' t' new →
        ∀ q ∈ new, q.Quiet)
      (next : ∀ ext p' t' new, Plain ext → MainMove body A p (ext ++ t) p' t' new →
        Fate R p' t') : Fate R p t

/-- The call of `a` whose history since it began is `later` has ended and kept its contract. -/
def CallKept (D : S.Arg → S.Res → List (Event S) → Prop) (a : S.Arg) (later : List (Event S)) : Prop :=
  ∃ x after during, later = after ++ during ∧ D a x during

/-- All calls of a part of the history have ended in it. -/
def AllKept (D : S.Arg → S.Res → List (Event S) → Prop) (t : List (Event S)) : Prop :=
  ∀ later a earlier, t = later ++ .entered a :: earlier → CallKept D a later

variable {body A C} {D : S.Arg → S.Res → List (Event S) → Prop}

/-- A move of the main thread enters the call it is at, or none. -/
theorem MainMove.entered {p p' : Prog S α} {t t' : List (Event S)} {new : List (Prog S Unit)}
    {a : S.Arg} (h : MainMove body A p t p' t' new) (ha : .entered a ∈ t') :
    .entered a ∈ t ∨ ∃ k, p = .recur a k := by
  cases h with
  | act hx =>
    rcases List.mem_cons.mp ha with heq | ha
    · exact nomatch heq
    · exact .inl ha
  | recur =>
    rcases List.mem_cons.mp ha with heq | ha
    · cases heq
      exact .inr ⟨_, rfl⟩
    · exact .inl ha
  | _ => exact .inl ha

theorem Plain.did (o : S.Op) (x : S.Out o) {t : List (Event S)} (h : Plain t) :
    Plain (.did o x :: t) := by
  intro a hm
  rcases List.mem_cons.mp hm with heq | hm
  · exact nomatch heq
  · exact h a hm

theorem AllKept.append {t t' : List (Event S)} (h : AllKept D t) (h' : AllKept D t') :
    AllKept D (t' ++ t) := by
  intro later a earlier heq
  rcases List.append_eq_append_iff.mp heq with ⟨l, rfl, ht⟩ | ⟨l, rfl, ht⟩
  · obtain ⟨x, after, during, rfl, hd⟩ := h l a earlier ht
    exact ⟨x, t' ++ after, during, by rw [List.append_assoc], hd⟩
  · rcases l with _ | ⟨e, l⟩
    · obtain ⟨x, after, during, heq', hd⟩ := h [] a earlier ht.symm
      rw [List.nil_eq, List.append_eq_nil_iff] at heq'
      obtain ⟨rfl, rfl⟩ := heq'
      exact ⟨x, later, [], by simp, hd⟩
    · obtain ⟨rfl, rfl⟩ := List.cons.inj ht
      exact h' later a l rfl

theorem AllKept.entered {t : List (Event S)} {a : S.Arg} {x : S.Res} (h : AllKept D t)
    (hd : D a x t) : AllKept D (t ++ [.entered a]) := by
  intro later b earlier heq
  rcases List.append_eq_append_iff.mp heq with ⟨l, rfl, ht⟩ | ⟨l, rfl, ht⟩
  · rcases l with _ | ⟨e, l⟩
    · rw [List.nil_append] at ht
      obtain ⟨he, -⟩ := List.cons.inj ht
      cases he
      exact ⟨x, [], t, by simp, hd⟩
    · exact absurd (List.cons.inj ht).2 (by simp)
  · rcases l with _ | ⟨e, l⟩
    · rw [List.nil_append] at ht
      obtain ⟨he, -⟩ := List.cons.inj ht
      cases he
      exact ⟨x, [], later, by simp, by simpa using hd⟩
    · obtain ⟨rfl, rfl⟩ := List.cons.inj ht
      exact h later b l rfl

/-- A program that ends in `Q`, with the history `t` since its call began and `T` in all, hands
over to `f`, whose fate is known. -/
def HandsOver (body : S.Arg → Prog S S.Res) (A : (o : S.Op) → S.Out o → Prop)
    (C : S.Arg → Prop) (D : S.Arg → S.Res → List (Event S) → Prop) (Q : α → List (Event S) → Prop)
    (R : β → List (Event S) → Prop) (f : α → Prog S β) (t T : List (Event S)) : Prop :=
  ∀ a ext, Q a (ext ++ t) → AllKept D ext → Fate body A C R (f a) (ext ++ T)

theorem HandsOver.extend {Q : α → List (Event S) → Prop} {R : β → List (Event S) → Prop}
    {f : α → Prog S β} {t T mid : List (Event S)} (hf : HandsOver body A C D Q R f t T)
    (hmid : AllKept D mid) : HandsOver body A C D Q R f (mid ++ t) (mid ++ T) := by
  intro a ext ha hkept
  have hrest := hf a (ext ++ mid) (by rwa [List.append_assoc]) (hmid.append hkept)
  rwa [List.append_assoc] at hrest

end Fate

section Schedule

variable {A : (o : S.Op) → S.Out o → Prop} {C : S.Arg → Prop} {R : α → List (Event S) → Prop}

/-- The main thread has a fate, its calls so far are allowed, and the other threads make none. -/
structure Fated (A : (o : S.Op) → S.Out o → Prop) (C : S.Arg → Prop)
    (R : α → List (Event S) → Prop) (c : Config Y α) : Prop where
  main : Fate Y.body A C R c.main c.world.trace
  calls : ∀ a, .entered a ∈ c.world.trace → C a
  tasks : ∀ q ∈ c.tasks, q.Quiet

theorem Fate.extend {body : S.Arg → Prog S S.Res} {p : Prog S α} {t ext : List (Event S)}
    (h : Fate body A C R p t) (hext : Plain ext) : Fate body A C R p (ext ++ t) := by
  have happend (ext' : List (Event S)) (hext' : Plain ext') : Plain (ext' ++ ext) := by
    intro a hm
    rcases List.mem_append.mp hm with hm | hm
    · exact hext' a hm
    · exact hext a hm
  obtain ⟨done, calls, forks, next⟩ := h
  refine ⟨fun a ext' hext' hp => ?_, calls, fun ext' p' t' new hext' hm => ?_,
    fun ext' p' t' new hext' hm => ?_⟩
  · rw [← List.append_assoc]
    exact done a _ (happend ext' hext') hp
  · rw [← List.append_assoc] at hm
    exact forks _ p' t' new (happend ext' hext') hm
  · rw [← List.append_assoc] at hm
    exact next _ p' t' new (happend ext' hext') hm

/-- A step of a configuration is one of the main thread, or it leaves its program. -/
theorem Step.cases_main (hA : ∀ o s x s', Y.perform o s x s' → A o x) {c c' : Config Y α}
    (h : Step Y c c') (htasks : ∀ q ∈ c.tasks, q.Quiet) :
    (∃ new, MainMove Y.body A c.main c.world.trace c'.main c'.world.trace new ∧
      ∀ q ∈ c'.tasks, q ∈ c.tasks ∨ q ∈ new) ∨
    c'.main = c.main ∧ (∃ ext, Plain ext ∧ c'.world.trace = ext ++ c.world.trace) ∧
      ∀ q ∈ c'.tasks, q.Quiet := by
  cases h with
  | @main p p' ts new w w' ha =>
    left
    refine ⟨new, ?_, fun q hq => List.mem_append.mp hq⟩
    cases ha with
    | act hs => exact .act (hA _ _ _ _ hs)
    | recur => exact .recur
    | loop => exact .loop
    | fork => exact .fork
  | @task p q q' us vs new w w' ha =>
    have hq : q.Quiet := htasks q (by simp)
    right
    have hmain : ∀ r ∈ us ++ vs, r.Quiet := by
      intro r hr
      exact htasks r (by rcases List.mem_append.mp hr with hr | hr <;> simp [hr])
    have hquiet : (∃ ext, Plain ext ∧ w'.trace = ext ++ w.trace) ∧ q'.Quiet ∧
        ∀ r ∈ new, r.Quiet := by
      cases ha with
      | @act o k _ x s hs =>
        refine ⟨⟨[.did o x], by simp [Plain], rfl⟩, fun a h => hq a ⟨x, h⟩, by simp⟩
      | recur => exact absurd (.inl rfl) (hq _)
      | @loop _ _ body b k =>
        refine ⟨⟨[], by simp [Plain], rfl⟩, fun a h => ?_, by simp⟩
        rcases h.of_bind with h | ⟨b' | x, h⟩
        · exact hq a (.inl ⟨b, h⟩)
        · exact hq a h
        · exact hq a (.inr ⟨x, h⟩)
      | fork =>
        refine ⟨⟨[], by simp [Plain], rfl⟩, fun a h => hq a (.inr h), fun r hr a h => ?_⟩
        rw [List.mem_singleton.mp hr] at h
        exact hq a (.inl h)
    refine ⟨rfl, hquiet.1, fun r hr => ?_⟩
    rcases List.mem_append.mp hr with hr | hr
    · rcases List.mem_append.mp hr with hr | hr
      · exact hmain r (List.mem_append_left _ hr)
      · rcases List.mem_cons.mp hr with rfl | hr
        · exact hquiet.2.1
        · exact hmain r (List.mem_append_right _ hr)
    · exact hquiet.2.2 r hr
  | @pending k ts w => exact .inl ⟨[], .pending ts.length, fun q hq => .inl hq⟩
  | @reap k ts finished rest w perm some _ =>
    refine .inl ⟨[], .reap, fun q hq => .inl ?_⟩
    exact perm.mem_iff.mpr (List.mem_append_right _ hq)
  | drain _ => exact .inl ⟨[], .drain, fun q hq => nomatch hq⟩
  | env he => exact .inr ⟨rfl, ⟨[], by simp [Plain], rfl⟩, htasks⟩

theorem Fated.step (hA : ∀ o s x s', Y.perform o s x s' → A o x) {c c' : Config Y α}
    (hc : Fated A C R c) (h : Step Y c c') : Fated A C R c' := by
  obtain ⟨hmain, hcalls, htasks⟩ := hc
  rcases h.cases_main hA htasks with ⟨new, hm, hnew⟩ | ⟨hsame, ⟨ext, hext, htrace⟩, hquiet⟩
  · obtain ⟨-, calls, forks, next⟩ := hmain
    refine ⟨next [] _ _ new (by simp [Plain]) hm, fun a ha => ?_, fun q hq => ?_⟩
    · rcases hm.entered ha with ha | ⟨k, hk⟩
      · exact hcalls a ha
      · exact calls a k hk
    · rcases hnew q hq with hq | hq
      · exact htasks q hq
      · exact forks [] _ _ new (by simp [Plain]) hm q hq
  · refine ⟨?_, fun a ha => ?_, hquiet⟩
    · rw [hsame, htrace]
      exact hmain.extend hext
    · rw [htrace] at ha
      exact hcalls a ((List.mem_append.mp ha).resolve_left (hext a))

theorem Fated.reach (hA : ∀ o s x s', Y.perform o s x s' → A o x) {c c' : Config Y α}
    (hc : Fated A C R c) (h : Reach Y c c') : Fated A C R c' := by
  induction h with
  | refl => exact hc
  | tail _ hs ih => exact ih.step hA hs

end Schedule
end Threads
