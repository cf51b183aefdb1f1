import Mathlib.Algebra.Order.Group.Multiset
import TurboCopy.Threads.Machine

/-!
# Token protocols

A protocol says what a thread has to hold for an operation and what it holds
afterwards. What is held is a multiset of tokens; a token names a duty or a
permission with the values it concerns, so it carries everything a thread knows
about its own past. `Obeys` follows the text of a program and checks that its
tokens pay for every action.

The soundness theorem forgets the programs. Every configuration a run reaches is
reached by the ledger of the protocol, in which any held tokens may pay for the
next action. What holds in every ledger is proved by induction over its moves,
with no program, schedule or thread in sight.
-/

namespace Threads

variable {S : Sig} {T α β : Type}

/-- `rule` and `solo` turn tokens when an operation has an outcome, `solo` only when
nothing else is held by any thread. `call` pays for a recursive call, `result` says
what a call leaves, and `shift` is free. -/
structure Protocol (S : Sig) (T : Type) where
  rule : (o : S.Op) → S.Out o → Multiset T → Multiset T → Prop
  solo : (o : S.Op) → S.Out o → Multiset T → Multiset T → Prop
  call : S.Arg → Multiset T → Multiset T → Prop
  result : S.Arg → S.Res → Multiset T → Prop
  shift : Multiset T → Multiset T → Prop

namespace Protocol

variable (P : Protocol S T)

/-- Any number of shifts of parts of what is held. -/
inductive Shifts : Multiset T → Multiset T → Prop
  | refl (g : Multiset T) : Shifts g g
  | step {f τ τ' g : Multiset T} (h : P.shift τ τ') (rest : Shifts (f + τ') g) :
      Shifts (f + τ) g

def Leads (g : Multiset T) (R : Multiset T → Prop) : Prop :=
  ∃ g', P.Shifts g g' ∧ R g'

/-- The tokens `g` of a thread pay for the program and leave it in `Q`. The flag says
that no other thread is left. -/
def Obeys : {α : Type} → Prog S α → (α → Bool → Multiset T → Prop) →
    Bool → Multiset T → Prop
  | _, .pure a, Q, b, g => P.Leads g (Q a b)
  | _, .act o k, Q, b, g => P.Leads g fun g => ∀ x,
      (∃ f τ τ', g = f + τ ∧ P.rule o x τ τ' ∧ Obeys (k x) Q b (f + τ')) ∨
      (b = true ∧ ∃ g', P.solo o x g g' ∧ Obeys (k x) Q b g')
  | _, .recur a k, Q, _, g => P.Leads g fun g => ∃ f τ τ', g = f + τ ∧ P.call a τ τ' ∧
      ∀ x b τ'', P.result a x τ'' → Obeys (k x) Q b (f + τ'')
  | _, .loop (β := B) body c k, Q, b, g => ∃ J : B → Bool → Multiset T → Prop,
      J c b g ∧ ∀ c b g, J c b g →
        Obeys (body c) (fun y b g => Sum.elim (fun c' => J c' b g) (fun d => Obeys (k d) Q b g) y) b g
  | _, .fork task k, Q, _, g => P.Leads g fun g => ∃ τ f, g = f + τ ∧
      Obeys task (fun _ _ g => g = 0) false τ ∧ Obeys k Q false f
  | _, .pending k, Q, b, g => ∀ n, Obeys (k n) Q b g
  | _, .reap k, Q, b, g => Obeys k Q b g
  | _, .drain k, Q, _, g => Obeys k Q true g

/-- `τ` pays for the program next to anything else its thread holds. -/
def Spec (τ : Multiset T) (p : Prog S α) (Q : α → Multiset T → Prop) : Prop :=
  ∀ f b, P.Obeys p (fun a _ g => ∃ τ', g = f + τ' ∧ Q a τ') b (f + τ)

/-- The recursive procedure pays its way. -/
def Verified (body : S.Arg → Prog S S.Res) : Prop :=
  ∀ a τ τ', P.call a τ τ' → P.Spec τ' (body a) (P.result a)

variable {P}

theorem Shifts.trans {g g' g'' : Multiset T} (h : P.Shifts g g') (h' : P.Shifts g' g'') :
    P.Shifts g g'' := by
  induction h with
  | refl => exact h'
  | step hs _ ih => exact .step hs (ih h')

theorem Shifts.one {f τ τ' g g' : Multiset T} (h : P.shift τ τ') (hg : g = f + τ)
    (hg' : g' = f + τ') : P.Shifts g g' := by
  rw [hg, hg']
  exact .step h (.refl _)

theorem Shifts.frame (f : Multiset T) {g g' : Multiset T} (h : P.Shifts g g') :
    P.Shifts (f + g) (f + g') := by
  induction h with
  | refl => exact .refl _
  | step hs _ ih =>
    rw [← add_assoc] at ih ⊢
    exact .step hs ih

theorem Leads.intro {g : Multiset T} {R : Multiset T → Prop} (h : R g) :
    P.Leads g R := ⟨g, .refl g, h⟩

theorem Leads.mono {g : Multiset T} {R R' : Multiset T → Prop} (h : P.Leads g R)
    (hR : ∀ g, R g → R' g) : P.Leads g R' := by
  obtain ⟨g', hs, hg⟩ := h
  exact ⟨g', hs, hR g' hg⟩

theorem Leads.after {g g' : Multiset T} {R : Multiset T → Prop}
    (h : P.Shifts g g') (hR : P.Leads g' R) : P.Leads g R := by
  obtain ⟨g'', hs, hg⟩ := hR
  exact ⟨g'', h.trans hs, hg⟩

variable {Q Q' : α → Bool → Multiset T → Prop} {b : Bool} {g : Multiset T}

theorem Obeys.mono {p : Prog S α} (h : P.Obeys p Q b g) (hQ : ∀ a b g, Q a b g → Q' a b g) :
    P.Obeys p Q' b g := by
  induction p generalizing b g with
  | pure a => exact Leads.mono h fun g hg => hQ a b g hg
  | act o k ih =>
    refine Leads.mono h fun g hg x => ?_
    rcases hg x with ⟨f, τ, τ', hf, hr, hk⟩ | ⟨hb, g', hs, hk⟩
    · exact .inl ⟨f, τ, τ', hf, hr, ih x hk hQ⟩
    · exact .inr ⟨hb, g', hs, ih x hk hQ⟩
  | recur a k ih =>
    refine Leads.mono h ?_
    rintro g ⟨f, τ, τ', hf, hc, hk⟩
    exact ⟨f, τ, τ', hf, hc, fun x b τ'' hx => ih x (hk x b τ'' hx) hQ⟩
  | loop body c k ihb ihk =>
    obtain ⟨J, hJ, hstep⟩ := h
    refine ⟨J, hJ, fun c b g hc => ihb c (hstep c b g hc) ?_⟩
    rintro (c' | d) b g hy
    · exact hy
    · exact ihk d hy hQ
  | fork task k _ ih =>
    refine Leads.mono h ?_
    rintro g ⟨τ, f, hf, ht, hk⟩
    exact ⟨τ, f, hf, ht, ih hk hQ⟩
  | pending k ih => exact fun n => ih n (h n) hQ
  | reap k ih => exact ih h hQ
  | drain k ih => exact ih h hQ

/-- Shifts may also be made before a program starts. -/
theorem Obeys.after {p : Prog S α} {g' : Multiset T} (hs : P.Shifts g g')
    (h : P.Obeys p Q b g') : P.Obeys p Q b g := by
  induction p generalizing b g g' with
  | pure a => exact Leads.after hs h
  | act o k ih => exact Leads.after hs h
  | recur a k ih => exact Leads.after hs h
  | loop body c k ihb ihk =>
    obtain ⟨J, hJ, hstep⟩ := h
    refine ⟨fun c b g => ∃ g', P.Shifts g g' ∧ J c b g', ⟨g', hs, hJ⟩, ?_⟩
    rintro c b g ⟨g', hg, hc⟩
    refine (ihb c hg (hstep c b g' hc)).mono ?_
    rintro (c' | d) b g hy
    · exact ⟨g, .refl g, hy⟩
    · exact hy
  | fork task k _ ih => exact Leads.after hs h
  | pending k ih => exact fun n => ih n hs (h n)
  | reap k ih => exact ih hs h
  | drain k ih => exact ih hs h

/-- Sequencing: what the first program leaves pays for the second. -/
theorem Obeys.bind {p : Prog S α} {k : α → Prog S β} {Q : β → Bool → Multiset T → Prop}
    (h : P.Obeys p (fun a b g => P.Obeys (k a) Q b g) b g) : P.Obeys (p.bind k) Q b g := by
  induction p generalizing b g with
  | pure a =>
    obtain ⟨g', hs, hk⟩ := h
    exact hk.after hs
  | act o k' ih =>
    refine Leads.mono h fun g hg x => ?_
    rcases hg x with ⟨f, τ, τ', hf, hr, hk⟩ | ⟨hb, g', hs, hk⟩
    · exact .inl ⟨f, τ, τ', hf, hr, ih x hk⟩
    · exact .inr ⟨hb, g', hs, ih x hk⟩
  | recur a k' ih =>
    refine Leads.mono h ?_
    rintro g ⟨f, τ, τ', hf, hc, hk⟩
    exact ⟨f, τ, τ', hf, hc, fun x b τ'' hx => ih x (hk x b τ'' hx)⟩
  | loop body c k' _ ihk =>
    obtain ⟨J, hJ, hstep⟩ := h
    refine ⟨J, hJ, fun c b g hc => (hstep c b g hc).mono ?_⟩
    rintro (c' | d) b g hy
    · exact hy
    · exact ihk d hy
  | fork task k' _ ih =>
    refine Leads.mono h ?_
    rintro g ⟨τ, f, hf, ht, hk⟩
    exact ⟨τ, f, hf, ht, ih hk⟩
  | pending k' ih => exact fun n => ih n (h n)
  | reap k' ih => exact ih h
  | drain k' ih => exact ih h

/-! ## Rules -/

section Rules

variable {Q R : α → Multiset T → Prop} {τ : Multiset T}

theorem Spec.pure {a : α} (h : Q a τ) : P.Spec τ (.pure a) Q :=
  fun _ _ => Leads.intro ⟨τ, rfl, h⟩

theorem Spec.mono {p : Prog S α} (h : P.Spec τ p R) (hR : ∀ a τ, R a τ → Q a τ) :
    P.Spec τ p Q := by
  intro f b
  refine (h f b).mono ?_
  rintro a _ g ⟨τ', hg, ha⟩
  exact ⟨τ', hg, hR a τ' ha⟩

theorem Spec.bind {p : Prog S α} {k : α → Prog S β} {Q : β → Multiset T → Prop}
    (h : P.Spec τ p R) (hk : ∀ a τ, R a τ → P.Spec τ (k a) Q) : P.Spec τ (p.bind k) Q := by
  intro f b
  refine Obeys.bind ((h f b).mono ?_)
  rintro a b' g ⟨τ', rfl, ha⟩
  exact hk a τ' ha f b'

/-- What a program does not touch it leaves. -/
theorem Spec.frame (φ : Multiset T) {p : Prog S α} (h : P.Spec τ p Q) :
    P.Spec (φ + τ) p fun a g => ∃ τ', g = φ + τ' ∧ Q a τ' := by
  intro f b
  rw [← add_assoc]
  refine (h (f + φ) b).mono ?_
  rintro a _ g ⟨τ', rfl, ha⟩
  exact ⟨φ + τ', add_assoc f φ τ', τ', rfl, ha⟩

theorem Spec.shifts {τ' : Multiset T} {p : Prog S α} (hs : P.Shifts τ τ')
    (h : P.Spec τ' p Q) : P.Spec τ p Q :=
  fun f b => (h f b).after (hs.frame f)

theorem Spec.shift {τ' : Multiset T} {p : Prog S α} (hs : P.shift τ τ')
    (h : P.Spec τ' p Q) : P.Spec τ p Q := by
  intro f b
  exact (h f b).after (.step hs (.refl _))

/-- Shifts may also be made when a program has ended. -/
theorem Spec.leads {p : Prog S α} (h : P.Spec τ p fun a g => P.Leads g (Q a)) :
    P.Spec τ p Q := by
  intro f b
  rw [← p.bind_pure]
  refine Obeys.bind ((h f b).mono ?_)
  rintro a b' g ⟨τ', rfl, g', hs, hQ⟩
  exact ⟨f + g', hs.frame f, g', rfl, hQ⟩

theorem Spec.act {o : S.Op} {k : S.Out o → Prog S α}
    (h : ∀ x, ∃ τ', P.rule o x τ τ' ∧ P.Spec τ' (k x) Q) : P.Spec τ (.act o k) Q := by
  intro f b
  refine Leads.intro fun x => .inl ?_
  obtain ⟨τ', hr, hk⟩ := h x
  exact ⟨f, τ, τ', rfl, hr, hk f b⟩

theorem Spec.recur {a : S.Arg} {k : S.Res → Prog S α} {τ' : Multiset T}
    (hc : P.call a τ τ') (hk : ∀ x τ'', P.result a x τ'' → P.Spec τ'' (k x) Q) :
    P.Spec τ (.recur a k) Q :=
  fun f _ => Leads.intro ⟨f, τ, τ', rfl, hc, fun x b τ'' hx => hk x τ'' hx f b⟩

theorem Spec.loop {B C : Type} {body : B → Prog S (B ⊕ C)} {c : B} {k : C → Prog S α}
    (J : B → Multiset T → Prop) (R : C → Multiset T → Prop) (hJ : J c τ)
    (hbody : ∀ c τ, J c τ → P.Spec τ (body c) (Sum.elim J R))
    (hk : ∀ d τ, R d τ → P.Spec τ (k d) Q) : P.Spec τ (.loop body c k) Q := by
  intro f b
  refine ⟨fun c _ g => ∃ τ', g = f + τ' ∧ J c τ', ⟨τ, rfl, hJ⟩, ?_⟩
  rintro c b g ⟨τ', rfl, hc⟩
  refine (hbody c τ' hc f b).mono ?_
  rintro (c' | d) b' g ⟨τ'', rfl, hy⟩
  · exact ⟨τ'', rfl, hy⟩
  · exact hk d τ'' hy f b'

theorem Spec.fork {task : Prog S Unit} {k : Prog S α} {φ : Multiset T}
    (ht : P.Spec τ task fun _ g => g = 0) (hk : P.Spec φ k Q) :
    P.Spec (φ + τ) (.fork task k) Q := by
  intro f b
  refine Leads.intro ⟨τ, f + φ, (add_assoc f φ τ).symm, ?_, hk f false⟩
  have h := ht 0 false
  rw [zero_add] at h
  refine h.mono ?_
  rintro _ _ g ⟨τ', rfl, rfl⟩
  exact add_zero 0

theorem Spec.pending {k : ℕ → Prog S α} (h : ∀ n, P.Spec τ (k n) Q) :
    P.Spec τ (.pending k) Q := fun f b n => h n f b

theorem Spec.reap {k : Prog S α} (h : P.Spec τ k Q) : P.Spec τ (.reap k) Q := h

theorem Spec.drain {k : Prog S α} (h : P.Spec τ k Q) : P.Spec τ (.drain k) Q :=
  fun f _ => h f true

end Rules

/-! ## The ledger -/

/-- A world with the tokens all threads hold together. -/
structure Ledger (T : Type) (Y : System S) where
  world : World Y
  tokens : Multiset T

variable {Y : System S}

inductive Move (P : Protocol S T) : Ledger T Y → Ledger T Y → Prop
  | act {w : World Y} {G τ τ' : Multiset T} {o : S.Op} {x : S.Out o} {s : Y.State}
      (h : P.rule o x τ τ') (hp : Y.perform o w.state x s) :
      Move P ⟨w, G + τ⟩ ⟨w.log s (.did o x), G + τ'⟩
  | solo {w : World Y} {τ τ' : Multiset T} {o : S.Op} {x : S.Out o} {s : Y.State}
      (h : P.solo o x τ τ') (hp : Y.perform o w.state x s) :
      Move P ⟨w, τ⟩ ⟨w.log s (.did o x), τ'⟩
  | call {w : World Y} {G τ τ' : Multiset T} {a : S.Arg} (h : P.call a τ τ') :
      Move P ⟨w, G + τ⟩ ⟨w.log w.state (.entered a), G + τ'⟩
  | shift {w : World Y} {G τ τ' : Multiset T} (h : P.shift τ τ') :
      Move P ⟨w, G + τ⟩ ⟨w, G + τ'⟩
  | env {w : World Y} {G : Multiset T} {s : Y.State} (h : Y.env w.state s) :
      Move P ⟨w, G⟩ ⟨⟨s, w.trace⟩, G⟩

def Moves (P : Protocol S T) : Ledger T Y → Ledger T Y → Prop :=
  Relation.ReflTransGen (Move P)

theorem Shifts.moves {g g' : Multiset T} (h : P.Shifts g g') (w : World Y)
    (G : Multiset T) : Moves P (Y := Y) ⟨w, G + g⟩ ⟨w, G + g'⟩ := by
  induction h with
  | refl => exact .refl
  | @step f τ τ' g hs _ ih =>
    refine Relation.ReflTransGen.head ?_ ih
    rw [← add_assoc, ← add_assoc]
    exact Move.shift hs

/-! ## Soundness -/

/-- The ledger reached `c.world`, and what it holds is what the threads of `c` hold. -/
structure Follows (P : Protocol S T) (L : Ledger T Y) (Q : α → Bool → Multiset T → Prop) (c : Config Y α)
    (b : Bool) (g : Multiset T) (gs : List (Multiset T)) : Prop where
  moves : Moves P L ⟨c.world, gs.sum + g⟩
  main : P.Obeys c.main Q b g
  tasks : List.Forall₂ (P.Obeys · (fun _ _ g => g = 0) false) c.tasks gs
  alone : b = true → c.tasks = []

/-- One action of a thread that obeys the protocol, next to what the others hold. -/
theorem advance_obeys (hv : P.Verified Y.body) {p p' : Prog S α} {w w' : World Y}
    {new : List (Prog S Unit)} {G : Multiset T} (hb : b = true → G = 0)
    (hp : P.Obeys p Q b g) (h : Advance Y p w p' w' new) :
    ∃ b' g' hs, Moves P (Y := Y) ⟨w, G + g⟩ ⟨w', G + (hs.sum + g')⟩ ∧
      P.Obeys p' Q b' g' ∧ List.Forall₂ (P.Obeys · (fun _ _ g => g = 0) false) new hs ∧
      (b' = true → b = true ∧ new = []) := by
  cases h with
  | @act _ _ _ x _ hs =>
    obtain ⟨g₁, hg, hx⟩ := hp
    rcases hx x with ⟨f, τ, τ', rfl, hr, hk⟩ | ⟨rfl, g', hr, hk⟩
    · refine ⟨b, f + τ', [], (hg.moves w G).tail ?_, hk, .nil, fun hb => ⟨hb, rfl⟩⟩
      rw [List.sum_nil, zero_add, ← add_assoc, ← add_assoc]
      exact Move.act hr hs
    · refine ⟨true, g', [], (hg.moves w G).tail ?_, hk, .nil, fun hb => ⟨hb, rfl⟩⟩
      rw [List.sum_nil, zero_add, hb rfl, zero_add, zero_add]
      exact Move.solo hr hs
  | recur =>
    obtain ⟨g₁, hg, f, τ, τ', rfl, hc, hk⟩ := hp
    refine ⟨false, f + τ', [], (hg.moves w G).tail ?_, ?_, .nil, by simp⟩
    · rw [List.sum_nil, zero_add, ← add_assoc, ← add_assoc]
      exact Move.call hc
    · refine Obeys.bind ((hv _ τ τ' hc f false).mono ?_)
      rintro x b' g' ⟨τ'', rfl, hx⟩
      exact hk x b' τ'' hx
  | loop =>
    obtain ⟨J, hJ, hstep⟩ := hp
    refine ⟨b, g, [], ?_, ?_, .nil, fun hb => ⟨hb, rfl⟩⟩
    · rw [List.sum_nil, zero_add]
      exact Relation.ReflTransGen.refl
    · refine Obeys.bind ((hstep _ b g hJ).mono ?_)
      rintro (c' | d) b' g' hy
      · exact ⟨J, hy, hstep⟩
      · exact hy
  | fork =>
    obtain ⟨g₁, hg, τ, f, rfl, ht, hk⟩ := hp
    refine ⟨false, f, [τ], ?_, hk, .cons ht .nil, by simp⟩
    rw [List.sum_singleton, add_comm τ f]
    exact hg.moves w G

/-- Finished tasks can only hold what shifts to nothing. -/
theorem finished_moves {ts : List (Prog S Unit)} {gs : List (Multiset T)}
    (hts : List.Forall₂ (P.Obeys · (fun _ _ g => g = 0) false) ts gs)
    (hf : ∀ p ∈ ts, Finished p) (w : World Y) (G : Multiset T) :
    Moves P (Y := Y) ⟨w, gs.sum + G⟩ ⟨w, G⟩ := by
  induction hts with
  | nil =>
    rw [List.sum_nil, zero_add]
    exact Relation.ReflTransGen.refl
  | @cons p g ts gs hp _ ih =>
    have hp' := hp
    rw [hf p (by simp)] at hp'
    obtain ⟨g', hs, rfl⟩ := hp'
    have hm := hs.moves w (gs.sum + G)
    rw [add_zero] at hm
    rw [List.sum_cons, add_assoc, add_comm]
    exact hm.trans (ih fun p hp => hf p (List.mem_cons_of_mem _ hp))

private theorem forall₂_unappend {A B : Type*} {R : A → B → Prop} {us vs : List A} {gs : List B}
    (h : List.Forall₂ R (us ++ vs) gs) :
    ∃ as bs, gs = as ++ bs ∧ List.Forall₂ R us as ∧ List.Forall₂ R vs bs :=
  ⟨gs.take us.length, gs.drop us.length, (List.take_append_drop _ _).symm,
    (List.forall₂_take_append gs us vs h.flip).flip, (List.forall₂_drop_append gs us vs h.flip).flip⟩

/-- The step lemma: whichever thread moves, the ledger follows. -/
theorem Follows.step (hv : P.Verified Y.body) {L : Ledger T Y} {c c' : Config Y α}
    {gs : List (Multiset T)} (hc : Follows P L Q c b g gs) (h : Step Y c c') :
    ∃ b' g' gs', Follows P L Q c' b' g' gs' := by
  obtain ⟨hmoves, hmain, htasks, halone⟩ := hc
  cases h with
  | @main p p' ts new w w' ha =>
    have hb : b = true → gs.sum = 0 := by
      intro hb
      have hts : ts = [] := halone hb
      subst hts
      rw [List.forall₂_nil_left_iff.mp htasks, List.sum_nil]
    obtain ⟨b', g', hs, hm, hp', hts, hb'⟩ := advance_obeys hv hb hmain ha
    refine ⟨b', g', gs ++ hs, hmoves.trans ?_, hp', List.rel_append htasks hts, ?_⟩
    · rw [List.sum_append, add_assoc]
      exact hm
    · intro h
      obtain ⟨hb, hnew⟩ := hb' h
      have hts : ts = [] := halone hb
      rw [hts, hnew]
      rfl
  | @task p q q' us vs new w w' ha =>
    obtain ⟨as, cs, rfl, hus, hqvs⟩ := forall₂_unappend htasks
    obtain ⟨a, bs, hq, hvs, rfl⟩ := List.forall₂_cons_left_iff.mp hqvs
    obtain ⟨b', g', hs, hm, hq', hts, hb'⟩ :=
      advance_obeys (G := as.sum + bs.sum + g) hv (by simp) hq ha
    have hbf : b' = false := by
      cases b' with
      | false => rfl
      | true => exact absurd (hb' rfl).1 (by simp)
    subst hbf
    refine ⟨b, g, as ++ g' :: bs ++ hs, hmoves.trans ?_, hmain,
      List.rel_append (List.rel_append hus (.cons hq' hvs)) hts, ?_⟩
    · have h₁ : (as ++ a :: bs).sum + g = as.sum + bs.sum + g + a := by
        rw [List.sum_append, List.sum_cons]
        abel
      have h₂ : (as ++ g' :: bs ++ hs).sum + g = as.sum + bs.sum + g + (hs.sum + g') := by
        rw [List.sum_append, List.sum_append, List.sum_cons]
        abel
      rw [h₁, h₂]
      exact hm
    · intro h
      simpa using halone h
  | @pending k ts w => exact ⟨b, g, gs, hmoves, hmain ts.length, htasks, halone⟩
  | @reap k ts done rest w perm some all =>
    obtain ⟨gs', hts, hperm⟩ := List.perm_comp_forall₂ perm.symm htasks
    obtain ⟨as, bs, rfl, has, hbs⟩ := forall₂_unappend hts
    refine ⟨b, g, bs, hmoves.trans ?_, hmain, hbs, ?_⟩
    · rw [← hperm.sum_eq, List.sum_append, add_assoc]
      exact finished_moves has all w (bs.sum + g)
    · intro h
      have hts : ts = [] := halone h
      rw [hts] at perm
      exact (List.append_eq_nil_iff.mp perm.nil_eq.symm).2
  | @drain k ts w all =>
    refine ⟨true, g, [], hmoves.trans ?_, hmain, .nil, fun _ => rfl⟩
    rw [List.sum_nil, zero_add]
    exact finished_moves htasks all w g
  | @env p ts w s he => exact ⟨b, g, gs, hmoves.tail (Move.env he), hmain, htasks, halone⟩

/-- The run lemma. -/
theorem Follows.reach (hv : P.Verified Y.body) {L : Ledger T Y} {c c' : Config Y α}
    {gs : List (Multiset T)} (hc : Follows P L Q c b g gs) (h : Reach Y c c') :
    ∃ b' g' gs', Follows P L Q c' b' g' gs' := by
  induction h with
  | refl => exact ⟨b, g, gs, hc⟩
  | tail _ hs ih =>
    obtain ⟨b', g', gs', hok⟩ := ih
    exact hok.step hv hs

/-- A property of ledgers that every move keeps. -/
def Kept (P : Protocol S T) (I : Ledger T Y → Prop) : Prop := ∀ L L', I L → Move P L L' → I L'

theorem Kept.moves {I : Ledger T Y → Prop} (hI : Kept P I) {L L' : Ledger T Y} (h : I L)
    (hm : Moves P L L') : I L' := by
  induction hm with
  | refl => exact h
  | tail _ hs ih => exact hI _ _ ih hs

/-- Whatever every move of the ledger keeps holds throughout the runs of a program that
obeys the protocol, and a program that ended left its tokens in the ledger. -/
theorem sound (hv : P.Verified Y.body) {I : Ledger T Y → Prop} (hI : Kept P I) {p : Prog S α}
    {s : Y.State} {past : List (Event S)} (hi : I ⟨⟨s, past⟩, g⟩) (hp : P.Obeys p Q true g)
    {c : Config Y α} (h : Reach Y (start Y p s past) c) :
    (∃ G, I ⟨c.world, G⟩) ∧
      ∀ a, c.main = .pure a → ∃ b F G, I ⟨c.world, F + G⟩ ∧ Q a b G := by
  have h₀ : Follows P (Y := Y) ⟨⟨s, past⟩, g⟩ Q (start Y p s past) true g [] := by
    refine ⟨?_, hp, .nil, fun _ => rfl⟩
    rw [List.sum_nil, zero_add]
    exact Relation.ReflTransGen.refl
  obtain ⟨b', g', gs, hc⟩ := h₀.reach hv h
  refine ⟨⟨_, hI.moves hi hc.moves⟩, fun a ha => ?_⟩
  have hmain := hc.main
  rw [ha] at hmain
  obtain ⟨G, hs, hQ⟩ := hmain
  exact ⟨b', gs.sum, G, hI.moves hi (hc.moves.trans (hs.moves c.world gs.sum)), hQ⟩

end Protocol
end Threads
