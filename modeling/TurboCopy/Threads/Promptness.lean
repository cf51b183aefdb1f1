import TurboCopy.Threads.Guarantee
import TurboCopy.Threads.Crew

/-!
# What is left to do

Two readings of the text of a program. `Spends` bounds the cost of the operations that are still
to come, when the outcomes are those an alarm lets through; `Poised` asks for such a bound at every
point of the program, so that the alarm may go off anywhere. `Fits` bounds the tasks in the pool.
-/

namespace Threads

variable {S : Sig} {α β γ : Type}

/-! ## Cost -/

/-- From here on the operations cost at most `n` when the outcomes satisfy `A`. Calls, rounds of
loops and new tasks cost nothing. -/
def Prog.Spends (A : (o : S.Op) → S.Out o → Prop) (cost : S.Op → ℕ) :
    {α : Type} → Prog S α → ℕ → Prop
  | _, .pure _, _ => True
  | _, .act o k, n => cost o ≤ n ∧ ∀ x, A o x → (k x).Spends A cost (n - cost o)
  | _, .recur _ k, n => ∀ x, (k x).Spends A cost n
  | _, .loop body _ k, n => (∀ b, (body b).Spends A cost 0) ∧ ∀ c, (k c).Spends A cost n
  | _, .fork task k, n => task.Spends A cost 0 ∧ k.Spends A cost n
  | _, .pending k, n => ∀ m, (k m).Spends A cost n
  | _, .reap k, n => k.Spends A cost n
  | _, .drain k, n => k.Spends A cost n

/-- At every point of the program, the operations to come cost at most `n`. Within a call the
costs are at most `c`. -/
def Prog.Poised (A : (o : S.Op) → S.Out o → Prop) (cost : S.Op → ℕ) (c : ℕ) :
    {α : Type} → Prog S α → ℕ → Prop
  | _, .pure _, _ => True
  | _, .act o k, n => (Prog.act o k).Spends A cost n ∧ ∀ x, (k x).Poised A cost c n
  | _, .recur _ k, n => (∃ r, c + r ≤ n ∧ ∀ x, (k x).Spends A cost r) ∧
      ∀ x, (k x).Poised A cost c n
  | _, .loop body _ k, n => (∀ b, (body b).Poised A cost c 0) ∧ (∀ x, (k x).Spends A cost n) ∧
      ∀ x, (k x).Poised A cost c n
  | _, .fork task k, n => (task.Spends A cost 0 ∧ task.Poised A cost c c) ∧ k.Spends A cost n ∧
      k.Poised A cost c n
  | _, .pending k, n => (∀ m, (k m).Spends A cost n) ∧ ∀ m, (k m).Poised A cost c n
  | _, .reap k, n => k.Spends A cost n ∧ k.Poised A cost c n
  | _, .drain k, n => k.Spends A cost n ∧ k.Poised A cost c n

section Cost

variable {A : (o : S.Op) → S.Out o → Prop} {cost : S.Op → ℕ} {c m n r : ℕ}

theorem Prog.Spends.mono {p : Prog S α} (h : p.Spends A cost m) (hle : m ≤ n) :
    p.Spends A cost n := by
  induction p generalizing m n with
  | pure a => trivial
  | act o k ih => exact ⟨h.1.trans hle, fun x hx => ih x (h.2 x hx) (Nat.sub_le_sub_right hle _)⟩
  | recur a k ih => exact fun x => ih x (h x) hle
  | loop body b k _ ih => exact ⟨h.1, fun x => ih x (h.2 x) hle⟩
  | fork task k _ ih => exact ⟨h.1, ih h.2 hle⟩
  | pending k ih => exact fun x => ih x (h x) hle
  | reap k ih => exact ih h hle
  | drain k ih => exact ih h hle

theorem Prog.Spends.bind {p : Prog S α} {f : α → Prog S β} (h : p.Spends A cost m)
    (hf : ∀ a, (f a).Spends A cost n) : (p.bind f).Spends A cost (m + n) := by
  induction p generalizing m with
  | pure a => exact (hf a).mono (Nat.le_add_left n m)
  | act o k ih =>
    refine ⟨h.1.trans (Nat.le_add_right m n), fun x hx => ?_⟩
    have hk := ih x (h.2 x hx) hf
    rwa [← Nat.sub_add_comm h.1] at hk
  | recur a k ih => exact fun x => ih x (h x) hf
  | loop body b k _ ih => exact ⟨h.1, fun x => ih x (h.2 x) hf⟩
  | fork task k _ ih => exact ⟨h.1, ih h.2 hf⟩
  | pending k ih => exact fun x => ih x (h x) hf
  | reap k ih => exact ih h hf
  | drain k ih => exact ih h hf

theorem Prog.Poised.spends {p : Prog S α} (h : p.Poised A cost c n) : p.Spends A cost n := by
  induction p generalizing n with
  | pure a => trivial
  | act o k _ => exact h.1
  | recur a k _ =>
    obtain ⟨⟨r, hr, hk⟩, -⟩ := h
    exact fun x => (hk x).mono (by omega)
  | loop body b k ihb _ => exact ⟨fun b => ihb b (h.1 b), h.2.1⟩
  | fork task k _ _ => exact ⟨h.1.1, h.2.1⟩
  | pending k _ => exact h.1
  | reap k _ => exact h.1
  | drain k _ => exact h.1

theorem Prog.Poised.mono {p : Prog S α} (h : p.Poised A cost c m) (hle : m ≤ n) :
    p.Poised A cost c n := by
  induction p generalizing m n with
  | pure a => trivial
  | act o k ih => exact ⟨h.1.mono hle, fun x => ih x (h.2 x) hle⟩
  | recur a k ih =>
    obtain ⟨⟨r, hr, hk⟩, hpoised⟩ := h
    exact ⟨⟨r, hr.trans hle, hk⟩, fun x => ih x (hpoised x) hle⟩
  | loop body b k _ ih =>
    exact ⟨h.1, fun x => (h.2.1 x).mono hle, fun x => ih x (h.2.2 x) hle⟩
  | fork task k _ ih => exact ⟨h.1, h.2.1.mono hle, ih h.2.2 hle⟩
  | pending k ih => exact ⟨fun x => (h.1 x).mono hle, fun x => ih x (h.2 x) hle⟩
  | reap k ih => exact ⟨h.1.mono hle, ih h.2 hle⟩
  | drain k ih => exact ⟨h.1.mono hle, ih h.2 hle⟩

theorem Prog.Poised.bind {p : Prog S α} {f : α → Prog S β} (h : p.Poised A cost c m)
    (hf : ∀ a, (f a).Spends A cost r) (hpoised : ∀ a, (f a).Poised A cost c n) (hle : m + r ≤ n) :
    (p.bind f).Poised A cost c n := by
  induction p with
  | pure a => exact hpoised a
  | act o k ih => exact ⟨(Prog.Spends.bind h.1 hf).mono hle, fun x => ih x (h.2 x) hf hpoised⟩
  | recur a k ih =>
    obtain ⟨⟨q, hq, hk⟩, hp⟩ := h
    exact ⟨⟨q + r, by omega, fun x => (hk x).bind hf⟩, fun x => ih x (hp x) hf hpoised⟩
  | loop body b k _ ih =>
    exact ⟨h.1, fun x => ((h.2.1 x).bind hf).mono hle, fun x => ih x (h.2.2 x) hf hpoised⟩
  | fork task k _ ih => exact ⟨h.1, (h.2.1.bind hf).mono hle, ih h.2.2 hf hpoised⟩
  | pending k ih =>
    exact ⟨fun x => ((h.1 x).bind hf).mono hle, fun x => ih x (h.2 x) hf hpoised⟩
  | reap k ih => exact ⟨(h.1.bind hf).mono hle, ih h.2 hf hpoised⟩
  | drain k ih => exact ⟨(h.1.bind hf).mono hle, ih h.2 hf hpoised⟩

variable {Y : System S} {I : Y.State → Prop} {w w' : World Y}

/-- The cost of the operations of a history. -/
def spent (cost : S.Op → ℕ) : List (Event S) → ℕ
  | [] => 0
  | .did o _ :: t => cost o + spent cost t
  | .entered _ :: t => spent cost t

/-- What calls of the recursive procedure cost: nothing at first, and at most `c` later on. -/
def System.CallsCost (Y : System S) (A : (o : S.Op) → S.Out o → Prop) (cost : S.Op → ℕ) (c : ℕ) :
    Prop :=
  ∀ a, (Y.body a).Spends A cost 0 ∧ (Y.body a).Poised A cost c c

theorem Advance.poised (hbody : Y.CallsCost A cost c) {p p' : Prog S α} {new : List (Prog S Unit)}
    (h : Advance Y p w p' w' new) (hp : p.Poised A cost c n) :
    p'.Poised A cost c n ∧ ∀ q ∈ new, q.Poised A cost c c := by
  cases h with
  | act hs => exact ⟨hp.2 _, by simp⟩
  | recur =>
    obtain ⟨⟨r, hr, hk⟩, hpoised⟩ := hp
    exact ⟨(hbody _).2.bind hk hpoised hr, by simp⟩
  | @loop _ _ body b k _ =>
    have hloop : (Prog.loop body b k).Spends A cost n := hp.spends
    refine ⟨(hp.1 b).bind (r := n) ?_ ?_ (Nat.zero_add n).le, by simp⟩
    · rintro (b' | x)
      · exact hloop
      · exact hp.2.1 x
    · rintro (b' | x)
      · exact hp
      · exact hp.2.2 x
  | fork =>
    refine ⟨hp.2.2, fun q hq => ?_⟩
    rw [List.mem_singleton.mp hq]
    exact hp.1.2

/-- Every thread is poised. -/
structure AllPoised (A : (o : S.Op) → S.Out o → Prop) (cost : S.Op → ℕ) (c n : ℕ)
    (x : Config Y α) : Prop where
  main : x.main.Poised A cost c n
  tasks : ∀ q ∈ x.tasks, q.Poised A cost c c

theorem AllPoised.step (hbody : Y.CallsCost A cost c) {x x' : Config Y α}
    (hx : AllPoised A cost c n x) (h : Step Y x x') : AllPoised A cost c n x' := by
  obtain ⟨hmain, htasks⟩ := hx
  cases h with
  | main ha =>
    obtain ⟨hp, hnew⟩ := ha.poised hbody hmain
    exact ⟨hp, fun q hq => (List.mem_append.mp hq).elim (htasks q) (hnew q)⟩
  | task ha =>
    obtain ⟨hq, hnew⟩ := ha.poised hbody (htasks _ (by simp))
    refine ⟨hmain, fun r hr => ?_⟩
    rcases List.mem_append.mp hr with hr | hr
    · rcases List.mem_append.mp hr with hr | hr
      · exact htasks r (List.mem_append_left _ hr)
      · rcases List.mem_cons.mp hr with rfl | hr
        · exact hq
        · exact htasks r (List.mem_append_right _ (List.mem_cons_of_mem _ hr))
    · exact hnew r hr
  | pending => exact ⟨hmain.2 _, htasks⟩
  | reap perm _ _ =>
    exact ⟨hmain.2, fun q hq => htasks q (perm.mem_iff.mpr (List.mem_append_right _ hq))⟩
  | drain _ => exact ⟨hmain.2, by simp⟩
  | env _ => exact ⟨hmain, htasks⟩

/-- The threads can still spend `b` in all. -/
def CanSpend (A : (o : S.Op) → S.Out o → Prop) (cost : S.Op → ℕ) (x : Config Y α) (b : ℕ) : Prop :=
  ∃ m ms, x.main.Spends A cost m ∧ List.Forall₂ (fun q k => q.Spends A cost k) x.tasks ms ∧
    m + ms.sum = b

theorem AllPoised.canSpend {x : Config Y α} (hx : AllPoised A cost c n x) :
    CanSpend A cost x (n + c * x.tasks.length) := by
  refine ⟨n, List.replicate x.tasks.length c, hx.main.spends, ?_, by simp [mul_comm]⟩
  rw [List.forall₂_iff_get]
  refine ⟨by simp, fun i hi _ => ?_⟩
  simpa using (hx.tasks _ (List.get_mem x.tasks ⟨i, hi⟩)).spends

/-- An action of one thread, when the outcomes satisfy `A`. -/
theorem Advance.spends (hY : Y.Admits A I) (hbody : Y.CallsCost A cost c) {p p' : Prog S α}
    {new : List (Prog S Unit)} (h : Advance Y p w p' w' new) (hi : I w.state)
    (hp : p.Spends A cost m) : I w'.state ∧ (∀ q ∈ new, q.Spends A cost 0) ∧
      ∃ m', p'.Spends A cost m' ∧ spent cost w'.trace + m' ≤ spent cost w.trace + m := by
  cases h with
  | @act o k _ x s hs =>
    refine ⟨hY.perform hi hs, by simp, m - cost o, hp.2 x (hY.outcome hi hs), ?_⟩
    have hle := hp.1
    simp only [World.log_trace, spent]
    omega
  | @recur a k _ =>
    refine ⟨hi, by simp, m, ?_, le_rfl⟩
    have hcall := (hbody a).1.bind hp
    rwa [Nat.zero_add] at hcall
  | @loop _ _ body b k _ =>
    refine ⟨hi, by simp, m, ?_, le_rfl⟩
    have hround : ((body b).bind (Sum.elim (fun b' => .loop body b' k) k)).Spends A cost (0 + m) := by
      apply (hp.1 b).bind
      rintro (b' | x)
      · exact hp
      · exact hp.2 x
    rwa [Nat.zero_add] at hround
  | fork =>
    refine ⟨hi, fun q hq => ?_, m, hp.2, le_rfl⟩
    rw [List.mem_singleton.mp hq]
    exact hp.1

theorem forall₂_replicate {new : List (Prog S Unit)} (h : ∀ q ∈ new, q.Spends A cost 0) :
    List.Forall₂ (fun q k => q.Spends A cost k) new (List.replicate new.length 0) := by
  induction new with
  | nil => exact .nil
  | cons q new ih =>
    exact .cons (h q List.mem_cons_self) (ih fun r hr => h r (List.mem_cons_of_mem _ hr))

/-- What is spent in a step is no longer there to be spent. -/
theorem CanSpend.step (hY : Y.Admits A I) (hbody : Y.CallsCost A cost c) {x x' : Config Y α} {b : ℕ}
    (hx : CanSpend A cost x b) (hi : I x.world.state) (h : Step Y x x') :
    I x'.world.state ∧ ∃ b', CanSpend A cost x' b' ∧
      spent cost x'.world.trace + b' ≤ spent cost x.world.trace + b := by
  obtain ⟨m, ms, hmain, htasks, rfl⟩ := hx
  cases h with
  | main ha =>
    obtain ⟨hi', hnew, m', hp, hle⟩ := ha.spends hY hbody hi hmain
    refine ⟨hi', m' + ms.sum, ⟨m', _, hp, List.rel_append htasks (forall₂_replicate hnew), ?_⟩, ?_⟩
    · simp
    · dsimp only at hle ⊢
      omega
  | @task p q q' us vs new w w' ha =>
    obtain ⟨as, k, bs, rfl, hus, hq, hvs⟩ := htasks.flip.split
    obtain ⟨hi', hnew, k', hq', hle⟩ := ha.spends hY hbody hi hq
    refine ⟨hi', m + (as.sum + (k' + bs.sum)), ⟨m, _, hmain, List.rel_append
      (List.rel_append hus.flip (.cons hq' hvs.flip)) (forall₂_replicate hnew), ?_⟩, ?_⟩
    · simp
    · simp only [List.sum_append, List.sum_cons]
      omega
  | pending => exact ⟨hi, _, ⟨m, ms, hmain _, htasks, rfl⟩, le_rfl⟩
  | @reap k ts done rest w perm some all =>
    obtain ⟨zs, hzs, hperm⟩ := List.perm_comp_forall₂ perm.symm htasks
    refine ⟨hi, m + (zs.drop done.length).sum,
      ⟨m, _, hmain, (List.forall₂_drop_append _ _ _ hzs.flip).flip, rfl⟩, ?_⟩
    have hsum : (zs.take done.length).sum + (zs.drop done.length).sum = ms.sum := by
      rw [List.sum_take_add_sum_drop]
      exact hperm.sum_eq
    dsimp only
    omega
  | drain _ =>
    refine ⟨hi, m, ⟨m, [], hmain, .nil, rfl⟩, ?_⟩
    dsimp only
    omega
  | env he => exact ⟨hY.env hi he, _, ⟨m, ms, hmain, htasks, rfl⟩, le_rfl⟩

theorem AllPoised.reach (hbody : Y.CallsCost A cost c) {p : Prog S α} (hp : p.Poised A cost c n)
    {s : Y.State} {past : List (Event S)} {x : Config Y α} (h : Reach Y (start Y p s past) x) :
    AllPoised A cost c n x := by
  induction h with
  | refl => exact ⟨hp, by simp [start]⟩
  | tail _ hs ih => exact ih.step hbody hs

/-- From any point of a run at which `I` holds, which lets through only the outcomes of `A`, the
costs that follow are at most `n` and `c` for each task. -/
theorem Prog.Poised.spent_le (hY : Y.Admits A I) (hbody : Y.CallsCost A cost c) {p : Prog S α}
    (hp : p.Poised A cost c n) {s : Y.State} {past : List (Event S)} {x x' : Config Y α}
    (h : Reach Y (start Y p s past) x) (hi : I x.world.state) (h' : Reach Y x x') :
    spent cost x'.world.trace ≤ spent cost x.world.trace + (n + c * x.tasks.length) := by
  suffices hleft : I x'.world.state ∧ ∃ b, CanSpend A cost x' b ∧
      spent cost x'.world.trace + b ≤ spent cost x.world.trace + (n + c * x.tasks.length) by
    obtain ⟨-, b, -, hle⟩ := hleft
    omega
  induction h' with
  | refl => exact ⟨hi, _, (AllPoised.reach hbody hp h).canSpend, le_rfl⟩
  | tail _ hs ih =>
    obtain ⟨hi, b, hb, hle⟩ := ih
    obtain ⟨hi', b', hb', hle'⟩ := hb.step hY hbody hi hs
    exact ⟨hi', b', hb', by omega⟩

end Cost

/-! ## The pool -/

/-- A task that leaves the pool alone. -/
def Prog.Lone : {α : Type} → Prog S α → Prop
  | _, .pure _ => True
  | _, .act _ k => ∀ x, (k x).Lone
  | _, .loop body _ k => (∀ b, (body b).Lone) ∧ ∀ c, (k c).Lone
  | _, _ => False

/-- The program, with at most `n` tasks in the pool, never lets there be more than `cap`. -/
def Prog.Fits (cap : ℕ) : {α : Type} → Prog S α → ℕ → Prop
  | _, .pure _, _ => True
  | _, .act _ k, n => ∀ x, (k x).Fits cap n
  | _, .recur _ k, _ => ∀ x, (k x).Fits cap cap
  | _, .loop body _ k, _ => (∀ b, (body b).Fits cap cap) ∧ ∀ c, (k c).Fits cap cap
  | _, .fork task k, n => task.Lone ∧ n < cap ∧ k.Fits cap (n + 1)
  | _, .pending k, n => ∀ m ≤ n, (k m).Fits cap m
  | _, .reap k, n => k.Fits cap (n - 1)
  | _, .drain k, _ => k.Fits cap 0

section Pool

variable {cap m n : ℕ} {Y : System S} {w w' : World Y}

theorem Prog.Lone.bind {p : Prog S α} {f : α → Prog S β} (h : p.Lone) (hf : ∀ a, (f a).Lone) :
    (p.bind f).Lone := by
  induction p with
  | pure a => exact hf a
  | act o k ih => exact fun x => ih x (h x) hf
  | loop body b k _ ih => exact ⟨h.1, fun c => ih c (h.2 c) hf⟩
  | _ => exact h.elim

theorem Prog.Tracks.lone {σ : Type} {M : Moving S σ} {p : Prog S α} {Q : α → σ → Prop} {g : σ}
    (h : p.Tracks M Q g) : p.Lone := by
  induction p generalizing g with
  | pure a => trivial
  | act o k ih =>
    intro x
    obtain ⟨g', -, hk⟩ := h x
    exact ih x hk
  | _ => exact h.elim

theorem Prog.Fits.anti {p : Prog S α} (h : p.Fits cap n) (hle : m ≤ n) : p.Fits cap m := by
  induction p generalizing m n with
  | pure a => trivial
  | act o k ih => exact fun x => ih x (h x) hle
  | recur a k _ => exact h
  | loop body b k _ _ => exact h
  | fork task k _ ih => exact ⟨h.1, by have := h.2.1; omega, ih h.2.2 (by omega)⟩
  | pending k _ => exact fun l hl => h l (hl.trans hle)
  | reap k ih => exact ih h (by omega)
  | drain k _ => exact h

theorem Prog.Fits.bind {p : Prog S α} {f : α → Prog S β} (h : p.Fits cap n) (hn : n ≤ cap)
    (hf : ∀ a, (f a).Fits cap cap) : (p.bind f).Fits cap n := by
  induction p generalizing n with
  | pure a => exact (hf a).anti hn
  | act o k ih => exact fun x => ih x (h x) hn hf
  | recur a k ih => exact fun x => ih x (h x) le_rfl hf
  | loop body b k _ ih => exact ⟨h.1, fun c => ih c (h.2 c) le_rfl hf⟩
  | fork task k _ ih => exact ⟨h.1, h.2.1, ih h.2.2 h.2.1 hf⟩
  | pending k ih => exact fun l hl => ih l (h l hl) (hl.trans hn) hf
  | reap k ih => exact ih h (by omega) hf
  | drain k ih => exact ih h (Nat.zero_le _) hf

/-- The main thread fits the pool, and the tasks leave it alone. -/
structure Pooled (cap : ℕ) (x : Config Y α) : Prop where
  size : x.tasks.length ≤ cap
  main : x.main.Fits cap x.tasks.length
  tasks : ∀ q ∈ x.tasks, q.Lone

theorem Advance.lone {p p' : Prog S α} {new : List (Prog S Unit)} (h : Advance Y p w p' w' new)
    (hp : p.Lone) : new = [] ∧ p'.Lone := by
  cases h with
  | act hs => exact ⟨rfl, hp _⟩
  | recur => exact hp.elim
  | @loop _ _ body b k _ =>
    refine ⟨rfl, (hp.1 b).bind ?_⟩
    rintro (b' | c)
    · exact hp
    · exact hp.2 c
  | fork => exact hp.elim

theorem Advance.fits (hbody : ∀ a, (Y.body a).Fits cap cap) {p p' : Prog S α}
    {new : List (Prog S Unit)} (h : Advance Y p w p' w' new) (hp : p.Fits cap n) (hn : n ≤ cap) :
    n + new.length ≤ cap ∧ p'.Fits cap (n + new.length) ∧ ∀ q ∈ new, q.Lone := by
  cases h with
  | act hs => exact ⟨hn, hp _, by simp⟩
  | recur => exact ⟨hn, ((hbody _).anti hn).bind hn hp, by simp⟩
  | @loop _ _ body b k _ =>
    refine ⟨hn, ((hp.1 b).anti hn).bind hn ?_, by simp⟩
    rintro (b' | c)
    · exact hp
    · exact hp.2 c
  | fork => exact ⟨hp.2.1, hp.2.2, by simpa using hp.1⟩

theorem Pooled.step (hbody : ∀ a, (Y.body a).Fits cap cap) {x x' : Config Y α} (hx : Pooled cap x)
    (h : Step Y x x') : Pooled cap x' := by
  obtain ⟨hsize, hmain, htasks⟩ := hx
  cases h with
  | main ha =>
    obtain ⟨hsize', hp, hnew⟩ := ha.fits hbody hmain hsize
    refine ⟨?_, ?_, fun q hq => (List.mem_append.mp hq).elim (htasks q) (hnew q)⟩
    · simpa using hsize'
    · simpa using hp
  | @task p q q' us vs new w w' ha =>
    obtain ⟨rfl, hq⟩ := ha.lone (htasks q (by simp))
    refine ⟨?_, ?_, fun r hr => ?_⟩
    · simpa using hsize
    · simpa using hmain
    · rw [List.append_nil] at hr
      rcases List.mem_append.mp hr with hr | hr
      · exact htasks r (List.mem_append_left _ hr)
      · rcases List.mem_cons.mp hr with rfl | hr
        · exact hq
        · exact htasks r (List.mem_append_right _ (List.mem_cons_of_mem _ hr))
  | pending => exact ⟨hsize, hmain _ le_rfl, htasks⟩
  | @reap k ts done rest w perm some all =>
    have hlen : ts.length = done.length + rest.length := by
      rw [perm.length_eq, List.length_append]
    have hdone : 0 < done.length := List.length_pos_of_ne_nil some
    have hrest : rest.length ≤ ts.length - 1 := by omega
    have hk : k.Fits cap (ts.length - 1) := hmain
    refine ⟨?_, hk.anti hrest, fun q hq => ?_⟩
    · dsimp only at hsize ⊢
      omega
    · exact htasks q (perm.mem_iff.mpr (List.mem_append_right _ hq))
  | drain _ => exact ⟨Nat.zero_le _, hmain, by simp⟩
  | env _ => exact ⟨hsize, hmain, htasks⟩

/-- There are never more than `cap` tasks in the pool of a program that fits it. -/
theorem Prog.Fits.tasks_le (hbody : ∀ a, (Y.body a).Fits cap cap) {p : Prog S α}
    (hp : p.Fits cap 0) {s : Y.State} {past : List (Event S)} {x : Config Y α}
    (h : Reach Y (start Y p s past) x) : x.tasks.length ≤ cap := by
  have hx : Pooled cap x := by
    induction h with
    | refl => exact ⟨Nat.zero_le _, hp, by simp [start]⟩
    | tail _ hs ih => exact ih.step hbody hs
  exact hx.size

end Pool

end Threads
