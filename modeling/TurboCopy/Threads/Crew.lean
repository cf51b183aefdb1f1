import TurboCopy.Threads.Schedule
import Mathlib.Data.List.Forall2

/-!
# Threads with a private state

A crew is a list of programs that run side by side. `Tracks` reads the text of a program
against a private state: each operation moves it as a relation allows, and it is where it
should be when the program ends. A property of the world and of the private states of all
threads that every move keeps then holds in every interleaving, and each thread still
tracks the private state it has.
-/

/-- Two lists related member by member, taken apart where the second is. -/
theorem List.Forall₂.split {α β : Type*} {R : α → β → Prop} {xs : List α} {us vs : List β} {g : β}
    (h : List.Forall₂ R xs (us ++ g :: vs)) : ∃ as a bs, xs = as ++ a :: bs ∧
      List.Forall₂ R as us ∧ R a g ∧ List.Forall₂ R bs vs := by
  induction us generalizing xs with
  | nil =>
    obtain ⟨a, bs, ha, hbs, rfl⟩ := List.forall₂_cons_right_iff.mp h
    exact ⟨[], a, bs, rfl, .nil, ha, hbs⟩
  | cons u us ih =>
    obtain ⟨x, xs, hx, hxs, rfl⟩ := List.forall₂_cons_right_iff.mp h
    obtain ⟨as, a, bs, rfl, has, ha, hbs⟩ := ih hxs
    exact ⟨x :: as, a, bs, rfl, .cons hx has, ha, hbs⟩

theorem List.Forall₂.exists_of_mem {α β : Type*} {R : α → β → Prop} {xs : List α} {ys : List β}
    {y : β} (h : List.Forall₂ R xs ys) (hy : y ∈ ys) : ∃ x ∈ xs, R x y := by
  obtain ⟨us, vs, rfl⟩ := List.append_of_mem hy
  obtain ⟨as, x, bs, rfl, -, hx, -⟩ := h.split
  exact ⟨x, by simp, hx⟩

namespace Threads

variable {S : Sig} {Y : System S} {σ α β : Type}

/-- Start a thread for each program. -/
def forkAll : List (Prog S Unit) → Prog S Unit
  | [] => .pure ()
  | p :: ps => .fork p (forkAll ps)

/-- What an operation with an outcome may do to the private state of its thread. -/
abbrev Moving (S : Sig) (σ : Type) : Type := (o : S.Op) → S.Out o → σ → σ → Prop

/-- The program, in the private state `g`, moves it as `M` allows and ends in `Q`. The
programs of a crew have no loops and no calls. -/
def Prog.Tracks (M : Moving S σ) : {α : Type} → Prog S α → (α → σ → Prop) → σ → Prop
  | _, .pure a, Q, g => Q a g
  | _, .act o k, Q, g => ∀ x, ∃ g', M o x g g' ∧ (k x).Tracks M Q g'
  | _, .recur _ _, _, _ => False
  | _, .loop _ _ _, _, _ => False
  | _, .fork _ _, _, _ => False
  | _, .pending _, _, _ => False
  | _, .reap _, _, _ => False
  | _, .drain _, _, _ => False

namespace Prog.Tracks

variable {M : Moving S σ} {Q R : α → σ → Prop} {g : σ}

theorem mono {p : Prog S α} (h : p.Tracks M R g) (hR : ∀ a g, R a g → Q a g) :
    p.Tracks M Q g := by
  induction p generalizing g with
  | pure a => exact hR a g h
  | act o k ih =>
    intro x
    obtain ⟨g', hm, hk⟩ := h x
    exact ⟨g', hm, ih x hk hR⟩
  | _ => exact h.elim

theorem bind {p : Prog S α} {f : α → Prog S β} {Q : β → σ → Prop} (h : p.Tracks M R g)
    (hf : ∀ a g, R a g → (f a).Tracks M Q g) : (p.bind f).Tracks M Q g := by
  induction p generalizing g with
  | pure a => exact hf a g h
  | act o k ih =>
    intro x
    obtain ⟨g', hm, hk⟩ := h x
    exact ⟨g', hm, ih x hk hf⟩
  | _ => exact h.elim

end Prog.Tracks

variable {M : Moving S σ} {done : σ → Prop}

/-- One action of a thread: the world and its private state move together. -/
theorem Advance.tracks {p p' : Prog S Unit} {w w' : World Y} {new : List (Prog S Unit)} {g : σ}
    (h : Advance Y p w p' w' new) (hp : p.Tracks M (fun _ => done) g) :
    new = [] ∧ ∃ g', p'.Tracks M (fun _ => done) g' ∧
      ∃ o x s, Y.perform o w.state x s ∧ w' = w.log s (.did o x) ∧ M o x g g' := by
  cases h with
  | @act o k _ x s hs =>
    obtain ⟨g', hm, hk⟩ := hp x
    exact ⟨rfl, g', hk, o, x, s, hs, rfl, hm⟩
  | recur => exact hp.elim
  | loop => exact hp.elim
  | fork => exact hp.elim

/-- What keeps `I` an invariant of the world and the private states of a crew: a thread
joins with the private state `init`, one thread moves, or the environment acts. -/
structure CrewKeeps (Y : System S) (M : Moving S σ) (init : σ) (I : World Y → List σ → Prop) :
    Prop where
  join : ∀ {w gs}, I w gs → I w (gs ++ [init])
  act : ∀ {w us vs o x s g g'}, Y.perform o w.state x s → M o x g g' → I w (us ++ g :: vs) →
    I (w.log s (.did o x)) (us ++ g' :: vs)
  env : ∀ {w s gs}, Y.env w.state s → I w gs → I ⟨s, w.trace⟩ gs

/-- The threads of a configuration track the private states `gs`, and the main thread has
yet to start the rest of the crew. -/
structure Crewed (M : Moving S σ) (init : σ) (done : σ → Prop) (I : World Y → List σ → Prop)
    (c : Config Y Unit) (gs : List σ) : Prop where
  main : ∃ rest, c.main = forkAll rest ∧ ∀ p ∈ rest, p.Tracks M (fun _ => done) init
  tasks : List.Forall₂ (fun p g => p.Tracks M (fun _ => done) g) c.tasks gs
  world : I c.world gs

variable {init : σ} {I : World Y → List σ → Prop}

/-- The step lemma: whichever thread moves, the private states follow. -/
theorem Crewed.step (hI : CrewKeeps Y M init I) {c c' : Config Y Unit} {gs : List σ}
    (hc : Crewed M init done I c gs) (h : Step Y c c') : ∃ gs', Crewed M init done I c' gs' := by
  obtain ⟨⟨rest, hmain, hrest⟩, htasks, hw⟩ := hc
  cases h with
  | main ha =>
    obtain rfl := hmain
    cases rest with
    | nil => exact nomatch ha
    | cons p ps =>
      cases ha
      refine ⟨gs ++ [init], ⟨ps, rfl, fun q hq => hrest q (List.mem_cons_of_mem _ hq)⟩, ?_,
        hI.join hw⟩
      exact List.rel_append htasks (.cons (hrest p (List.mem_cons_self ..)) .nil)
  | @task p q q' us vs new w w' ha =>
    obtain ⟨as, g, bs, rfl, hus, hq, hvs⟩ := htasks.flip.split
    obtain ⟨rfl, g', hq', o, x, s, hp, rfl, hm⟩ := ha.tracks hq
    refine ⟨as ++ g' :: bs, ⟨rest, hmain, hrest⟩, ?_, hI.act hp hm hw⟩
    rw [List.append_nil]
    exact List.rel_append hus.flip (.cons hq' hvs.flip)
  | pending =>
    cases rest <;> exact nomatch hmain
  | reap _ _ _ =>
    cases rest <;> exact nomatch hmain
  | drain _ =>
    cases rest <;> exact nomatch hmain
  | env he => exact ⟨gs, ⟨rest, hmain, hrest⟩, htasks, hI.env he hw⟩

/-- The run lemma: a crew whose programs track `M` keeps the invariant in every
interleaving. -/
theorem Crewed.reach (hI : CrewKeeps Y M init I) {ps : List (Prog S Unit)}
    (hps : ∀ p ∈ ps, p.Tracks M (fun _ => done) init) {s : Y.State} (hi : I ⟨s, []⟩ [])
    {c : Config Y Unit} (h : Reach Y (start Y (forkAll ps) s []) c) :
    ∃ gs, Crewed M init done I c gs := by
  induction h with
  | refl => exact ⟨[], ⟨ps, rfl, hps⟩, .nil, hi⟩
  | tail _ hs ih =>
    obtain ⟨gs, hc⟩ := ih
    exact hc.step hI hs

/-- A thread that has ended is done. -/
theorem Crewed.finished {c : Config Y Unit} {gs : List σ} (hc : Crewed M init done I c gs)
    (hf : ∀ p ∈ c.tasks, Finished p) : ∀ g ∈ gs, done g := by
  obtain ⟨-, h, -⟩ := hc
  generalize c.tasks = ts at h hf
  induction h with
  | nil => simp
  | @cons p g ts gs hp _ ih =>
    intro g' hg
    rcases List.mem_cons.mp hg with rfl | hg
    · rw [hf p (List.mem_cons_self ..)] at hp
      exact hp
    · exact ih (fun q hq => hf q (List.mem_cons_of_mem _ hq)) g' hg

/-! ## The history of each thread -/

/-- The operations of a thread, the newest first, move its private state from `g`. -/
inductive Trail (M : Moving S σ) (g : σ) : List (Event S) → σ → Prop
  | start : Trail M g [] g
  | move {h : List (Event S)} {g₁ g₂ : σ} {o : S.Op} {x : S.Out o} :
      Trail M g h g₁ → M o x g₁ g₂ → Trail M g (.did o x :: h) g₂

/-- A history that interleaves the histories of the members of a list. -/
inductive Interleaved : List (List α) → List α → Prop
  | nil : Interleaved [] []
  | join {hs : List (List α)} {t : List α} : Interleaved hs t → Interleaved (hs ++ [[]]) t
  | next {us vs : List (List α)} {h t : List α} (e : α) :
      Interleaved (us ++ h :: vs) t → Interleaved (us ++ (e :: h) :: vs) (e :: t)

theorem Interleaved.sublist {hs : List (List α)} {t : List α} (hi : Interleaved hs t) :
    ∀ h ∈ hs, h.Sublist t := by
  induction hi with
  | nil => simp
  | join _ ih =>
    intro h hm
    rcases List.mem_append.mp hm with hm | hm
    · exact ih h hm
    · rw [List.mem_singleton.mp hm]
      exact List.nil_sublist _
  | @next us vs h₀ t e _ ih =>
    intro h hm
    rcases List.mem_append.mp hm with hm | hm
    · exact (ih h (List.mem_append_left _ hm)).cons e
    rcases List.mem_cons.mp hm with rfl | hm
    · exact (ih h₀ (by simp)).cons_cons e
    · exact (ih h (List.mem_append_right _ (List.mem_cons_of_mem _ hm))).cons e

/-- Each event belongs to the history of a thread, which did the earlier events of it before. -/
theorem Interleaved.owner {hs : List (List α)} {t later earlier : List α} {e : α}
    (hi : Interleaved hs t) (ht : t = later ++ e :: earlier) :
    ∃ h ∈ hs, ∃ later' earlier', h = later' ++ e :: earlier' ∧ earlier'.Sublist earlier := by
  induction hi generalizing later with
  | nil => exact absurd ht (by simp)
  | join _ ih =>
    obtain ⟨h, hm, hh⟩ := ih ht
    exact ⟨h, List.mem_append_left _ hm, hh⟩
  | @next us vs h₀ t e₀ hi ih =>
    rcases later with _ | ⟨e₁, later⟩
    · obtain ⟨rfl, rfl⟩ := List.cons.inj ht
      exact ⟨e₀ :: h₀, by simp, [], h₀, rfl, hi.sublist h₀ (by simp)⟩
    obtain ⟨h, hm, later', earlier', rfl, hsub⟩ := ih (List.cons.inj ht).2
    rcases List.mem_append.mp hm with hm | hm
    · exact ⟨_, List.mem_append_left _ hm, later', earlier', rfl, hsub⟩
    rcases List.mem_cons.mp hm with rfl | hm
    · exact ⟨_, by simp, e₀ :: later', earlier', rfl, hsub⟩
    · exact ⟨_, List.mem_append_right _ (List.mem_cons_of_mem _ hm), later', earlier', rfl, hsub⟩

/-- The private states of a crew are where the histories of its threads lead. -/
def Trailed (M : Moving S σ) (init : σ) (w : World Y) (gs : List σ) : Prop :=
  ∃ hs, Interleaved hs w.trace ∧ List.Forall₂ (Trail M init) hs gs

theorem Trailed.keeps : CrewKeeps Y M init (Trailed M init) where
  join := by
    rintro w gs ⟨hs, hi, ht⟩
    exact ⟨hs ++ [[]], hi.join, List.rel_append ht (.cons .start .nil)⟩
  act := by
    rintro w us vs o x s g g' - hm ⟨hs, hi, ht⟩
    obtain ⟨as, h, bs, rfl, has, hh, hbs⟩ := ht.split
    exact ⟨_, hi.next _, List.rel_append has (.cons (hh.move hm) hbs)⟩
  env _ h := h

/-- The threads of a crew, each with its own history, which leads where the thread is. -/
theorem Crewed.trails {ps : List (Prog S Unit)}
    (hps : ∀ p ∈ ps, p.Tracks M (fun _ => done) init) {s : Y.State} {c : Config Y Unit}
    (h : Reach Y (start Y (forkAll ps) s []) c) : ∃ hs, Interleaved hs c.world.trace ∧
      List.Forall₂ (fun p h => ∃ g, Trail M init h g ∧ p.Tracks M (fun _ => done) g) c.tasks hs := by
  obtain ⟨gs, -, htasks, hs, hi, ht⟩ :=
    Crewed.reach (Trailed.keeps (Y := Y)) hps ⟨[], .nil, .nil⟩ h
  refine ⟨hs, hi, ?_⟩
  clear hi
  generalize c.tasks = ts at htasks ⊢
  induction htasks generalizing hs with
  | nil =>
    cases ht
    exact .nil
  | cons hp _ ih =>
    obtain ⟨h, hs, hh, hs', rfl⟩ := List.forall₂_cons_right_iff.mp ht
    exact .cons ⟨_, hh, hp⟩ (ih hs hs')

end Threads
