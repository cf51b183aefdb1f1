import TurboCopy.Threads.Alone
import TurboCopy.Copier.Run
import Mathlib.Order.WithBot

/-!
# Runs of one thread

Triples for the procedures of an engine that has no executor and that nobody stops:
`Completes` says that a procedure ends, in `Q` when it returns and in `E` when it raises.
-/

namespace TurboCopy

open Threads CopierM

variable {α β : Type} {V : Service}

/-- The engine over the Drive `V`, without a stop request. -/
def Copier.undisturbed (cp : Copier) (V : Service) : System copierSig :=
  { cp.system V with env := fun _ _ => False }

theorem Copier.undisturbed_env (cp : Copier) (V : Service) :
    ∀ s s', ¬(cp.undisturbed V).env s s' := fun _ _ h => h

/-- A world of an undisturbed run. -/
abbrev Scene (cp : Copier) (V : Service) : Type := World (cp.undisturbed V)

def CopierM.Completes {cp : Copier} (w : Scene cp V) (x : CopierM α) (Q : α → Scene cp V → Prop)
    (E : Exc → Scene cp V → Prop) : Prop :=
  Alone (cp.undisturbed V) x w fun r w' => match r with
    | .ok a => Q a w'
    | .error e => E e w'

namespace CopierM.Completes

variable {cp : Copier} {w : Scene cp V} {Q R : α → Scene cp V → Prop} {E : Exc → Scene cp V → Prop}

theorem pure {a : α} (h : Q a w) : Completes w (pure a : CopierM α) Q E := Alone.pure h

theorem throw {e : Exc} (h : E e w) : Completes w (throw e : CopierM α) Q E := Alone.pure h

theorem bind {x : CopierM α} {f : α → CopierM β} {Q : β → Scene cp V → Prop}
    (hx : Completes w x R E) (hf : ∀ a w', R a w' → Completes w' (f a) Q E) : Completes w (x >>= f) Q E := by
  apply Alone.bind hx
  rintro (e | a) w' h
  · exact Alone.pure h
  · exact hf a w' h

theorem mono {D : Exc → Scene cp V → Prop} {x : CopierM α} (h : Completes w x R D)
    (hR : ∀ a w, R a w → Q a w) (hE : ∀ e w, D e w → E e w) : Completes w x Q E := by
  apply Alone.mono h
  rintro (e | a) w' h'
  · exact hE e w' h'
  · exact hR a w' h'

theorem attempt {x : CopierM α} {Q : Except Exc α → Scene cp V → Prop}
    (h : Completes w x (fun a => Q (.ok a)) fun e => Q (.error e)) : Completes w (attempt x) Q E := by
  apply Alone.bind h
  rintro (e | a) w' h'
  · exact Alone.pure h'
  · exact Alone.pure h'

/-- An access to the memory. -/
theorem mem {o : MemOp} {Q : o.Out → Scene cp V → Prop}
    (h : Q (w.state.mem.exec o).1 (w.log ⟨(w.state.mem.exec o).2, w.state.drive⟩
      (.did (.mem o) (w.state.mem.exec o).1))) : Completes w (mem o) Q E := by
  have hp : (cp.undisturbed V).perform (.mem o) w.state (w.state.mem.exec o).1
      ⟨(w.state.mem.exec o).2, w.state.drive⟩ := ⟨rfl, rfl⟩
  apply Alone.act ⟨_, _, hp⟩
  rintro x s ⟨rfl, rfl⟩
  exact Alone.pure h

/-- A call, whatever the Drive answers. -/
theorem ask {q : Request} {Q : q.Ret → Scene cp V → Prop}
    (some : ∃ x d, V.serves q w.state.drive x d)
    (h : ∀ x d, V.serves q w.state.drive x d →
      Q x (w.log ⟨w.state.mem, d⟩ (.did (.ask q) x))) : Completes w (ask q) Q E := by
  obtain ⟨x, d, hs⟩ := some
  have hp : (cp.undisturbed V).perform (.ask q) w.state x ⟨w.state.mem, d⟩ := ⟨hs, rfl⟩
  apply Alone.act ⟨_, _, hp⟩
  rintro x ⟨m, d⟩ ⟨hs, hm⟩
  obtain rfl : m = w.state.mem := hm
  exact Alone.pure (h x d hs)

theorem orThrow {r : Except ApiError α} (hok : ∀ a, r = .ok a → Q a w)
    (herror : ∀ e, r = .error e → E (.client e) w) : Completes w (orThrow r) Q E := by
  cases r with
  | ok a => exact pure (hok a rfl)
  | error e => exact throw (herror e rfl)

theorem enter {l : Level} {Q : Unit → Scene cp V → Prop}
    (h : Completes (w.log w.state (.entered l)) (cp.processLevel l) Q E) : Completes w (enter l) Q E := by
  apply Alone.recur h
  rintro (e | u) w' hw
  · exact Alone.pure hw
  · exact Alone.pure hw

theorem drainFutures {Q : Unit → Scene cp V → Prop} (h : Q () w) : Completes w drainFutures Q E :=
  Alone.drain (Alone.pure h)

/-- A loop whose state decreases with every round. -/
theorem iterate {ι : Type} [Preorder ι] [WellFoundedLT ι] {body : β → CopierM (β ⊕ α)}
    (size : β → ι) (J : β → Scene cp V → Prop)
    (hbody : ∀ b w, J b w → Completes w (body b) (fun y w' => match y with
      | .inl b' => J b' w' ∧ size b' < size b
      | .inr a => Q a w') E) {b : β} (hb : J b w) : Completes w (iterate body b) Q E := by
  apply Alone.loop_decreasing size J (fun r w' => match r with
    | .ok a => Q a w'
    | .error e => E e w') _ _ hb
  · intro b w hJ
    apply Alone.bind (hbody b w hJ)
    rintro (e | b' | a) w' hy
    · exact Alone.pure hy
    · exact Alone.pure hy
    · exact Alone.pure hy
  · exact fun r w' hr => Alone.pure hr

/-- One round of a loop. -/
theorem iterate_step {body : β → CopierM (β ⊕ α)} {b : β}
    (h : Completes w (body b) (fun y w' => match y with
      | .inl b' => Completes w' (CopierM.iterate body b') Q E
      | .inr a => Q a w') E) : Completes w (CopierM.iterate body b) Q E := by
  apply Alone.loop (R := fun (y : β ⊕ Except Exc α) w' => match y with
    | .inl b' => Completes w' (CopierM.iterate body b') Q E
    | .inr (.ok a) => Q a w'
    | .inr (.error e) => E e w')
  · apply Alone.bind h
    rintro (e | b' | a) w' hy
    · exact Alone.pure hy
    · exact Alone.pure hy
    · exact Alone.pure hy
  · rintro (b' | e | a) w' hy
    · exact hy
    · exact Alone.pure hy
    · exact Alone.pure hy

/-- The pages still to come, at most. -/
def pagesLeft : Option PageToken → WithTop ℕ
  | none => ⊤
  | some t => t.left

/-- A loop over the pages of a listing. -/
theorem pages {list : Option PageToken → CopierM Page} {add : β → List ApiFile → β} {init : β}
    {Q : β → Scene cp V → Prop} (J : β → Option PageToken → Scene cp V → Prop)
    (hround : ∀ b tok w, J b tok w → Completes w (list tok) (fun page w' => match page.2 with
      | none => Q (add b page.1) w'
      | some t => J (add b page.1) (some t) w' ∧ pagesLeft (some t) < pagesLeft tok) E)
    (hinit : J init none w) : Completes w (pages list add init) Q E := by
  apply iterate (fun s => pagesLeft s.2) (fun s w => J s.1 s.2 w) _ hinit
  rintro ⟨b, tok⟩ w hJ
  apply bind (hround b tok w hJ)
  rintro ⟨files, _ | t⟩ w' hpage
  · exact pure hpage
  · exact pure hpage

end CopierM.Completes
end TurboCopy
