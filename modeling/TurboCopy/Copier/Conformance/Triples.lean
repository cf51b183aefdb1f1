import TurboCopy.Copier.Tokens

/-!
# Token triples of the engine's procedures

`Does P τ x Q E` says that the tokens `τ` pay for the procedure `x`, which leaves
those of `Q` when it returns and those of `E` when it raises.
-/

namespace TurboCopy

open Threads CopierM

variable {T α β : Type}

/-- What is left after a call that raises or answers. -/
def Answered {ε : Type} (raised : ε → Prop) (answered : α → Prop) : Except ε α → Prop
  | .error e => raised e
  | .ok a => answered a

def CopierM.Does (P : Protocol copierSig T) (τ : Multiset T) (x : CopierM α)
    (Q : α → Multiset T → Prop) (E : Exc → Multiset T → Prop) : Prop :=
  P.Spec τ x fun r τ => match r with
    | .ok a => Q a τ
    | .error e => E e τ

namespace CopierM.Does

variable {P : Protocol copierSig T} {τ : Multiset T} {Q R : α → Multiset T → Prop}
  {E : Exc → Multiset T → Prop}

theorem pure {a : α} (h : Q a τ) : Does P τ (pure a : CopierM α) Q E := Protocol.Spec.pure h

theorem throw {e : Exc} (h : E e τ) : Does P τ (throw e : CopierM α) Q E :=
  Protocol.Spec.pure h

theorem bind {x : CopierM α} {f : α → CopierM β} {Q : β → Multiset T → Prop}
    (hx : Does P τ x R E) (hf : ∀ a τ, R a τ → Does P τ (f a) Q E) :
    Does P τ (x >>= f) Q E := by
  refine Protocol.Spec.bind hx ?_
  rintro (e | a) τ' h
  · exact Protocol.Spec.pure h
  · exact hf a τ' h

/-- Sequencing when the first procedure leaves `σ` whatever it returns. -/
theorem seq {x : CopierM α} {f : α → CopierM β} {Q : β → Multiset T → Prop} {σ : Multiset T}
    (hx : Does P τ x (fun _ g => g = σ) E) (hf : ∀ a, Does P σ (f a) Q E) :
    Does P τ (x >>= f) Q E :=
  bind hx fun a _ h => h ▸ hf a

theorem mono {D : Exc → Multiset T → Prop} {x : CopierM α} (h : Does P τ x R D)
    (hR : ∀ a τ, R a τ → Q a τ) (hE : ∀ e τ, D e τ → E e τ) : Does P τ x Q E := by
  refine Protocol.Spec.mono h ?_
  rintro (e | a) τ' h
  · exact hE e τ' h
  · exact hR a τ' h

theorem frame (φ : Multiset T) {x : CopierM α} (h : Does P τ x Q E) :
    Does P (φ + τ) x (fun a g => ∃ τ', g = φ + τ' ∧ Q a τ')
      fun e g => ∃ τ', g = φ + τ' ∧ E e τ' := by
  refine Protocol.Spec.mono (Protocol.Spec.frame φ h) ?_
  rintro (e | a) g ⟨τ', rfl, h⟩
  · exact ⟨τ', rfl, h⟩
  · exact ⟨τ', rfl, h⟩

/-- Sequencing when the first procedure needs only `σ`. -/
theorem part {φ σ : Multiset T} {D : Exc → Multiset T → Prop} {x : CopierM α}
    {f : α → CopierM β} {Q : β → Multiset T → Prop} (hτ : τ = φ + σ) (hx : Does P σ x R D)
    (hf : ∀ a τ', R a τ' → Does P (φ + τ') (f a) Q E) (hE : ∀ e τ', D e τ' → E e (φ + τ')) :
    Does P τ (x >>= f) Q E := by
  rw [hτ]
  refine bind ((frame φ hx).mono (fun _ _ h => h) ?_) ?_
  · rintro e _ ⟨τ', rfl, h⟩
    exact hE e τ' h
  · rintro a _ ⟨τ', rfl, h⟩
    exact hf a τ' h

theorem shift {τ' : Multiset T} {x : CopierM α} (hs : P.shift τ τ')
    (h : Does P τ' x Q E) : Does P τ x Q E := Protocol.Spec.shift hs h

/-- A shift of a part of the tokens. -/
theorem shiftPart {φ τ' : Multiset T} {x : CopierM α} (hs : P.shift τ τ')
    (h : Does P (φ + τ') x Q E) : Does P (φ + τ) x Q E :=
  Protocol.Spec.shifts (.step hs (.refl _)) h

theorem attempt {x : CopierM α} {Q : Except Exc α → Multiset T → Prop}
    (h : Does P τ x (fun a => Q (.ok a)) fun e => Q (.error e)) :
    Does P τ (attempt x) Q E := by
  refine Protocol.Spec.bind h ?_
  rintro (e | a) τ' h
  · exact Protocol.Spec.pure h
  · exact Protocol.Spec.pure h

theorem mem {o : MemOp} {Q : o.Out → Multiset T → Prop}
    (h : ∀ x, ∃ τ', P.rule (.mem o) x τ τ' ∧ Q x τ') : Does P τ (mem o) Q E := by
  refine Protocol.Spec.act fun x => ?_
  obtain ⟨τ', hr, hQ⟩ := h x
  exact ⟨τ', hr, Protocol.Spec.pure hQ⟩

theorem ask {q : Request} {Q : q.Ret → Multiset T → Prop}
    (h : ∀ x, ∃ τ', P.rule (.ask q) x τ τ' ∧ Q x τ') : Does P τ (ask q) Q E := by
  refine Protocol.Spec.act fun x => ?_
  obtain ⟨τ', hr, hQ⟩ := h x
  exact ⟨τ', hr, Protocol.Spec.pure hQ⟩

theorem orThrow {r : Except ApiError α} (hok : ∀ a, r = .ok a → Q a τ)
    (herror : ∀ e, r = .error e → E (.client e) τ) : Does P τ (orThrow r) Q E := by
  cases r with
  | ok a => exact Protocol.Spec.pure (hok a rfl)
  | error e => exact Protocol.Spec.pure (herror e rfl)

theorem iterate {body : β → CopierM (β ⊕ α)} {b : β} (J : β → Multiset T → Prop)
    (hJ : J b τ) (hbody : ∀ b τ, J b τ → Does P τ (body b) (Sum.elim J Q) E) :
    Does P τ (iterate body b) Q E := by
  refine Protocol.Spec.loop J (fun r τ => match r with
    | .ok a => Q a τ
    | .error e => E e τ) hJ (fun b τ h => ?_) fun r τ h => Protocol.Spec.pure h
  refine Protocol.Spec.bind (hbody b τ h) ?_
  rintro (e | b' | a) τ' h'
  · exact Protocol.Spec.pure h'
  · exact Protocol.Spec.pure h'
  · exact Protocol.Spec.pure h'

theorem enter {l : Level} {τ' : Multiset T} {Q : Unit → Multiset T → Prop}
    (hc : P.call l τ τ') (hok : ∀ u τ'', P.result l (.ok u) τ'' → Q u τ'')
    (herror : ∀ e τ'', P.result l (.error e) τ'' → E e τ'') : Does P τ (enter l) Q E := by
  refine Protocol.Spec.recur hc ?_
  rintro (e | u) τ'' h
  · exact Protocol.Spec.pure (herror e τ'' h)
  · exact Protocol.Spec.pure (hok u τ'' h)

theorem submit {task : Prog copierSig Unit} {φ : Multiset T}
    {Q : Unit → Multiset T → Prop} (ht : P.Spec τ task fun _ g => g = 0) (hQ : Q () φ) :
    Does P (φ + τ) (submit task) Q E := Protocol.Spec.fork ht (Protocol.Spec.pure hQ)

theorem pendingFutures {Q : ℕ → Multiset T → Prop} (h : ∀ n, Q n τ) :
    Does P τ pendingFutures Q E := Protocol.Spec.pending fun n => Protocol.Spec.pure (h n)

theorem reapFutures {Q : Unit → Multiset T → Prop} (h : Q () τ) :
    Does P τ reapFutures Q E := Protocol.Spec.reap (Protocol.Spec.pure h)

theorem drainFutures {Q : Unit → Multiset T → Prop} (h : Q () τ) :
    Does P τ drainFutures Q E := Protocol.Spec.drain (Protocol.Spec.pure h)

end CopierM.Does
end TurboCopy
