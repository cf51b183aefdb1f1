import Mathlib.Tactic

/-!
# Programs of one thread

A program is a finite tree of actions. An action names one atomic operation on
the state the threads share and continues with its outcome, so the tree fixes
the control flow of the thread while the outcomes are chosen by a system.
Recursive calls and loops are nodes of their own: neither is unfolded by the
syntax, hence no fuel appears in a program or in a statement about one.
-/

namespace Threads

/-- The operations a program may perform with their outcomes, and the argument
and result of its one recursive procedure. -/
structure Sig where
  Op : Type
  Out : Op → Type
  Arg : Type
  Res : Type

/-- The text of one thread. `fork`, `pending`, `reap` and `drain` act on the pool
of the tasks that were forked and not yet consumed. -/
inductive Prog (S : Sig) : Type → Type 1
  | pure {α : Type} (a : α) : Prog S α
  | act {α : Type} (o : S.Op) (k : S.Out o → Prog S α) : Prog S α
  | recur {α : Type} (a : S.Arg) (k : S.Res → Prog S α) : Prog S α
  | loop {α β γ : Type} (body : β → Prog S (β ⊕ γ)) (b : β) (k : γ → Prog S α) : Prog S α
  | fork {α : Type} (task : Prog S Unit) (k : Prog S α) : Prog S α
  | pending {α : Type} (k : ℕ → Prog S α) : Prog S α
  | reap {α : Type} (k : Prog S α) : Prog S α
  | drain {α : Type} (k : Prog S α) : Prog S α

namespace Prog

variable {S : Sig} {α β γ : Type}

/-- Sequencing grafts the continuation onto every leaf. -/
def bind : {α : Type} → Prog S α → (α → Prog S β) → Prog S β
  | _, pure a, f => f a
  | _, act o k, f => act o fun x => (k x).bind f
  | _, recur a k, f => recur a fun x => (k x).bind f
  | _, loop body b k, f => loop body b fun c => (k c).bind f
  | _, fork task k, f => fork task (k.bind f)
  | _, pending k, f => pending fun n => (k n).bind f
  | _, reap k, f => reap (k.bind f)
  | _, drain k, f => drain (k.bind f)

instance : Monad (Prog S) where
  pure := pure
  bind := bind

@[simp] theorem pure_bind (a : α) (f : α → Prog S β) : (pure a : Prog S α).bind f = f a := rfl

theorem bind_pure (p : Prog S α) : p.bind pure = p := by
  induction p with
  | pure a => rfl
  | act o k ih => simp only [bind, ih]
  | recur a k ih => simp only [bind, ih]
  | loop body b k _ ih => simp only [bind, ih]
  | fork task k _ ih => simp only [bind, ih]
  | pending k ih => simp only [bind, ih]
  | reap k ih => simp only [bind, ih]
  | drain k ih => simp only [bind, ih]

theorem bind_assoc (p : Prog S α) (f : α → Prog S β) (h : β → Prog S γ) :
    (p.bind f).bind h = p.bind fun a => (f a).bind h := by
  induction p with
  | pure a => rfl
  | act o k ih => simp only [bind, ih]
  | recur a k ih => simp only [bind, ih]
  | loop body b k _ ih => simp only [bind, ih]
  | fork task k _ ih => simp only [bind, ih]
  | pending k ih => simp only [bind, ih]
  | reap k ih => simp only [bind, ih]
  | drain k ih => simp only [bind, ih]

end Prog
end Threads
