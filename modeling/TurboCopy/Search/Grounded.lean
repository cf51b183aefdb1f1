import Mathlib.Logic.Relation
import Mathlib.Data.Set.Basic
import Mathlib.Tactic

/-!
# Grounded nodes

The least set of nodes of a graph that contains given nodes and contains a node that is ready
as soon as it contains the nodes after it. No node of the set waits for itself.
-/

namespace Grounding

variable {α : Type} {base ready : α → Prop} {next : α → List α}

/-- The set contains the given nodes and each ready node whose next nodes it contains. -/
structure Closed (base ready : α → Prop) (next : α → List α) (C : Set α) : Prop where
  base : ∀ a, base a → a ∈ C
  node : ∀ a, ready a → (∀ b ∈ next a, b ∈ C) → a ∈ C

inductive Grounded (base ready : α → Prop) (next : α → List α) : α → Prop
  | base {a : α} (h : base a) : Grounded base ready next a
  | node {a : α} (h : ready a) (hnext : ∀ b ∈ next a, Grounded base ready next b) :
    Grounded base ready next a

theorem closed_grounded : Closed base ready next {a | Grounded base ready next a} :=
  ⟨fun _ h => .base h, fun _ h hnext => .node h hnext⟩

theorem Grounded.mem {C : Set α} (hC : Closed base ready next C) {a : α}
    (h : Grounded base ready next a) : a ∈ C := by
  induction h with
  | base h => exact hC.base _ h
  | node h _ ih => exact hC.node _ h ih

/-- A node that is not given waits for the nodes after it. -/
def Waits (base : α → Prop) (next : α → List α) (a b : α) : Prop := ¬base a ∧ b ∈ next a

theorem Grounded.acc {a : α} (h : Grounded base ready next a) :
    Acc (fun b a => Waits base next a b) a := by
  induction h with
  | base h => exact ⟨_, fun b hb => absurd h hb.1⟩
  | node h _ ih => exact ⟨_, fun b hb => ih b hb.2⟩

/-- A node that waits for itself is not grounded. -/
theorem Grounded.not_waits_self {a : α} (h : Grounded base ready next a) :
    ¬Relation.TransGen (Waits base next) a a := by
  intro hcycle
  have hacc : Acc (Relation.TransGen fun b a => Waits base next a b) a := h.acc.transGen
  have hback : Relation.TransGen (fun b a => Waits base next a b) a a :=
    Relation.transGen_swap.mpr hcycle
  induction hacc with
  | intro a _ ih => exact ih a hback h hcycle hback

theorem grounded_iff_of_not_base {a : α} (h : ¬base a) :
    Grounded base ready next a ↔ ready a ∧ ∀ b ∈ next a, Grounded base ready next b := by
  constructor
  · intro hgrounded
    cases hgrounded with
    | base hbase => exact absurd hbase h
    | node hready hnext => exact ⟨hready, hnext⟩
  · rintro ⟨hready, hnext⟩
    exact .node hready hnext

end Grounding
