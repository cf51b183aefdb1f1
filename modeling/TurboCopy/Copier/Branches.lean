import TurboCopy.Copier.Straight

/-!
# The branches of the traversal

A level is processed in the call of `_process_level` for it, and a branch is a chain of such
calls. Each call puts a source folder on the branch that is not on it yet, whatever the listings
say and wherever shortcuts lead. So over a finite set of source folders the recursion ends, in
every schedule of the workers, and a branch is cut only for a reason that the history shows.
-/

namespace TurboCopy

open Threads CopierM

/-! ## The calls of a level -/

/-- A level for a folder that is not on the branch of `l`. -/
structure Level.Nests (l l' : Level) : Prop where
  visited : l'.visited = insert l'.parentSourceId l.visited
  fresh : l'.parentSourceId ∉ l.visited

section Calls

variable {α β : Type} {C : Level → Prop}

/-- The calls in the text of a procedure satisfy `C`, and what it returns satisfies `Q`. -/
def CopierM.Calls (C : Level → Prop) (x : CopierM α) (Q : α → Prop) : Prop :=
  Prog.Guarded C x fun r => ∀ a, r = .ok a → Q a

namespace CopierM.Calls

variable {Q R : α → Prop}

theorem pure {a : α} (h : Q a) : Calls C (pure a : CopierM α) Q := by
  rintro b hb
  cases hb
  exact h

theorem throw (e : Exc) : Calls C (throw e : CopierM α) Q := fun _ h => nomatch h

theorem bind {x : CopierM α} {f : α → CopierM β} {Q : β → Prop} (hx : Calls C x R)
    (hf : ∀ a, R a → Calls C (f a) Q) : Calls C (x >>= f) Q := by
  apply Prog.Guarded.bind hx
  rintro (e | a) h
  · exact throw e
  · exact hf a (h a rfl)

theorem mono {x : CopierM α} (h : Calls C x R) (hR : ∀ a, R a → Q a) : Calls C x Q :=
  Prog.Guarded.mono h fun _ hr a ha => hR a (hr a ha)

theorem attempt {x : CopierM α} (h : Calls C x fun _ => True) :
    Calls C (attempt x) fun _ => True :=
  Prog.Guarded.bind h fun _ _ _ _ => trivial

theorem straight {x : CopierM α} (h : Straight (fun _ => True) x) :
    Calls C x fun _ => True :=
  Prog.Guarded.of_tracks (Prog.Tracks.mono h fun _ _ _ _ _ => trivial)

theorem notes {x : CopierM α} {P : α → List (Event copierSig) → Prop}
    (h : Notes (fun _ _ => True) [] x P) : Calls C x fun _ => True :=
  Prog.Guarded.of_tracks (Prog.Tracks.mono h fun _ _ _ _ _ => trivial)

theorem quiet {p : Prog copierSig Unit} (h : p.Quiet) : Calls C (submit p) fun _ => True :=
  ⟨h, fun _ _ => trivial⟩

theorem ite {x y : CopierM α} {p : Prop} [hp : Decidable p] (hx : p → Calls C x Q)
    (hy : ¬p → Calls C y Q) : Calls C (if p then x else y) Q := by
  cases hp with
  | isTrue h => exact hx h
  | isFalse h => exact hy h

theorem enter {l : Level} (h : C l) : Calls C (enter l) fun _ => True :=
  ⟨h, fun _ _ _ => trivial⟩

theorem iterate {body : β → CopierM (β ⊕ α)} (h : ∀ b, Calls C (body b) fun _ => True) (b : β) :
    Calls C (iterate body b) fun _ => True := by
  refine ⟨fun b => Prog.Guarded.bind (h b) ?_, fun _ _ _ => trivial⟩
  rintro (e | b' | a) _
  · trivial
  · trivial
  · trivial

end CopierM.Calls
end Calls

namespace Copier

variable {cp : Copier} {C : Level → Prop} {l : Level}

/-- No folder whose listing is pending is on the branch of its level. -/
def Fresh (l : Level) (pending : List Pending) : Prop :=
  ∀ p ∈ pending, p.1.id ∉ l.visited

/-- The source folders of a branch are distinct, and its last level has visited them. -/
def DistinctFolders (branch : List Level) : Prop :=
  (branch.map Level.parentSourceId).Nodup ∧ ∀ l rest, branch = l :: rest →
    l.visited = (branch.map Level.parentSourceId).toFinset

theorem DistinctFolders.call {a b : Level} {rest : List Level} (h : DistinctFolders (b :: rest))
    (hcall : b.Nests a) : DistinctFolders (a :: b :: rest) := by
  obtain ⟨hnodup, hvisited⟩ := h
  have hb := hvisited b rest rfl
  have hfresh := hcall.fresh
  rw [hb, List.mem_toFinset] at hfresh
  refine ⟨List.nodup_cons.mpr ⟨hfresh, hnodup⟩, ?_⟩
  rintro l _ ⟨⟩
  rw [hcall.visited, hb, List.map_cons (a := a), List.toFinset_cons]

end Copier
end TurboCopy
