import Mathlib.Data.Finset.Card
import Mathlib.Logic.Relation
import Mathlib.Tactic

/-!
# Depth-first walks

The first nodes that a depth-first walk of a graph visits, for a graph given by the list of
the nodes after each node. A walk visits only nodes that can be reached, each once; a walk
that ends before its bound has visited all of them.
-/

namespace DepthFirst

variable {α : Type} {next : α → List α}

/-- There is a path from one node to another. -/
def Reaches (next : α → List α) : α → α → Prop := Relation.ReflTransGen fun a b => b ∈ next a

variable [DecidableEq α]

/-- The first `n` nodes the walk visits when it has visited `seen` and `stack` is to come.
Of the nodes after a node, the last one comes first. -/
def walk (next : α → List α) : ℕ → List α → List α → List α
  | 0, _, _ => []
  | n + 1, seen, stack =>
    match stack.dropWhile fun a => a ∈ seen with
    | [] => []
    | a :: rest =>
      a :: walk next n (a :: seen) (((next a).filter fun b => b ∉ a :: seen).reverse ++ rest)

section Walk

variable {n : ℕ} {seen stack : List α} {a : α}

theorem walk_nil : walk next n seen [] = [] := by
  cases n <;> rfl

theorem walk_seen (ha : a ∈ seen) : walk next n seen (a :: stack) = walk next n seen stack := by
  cases n with
  | zero => rfl
  | succ n =>
    unfold walk
    rw [List.dropWhile_cons_of_pos (by simpa using ha)]

theorem walk_fresh (ha : a ∉ seen) : walk next (n + 1) seen (a :: stack) =
    a :: walk next n (a :: seen)
      (((next a).filter fun b => b ∉ a :: seen).reverse ++ stack) := by
  rw [walk, List.dropWhile_cons_of_neg (by simpa using ha)]

/-- Every visited node can be reached from the stack. -/
theorem reaches_of_mem_walk {x : α} (hx : x ∈ walk next n seen stack) :
    ∃ a ∈ stack, Reaches next a x := by
  induction n generalizing seen stack with
  | zero => exact nomatch hx
  | succ n ih =>
    induction stack with
    | nil => exact nomatch hx
    | cons a stack ihs =>
      by_cases ha : a ∈ seen
      · rw [walk_seen ha] at hx
        obtain ⟨b, hb, hreach⟩ := ihs hx
        exact ⟨b, List.mem_cons_of_mem _ hb, hreach⟩
      · rw [walk_fresh ha] at hx
        rcases List.mem_cons.mp hx with rfl | hx
        · exact ⟨x, List.mem_cons_self .., .refl⟩
        · obtain ⟨b, hb, hreach⟩ := ih hx
          rcases List.mem_append.mp hb with hb | hb
          · have hnext : b ∈ next a := List.mem_of_mem_filter (List.mem_reverse.mp hb)
            exact ⟨a, List.mem_cons_self .., .head hnext hreach⟩
          · exact ⟨b, List.mem_cons_of_mem _ hb, hreach⟩

theorem not_mem_seen_of_mem_walk {x : α} (hx : x ∈ walk next n seen stack) : x ∉ seen := by
  induction n generalizing seen stack with
  | zero => exact nomatch hx
  | succ n ih =>
    induction stack with
    | nil => exact nomatch hx
    | cons a stack ihs =>
      by_cases ha : a ∈ seen
      · rw [walk_seen ha] at hx
        exact ihs hx
      · rw [walk_fresh ha] at hx
        rcases List.mem_cons.mp hx with rfl | hx
        · exact ha
        · exact fun h => ih hx (List.mem_cons_of_mem _ h)

/-- No node is visited twice. -/
theorem nodup_walk : (walk next n seen stack).Nodup := by
  induction n generalizing seen stack with
  | zero => exact List.nodup_nil
  | succ n ih =>
    induction stack with
    | nil => exact List.nodup_nil
    | cons a stack ihs =>
      by_cases ha : a ∈ seen
      · rw [walk_seen ha]
        exact ihs
      · rw [walk_fresh ha]
        refine List.nodup_cons.mpr ⟨fun h => ?_, ih⟩
        exact not_mem_seen_of_mem_walk h (List.mem_cons_self ..)

/-- A walk that ends before its bound has met the stack and all that follows its nodes. -/
theorem closed_of_length_walk (h : (walk next n seen stack).length < n) :
    (∀ x ∈ stack, x ∈ seen ∨ x ∈ walk next n seen stack) ∧
      ∀ x ∈ walk next n seen stack, ∀ y ∈ next x, y ∈ seen ∨ y ∈ walk next n seen stack := by
  induction n generalizing seen stack with
  | zero => exact nomatch h
  | succ n ih =>
    induction stack with
    | nil => exact ⟨nofun, nofun⟩
    | cons a stack ihs =>
      by_cases ha : a ∈ seen
      · rw [walk_seen ha] at h ⊢
        obtain ⟨hstack, hnext⟩ := ihs h
        refine ⟨fun x hx => ?_, hnext⟩
        rcases List.mem_cons.mp hx with rfl | hx
        · exact .inl ha
        · exact hstack x hx
      · rw [walk_fresh ha] at h ⊢
        obtain ⟨hstack, hnext⟩ := ih (Nat.succ_lt_succ_iff.mp h)
        have hmet {y : α} (hy : y ∈ a :: seen ∨ y ∈ walk next n (a :: seen)
            (((next a).filter fun b => b ∉ a :: seen).reverse ++ stack)) :
            y ∈ seen ∨ y ∈ a :: walk next n (a :: seen)
              (((next a).filter fun b => b ∉ a :: seen).reverse ++ stack) := by
          simp only [List.mem_cons] at hy ⊢
          tauto
        constructor
        · intro x hx
          rcases List.mem_cons.mp hx with rfl | hx
          · exact .inr (List.mem_cons_self ..)
          · exact hmet (hstack x (List.mem_append_right _ hx))
        · intro x hx y hy
          rcases List.mem_cons.mp hx with rfl | hx
          · by_cases hold : y ∈ x :: seen
            · exact hmet (.inl hold)
            · apply hmet
              apply hstack
              apply List.mem_append_left
              exact List.mem_reverse.mpr (List.mem_filter.mpr ⟨hy, by simpa using hold⟩)
          · exact hmet (hnext x hx y hy)

end Walk

/-- A walk whose bound is no less than the number of nodes it can reach visits all of them. -/
theorem mem_walk_of_few {n : ℕ} {a x : α} {s : Finset α} (hs : ∀ b, Reaches next a b → b ∈ s)
    (hn : s.card ≤ n) (hx : Reaches next a x) : x ∈ walk next n [] [a] := by
  rcases Nat.lt_or_ge (walk next n [] [a]).length n with hlt | hge
  · obtain ⟨hstack, hnext⟩ := closed_of_length_walk hlt
    induction hx with
    | refl => exact (hstack a (List.mem_singleton_self a)).resolve_left List.not_mem_nil
    | tail _ hstep ih => exact (hnext _ ih _ hstep).resolve_left List.not_mem_nil
  · -- The walk has as many nodes as there are.
    have hsub : (walk next n [] [a]).toFinset ⊆ s := by
      intro b hb
      obtain ⟨a', ha', hreach⟩ := reaches_of_mem_walk (List.mem_toFinset.mp hb)
      rw [List.mem_singleton.mp ha'] at hreach
      exact hs b hreach
    have hcard : (walk next n [] [a]).toFinset.card = (walk next n [] [a]).length :=
      List.toFinset_card_of_nodup nodup_walk
    have heq : (walk next n [] [a]).toFinset = s :=
      Finset.eq_of_subset_of_card_le hsub (by omega)
    exact List.mem_toFinset.mp (heq ▸ hs x hx)

end DepthFirst
