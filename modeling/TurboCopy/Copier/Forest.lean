import TurboCopy.Copier.Durability

/-!
# Walks over a source tree

The abstract traversal. A `Forest` is what a source folder contains, down to its files; a
`Guide` says what the destination has for it. A walk yields the effects of a run in their
order. The default traversal enters a folder when it meets it; the fast one first does a whole
level and then what is below it. Both have the same effects.
-/

namespace TurboCopy

/-- The contents of a folder: its files, its shortcuts with and without a target, and its
folders with their own contents. -/
inductive Forest
  | nil
  | file (src : DriveFile) (rest : Forest)
  | link (src target : DriveFile) (rest : Forest)
  | broken (src : DriveFile) (rest : Forest)
  | folder (src : DriveFile) (sub rest : Forest)

namespace Forest

def children : Forest → List DriveFile
  | nil => []
  | file src rest => src :: rest.children
  | link src _ rest => src :: rest.children
  | broken src rest => src :: rest.children
  | folder src _ rest => src :: rest.children

/-- The folders of the first level. -/
def tops : Forest → List String
  | nil => []
  | file _ rest => rest.tops
  | link _ _ rest => rest.tops
  | broken _ rest => rest.tops
  | folder src _ rest => src.id :: rest.tops

/-- All folders. -/
def keys : Forest → List String
  | nil => []
  | file _ rest => rest.keys
  | link _ _ rest => rest.keys
  | broken _ rest => rest.keys
  | folder src sub rest => src.id :: (sub.keys ++ rest.keys)

/-- The folders below the first level. -/
def deep : Forest → List String
  | nil => []
  | file _ rest => rest.deep
  | link _ _ rest => rest.deep
  | broken _ rest => rest.deep
  | folder _ sub rest => sub.keys ++ rest.deep

end Forest

/-! ## Effects -/

/-- What happens to an item of the source. A folder that the destination has is kept; another is
made under the folder it is in, the destination root under none. -/
inductive Effect
  | skipped (src : DriveFile) (shortcutId : Option String)
  | failed (item : FailedItem)
  | copied (under : String) (src : DriveFile) (shortcutId : Option String)
  | made (under : Option String) (folder : DriveFile)
  | kept (key id : String)

namespace Effect

def copies : Effect → ℕ
  | copied _ _ _ => 1
  | _ => 0

def bytes : Effect → ℤ
  | copied _ src _ => src.bytes
  | _ => 0

def skips : Effect → ℕ
  | skipped _ _ => 1
  | _ => 0

def failure : Effect → Option FailedItem
  | failed item => some item
  | _ => none

/-- The ids that a settled item strikes from the prior failures. -/
def strikes : Effect → List String
  | skipped src shortcutId => [orElse shortcutId src.id, src.id].filter fun k => k ≠ ""
  | copied _ src shortcutId => [orElse shortcutId src.id, src.id].filter fun k => k ≠ ""
  | _ => []

end Effect

/-- The counters of a run. -/
structure Tally where
  copied : ℕ
  bytes : ℤ
  skipped : ℕ
  failed : List FailedItem
deriving DecidableEq

namespace Tally

def of (M : List Effect) : Tally where
  copied := (M.map Effect.copies).sum
  bytes := (M.map Effect.bytes).sum
  skipped := (M.map Effect.skips).sum
  failed := M.filterMap Effect.failure

def add (t : Tally) (e : Effect) : Tally where
  copied := t.copied + e.copies
  bytes := t.bytes + e.bytes
  skipped := t.skipped + e.skips
  failed := t.failed ++ e.failure.toList

@[simp] theorem add_skipped (t : Tally) (src : DriveFile) (shortcutId : Option String) :
    t.add (.skipped src shortcutId) = { t with skipped := t.skipped + 1 } := by
  simp [add, Effect.copies, Effect.bytes, Effect.skips, Effect.failure]

@[simp] theorem add_failed (t : Tally) (item : FailedItem) :
    t.add (.failed item) = { t with failed := t.failed ++ [item] } := by
  simp [add, Effect.copies, Effect.bytes, Effect.skips, Effect.failure]

@[simp] theorem add_copied (t : Tally) (under : String) (src : DriveFile)
    (shortcutId : Option String) : t.add (.copied under src shortcutId) =
      { t with copied := t.copied + 1, bytes := t.bytes + src.bytes } := by
  simp [add, Effect.copies, Effect.bytes, Effect.skips, Effect.failure]

@[simp] theorem add_made (t : Tally) (under : Option String) (folder : DriveFile) :
    t.add (.made under folder) = t := by
  simp [add, Effect.copies, Effect.bytes, Effect.skips, Effect.failure]

@[simp] theorem add_kept (t : Tally) (key id : String) : t.add (.kept key id) = t := by
  simp [add, Effect.copies, Effect.bytes, Effect.skips, Effect.failure]

theorem of_append_singleton (M : List Effect) (e : Effect) : of (M ++ [e]) = (of M).add e := by
  simp only [of, add, List.map_append, List.map_cons, List.map_nil, List.sum_append, List.sum_cons,
    List.sum_nil, add_zero, List.filterMap_append, mk.injEq, true_and]
  cases he : e.failure with
  | none => simp [he]
  | some item => simp [he]

/-- Runs with the same effects have the same counts. -/
theorem of_perm {M M' : List Effect} (h : M.Perm M') :
    (of M).copied = (of M').copied ∧ (of M).bytes = (of M').bytes ∧
      (of M).skipped = (of M').skipped ∧ (of M).failed.Perm (of M').failed :=
  ⟨(h.map _).sum_eq, (h.map _).sum_eq, (h.map _).sum_eq, h.filterMap _⟩

end Tally

/-- The prior failures that are left after some effects. -/
def remaining (prior : List FailedItem) (M : List Effect) : List FailedItem :=
  prior.filter fun f => M.all fun e => !f.struckBy e.strikes

theorem remaining_append_singleton (prior : List FailedItem) (M : List Effect) (e : Effect) :
    remaining prior (M ++ [e]) = (remaining prior M).filter fun f => !f.struckBy e.strikes := by
  simp [remaining, List.filter_filter, Bool.and_comm]

theorem remaining_perm {prior : List FailedItem} {M M' : List Effect} (h : M.Perm M') :
    remaining prior M = remaining prior M' := by
  apply List.filter_congr
  intro f _
  exact h.all_eq

/-! ## Walks -/

/-- What the destination has for a source: how a file meets what is left of the index of its
folder, where a folder is found, with the place it is looked for in, and the index of a place. -/
structure Guide where
  settle : DestinationIndex → String → DriveFile → Option String → Effect × DestinationIndex
  home : Option String → DriveFile → Option String
  shelf : Option String → DestinationIndex

/-- The failure of a shortcut without a target. -/
def inaccessibleItem (src : DriveFile) (parentSourceId : String) : FailedItem where
  sourceId := src.id
  name := src.name
  mimeType := src.mimeType
  reason := "cannotAccessShortcutTarget"
  errorMessage := "Shortcut target is inaccessible."
  timestamp := ""
  parentSourceId := some parentSourceId
  shortcutTargetId := src.shortcutTargetId
  sourceShortcutId := some src.id
  effectiveSourceId := some src.id

namespace Forest

variable (g : Guide)

/-- A folder that the destination does not have is made. -/
def placing (under : String) (place : Option String) (src : DriveFile) : Effect :=
  match g.home place src with
  | some id => .kept src.id id
  | none => .made (some under) src

/-- The effects of one level without what is below it. -/
def level (under : String) (place : Option String) : DestinationIndex → Forest → List Effect
  | _, nil => []
  | idx, file src rest =>
    let r := g.settle idx under src none
    r.1 :: level under place r.2 rest
  | idx, link src target rest =>
    let r := g.settle idx under target (some src.id)
    r.1 :: level under place r.2 rest
  | idx, broken src rest => .failed (inaccessibleItem src under) :: level under place idx rest
  | idx, folder src _ rest => placing g under place src :: level under place idx rest

/-- The effects below a level, level by level. -/
def deeper : Option String → Forest → List Effect
  | _, nil => []
  | place, file _ rest => deeper place rest
  | place, link _ _ rest => deeper place rest
  | place, broken _ rest => deeper place rest
  | place, folder src sub rest =>
    let home := g.home place src
    level g src.id home (g.shelf home) sub ++ deeper home sub ++ deeper place rest

/-- The effects of the default traversal. -/
def walk : String → Option String → DestinationIndex → Forest → List Effect
  | _, _, _, nil => []
  | under, place, idx, file src rest =>
    let r := g.settle idx under src none
    r.1 :: walk under place r.2 rest
  | under, place, idx, link src target rest =>
    let r := g.settle idx under target (some src.id)
    r.1 :: walk under place r.2 rest
  | under, place, idx, broken src rest =>
    .failed (inaccessibleItem src under) :: walk under place idx rest
  | under, place, idx, folder src sub rest =>
    let home := g.home place src
    placing g under place src ::
      (walk src.id home (g.shelf home) sub ++ walk under place idx rest)

/-- The effects of a traversal of a folder. -/
def effects (fast : Bool) (under : String) (place : Option String) (f : Forest) : List Effect :=
  if fast then level g under place (g.shelf place) f ++ deeper g place f
  else walk g under place (g.shelf place) f

theorem walk_perm (f : Forest) : ∀ (under : String) (place : Option String)
    (idx : DestinationIndex),
    (walk g under place idx f).Perm (level g under place idx f ++ deeper g place f) := by
  induction f with
  | nil => intro under place idx; exact List.Perm.refl _
  | file src rest ih => intro under place idx; exact (ih under place _).cons _
  | link src target rest ih => intro under place idx; exact (ih under place _).cons _
  | broken src rest ih => intro under place idx; exact (ih under place idx).cons _
  | folder src sub rest ihsub ihrest =>
    intro under place idx
    have hsub := Multiset.coe_eq_coe.mpr
      (ihsub src.id (g.home place src) (g.shelf (g.home place src)))
    have hrest := Multiset.coe_eq_coe.mpr (ihrest under place idx)
    apply Multiset.coe_eq_coe.mp
    simp only [walk, level, deeper, List.cons_append, ← Multiset.cons_coe, ← Multiset.coe_add]
      at hsub hrest ⊢
    rw [hsub, hrest]
    congr 1
    abel

/-- Both traversals have the same effects. -/
theorem effects_perm (under : String) (place : Option String) (f : Forest) (fast fast' : Bool) :
    (effects g fast under place f).Perm (effects g fast' under place f) := by
  have h := walk_perm g f under place (g.shelf place)
  cases fast <;> cases fast'
  · exact List.Perm.refl _
  · exact h
  · exact h.symm
  · exact List.Perm.refl _

end Forest
end TurboCopy
