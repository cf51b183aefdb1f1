import TurboCopy.Copier.Conformance.Files

/-!
# Folders and listings keep to the protocol

The lookup of a destination folder borrows the main thread's `idle` token and returns
it with the folder placed; a listing ends with the token of what it found.
-/

namespace TurboCopy

open Threads CopierM

variable {cp : Copier} {sourceId destParent : String} {E : Exc → Multiset Token → Prop}

section Folders

variable {j : FolderJob} {p : String}

/-- How a folder is not provided: the call failed, which the traversal records, or the run ends. -/
def Denied (j : FolderJob) (e : Exc) (g : Multiset Token) : Prop :=
  (∃ message, e = .runtimeError message) ∧ g = {.folder j .denied} ∨ Raises e g

theorem Denied.failed {j : FolderJob} {message : String} {g : Multiset Token}
    (h : Denied j (.runtimeError message) g) : g = {.folder j .denied} := by
  rcases h with ⟨-, rfl⟩ | ⟨reason, hstop⟩ | hrefused
  · rfl
  · cases hstop
  · obtain ⟨_, hvalue⟩ := hrefused.valueError
    cases hvalue

theorem Denied.raises {j : FolderJob} {e : Exc} {g : Multiset Token} (h : Denied j e g)
    (hrun : ∀ message, e ≠ .runtimeError message) : Raises e g := by
  rcases h with ⟨⟨message, he⟩, -⟩ | h
  · exact absurd he (hrun message)
  · exact h

theorem does_verifyDestFolder (c : String) : Does (copierProtocol cp sourceId destParent)
    {.folder j (.cached c)} (cp.verifyDestFolder c j.key j.shortcutId)
    (fun ok g => g = if ok then {.idle, .folder j (.placed (some c))} else {.folder j .searching})
    (Denied j) := by
  unfold Copier.verifyDestFolder
  refine Does.bind (R := fun r g => Answered (fun _ => g = {.folder j .searching})
      (fun data => g = if isDestFolder (DriveFile.fromApi data) j.key j.shortcutId
        then {.idle, .folder j (.placed (some c))} else {.folder j .searching}) r) (Does.ask ?_) ?_
  · rintro (e | data)
    · exact ⟨_, .folder (.unverified j c e), rfl⟩
    · dsimp only [Answered]
      split_ifs with h
      · exact ⟨_, .folder (.confirmed j c data h), rfl⟩
      · exact ⟨_, .folder (.stale j c data (by simpa using h)), rfl⟩
  · rintro (e | data) g hg
    · obtain rfl : g = {.folder j .searching} := hg
      refine Does.seq (σ := {.folder j .searching}) ?_ ?_
      · exact (does_raiseIfFatalQuota e _ _).mono (fun _ _ h => h) fun _ _ h => .inr (.inl h.1)
      · intro u
        exact Does.pure rfl
    · exact Does.pure hg

theorem does_cachedDestFolder (hp : j.dest = some p) (hk : j.key ≠ "") :
    Does (copierProtocol cp sourceId destParent) {.idle, .folder j .start}
      (cp.cachedDestFolder p j.key j.shortcutId)
      (fun id g => match id with
        | some id => g = {.idle, .folder j (.placed (some id))}
        | none => g = {.folder j .searching}) (Denied j) := by
  unfold Copier.cachedDestFolder
  refine Does.bind (R := fun id g => match truthy id with
      | some c => g = {.folder j (.cached c)}
      | none => g = {.folder j .searching}) (Does.mem ?_) ?_
  · intro id
    cases h : truthy id with
    | some c => exact ⟨_, .folder (.cached j p id c hp hk h), rfl⟩
    | none => exact ⟨_, .folder (.uncached j p id hp hk h), rfl⟩
  · intro id g hg
    cases h : truthy id with
    | none =>
      rw [h] at hg
      exact Does.pure hg
    | some c =>
      rw [h] at hg
      obtain rfl : g = {.folder j (.cached c)} := hg
      refine Does.bind (does_verifyDestFolder c) ?_
      rintro (_ | _) g rfl
      · exact Does.pure rfl
      · exact Does.pure rfl

theorem does_findDestFolder (hp : j.dest = some p) (hk : j.key ≠ "") :
    Does (copierProtocol cp sourceId destParent) {.folder j .searching}
      (cp.findDestFolder p j.folderId j.shortcutId)
      (fun id g => match truthy id with
        | some id => g = {.folder j (.hit id)}
        | none => g = {.folder j .missing}) (Denied j) := by
  unfold Copier.findDestFolder
  rw [if_neg (show orElse j.shortcutId j.folderId ≠ "" from hk)]
  refine Does.bind (R := fun r g => match r with
      | .error _ => g = {.folder j .missing}
      | .ok ([], _) => g = {.folder j .missing}
      | .ok (f :: rest, _) => match truthy (some (firstById f rest)) with
        | some id => g = {.folder j (.hit id)}
        | none => g = {.folder j .missing}) (Does.ask ?_) ?_
  · rintro (e | ⟨_ | ⟨f, rest⟩, tok⟩)
    · exact ⟨_, .folder (.unsearched j p e hp), rfl⟩
    · exact ⟨_, .folder (.notFound j p tok hp), rfl⟩
    · by_cases hf : firstById f rest = ""
      · refine ⟨{.folder j .missing}, .folder (.anonymous j p f rest tok hp hf), ?_⟩
        simp [hf, truthy]
      · refine ⟨{.folder j (.hit (firstById f rest))}, .folder (.hit j p f rest tok hp hf), ?_⟩
        simp [truthy_some hf]
  · rintro (e | ⟨_ | ⟨f, rest⟩, tok⟩) g hg
    · obtain rfl : g = {.folder j .missing} := hg
      refine Does.seq (σ := {.folder j .missing}) ?_ ?_
      · exact (does_raiseIfFatalQuota e _ _).mono (fun _ _ h => h) fun _ _ h => .inr (.inl h.1)
      · intro u
        exact Does.pure rfl
    · exact Does.pure hg
    · exact Does.pure hg

theorem does_knownFolder (hp : j.dest = some p) :
    Does (copierProtocol cp sourceId destParent) {.idle, .folder j .start}
      (cp.knownFolder p j.folderId j.shortcutId)
      (fun id g => match id with
        | some id => g = {.idle, .folder j (.placed (some id))}
        | none => g = {.folder j .missing}) (Denied j) := by
  unfold Copier.knownFolder
  dsimp only
  split_ifs with hk
  · refine Does.shift (.noKey j hk) ?_
    exact Does.pure rfl
  · refine Does.bind (does_cachedDestFolder hp hk) ?_
    rintro (_ | id) g hg
    · obtain rfl : g = {.folder j .searching} := hg
      refine Does.bind (does_findDestFolder hp hk) ?_
      intro id g hg
      cases h : truthy id with
      | none =>
        rw [h] at hg
        exact Does.pure hg
      | some id =>
        rw [h] at hg
        obtain rfl : g = {.folder j (.hit id)} := hg
        refine Does.seq (σ := {.idle, .folder j (.placed (some id))})
          (Does.mem fun u => ⟨_, .folder (.found j p id u hp), rfl⟩) ?_
        intro u
        exact Does.pure rfl
    · exact Does.pure hg

theorem does_createFolder (hp : j.dest = some p) (hd : cp.config.dryRun = false) :
    Does (copierProtocol cp sourceId destParent) {.folder j .missing}
      (cp.createFolder p j.name j.folderId j.shortcutId)
      (fun dest g => g = {.idle, .folder j (.placed dest)}) (Denied j) := by
  unfold Copier.createFolder
  cases hv : validateAppProperties (folderProps j.folderId j.shortcutId) with
  | error e =>
    exact Does.throw (.inr (.inr (.folder j (Multiset.mem_singleton_self _) hv)))
  | ok u =>
    dsimp only
    refine Does.bind (R := fun r g => match r with
        | .error _ => g = {.folder j .denied}
        | .ok id => g = if (truthy id).isSome ∧ j.key ≠ "" then {.folder j (.made (id.getD ""))}
            else {.idle, .folder j (.placed id)}) (Does.ask ?_) ?_
    · rintro (e | id)
      · exact ⟨_, .folder (.denied j p e hp hd), rfl⟩
      · dsimp only
        split_ifs with h
        · obtain ⟨i, hi⟩ := Option.isSome_iff_exists.mp h.1
          obtain ⟨rfl, hne⟩ := truthy_eq_some.mp hi
          exact ⟨_, .folder (.made j p i hp hd hne h.2), rfl⟩
        · refine ⟨_, .folder (.unnamed j p id hp hd ?_), rfl⟩
          by_contra hc
          push Not at hc
          exact h ⟨Option.isSome_iff_ne_none.mpr hc.1, hc.2⟩
    · rintro (e | id) g hg
      · obtain rfl : g = {.folder j .denied} := hg
        refine Does.seq (σ := {.folder j .denied}) ?_ ?_
        · exact (does_raiseIfFatalQuota e _ _).mono (fun _ _ h => h) fun _ _ h => .inr (.inl h.1)
        · intro u
          exact Does.throw (.inl ⟨⟨_, rfl⟩, rfl⟩)
      · dsimp only at hg ⊢
        cases hi : truthy id with
        | none =>
          rw [hi] at hg
          exact Does.pure (by simpa using hg)
        | some i =>
          obtain ⟨rfl, hne⟩ := truthy_eq_some.mp hi
          change Does _ _ (if j.key = "" then _ else _) _ _
          split_ifs with hk
          · exact Does.pure (by simpa [hk] using hg)
          · have hg' : g = {.folder j (.made i)} := by simpa [hi, hk] using hg
            subst hg'
            refine Does.seq (σ := {.idle, .folder j (.placed (some i))})
              (Does.mem fun u => ⟨_, .folder (.mapped j p i u hp), rfl⟩) ?_
            intro u
            refine Does.seq (σ := {.idle, .folder j (.placed (some i))}) (does_saveLog false _) ?_
            intro u
            exact Does.pure rfl

theorem does_getOrCreateFolder : Does (copierProtocol cp sourceId destParent)
    {.idle, .folder j .start} (cp.getOrCreateFolder j.dest j.name j.folderId j.shortcutId)
    (fun dest g => g = {.idle, .folder j (.placed dest)}) (Denied j) := by
  unfold Copier.getOrCreateFolder
  cases hp : j.dest with
  | none =>
    change Does _ ({Token.idle} + {Token.folder j .start}) _ _ _
    refine Does.shiftPart (.noDest j hp) ?_
    exact Does.pure rfl
  | some p =>
    dsimp only
    refine Does.bind (does_knownFolder hp) ?_
    rintro (_ | id) g hg
    · obtain rfl : g = {.folder j .missing} := hg
      dsimp only
      split_ifs with hd
      · refine Does.shift (.dry j hd) ?_
        exact Does.pure rfl
      · exact does_createFolder hp (by simpa using hd)
    · exact Does.pure hg

end Folders

section Listings

variable {f : String} {w : ℤ × ℤ} {l : Level} {τ : Multiset Token}

/-- A thread that stops on a quota error keeps nothing it has to account for. -/
theorem does_stopOnQuota {α : Type} {Q : α → Multiset Token → Prop} (text : String) :
    Does (copierProtocol cp sourceId destParent) τ (Copier.stopOnQuota text) Q
      Raises := by
  unfold Copier.stopOnQuota
  refine Does.seq (σ := τ) (does_quiet (fun u => .setStopReason _ u) fun _ => rfl) ?_
  intro u
  refine Does.seq (σ := 0) (does_setStop rfl) ?_
  intro u
  exact Does.throw (.inl ⟨_, rfl⟩)

theorem does_listingFailed (e : ApiError) (out : List DriveFile) (page : ℕ) (parent : String) :
    Does (copierProtocol cp sourceId destParent) {.unlisted f w out}
      (Copier.listingFailed e f page parent) (fun _ g => g = {.listed f w out})
      Raises := by
  unfold Copier.listingFailed
  split_ifs
  · exact does_stopOnQuota _
  · refine Does.seq (σ := {.unlisted f w out}) ?_ ?_
    · have h : Does (copierProtocol cp sourceId destParent) ({.unlisted f w out} + 0)
          (Copier.recordFailed (Copier.unlistedFolder f)
            (orElse (some (parseHttpError e).1) "listingError")
            s!"Could not list (page {page + 1}): {orElse (some (parseHttpError e).2.1) e.text}"
            (some parent) none none none)
          (fun _ g => g = {.unlisted f w out}) Raises := by
        refine (Does.frame {.unlisted f w out} (does_recordFailed (τ := 0) (E := fun _ _ => False)
          (Q := fun _ g => g = 0) ?_)).mono ?_ fun _ _ h => h.elim fun _ h => h.2.elim
        · intro it h₁ h₂ h₃
          exact ⟨0, .quiet (.failedFolder it h₂ ()), rfl⟩
        · rintro _ g ⟨_, rfl, rfl⟩
          rfl
      exact h
    · intro u
      exact Does.mem fun u => ⟨_, .list (.listingError f w out u), rfl⟩

theorem does_listRound (parent : String) (s : List DriveFile × Option PageToken × ℕ) :
    Does (copierProtocol cp sourceId destParent) {.listing f w s.1 s.2.1 s.2.2}
      (cp.listRound f w.1 w.2 parent s)
      (Sum.elim (fun s g => g = {.listing f w s.1 s.2.1 s.2.2})
        fun out g => g = {.listed f w out}) Raises := by
  obtain ⟨out, tok, n⟩ := s
  unfold Copier.listRound
  refine Does.bind (R := fun r g => match r with
      | .error _ => g = {.unlisted f w out}
      | .ok (files, none) => g = {.listed f w (Copier.keepPage w.1 w.2 out files (n + 1))}
      | .ok (files, some t) => g = if 0 < w.2 && w.2 ≤ ((n + 1 : ℕ) : ℤ)
          then {.listed f w (Copier.keepPage w.1 w.2 out files (n + 1))}
          else {.listing f w (Copier.keepPage w.1 w.2 out files (n + 1)) (some t) (n + 1)})
    (Does.ask ?_) ?_
  · rintro (e | ⟨files, _ | t⟩)
    · exact ⟨_, .list (.unlisted f w out tok n e), rfl⟩
    · exact ⟨_, .list (.lastPage f w out tok n files), rfl⟩
    · dsimp only
      split_ifs with h
      · exact ⟨_, .list (.capped f w out tok n files t h), rfl⟩
      · exact ⟨_, .list (.page f w out tok n files t (by simpa using h)), rfl⟩
  · rintro (e | ⟨files, _ | t⟩) g hg
    · obtain rfl : g = {.unlisted f w out} := hg
      refine Does.seq (σ := {.listed f w out}) (does_listingFailed e out n parent) ?_
      intro u
      exact Does.pure rfl
    · exact Does.pure hg
    · dsimp only at hg ⊢
      split_ifs at hg ⊢ with h
      · exact Does.pure hg
      · exact Does.pure hg

theorem does_listChildren (parent : String) :
    Does (copierProtocol cp sourceId destParent) {.reach f}
      (cp.listChildren f w.1 w.2 parent)
      (fun out g => g = {.listed f w out, .reach f}) Raises := by
  refine Does.shift (.list f w) ?_
  have hloop : Does (copierProtocol cp sourceId destParent) {.listing f w [] none 0}
      (cp.listChildren f w.1 w.2 parent) (fun out g => g = {.listed f w out})
      Raises := by
    refine Does.iterate (fun s g => g = {.listing f w s.1 s.2.1 s.2.2}) rfl ?_
    rintro s g rfl
    exact does_listRound parent s
  refine (Does.frame {.reach f} hloop).mono ?_ fun _ _ h => Raises.framed h
  rintro out g ⟨_, rfl, rfl⟩
  exact Multiset.pair_comm _ _

theorem does_indexRound {d : String} (h : truthy l.dest = some d)
    (s : List DriveFile × Option PageToken) :
    Does (copierProtocol cp sourceId destParent) {.indexing l s.1 s.2} (Copier.indexRound d s)
      (Sum.elim (fun s g => g = {.indexing l s.1 s.2}) fun items g => g = {.indexed l items})
      Raises := by
  obtain ⟨items, tok⟩ := s
  unfold Copier.indexRound
  refine Does.bind (R := fun r g => match r with
      | .error _ => g = {.indexed l items}
      | .ok (files, none) => g = {.indexed l (items ++ files.map DriveFile.fromApi)}
      | .ok (files, some t) => g = {.indexing l (items ++ files.map DriveFile.fromApi) (some t)})
    (Does.ask ?_) ?_
  · rintro (e | ⟨files, _ | t⟩)
    · exact ⟨_, .list (.indexFailed l items tok d e h), rfl⟩
    · exact ⟨_, .list (.indexLast l items tok d files h), rfl⟩
    · exact ⟨_, .list (.indexPage l items tok d files t h), rfl⟩
  · rintro (e | ⟨files, _ | t⟩) g hg
    · dsimp only
      split_ifs
      · exact does_stopOnQuota _
      · exact Does.pure hg
    · exact Does.pure hg
    · exact Does.pure hg

theorem does_buildIndex : Does (copierProtocol cp sourceId destParent) {.level l}
    (Copier.buildIndex l.dest)
    (fun i g => g = Multiset.map (Token.entry l i) l.children) Raises := by
  have hnew (items : List DriveFile) : Does (copierProtocol cp sourceId destParent)
      {.indexed l items} (mem (.newIndex l.dest items))
      (fun i g => g = Multiset.map (Token.entry l i) l.children) Raises :=
    Does.mem fun i => ⟨_, .list (.index l items i), rfl⟩
  unfold Copier.buildIndex
  cases h : truthy l.dest with
  | none => exact Does.shift (.unindexed l h) (hnew [])
  | some d =>
    refine Does.shift (.index l d h) ?_
    refine Does.bind (Does.iterate (fun s g => g = {.indexing l s.1 s.2})
      (Q := fun items g => g = {.indexed l items}) rfl ?_) ?_
    · rintro s g rfl
      exact does_indexRound h s
    · rintro items g rfl
      exact hnew items

theorem does_recordTreeNode (out : List DriveFile) :
    Does (copierProtocol cp sourceId destParent) {.listed f w out}
      (cp.recordTreeNode f out) (fun _ g => g = {.listed f w out}) E := by
  unfold Copier.recordTreeNode
  split_ifs with h
  · exact Does.mem fun u => ⟨_, .list (.treeNode f w out u h), rfl⟩
  · exact Does.pure rfl

theorem does_resolveShortcut (index : ℕ) (src : DriveFile) :
    Does (copierProtocol cp sourceId destParent) {.shortcut l index src}
      (Copier.resolveShortcut src) (fun target g => match target with
        | some target => g = {.target l index src target}
        | none => g = {.broken l src}) E := by
  unfold Copier.resolveShortcut
  cases h : truthy src.shortcutTargetId with
  | none =>
    refine Does.shift (.untraced l index src h) ?_
    exact Does.pure rfl
  | some id =>
    refine Does.bind (R := fun r g => Answered (fun _ => g = {.broken l src})
        (fun data => g = {.target l index src
          { DriveFile.fromApi data with name := src.name }}) r) (Does.ask ?_) ?_
    · rintro (e | data)
      · exact ⟨_, .list (.inaccessible l index src id e h), rfl⟩
      · exact ⟨_, .list (.resolved l index src id data h), rfl⟩
    · rintro (e | data) g hg
      · exact Does.pure hg
      · exact Does.pure hg

theorem does_inaccessibleShortcut (src : DriveFile) (parent : String) :
    Does (copierProtocol cp sourceId destParent) {.broken l src}
      (Copier.inaccessibleShortcut src parent) (fun _ g => g = 0) E :=
  does_recordFailed fun it h₁ h₂ h₃ => ⟨0, .list (.reported l src it () ⟨h₁, h₂, h₃⟩), rfl⟩

end Listings

end TurboCopy
