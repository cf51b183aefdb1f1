import TurboCopy.Copier.Conformance.Folders

/-!
# The traversal keeps to the protocol

A level turns the tokens of its children one by one into finished files and entered
subfolders and gives the `idle` token back. Both traversals are covered, so the
recursive procedure of the system is verified.
-/

namespace TurboCopy

open Threads CopierM

variable {cp : Copier} {sourceId destParent : String} {E : Exc → Multiset Token → Prop}

/-- The job of a folder met in a level. -/
def Level.job (l : Level) (folder : DriveFile) (shortcutId : Option String) : FolderJob where
  dest := l.dest
  name := folder.name
  folderId := folder.id
  shortcutId := shortcutId
  visited := l.visited
  pageRange := (0, 0)

section Levels

variable {l : Level} {folder : DriveFile} {shortcutId : Option String}

theorem does_enterFolder (hf : folder.isFolder = true) :
    Does (copierProtocol cp sourceId destParent) {.idle, .folder (l.job folder shortcutId) .start}
      (cp.enterFolder l folder shortcutId)
      (fun dest g => match dest with
        | some dest => g = {.idle, .folder (l.job folder shortcutId) (.placed dest)}
        | none => g = {.idle}) Raises := by
  unfold Copier.enterFolder
  refine Does.bind (R := fun r g => Answered (Denied (l.job folder shortcutId) · g)
      (fun dest => g = {.idle, .folder (l.job folder shortcutId) (.placed dest)}) r)
    (Does.attempt (does_getOrCreateFolder (j := l.job folder shortcutId))) ?_
  rintro (e | dest) g hg
  · have hg : Denied (l.job folder shortcutId) e g := hg
    cases e with
    | runtimeError message =>
      obtain rfl : g = {.folder (l.job folder shortcutId) .denied} := hg.failed
      refine Does.seq (σ := {.idle}) (does_recordFailed ?_) ?_
      · intro it _ h₂ _
        refine ⟨{.idle}, .folder (.recorded _ it () ?_), rfl⟩
        rw [h₂]
        simpa [DriveFile.isFolder] using hf
      · intro u
        exact Does.pure rfl
    | quotaStopped reason => exact Does.throw (.inl ⟨reason, rfl⟩)
    | valueError _ | client _ => exact Does.throw (hg.raises (by simp))
  · exact Does.pure hg

theorem does_skipCompleted : Does (copierProtocol cp sourceId destParent)
    {.folder (l.job folder shortcutId) .start} (cp.skipCompleted l folder shortcutId)
    (fun skipped g => g = if skipped then 0 else {.folder (l.job folder shortcutId) .start}) E := by
  unfold Copier.skipCompleted
  split_ifs with h
  · simp only [Copier.mayBeComplete, Bool.and_eq_true, Option.isNone_iff_eq_none] at h
    obtain ⟨hs, rfl⟩ := h
    refine Does.bind (R := fun b g => g = if b then 0 else {.folder (l.job folder none) .start})
      ?_ ?_
    · intro f b
      refine Protocol.Leads.intro fun done => .inl ?_
      cases done with
      | true =>
        exact ⟨f, _, 0, rfl, .folder (.skipped (l.job folder none) hs rfl),
          Protocol.Leads.intro ⟨0, rfl, rfl⟩⟩
      | false =>
        exact ⟨_, 0, 0, (add_zero _).symm, .quiet (.notCompleted l.dest folder.id),
          Protocol.Leads.intro ⟨_, add_zero _, rfl⟩⟩
    · rintro (_ | _) g rfl
      · exact Does.pure rfl
      · refine Does.seq (σ := 0) (does_quiet (fun u => .skipFolder u) fun _ => rfl) ?_
        intro u
        exact Does.pure rfl
  · exact Does.pure rfl

/-- What remains when a folder is placed and listed: either its level is entered, or
there is nothing to enter. -/
theorem does_descend {j : FolderJob} {dest : Option String} {out : List DriveFile}
    (hj : j.folderId = folder.id) (hv : j.visited = l.visited) :
    Does (copierProtocol cp sourceId destParent)
      {.idle, .folder j (.placed dest), .listed j.folderId j.pageRange out}
      (cp.descend l folder.id dest out) (fun _ g => g = {.idle}) Raises := by
  unfold Copier.descend
  split_ifs with h
  · have hl : Copier.Level.below l folder.id dest out =
        ⟨dest, out, insert j.folderId j.visited, j.folderId⟩ := by
      rw [hj, hv]
      rfl
    rw [hl]
    exact Does.enter (.enter j dest out) (fun _ _ h => h) fun _ _ h => h
  · simp only [Copier.descends, Bool.and_eq_true, Bool.not_eq_true', Bool.or_eq_true, not_and,
      not_or] at h
    have hforget : Does (copierProtocol cp sourceId destParent)
        ({.idle} + {.listed j.folderId j.pageRange out}) (pure () : CopierM Unit)
        (fun _ g => g = {.idle}) Raises :=
      Does.shiftPart (.forget (.listed _ _ _)) (Does.pure rfl)
    cases out with
    | nil =>
      change Does _ ({Token.idle} + {Token.folder j (.placed dest), .listed j.folderId j.pageRange []})
        _ _ _
      exact Does.shiftPart (.empty j dest) hforget
    | cons src rest =>
      have hd : truthy dest = none := by
        have := (h rfl).1
        simpa using this
      change Does _ ({Token.idle, Token.folder j (.placed dest)} +
        {Token.listed j.folderId j.pageRange (src :: rest)}) _ _ _
      refine Does.shiftPart (.forget (.listed _ _ _)) ?_
      change Does _ ({Token.idle} + {Token.folder j (.placed dest)}) _ _ _
      exact Does.shiftPart (.nowhere j dest hd) (Does.pure rfl)

theorem does_copyFolder (hf : folder.isFolder = true) :
    Does (copierProtocol cp sourceId destParent) {.idle, .folder (l.job folder shortcutId) .start}
      (cp.copyFolder l folder shortcutId) (fun _ g => g = {.idle}) Raises := by
  unfold Copier.copyFolder
  split_ifs with hv
  · change Does _ ({Token.idle} + {Token.folder (l.job folder shortcutId) .start}) _ _ _
    exact Does.shiftPart (.onPath _ hv) (Does.pure rfl)
  · refine Does.part (φ := {.idle}) (D := Raises) rfl does_skipCompleted ?_
      fun _ _ h => h.frame _
    rintro (_ | _) _ rfl
    · refine Does.bind (does_enterFolder hf) ?_
      rintro (_ | dest) g hg
      · exact Does.pure hg
      · obtain rfl : g = {.idle, .folder (l.job folder shortcutId) (.placed dest)} := hg
        change Does _ ({Token.idle} + {Token.folder (l.job folder shortcutId) (.placed dest)}) _ _ _
        refine Does.shiftPart (.placed _ dest) ?_
        refine Does.part (φ := {.idle, .folder (l.job folder shortcutId) (.placed dest)})
          (D := Raises) rfl
          (does_listChildren (w := (l.job folder shortcutId).pageRange) folder.id) ?_
          fun _ _ h => h.frame _
        rintro out _ rfl
        change Does _ ({Token.idle, Token.folder (l.job folder shortcutId) (.placed dest),
          Token.listed folder.id (l.job folder shortcutId).pageRange out} +
          {Token.reach folder.id}) _ _ _
        refine Does.shiftPart (.forget (.reach folder.id)) ?_
        refine Does.part (φ := {.idle, .folder (l.job folder shortcutId) (.placed dest)})
          (D := Raises) rfl
          (does_recordTreeNode (w := (l.job folder shortcutId).pageRange) out) ?_
          fun _ _ h => h.frame _
        rintro u _ rfl
        exact does_descend rfl rfl
    · exact Does.pure rfl

/-- A folder or a shortcut of a level. -/
theorem does_handleContainer {index : ℕ} {src : DriveFile}
    (hc : (src.isFolder || src.isShortcut) = true) :
    Does (copierProtocol cp sourceId destParent) {.idle, .entry l index src}
      (cp.handleContainer l index src) (fun _ g => g = {.idle}) Raises := by
  unfold Copier.handleContainer
  split_ifs with hs
  · have he : Token.entry l index src = .shortcut l index src := if_pos hs
    rw [he]
    refine Does.part (φ := {.idle}) (D := Raises) rfl
      (does_resolveShortcut index src) ?_ fun _ _ h => h.frame _
    rintro (_ | target) g hg
    · obtain rfl : g = {.broken l src} := hg
      refine ((Does.frame {.idle} (does_inaccessibleShortcut (E := Raises) src
        l.parentSourceId)).mono ?_ fun _ _ h => Raises.framed h)
      rintro u _ ⟨_, rfl, rfl⟩
      rfl
    · obtain rfl : g = {.target l index src target} := hg
      dsimp only
      split_ifs with hf
      · have ht : Token.target l index src target =
            .folder (l.job target (some src.id)) .start := if_pos hf
        rw [ht]
        exact does_copyFolder hf
      · have ht : Token.target l index src target =
            .file ⟨l.dest, index, target, l.parentSourceId, some src.id⟩ .start := if_neg hf
        rw [ht]
        refine ((Does.frame {.idle} (does_copyFile (j := ⟨l.dest, index, target,
          l.parentSourceId, some src.id⟩))).mono ?_ fun _ _ h => Raises.framed
            (h.imp fun _ h => ⟨h.1, h.2.raises⟩))
        rintro u _ ⟨_, rfl, rfl⟩
        rfl
  · have hf : src.isFolder = true := by simpa [hs] using hc
    have he : Token.entry l index src = .folder (l.job src none) .start := by
      rw [Token.entry, if_neg hs, if_pos hf]
      rfl
    rw [he]
    exact does_copyFolder hf

theorem entry_of_file {index : ℕ} {src : DriveFile}
    (hc : ¬(src.isFolder || src.isShortcut) = true) :
    Token.entry l index src = .file ⟨l.dest, index, src, l.parentSourceId, none⟩ .start := by
  simp only [Bool.or_eq_true, not_or] at hc
  rw [Token.entry, if_neg hc.2, if_neg hc.1]

theorem does_processChild {index : ℕ} {src : DriveFile} :
    Does (copierProtocol cp sourceId destParent) {.idle, .entry l index src}
      (cp.processChild l index src) (fun _ g => g = {.idle}) Raises := by
  unfold Copier.processChild
  split_ifs with hc
  · exact does_handleContainer hc
  · rw [entry_of_file hc]
    refine ((Does.frame {.idle} (does_submitFile (j := ⟨l.dest, index, src, l.parentSourceId,
      none⟩) rfl)).mono ?_ fun _ _ h => Raises.framed h)
    rintro u _ ⟨_, rfl, rfl⟩
    rfl

theorem does_processChildren (index : ℕ) (children : List DriveFile) :
    Does (copierProtocol cp sourceId destParent)
      ({.idle} + Multiset.map (Token.entry l index) children)
      (cp.processChildren l index children) (fun _ g => g = {.idle}) Raises := by
  induction children with
  | nil => exact Does.pure rfl
  | cons src rest ih =>
    refine does_unlessStoppedPart rfl ?_
    refine Does.part (φ := Multiset.map (Token.entry l index) rest) (D := Raises) ?_
      (does_processChild) ?_ fun _ _ h => h.frame _
    · rw [← Multiset.cons_coe, Multiset.map_cons, Multiset.insert_eq_cons,
        ← Multiset.singleton_add, ← Multiset.singleton_add]
      abel
    · rintro u _ rfl
      rw [add_comm]
      exact ih

/-! ### The fast-list traversal -/

/-- What the pending folders of a level still owe. -/
inductive Owed (l : Level) : List Copier.Pending → Multiset Token → Prop
  | nil : Owed l [] 0
  | cons {p : Copier.Pending} {rest τ} (j : FolderJob) (hj : j.folderId = p.1.id)
      (hv : j.visited = l.visited) (hr : j.pageRange = (0, 0)) (h : Owed l rest τ) :
      Owed l (p :: rest) ({.folder j (.placed p.2)} + τ)

theorem Owed.append {ps : List Copier.Pending} {τ : Multiset Token} (h : Owed l ps τ)
    (shortcutId dest : Option String) :
    Owed l (ps ++ [(folder, dest)]) (τ + {.folder (l.job folder shortcutId) (.placed dest)}) := by
  induction h with
  | nil =>
    rw [zero_add, ← add_zero {_}]
    exact .cons (l.job folder shortcutId) rfl rfl rfl .nil
  | cons j hj hv hr _ ih =>
    rw [add_assoc]
    exact .cons j hj hv hr ih

theorem does_enqueueFolder {ps : List Copier.Pending} {τ : Multiset Token} (hps : Owed l ps τ)
    (hf : folder.isFolder = true) :
    Does (copierProtocol cp sourceId destParent)
      (τ + {.idle, .folder (l.job folder shortcutId) .start})
      (cp.enqueueFolder l folder shortcutId ps)
      (fun ps' g => ∃ τ', Owed l ps' τ' ∧ g = τ' + {.idle}) Raises := by
  unfold Copier.enqueueFolder
  split_ifs with hv
  · change Does _ (τ + ({Token.idle} + {Token.folder (l.job folder shortcutId) .start})) _ _ _
    rw [← add_assoc]
    refine Does.shiftPart (.onPath _ hv) (Does.pure ?_)
    exact ⟨τ, hps, add_zero _⟩
  · refine Does.part (φ := τ) (D := Raises) rfl (does_enterFolder hf) ?_
      fun _ _ h => h.frame _
    rintro (_ | dest) g hg
    · obtain rfl : g = {.idle} := hg
      exact Does.pure ⟨τ, hps, rfl⟩
    · obtain rfl : g = {.idle, .folder (l.job folder shortcutId) (.placed dest)} := hg
      refine Does.pure ⟨_, hps.append shortcutId dest, ?_⟩
      rw [add_assoc]
      congr 1
      exact Multiset.pair_comm _ _

theorem does_enqueueChild {index : ℕ} {src : DriveFile} {ps : List Copier.Pending}
    {τ : Multiset Token} (hps : Owed l ps τ) :
    Does (copierProtocol cp sourceId destParent) (τ + {.idle, .entry l index src})
      (cp.enqueueChild l index src ps)
      (fun ps' g => ∃ τ', Owed l ps' τ' ∧ g = τ' + {.idle}) Raises := by
  have hsame {x : CopierM Unit} {t : Token}
      (hx : Does (copierProtocol cp sourceId destParent) {t} x (fun _ g => g = 0) Raises) :
      Does (copierProtocol cp sourceId destParent) (τ + {.idle, t})
        (do
          x
          pure ps)
        (fun ps' g => ∃ τ', Owed l ps' τ' ∧ g = τ' + {.idle}) Raises := by
    refine Does.part (φ := τ + {.idle}) (D := Raises) ?_ hx ?_ fun _ _ h => h.frame _
    · rw [add_assoc]
      rfl
    · rintro u _ rfl
      exact Does.pure ⟨τ, hps, add_zero _⟩
  unfold Copier.enqueueChild
  split_ifs with hs hf
  · have he : Token.entry l index src = .shortcut l index src := if_pos hs
    rw [he]
    refine Does.part (φ := τ + {.idle}) (D := Raises) (by rw [add_assoc]; rfl)
      (does_resolveShortcut index src) ?_ fun _ _ h => h.frame _
    rintro (_ | target) g hg
    · obtain rfl : g = {.broken l src} := hg
      rw [add_assoc]
      exact hsame (does_inaccessibleShortcut src l.parentSourceId)
    · obtain rfl : g = {.target l index src target} := hg
      rw [add_assoc]
      dsimp only
      split_ifs with hf
      · have ht : Token.target l index src target =
            .folder (l.job target (some src.id)) .start := if_pos hf
        rw [ht]
        exact does_enqueueFolder hps hf
      · have ht : Token.target l index src target =
            .file ⟨l.dest, index, target, l.parentSourceId, some src.id⟩ .start := if_neg hf
        rw [ht]
        exact hsame (does_copyFile.mono (fun _ _ h => h) fun _ _ h => h.raises)
  · have he : Token.entry l index src = .folder (l.job src none) .start := by
      rw [Token.entry, if_neg hs, if_pos hf]
      rfl
    rw [he]
    exact does_enqueueFolder hps hf
  · rw [entry_of_file (by simp [hs, hf])]
    exact hsame (does_submitFile (j := ⟨l.dest, index, src, l.parentSourceId, none⟩) rfl)

theorem does_enqueueChildren (index : ℕ) (children : List DriveFile) :
    ∀ (ps : List Copier.Pending) (τ : Multiset Token), Owed l ps τ →
    Does (copierProtocol cp sourceId destParent)
      (τ + {.idle} + Multiset.map (Token.entry l index) children)
      (cp.enqueueChildren l index children ps)
      (fun ps' g => ∃ τ', Owed l ps' τ' ∧ g = τ' + {.idle}) Raises := by
  induction children with
  | nil =>
    intro ps τ hps
    exact Does.pure ⟨τ, hps, add_zero _⟩
  | cons src rest ih =>
    intro ps τ hps
    refine does_unlessStoppedPart ⟨τ, hps, rfl⟩ ?_
    refine Does.part (φ := Multiset.map (Token.entry l index) rest) (D := Raises) ?_
      (does_enqueueChild hps) ?_ fun _ _ h => h.frame _
    · rw [← Multiset.cons_coe, Multiset.map_cons, Multiset.insert_eq_cons,
        ← Multiset.singleton_add, ← Multiset.singleton_add]
      abel
    · rintro ps' _ ⟨τ', hps', rfl⟩
      rw [add_comm]
      exact ih ps' τ' hps'

theorem Owed.reach {ps : List Copier.Pending} {τ : Multiset Token} (h : Owed l ps τ) :
    (copierProtocol cp sourceId destParent).Shifts τ
      (τ + Multiset.map (fun p : Copier.Pending => Token.reach p.1.id) ps) := by
  induction h with
  | nil => exact .refl _
  | @cons p rest τ j hj hv hr _ ih =>
    have h₁ : (copierProtocol cp sourceId destParent).Shifts ({.folder j (.placed p.2)} + τ)
        (τ + {.folder j (.placed p.2), .reach j.folderId}) := by
      rw [add_comm]
      exact .step (.placed j p.2) (.refl _)
    have h₂ := Protocol.Shifts.frame {Token.folder j (.placed p.2), Token.reach j.folderId} ih
    rw [add_comm _ τ] at h₂
    refine (h₁.trans h₂).trans ?_
    rw [← Multiset.cons_coe, Multiset.map_cons, Multiset.insert_eq_cons, hj,
      ← Multiset.singleton_add, ← Multiset.singleton_add]
    exact Eq.subst (motive := fun g => Protocol.Shifts _ _ g) (by abel) (Protocol.Shifts.refl _)

theorem does_listMultiPages (group : List String) :
    Does (copierProtocol cp sourceId destParent) {.batch group (Copier.emptyMap group) none}
      (cp.listMultiPages group) (fun out g => g = listedIn out group)
      fun e g => (∃ error, e = .client error) ∧ g = 0 := by
  unfold Copier.listMultiPages pages
  refine Does.iterate (fun s g => g = {.batch group s.1 s.2}) rfl ?_
  rintro ⟨out, tok⟩ _ rfl
  refine Does.bind (R := fun page g => g = page.2.elim
      (listedIn (Copier.addPage group out page.1) group)
      fun t => {.batch group (Copier.addPage group out page.1) (some t)}) ?_ ?_
  · refine Does.bind (R := fun r g => Answered (fun _ => g = 0) (fun page : Page => g = page.2.elim
        (listedIn (Copier.addPage group out page.1) group)
        fun t => {.batch group (Copier.addPage group out page.1) (some t)}) r) (Does.ask ?_) ?_
    · rintro (e | ⟨files, _ | t⟩)
      · exact ⟨_, .list (.multiFailed group out tok e), rfl⟩
      · exact ⟨_, .list (.multiLast group out tok files), rfl⟩
      · exact ⟨_, .list (.multiPage group out tok files t), rfl⟩
    · rintro (e | ⟨files, _ | t⟩) g hg
      · exact Does.throw ⟨⟨e, rfl⟩, hg⟩
      · exact Does.pure hg
      · exact Does.pure hg
  · rintro ⟨files, _ | t⟩ g hg
    · exact Does.pure hg
    · exact Does.pure hg

/-- The listings a batch leaves for some of its folders. -/
def found (batched : Option Copier.ChildMap) (fids : List String) : Multiset Token :=
  match batched with
  | some out => listedIn out fids
  | none => 0

theorem does_listBatch (group : List String) :
    Does (copierProtocol cp sourceId destParent) (Multiset.map Token.reach group)
      (cp.listBatch group)
      (fun batched g => g = Multiset.map Token.reach group + found batched group)
      Raises := by
  refine Does.shift (.batch group) ?_
  unfold Copier.listBatch
  refine Does.part (φ := Multiset.map Token.reach group) (D := Raises) rfl
    (R := fun r g => match r with
      | .ok out => g = listedIn out group
      | .error e => (∃ error, e = .client error) ∧ g = 0)
    (Does.attempt (does_listMultiPages group)) ?_ fun _ _ h => h.frame _
  rintro (e | out) g hg
  · obtain ⟨⟨error, rfl⟩, rfl⟩ := hg
    refine Does.seq (σ := Multiset.map Token.reach group + 0) ?_ ?_
    · exact (does_raiseIfFatalQuota error _ _).mono (fun _ _ h => h) fun _ _ h => .inl h.1
    · intro u
      exact Does.pure rfl
  · exact Does.pure (congrArg _ hg)

/-- The listings behind a map of children. -/
def Covered (m : Copier.ChildMap) (ls : Multiset Token) : Prop :=
  ∃ L : List (String × List DriveFile),
    ls = Multiset.map (fun p : String × List DriveFile => Token.listed p.1 (0, 0) p.2) L ∧
      ∀ f kids, AList.lookup f m = some kids → (f, kids) ∈ L

theorem Covered.shifts {m : Copier.ChildMap} {ls : Multiset Token} (h : Covered m ls) :
    (copierProtocol cp sourceId destParent).Shifts ls 0 := by
  obtain ⟨L, rfl, -⟩ := h
  induction L with
  | nil => exact .refl _
  | cons p L ih =>
    rw [← Multiset.cons_coe, Multiset.map_cons, ← Multiset.singleton_add, add_comm]
    refine .step (.forget (.listed _ _ _)) ?_
    rwa [add_zero]

theorem Covered.insert {m : Copier.ChildMap} {ls : Multiset Token} (h : Covered m ls)
    (f : String) (kids : List DriveFile) :
    Covered (AList.insert f kids m) ({.listed f (0, 0) kids} + ls) := by
  obtain ⟨L, rfl, hL⟩ := h
  refine ⟨(f, kids) :: L, ?_, ?_⟩
  · rw [← Multiset.cons_coe, Multiset.map_cons, Multiset.singleton_add]
  · intro f' kids' h'
    by_cases hf : f' = f
    · subst hf
      rw [AList.lookup_insert] at h'
      cases h'
      exact List.mem_cons_self
    · rw [AList.lookup_insert_ne hf] at h'
      exact List.mem_cons_of_mem _ (hL f' kids' h')

theorem Covered.take {m : Copier.ChildMap} {ls : Multiset Token} (h : Covered m ls)
    {f : String} {kids : List DriveFile} (hf : AList.lookup f m = some kids) :
    ∃ ls', ls = {.listed f (0, 0) kids} + ls' := by
  obtain ⟨L, rfl, hL⟩ := h
  obtain ⟨ls', hls⟩ := Multiset.exists_cons_of_mem
    (Multiset.mem_map_of_mem
    (fun p : String × List DriveFile => Token.listed p.1 (0, 0) p.2)
    (Multiset.mem_coe.mpr (hL f kids hf)))
  exact ⟨ls', by rw [hls, Multiset.singleton_add]⟩

theorem batchedChildren_of_ne {group : List String} {batched : Option Copier.ChildMap}
    {fid : String} (h : (Copier.batchedChildren group batched fid).isEmpty = false) :
    ∃ out, batched = some out ∧
      Copier.batchedChildren group batched fid = (AList.lookup fid out).getD [] := by
  cases batched with
  | none => simp [Copier.batchedChildren] at h
  | some out =>
    refine ⟨out, rfl, ?_⟩
    unfold Copier.batchedChildren at h ⊢
    dsimp only at h ⊢
    split_ifs at h ⊢
    · simp at h
    · rfl

/-- The listing the map gets for one folder of a batch. -/
theorem does_confirmOne (group : List String) (batched : Option Copier.ChildMap) (fid : String) :
    Does (copierProtocol cp sourceId destParent) ({.reach fid} + found batched [fid])
      (cp.confirmOne group batched fid)
      (fun kids g => g = {.listed fid (0, 0) kids}) Raises := by
  have hforget (ls : Multiset Token) :
      (copierProtocol cp sourceId destParent).Shifts (ls + {.reach fid}) ls :=
    .step (.forget (.reach fid)) (by rw [add_zero]; exact .refl _)
  have hfound : (copierProtocol cp sourceId destParent).Shifts
      ({.reach fid} + found batched [fid]) {.reach fid} := by
    cases batched with
    | none => exact .refl _
    | some out => exact .step (.forget (.listed _ _ _)) (by rw [add_zero]; exact .refl _)
  unfold Copier.confirmOne
  dsimp only
  split_ifs with h
  · refine Protocol.Spec.shifts hfound (Protocol.Spec.leads (Protocol.Spec.mono
      (does_listChildren (w := (0, 0)) fid) ?_))
    rintro (e | kids) g hg
    · exact Protocol.Leads.intro hg
    · obtain rfl : g = {.listed fid (0, 0) kids, .reach fid} := hg
      exact ⟨_, hforget {.listed fid (0, 0) kids}, rfl⟩
  · obtain ⟨out, rfl, hout⟩ := batchedChildren_of_ne (Bool.not_eq_true _ ▸ h)
    rw [add_comm]
    refine Protocol.Spec.shifts (hforget _) (Does.pure ?_)
    rw [hout]
    rfl

theorem found_cons (batched : Option Copier.ChildMap) (fid : String) (rest : List String) :
    found batched (fid :: rest) = found batched [fid] + found batched rest := by
  cases batched with
  | none => rfl
  | some out =>
    change listedIn out (fid :: rest) = listedIn out [fid] + listedIn out rest
    simp only [listedIn, ← Multiset.cons_coe, Multiset.map_cons, Multiset.coe_nil,
      Multiset.cons_zero, Multiset.map_singleton, Multiset.singleton_add]

theorem does_confirmBatch (group : List String) (batched : Option Copier.ChildMap)
    (fids : List String) : ∀ (result : Copier.ChildMap) (ls : Multiset Token), Covered result ls →
    Does (copierProtocol cp sourceId destParent)
      (Multiset.map Token.reach fids + found batched fids + ls)
      (cp.confirmBatch group batched fids result)
      (fun m g => Covered m g ∧ ∀ f, f ∈ fids ∨ f ∈ result → f ∈ m) Raises := by
  induction fids with
  | nil =>
    intro result ls hls
    refine Does.pure ⟨?_, by simp⟩
    cases batched with
    | none => simpa [found] using hls
    | some out => simpa [found, listedIn] using hls
  | cons fid rest ih =>
    intro result ls hls
    unfold Copier.confirmBatch
    refine Does.part (φ := Multiset.map Token.reach rest + found batched rest + ls)
      (E := Raises) (D := Raises) ?_ (does_confirmOne group batched fid) ?_
      fun _ _ h => h.frame _
    · rw [found_cons, ← Multiset.cons_coe, Multiset.map_cons, ← Multiset.singleton_add]
      abel
    · rintro kids _ rfl
      rw [add_assoc, add_comm ls]
      refine (ih _ _ (hls.insert fid kids)).mono ?_ fun _ _ h => h
      rintro m g ⟨hm, hmem⟩
      refine ⟨hm, ?_⟩
      rintro f (hf | hf)
      · rcases List.mem_cons.mp hf with rfl | hf
        · exact hmem _ (.inr (by simp [AList.mem_insert]))
        · exact hmem _ (.inl hf)
      · exact hmem _ (.inr (by simp [AList.mem_insert, hf]))

theorem does_batchedList (groups : List (List String)) :
    ∀ (result : Copier.ChildMap) (ls : Multiset Token), Covered result ls →
    Does (copierProtocol cp sourceId destParent)
      (ls + Multiset.map Token.reach groups.flatten)
      (cp.batchedList groups result)
      (fun m g => ∃ ls, Covered m ls ∧
        ((g = ls ∧ ∀ f, f ∈ groups.flatten ∨ f ∈ result → f ∈ m) ∨ g = ls + {.stopped}))
      Raises := by
  induction groups with
  | nil =>
    intro result ls hls
    exact Does.pure ⟨ls, hls, .inl ⟨by simp, by simp⟩⟩
  | cons group rest ih =>
    intro result ls hls
    refine Does.bind (R := fun stop g => (stop = true ∧ g = ls + {.stopped}) ∨
      (stop = false ∧ g = ls + Multiset.map Token.reach (group :: rest).flatten)) ?_ ?_
    · intro f b
      refine Protocol.Leads.intro fun stop => .inl ?_
      cases stop with
      | true =>
        refine ⟨f + ls, _, {Token.stopped}, (add_assoc _ _ _).symm, .stop _ .seen, ?_⟩
        exact Protocol.Leads.intro ⟨ls + {Token.stopped}, add_assoc _ _ _, .inl ⟨rfl, rfl⟩⟩
      | false =>
        refine ⟨_, 0, 0, (add_zero _).symm, .quiet (.stopIsSet false), ?_⟩
        exact Protocol.Leads.intro ⟨_, add_zero _, .inr ⟨rfl, rfl⟩⟩
    · rintro stop g (⟨rfl, hg⟩ | ⟨rfl, rfl⟩)
      · exact Does.pure ⟨ls, hls, .inr hg⟩
      · refine Does.part (φ := ls + Multiset.map Token.reach rest.flatten) (D := Raises)
          ?_ (does_listBatch group) ?_ fun _ _ h => h.frame _
        · rw [List.flatten_cons, ← Multiset.coe_add, Multiset.map_add]
          abel
        · rintro batched _ rfl
          refine Does.part (φ := Multiset.map Token.reach rest.flatten) (D := Raises)
            ?_ (does_confirmBatch group batched group result ls hls) ?_ fun _ _ h => h.frame _
          · abel
          · rintro m g ⟨hm, hmem⟩
            rw [add_comm]
            refine (ih m g hm).mono ?_ fun _ _ h => h
            rintro m' g' ⟨ls', hm', h⟩
            refine ⟨ls', hm', h.imp_left fun h => ⟨h.1, ?_⟩⟩
            rintro f (hf | hf)
            · rw [List.flatten_cons, List.mem_append] at hf
              rcases hf with hf | hf
              · exact h.2 f (.inr (hmem f (.inl hf)))
              · exact h.2 f (.inl hf)
            · exact h.2 f (.inr (hmem f (.inr hf)))

/-- The token of a pending folder's listing can be had: from the map, or because the
stop flag cannot be seen clear any more. -/
theorem does_processPending (m : Copier.ChildMap) (ls more : Multiset Token) (hm : Covered m ls)
    (ps : List Copier.Pending) (hmore : (more = 0 ∧ ∀ p ∈ ps, p.1.id ∈ m) ∨ more = {.stopped}) :
    ∀ τ, Owed l ps τ → Does (copierProtocol cp sourceId destParent) ({.idle} + ls + more + τ)
      (cp.processPending l m ps) (fun _ g => g = {.idle}) Raises := by
  induction ps with
  | nil =>
    intro τ hτ
    cases hτ
    have hend : (copierProtocol cp sourceId destParent).Shifts ({.idle} + ls + more + 0)
        {.idle} := by
      have h₁ := Protocol.Shifts.frame ({.idle} + more)
        (@Covered.shifts cp sourceId destParent m ls hm)
      have h₂ : (copierProtocol cp sourceId destParent).Shifts ({.idle} + more) {.idle} := by
        rcases hmore with ⟨rfl, -⟩ | rfl
        · rw [add_zero]
          exact .refl _
        · exact .step (.forget .stopped) (by rw [add_zero]; exact .refl _)
      rw [add_zero, add_right_comm]
      rw [add_zero] at h₁
      exact h₁.trans h₂
    exact Protocol.Spec.shifts hend (Does.pure rfl)
  | cons p rest ih =>
    intro τ hτ
    obtain ⟨folder, dest⟩ := p
    cases hτ with
    | @cons _ _ τ j hj hv hr hrest =>
      have hrest' : (more = 0 ∧ ∀ p ∈ rest, p.1.id ∈ m) ∨ more = {.stopped} :=
        hmore.imp_left fun h => ⟨h.1, fun p hp => h.2 p (List.mem_cons_of_mem _ hp)⟩
      have hgo : Does (copierProtocol cp sourceId destParent)
          ({.idle} + ls + more + ({.folder j (.placed dest),
            .listed j.folderId j.pageRange ((AList.lookup folder.id m).getD [])} + τ))
          (do
            cp.descend l folder.id dest ((AList.lookup folder.id m).getD [])
            cp.processPending l m rest) (fun _ g => g = {.idle}) Raises := by
        refine Does.part (φ := ls + more + τ) (D := Raises) ?_
          (does_descend hj hv) ?_ fun _ _ h => h.frame _
        · rw [Multiset.insert_eq_cons Token.idle, ← Multiset.singleton_add Token.idle]
          abel
        · rintro u _ rfl
          have h := ih hrest' τ hrest
          rwa [show {Token.idle} + ls + more + τ = ls + more + τ + {Token.idle} by abel] at h
      intro f b
      refine Protocol.Leads.intro fun stop => .inl ?_
      cases stop with
      | true =>
        refine ⟨f + {.idle}, ls + more + ({.folder j (.placed dest)} + τ), {Token.stopped},
          by abel, .stop _ .seen, ?_⟩
        have h : Does (copierProtocol cp sourceId destParent) ({.idle} + {.stopped})
            (pure () : CopierM Unit) (fun _ g => g = {.idle}) Raises :=
          Does.shiftPart (.forget .stopped) (Does.pure rfl)
        rw [add_assoc]
        exact h f b
      | false =>
        rcases hmore with ⟨rfl, hmem⟩ | rfl
        · refine ⟨_, 0, 0, (add_zero _).symm, .quiet (.stopIsSet false), ?_⟩
          obtain ⟨kids, hkids⟩ := Option.isSome_iff_exists.mp
            (AList.lookup_isSome.mpr (hmem _ List.mem_cons_self))
          obtain ⟨ls', hls⟩ := hm.take hkids
          rw [add_zero]
          refine Protocol.Spec.shifts (Protocol.Shifts.one
            (f := {.idle} + ls' + ({.folder j (.placed dest)} + τ))
            (CopierShift.copy folder.id (0, 0) kids) ?_ ?_) hgo f b
          · rw [hls]
            abel
          · simp only [hkids, Option.getD_some, hj, hr, hls, Multiset.insert_eq_cons,
              ← Multiset.singleton_add]
            abel
        · refine ⟨f + ({.idle} + ls + ({.folder j (.placed dest)} + τ)), {.stopped},
            {.stopped} + {.listed j.folderId j.pageRange ((AList.lookup folder.id m).getD [])},
            by abel, .absurd _, ?_⟩
          have h := hgo f b
          simp only [Multiset.insert_eq_cons, ← Multiset.singleton_add] at h
          have hτ : f + ({Token.idle} + ls + ({.folder j (.placed dest)} + τ)) + ({.stopped} +
              {.listed j.folderId j.pageRange ((AList.lookup folder.id m).getD [])}) =
              f + ({.idle} + ls + {.stopped} + ({.folder j (.placed dest)} +
                {.listed j.folderId j.pageRange ((AList.lookup folder.id m).getD [])} + τ)) := by
            abel
          rw [hτ]
          exact h

theorem does_processLevelFast : Does (copierProtocol cp sourceId destParent)
    {.idle, .level l} (cp.processLevelFast l) (fun _ g => g = {.idle}) Raises := by
  unfold Copier.processLevelFast
  refine Does.part (φ := {.idle}) (D := Raises) rfl does_buildIndex ?_
    fun _ _ h => h.frame _
  rintro index _ rfl
  have hstart := @does_enqueueChildren cp sourceId destParent l index l.children [] 0 .nil
  rw [zero_add] at hstart
  refine Does.bind hstart ?_
  rintro ps _ ⟨τ, hps, rfl⟩
  split_ifs with he
  · rw [List.isEmpty_iff] at he
    subst he
    cases hps
    exact Does.pure (zero_add _)
  · rw [add_comm]
    refine does_unlessStoppedPart rfl ?_
    refine Protocol.Spec.shifts (Protocol.Shifts.frame {.idle} hps.reach) ?_
    refine Does.part (φ := {.idle} + τ) (D := Raises) ?_ (does_batchedList
      (slices Copier.batchSize [] (ps.map fun p => p.1.id)) ∅ 0 ⟨[], rfl, by simp⟩) ?_
      fun _ _ h => h.frame _
    · rw [flatten_slices, List.nil_append, zero_add, add_assoc, ← Multiset.map_coe,
        Multiset.map_map]
      rfl
    · rintro m g ⟨ls, hm, h⟩
      rw [flatten_slices, List.nil_append] at h
      rcases h with ⟨rfl, hmem⟩ | rfl
      · have hp := @does_processPending cp sourceId destParent l m g 0 hm ps
          (.inl ⟨rfl, fun p hp => hmem _ (.inl (List.mem_map_of_mem hp))⟩) τ hps
        rwa [add_zero, add_right_comm] at hp
      · have hp := @does_processPending cp sourceId destParent l m ls {.stopped} hm ps
          (.inr rfl) τ hps
        rwa [show {Token.idle} + ls + {.stopped} + τ = {.idle} + τ + (ls + {.stopped}) by abel]
          at hp

theorem does_processLevel : Does (copierProtocol cp sourceId destParent) {.idle, .level l}
    (cp.processLevel l) (fun _ g => g = {.idle}) Raises := by
  unfold Copier.processLevel
  split_ifs
  · exact does_processLevelFast
  · refine Does.part (φ := {.idle}) (D := Raises) rfl does_buildIndex ?_
      fun _ _ h => h.frame _
    rintro index _ rfl
    exact does_processChildren index l.children

end Levels

/-- `_process_level` keeps to the protocol, whatever the level. -/
theorem copier_verified (cp : Copier) (sourceId destParent : String) :
    (copierProtocol cp sourceId destParent).Verified cp.processLevel := by
  rintro l τ τ' hc
  cases hc with
  | enter j dest out =>
    refine Protocol.Spec.mono does_processLevel ?_
    rintro (e | u) g hg
    · exact hg
    · exact hg

end TurboCopy
