import TurboCopy.Copier.Ledger

/-!
# Where the items of a run come from

Every source item a token speaks of was delivered by a listing of its folder, or is the
target of a shortcut that was, or is the root. What the answers of a Drive say of such items
therefore holds of every item in every token: what all answers say, or what those so far do.
-/

namespace TurboCopy

open Threads

/-- The root of a source, and what is known of an item listed in a folder and of a shortcut with
its target. -/
structure Origin where
  root : String
  listed : String → DriveFile → Prop
  target : DriveFile → DriveFile → Prop

namespace Origin

variable (O : Origin)

/-- The files are known to be in the folders of a group. -/
def InGroup (group : List String) (files : List ApiFile) : Prop :=
  ∀ g ∈ files, ∀ p ∈ g.parents, p ∈ group → O.listed p (DriveFile.fromApi g)

/-- An answer that delivers only what is known. -/
def Answers : (o : CopierOp) → o.Out → Prop
  | .ask (.listChildren f (some _) _), .ok page =>
    ∀ g ∈ page.1, O.listed f (DriveFile.fromApi g)
  | .ask (.listChildrenMulti group _ _), .ok page => O.InGroup group page.1
  | .ask (.getMetadata id fields), .ok data => fields = shortcutFields →
    ∀ s : DriveFile, truthy s.shortcutTargetId = some id →
      O.target s { DriveFile.fromApi data with name := s.name }
  | _, _ => True

/-- The file of a job is a listed file, or the target of a listed shortcut. -/
def File (j : FileJob) : Prop :=
  (j.shortcutId = none ∧ O.listed j.parentSourceId j.src ∧ j.src.isFolder = false ∧
    j.src.isShortcut = false) ∨
  ∃ s, j.shortcutId = some s.id ∧ O.listed j.parentSourceId s ∧ s.isShortcut = true ∧
    O.target s j.src ∧ j.src.isFolder = false

/-- The folder of a job is the root, a listed folder, or the target of a listed shortcut. -/
inductive Folder (j : FolderJob) : Prop
  | root (hid : j.folderId = O.root) (hs : j.shortcutId = none)
  | listed (parent : String) (src : DriveFile) (hl : O.listed parent src)
      (hf : src.isFolder = true) (hid : j.folderId = src.id) (hs : j.shortcutId = none)
  | target (parent : String) (src target : DriveFile) (hl : O.listed parent src)
      (hsc : src.isShortcut = true) (ht : O.target src target) (hf : target.isFolder = true)
      (hid : j.folderId = target.id) (hs : j.shortcutId = some src.id)

/-- The items of a token are known. -/
def Knows : Token → Prop
  | .file j _ => O.File j
  | .folder j _ => O.Folder j
  | .shortcut l _ src => O.listed l.parentSourceId src ∧ src.isShortcut = true
  | .broken l src => O.listed l.parentSourceId src ∧ src.isShortcut = true
  | .listing f _ out _ _ => ∀ x ∈ out, O.listed f x
  | .unlisted f _ out => ∀ x ∈ out, O.listed f x
  | .listed f _ out => ∀ x ∈ out, O.listed f x
  | .batch _ out _ => ∀ p, ∀ x ∈ (AList.lookup p out).getD [], O.listed p x
  | .level l => ∀ x ∈ l.children, O.listed l.parentSourceId x
  | .indexing l _ _ => ∀ x ∈ l.children, O.listed l.parentSourceId x
  | .indexed l _ => ∀ x ∈ l.children, O.listed l.parentSourceId x
  | _ => True

variable {O}

theorem knows_entry {l : Level} {index : ℕ} {src : DriveFile}
    (h : O.listed l.parentSourceId src) : O.Knows (.entry l index src) := by
  unfold Token.entry
  split_ifs with hs hf
  · exact ⟨h, hs⟩
  · exact .listed l.parentSourceId src h hf rfl rfl
  · exact .inl ⟨rfl, h, by simpa using hf, by simpa using hs⟩

theorem knows_target {l : Level} {index : ℕ} {src target : DriveFile}
    (h : O.listed l.parentSourceId src) (hs : src.isShortcut = true) (ht : O.target src target) :
    O.Knows (.target l index src target) := by
  unfold Token.target
  split_ifs with hf
  · exact .target l.parentSourceId src target h hs ht hf rfl rfl
  · exact .inr ⟨src, rfl, h, hs, ht, by simpa using hf⟩

theorem listed_keepPage {f : String} {range : ℤ × ℤ} {out : List DriveFile}
    {files : List ApiFile} {n : ℕ} (hout : ∀ x ∈ out, O.listed f x)
    (hfiles : ∀ g ∈ files, O.listed f (DriveFile.fromApi g)) :
    ∀ x ∈ Copier.keepPage range.1 range.2 out files n, O.listed f x := by
  unfold Copier.keepPage
  split_ifs
  · intro x hx
    rcases List.mem_append.mp hx with hx | hx
    · exact hout x hx
    · obtain ⟨g, hg, rfl⟩ := List.mem_map.mp hx
      exact hfiles g hg
  · exact hout

theorem listed_addPage {group : List String} {out : Copier.ChildMap} {files : List ApiFile}
    (hout : ∀ p, ∀ x ∈ (AList.lookup p out).getD [], O.listed p x)
    (hfiles : O.InGroup group files) :
    ∀ p, ∀ x ∈ (AList.lookup p (Copier.addPage group out files)).getD [], O.listed p x := by
  unfold Copier.addPage
  induction files generalizing out with
  | nil => exact hout
  | cons g files ih =>
    rw [List.foldl_cons]
    refine ih ?_ fun g' hg' => hfiles g' (List.mem_cons_of_mem _ hg')
    have hg := hfiles g List.mem_cons_self
    generalize g.parents = parents at hg
    induction parents generalizing out with
    | nil => exact hout
    | cons q qs ihq =>
      rw [List.foldl_cons]
      refine ihq ?_ fun p hp => hg p (List.mem_cons_of_mem _ hp)
      split_ifs with hq
      · intro p x hx
        by_cases hp : p = q
        · subst hp
          rw [AList.lookup_insert, Option.getD_some, List.mem_append, List.mem_singleton] at hx
          rcases hx with hx | rfl
          · exact hout p x hx
          · exact hg p List.mem_cons_self hq
        · rw [AList.lookup_insert_ne hp] at hx
          exact hout p x hx
      · exact hout

theorem lookup_emptyMap (group : List String) (p : String) :
    (AList.lookup p (Copier.emptyMap group)).getD [] = [] := by
  have h : ∀ (ps : List String) (out : Copier.ChildMap), (AList.lookup p out).getD [] = [] →
      (AList.lookup p (ps.foldl (fun out pid => AList.insert pid [] out) out)).getD [] = [] := by
    intro ps
    induction ps with
    | nil => exact fun out h => h
    | cons q qs ih =>
      intro out h
      refine ih _ ?_
      by_cases hp : p = q
      · rw [hp, AList.lookup_insert, Option.getD_some]
      · rw [AList.lookup_insert_ne hp, h]
  exact h group ∅ (by simp)

/-! ## What the rules keep -/

variable {cp : Copier} {sourceId destParent : String} {τ τ' : Multiset Token}

theorem knows_list {o : CopierOp} {x : o.Out} (h : ListRule cp o x τ τ')
    (ha : O.Answers o x) (hk : Each O.Knows τ) : Each O.Knows τ' := by
  cases h with
  | page f range out tok n files t _ =>
    simp only [each_singleton] at hk ⊢
    exact listed_keepPage hk ha
  | capped f range out tok n files t _ =>
    simp only [each_singleton] at hk ⊢
    exact listed_keepPage hk ha
  | lastPage f range out tok n files =>
    simp only [each_singleton] at hk ⊢
    exact listed_keepPage hk ha
  | multiPage group out tok files t =>
    simp only [each_singleton] at hk ⊢
    exact listed_addPage hk ha
  | multiLast group out tok files =>
    simp only [each_singleton] at hk
    exact each_map.mpr fun f _ => listed_addPage hk ha f
  | multiFailed group out tok e => exact each_zero
  | resolved l index src target data h =>
    simp only [each_singleton] at hk ⊢
    exact knows_target hk.1 hk.2 (ha rfl src h)
  | reported l src it u _ => exact each_zero
  | index l items i =>
    simp only [each_singleton] at hk
    exact each_map.mpr fun src hs => knows_entry (hk src hs)
  | _ => simpa [Knows] using hk

theorem knows_file {o : CopierOp} {x : o.Out} (h : FileRule cp o x τ τ') (hk : Each O.Knows τ) :
    Each O.Knows τ' := by
  cases h <;> simp_all [Knows]

theorem knows_folder {o : CopierOp} {x : o.Out} (h : FolderRule cp o x τ τ')
    (hk : Each O.Knows τ) : Each O.Knows τ' := by
  cases h <;> simp_all [Knows]

theorem knows_store {o : CopierOp} {x : o.Out} (h : StoreRule cp o x τ τ') : Each O.Knows τ' := by
  cases h <;> simp [Knows]

theorem knows_run {o : CopierOp} {x : o.Out} (h : RunRule cp O.root destParent o x τ τ')
    (hk : Each O.Knows τ) : Each O.Knows τ' := by
  cases h with
  | begin data => exact each_singleton.mpr (.root rfl rfl)
  | destRoot name d u => exact each_add.mpr ⟨hk, each_rootTokens fun _ => trivial⟩
  | completed u => exact each_zero
  | returned r => exact each_singleton.mpr trivial

theorem knows_call {l : Level} (h : CallRule l τ τ') (hk : Each O.Knows τ) : Each O.Knows τ' := by
  cases h
  simp_all [Knows]

theorem knows_shift (h : CopierShift cp τ τ') (hk : Each O.Knows τ) : Each O.Knows τ' := by
  cases h with
  | batch group =>
    rw [each_add]
    refine ⟨hk, each_singleton.mpr fun p x hx => ?_⟩
    rw [lookup_emptyMap] at hx
    exact nomatch hx
  | _ => simp_all [Knows]

/-! ## What is known grows -/

/-- What one origin knows another knows too. -/
structure Within (O O' : Origin) : Prop where
  root : O.root = O'.root
  listed : ∀ {f x}, O.listed f x → O'.listed f x
  target : ∀ {s x}, O.target s x → O'.target s x

theorem Within.folder {O' : Origin} (h : O.Within O') {j : FolderJob} (hj : O.Folder j) :
    O'.Folder j := by
  cases hj with
  | root hid hs => exact .root (hid.trans h.root) hs
  | listed parent src hl hf hid hs => exact .listed parent src (h.listed hl) hf hid hs
  | target parent src target hl hsc ht hf hid hs =>
    exact .target parent src target (h.listed hl) hsc (h.target ht) hf hid hs

theorem Within.knows {O' : Origin} (h : O.Within O') (t : Token) (ht : O.Knows t) :
    O'.Knows t := by
  cases t with
  | file j s =>
    rcases ht with ⟨hs, hl, hk⟩ | ⟨src, hs, hl, hk, hsrc, hf⟩
    · exact .inl ⟨hs, h.listed hl, hk⟩
    · exact .inr ⟨src, hs, h.listed hl, hk, h.target hsrc, hf⟩
  | folder j s => exact h.folder ht
  | shortcut l index src => exact ⟨h.listed ht.1, ht.2⟩
  | broken l src => exact ⟨h.listed ht.1, ht.2⟩
  | listing f range out tok page => exact fun x hx => h.listed (ht x hx)
  | unlisted f range out => exact fun x hx => h.listed (ht x hx)
  | listed f range out => exact fun x hx => h.listed (ht x hx)
  | batch group out tok => exact fun p x hx => h.listed (ht p x hx)
  | level l => exact fun x hx => h.listed (ht x hx)
  | indexing l items tok => exact fun x hx => h.listed (ht x hx)
  | indexed l items => exact fun x hx => h.listed (ht x hx)
  | _ => trivial

/-- An origin after each history whose knowledge grows and covers each answer as it comes: then
it covers every token. -/
theorem keeps {V : Service} {ok : StepCondition V} {O : List (Event copierSig) → Origin}
    (hroot : ∀ past, (O past).root = cp.sourceId)
    (hgrow : ∀ e past, (O past).Within (O (e :: past)))
    (hO : ∀ {o x past} {s s' : Site V}, s.Step ok o x s' → (O (.did o x :: past)).Answers o x) :
    Keeps cp ok Always fun _ past G => Each (O past).Knows G :=
  KeepsEach.keeps (P := fun _ past => (O past).Knows)
    { stable := fun _ _ h => (hgrow _ _).knows _ h
      enters := fun h => (hgrow _ _).knows _ h
      requests := fun _ h => h
      stopped := trivial
      complete := trivial
      file := fun hr _ _ h => knows_file hr (h.mono (hgrow _ _).knows)
      folder := fun hr _ _ h => knows_folder hr (h.mono (hgrow _ _).knows)
      list := fun hr hs _ h => knows_list hr (hO hs) (h.mono (hgrow _ _).knows)
      store := fun hr _ _ _ => knows_store hr
      run := fun hr _ _ h => knows_run (by rwa [hroot]) (h.mono (hgrow _ _).knows)
      call := fun hc _ h => knows_call hc (h.mono (hgrow _ _).knows)
      shift := fun hc _ h => knows_shift hc h }

end Origin
end TurboCopy
