import TurboCopy.Copier.Footprint

/-!
# One folder for one source folder

The main thread looks up and creates the destination folders, one after another. So when every
search is answered and finds what there is, no run puts a second copy of a source folder beside
the first.
-/

namespace TurboCopy

open Threads

/-- A Drive whose searches find what there is, and on which no copy of a file is a folder. -/
structure Profile.Finds (pf : Profile) : Prop where
  prompt : pf.prompt
  answers : ∀ q size, ¬pf.raises (.search q size)
  files : ∀ n body f c, pf.copies n body f c → f.mimeType ≠ folderMime

/-- A query for the copies of a source folder or of a shortcut to one. -/
def FolderQuery.ForCopies (q : FolderQuery) : Prop :=
  q.key = "source_folder_id" ∨ q.key = "source_shortcut_id"

/-- The tags of a new folder name one source folder or one shortcut. -/
theorem folderProps_tagged {folderId k v : String} {shortcutId : Option String}
    (hk : k = "source_folder_id" ∨ k = "source_shortcut_id")
    (h : AList.lookup k (folderProps folderId shortcutId) = some v) :
    k = folderKeyName shortcutId ∧ v = orElse shortcutId folderId ∧ v ≠ "" := by
  unfold folderProps at h
  unfold folderKeyName orElse
  cases hs : truthy shortcutId with
  | some s =>
    have hne : s ≠ "" := (truthy_eq_some.mp hs).2
    rcases hk with rfl | rfl
    · rw [hs] at h
      dsimp only at h
      split_ifs at h
      · simp [AList.lookup_insert_ne] at h
        cases h
      · simp [AList.lookup_insert_ne] at h
        cases h
    · rw [hs] at h
      dsimp only at h
      have hv : s = v := by
        split_ifs at h
        · simpa using h
        · simpa [AList.lookup_insert_ne] using h
      exact ⟨rfl, hv.symm, hv ▸ hne⟩
  | none =>
    rw [hs] at h
    dsimp only at h
    rcases hk with rfl | rfl
    · split_ifs at h with hid
      · simp at h
        cases h
      · have hv : folderId = v := by simpa using h
        exact ⟨rfl, hv.symm, hv ▸ hid⟩
    · split_ifs at h
      · simp at h
        cases h
      · simp [AList.lookup_insert_ne] at h
        cases h

namespace Drive

variable {pf : Profile} {d d' : Drive} {r : Request} {x : r.Ret}

/-- What a query asks of a node. -/
def matchesQuery (q : FolderQuery) (n : Node) : Bool :=
  n.liveIn q.parent && n.isFolder && decide (AList.lookup q.key n.file.appProperties = some q.value)

theorem length_matching (d : Drive) (q : FolderQuery) :
    (d.matching q).length = d.nodes.countP (matchesQuery q) :=
  List.countP_eq_length_filter.symm

theorem length_matching_edit {id : String} {f : Node → Node} {hf : ∀ n, (f n).id = n.id}
    (q : FolderQuery) (h : ∀ n, matchesQuery q (f n) = true → matchesQuery q n = true) :
    ((d.edit id f hf).matching q).length ≤ (d.matching q).length := by
  rw [length_matching, length_matching]
  refine (List.countP_map ..).trans_le (List.countP_mono_left fun n _ => ?_)
  rw [Function.comp_apply]
  split_ifs
  · exact h n
  · exact fun hn => hn

theorem length_matching_add {n : Node} {hf : d.Fresh n.id} (q : FolderQuery)
    (h : matchesQuery q n = false) : ((d.add n hf).matching q).length = (d.matching q).length := by
  rw [length_matching, length_matching]
  exact List.countP_cons_of_neg (by rw [h]; exact Bool.false_ne_true)

/-- No other request than the creation of a folder lets a query find more. -/
theorem Serves.matching_le (hpf : pf.Finds) (h : Serves pf r d x d')
    (hr : ∀ name p props, r ≠ .createFolder name p props) (q : FolderQuery) :
    (d'.matching q).length ≤ (d.matching q).length := by
  cases h with
  | raised e he hx => exact le_rfl
  | granted hg =>
    cases hg with
    | copyFile _ src hsrc body vis rev f c hf hc hp =>
      apply le_of_eq
      apply length_matching_add
      simp [matchesQuery, Node.isFolder, hpf.files _ _ _ _ hc]
    | createFolder _ name p props => exact absurd rfl (hr name p props)
    | createJsonFile =>
      apply le_of_eq
      apply length_matching_add
      simp [matchesQuery, Node.isFolder, folderMime]
    | updateFileContent => exact length_matching_edit q fun n hn => hn
    | trashFile =>
      apply length_matching_edit
      intro n hn
      simp [matchesQuery, Node.liveIn] at hn
    | _ => exact le_rfl

/-- A new folder is found by the query for it, and by no other query for copies. -/
theorem length_matching_folder {n : Node} {hf : d.Fresh n.id} {p folderId : String}
    {shortcutId : Option String} {q : FolderQuery} (hq : q.ForCopies) (hparents : n.file.parents = [p])
    (hprops : n.file.appProperties = folderProps folderId shortcutId) :
    ((d.add n hf).matching q).length ≤ (d.matching q).length ∨
      q = folderQuery p folderId shortcutId ∧ q.value ≠ "" ∧
        ((d.add n hf).matching q).length = (d.matching q).length + 1 := by
  cases hmatch : matchesQuery q n with
  | false => exact .inl (length_matching_add q hmatch).le
  | true =>
    have hcount : ((d.add n hf).matching q).length = (d.matching q).length + 1 := by
      rw [length_matching, length_matching]
      exact List.countP_cons_of_pos hmatch
    simp only [matchesQuery, Node.liveIn, hparents, hprops, Bool.and_eq_true, decide_eq_true_eq,
      List.mem_singleton] at hmatch
    obtain ⟨⟨⟨-, hparent⟩, -⟩, htag⟩ := hmatch
    obtain ⟨hkey, hvalue, hne⟩ := folderProps_tagged hq htag
    refine .inr ⟨?_, hne, hcount⟩
    cases q
    simp_all [folderQuery]

theorem Serves.matching_created {name p folderId : String} {shortcutId id : Option String}
    (h : Serves pf (.createFolder name p (folderProps folderId shortcutId)) d (.ok id) d')
    {q : FolderQuery} (hq : q.ForCopies) :
    (d'.matching q).length ≤ (d.matching q).length ∨
      q = folderQuery p folderId shortcutId ∧ q.value ≠ "" ∧
        (d'.matching q).length = (d.matching q).length + 1 := by
  cases h with
  | raised e he hx => exact nomatch hx
  | granted hg =>
    cases hg with
    | createFolder => exact length_matching_folder hq rfl rfl

/-- What a search does not deliver is not there. -/
theorem Serves.notFound (hpf : pf.Finds) {q : FolderQuery} {size : ℕ} {tok : Option PageToken}
    (h : Serves pf (.search q size) d (.ok ([], tok)) d') : d'.matching q = [] := by
  cases h with
  | raised e he hx => exact nomatch hx
  | granted hg =>
    cases hg with
    | search _ _ _ _ hpage hprompt => exact hprompt hpf.prompt rfl

theorem Serves.denied {name p : String} {props : Dict String} {e : ApiError}
    (h : Serves pf (.createFolder name p props) d (.error e) d') : d' = d := by
  cases h with
  | raised => rfl
  | granted hg => cases hg

/-- A search is answered. -/
theorem Serves.searched (hpf : pf.Finds) {q : FolderQuery} {size : ℕ} {e : ApiError} :
    ¬Serves pf (.search q size) d (.error e) d' := by
  intro h
  cases h with
  | raised e he hx =>
    rcases he with he | he
    · exact hpf.answers _ _ he
    · exact he
  | granted hg => cases hg

/-- No node has the empty id. -/
theorem Serves.nameless (h : Serves pf r d x d') (hd : ¬d.has "") : ¬d'.has "" := by
  have hadd {n : Node} {hf : d.Fresh n.id} : ¬(d.add n hf).has "" := by
    rintro ⟨m, hm, hid⟩
    rcases mem_add.mp hm with rfl | hm
    · exact hf.1 hid
    · exact hd ⟨m, hm, hid⟩
  have hedit {id : String} {f : Node → Node} {hf : ∀ n, (f n).id = n.id} :
      ¬(d.edit id f hf).has "" := by
    rintro ⟨m, hm, hid⟩
    obtain ⟨n, hn, rfl⟩ := mem_edit.mp hm
    refine hd ⟨n, hn, ?_⟩
    split_ifs at hid
    · rwa [hf] at hid
    · exact hid
  cases h with
  | raised e he hx => exact hd
  | granted hg =>
    cases hg with
    | copyFile => exact hadd
    | createFolder => exact hadd
    | createJsonFile => exact hadd
    | updateFileContent => exact hedit
    | trashFile => exact hedit
    | _ => exact hd

end Drive

/-! ## Lookups -/

/-- Whether a lookup is under way. -/
def FolderStage.looking : FolderStage → ℕ
  | .start => 0
  | .placed _ => 0
  | _ => 1

/-- The permission to look a folder up, or a lookup. -/
def Token.looking : Token → ℕ
  | .idle => 1
  | .folder _ st => st.looking
  | _ => 0

/-- A folder that is about to be created is not there. -/
def Token.FindsNone (d : Drive) : Token → Prop
  | .folder j .missing => ∀ p, j.dest = some p → j.key ≠ "" →
    d.matching (folderQuery p j.folderId j.shortcutId) = []
  | _ => True

/-- No query for copies finds more than one folder, or more than at first. -/
structure Unrepeated {pf : Profile} (d₀ : Drive) (s : Site (Drive.service pf))
    (_ : List (Event copierSig)) (G : Multiset Token) : Prop where
  lone : total Token.looking G ≤ 1
  missing : Each (Token.FindsNone s.drive) G
  bound : ∀ q : FolderQuery, q.ForCopies →
    (Drive.matching s.drive q).length ≤ max 1 (d₀.matching q).length
  named : ¬Drive.has s.drive ""

section Runs

variable {pf : Profile} {cp : Copier} {d₀ d d' : Drive} {past : List (Event copierSig)}
  {s s' : Site (Drive.service pf)} {o : CopierOp} {x : o.Out} {G τ τ' : Multiset Token}
  {source destParent : String} {ok : StepCondition (Drive.service pf)}

theorem Token.looking_entry (l : Level) (index : ℕ) (src : DriveFile) :
    (Token.entry l index src).looking = 0 := by
  unfold Token.entry
  split_ifs <;> rfl

theorem Token.looking_target (l : Level) (index : ℕ) (src target : DriveFile) :
    (Token.target l index src target).looking = 0 := by
  unfold Token.target
  split_ifs <;> rfl

theorem Token.findsNone_of_looking {t : Token} (h : t.looking = 0) : t.FindsNone d := by
  unfold Token.FindsNone
  split
  · simp [Token.looking, FolderStage.looking] at h
  · trivial

theorem Token.FindsNone.later {t : Token} (h : t.FindsNone d)
    (hd : ∀ q, (d'.matching q).length ≤ (d.matching q).length) : t.FindsNone d' := by
  unfold Token.FindsNone at h ⊢
  split at h
  · rename_i j
    intro p hp hk
    have hle := hd (folderQuery p j.folderId j.shortcutId)
    rw [h p hp hk] at hle
    exact List.length_eq_zero_iff.mp (Nat.le_zero.mp hle)
  · trivial

theorem looking_of_le (h : total Token.looking G = 0) : Each (fun t => t.looking = 0) G := by
  intro t ht
  have hle : t.looking ≤ total Token.looking G :=
    Multiset.le_sum_of_mem (Multiset.mem_map_of_mem Token.looking ht)
  omega

theorem FileRule.looking (h : FileRule cp o x τ τ') : Each (fun t => t.looking = 0) τ' := by
  cases h <;> simp [Token.looking]

theorem ListRule.looking (h : ListRule cp o x τ τ') : Each (fun t => t.looking = 0) τ' := by
  cases h with
  | multiLast group out tok files => exact each_map.mpr fun _ _ => rfl
  | index l items i => exact each_map.mpr fun _ _ => Token.looking_entry _ _ _
  | resolved l index src target data ht => exact each_singleton.mpr (Token.looking_target _ _ _ _)
  | _ => simp [Token.looking]

theorem StoreRule.looking (h : StoreRule cp o x τ τ') : Each (fun t => t.looking = 0) τ' := by
  cases h <;> simp [Token.looking]

theorem RunRule.looking (h : RunRule cp source destParent o x τ τ') :
    Each (fun t => t.looking = 0) τ' := by
  cases h with
  | destRoot name d u =>
    exact each_add.mpr ⟨each_singleton.mpr rfl, each_rootTokens fun _ => rfl⟩
  | _ => simp [Token.looking, FolderStage.looking]

theorem CopierShift.looking_le (h : CopierShift cp τ τ') :
    total Token.looking τ' ≤ total Token.looking τ := by
  cases h with
  | forget ht => simp
  | batch group => simp [Token.looking]
  | _ => simp [Token.looking, FolderStage.looking]

/-- A step that creates no folder. -/
theorem Unrepeated.did (h : Unrepeated d₀ s past (G + τ)) (hs : s.Step ok o x s')
    (hd : ∀ q, (Drive.matching s'.drive q).length ≤ (Drive.matching s.drive q).length)
    (hle : total Token.looking τ' ≤ total Token.looking τ)
    (hmissing : Each (Token.FindsNone s'.drive) τ') :
    Unrepeated d₀ s' (.did o x :: past) (G + τ') where
  lone := by
    have hlone := h.lone
    rw [total_add] at hlone ⊢
    omega
  missing := by
    have hold := (each_add.mp h.missing).1
    exact each_add.mpr ⟨hold.mono fun _ ht => ht.later hd, hmissing⟩
  bound q hq := (hd q).trans (h.bound q hq)
  named := by
    cases o with
    | mem o =>
      obtain ⟨-, rfl, -⟩ := hs
      exact h.named
    | ask r => exact Drive.Serves.nameless hs.1 h.named

/-- Only the creation of a folder lets a query find more. -/
theorem Site.Step.matching_le (hpf : pf.Finds) (hs : s.Step ok o x s')
    (hr : ∀ name p props, o ≠ .ask (.createFolder name p props)) (q : FolderQuery) :
    (Drive.matching s'.drive q).length ≤ (Drive.matching s.drive q).length := by
  cases o with
  | mem o =>
    obtain ⟨-, rfl, -⟩ := hs
    exact le_rfl
  | ask r =>
    exact Drive.Serves.matching_le hpf hs.1 (fun name p props h => hr name p props (by rw [h])) q

/-- A step after which a thread looks no folder up. -/
theorem Unrepeated.still (hpf : pf.Finds) (h : Unrepeated d₀ s past (G + τ)) (hs : s.Step ok o x s')
    (hr : ∀ name p props, o ≠ .ask (.createFolder name p props))
    (hτ' : Each (fun t => t.looking = 0) τ') :
    Unrepeated d₀ s' (.did o x :: past) (G + τ') := by
  refine h.did hs (hs.matching_le hpf hr) ?_ (hτ'.mono fun _ => Token.findsNone_of_looking)
  rw [total_eq_zero hτ']
  exact Nat.zero_le _

/-- The folder is created, and no other lookup is under way. -/
theorem Unrepeated.created {j : FolderJob} {p : String} {id : Option String}
    (h : Unrepeated d₀ s past (G + {.folder j .missing})) (hp : j.dest = some p)
    (hs : s.Step ok (.ask (.createFolder j.name p (folderProps j.folderId j.shortcutId))) (.ok id) s')
    (hlone : total Token.looking τ' ≤ 1) (hmissing : Each (Token.FindsNone s'.drive) τ') :
    Unrepeated d₀ s' (.did (.ask (.createFolder j.name p (folderProps j.folderId j.shortcutId)))
      (.ok id) :: past) (G + τ') := by
  have hsum : total Token.looking G + 1 ≤ 1 := by
    have hlone := h.lone
    rwa [total_add, total_singleton] at hlone
  have hzero : total Token.looking G = 0 := by omega
  constructor
  · rw [total_add, hzero]
    omega
  · refine each_add.mpr ⟨?_, hmissing⟩
    exact (looking_of_le hzero).mono fun _ => Token.findsNone_of_looking
  · intro q hq
    rcases Drive.Serves.matching_created hs.1 hq with hle | ⟨rfl, hne, hone⟩
    · exact hle.trans (h.bound q hq)
    · have hnone := each_singleton.mp (each_add.mp h.missing).2 p hp hne
      rw [hone, hnone]
      exact le_max_left 1 _
  · exact Drive.Serves.nameless hs.1 h.named

theorem FolderRule.unrepeated (hpf : pf.Finds) (hr : FolderRule cp o x τ τ')
    (hs : s.Step ok o x s') (h : Unrepeated d₀ s past (G + τ)) :
    Unrepeated d₀ s' (.did o x :: past) (G + τ') := by
  cases hr with
  | made j p id hp =>
    exact h.created hp hs le_rfl (each_singleton.mpr trivial)
  | unnamed j p id hp =>
    exact h.created hp hs le_rfl (each_cons.mpr ⟨trivial, each_singleton.mpr trivial⟩)
  | denied j p e hp =>
    have hsame : s'.drive = s.drive := Drive.Serves.denied hs.1
    refine h.did hs (fun q => ?_) le_rfl (each_singleton.mpr trivial)
    rw [hsame]
  | notFound j p tok hp =>
    refine h.did hs (hs.matching_le hpf (by simp)) (by simp [Token.looking, FolderStage.looking])
      (each_singleton.mpr ?_)
    intro p' hp' _
    obtain rfl : p = p' := Option.some.inj (hp.symm.trans hp')
    exact Drive.Serves.notFound hpf hs.1
  | anonymous j p f rest tok hp hid =>
    obtain ⟨g, hg, hfirst⟩ := firstById_mem f rest
    obtain ⟨n, hn, hnid, -⟩ := Drive.Serves.found hs.1 hg
    exact absurd ⟨n, hn, hnid.trans (hfirst.trans hid)⟩ h.named
  | unsearched j p e hp => exact absurd hs.1 (Drive.Serves.searched hpf)
  | _ =>
    exact h.did hs (hs.matching_le hpf (by simp)) (by simp [Token.looking, FolderStage.looking])
      (by simp [Token.FindsNone])

theorem Unrepeated.turned {past' : List (Event copierSig)} (h : Unrepeated d₀ s past (G + τ))
    (hle : total Token.looking τ' ≤ total Token.looking τ)
    (hmissing : Each (Token.FindsNone s.drive) τ') : Unrepeated d₀ s past' (G + τ') where
  lone := by
    have hlone := h.lone
    rw [total_add] at hlone ⊢
    omega
  missing := each_add.mpr ⟨(each_add.mp h.missing).1, hmissing⟩
  bound := h.bound
  named := h.named

theorem CopierShift.findsNone (h : CopierShift cp τ τ') (hτ : Each (Token.FindsNone d) τ) :
    Each (Token.FindsNone d) τ' := by
  cases h with
  | batch group => exact each_add.mpr ⟨hτ, each_singleton.mpr trivial⟩
  | noKey j hk => exact each_singleton.mpr fun _ _ hne => absurd hk hne
  | _ => simp_all [Token.FindsNone]

theorem Unrepeated.keeps (hpf : pf.Finds) : Keeps cp ok Always (@Unrepeated pf d₀) where
  quiet {_ _ _ _ past G} hr hs _ h := by
    rw [← add_zero G] at h ⊢
    exact h.still hpf hs (by cases hr <;> simp) each_zero
  stop τ hr hs _ h := h.still hpf hs (by cases hr <;> simp) (each_singleton.mpr rfl)
  file hr hs _ h := h.still hpf hs (by cases hr <;> simp) hr.looking
  folder hr hs _ h := hr.unrepeated hpf hs h
  list hr hs _ h := h.still hpf hs (by cases hr <;> simp) hr.looking
  store hr hs _ h := h.still hpf hs (by cases hr <;> simp) hr.looking
  run hr hs _ h := h.still hpf hs (by cases hr <;> simp) hr.looking
  solo hs _ h := by
    rw [add_comm] at h ⊢
    exact h.still hpf hs (by simp) (each_singleton.mpr rfl)
  call hc _ h := by
    cases hc with
    | enter j dest out =>
      exact h.turned (by simp [Token.looking, FolderStage.looking]) (by simp [Token.FindsNone])
  shift hc _ h := h.turned hc.looking_le (hc.findsNone (each_add.mp h.missing).2)
  env reason _ h := ⟨h.lone, h.missing, h.bound, h.named⟩

end Runs

/-- However many runs there are, from whatever sources and into whatever folders, they leave no
more than one copy of a source folder in a folder, or as many as there were at first. -/
theorem folder_copies_unrepeated {d₀ d : Drive} (hd : ¬d₀.has "")
    (h : RunsFrom (fun pf _ => pf.Finds) d₀ d) {q : FolderQuery} (hq : q.ForCopies) :
    (d.matching q).length ≤ max 1 (d₀.matching q).length := by
  suffices hboth : ¬d.has "" ∧ (d.matching q).length ≤ max 1 (d₀.matching q).length from hboth.2
  induction h with
  | none => exact ⟨hd, le_max_right _ _⟩
  | run _ pf cp hpf now hc ih =>
    obtain ⟨hnamed, hbound⟩ := ih
    obtain ⟨⟨G, hG⟩, -⟩ := (Unrepeated.keeps hpf).throughout
      ⟨by simp [Token.looking], by simp [Token.FindsNone], fun _ _ => le_max_right _ _, hnamed⟩ hc
    exact ⟨hG.named, (hG.bound q hq).trans (max_le (le_max_left _ _) hbound)⟩

/-! ## Two runs into an empty folder -/

/-- A Drive that answers every call and makes files of plain bytes. -/
def findingProfile : Profile where
  raises _ := False
  copies _ _ f _ := f.mimeType = "application/octet-stream"
  prompt := True
  hides _ _ := false

theorem findingProfile_finds : findingProfile.Finds :=
  ⟨trivial, fun _ _ h => h, fun _ _ _ _ h => by rw [h]; decide⟩

def byteCopies : Plan where
  make _ n body := { Drive.exactCopy n body with mimeType := "application/octet-stream" }

theorem byteCopies_admitted : findingProfile.Admits (fun _ => false) byteCopies :=
  ⟨fun _ h => absurd h Bool.false_ne_true, fun _ _ _ _ => rfl⟩

/-- A source with one file, and nothing in the destination. -/
def unmadeDrive : Drive where
  nodes := [folderNode "sourcefolder" "Source" [], folderNode "targetfolder" "Target" [],
    fileNode "file" "a.txt" ["sourcefolder"] "1" "m"]
  nodup := by decide

/-- A run on such a Drive. -/
def byteRun (d : Drive) : Config (smallCopier.runs (Drive.service findingProfile) anyStep)
    (Except Exc CopyResult) :=
  replay (byteCopies.script smallCopier findingProfile anyStep (fun _ => false) fun _ _ _ _ => true)
    200 (start _ smallCopier.run ⟨smallCopier.freshMem "", d⟩ [])

def onceMade : Drive := (byteRun unmadeDrive).world.state.drive

def twiceMade : Drive := (byteRun onceMade).world.state.drive

theorem byteRun_from {d₀ d : Drive} (h : RunsFrom (fun pf _ => pf.Finds) d₀ d) :
    RunsFrom (fun pf _ => pf.Finds) d₀ (byteRun d).world.state.drive :=
  .run h findingProfile smallCopier findingProfile_finds ""
    (replay_reach (Plan.legal byteCopies_admitted fun _ _ _ _ _ => trivial) 200 _)

theorem unmadeDrive_nameless : ¬unmadeDrive.has "" := by
  rintro ⟨n, hn, hid⟩
  have hids : ∀ n ∈ unmadeDrive.nodes, n.id ≠ "" := by decide
  exact hids n hn hid

theorem folder_copies_unrepeated_twice :
    (onceMade.matching (folderQuery "targetfolder" "sourcefolder" none)).length = 1 ∧
      (twiceMade.matching (folderQuery "targetfolder" "sourcefolder" none)).length ≤
        max 1 (unmadeDrive.matching (folderQuery "targetfolder" "sourcefolder" none)).length :=
  ⟨by decide +kernel, folder_copies_unrepeated unmadeDrive_nameless
    (byteRun_from (byteRun_from .none)) (.inl rfl)⟩

end TurboCopy
