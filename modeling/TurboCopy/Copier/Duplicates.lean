import TurboCopy.Copier.Deliveries
import TurboCopy.Copier.Steady
import TurboCopy.Threads.Embedding

/-!
# The bytes of the copies

On a Drive whose `files.copy` copies bytes, a new file that is tagged with the id of a file has the
bytes of that file, unless one of them has a name of the resume store.
-/

namespace TurboCopy

open Threads CopierM

/-! ## What a file is tagged with -/

/-- The tags of the node that a request adds. -/
def Request.tags : Request → Option (Dict String)
  | .copyFile _ body _ _ => some body.appProperties
  | .createFolder _ _ props => some props
  | .createJsonFile _ _ _ props => some props
  | _ => none

/-- Only a copy is tagged with the id of a file, which is the file it is a copy of. -/
def CopierOp.Tags : CopierOp → Prop
  | .mem _ => True
  | .ask q => ∀ props key, q.tags = some props → AList.lookup "source_file_id" props = some key →
    ∃ body vis rev, q = .copyFile key body vis rev

theorem lookup_folderProps_file (folderId : String) (shortcutId : Option String) :
    AList.lookup "source_file_id" (folderProps folderId shortcutId) = none := by
  have htool : AList.lookup "source_file_id"
      (AList.singleton "copied_by_tool" toolTag : Dict String) = none := by decide
  unfold folderProps
  dsimp only
  split
  · split_ifs <;> simp [AList.lookup_insert_ne, htool]
  · split_ifs <;> simp [AList.lookup_insert_ne, htool]

theorem lookup_toolProps_file : AList.lookup "source_file_id" toolProps = none := by
  decide

/-- A copy has the tags that were asked for, and the bytes of the file. -/
def Profile.CopiesBytes (pf : Profile) : Prop := ∀ n body f c, pf.copies n body f c →
  f.appProperties = body.appProperties ∧ f.size = n.file.size ∧
    f.md5Checksum = n.file.md5Checksum ∧ c = n.content

/-- The bytes of a file. -/
def Node.bytes (n : Node) : Option String × Option String × Content :=
  (n.file.size, n.file.md5Checksum, n.content)

/-- The bytes of a file, as long as no name of the store is involved. -/
def Node.SameBytes (m n : Node) : Prop :=
  isStoreName n.file.name = false → isStoreName m.file.name = false → m.bytes = n.bytes

/-- The new files have the bytes of the files they are tagged with. -/
def Drive.Duplicates (d₀ d : Drive) : Prop :=
  ∀ m ∈ d, d₀.Fresh m.id → ∀ key, AList.lookup "source_file_id" m.file.appProperties = some key →
    ∃ n ∈ d, n.id = key ∧ m.SameBytes n

namespace Drive

variable {pf : Profile} {d₀ d d' : Drive} {q : Request} {x : q.Ret} {m : Node}

/-- A node after a request was there before, or it was added with the tags of the request, and is
a copy if the request was for one. -/
theorem Serves.added (hpf : pf.CopiesBytes) (h : Serves pf q d x d') (hm : m ∈ d') :
    (∃ n ∈ d, m.core = n.core) ∨ q.tags = some m.file.appProperties ∧
      ∀ id body vis rev, q = .copyFile id body vis rev → ∃ n ∈ d', n.id = id ∧ m.bytes = n.bytes := by
  have hedit {id : String} {f : Node → Node} {hf : ∀ n, (f n).id = n.id}
      (hm : m ∈ d.edit id f hf) (hcore : ∀ n, (f n).core = n.core) : ∃ n ∈ d, m.core = n.core := by
    obtain ⟨n, hn, rfl⟩ := mem_edit.mp hm
    refine ⟨n, hn, ?_⟩
    split_ifs
    · exact hcore n
    · rfl
  cases h with
  | raised e he hx => exact .inl ⟨m, hm, rfl⟩
  | granted hg =>
    cases hg with
    | copyFile _ n hn body vis rev f c hf hc hp =>
      rcases mem_add.mp hm with rfl | hm
      · obtain ⟨htags, hsize, hmd5, rfl⟩ := hpf n body f c hc
        refine .inr ⟨congrArg some htags.symm, ?_⟩
        rintro id body vis rev ⟨⟩
        exact ⟨n, mem_add.mpr (.inr hn), rfl, by rw [Node.bytes, hsize, hmd5, Node.bytes]⟩
      · exact .inl ⟨m, hm, rfl⟩
    | createFolder =>
      rcases mem_add.mp hm with rfl | hm
      · exact .inr ⟨rfl, by rintro _ _ _ _ ⟨⟩⟩
      · exact .inl ⟨m, hm, rfl⟩
    | createJsonFile =>
      rcases mem_add.mp hm with rfl | hm
      · exact .inr ⟨rfl, by rintro _ _ _ _ ⟨⟩⟩
      · exact .inl ⟨m, hm, rfl⟩
    | updateFileContent => exact .inl (hedit hm fun _ => rfl)
    | trashFile => exact .inl (hedit hm fun _ => rfl)
    | _ => exact .inl ⟨m, hm, rfl⟩

/-- Files that have not changed, or have a name of the store, still have the same bytes. -/
theorem Duplicates.later (h : d₀.Duplicates d) (hd : d.Upholds d') (hm : m ∈ d')
    (hold : ∃ n ∈ d, m.core = n.core) (hfresh : d₀.Fresh m.id) {key : String}
    (hkey : AList.lookup "source_file_id" m.file.appProperties = some key) :
    ∃ n ∈ d', n.id = key ∧ m.SameBytes n := by
  obtain ⟨m₀, hm₀, hcore⟩ := hold
  have hid := Node.id_of_core hcore
  rw [hid] at hfresh
  rw [(Node.tagged_of_core hcore).2] at hkey
  obtain ⟨n₀, hn₀, rfl, hbytes⟩ := h m₀ hm₀ hfresh key hkey
  obtain ⟨n, hn, hncore, hnsame⟩ := hd n₀ hn₀
  refine ⟨n, hn, Node.id_of_core hncore, fun hnname hmname => ?_⟩
  rw [Node.name_of_core hncore] at hnname
  rw [Node.name_of_core hcore] at hmname
  obtain ⟨m', hm', hmcore, hmsame⟩ := hd m₀ hm₀
  have hm : m = m₀ := by
    rw [← hmsame hmname]
    exact eq_of_id hm hm' (hid.trans (Node.id_of_core hmcore).symm)
  rw [hm, hnsame hnname]
  exact hbytes hnname hmname

end Drive

/-! ## Runs -/

section Runs

variable {pf : Profile} {cp : Copier} {d₀ d : Drive} {past : List (Event copierSig)}
  {s s' : Site (Drive.service pf)} {o : CopierOp} {x : o.Out} {G τ τ' : Multiset Token}
  {source destParent : String} {ok : StepCondition (Drive.service pf)}

theorem QuietRule.tags (h : QuietRule o x) : o.Tags := by
  cases h <;> simp [CopierOp.Tags, Request.tags]

theorem StopRule.tags (h : StopRule o x) : o.Tags := by
  cases h <;> trivial

theorem FileRule.tags (h : FileRule cp o x τ τ') : o.Tags := by
  have hcopy (j : FileJob) (vis rev : Bool) : CopierOp.Tags
      (.ask (.copyFile j.src.id (cp.copyBody j.dest j.src j.shortcutId) vis rev)) := by
    rintro _ key ⟨⟩ hkey
    have hfile : some j.src.id = some key := (lookup_copyProps_file _ _).symm.trans hkey
    obtain rfl := Option.some.inj hfile
    exact ⟨_, vis, rev, rfl⟩
  cases h with
  | copied j vis rev newId => exact hcopy j vis rev
  | refused j vis rev e => exact hcopy j vis rev
  | _ => simp [CopierOp.Tags, Request.tags]

theorem FolderRule.tags (h : FolderRule cp o x τ τ') : o.Tags := by
  have hfolder (name p folderId : String) (shortcutId : Option String) : CopierOp.Tags
      (.ask (.createFolder name p (folderProps folderId shortcutId))) := by
    rintro _ key ⟨⟩ hkey
    rw [lookup_folderProps_file] at hkey
    cases hkey
  cases h with
  | made => exact hfolder _ _ _ _
  | unnamed => exact hfolder _ _ _ _
  | denied => exact hfolder _ _ _ _
  | _ => simp [CopierOp.Tags, Request.tags]

theorem ListRule.tags (h : ListRule cp o x τ τ') : o.Tags := by
  cases h <;> simp [CopierOp.Tags, Request.tags]

theorem StoreRule.tags (h : StoreRule cp o x τ τ') : o.Tags := by
  have hjson (name p : String) (data : Content) :
      CopierOp.Tags (.ask (.createJsonFile name p data toolProps)) := by
    rintro _ key ⟨⟩ hkey
    rw [lookup_toolProps_file] at hkey
    cases hkey
  cases h with
  | create => exact hjson _ _ _
  | notCreated => exact hjson _ _ _
  | newReport => exact hjson _ _ _
  | _ => simp [CopierOp.Tags, Request.tags]

theorem RunRule.tags (h : RunRule cp source destParent o x τ τ') : o.Tags := by
  cases h <;> simp [CopierOp.Tags, Request.tags]

theorem Drive.Duplicates.did (hpf : pf.CopiesBytes) (h : d₀.Duplicates s.drive)
    (hs : s.Step ok o x s') (ho : o.Tags) (hd : Drive.Upholds s.drive s'.drive) :
    d₀.Duplicates s'.drive := by
  intro m hm hfresh key hkey
  cases o with
  | mem o =>
    obtain ⟨-, rfl, -⟩ := hs
    exact h m hm hfresh key hkey
  | ask q =>
    rcases Drive.Serves.added hpf hs.1 hm with hold | ⟨htags, hcopy⟩
    · exact h.later hd hm hold hfresh hkey
    · obtain ⟨body, vis, rev, rfl⟩ := ho _ key htags hkey
      obtain ⟨n, hn, hid, hbytes⟩ := hcopy key body vis rev rfl
      exact ⟨n, hn, hid, fun _ _ => hbytes⟩

theorem Drive.Duplicates.keeps (hpf : pf.CopiesBytes) (hd : ¬d₀.has "") :
    Keeps cp ok (@Trodden pf cp.sourceId cp.destParent d₀) fun s _ _ => d₀.Duplicates s.drive where
  quiet hr hs _ h := h.did hpf hs hr.tags (hr.upholds hs)
  stop _ hr hs _ h := h.did hpf hs hr.tags (hr.upholds hs)
  file hr hs hJ h := h.did hpf hs hr.tags (hs.upholds (hr.touches (each_add.mp hJ.tokens).2))
  folder hr hs hJ h := h.did hpf hs hr.tags (hs.upholds (hr.touches (each_add.mp hJ.tokens).2))
  list hr hs _ h := h.did hpf hs hr.tags (hr.upholds hs)
  store hr hs hJ h := h.did hpf hs hr.tags (hs.upholds (hr.touches hd (each_add.mp hJ.tokens).2))
  run hr hs hJ h := h.did hpf hs hr.tags (hs.upholds (hr.touches (each_add.mp hJ.tokens).2))
  solo hs _ h := by
    have hr : QuietRule (.mem .stopIsSet) false := .stopIsSet false
    exact h.did hpf hs hr.tags (hr.upholds hs)
  call _ _ h := h
  shift _ _ h := h
  env _ _ h := h

/-- At every moment of a real run the new files have the bytes of the files they are tagged with. -/
theorem duplicates_throughout (hplaces : pf.PlacesCopies) (hbytes : pf.CopiesBytes) (hd : ¬d.has "")
    (hdry : cp.config.dryRun = false) (now : String)
    {c : Config (cp.runs (Drive.service pf) ok) (Except Exc CopyResult)}
    (h : Reach (cp.runs (Drive.service pf) ok)
      (start (cp.runs (Drive.service pf) ok) cp.run ⟨cp.freshMem now, d⟩ []) c) :
    d.Duplicates c.world.state.drive := by
  have hstart : d.Duplicates d := fun m hm hfresh => absurd rfl (hfresh.2 m hm).1
  obtain ⟨⟨G, -, hG⟩, -⟩ := ((Trodden.keeps hdry hplaces hd).both
    (Drive.Duplicates.keeps hbytes hd)).throughout ⟨Trodden.start cp d now, hstart⟩ h
  exact hG

end Runs

end TurboCopy
