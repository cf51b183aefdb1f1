import TurboCopy.Copier.Accounts
import TurboCopy.Copier.Failures
import TurboCopy.Copier.Places

/-!
# What a run leaves alone

A run removes nothing. It changes no file but those of the resume store in a destination root, and
what it adds lies in the destination: in its parent folder, in a folder that is tagged as a copy,
or in a folder that is new itself. So a source folder that is none of these stays as it is.
-/

namespace TurboCopy

open Threads

/-! ## What a request changes -/

/-- A node without what an update of its content and the trash may change. -/
def Node.core (n : Node) : ApiFile :=
  { n.file with md5Checksum := none, size := none, trashed := false }

/-- The node that a request changes. -/
def Request.target : Request → Option String
  | .updateFileContent id _ => some id
  | .trashFile id => some id
  | _ => none

/-- The place of the node that a request adds. -/
def Request.place : Request → Option (Option String)
  | .copyFile _ body _ _ => some body.parent
  | .createFolder _ p _ => some (some p)
  | .createJsonFile _ p _ _ => some (some p)
  | _ => none

/-- Copies are made in the folder that the request names. -/
def Profile.PlacesCopies (pf : Profile) : Prop :=
  ∀ n body f c p, pf.copies n body f c → body.parent = some p → f.parents = [p]

section Core

variable {n m : Node}

theorem Node.id_of_core (h : m.core = n.core) : m.id = n.id := by
  have hid : m.core.id = n.core.id := by rw [h]
  exact hid

theorem Node.name_of_core (h : m.core = n.core) : m.file.name = n.file.name := by
  have hname : m.core.name = n.core.name := by rw [h]
  exact hname

theorem Node.parents_of_core (h : m.core = n.core) : m.file.parents = n.file.parents := by
  have hparents : m.core.parents = n.core.parents := by rw [h]
  exact hparents

/-- Nodes of one core are tagged alike. -/
theorem Node.tagged_of_core (h : m.core = n.core) :
    m.isFolder = n.isFolder ∧ m.file.appProperties = n.file.appProperties := by
  have hmime : m.core.mimeType = n.core.mimeType := by rw [h]
  have hprops : m.core.appProperties = n.core.appProperties := by rw [h]
  change m.file.mimeType = n.file.mimeType at hmime
  refine ⟨?_, hprops⟩
  rw [Node.isFolder, Node.isFolder, hmime]

end Core

namespace Drive

variable {pf : Profile} {d d' : Drive} {q : Request} {x : q.Ret} {n : Node}

theorem mem_edit_of_ne {id : String} {f : Node → Node} {hf : ∀ n, (f n).id = n.id} (hn : n ∈ d)
    (hid : n.id ≠ id) : n ∈ d.edit id f hf :=
  mem_edit.mpr ⟨n, hn, if_neg hid⟩

theorem exists_core_edit {id : String} {f : Node → Node} {hf : ∀ n, (f n).id = n.id} (hn : n ∈ d)
    (hcore : ∀ n, (f n).core = n.core) : ∃ m ∈ d.edit id f hf, m.core = n.core := by
  refine ⟨_, mem_edit.mpr ⟨n, hn, rfl⟩, ?_⟩
  split_ifs
  · exact hcore n
  · rfl

/-- A request changes no node but its target. -/
theorem Serves.kept (h : Serves pf q d x d') (hn : n ∈ d) (hq : q.target ≠ some n.id) :
    n ∈ d' := by
  cases h with
  | raised e he hx => exact hn
  | granted hg =>
    cases hg with
    | copyFile => exact mem_add.mpr (.inr hn)
    | createFolder => exact mem_add.mpr (.inr hn)
    | createJsonFile => exact mem_add.mpr (.inr hn)
    | updateFileContent => exact mem_edit_of_ne hn fun h => hq (congrArg some h.symm)
    | trashFile => exact mem_edit_of_ne hn fun h => hq (congrArg some h.symm)
    | _ => exact hn

/-- A request removes no node. -/
theorem Serves.survives (h : Serves pf q d x d') (hn : n ∈ d) : ∃ m ∈ d', m.core = n.core := by
  cases h with
  | raised e he hx => exact ⟨n, hn, rfl⟩
  | granted hg =>
    cases hg with
    | copyFile => exact ⟨n, mem_add.mpr (.inr hn), rfl⟩
    | createFolder => exact ⟨n, mem_add.mpr (.inr hn), rfl⟩
    | createJsonFile => exact ⟨n, mem_add.mpr (.inr hn), rfl⟩
    | updateFileContent => exact exists_core_edit hn fun _ => rfl
    | trashFile => exact exists_core_edit hn fun _ => rfl
    | _ => exact ⟨n, hn, rfl⟩

/-- A node after a request was there before, or it is new and where the request has put it. -/
theorem Serves.origin (hpf : pf.PlacesCopies) (h : Serves pf q d x d') (hn : n ∈ d') :
    (∃ m ∈ d, m.core = n.core) ∨
      d.Fresh n.id ∧ ∃ o, q.place = some o ∧ ∀ p, o = some p → n.file.parents = [p] := by
  have hedit {id : String} {f : Node → Node} {hf : ∀ n, (f n).id = n.id}
      (hn : n ∈ d.edit id f hf) (hcore : ∀ n, (f n).core = n.core) :
      ∃ m ∈ d, m.core = n.core := by
    obtain ⟨m, hm, rfl⟩ := mem_edit.mp hn
    refine ⟨m, hm, ?_⟩
    split_ifs
    · exact (hcore m).symm
    · rfl
  cases h with
  | raised e he hx => exact .inl ⟨n, hn, rfl⟩
  | granted hg =>
    cases hg with
    | copyFile _ src hsrc body vis rev f c hf hc hp =>
      rcases mem_add.mp hn with rfl | hn
      · exact .inr ⟨hf, _, rfl, fun p hbody => hpf _ _ _ _ p hc hbody⟩
      · exact .inl ⟨n, hn, rfl⟩
    | createFolder _ name p props id hp hf =>
      rcases mem_add.mp hn with rfl | hn
      · exact .inr ⟨hf, _, rfl, fun p' hp' => by rw [Option.some.inj hp']⟩
      · exact .inl ⟨n, hn, rfl⟩
    | createJsonFile _ name p data props id size md5 hp hf =>
      rcases mem_add.mp hn with rfl | hn
      · exact .inr ⟨hf, _, rfl, fun p' hp' => by rw [Option.some.inj hp']⟩
      · exact .inl ⟨n, hn, rfl⟩
    | updateFileContent => exact .inl (hedit hn fun _ => rfl)
    | trashFile => exact .inl (hedit hn fun _ => rfl)
    | _ => exact .inl ⟨n, hn, rfl⟩

/-- The id in the answer to the creation of a folder is new. -/
theorem Serves.madeFolder {name p : String} {props : Dict String} {id : Option String}
    (h : Serves pf (.createFolder name p props) d (.ok id) d') :
    ∃ i, id = some i ∧ d.Fresh i := by
  cases h with
  | raised e he hx => exact nomatch hx
  | granted hg =>
    cases hg with
    | createFolder _ _ _ _ i hp hf => exact ⟨i, rfl, hf⟩

/-- A file of the store that a request has created. -/
theorem Serves.madeJson {name p : String} {data : Content} {props : Dict String}
    {id : Option String} (h : Serves pf (.createJsonFile name p data props) d (.ok id) d') :
    d.has p ∧ ∃ n ∈ d', id = some n.id ∧ n.file.name = name ∧ n.file.parents = [p] := by
  cases h with
  | raised e he hx => exact nomatch hx
  | granted hg =>
    cases hg with
    | createJsonFile _ _ _ _ _ i size md5 hp hf =>
      exact ⟨hp, _, mem_add.mpr (.inl rfl), rfl, rfl, rfl⟩

/-- A folder that passes the check of `_verify_dest_folder`. -/
theorem Serves.confirmed {id key : String} {shortcutId : Option String} {data : ApiFile}
    (h : Serves pf (.getMetadata id folderFields) d (.ok data) d')
    (hcheck : isDestFolder (DriveFile.fromApi data) key shortcutId = true) :
    ∃ n ∈ d, n.id = id ∧ n.isFolder = true ∧
      AList.lookup (folderKeyName shortcutId) n.file.appProperties = some key := by
  generalize hfields : folderFields = fields at h
  cases h with
  | raised e he hx => exact nomatch hx
  | granted hg =>
    cases hg with
    | getId => exact nomatch hfields
    | getMetadata _ n hn =>
      subst hfields
      simp only [isDestFolder, Bool.and_eq_true, decide_eq_true_eq] at hcheck
      obtain ⟨⟨-, hfolder⟩, htag⟩ := hcheck
      exact ⟨n, hn, rfl, hfolder, htag⟩

/-- A folder that a search has found. -/
theorem Serves.found {parent folderId : String} {shortcutId : Option String} {size : ℕ}
    {page : Page} {f : ApiFile}
    (h : Serves pf (.search (folderQuery parent folderId shortcutId) size) d (.ok page) d')
    (hf : f ∈ page.1) : ∃ n ∈ d, n.id = f.id ∧ n.isFolder = true ∧
      AList.lookup (folderKeyName shortcutId) n.file.appProperties =
        some (orElse shortcutId folderId) := by
  cases h with
  | raised e he hx => exact nomatch hx
  | granted hg =>
    cases hg with
    | search _ _ _ _ hpage hprompt =>
      have hmem := hpage.subset (List.mem_append_left (restOf page.2) hf)
      obtain ⟨n, hn, rfl⟩ := List.mem_map.mp hmem
      obtain ⟨hn, hmatch⟩ := List.mem_filter.mp hn
      simp only [Bool.and_eq_true, decide_eq_true_eq] at hmatch
      exact ⟨n, hn, rfl, hmatch.1.2, hmatch.2⟩

/-- A file on a page is on the Drive, or the token of the page had it. -/
theorem Serves.onPage {p : String} {tok : Option PageToken} {page : Page} {f : ApiFile}
    (h : Serves pf (.listChildren p none tok) d (.ok page) d')
    (hf : f ∈ page.1 ++ restOf page.2) :
    f ∈ restOf tok ∨ ∃ n ∈ d, n.id = f.id ∧ n.file.name = f.name ∧ p ∈ n.file.parents := by
  cases h with
  | raised e he hx => exact nomatch hx
  | granted hg =>
    cases hg with
    | listChildren _ _ _ _ _ hpage =>
      cases tok with
      | some t =>
        rw [hpage.1] at hf
        exact .inl hf
      | none =>
        obtain ⟨n, hn, rfl⟩ := List.mem_map.mp (hpage.subset hf)
        obtain ⟨hn, hlive⟩ := List.mem_filter.mp hn
        simp only [Node.liveIn, Bool.and_eq_true, decide_eq_true_eq] at hlive
        exact .inr ⟨n, hn, rfl, rfl, hlive.1.2⟩

end Drive

/-- Every node of a Drive is still on another. -/
def Drive.Survives (d d' : Drive) : Prop := ∀ n ∈ d, ∃ m ∈ d', m.core = n.core

/-! ## What a run may change -/

/-- The folder is new, or tagged as the copy of a source folder or of a shortcut to one. -/
def Drive.CopyAt (d : Drive) (key : String) (shortcutId : Option String) (id : String) : Prop :=
  ¬d.has id ∨ ∃ n ∈ d, n.id = id ∧ n.isFolder = true ∧
    AList.lookup (folderKeyName shortcutId) n.file.appProperties = some key

/-- A folder in which a run may put something. -/
def Drive.Receives (d : Drive) (destParent p : String) : Prop :=
  p = destParent ∨ ∃ key shortcutId, d.CopyAt key shortcutId p

/-- A file with a name of the resume store in a copy of the source folder. -/
def StoreNode (source : String) (d : Drive) (n : Node) : Prop :=
  isStoreName n.file.name = true ∧ ∃ r ∈ n.file.parents, d.CopyAt source none r

/-- The id of a file of the store. -/
def StoreId (source : String) (d d' : Drive) (id : String) : Prop :=
  ∃ n ∈ d', n.id = id ∧ StoreNode source d n

/-- What has become of a Drive. -/
structure Spared (source destParent : String) (d d' : Drive) : Prop where
  survives : d.Survives d'
  kept : ∀ n ∈ d, n ∈ d' ∨ StoreNode source d n
  added : ∀ m ∈ d', (∃ n ∈ d, n.core = m.core) ∨
    d.Fresh m.id ∧ ∀ p ∈ m.file.parents, d.Receives destParent p

/-- What the memory of a run leads it to write to. -/
structure Points (source : String) (d d' : Drive) (mem : Mem) : Prop where
  own : ∀ id, truthy mem.ownLogFileId = some id → StoreId source d d' id
  name : ∀ name, mem.ownLogName = some name → isStoreName name = true
  root : ∀ r, mem.state.destRootId = some r → d.CopyAt source none r

/-- What an operation touches. -/
def Touches (source destParent : String) (d d' : Drive) : CopierOp → Prop
  | .mem (.setOwnLog own) => ∀ id, truthy own = some id → StoreId source d d' id
  | .mem (.setOwnLogName name) => isStoreName name = true
  | .mem (.setDestRoot dest) => ∀ r, dest = some r → d.CopyAt source none r
  | .mem _ => True
  | .ask q => (∀ id, q.target = some id → StoreId source d d' id) ∧
    ∀ o, q.place = some o → ∃ p, o = some p ∧ d.Receives destParent p

/-- A destination is a folder in which the run may put something. -/
def Drive.Lands (d : Drive) (destParent : String) (dest : Option String) : Prop :=
  ∃ p, dest = some p ∧ d.Receives destParent p

/-- What is known of the destination folder of a source folder. -/
def FolderStage.Lands (d : Drive) (j : FolderJob) : FolderStage → Prop
  | .hit id => d.CopyAt j.key j.shortcutId id
  | .made id => d.CopyAt j.key j.shortcutId id
  | .placed dest => ∃ id, dest = some id ∧ d.CopyAt j.key j.shortcutId id
  | _ => True

/-- What a thread knows of the places it works in. -/
def Treads (source destParent : String) (d d' : Drive) : Token → Prop
  | .file j _ => d.Lands destParent j.dest
  | .folder j st => d.Lands destParent j.dest ∧ st.Lands d j
  | .shortcut l _ _ => d.Lands destParent l.dest
  | .level l => d.Lands destParent l.dest
  | .indexing l _ _ => d.Lands destParent l.dest
  | .indexed l _ => d.Lands destParent l.dest
  | .rootAt r => d.CopyAt source none r
  | .scan r tok files => d.CopyAt source none r ∧
    ∀ f ∈ files ++ restOf tok, isStoreName f.name = true → StoreId source d d' f.id
  | .merging todo _ => ∀ f ∈ todo, StoreId source d d' f.id
  | .reading entry _ todo _ => ∀ f ∈ entry :: todo, StoreId source d d' f.id
  | .own entry => StoreId source d d' entry.id
  | .saving st => ∀ r, st.destRootId = some r → d.CopyAt source none r
  | .writing st own => (∀ r, st.destRootId = some r → d.CopyAt source none r) ∧
    (∀ id, truthy own.1 = some id → StoreId source d d' id) ∧
    ∀ name, own.2 = some name → isStoreName name = true
  | .logged newId => ∀ id, truthy newId = some id → StoreId source d d' id
  | _ => True

section Step

variable {source destParent : String} {d d' d'' : Drive} {mem : Mem}

theorem StoreNode.of_core {n m : Node} (h : StoreNode source d n) (hcore : m.core = n.core) :
    StoreNode source d m := by
  unfold StoreNode at h ⊢
  rwa [Node.name_of_core hcore, Node.parents_of_core hcore]

theorem StoreId.later {id : String} (h : StoreId source d d' id)
    (hd : d'.Survives d'') : StoreId source d d'' id := by
  obtain ⟨n, hn, rfl, hstore⟩ := h
  obtain ⟨m, hm, hcore⟩ := hd n hn
  exact ⟨m, hm, Node.id_of_core hcore, hstore.of_core hcore⟩

theorem Treads.later {t : Token} (h : Treads source destParent d d' t)
    (hd : d'.Survives d'') : Treads source destParent d d'' t := by
  cases t with
  | scan r tok files => exact ⟨h.1, fun f hf hname => (h.2 f hf hname).later hd⟩
  | merging todo merged => exact fun f hf => StoreId.later (h f hf) hd
  | reading entry raw todo merged => exact fun f hf => StoreId.later (h f hf) hd
  | own entry => exact StoreId.later h hd
  | writing st own => exact ⟨h.1, fun id hid => (h.2.1 id hid).later hd, h.2.2⟩
  | logged newId => exact fun id hid => StoreId.later (h id hid) hd
  | _ => exact h

theorem Points.later (h : Points source d d' mem) (hd : d'.Survives d'') :
    Points source d d'' mem :=
  ⟨fun id hid => (h.own id hid).later hd, h.name, h.root⟩

namespace Spared

/-- A node that has the id of an old one has its core. -/
theorem core_eq (h : Spared source destParent d d') {n m : Node} (hn : n ∈ d) (hm : m ∈ d')
    (hid : n.id = m.id) : m.core = n.core := by
  obtain ⟨m', hm', hcore⟩ := h.survives n hn
  have hid' : m'.id = m.id := (Node.id_of_core hcore).trans hid
  rwa [← Drive.eq_of_id hm' hm hid']

/-- A new id was new at first. -/
theorem fresh (h : Spared source destParent d d') {id : String} (hf : d'.Fresh id) :
    d.Fresh id := by
  refine ⟨hf.1, fun n hn => ?_⟩
  obtain ⟨m, hm, hcore⟩ := h.survives n hn
  have htarget : m.core.shortcutTarget = n.core.shortcutTarget := by rw [hcore]
  change m.file.shortcutTarget = n.file.shortcutTarget at htarget
  rw [← Node.id_of_core hcore, ← Node.parents_of_core hcore, ← htarget]
  exact hf.2 m hm

theorem fresh_has {id : String} (hf : d.Fresh id) : ¬d.has id := by
  rintro ⟨n, hn, hid⟩
  exact (hf.2 n hn).1 hid

/-- A tagged folder of the Drive was tagged before, or it is new. -/
theorem copyAt (h : Spared source destParent d d') {n : Node} (hn : n ∈ d') {key : String}
    {shortcutId : Option String} (hfolder : n.isFolder = true)
    (htag : AList.lookup (folderKeyName shortcutId) n.file.appProperties = some key) :
    d.CopyAt key shortcutId n.id := by
  by_cases hhas : d.has n.id
  · obtain ⟨m, hm, hid⟩ := hhas
    obtain ⟨hfolder', hprops⟩ := Node.tagged_of_core (h.core_eq hm hn hid)
    rw [hfolder'] at hfolder
    rw [hprops] at htag
    exact .inr ⟨m, hm, hid, hfolder, htag⟩
  · exact .inl hhas

/-- A request for a file of the store, or one that puts something into the destination. -/
theorem serves {pf : Profile} (hpf : pf.PlacesCopies) (h : Spared source destParent d d')
    {q : Request} {x : q.Ret} (hs : Drive.Serves pf q d' x d'')
    (hq : Touches source destParent d d' (.ask q)) : Spared source destParent d d'' where
  survives n hn := by
    obtain ⟨m, hm, hcore⟩ := h.survives n hn
    obtain ⟨m', hm', hcore'⟩ := hs.survives hm
    exact ⟨m', hm', hcore'.trans hcore⟩
  kept n hn := by
    rcases h.kept n hn with hmem | hstore
    · by_cases htarget : q.target = some n.id
      · obtain ⟨m, hm, hid, hstore⟩ := hq.1 _ htarget
        rw [Drive.eq_of_id hm hmem hid] at hstore
        exact .inr hstore
      · exact .inl (hs.kept hmem htarget)
    · exact .inr hstore
  added m hm := by
    rcases hs.origin hpf hm with ⟨m', hm', hcore⟩ | ⟨hfresh, o, hplace, hparents⟩
    · rcases h.added m' hm' with ⟨n, hn, hcore'⟩ | ⟨hnew, hin⟩
      · exact .inl ⟨n, hn, hcore'.trans hcore⟩
      · refine .inr ⟨?_, ?_⟩
        · rwa [← Node.id_of_core hcore]
        · rwa [← Node.parents_of_core hcore]
    · obtain ⟨p, rfl, hp⟩ := hq.2 o hplace
      refine .inr ⟨h.fresh hfresh, fun p' hp' => ?_⟩
      rw [hparents p rfl, List.mem_singleton] at hp'
      rwa [hp']

theorem nameless (h : Spared source destParent d d') (hd : ¬d.has "") : ¬d'.has "" := by
  rintro ⟨m, hm, hid⟩
  rcases h.added m hm with ⟨n, hn, hcore⟩ | ⟨hnew, -⟩
  · exact hd ⟨n, hn, (Node.id_of_core hcore).trans hid⟩
  · exact hnew.1 hid

end Spared

def MemOp.movesPlace : MemOp → Bool
  | .setOwnLog _ => true
  | .setOwnLogName _ => true
  | .setDestRoot _ => true
  | _ => false

/-- The other operations leave the log and the destination root where they are. -/
theorem Mem.exec_places (m : Mem) {o : MemOp} (h : o.movesPlace = false) :
    (m.exec o).2.ownLogFileId = m.ownLogFileId ∧ (m.exec o).2.ownLogName = m.ownLogName ∧
      (m.exec o).2.state.destRootId = m.state.destRootId := by
  cases o with
  | trustResume i eff src => simp only [exec]; split <;> exact ⟨rfl, rfl, rfl⟩
  | popMatch i src mode allow eff => simp only [exec]; split <;> exact ⟨rfl, rfl, rfl⟩
  | reserve max size reason => simp only [exec]; split_ifs <;> exact ⟨rfl, rfl, rfl⟩
  | beginSave force => simp only [exec]; split_ifs <;> exact ⟨rfl, rfl, rfl⟩
  | setOwnLog id => cases h
  | setOwnLogName name => cases h
  | setDestRoot id => cases h
  | _ => exact ⟨rfl, rfl, rfl⟩

theorem Points.exec (h : Points source d d' mem) {o : MemOp}
    (ho : Touches source destParent d d' (.mem o)) : Points source d d' (mem.exec o).2 := by
  cases hmoves : o.movesPlace with
  | false =>
    obtain ⟨hown, hname, hroot⟩ := Mem.exec_places mem hmoves
    constructor
    · rw [hown]
      exact h.own
    · rw [hname]
      exact h.name
    · rw [hroot]
      exact h.root
  | true =>
    cases o with
    | setOwnLog own => exact ⟨ho, h.name, h.root⟩
    | setOwnLogName name => exact ⟨h.own, fun _ hn => Option.some.inj hn ▸ ho, h.root⟩
    | setDestRoot r => exact ⟨h.own, h.name, ho⟩
    | _ => cases hmoves

theorem isStoreName_logNameFor (account : Option String) :
    isStoreName (logNameFor account) = true := by
  rw [isStoreName, startsWith_logNameFor]
  rfl

/-- The name under which a log is created. -/
theorem isStoreName_orElse {own account : Option String}
    (h : ∀ name, own = some name → isStoreName name = true) :
    isStoreName (orElse own (logNameFor account)) = true := by
  unfold orElse
  cases hown : truthy own with
  | none => exact isStoreName_logNameFor account
  | some name => exact h name (truthy_eq_some.mp hown).1

end Step

/-! ## Runs -/

section Runs

variable {pf : Profile} {cp : Copier} {d d' d'' : Drive} {past : List (Event copierSig)}
  {s s' : Site (Drive.service pf)} {o : CopierOp} {x : o.Out} {G τ τ' : Multiset Token}
  {source destParent : String}

/-- The invariant of a run that started on the Drive `d`. -/
structure Trodden (source destParent : String) (d : Drive) (s : Site (Drive.service pf))
    (past : List (Event copierSig)) (G : Multiset Token) : Prop where
  drive : Spared source destParent d s.drive
  mem : Points source d s.drive s.mem
  tokens : Each (Treads source destParent d s.drive) G

/-- No request of a step removes a node. -/
theorem Site.Step.survives {ok : StepCondition (Drive.service pf)} (hs : s.Step ok o x s') :
    Drive.Survives s.drive s'.drive := by
  cases o with
  | mem o =>
    obtain ⟨-, rfl, -⟩ := hs
    exact fun n hn => ⟨n, hn, rfl⟩
  | ask q => exact fun n hn => Drive.Serves.survives hs.1 hn

theorem treads_entry {l : Level} {index : ℕ} {src : DriveFile}
    (h : d.Lands destParent l.dest) : Treads source destParent d d' (.entry l index src) := by
  unfold Token.entry
  split_ifs
  · exact h
  · exact ⟨h, trivial⟩
  · exact h

theorem treads_target {l : Level} {index : ℕ} {src target : DriveFile}
    (h : d.Lands destParent l.dest) :
    Treads source destParent d d' (.target l index src target) := by
  unfold Token.target
  split_ifs
  · exact ⟨h, trivial⟩
  · exact h

/-- A step of a thread that holds `τ` before it and `τ'` after it. -/
theorem Trodden.did {ok : StepCondition (Drive.service pf)} (hpf : pf.PlacesCopies)
    (hs : s.Step ok o x s') (h : Trodden source destParent d s past (G + τ))
    (htouches : Each (Treads source destParent d s.drive) τ →
      Touches source destParent d s.drive o)
    (htreads : Spared source destParent d s.drive → Points source d s.drive s.mem →
      Each (Treads source destParent d s.drive) τ →
      Each (Treads source destParent d s'.drive) τ') :
    Trodden source destParent d s' (.did o x :: past) (G + τ') := by
  obtain ⟨hdrive, hmem, hG⟩ := h
  rw [each_add] at hG
  have ho := htouches hG.2
  have hlater := hs.survives
  have htokens := each_add.mpr
    ⟨hG.1.mono fun _ ht => ht.later hlater, htreads hdrive hmem hG.2⟩
  cases o with
  | mem o =>
    obtain ⟨-, rfl, -⟩ := hs
    exact ⟨hdrive, hmem.exec ho, htokens⟩
  | ask q =>
    refine ⟨hdrive.serves hpf hs.1 ho, ?_, htokens⟩
    rw [hs.2.1]
    exact hmem.later hlater

theorem QuietRule.touches (h : QuietRule o x) : Touches source destParent d d' o := by
  cases h with
  | setOwnLogName account u => exact isStoreName_logNameFor account
  | _ => simp [Touches, Request.target, Request.place]

theorem StopRule.touches (h : StopRule o x) : Touches source destParent d d' o := by
  cases h <;> trivial

theorem ListRule.touches (h : ListRule cp o x τ τ') : Touches source destParent d d' o := by
  cases h <;> simp [Touches, Request.target, Request.place]

theorem FileRule.touches (h : FileRule cp o x τ τ') (hτ : Each (Treads source destParent d d') τ) :
    Touches source destParent d d' o := by
  cases h with
  | copied j vis rev newId =>
    obtain ⟨p, hp, hin⟩ := each_singleton.mp hτ
    exact ⟨by simp [Request.target], fun _ ho => ⟨p, (Option.some.inj ho).symm.trans hp, hin⟩⟩
  | refused j vis rev e =>
    obtain ⟨p, hp, hin⟩ := each_singleton.mp hτ
    exact ⟨by simp [Request.target], fun _ ho => ⟨p, (Option.some.inj ho).symm.trans hp, hin⟩⟩
  | _ => simp [Touches, Request.target, Request.place]

theorem FolderRule.touches (h : FolderRule cp o x τ τ')
    (hτ : Each (Treads source destParent d d') τ) : Touches source destParent d d' o := by
  have hmakes {j : FolderJob} {p : String} (hp : j.dest = some p)
      (hj : d.Lands destParent j.dest) : Touches source destParent d d'
        (.ask (.createFolder j.name p (folderProps j.folderId j.shortcutId))) := by
    obtain ⟨p', hp', hin⟩ := hj
    obtain rfl : p = p' := Option.some.inj (hp.symm.trans hp')
    exact ⟨by simp [Request.target], fun _ ho => ⟨p, (Option.some.inj ho).symm, hin⟩⟩
  cases h with
  | made j p id hp => exact hmakes hp (each_singleton.mp hτ).1
  | unnamed j p id hp => exact hmakes hp (each_singleton.mp hτ).1
  | denied j p e hp => exact hmakes hp (each_singleton.mp hτ).1
  | _ => simp [Touches, Request.target, Request.place]

theorem StoreRule.touches (hd : ¬d.has "") (h : StoreRule cp o x τ τ')
    (hτ : Each (Treads source destParent d d') τ) : Touches source destParent d d' o := by
  have hcreates {st : ResumeState} {own : Option String × Option String} {name : String}
      {data : Content} (ht : Treads source destParent d d' (.writing st own)) :
      Touches source destParent d d'
        (.ask (.createJsonFile name (st.destRootId.getD "") data toolProps)) := by
    refine ⟨by simp [Request.target], fun _ ho => ⟨_, (Option.some.inj ho).symm, ?_⟩⟩
    cases hroot : st.destRootId with
    | none => exact .inr ⟨source, none, .inl hd⟩
    | some r => exact .inr ⟨source, none, ht.1 r hroot⟩
  have hscan {r : String} {tok : Option PageToken} {files : List ApiFile} {f : ApiFile}
      (ht : Treads source destParent d d' (.scan r tok files)) (hf : f ∈ files)
      (hname : isStoreName f.name = true) : StoreId source d d' f.id :=
    ht.2 f (List.mem_append_left _ hf) hname
  cases h with
  | owned entry u =>
    have hentry : StoreId source d d' entry.id := each_singleton.mp hτ
    intro id hid
    rwa [← Option.some.inj (truthy_eq_some.mp hid).1]
  | update st own id r hid =>
    exact ⟨fun _ h => Option.some.inj h ▸ (each_singleton.mp hτ).2.1 id hid,
      by simp [Request.place]⟩
  | create st own newId hid => exact hcreates (each_singleton.mp hτ)
  | notCreated st own e hid => exact hcreates (each_singleton.mp hτ)
  | logged newId u => exact each_singleton.mp hτ
  | report r tok files f now res y hf hn ho =>
    have hname : isStoreName f.name = true := by simp [isStoreName, hn]
    have hid := hscan (each_singleton.mp (each_cons.mp hτ).2) hf hname
    exact ⟨fun _ h => Option.some.inj h ▸ hid, by simp [Request.place]⟩
  | newReport r tok files now res y =>
    have hcopy := (each_singleton.mp (each_cons.mp hτ).2).1
    exact ⟨by simp [Request.target],
      fun _ ho => ⟨r, (Option.some.inj ho).symm, .inr ⟨_, _, hcopy⟩⟩⟩
  | trash r tok files f y hf ho hn =>
    have hid := hscan (each_singleton.mp hτ) hf hn
    exact ⟨fun _ h => Option.some.inj h ▸ hid, by simp [Request.place]⟩
  | _ => simp [Touches, Request.target, Request.place]

theorem RunRule.touches (h : RunRule cp source destParent o x τ τ')
    (hτ : Each (Treads source destParent d d') τ) : Touches source destParent d d' o := by
  cases h with
  | destRoot name r u =>
    obtain ⟨id, rfl, hcopy⟩ := (each_singleton.mp hτ).2
    intro r hr
    rwa [← Option.some.inj hr]
  | _ => simp [Touches, Request.target, Request.place]

theorem FileRule.treads (h : FileRule cp o x τ τ') (hτ : Each (Treads source destParent d d') τ) :
    Each (Treads source destParent d d'') τ' := by
  cases h <;> simp_all [Treads]

theorem FolderRule.treads {ok : StepCondition (Drive.service pf)} (h : FolderRule cp o x τ τ')
    (hs : s.Step ok o x s') (hdrive : Spared source destParent d s.drive)
    (hτ : Each (Treads source destParent d s.drive) τ) :
    Each (Treads source destParent d s'.drive) τ' := by
  have hplaced {j : FolderJob} {id : String} (hj : d.Lands destParent j.dest)
      (hcopy : d.CopyAt j.key j.shortcutId id) :
      Each (Treads source destParent d s'.drive) {.idle, .folder j (.placed (some id))} :=
    each_cons.mpr ⟨trivial, each_singleton.mpr ⟨hj, id, rfl, hcopy⟩⟩
  cases h with
  | confirmed j c data hcheck =>
    obtain ⟨n, hn, rfl, hfolder, htag⟩ := Drive.Serves.confirmed hs.1 hcheck
    exact hplaced (each_singleton.mp hτ).1 (hdrive.copyAt hn hfolder htag)
  | hit j p f rest tok hp hid =>
    obtain ⟨g, hg, hfirst⟩ := firstById_mem f rest
    obtain ⟨n, hn, hnid, hfolder, htag⟩ := Drive.Serves.found hs.1 hg
    refine each_singleton.mpr ⟨(each_singleton.mp hτ).1, ?_⟩
    rw [FolderStage.Lands, ← hfirst, ← hnid]
    exact hdrive.copyAt hn hfolder htag
  | found j p id u hp => exact hplaced (each_singleton.mp hτ).1 (each_singleton.mp hτ).2
  | made j p id hp hd hid hk =>
    obtain ⟨i, hi, hfresh⟩ := Drive.Serves.madeFolder hs.1
    refine each_singleton.mpr ⟨(each_singleton.mp hτ).1, ?_⟩
    rw [FolderStage.Lands, Option.some.inj hi]
    exact .inl (Spared.fresh_has (hdrive.fresh hfresh))
  | unnamed j p id hp hd hid =>
    obtain ⟨i, rfl, hfresh⟩ := Drive.Serves.madeFolder hs.1
    exact hplaced (each_singleton.mp hτ).1 (.inl (Spared.fresh_has (hdrive.fresh hfresh)))
  | mapped j p id u hp => exact hplaced (each_singleton.mp hτ).1 (each_singleton.mp hτ).2
  | _ => simp_all [Treads, FolderStage.Lands]

theorem ListRule.treads (h : ListRule cp o x τ τ') (hτ : Each (Treads source destParent d d') τ) :
    Each (Treads source destParent d d'') τ' := by
  cases h with
  | multiLast group out tok files => exact each_map.mpr fun _ _ => trivial
  | index l items i => exact each_map.mpr fun _ _ => treads_entry (each_singleton.mp hτ)
  | resolved l index src target data ht =>
    exact each_singleton.mpr (treads_target (each_singleton.mp hτ))
  | _ => simp_all [Treads]

theorem StoreRule.treads {ok : StepCondition (Drive.service pf)} (h : StoreRule cp o x τ τ')
    (hs : s.Step ok o x s') (hdrive : Spared source destParent d s.drive)
    (hmem : Points source d s.drive s.mem) (hd : ¬d.has "")
    (hτ : Each (Treads source destParent d s.drive) τ) :
    Each (Treads source destParent d s'.drive) τ' := by
  have hgrown : Each (Treads source destParent d s'.drive) τ :=
    hτ.mono fun _ ht => ht.later hs.survives
  cases h with
  | scanPage r tok files fs t =>
    obtain ⟨hr, hfiles⟩ := each_singleton.mp hgrown
    refine each_singleton.mpr ⟨hr, fun f hf hname => ?_⟩
    rw [List.append_assoc] at hf
    rcases List.mem_append.mp hf with hf | hf
    · exact hfiles f (List.mem_append_left _ hf) hname
    · rcases Drive.Serves.onPage hs.1 hf with hold | ⟨n, hn, hid, hnname, hin⟩
      · exact hfiles f (List.mem_append_right _ hold) hname
      · have hfile : StoreId source d s.drive f.id :=
          ⟨n, hn, hid, by rwa [hnname], r, hin, hr⟩
        exact hfile.later hs.survives
  | read entry todo merged raw =>
    have hentries := each_singleton.mp hgrown
    exact each_singleton.mpr hentries
  | snapshot now st =>
    obtain ⟨rfl, -, -⟩ := hs
    exact each_singleton.mpr hmem.root
  | ownLog st own =>
    obtain ⟨rfl, rfl, -⟩ := hs
    exact each_singleton.mpr ⟨each_singleton.mp hτ, hmem.own, hmem.name⟩
  | create st own newId hid =>
    obtain ⟨hroot, -, hname⟩ := each_singleton.mp hτ
    obtain ⟨hhas, n, hn, rfl, hnname, hparents⟩ := Drive.Serves.madeJson hs.1
    refine each_singleton.mpr fun id hi => ⟨n, hn, ?_, ?_, ?_⟩
    · exact Option.some.inj (truthy_eq_some.mp hi).1
    · rw [hnname]
      exact isStoreName_orElse hname
    · cases hdest : st.destRootId with
      | none =>
        rw [hdest] at hhas
        exact absurd hhas (hdrive.nameless hd)
      | some r =>
        rw [hdest] at hparents
        exact ⟨r, by rw [hparents]; exact List.mem_singleton_self r, hroot r hdest⟩
  | report r tok files f now res y hf hn ho => exact (each_cons.mp hgrown).2
  | newReport r tok files now res y => exact (each_cons.mp hgrown).2
  | trash r tok files f y hf ho hn => exact hgrown
  | _ => exact each_zero

theorem RunRule.treads (h : RunRule cp source destParent o x τ τ')
    (hτ : Each (Treads source destParent d d') τ) :
    Each (Treads source destParent d d'') τ' := by
  cases h with
  | begin data => exact each_singleton.mpr ⟨⟨destParent, rfl, .inl rfl⟩, trivial⟩
  | destRoot name r u =>
    have hplace := each_singleton.mp hτ
    obtain ⟨id, rfl, hcopy⟩ := hplace.2
    refine each_add.mpr ⟨each_singleton.mpr hplace, ?_⟩
    unfold rootTokens
    split
    · rename_i r hr
      obtain rfl := Option.some.inj (truthy_eq_some.mp hr).1
      exact each_singleton.mpr hcopy
    · exact each_zero
  | completed u => exact each_zero
  | returned r => exact each_singleton.mpr trivial

theorem CopierShift.treads (hdry : cp.config.dryRun = false) (h : CopierShift cp τ τ')
    (hτ : Each (Treads source destParent d d') τ) : Each (Treads source destParent d d') τ' := by
  cases h with
  | noDest j hnone =>
    obtain ⟨⟨p, hp, -⟩, -⟩ := each_singleton.mp hτ
    exact absurd (hnone.symm.trans hp) (by simp)
  | dry j hd => exact absurd (hdry.symm.trans hd) (by simp)
  | batch group => exact each_add.mpr ⟨hτ, each_singleton.mpr trivial⟩
  | scan r =>
    have hr := each_singleton.mp hτ
    exact each_cons.mpr ⟨hr, each_singleton.mpr ⟨hr, by simp [restOf]⟩⟩
  | merge r tok account created updated files =>
    refine each_singleton.mpr fun f hf => ?_
    obtain ⟨hf, hname⟩ := List.mem_filter.mp hf
    exact (each_singleton.mp hτ).2 f (List.mem_append_left _ hf) (by simp [isStoreName, hname])
  | merged entry raw todo merged account now st hread =>
    have hentries := each_singleton.mp hτ
    exact each_cons.mpr ⟨fun f hf => hentries f (List.mem_cons_of_mem _ hf),
      each_singleton.mpr (hentries entry List.mem_cons_self)⟩
  | _ => simp_all [Treads, FolderStage.Lands]

theorem Trodden.keeps {ok : StepCondition (Drive.service pf)} (hdry : cp.config.dryRun = false)
    (hpf : pf.PlacesCopies) (hd : ¬d.has "") :
    Keeps cp ok Always (@Trodden pf cp.sourceId cp.destParent d) where
  quiet {_ _ _ _ past G} hr hs _ h := by
    rw [← add_zero G] at h ⊢
    exact h.did hpf hs (fun _ => hr.touches) fun _ _ _ => each_zero
  stop τ hr hs _ h :=
    h.did hpf hs (fun _ => hr.touches) fun _ _ _ => each_singleton.mpr trivial
  file hr hs _ h := h.did hpf hs hr.touches fun _ _ => hr.treads
  folder hr hs _ h := h.did hpf hs hr.touches fun hdrive _ => hr.treads hs hdrive
  list hr hs _ h := h.did hpf hs (fun _ => hr.touches) fun _ _ => hr.treads
  store hr hs _ h :=
    h.did hpf hs (hr.touches hd) fun hdrive hmem => hr.treads hs hdrive hmem hd
  run hr hs _ h := h.did hpf hs hr.touches fun _ _ => hr.treads
  solo {_ _ _ root} hs _ h := by
    rw [add_comm] at h ⊢
    exact h.did hpf hs (fun _ => trivial) fun _ _ _ => each_singleton.mpr trivial
  call hc _ h := by
    obtain ⟨hdrive, hmem, hG⟩ := h
    rw [each_add] at hG
    refine ⟨hdrive, hmem, each_add.mpr ⟨hG.1, ?_⟩⟩
    cases hc with
    | enter j dest out =>
      obtain ⟨-, id, rfl, hcopy⟩ := (each_cons.mp (each_cons.mp hG.2).2).1
      exact each_cons.mpr ⟨trivial, each_singleton.mpr ⟨id, rfl, .inr ⟨_, _, hcopy⟩⟩⟩
  shift hc _ h := by
    obtain ⟨hdrive, hmem, hG⟩ := h
    rw [each_add] at hG
    exact ⟨hdrive, hmem, each_add.mpr ⟨hG.1, hc.treads hdry hG.2⟩⟩
  env reason _ h := ⟨h.drive, ⟨h.mem.own, h.mem.name, h.mem.root⟩, h.tokens⟩

theorem Spared.refl (source destParent : String) (d : Drive) : Spared source destParent d d :=
  ⟨fun n hn => ⟨n, hn, rfl⟩, fun _ hn => .inl hn, fun m hm => .inl ⟨m, hm, rfl⟩⟩

theorem Trodden.start (cp : Copier) (d : Drive) (now : String) :
    @Trodden pf cp.sourceId cp.destParent d ⟨cp.freshMem now, d⟩ [] {.idle, .begin} where
  drive := .refl _ _ d
  mem := ⟨fun _ h => absurd h (by simp [Copier.freshMem]),
    fun _ h => absurd h (by simp [Copier.freshMem]),
    fun _ h => absurd h (by simp [Copier.freshMem])⟩
  tokens := each_cons.mpr ⟨trivial, each_singleton.mpr trivial⟩

/-- One run, dry or real, from the Drive `d`. -/
theorem run_spares {ok : StepCondition (Drive.service pf)} (hpf : pf.PlacesCopies) (hd : ¬d.has "")
    {now : String} {c : Config (cp.runs (Drive.service pf) ok) (Except Exc CopyResult)}
    (h : Reach (cp.runs (Drive.service pf) ok)
      (start (cp.runs (Drive.service pf) ok) cp.run ⟨cp.freshMem now, d⟩ []) c) :
    Spared cp.sourceId cp.destParent d c.world.state.drive := by
  cases hdry : cp.config.dryRun with
  | true =>
    rw [(@dry_run_tells_nothing cp.sha256 ∅ pf cp d now ok c hdry h).1]
    exact .refl _ _ d
  | false =>
    obtain ⟨⟨G, hG⟩, -⟩ := (Trodden.keeps hdry hpf hd).throughout (Trodden.start cp d now) h
    exact hG.drive

end Runs

/-! ## Sequences of runs -/

/-- Runs of copiers, one after the other, from the Drive `d₀` to the Drive `d`. Each starts with an
empty memory, and ends or is interrupted. -/
inductive RunsFrom (P : Profile → Copier → Prop) (d₀ : Drive) : Drive → Prop
  | none : RunsFrom P d₀ d₀
  | run {d : Drive} (h : RunsFrom P d₀ d) (pf : Profile) (cp : Copier) (hP : P pf cp) (now : String)
      {c : Config (cp.runs (Drive.service pf) anyStep) (Except Exc CopyResult)}
      (hc : Reach (cp.runs (Drive.service pf) anyStep)
        (start (cp.runs (Drive.service pf) anyStep) cp.run ⟨cp.freshMem now, d⟩ []) c) :
      RunsFrom P d₀ c.world.state.drive

/-- Runs of any copiers from one source folder into one destination parent. -/
abbrev RunsInto (source destParent : String) : Drive → Drive → Prop :=
  RunsFrom fun pf cp => pf.PlacesCopies ∧ cp.sourceId = source ∧ cp.destParent = destParent

section Sequences

variable {source destParent : String} {d₀ d d' : Drive}

namespace Spared

/-- A copy on the later Drive is one on the earlier. -/
theorem copyAt_earlier (h : Spared source destParent d₀ d) {key p : String}
    {shortcutId : Option String} (hp : d.CopyAt key shortcutId p) :
    d₀.CopyAt key shortcutId p := by
  rcases hp with hnew | ⟨n, hn, rfl, hfolder, htag⟩
  · refine .inl ?_
    rintro ⟨n, hn, rfl⟩
    obtain ⟨m, hm, hcore⟩ := h.survives n hn
    exact hnew ⟨m, hm, Node.id_of_core hcore⟩
  · exact h.copyAt hn hfolder htag

theorem receives_earlier (h : Spared source destParent d₀ d) {p : String}
    (hp : d.Receives destParent p) : d₀.Receives destParent p := by
  rcases hp with rfl | ⟨key, shortcutId, hcopy⟩
  · exact .inl rfl
  · exact .inr ⟨key, shortcutId, h.copyAt_earlier hcopy⟩

theorem trans (h : Spared source destParent d₀ d) (h' : Spared source destParent d d') :
    Spared source destParent d₀ d' where
  survives n hn := by
    obtain ⟨m, hm, hcore⟩ := h.survives n hn
    obtain ⟨m', hm', hcore'⟩ := h'.survives m hm
    exact ⟨m', hm', hcore'.trans hcore⟩
  kept n hn := by
    rcases h.kept n hn with hmem | hstore
    · rcases h'.kept n hmem with hmem | ⟨hname, r, hr, hcopy⟩
      · exact .inl hmem
      · exact .inr ⟨hname, r, hr, h.copyAt_earlier hcopy⟩
    · exact .inr hstore
  added m hm := by
    rcases h'.added m hm with ⟨n, hn, hcore⟩ | ⟨hnew, hin⟩
    · rcases h.added n hn with ⟨n', hn', hcore'⟩ | ⟨hnew, hin⟩
      · exact .inl ⟨n', hn', hcore'.trans hcore⟩
      · rw [Node.id_of_core hcore] at hnew
        rw [Node.parents_of_core hcore] at hin
        exact .inr ⟨hnew, hin⟩
    · exact .inr ⟨h.fresh hnew, fun p hp => h.receives_earlier (hin p hp)⟩

end Spared

/-- What each run spares, all runs spare. -/
theorem RunsFrom.spares (hd : ¬d₀.has "") (h : RunsInto source destParent d₀ d) :
    Spared source destParent d₀ d := by
  induction h with
  | none => exact .refl _ _ _
  | run _ pf cp hP now hc ih =>
    obtain ⟨hpf, rfl, rfl⟩ := hP
    exact ih.trans (run_spares hpf (ih.nameless hd) hc)

/-- Whatever the runs, nothing is removed, what is changed is a file of the resume store in a copy
of the source, and what is added is new and in the destination. -/
theorem nodes_spared (hd : ¬d₀.has "") (h : RunsInto source destParent d₀ d) :
    (∀ n ∈ d₀, (∃ m ∈ d, m.core = n.core) ∧ (n ∈ d ∨ StoreNode source d₀ n)) ∧
      ∀ m ∈ d, (∃ n ∈ d₀, n.core = m.core) ∨
        d₀.Fresh m.id ∧ ∀ p ∈ m.file.parents, d₀.Receives destParent p := by
  obtain ⟨hsurvives, hkept, hadded⟩ := RunsFrom.spares hd h
  exact ⟨fun n hn => ⟨hsurvives n hn, hkept n hn⟩, hadded⟩

/-- A folder that is neither the destination parent nor tagged as a copy holds the same files and
folders after the runs, unchanged, when no file of the store is in it. -/
theorem source_folder_unchanged (hd : ¬d₀.has "") (h : RunsInto source destParent d₀ d) {p : String}
    (hp : ¬d₀.Receives destParent p)
    (hstore : ∀ n ∈ d₀, p ∈ n.file.parents → ¬StoreNode source d₀ n) (n : Node)
    (hn : p ∈ n.file.parents) : n ∈ d ↔ n ∈ d₀ := by
  have hspared := RunsFrom.spares hd h
  have hkept {n : Node} (hn : p ∈ n.file.parents) (hmem : n ∈ d₀) : n ∈ d :=
    (hspared.kept n hmem).resolve_right (hstore n hmem hn)
  constructor
  · intro hmem
    rcases hspared.added n hmem with ⟨m, hm, hcore⟩ | ⟨-, hin⟩
    · have hm' := hkept (by rwa [Node.parents_of_core hcore]) hm
      rwa [← Drive.eq_of_id hm' hmem (Node.id_of_core hcore)]
    · exact absurd (hin p hn) hp
  · exact hkept hn

end Sequences

/-! ## A run that copies one file -/

theorem openProfile_placesCopies : openProfile.PlacesCopies := by
  rintro n body f c p ⟨⟨id, rfl⟩, -⟩ hparent
  change body.parent.toList = [p]
  rw [hparent]
  rfl

/-- The run that copies the file of the source. -/
def oneFileRun : Config (openRuns smallCopier) (Except Exc CopyResult) :=
  openRun smallCopier oneFileDrive {} 150

/-- The Drive after it. -/
def oneFileCopied : Drive := oneFileRun.world.state.drive

theorem oneFileRun_into : RunsInto "sourcefolder" "targetfolder" oneFileDrive oneFileCopied :=
  .run .none openProfile smallCopier ⟨openProfile_placesCopies, rfl, rfl⟩ ""
    (openRun_reach (fun _ => rfl) 150)

theorem oneFileRun_copies : ∃ r, oneFileRun.Returned (.ok r) ∧ r.copiedCount = 1 := by
  have hrun : (oneFileRun.result?.any fun r => r.copiedCount = 1) = true := by decide +kernel
  obtain ⟨r, hr, hcopied⟩ := Config.returned_of_any hrun
  exact ⟨r, hr, of_decide_eq_true hcopied⟩

theorem oneFileDrive_nameless : ¬oneFileDrive.has "" := by
  rintro ⟨n, hn, hid⟩
  have hids : ∀ n ∈ oneFileDrive.nodes, n.id ≠ "" := by decide
  exact hids n hn hid

theorem nodes_spared_copied : (∃ r, oneFileRun.Returned (.ok r) ∧ r.copiedCount = 1) ∧
    (∀ n ∈ oneFileDrive, (∃ m ∈ oneFileCopied, m.core = n.core) ∧
      (n ∈ oneFileCopied ∨ StoreNode "sourcefolder" oneFileDrive n)) ∧
    ∀ m ∈ oneFileCopied, (∃ n ∈ oneFileDrive, n.core = m.core) ∨
      oneFileDrive.Fresh m.id ∧ ∀ p ∈ m.file.parents, oneFileDrive.Receives "targetfolder" p :=
  ⟨oneFileRun_copies, nodes_spared oneFileDrive_nameless oneFileRun_into⟩

theorem source_folder_unchanged_copied : (∃ r, oneFileRun.Returned (.ok r) ∧ r.copiedCount = 1) ∧
    ∀ n : Node, "sourcefolder" ∈ n.file.parents → (n ∈ oneFileCopied ↔ n ∈ oneFileDrive) := by
  refine ⟨oneFileRun_copies, ?_⟩
  apply source_folder_unchanged oneFileDrive_nameless oneFileRun_into
  · rintro (h | ⟨key, shortcutId, hnew | ⟨n, hn, hid, -, htag⟩⟩)
    · exact absurd h (by decide)
    · exact hnew ⟨_, List.mem_cons_self, rfl⟩
    · obtain rfl := Drive.eq_of_id hn List.mem_cons_self hid
      cases htag
  · have hnames : ∀ n ∈ oneFileDrive.nodes, isStoreName n.file.name = false := by decide
    rintro n hn - ⟨hname, -⟩
    rw [hnames n hn] at hname
    cases hname

end TurboCopy
