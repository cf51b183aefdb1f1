import TurboCopy.Copier.Folders

/-!
# A Drive

The state of a Drive as the list of its files and folders, and the answers it may give.
A listing delivers a snapshot of the live children of a folder page by page; a page may
be empty and still carry the token of the next one. What a profile leaves open is which
calls may raise, how a copy may differ from its source, whether a search may deliver an
empty first page, and which names an exclude list hides.
-/

namespace TurboCopy

/-- A file or folder: its metadata and its content. -/
structure Node where
  file : ApiFile
  content : Content := .text ""

namespace Node

abbrev id (n : Node) : String := n.file.id

def isFolder (n : Node) : Bool := n.file.mimeType = folderMime

/-- A live child of a folder. -/
def liveIn (n : Node) (p : String) : Bool := !n.file.trashed && decide (p ∈ n.file.parents)

end Node

/-- The part of a resource that a request for some fields returns. -/
def ApiFile.view (fields : List ApiField) (f : ApiFile) : ApiFile where
  id := f.id
  name := if .name ∈ fields then f.name else ""
  mimeType := if .mimeType ∈ fields then f.mimeType else ""
  size := if .size ∈ fields then f.size else none
  md5Checksum := if .md5Checksum ∈ fields then f.md5Checksum else none
  shortcutTarget := if .shortcutDetails ∈ fields then f.shortcutTarget else none
  appProperties := if .appProperties ∈ fields then f.appProperties else ∅
  trashed := if .trashed ∈ fields then f.trashed else false
  modifiedTime := if .modifiedTime ∈ fields then f.modifiedTime else none
  createdTime := if .createdTime ∈ fields then f.createdTime else none
  description := if .description ∈ fields then f.description else none
  parents := if .parents ∈ fields then f.parents else []
  canAddChildren := if .capabilities ∈ fields then f.canAddChildren else none

/-- `_FILE_SUBFIELDS`. -/
def listFields : List ApiField :=
  [.id, .name, .mimeType, .size, .md5Checksum, .shortcutDetails, .appProperties, .trashed,
    .modifiedTime, .createdTime, .description]

def multiFields : List ApiField := listFields ++ [.parents]

/-- The fields `_find_dest_folder` asks for. -/
def searchFields : List ApiField := [.id, .name]

/-- A Drive: no two nodes share an id. -/
structure Drive where
  nodes : List Node
  nodup : (nodes.map Node.id).Nodup

namespace Drive

variable (d : Drive)

instance : Membership Node Drive where
  mem d n := n ∈ d.nodes

def has (id : String) : Prop := ∃ n ∈ d, n.id = id

/-- An id that nothing in the Drive refers to. -/
def Fresh (id : String) : Prop :=
  id ≠ "" ∧ ∀ n ∈ d, n.id ≠ id ∧ id ∉ n.file.parents ∧ n.file.shortcutTarget ≠ some id

theorem Fresh.notMem {d : Drive} {id : String} (h : d.Fresh id) : id ∉ d.nodes.map Node.id := by
  intro hm
  obtain ⟨n, hn, hid⟩ := List.mem_map.mp hm
  exact (h.2 n hn).1 hid

/-- A Drive with one more node. -/
def add (n : Node) (h : d.Fresh n.id) : Drive where
  nodes := n :: d.nodes
  nodup := List.nodup_cons.mpr ⟨h.notMem, d.nodup⟩

/-- A Drive in which the node `id` is changed. -/
def edit (id : String) (f : Node → Node) (hf : ∀ n, (f n).id = n.id) : Drive where
  nodes := d.nodes.map fun n => if n.id = id then f n else n
  nodup := by
    have h : (d.nodes.map fun n => if n.id = id then f n else n).map Node.id =
        d.nodes.map Node.id := by
      rw [List.map_map]
      refine List.map_congr_left fun n _ => ?_
      simp only [Function.comp_apply]
      split_ifs
      · exact hf n
      · rfl
    rw [h]
    exact d.nodup

/-- The content of a file overwritten; the server computes its size and checksum anew. -/
def overwrite (id : String) (data : Content) (md5 size : Option String) : Drive :=
  d.edit id (fun n => ⟨{ n.file with md5Checksum := md5, size := size }, data⟩) fun _ => rfl

def trash (id : String) : Drive :=
  d.edit id (fun n => ⟨{ n.file with trashed := true }, n.content⟩) fun _ => rfl

variable {d}

@[simp] theorem mem_add {n m : Node} {h : d.Fresh n.id} : m ∈ d.add n h ↔ m = n ∨ m ∈ d :=
  List.mem_cons

theorem mem_edit {id : String} {f : Node → Node} {hf : ∀ n, (f n).id = n.id} {m : Node} :
    m ∈ d.edit id f hf ↔ ∃ n ∈ d, (if n.id = id then f n else n) = m := List.mem_map

theorem ext_nodes {d d' : Drive} (h : d.nodes = d'.nodes) : d = d' := by
  cases d
  cases d'
  cases h
  rfl

/-- What is not there is not trashed. -/
theorem trash_missing {id : String} (h : ¬d.has id) : d.trash id = d := by
  apply ext_nodes
  calc (d.trash id).nodes = d.nodes.map fun n => n :=
        List.map_congr_left fun n hn => if_neg fun hid => h ⟨n, hn, hid⟩
    _ = d.nodes := List.map_id d.nodes

theorem eq_of_id {n m : Node} (hn : n ∈ d) (hm : m ∈ d) (h : n.id = m.id) : n = m :=
  List.inj_on_of_nodup_map d.nodup hn hm h

end Drive

/-! ## Requests and answers -/

/-- What a Drive leaves open. -/
structure Profile where
  raises : Request → Prop
  copies : Node → CopyBody → ApiFile → Content → Prop
  prompt : Prop
  hides : List String → ApiFile → Bool

namespace Drive

/-- The live children of a folder that an exclude list does not hide. -/
def listed (pf : Profile) (d : Drive) (p : String) (ex : Option (List String)) : List Node :=
  d.nodes.filter fun n => n.liveIn p && !(ex.any fun ex => pf.hides ex n.file)

/-- The live nodes with a parent in a group. -/
def listedMulti (pf : Profile) (d : Drive) (group ex : List String) : List Node :=
  d.nodes.filter fun n => (group.any fun p => n.liveIn p) && !pf.hides ex n.file

/-- The folders a query finds. -/
def matching (d : Drive) (q : FolderQuery) : List Node :=
  d.nodes.filter fun n => n.liveIn q.parent && n.isFolder &&
    decide (AList.lookup q.key n.file.appProperties = some q.value)

/-- A first page delivers a part of a snapshot of `ns` and leaves the rest to its token; a
later page delivers a part of what its token holds, and the pages come to an end. -/
def Paged (ns : List Node) (fields : List ApiField) (tok : Option PageToken) (page : Page) : Prop :=
  match tok with
  | none => (page.1 ++ restOf page.2).Perm (ns.map fun n => n.file.view fields)
  | some t => page.1 ++ restOf page.2 = t.rest ∧ ∀ t', page.2 = some t' → t'.left < t.left

/-- The object a request is about does not exist. -/
def Lacks (d : Drive) : Request → Prop
  | .getMetadata id _ => ¬d.has id
  | .copyFile id body _ _ => ¬d.has id ∨ ∀ p, body.parent = some p → ¬d.has p
  | .createFolder _ p _ => ¬d.has p
  | .createJsonFile _ p _ _ => ¬d.has p
  | .getMedia id => ¬d.has id
  | .updateFileContent id _ => ¬d.has id
  | .trashFile id => ¬d.has id
  | _ => False

/-- The answers a Drive gives without raising, and what they leave of it. -/
inductive Grants (pf : Profile) : (q : Request) → Drive → q.Ret → Drive → Prop
  | nowIso (d : Drive) (t : String) : Grants pf .nowIso d t d
  | aboutUser (d : Drive) (r) : Grants pf .aboutUser d r d
  | getId (d : Drive) (id : String) (data : ApiFile) :
      Grants pf (.getMetadata id [.id]) d (.ok data) d
  | getMetadata (d : Drive) (n : Node) (hn : n ∈ d) (fields) :
      Grants pf (.getMetadata n.id fields) d (.ok (n.file.view fields)) d
  | listChildren (d : Drive) (p ex tok) (page : Page)
      (h : Paged (d.listed pf p ex) listFields tok page) :
      Grants pf (.listChildren p ex tok) d (.ok page) d
  | listChildrenMulti (d : Drive) (group ex tok) (page : Page)
      (h : Paged (d.listedMulti pf group ex) multiFields tok page) :
      Grants pf (.listChildrenMulti group ex tok) d (.ok page) d
  | search (d : Drive) (q size) (page : Page) (h : Paged (d.matching q) searchFields none page)
      (hp : pf.prompt → page.1 = [] → d.matching q = []) :
      Grants pf (.search q size) d (.ok page) d
  | copyFile (d : Drive) (n : Node) (hn : n ∈ d) (body : CopyBody) (vis rev) (f : ApiFile)
      (c : Content) (hf : d.Fresh f.id) (hc : pf.copies n body f c)
      (hp : ∀ p, body.parent = some p → d.has p) :
      Grants pf (.copyFile n.id body vis rev) d (.ok (some f.id)) (d.add ⟨f, c⟩ hf)
  | createFolder (d : Drive) (name p props id) (hp : d.has p) (hf : d.Fresh id) :
      Grants pf (.createFolder name p props) d (.ok (some id))
        (d.add ⟨{ id := id, name := name, mimeType := folderMime, appProperties := props
                  parents := [p] }, .text ""⟩ hf)
  | getMedia (d : Drive) (n : Node) (hn : n ∈ d) : Grants pf (.getMedia n.id) d (.ok n.content) d
  | createJsonFile (d : Drive) (name p data props id size md5) (hp : d.has p) (hf : d.Fresh id) :
      Grants pf (.createJsonFile name p data props) d (.ok (some id))
        (d.add ⟨{ id := id, name := name, mimeType := "application/json", size := size
                  md5Checksum := md5, appProperties := props, parents := [p] }, data⟩ hf)
  | updateFileContent (d : Drive) (id data md5 size) (h : d.has id) :
      Grants pf (.updateFileContent id data) d (.ok ()) (d.overwrite id data md5 size)
  | trashFile (d : Drive) (id) (h : d.has id) : Grants pf (.trashFile id) d (.ok ()) (d.trash id)

/-- A request is answered, or it raises and changes nothing. -/
inductive Serves (pf : Profile) (q : Request) (d : Drive) (x : q.Ret) : Drive → Prop
  | granted {d' : Drive} (h : Grants pf q d x d') : Serves pf q d x d'
  | raised (e : ApiError) (h : pf.raises q ∨ d.Lacks q) (hx : x = q.raised e) : Serves pf q d x d

/-- The Drive of a profile as a service. -/
def service (pf : Profile) : Service where
  State := Drive
  serves := Serves pf

/-! ## A Drive that answers

An executable choice among the answers: every call succeeds when its objects exist, and
a listing is one page. The metadata of copies and the rule of exclude lists are given. -/

/-- The ids a Drive mentions. -/
def names (d : Drive) : List String :=
  d.nodes.flatMap fun n => n.id :: (n.file.parents ++ n.file.shortcutTarget.toList)

/-- An id longer than all the others. -/
def freshId (d : Drive) : String :=
  String.ofList (List.replicate (1 + ((d.names.map fun s => s.toList.length).foldr max 0)) 'x')

theorem le_foldr_max {l : List ℕ} {n : ℕ} (h : n ∈ l) : n ≤ l.foldr max 0 := by
  induction l with
  | nil => exact nomatch h
  | cons m l ih =>
    rw [List.foldr_cons]
    rcases List.mem_cons.mp h with rfl | h
    · exact le_max_left _ _
    · exact le_trans (ih h) (le_max_right _ _)

theorem freshId_notMem (d : Drive) : d.freshId ∉ d.names := by
  intro h
  have hle := le_foldr_max (List.mem_map_of_mem (f := fun s : String => s.toList.length) h)
  simp only [freshId, String.toList_ofList, List.length_replicate] at hle
  omega

theorem fresh_freshId (d : Drive) : d.Fresh d.freshId := by
  have hm := freshId_notMem d
  refine ⟨?_, fun n hn => ⟨?_, ?_, ?_⟩⟩
  · intro h
    have hl := congrArg (fun s : String => s.toList.length) h
    simp [freshId] at hl
  · intro h
    exact hm (List.mem_flatMap.mpr ⟨n, hn, h ▸ List.mem_cons_self⟩)
  · intro h
    exact hm (List.mem_flatMap.mpr ⟨n, hn, List.mem_cons_of_mem _ (List.mem_append_left _ h)⟩)
  · intro h
    refine hm (List.mem_flatMap.mpr ⟨n, hn, List.mem_cons_of_mem _ (List.mem_append_right _ ?_)⟩)
    rw [h]
    exact List.mem_singleton.mpr rfl

def find (d : Drive) (id : String) : Option Node := d.nodes.find? fun n => n.id = id

theorem find_eq_some {d : Drive} {id : String} {n : Node} (h : d.find id = some n) :
    n ∈ d ∧ n.id = id :=
  ⟨List.mem_of_find?_eq_some h, by simpa using List.find?_some h⟩

theorem find_of_mem {d : Drive} {n : Node} (h : n ∈ d) : d.find n.id = some n := by
  cases hf : d.find n.id with
  | none => exact absurd (List.find?_eq_none.mp hf n h) (by simp)
  | some m =>
    obtain ⟨hm, hid⟩ := find_eq_some hf
    rw [eq_of_id hm h hid]

theorem not_has_of_find {d : Drive} {id : String} (h : d.find id = none) : ¬d.has id := by
  rintro ⟨n, hn, hid⟩
  simpa [hid] using List.find?_eq_none.mp h n hn

theorem has_of_find {d : Drive} {id : String} (h : (d.find id).isSome = true) : d.has id := by
  obtain ⟨n, hn⟩ := Option.isSome_iff_exists.mp h
  exact ⟨n, (find_eq_some hn).1, (find_eq_some hn).2⟩

/-- The metadata of an exact copy of `n` made with a body, but for its id. -/
def exactCopy (n : Node) (body : CopyBody) : ApiFile where
  id := ""
  name := body.name
  mimeType := n.file.mimeType
  size := n.file.size
  md5Checksum := n.file.md5Checksum
  shortcutTarget := n.file.shortcutTarget
  appProperties := body.appProperties
  parents := body.parent.toList

def notFound : ApiError where
  text := "notFound"
  status := some 404

/-- A new node and the response with its id. -/
def create (d : Drive) (f : String → ApiFile) (hf : ∀ id, (f id).id = id) (c : Content) :
    Except ApiError (Option String) × Drive :=
  (.ok (some d.freshId), d.add ⟨f d.freshId, c⟩ (by
    change d.Fresh (f d.freshId).id
    rw [hf]
    exact d.fresh_freshId))

/-- The metadata of a copy under its id. -/
def named (make : Node → CopyBody → ApiFile) (n : Node) (body : CopyBody) (id : String) : ApiFile :=
  { make n body with id := id }

/-- The answer to a request when nothing goes wrong. -/
def reply (hide : List String → ApiFile → Bool) (make : Node → CopyBody → ApiFile) :
    (q : Request) → Drive → q.Ret × Drive
  | .nowIso, d => ("2024-01-01T00:00:00Z", d)
  | .aboutUser, d => (.ok (some "user@example.com"), d)
  | .getMetadata id fields, d =>
    match d.find id with
    | some n => (.ok (n.file.view fields), d)
    | none => (.error notFound, d)
  | .listChildren p ex none, d =>
    (.ok ((d.nodes.filter fun n => n.liveIn p && !(ex.any fun ex => hide ex n.file)).map
      fun n => n.file.view listFields, none), d)
  | .listChildren _ _ (some t), d => (.ok (t.rest, none), d)
  | .listChildrenMulti group ex none, d =>
    (.ok ((d.nodes.filter fun n => (group.any fun p => n.liveIn p) && !hide ex n.file).map
      fun n => n.file.view multiFields, none), d)
  | .listChildrenMulti _ _ (some t), d => (.ok (t.rest, none), d)
  | .copyFile id body _ _, d =>
    match d.find id with
    | some n =>
      if (body.parent.all fun p => (d.find p).isSome) then
        d.create (named make n body) (fun _ => rfl) n.content
      else (.error notFound, d)
    | none => (.error notFound, d)
  | .createFolder name p props, d =>
    if (d.find p).isSome then
      d.create (fun id => { id := id, name := name, mimeType := folderMime, appProperties := props
                            parents := [p] }) (fun _ => rfl) (.text "")
    else (.error notFound, d)
  | .search q _, d => (.ok ((d.matching q).map fun n => n.file.view searchFields, none), d)
  | .getMedia id, d =>
    match d.find id with
    | some n => (.ok n.content, d)
    | none => (.error notFound, d)
  | .createJsonFile name p data props, d =>
    if (d.find p).isSome then
      d.create (fun id => { id := id, name := name, mimeType := "application/json"
                            appProperties := props, parents := [p] }) (fun _ => rfl) data
    else (.error notFound, d)
  | .updateFileContent id data, d =>
    if (d.find id).isSome then (.ok (), d.overwrite id data none none) else (.error notFound, d)
  | .trashFile id, d =>
    if (d.find id).isSome then (.ok (), d.trash id) else (.error notFound, d)

/-- A profile that lets copies be made this way and hides by the same rule admits every
reply. -/
theorem reply_serves {pf : Profile} {make : Node → CopyBody → ApiFile}
    (hcopy : ∀ n body id, pf.copies n body (named make n body id) n.content) (q : Request)
    (d : Drive) : Serves pf q d (reply pf.hides make q d).1 (reply pf.hides make q d).2 := by
  have hlacks {q : Request} (h : d.Lacks q) : Serves pf q d (q.raised notFound) d :=
    .raised notFound (.inr h) rfl
  cases q with
  | nowIso => exact .granted (.nowIso d _)
  | aboutUser => exact .granted (.aboutUser d _)
  | getMetadata id fields =>
    dsimp only [reply]
    cases h : d.find id with
    | none => exact hlacks (q := .getMetadata id fields) (not_has_of_find h)
    | some n =>
      obtain ⟨hn, rfl⟩ := find_eq_some h
      exact .granted (.getMetadata d n hn fields)
  | listChildren p ex tok =>
    cases tok with
    | none => exact .granted (.listChildren d p ex _ _ (by simp [Paged, restOf, listed]))
    | some t => exact .granted (.listChildren d p ex _ _ (by simp [Paged, restOf]))
  | listChildrenMulti group ex tok =>
    cases tok with
    | none => exact .granted (.listChildrenMulti d group ex _ _ (by simp [Paged, restOf, listedMulti]))
    | some t => exact .granted (.listChildrenMulti d group ex _ _ (by simp [Paged, restOf]))
  | copyFile id body vis rev =>
    dsimp only [reply]
    cases h : d.find id with
    | none => exact hlacks (q := .copyFile id body vis rev) (.inl (not_has_of_find h))
    | some n =>
      obtain ⟨hn, rfl⟩ := find_eq_some h
      dsimp only
      split_ifs with hp
      · refine .granted (.copyFile d n hn body vis rev _ n.content d.fresh_freshId
          (hcopy n body d.freshId) fun p hp' => ?_)
        rw [hp'] at hp
        exact has_of_find (by simpa using hp)
      · refine hlacks (q := .copyFile n.id body vis rev) (.inr fun p hp' => not_has_of_find ?_)
        rw [hp'] at hp
        simpa using hp
  | createFolder name p props =>
    dsimp only [reply]
    split_ifs with hp
    · exact .granted (.createFolder d name p props _ (has_of_find hp) d.fresh_freshId)
    · exact hlacks (q := .createFolder name p props) (not_has_of_find (by simpa using hp))
  | search q size => exact .granted (.search d q size _ (by simp [Paged, restOf]) (by simp))
  | getMedia id =>
    dsimp only [reply]
    cases h : d.find id with
    | none => exact hlacks (q := .getMedia id) (not_has_of_find h)
    | some n =>
      obtain ⟨hn, rfl⟩ := find_eq_some h
      exact .granted (.getMedia d n hn)
  | createJsonFile name p data props =>
    dsimp only [reply]
    split_ifs with hp
    · exact .granted (.createJsonFile d name p data props _ none none (has_of_find hp)
        d.fresh_freshId)
    · exact hlacks (q := .createJsonFile name p data props) (not_has_of_find (by simpa using hp))
  | updateFileContent id data =>
    dsimp only [reply]
    split_ifs with hp
    · exact .granted (.updateFileContent d id data none none (has_of_find hp))
    · exact hlacks (q := .updateFileContent id data) (not_has_of_find (by simpa using hp))
  | trashFile id =>
    dsimp only [reply]
    split_ifs with hp
    · exact .granted (.trashFile d id (has_of_find hp))
    · exact hlacks (q := .trashFile id) (not_has_of_find (by simpa using hp))

end Drive
end TurboCopy
