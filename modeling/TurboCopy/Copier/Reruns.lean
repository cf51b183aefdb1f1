import TurboCopy.Copier.Replicas

/-!
# A second copy of a source folder

A run into a destination that has a whole copy of the source finds it, folder by folder, and
matches every file by the tags of its copy: it copies nothing, makes nothing and leaves every
folder as it was. So does the run after a first copy that went fully well.
-/

namespace TurboCopy

open Threads CopierM Copier

/-! ## What the destination has for a forest -/

/-- The folder `p` has a copy of every item of a forest, as a run finds them: the files in what is
left of the index of the folder, the folders by a search. -/
def Server.Has (sv : Server) (d : Drive) : DestinationIndex → String → Forest → Prop
  | _, _, .nil => True
  | idx, p, .file src rest => (AList.lookup src.id idx.appProps).isSome ∧ Has sv d idx p rest
  | idx, p, .link src _ rest => (AList.lookup src.id idx.appProps).isSome ∧ Has sv d idx p rest
  | _, _, .broken _ _ => False
  | idx, p, .folder src sub rest =>
    (∃ q, sv.found d p src.id = some q ∧
      Has sv d (DestinationIndex.build (sv.indexed d (some q))) q sub) ∧ Has sv d idx p rest

/-- The ids of the items of each folder differ, and are ids. -/
def Forest.Distinct : Forest → Prop
  | .nil => True
  | .file src rest => src.id ≠ "" ∧ (∀ x ∈ rest.children, x.id ≠ src.id) ∧ rest.Distinct
  | .link src _ rest => src.id ≠ "" ∧ (∀ x ∈ rest.children, x.id ≠ src.id) ∧ rest.Distinct
  | .broken src rest => src.id ≠ "" ∧ (∀ x ∈ rest.children, x.id ≠ src.id) ∧ rest.Distinct
  | .folder src sub rest =>
    src.id ≠ "" ∧ (∀ x ∈ rest.children, x.id ≠ src.id) ∧ sub.Distinct ∧ rest.Distinct

theorem Forest.tops_sublist_keys (f : Forest) : f.tops.Sublist f.keys := by
  induction f with
  | nil => exact .refl _
  | file src rest ih => exact ih
  | link src target rest ih => exact ih
  | broken src rest ih => exact ih
  | folder src sub rest _ ih => exact (ih.trans (List.sublist_append_right _ _)).cons_cons _

/-- Nothing is copied, made or lost. -/
def Effect.Idle (e : Effect) : Prop :=
  (∃ src shortcutId, e = .skipped src shortcutId) ∨ ∃ key id, e = .kept key id

section Walks

variable {sv : Server} {cp : Copier} {d : Drive} {idx idx' : DestinationIndex} {p key : String}
  {f : Forest}

/-- The items of a forest without a key are not affected by what the index has under the key. -/
theorem Server.Has.without (h : sv.Has d idx p f) (hkey : ∀ x ∈ f.children, x.id ≠ key)
    (hsame : ∀ k, k ≠ key → AList.lookup k idx'.appProps = AList.lookup k idx.appProps) :
    sv.Has d idx' p f := by
  induction f with
  | nil => trivial
  | file src rest ih =>
    obtain ⟨hsrc, hrest⟩ := h
    refine ⟨?_, ih hrest fun x hx => hkey x (List.mem_cons_of_mem _ hx)⟩
    rwa [hsame _ (hkey src List.mem_cons_self)]
  | link src target rest ih =>
    obtain ⟨hsrc, hrest⟩ := h
    refine ⟨?_, ih hrest fun x hx => hkey x (List.mem_cons_of_mem _ hx)⟩
    rwa [hsame _ (hkey src List.mem_cons_self)]
  | broken src rest _ => exact h.elim
  | folder src sub rest _ ih =>
    exact ⟨h.1, ih h.2 fun x hx => hkey x (List.mem_cons_of_mem _ hx)⟩

/-- A file that the index has under its key is skipped. -/
theorem settle_keyed (cp : Copier) (under : String) (src : DriveFile) (shortcutId : Option String)
    (hkey : orElse shortcutId src.id = key) (hne : key ≠ "")
    (h : (AList.lookup key idx.appProps).isSome) : ∃ idx',
      cp.settle idx under src shortcutId = (.skipped src shortcutId, idx') ∧
        ∀ k, k ≠ key → AList.lookup k idx'.appProps = AList.lookup k idx.appProps := by
  obtain ⟨item, hitem⟩ := Option.isSome_iff_exists.mp h
  let idx' := { idx with appProps := AList.erase key idx.appProps }.removeFromName item
  have hpop : idx.popByAppProp key = (some item, idx') := by
    unfold DestinationIndex.popByAppProp
    rw [if_neg hne, hitem]
  refine ⟨idx', ?_, fun k hk => ?_⟩
  · unfold Copier.settle DestinationIndex.popMatch
    dsimp only
    rw [hkey, if_neg hne, hpop]
  · rw [DestinationIndex.removeFromName_appProps]
    exact AList.lookup_erase_ne hk

/-- The walk over a forest that the destination has. -/
theorem walk_idle (f : Forest) : ∀ (under : String) {p : String} {idx : DestinationIndex},
    sv.Has d idx p f → f.Distinct →
    (∀ e ∈ f.walk (sv.guide cp d) under (some p) idx, e.Idle) ∧
      ((f.walk (sv.guide cp d) under (some p) idx).map Effect.skips).sum = f.items.length := by
  induction f with
  | nil => exact fun _ _ _ _ _ => ⟨fun e he => absurd he List.not_mem_nil, rfl⟩
  | file src rest ih =>
    rintro under p idx ⟨hsrc, hrest⟩ ⟨hne, hother, hdistinct⟩
    obtain ⟨idx', hsettle, hsame⟩ := settle_keyed cp under src none rfl hne hsrc
    obtain ⟨hidle, hskips⟩ := ih under (hrest.without hother hsame) hdistinct
    have hsettle : (sv.guide cp d).settle idx under src none = (.skipped src none, idx') := hsettle
    have hitems : (Forest.file src rest).items.length = 1 + rest.items.length := by
      rw [Forest.items, List.length_cons, add_comm]
    rw [Forest.walk, hsettle, hitems]
    refine ⟨List.forall_mem_cons.mpr ⟨.inl ⟨src, none, rfl⟩, hidle⟩, ?_⟩
    rw [List.map_cons, List.sum_cons, hskips]
    rfl
  | link src target rest ih =>
    rintro under p idx ⟨hsrc, hrest⟩ ⟨hne, hother, hdistinct⟩
    have hkey : orElse (some src.id) target.id = src.id := by
      rw [orElse, truthy_some hne]
      rfl
    obtain ⟨idx', hsettle, hsame⟩ := settle_keyed cp under target _ hkey hne hsrc
    obtain ⟨hidle, hskips⟩ := ih under (hrest.without hother hsame) hdistinct
    have hsettle : (sv.guide cp d).settle idx under target (some src.id) =
        (.skipped target (some src.id), idx') := hsettle
    have hitems : (Forest.link src target rest).items.length = 1 + rest.items.length := by
      rw [Forest.items, List.length_cons, add_comm]
    rw [Forest.walk, hsettle, hitems]
    refine ⟨List.forall_mem_cons.mpr ⟨.inl ⟨target, some src.id, rfl⟩, hidle⟩, ?_⟩
    rw [List.map_cons, List.sum_cons, hskips]
    rfl
  | broken src rest _ => exact fun _ _ _ h _ => h.elim
  | folder src sub rest ihsub ihrest =>
    rintro under p idx ⟨⟨q, hfound, hsub⟩, hrest⟩ ⟨-, -, hdistinctsub, hdistinct⟩
    obtain ⟨hidle, hskips⟩ := ihsub src.id hsub hdistinctsub
    obtain ⟨hidle', hskips'⟩ := ihrest under hrest hdistinct
    have hhome : (sv.guide cp d).home (some p) src = some q := hfound
    have hshelf : (sv.guide cp d).shelf (some q) =
        DestinationIndex.build (sv.indexed d (some q)) := rfl
    have hitems : (Forest.folder src sub rest).items.length =
        sub.items.length + rest.items.length := by
      rw [Forest.items, List.length_append]
    rw [Forest.walk, Forest.placing, hhome, hshelf, hitems]
    constructor
    · refine List.forall_mem_cons.mpr ⟨.inr ⟨src.id, q, rfl⟩, fun e he => ?_⟩
      exact (List.mem_append.mp he).elim (hidle e) (hidle' e)
    · rw [List.map_cons, List.map_append, List.sum_cons, List.sum_append, hskips, hskips']
      exact Nat.zero_add _

end Walks

/-! ## A mirror has everything -/

section

variable {sv : Server} {base d : Drive} {ex : List String} {p key : String} {f : Forest}
  {ns : List Node} {m n : Node}

/-- The folders that are tagged as copies, in the items of a mirror. -/
structure Tagged (ns : List Node) (keys : List String) : Prop where
  known : ∀ n ∈ ns, n.isFolder = true → ∃ k ∈ keys, n.tag = some k
  single : ∀ n ∈ ns, ∀ n' ∈ ns, n.isFolder = true → n'.isFolder = true → n.tag = n'.tag → n = n'

theorem Node.FolderFor.tag {name : String} (h : m.FolderFor key name) (hne : key ≠ "") :
    m.tag = some key := by
  rw [Node.tag, h.props]
  exact lookup_folderProps hne

theorem Node.CopyOf.not_folder {src : DriveFile} {shortcutId : Option String}
    (h : m.CopyOf base src shortcutId) (hsrc : src.isFolder = false) : m.isFolder = false := by
  rw [Node.isFolder, h.mimeType]
  exact hsrc

theorem Tagged.file {ms : List Node} {keys : List String} (h : Tagged ms keys)
    (hns : ns.Perm (m :: ms)) (hm : m.isFolder = false) : Tagged ns keys := by
  have hmem {n : Node} (hn : n ∈ ns) (hfolder : n.isFolder = true) : n ∈ ms := by
    rcases List.mem_cons.mp (hns.mem_iff.mp hn) with rfl | hn
    · rw [hm] at hfolder
      cases hfolder
    · exact hn
  exact ⟨fun n hn hfolder => h.known n (hmem hn hfolder) hfolder,
    fun n hn n' hn' hfolder hfolder' =>
      h.single n (hmem hn hfolder) n' (hmem hn' hfolder') hfolder hfolder'⟩

theorem Tagged.folder {ms : List Node} {keys : List String} (h : Tagged ms keys)
    (hns : ns.Perm (m :: ms)) (hm : m.tag = some key) (hkey : key ∉ keys) :
    Tagged ns (key :: keys) := by
  have hother : ∀ n ∈ ms, n.isFolder = true → n.tag ≠ some key := by
    intro n hn hfolder htag
    obtain ⟨k, hk, htag'⟩ := h.known n hn hfolder
    rw [htag] at htag'
    exact hkey (Option.some.inj htag' ▸ hk)
  constructor
  · intro n hn hfolder
    rcases List.mem_cons.mp (hns.mem_iff.mp hn) with rfl | hn
    · exact ⟨key, List.mem_cons_self, hm⟩
    · obtain ⟨k, hk, htag⟩ := h.known n hn hfolder
      exact ⟨k, List.mem_cons_of_mem _ hk, htag⟩
  · intro n hn n' hn' hfolder hfolder' htag
    rcases List.mem_cons.mp (hns.mem_iff.mp hn) with rfl | hn
    · rcases List.mem_cons.mp (hns.mem_iff.mp hn') with rfl | hn'
      · rfl
      · exact absurd (htag.symm.trans hm) (hother n' hn' hfolder')
    · rcases List.mem_cons.mp (hns.mem_iff.mp hn') with rfl | hn'
      · exact absurd (htag.trans hm) (hother n hn hfolder)
      · exact h.single n hn n' hn' hfolder hfolder' htag

/-- In a mirror there is one folder for each folder of the source. -/
theorem Drive.Mirrors.tagged : ∀ {ns : List Node}, base.Mirrors d f ns → sv.Shows d ex f →
    f.tops.Nodup → Tagged ns f.tops := by
  induction f with
  | nil =>
    rintro ns rfl _ _
    exact ⟨fun n hn => absurd hn List.not_mem_nil, fun n hn => absurd hn List.not_mem_nil⟩
  | file src rest ih =>
    rintro ns h ⟨hfolder, -, -, hrest⟩ hnodup
    unfold Drive.Mirrors at h
    split_ifs at h
    · exact ih h hrest hnodup
    · obtain ⟨m, ms, hns, hm, hms⟩ := h
      exact (ih hms hrest hnodup).file hns (hm.not_folder hfolder)
  | link src target rest ih =>
    rintro ns h ⟨-, -, hfolder, -, hrest⟩ hnodup
    unfold Drive.Mirrors at h
    split_ifs at h
    · exact ih h hrest hnodup
    · obtain ⟨m, ms, hns, hm, hms⟩ := h
      exact (ih hms hrest hnodup).file hns (hm.not_folder hfolder)
  | broken src rest ih =>
    rintro ns h ⟨-, -, hrest⟩ hnodup
    exact ih h hrest hnodup
  | folder src sub rest _ ih =>
    rintro ns ⟨m, ms, hns, hm, -, hms⟩ ⟨-, hne, -, -, -, hrest⟩ hnodup
    obtain ⟨hsrc, hnodup⟩ := List.nodup_cons.mp hnodup
    exact (ih hms hrest hnodup).folder hns (hm.tag hne) hsrc

/-- A search that does not deliver an empty first page. -/
def Server.Prompt (sv : Server) : Prop :=
  ∀ q size files, files ≠ [] → (sv.turn (.search q size) files).1 ≠ []

/-- The one folder with a tag is found. -/
theorem found_single (hprompt : sv.Prompt) (hm : m ∈ d.inside p) (hfolder : m.isFolder = true)
    (htag : m.tag = some key) (hid : m.id ≠ "")
    (honly : ∀ n ∈ d.inside p, n.isFolder = true → n.tag = some key → n = m) :
    sv.found d p key = some m.id := by
  have hmem : ∀ n, n ∈ d.matching (folderQuery p key none) ↔ n = m := by
    intro n
    have hn : n ∈ d.matching (folderQuery p key none) ↔
        n ∈ d.inside p ∧ n.isFolder = true ∧ n.tag = some key := by
      simp [Drive.matching, Drive.inside, folderQuery, folderKeyName, Node.tag, orElse, and_assoc]
    rw [hn]
    constructor
    · rintro ⟨hn, hfolder', htag'⟩
      exact honly n hn hfolder' htag'
    · rintro rfl
      exact ⟨hm, hfolder, htag⟩
  have hmatching : d.matching (folderQuery p key none) = [m] := by
    have hnodup : (d.matching (folderQuery p key none)).Nodup := d.nodup.of_map.filter _
    exact List.perm_singleton.mp ((List.perm_ext_iff_of_nodup hnodup (List.nodup_singleton m)).mpr
      fun n => by rw [hmem, List.mem_singleton])
  have hfiles : Server.foundFiles d (folderQuery p key none) = [m.file.view searchFields] := by
    rw [Server.foundFiles, hmatching]
    rfl
  unfold Server.found
  rw [hfiles]
  have hwhole := sv.whole (.search (folderQuery p key none) 10) [m.file.view searchFields]
  have hsome := hprompt (folderQuery p key none) 10 [m.file.view searchFields]
    (List.cons_ne_nil _ _)
  cases hpage : (sv.turn (.search (folderQuery p key none) 10) [m.file.view searchFields]).1 with
  | nil => exact absurd hpage hsome
  | cons g rest =>
    rw [hpage, List.cons_append, List.cons.injEq, List.append_eq_nil_iff] at hwhole
    obtain ⟨rfl, rfl, -⟩ := hwhole
    exact truthy_some hid

theorem indexed_inside (hp : p ≠ "") : sv.indexed d (some p) =
    (d.inside p).map fun n => DriveFile.fromApi (n.file.view listFields) := by
  rw [Server.indexed, truthy_some hp]
  simp [shown, Drive.listed, Drive.inside]

/-- A copy is in the index of its folder, under the id of the item it is a copy of. -/
theorem Node.CopyOf.indexed {src : DriveFile} {shortcutId : Option String} (hp : p ≠ "")
    (h : m.CopyOf base src shortcutId) (hm : m ∈ d.inside p) (hfolder : src.isFolder = false)
    (hkey : orElse shortcutId src.id = key) (hsrc : src.id ≠ "") :
    (AList.lookup key (DestinationIndex.build (sv.indexed d (some p))).appProps).isSome := by
  have hitem : DriveFile.fromApi (m.file.view listFields) ∈ sv.indexed d (some p) := by
    rw [indexed_inside hp]
    exact List.mem_map_of_mem hm
  apply DestinationIndex.build_lookup hitem
  refine ⟨h.not_folder hfolder, ?_⟩
  have hprops : (DriveFile.fromApi (m.file.view listFields)).appProperties =
      copyProps src shortcutId := h.props
  rw [DriveFile.sourceKey, hprops, lookup_copyProps_shortcut, lookup_copyProps_file, ← hkey, orElse,
    truthy_some hsrc]
  cases hshortcut : truthy shortcutId with
  | none => rfl
  | some s =>
    rw [truthy_some (truthy_eq_some.mp hshortcut).2]
    rfl

/-- A place with a mirror of a forest has everything of it. -/
theorem Drive.Mirrors.has (hprompt : sv.Prompt) (hids : ∀ n ∈ d, n.id ≠ "") :
    ∀ {p : String} {ns : List Node} {keys : List String} (under : String), base.Mirrors d f ns →
      sv.Shows d ex f → f.Distinct → f.keys.Nodup →
      (f.anew under).filterMap Effect.failure = [] → p ≠ "" → (∀ n ∈ ns, n ∈ d.inside p) →
      Tagged (d.inside p) keys →
      sv.Has d (DestinationIndex.build (sv.indexed d (some p))) p f := by
  have hfits {under : String} {src : DriveFile} {shortcutId : Option String} {M : List Effect}
      (h : (Forest.copying under src shortcutId :: M).filterMap Effect.failure = []) :
      tooLarge src = false ∧ M.filterMap Effect.failure = [] := by
    unfold Forest.copying at h
    split_ifs at h with hlarge
    · simp [Effect.failure] at h
    · exact ⟨Bool.eq_false_iff.mpr hlarge, by simpa [Effect.failure] using h⟩
  induction f with
  | nil => exact fun _ _ _ _ _ _ _ _ _ => trivial
  | file src rest ih =>
    rintro p ns keys under h ⟨hfolder, -, -, hshows⟩ ⟨hne, -, hdistinct⟩ hnodup hwhole hp hns htagged
    obtain ⟨hlarge, hwhole⟩ := hfits hwhole
    unfold Drive.Mirrors at h
    rw [if_neg (by rw [hlarge]; exact Bool.false_ne_true)] at h
    obtain ⟨m, ms, hperm, hm, hms⟩ := h
    refine ⟨hm.indexed hp (hns m (hperm.mem_iff.mpr List.mem_cons_self)) hfolder rfl hne, ?_⟩
    exact ih under hms hshows hdistinct hnodup hwhole hp (fun n hn =>
      hns n (hperm.mem_iff.mpr (List.mem_cons_of_mem _ hn))) htagged
  | link src target rest ih =>
    rintro p ns keys under h ⟨-, htarget, hfolder, -, hshows⟩ ⟨hne, -, hdistinct⟩ hnodup hwhole hp
      hns htagged
    obtain ⟨hlarge, hwhole⟩ := hfits hwhole
    unfold Drive.Mirrors at h
    rw [if_neg (by rw [hlarge]; exact Bool.false_ne_true)] at h
    obtain ⟨m, ms, hperm, hm, hms⟩ := h
    have hkey : orElse (some src.id) target.id = src.id := by
      rw [orElse, truthy_some hne]
      rfl
    have htargetne : target.id ≠ "" := by
      obtain ⟨id, -, hfound⟩ := Option.bind_eq_some_iff.mp htarget
      obtain ⟨n, hn, rfl⟩ := Option.map_eq_some_iff.mp hfound
      exact hids n (Drive.find_eq_some hn).1
    refine ⟨hm.indexed hp (hns m (hperm.mem_iff.mpr List.mem_cons_self)) hfolder hkey htargetne, ?_⟩
    exact ih under hms hshows hdistinct hnodup hwhole hp (fun n hn =>
      hns n (hperm.mem_iff.mpr (List.mem_cons_of_mem _ hn))) htagged
  | broken src rest _ =>
    rintro p ns keys under _ _ _ _ hwhole
    simp [Forest.anew, Effect.failure] at hwhole
  | folder src sub rest ihsub ihrest =>
    rintro p ns keys under ⟨m, ms, hperm, hm, hsub, hms⟩ ⟨hfolder, hne, -, hkids, hsubshows, hshows⟩
      ⟨-, -, hsubdistinct, hdistinct⟩ hnodup hwhole hp hns htagged
    obtain ⟨-, hnodup⟩ := List.nodup_cons.mp hnodup
    obtain ⟨hsubnodup, hnodup, -⟩ := List.nodup_append.mp hnodup
    rw [Forest.anew, List.filterMap_cons_none rfl, List.filterMap_append,
      List.append_eq_nil_iff] at hwhole
    have hmem : m ∈ d.inside p := hns m (hperm.mem_iff.mpr List.mem_cons_self)
    have hid := hids m (List.mem_of_mem_filter hmem)
    have hsubtagged := hsub.tagged hsubshows (sub.tops_sublist_keys.nodup hsubnodup)
    have hfound := found_single hprompt hmem hm.folder (hm.tag hne) hid fun n hn hfolder' htag =>
      htagged.single n hn m hmem hfolder' hm.folder (htag.trans (hm.tag hne).symm)
    refine ⟨⟨m.id, hfound, ?_⟩, ?_⟩
    · exact ihsub src.id hsub hsubshows hsubdistinct hsubnodup hwhole.1 hid (fun n hn => hn)
        hsubtagged
    · exact ihrest under hms hshows hdistinct hnodup hwhole.2 hp (fun n hn =>
        hns n (hperm.mem_iff.mpr (List.mem_cons_of_mem _ hn))) htagged

/-- The names of the items of a mirror. -/
theorem Drive.Mirrors.names : ∀ {ns : List Node}, base.Mirrors d f ns → sv.Shows d ex f →
    ∀ n ∈ ns, ∃ src ∈ f.children, n.file.name = src.name := by
  have hlater {src : DriveFile} {rest : List DriveFile} {ms : List Node}
      (hms : ∀ n ∈ ms, ∃ y ∈ rest, n.file.name = y.name) :
      ∀ n ∈ ms, ∃ y ∈ src :: rest, n.file.name = y.name := by
    intro n hn
    obtain ⟨y, hy, hname⟩ := hms n hn
    exact ⟨y, List.mem_cons_of_mem _ hy, hname⟩
  have hcons {src : DriveFile} {rest : List DriveFile} {m : Node} {ms ns : List Node}
      (hns : ns.Perm (m :: ms)) (hm : m.file.name = src.name)
      (hms : ∀ n ∈ ms, ∃ y ∈ rest, n.file.name = y.name) :
      ∀ n ∈ ns, ∃ y ∈ src :: rest, n.file.name = y.name := by
    intro n hn
    rcases List.mem_cons.mp (hns.mem_iff.mp hn) with rfl | hn
    · exact ⟨src, List.mem_cons_self, hm⟩
    · exact hlater hms n hn
  induction f with
  | nil =>
    rintro ns rfl _ n hn
    exact absurd hn List.not_mem_nil
  | file src rest ih =>
    rintro ns h ⟨-, -, -, hrest⟩
    unfold Drive.Mirrors at h
    split_ifs at h
    · exact hlater (ih h hrest)
    · obtain ⟨m, ms, hns, hm, hms⟩ := h
      exact hcons hns hm.name (ih hms hrest)
  | link src target rest ih =>
    rintro ns h ⟨-, htarget, -, -, hrest⟩
    unfold Drive.Mirrors at h
    split_ifs at h
    · exact hlater (ih h hrest)
    · obtain ⟨m, ms, hns, hm, hms⟩ := h
      obtain ⟨id, -, hfound⟩ := Option.bind_eq_some_iff.mp htarget
      obtain ⟨n, -, rfl⟩ := Option.map_eq_some_iff.mp hfound
      exact hcons hns hm.name (ih hms hrest)
  | broken src rest ih =>
    rintro ns h ⟨-, -, hrest⟩
    exact hlater (ih h hrest)
  | folder src sub rest _ ih =>
    rintro ns ⟨m, ms, hns, hm, -, hms⟩ ⟨-, -, -, -, -, hrest⟩
    exact hcons hns hm.name (ih hms hrest)

/-- A mirror depends on what the folders hold only. -/
theorem Drive.Mirrors.later {d' : Drive} (hinside : ∀ p, d'.inside p = d.inside p) :
    ∀ {ns : List Node}, base.Mirrors d f ns → base.Mirrors d' f ns := by
  induction f with
  | nil => exact fun h => h
  | file src rest ih =>
    intro ns h
    unfold Drive.Mirrors at h ⊢
    split_ifs at h ⊢
    · exact ih h
    · obtain ⟨m, ms, hns, hm, hms⟩ := h
      exact ⟨m, ms, hns, hm, ih hms⟩
  | link src target rest ih =>
    intro ns h
    unfold Drive.Mirrors at h ⊢
    split_ifs at h ⊢
    · exact ih h
    · obtain ⟨m, ms, hns, hm, hms⟩ := h
      exact ⟨m, ms, hns, hm, ih hms⟩
  | broken src rest ih => exact ih
  | folder src sub rest ihsub ihrest =>
    rintro ns ⟨m, ms, hns, hm, hsub, hms⟩
    refine ⟨m, ms, hns, hm, ihsub ?_, ihrest hms⟩
    rw [hinside m.id]
    exact hsub

end

/-! ## Items with ids of their own -/

section

variable {sv : Server} {d : Drive} {ex : List String} {f : Forest} {p : String}

theorem shown_nodup (d : Drive) (p : String) (ex : Option (List String)) :
    ((shown (d.listed sv.profile p ex)).map DriveFile.id).Nodup := by
  have hids : (shown (d.listed sv.profile p ex)).map DriveFile.id =
      (d.listed sv.profile p ex).map Node.id := by
    rw [shown, List.map_map]
    rfl
  rw [hids]
  exact d.nodup.sublist (List.filter_sublist.map Node.id)

/-- What the Drive shows has ids of its own. -/
theorem Server.Shows.distinct (hids : ∀ n ∈ d, n.id ≠ "") : sv.Shows d ex f →
    (f.children.map DriveFile.id).Nodup → (∀ src ∈ f.children, src.id ≠ "") → f.Distinct := by
  have hparts {src : DriveFile} {rest : List DriveFile}
      (hnodup : ((src :: rest).map DriveFile.id).Nodup) (hne : ∀ x ∈ src :: rest, x.id ≠ "") :
      src.id ≠ "" ∧ (∀ x ∈ rest, x.id ≠ src.id) ∧ (rest.map DriveFile.id).Nodup ∧
        ∀ x ∈ rest, x.id ≠ "" := by
    obtain ⟨hsrc, hnodup⟩ := List.nodup_cons.mp hnodup
    refine ⟨hne src List.mem_cons_self, fun x hx hid => ?_, hnodup,
      fun x hx => hne x (List.mem_cons_of_mem _ hx)⟩
    exact hsrc (hid ▸ List.mem_map_of_mem hx)
  induction f with
  | nil => exact fun _ _ _ => trivial
  | file src rest ih =>
    intro h hnodup hne
    obtain ⟨hsrc, hother, hnodup, hne⟩ := hparts hnodup hne
    exact ⟨hsrc, hother, ih h.2.2.2 hnodup hne⟩
  | link src target rest ih =>
    intro h hnodup hne
    obtain ⟨hsrc, hother, hnodup, hne⟩ := hparts hnodup hne
    exact ⟨hsrc, hother, ih h.2.2.2.2 hnodup hne⟩
  | broken src rest ih =>
    intro h hnodup hne
    obtain ⟨hsrc, hother, hnodup, hne⟩ := hparts hnodup hne
    exact ⟨hsrc, hother, ih h.2.2 hnodup hne⟩
  | folder src sub rest ihsub ihrest =>
    rintro ⟨-, -, -, hkids, hsub, hrest⟩ hnodup hne
    obtain ⟨hsrc, hother, hnodup, hne⟩ := hparts hnodup hne
    refine ⟨hsrc, hother, ihsub hsub ?_ ?_, ihrest hrest hnodup hne⟩
    · rw [hkids]
      exact shown_nodup d src.id (some ex)
    · intro x hx
      rw [hkids] at hx
      obtain ⟨n, hn, rfl⟩ := Server.mem_shown hx
      exact hids n (List.mem_of_mem_filter hn)

end

/-! ## Drives that have grown -/

/-- The source folders are on the Drive. -/
theorem Server.Ready.has_sources {sv : Server} {cp : Copier} {d : Drive} {root destParent : String}
    {tree : Forest} (h : sv.Ready cp d root destParent tree) : ∀ k ∈ root :: tree.keys, d.has k := by
  intro k hk
  rcases List.mem_cons.mp hk with rfl | hk
  · exact h.there
  · apply h.sourceTree.below.has _ k hk
    intro src hsrc
    rw [h.sourceTree.children] at hsrc
    obtain ⟨n, hn, rfl⟩ := Server.mem_shown hsrc
    exact ⟨n, List.mem_of_mem_filter hn, rfl⟩

/-- Everything is still there, unchanged, and what is more has an id and one parent of its own. -/
structure Drive.Grows (d d' : Drive) : Prop where
  kept : ∀ n ∈ d, n ∈ d'
  added : ∀ n ∈ d', n ∈ d ∨ d.Fresh n.id ∧ ∃ p, n.file.parents = [p]

namespace Drive.Grows

variable {sv : Server} {cp : Copier} {d d' : Drive} {ex : List String} {f tree : Forest}
  {root destParent : String}

/-- What has an id that was known was there. -/
theorem old (h : d.Grows d') {n : Node} (hn : n ∈ d') (hold : ¬d.Fresh n.id) : n ∈ d :=
  (h.added n hn).resolve_right fun hnew => hold hnew.1

theorem find_eq (h : d.Grows d') {id : String} (hold : ¬d.Fresh id) : d'.find id = d.find id := by
  cases hn : d.find id with
  | some n =>
    obtain ⟨hmem, rfl⟩ := Drive.find_eq_some hn
    exact Drive.find_of_mem (h.kept n hmem)
  | none =>
    cases hn' : d'.find id with
    | none => rfl
    | some n =>
      obtain ⟨hmem, rfl⟩ := Drive.find_eq_some hn'
      exact absurd ⟨n, h.old hmem hold, rfl⟩ (Drive.not_has_of_find hn)

/-- An item that was there has the target it had. -/
theorem resolve_eq (h : d.Grows d') {n : Node} (hn : n ∈ d) :
    d'.resolve (DriveFile.fromApi (n.file.view listFields)) =
      d.resolve (DriveFile.fromApi (n.file.view listFields)) := by
  unfold Drive.resolve
  cases ht : truthy (DriveFile.fromApi (n.file.view listFields)).shortcutTargetId with
  | none => rfl
  | some id =>
    have htarget : n.file.shortcutTarget = some id := (truthy_eq_some.mp ht).1
    have hold : ¬d.Fresh id := fun hfresh => (hfresh.2 n hn).2.2 htarget
    rw [Option.bind_some, Option.bind_some, h.find_eq hold]

theorem listed_eq {p : String} (hinside : d'.inside p = d.inside p) (pf : Profile)
    (ex : Option (List String)) : d'.listed pf p ex = d.listed pf p ex := by
  have hlisted (d : Drive) : d.listed pf p ex =
      (d.inside p).filter fun n => !(ex.any fun ex => pf.hides ex n.file) := by
    rw [Drive.inside, List.filter_filter]
    simp only [Drive.listed, Bool.and_comm]
  rw [hlisted, hlisted, hinside]

/-- The Drive shows the same below folders that have the same items. -/
theorem shows_ (h : d.Grows d') : sv.Shows d ex f → (∀ src ∈ f.children, ∃ n ∈ d,
    src = DriveFile.fromApi (n.file.view listFields)) → (∀ k ∈ f.keys, d'.inside k = d.inside k) →
    sv.Shows d' ex f := by
  induction f with
  | nil => exact fun _ _ _ => trivial
  | file src rest ih =>
    rintro ⟨hfolder, hlink, hfits, hrest⟩ hkids hinside
    exact ⟨hfolder, hlink, hfits, ih hrest (fun x hx => hkids x (List.mem_cons_of_mem _ hx)) hinside⟩
  | link src target rest ih =>
    rintro ⟨hlink, htarget, hfolder, hfits, hrest⟩ hkids hinside
    obtain ⟨n, hn, rfl⟩ := hkids src List.mem_cons_self
    exact ⟨hlink, (h.resolve_eq hn).trans htarget, hfolder, hfits,
      ih hrest (fun x hx => hkids x (List.mem_cons_of_mem _ hx)) hinside⟩
  | broken src rest ih =>
    rintro ⟨hlink, htarget, hrest⟩ hkids hinside
    obtain ⟨n, hn, rfl⟩ := hkids src List.mem_cons_self
    exact ⟨hlink, (h.resolve_eq hn).trans htarget,
      ih hrest (fun x hx => hkids x (List.mem_cons_of_mem _ hx)) hinside⟩
  | folder src sub rest ihsub ihrest =>
    rintro ⟨hfolder, hne, hfits, hsubkids, hsub, hrest⟩ hkids hinside
    refine ⟨hfolder, hne, hfits, ?_, ihsub hsub (fun x hx => ?_) fun k hk =>
      hinside k (List.mem_cons_of_mem _ (List.mem_append_left _ hk)),
      ihrest hrest (fun x hx => hkids x (List.mem_cons_of_mem _ hx)) fun k hk =>
        hinside k (List.mem_cons_of_mem _ (List.mem_append_right _ hk))⟩
    · rw [hsubkids, listed_eq (hinside src.id List.mem_cons_self)]
    · rw [hsubkids] at hx
      obtain ⟨n, hn, rfl⟩ := Server.mem_shown hx
      exact ⟨n, List.mem_of_mem_filter hn, rfl⟩

theorem sourceTree (h : d.Grows d') (htree : sv.SourceTree d ex root tree)
    (hinside : ∀ k ∈ root :: tree.keys, d'.inside k = d.inside k) :
    sv.SourceTree d' ex root tree where
  children := by rw [htree.children, listed_eq (hinside root List.mem_cons_self)]
  below := by
    apply h.shows_ htree.below _ fun k hk => hinside k (List.mem_cons_of_mem _ hk)
    intro src hsrc
    rw [htree.children] at hsrc
    obtain ⟨n, hn, rfl⟩ := Server.mem_shown hsrc
    exact ⟨n, List.mem_of_mem_filter hn, rfl⟩
  tagged := htree.tagged
  nodup := htree.nodup
  parents := by
    intro n hn
    rcases h.added n hn with hn | ⟨-, p, hp⟩
    · exact htree.parents n hn
    · rw [hp]
      exact List.nodup_singleton p

theorem not_fresh {n : Node} (hn : n ∈ d) {p : String} (hp : p ∈ n.file.parents) : ¬d.Fresh p :=
  fun hfresh => (hfresh.2 n hn).2.1 hp

/-- What is new is above nothing that was there. -/
theorem under (h : d.Grows d') {x : String} (hx : d'.Under root x) (hold : ¬d.Fresh x) :
    d.Under root x := by
  induction hx with
  | self => exact .self
  | parent hm hp _ ih =>
    have hm := h.old hm hold
    exact .parent hm hp (ih (not_fresh hm hp))

theorem mirror (h : d.Grows d') {p : String} (hp : Mirror d' destParent p) (hold : ¬d.Fresh p) :
    Mirror d destParent p := by
  induction hp with
  | parent => exact .parent
  | folder _ hn hlive hfolder htag ih =>
    have hn := h.old hn hold
    have hparent : _ ∈ _ := of_decide_eq_true (Bool.and_eq_true_iff.mp hlive).2
    exact .folder (ih (not_fresh hn hparent)) hn hlive hfolder htag

/-- A source tree and a destination parent are still ready. -/
theorem ready (h : d.Grows d') (hready : sv.Ready cp d root destParent tree)
    (hinside : ∀ k ∈ root :: tree.keys, d'.inside k = d.inside k) :
    sv.Ready cp d' root destParent tree := by
  obtain ⟨n, hn, hroot⟩ := hready.there
  obtain ⟨p, hp, hpid, husable⟩ := hready.usable
  exact
    { single := hready.single
      unlimited := hready.unlimited
      real := hready.real
      pages := hready.pages
      valid := hready.valid
      source := hready.source
      dest := hready.dest
      sourceTree := h.sourceTree hready.sourceTree hinside
      there := ⟨n, h.kept n hn, hroot⟩
      usable := ⟨p, h.kept p hp, hpid, husable⟩
      outside := fun hunder => hready.outside (h.under hunder fun hfresh => (hfresh.2 p hp).1 hpid)
      apart := by
        intro q hq hmem
        obtain ⟨m, hm, hid⟩ := hready.has_sources q hmem
        exact hready.apart q (h.mirror hq fun hfresh => (hfresh.2 m hm).1 hid) hmem
      named := hready.named
      nameless := by
        rintro ⟨m, hm, hid⟩
        rcases h.added m hm with hm | ⟨hfresh, -⟩
        · exact hready.nameless ⟨m, hm, hid⟩
        · exact hfresh.1 hid }

end Drive.Grows

/-! ## The end of a run that makes nothing -/

section

variable {c : Course} {K O : Set String} {M : List Effect} {r : CopyResult} {d : Drive} {R : String}

/-- What is counted when nothing happens. -/
theorem idle_counts (hM : ∀ e ∈ M, e.Idle) : (M.map Effect.copies).sum = 0 ∧
    (M.map Effect.bytes).sum = 0 ∧ M.filterMap Effect.failure = [] ∧
    M.filterMap Effect.label = [] := by
  induction M with
  | nil => exact ⟨rfl, rfl, rfl, rfl⟩
  | cons e M ih =>
    obtain ⟨he, hM⟩ := List.forall_mem_cons.mp hM
    obtain ⟨hcopies, hbytes, hfailure, hlabel⟩ := ih hM
    have hnothing : e.copies = 0 ∧ e.bytes = 0 ∧ e.failure = none ∧ e.label = none := by
      rcases he with ⟨src, shortcutId, rfl⟩ | ⟨key, id, rfl⟩
      · exact ⟨rfl, rfl, rfl, rfl⟩
      · exact ⟨rfl, rfl, rfl, rfl⟩
    rw [List.map_cons, List.map_cons, List.sum_cons, List.sum_cons, hnothing.1, hnothing.2.1,
      List.filterMap_cons_none hnothing.2.2.1, List.filterMap_cons_none hnothing.2.2.2, hcopies,
      hbytes]
    exact ⟨rfl, rfl, hfailure, hlabel⟩

/-- A run without effects makes nothing but a log. -/
theorem Course.Grown.new_stored {G : Growth} {g : Gist} (h : c.Grown K O M G g d)
    (hlog : c.logName = logNameFor c.sv.account) (hM : M.filterMap Effect.label = [])
    (hR : AList.lookup c.root g.folderMap = some R) :
    ∀ n ∈ G.new, n.liveIn R = true ∧ n.isStored = true := by
  intro n hn
  obtain ⟨l, hl, -, hreal⟩ := h.label_of hn
  have hlabel : l = c.logLabel := by
    have hmem := h.labels.mem_iff.mp hl
    rw [hM, List.nil_append] at hmem
    split_ifs at hmem
    · exact List.mem_singleton.mp hmem
    · exact absurd hmem List.not_mem_nil
  subst hlabel
  obtain ⟨P, hP, hparents⟩ := hreal.parents
  obtain rfl : R = P := Option.some.inj (hR.symm.trans hP)
  constructor
  · simp [Node.liveIn, hreal.live, hparents]
  · apply isStored_of_tool _ hreal.props
    have hname : n.file.name = logNameFor c.sv.account := hreal.name.trans hlog
    rw [hname]
    exact Course.isStoreName_logNameFor _

/-- A run without effects goes fully well, and leaves every folder as it was. -/
theorem Course.Arrived.idle (h : c.Arrived K O M r d) (hdry : c.dry = false) (hown : c.own = none)
    (hlog : c.logName = logNameFor c.sv.account) (hprior : c.prior = []) (hM : ∀ e ∈ M, e.Idle)
    (hroot : c.root ∈ K) (hhome : c.rootHome = some R)
    (hstored : ∀ n ∈ c.base.inside R, n.isStored = false) : r.fullyOk = true ∧
      r.copiedCount = 0 ∧ r.copiedBytes = 0 ∧ c.base.Grows d ∧
      ∀ p, d.inside p = c.base.inside p := by
  obtain ⟨hcopies, hbytes, hfailure, hlabel⟩ := idle_counts hM
  obtain ⟨hcopied, hcopiedBytes, hskipped, hfailed⟩ := h.shows_
  have hmode : r.dryRun = false := h.mode.trans hdry
  rw [hmode, if_neg Bool.false_ne_true] at hcopied hcopiedBytes
  have hok := h.fullyOk hdry hprior hfailure
  have hsettled := h.settled
  rw [hdry, if_neg Bool.false_ne_true] at hsettled
  obtain ⟨-, -, g, G, d', R', hG, -, hR', hsettled⟩ := hsettled
  -- the copy of the root is the one that was found
  obtain rfl : R = R' := by
    rcases hG.rooted R' hR' hroot with hfound | ⟨hfound, -⟩
    · exact Option.some.inj (hhome.symm.trans hfound)
    · rw [hhome] at hfound
      cases hfound
  have hd : d = c.sv.swept d' R := by
    unfold Server.Settled at hsettled
    dsimp only at hsettled
    rwa [if_pos hok] at hsettled
  have hnodes := hG.nodes_eq hown
  have hkept : ∀ n ∈ c.base, (n.liveIn R && n.isStored) = false := by
    intro n hn
    cases hlive : n.liveIn R with
    | false => rfl
    | true => exact hstored n (List.mem_filter.mpr ⟨hn, hlive⟩)
  refine ⟨hok, hcopied.trans hcopies, hcopiedBytes.trans hbytes,
    ⟨fun n hn => ?_, fun n hn => ?_⟩, fun p => ?_⟩
  · have hn' : n ∈ d' := by
      change n ∈ d'.nodes
      rw [hnodes]
      exact List.mem_append_right _ hn
    rw [hd]
    apply mem_foldl_trash _ _ d' hn'
    intro hid
    have hswept := (mem_storeIds hn').mp hid
    rw [hkept n hn] at hswept
    cases hswept
  · rw [hd] at hn
    obtain ⟨k, hk, hcore, hsame⟩ := of_mem_foldl_trash _ d' hn
    rcases hG.old_or_new hown k hk with hold | ⟨hfresh, q, hq⟩
    · rcases hsame with rfl | hid
      · exact .inl hold
      · have hswept := (mem_storeIds hk).mp hid
        rw [hkept k hold] at hswept
        cases hswept
    · exact .inr ⟨Node.id_of_core hcore ▸ hfresh, q, Node.parents_of_core hcore ▸ hq⟩
  · have hnew := hG.new_stored hlog hlabel hR'
    rw [hd, inside_swept, Drive.inside, hnodes, List.filter_append, List.filter_append]
    have hgone : (G.new.filter fun n => n.liveIn p).filter
        (fun n => !(n.liveIn R && n.isStored)) = [] := by
      apply List.filter_eq_nil_iff.mpr
      intro n hn
      simp [hnew n (List.mem_of_mem_filter hn)]
    rw [hgone, List.nil_append]
    apply List.filter_eq_self.mpr
    intro n hn
    rw [hkept n (List.mem_of_mem_filter hn)]
    rfl

end

/-! ## A second copy -/

/-- A source tree, and a destination parent with one whole copy of it, on a server whose searches
are prompt. -/
structure Server.Copied (sv : Server) (cp : Copier) (base d : Drive) (root destParent : String)
    (tree : Forest) : Prop extends sv.Ready cp d root destParent tree where
  prompt : sv.Prompt
  whole : (tree.anew root).filterMap Effect.failure = []
  copy : ∃ m ∈ d.inside destParent, m.isFolder = true ∧ m.tag = some root ∧
    (∀ n ∈ d.inside destParent, n.isFolder = true → n.tag = some root → n = m) ∧
    base.Mirrors d tree (d.inside m.id)

/-- A run that copies nothing and leaves every folder as it was. -/
structure Recopied (d d' : Drive) (tree : Forest) (r : CopyResult) : Prop where
  ok : r.fullyOk = true
  copied : r.copiedCount = 0
  bytes : r.copiedBytes = 0
  skipped : r.skippedCount = tree.items.length
  grows : d.Grows d'
  inside : ∀ p, d'.inside p = d.inside p

section

variable {sv : Server} {cp : Copier} {base d d' : Drive} {root destParent : String} {tree : Forest}

namespace Server.Ready

theorem ids (h : sv.Ready cp d root destParent tree) : ∀ n ∈ d, n.id ≠ "" :=
  fun n hn hid => h.nameless ⟨n, hn, hid⟩

theorem distinct (h : sv.Ready cp d root destParent tree) : tree.Distinct := by
  have htree := h.sourceTree
  apply htree.below.distinct h.ids
  · rw [htree.children]
    exact shown_nodup d root _
  · intro src hsrc
    rw [htree.children] at hsrc
    obtain ⟨n, hn, rfl⟩ := Server.mem_shown hsrc
    exact h.ids n (List.mem_of_mem_filter hn)

end Server.Ready

namespace Server.Copied

/-- The copy is found, nothing in it has a name of the store, and it has everything. -/
theorem has (h : sv.Copied cp base d root destParent tree) : ∃ R, R ≠ "" ∧
    sv.found d destParent root = some R ∧ (∀ n ∈ d.inside R, isStoreName n.file.name = false) ∧
    sv.Has d (DestinationIndex.build (sv.indexed d (some R))) R tree := by
  obtain ⟨m, hm, hfolder, htag, honly, hmirror⟩ := h.copy
  have htree := h.sourceTree
  have hid := h.ids m (List.mem_of_mem_filter hm)
  obtain ⟨-, hnodup⟩ := List.nodup_cons.mp htree.nodup
  refine ⟨m.id, hid, found_single h.prompt hm hfolder htag hid honly, fun n hn => ?_, ?_⟩
  · obtain ⟨src, hsrc, hname⟩ := hmirror.names htree.below n hn
    rw [hname]
    exact h.named src hsrc
  · exact hmirror.has h.prompt h.ids root htree.below h.distinct hnodup h.whole hid (fun n hn => hn)
      (hmirror.tagged htree.below (tree.tops_sublist_keys.nodup hnodup))

theorem unlogged (h : sv.Copied cp base d root destParent tree) : Unlogged d destParent root := by
  obtain ⟨m, -, -, -, honly, hmirror⟩ := h.copy
  intro n hn hlive hfolder htag k hk hkn
  obtain rfl := honly n (List.mem_filter.mpr ⟨hn, hlive⟩) hfolder htag
  obtain ⟨src, hsrc, hname⟩ :=
    hmirror.names h.sourceTree.below k (List.mem_filter.mpr ⟨hk, hkn⟩)
  have hstore := h.named src hsrc
  rw [← hname, isStoreName, Bool.or_eq_false_iff] at hstore
  exact hstore.1

/-- A run over a whole copy. -/
theorem recopied_of_comes (h : sv.Copied cp base d root destParent tree) {name : String}
    {r : CopyResult}
    (hcomes : (sv.course cp d root destParent tree (Mirror d destParent)).Comes name tree r d') :
    Recopied d d' tree r := by
  obtain ⟨R, hRne, hfound, hnames, hhas⟩ := h.has
  have htree := h.sourceTree
  obtain ⟨prior, hnothing, harrived⟩ := hcomes.accepted (findings_unlogged h.unlogged)
  have hplace : (sv.course cp d root destParent tree (Mirror d destParent)).rootPlace name =
      some R := (course_home _ _).trans hfound
  rw [course_landing, course_guide, hplace] at harrived
  generalize hM : _ ++ Forest.effects (sv.guide cp d) _ _ _ _ = M at harrived
  obtain ⟨hidle, hskips⟩ := @walk_idle sv cp d tree root R _ hhas h.distinct
  have hM : M.Perm (.kept root R :: tree.walk (sv.guide cp d) root (some R)
      (DestinationIndex.build (sv.indexed d (some R)))) := by
    have hwalk : tree.effects (sv.guide cp d) false root (some R) = tree.walk (sv.guide cp d) root
        (some R) (DestinationIndex.build (sv.indexed d (some R))) := by
      rw [Forest.effects, if_neg Bool.false_ne_true]
      rfl
    have hperm := tree.effects_perm (sv.guide cp d) root (some R) cp.config.fastList false
    rw [hwalk] at hperm
    rw [← hM, hfound]
    exact hperm.cons _
  have hall : ∀ e ∈ M, e.Idle := by
    intro e he
    rcases List.mem_cons.mp (hM.mem_iff.mp he) with rfl | he
    · exact .inr ⟨root, R, rfl⟩
    · exact hidle e he
  have hstored : ∀ n ∈ d.inside R, n.isStored = false := by
    intro n hn
    rw [Node.isStored, hnames n hn, Bool.and_false]
  obtain ⟨hok, hcopied, hbytes, hgrows, hinside⟩ := harrived.idle h.real rfl rfl
    (List.map_eq_nil_iff.mp (hnothing h.real)) hall (.inl rfl) hfound hstored
  refine ⟨hok, hcopied, hbytes, ?_, hgrows, hinside⟩
  rw [harrived.shows_.skipped, Tally.of, (hM.map Effect.skips).sum_eq, List.map_cons, List.sum_cons,
    hskips]
  exact Nat.zero_add _

/-- There is still a whole copy when every folder is as it was. -/
theorem later (h : sv.Copied cp base d root destParent tree) (hgrows : d.Grows d')
    (hinside : ∀ p, d'.inside p = d.inside p) : sv.Copied cp base d' root destParent tree where
  toReady := hgrows.ready h.toReady fun k _ => hinside k
  prompt := h.prompt
  whole := h.whole
  copy := by
    obtain ⟨m, hm, hfolder, htag, honly, hmirror⟩ := h.copy
    rw [hinside destParent]
    refine ⟨m, hm, hfolder, htag, honly, ?_⟩
    rw [hinside m.id]
    exact hmirror.later hinside

end Server.Copied

/-- The first copy of a tree is a whole copy. -/
theorem FirstCopy.whole_copy (hready : sv.Uncopied cp d root destParent tree) (hprompt : sv.Prompt)
    (hwhole : (tree.anew root).filterMap Effect.failure = []) {name : String} {r : CopyResult}
    (h : FirstCopy d d' destParent root name tree r) :
    sv.Copied cp d d' root destParent tree := by
  obtain ⟨hkept, hadded, hothers, m, hm, -, hfolder, hparent, ms, es, hinside, hmirror, -, hes⟩ :=
    h.received
  have hgrows : d.Grows d' := ⟨hkept, hadded⟩
  obtain ⟨k, hk, hroot⟩ := hready.there
  have hne : root ≠ "" := hroot ▸ hready.ids k hk
  constructor
  · apply hgrows.ready hready.toReady
    intro k hk
    apply hothers k
    · rintro rfl
      exact hready.apart k .parent hk
    · obtain ⟨n, hn, hid⟩ := hready.has_sources k hk
      exact fun hfresh => (hfresh.2 n hn).1 hid
  · exact hprompt
  · exact hwhole
  · refine ⟨m, hparent.mem_iff.mpr List.mem_cons_self, hfolder.folder, hfolder.tag hne, ?_, ?_⟩
    · intro n hn hnfolder htag
      rcases List.mem_cons.mp (hparent.mem_iff.mp hn) with rfl | hn
      · rfl
      · obtain ⟨hn, hlive⟩ := List.mem_filter.mp hn
        exact absurd htag (hready.new n hn hlive hnfolder)
    · rw [hes (h.ok hwhole), List.nil_append] at hinside
      exact hmirror.perm hinside

/-- A finished run on a Drive leaves another. -/
def Server.RunsTo (sv : Server) (cp : Copier) (d d' : Drive) : Prop :=
  ∃ now r, ∃ c : Config (cp.undisturbed sv.service) (Except Exc CopyResult),
    Reach (cp.undisturbed sv.service)
      (start (cp.undisturbed sv.service) cp.run ⟨cp.freshMem now, d⟩ []) c ∧
    c.Returned (.ok r) ∧ c.world.state.drive = d'

theorem Server.Copied.yields (h : sv.Copied cp base d root destParent tree) (now : String) :
    Yields (cp.undisturbed sv.service) cp.run ⟨cp.freshMem now, d⟩ fun x w =>
      ∃ r, x = .ok r ∧ Recopied d w.state.drive tree r := by
  apply Alone.yields (cp.undisturbed_env sv.service)
  apply Alone.mono (run_comes_whole h.toReady h.unlogged now [])
  rintro (e | r) w hw
  · exact hw.elim
  · obtain ⟨n, -, -, hcomes⟩ := hw
    exact ⟨r, rfl, h.recopied_of_comes hcomes⟩

/-- After the first copy of a source tree without failures, however many more runs there are, each
of them can be run to its end and copies nothing. -/
theorem reruns_copy_nothing (h : sv.Uncopied cp d root destParent tree) (hprompt : sv.Prompt)
    (hwhole : (tree.anew root).filterMap Effect.failure = []) {d₁ : Drive}
    (hfirst : sv.RunsTo cp d d₁) (hlater : Relation.ReflTransGen (sv.RunsTo cp) d₁ d')
    (now : String) : Yields (cp.undisturbed sv.service) cp.run ⟨cp.freshMem now, d'⟩ fun x w =>
      ∃ r, x = .ok r ∧ Recopied d' w.state.drive tree r := by
  suffices hcopied : sv.Copied cp d d' root destParent tree from hcopied.yields now
  induction hlater with
  | refl =>
    obtain ⟨now, r, c, hc, hret, rfl⟩ := hfirst
    obtain ⟨r', n, -, -, -, hcopy⟩ := h.firstCopy hc hret
    exact hcopy.whole_copy h hprompt hwhole
  | tail _ hrun ih =>
    obtain ⟨now, r, c, hc, hret, rfl⟩ := hrun
    obtain ⟨r', -, hrecopied⟩ := (ih.yields now).returned c _ hc hret
    exact ih.later hrecopied.grows hrecopied.inside

end

/-- A second run over the folder with two files and a shortcut, after the first has ended. -/
theorem reruns_copy_nothing_partial : ∃ d₁, plainServer.RunsTo unlimitedCopier uncopiedDrive d₁ ∧
    ∀ now, Yields (unlimitedCopier.undisturbed plainServer.service) unlimitedCopier.run
      ⟨unlimitedCopier.freshMem now, d₁⟩ fun x w =>
        ∃ r, x = .ok r ∧ Recopied d₁ w.state.drive partialTree r := by
  obtain ⟨c, a, hc, ha⟩ := (uncopiedDrive_uncopied.yields "").completes _ .refl
  obtain ⟨r, -, rfl, -⟩ := uncopiedDrive_uncopied.firstCopy hc ha
  have hfirst : plainServer.RunsTo unlimitedCopier uncopiedDrive c.world.state.drive :=
    ⟨"", r, c, hc, ha, rfl⟩
  exact ⟨_, hfirst, reruns_copy_nothing uncopiedDrive_uncopied (fun _ _ _ h => h)
    (by decide +kernel) hfirst .refl⟩

end TurboCopy
