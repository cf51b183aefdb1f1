import TurboCopy.Copier.Course

/-!
# Source trees

A source folder whose folders are each reached by one path, as the forest of what the Drive shows
below it. A part of the listing of the root, as a page range selects it, is the listing of a part
of the tree.
-/

namespace TurboCopy

open Threads CopierM Copier

/-- The forest is what the Drive shows below its folders: every file, shortcut and folder under
its own case, with tags that fit. -/
def Server.Shows (sv : Server) (d : Drive) (ex : List String) : Forest → Prop
  | .nil => True
  | .file src rest => src.isFolder = false ∧ src.isShortcut = false ∧
      validateAppProperties (copyProps src none) = .ok () ∧ Shows sv d ex rest
  | .link src target rest => src.isShortcut = true ∧ d.resolve src = some target ∧
      target.isFolder = false ∧ validateAppProperties (copyProps target (some src.id)) = .ok () ∧
      Shows sv d ex rest
  | .broken src rest => src.isShortcut = true ∧ d.resolve src = none ∧ Shows sv d ex rest
  | .folder src sub rest => src.isFolder = true ∧ src.id ≠ "" ∧
      validateAppProperties (folderProps src.id none) = .ok () ∧
      sub.children = shown (d.listed sv.profile src.id (some ex)) ∧
      Shows sv d ex sub ∧ Shows sv d ex rest

/-- A folder with everything below it, each folder reached by one path. -/
structure Server.SourceTree (sv : Server) (d : Drive) (ex : List String) (root : String)
    (tree : Forest) : Prop where
  children : tree.children = shown (d.listed sv.profile root (some ex))
  below : sv.Shows d ex tree
  tagged : validateAppProperties (folderProps root none) = .ok ()
  nodup : (root :: tree.keys).Nodup
  parents : ∀ n ∈ d, n.file.parents.Nodup

namespace Server

variable {sv : Server} {d : Drive} {ex : List String}

/-- A part of the children of a folder is shown by a part of its tree. -/
theorem Shows.sub {f : Forest} : ∀ {kids : List DriveFile}, sv.Shows d ex f →
    kids.Sublist f.children →
    ∃ f', f'.children = kids ∧ sv.Shows d ex f' ∧ f'.keys.Sublist f.keys := by
  induction f with
  | nil =>
    intro kids _ hkids
    exact ⟨.nil, (List.sublist_nil.mp hkids).symm, trivial, .refl _⟩
  | file src rest ih =>
    rintro kids ⟨hfolder, hlink, hfits, hrest⟩ hkids
    rcases List.sublist_cons_iff.mp hkids with hkids | ⟨kids', rfl, hsome⟩
    · exact ih hrest hkids
    · obtain ⟨f', rfl, hf', hkeys⟩ := ih hrest hsome
      exact ⟨.file src f', rfl, ⟨hfolder, hlink, hfits, hf'⟩, hkeys⟩
  | link src target rest ih =>
    rintro kids ⟨hlink, htarget, hfolder, hfits, hrest⟩ hkids
    rcases List.sublist_cons_iff.mp hkids with hkids | ⟨kids', rfl, hsome⟩
    · exact ih hrest hkids
    · obtain ⟨f', rfl, hf', hkeys⟩ := ih hrest hsome
      exact ⟨.link src target f', rfl, ⟨hlink, htarget, hfolder, hfits, hf'⟩, hkeys⟩
  | broken src rest ih =>
    rintro kids ⟨hlink, htarget, hrest⟩ hkids
    rcases List.sublist_cons_iff.mp hkids with hkids | ⟨kids', rfl, hsome⟩
    · exact ih hrest hkids
    · obtain ⟨f', rfl, hf', hkeys⟩ := ih hrest hsome
      exact ⟨.broken src f', rfl, ⟨hlink, htarget, hf'⟩, hkeys⟩
  | folder src sub rest _ ih =>
    rintro kids ⟨hfolder, hne, hfits, hsubkids, hsub, hrest⟩ hkids
    rcases List.sublist_cons_iff.mp hkids with hkids | ⟨kids', rfl, hsome⟩
    · obtain ⟨f', rfl, hf', hkeys⟩ := ih hrest hkids
      refine ⟨f', rfl, hf', ?_⟩
      exact (hkeys.trans (List.sublist_append_right _ _)).trans (List.sublist_cons_self _ _)
    · obtain ⟨f', rfl, hf', hkeys⟩ := ih hrest hsome
      refine ⟨.folder src sub f', rfl, ⟨hfolder, hne, hfits, hsubkids, hsub, hf'⟩, ?_⟩
      exact (hkeys.append_left _).cons_cons _

theorem mem_shown {ns : List Node} {src : DriveFile} (h : src ∈ shown ns) :
    ∃ n ∈ ns, src = DriveFile.fromApi (n.file.view listFields) := by
  obtain ⟨n, hn, rfl⟩ := List.mem_map.mp h
  exact ⟨n, hn, rfl⟩

/-- The folders of a tree are on the Drive. -/
theorem Shows.has {f : Forest} : sv.Shows d ex f → (∀ src ∈ f.children, d.has src.id) →
    ∀ k ∈ f.keys, d.has k := by
  have hlisted (p : String) : ∀ src ∈ shown (d.listed sv.profile p (some ex)), d.has src.id := by
    intro src hsrc
    obtain ⟨n, hn, rfl⟩ := mem_shown hsrc
    exact ⟨n, List.mem_of_mem_filter hn, rfl⟩
  induction f with
  | nil => exact fun _ _ k hk => absurd hk List.not_mem_nil
  | file src rest ih =>
    exact fun h hkids => ih h.2.2.2 fun x hx => hkids x (List.mem_cons_of_mem _ hx)
  | link src target rest ih =>
    exact fun h hkids => ih h.2.2.2.2 fun x hx => hkids x (List.mem_cons_of_mem _ hx)
  | broken src rest ih =>
    exact fun h hkids => ih h.2.2 fun x hx => hkids x (List.mem_cons_of_mem _ hx)
  | folder src sub rest ihsub ihrest =>
    rintro ⟨-, -, -, hsubkids, hsub, hrest⟩ hkids k hk
    rcases List.mem_cons.mp hk with rfl | hk
    · exact hkids src List.mem_cons_self
    · rcases List.mem_append.mp hk with hk | hk
      · exact ihsub hsub (hsubkids ▸ hlisted src.id) k hk
      · exact ihrest hrest (fun x hx => hkids x (List.mem_cons_of_mem _ hx)) k hk

end Server

/-- The forest on a course that has its folders among its source folders. -/
theorem Course.shows_of {c : Course} {f : Forest} : ∀ {p : String}, p ∈ c.sources →
    c.sv.Shows c.base c.cp.config.excludeSubstrings f →
    (∀ src ∈ f.children, src ∈ shown
      (c.base.listed c.sv.profile p (some c.cp.config.excludeSubstrings))) →
    (∀ k ∈ f.keys, k ∈ c.sources) → c.Shows f := by
  have hitem {p : String} (hp : p ∈ c.sources) {src : DriveFile} (hsrc : src ∈ shown
      (c.base.listed c.sv.profile p (some c.cp.config.excludeSubstrings))) : c.Item src := by
    obtain ⟨n, hn, rfl⟩ := Server.mem_shown hsrc
    obtain ⟨hn, hlive⟩ := List.mem_filter.mp hn
    exact ⟨n, hn, p, hp, (Bool.and_eq_true_iff.mp hlive).1, rfl⟩
  induction f with
  | nil => exact fun _ _ _ _ => trivial
  | file src rest ih =>
    rintro p hp ⟨hfolder, hlink, hfits, hrest⟩ hkids hkeys
    refine ⟨hitem hp (hkids src List.mem_cons_self), hfolder, hlink, hfits, ?_⟩
    exact ih hp hrest (fun x hx => hkids x (List.mem_cons_of_mem _ hx)) hkeys
  | link src target rest ih =>
    rintro p hp ⟨hlink, htarget, hfolder, hfits, hrest⟩ hkids hkeys
    refine ⟨hitem hp (hkids src List.mem_cons_self), hlink, htarget, hfolder, hfits, ?_⟩
    exact ih hp hrest (fun x hx => hkids x (List.mem_cons_of_mem _ hx)) hkeys
  | broken src rest ih =>
    rintro p hp ⟨hlink, htarget, hrest⟩ hkids hkeys
    refine ⟨hitem hp (hkids src List.mem_cons_self), hlink, htarget, ?_⟩
    exact ih hp hrest (fun x hx => hkids x (List.mem_cons_of_mem _ hx)) hkeys
  | folder src sub rest ihsub ihrest =>
    rintro p hp ⟨hfolder, hne, hfits, hsubkids, hsub, hrest⟩ hkids hkeys
    have hsrc := hkeys src.id List.mem_cons_self
    refine ⟨hfolder, hne, hsrc, hfits, hsubkids, ?_, ?_⟩
    · exact ihsub hsrc hsub (fun x hx => hsubkids ▸ hx) fun k hk =>
        hkeys k (List.mem_cons_of_mem _ (List.mem_append_left _ hk))
    · exact ihrest hp hrest (fun x hx => hkids x (List.mem_cons_of_mem _ hx)) fun k hk =>
        hkeys k (List.mem_cons_of_mem _ (List.mem_append_right _ hk))

end TurboCopy
