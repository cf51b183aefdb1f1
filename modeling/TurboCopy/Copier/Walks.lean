import TurboCopy.Copier.Places

/-!
# The traversals on a course

One lemma for each procedure of a level, and by induction over the forest what the default
traversal and the fast one do to a run.
-/

namespace TurboCopy

open Threads CopierM Copier

/-- The folders of a forest. -/
def Forest.keySet (f : Forest) : Set String := {k | k ∈ f.keys}

theorem Forest.eq_nil_of_children {f : Forest} (h : f.children = []) : f = .nil := by
  cases f with
  | nil => rfl
  | _ => exact nomatch h

@[simp] theorem Forest.keySet_nil : Forest.keySet .nil = ∅ := by
  simp [Forest.keySet, Forest.keys]

theorem Forest.effects_nil (g : Guide) (fast : Bool) (under : String) (place : Option String) :
    Forest.effects g fast under place .nil = [] := by
  cases fast <;> rfl

namespace Course

variable {c : Course} {K K' O O' : Set String} {M : List Effect} {s : Site c.sv.service}
  {g : Gist} {d : Drive}

/-! ## What a level reads -/

theorem Drives.enter (h : c.Drives K O M g d) (hO : O ⊆ O') : c.Drives K O' M g d := by
  unfold Drives at h ⊢
  split_ifs at h ⊢
  · exact h
  · obtain ⟨G, hG⟩ := h
    exact ⟨G, hG.enter hO⟩

/-- A level is entered. -/
theorem Holds.enter (h : c.Holds K O M g d) (hO : O ⊆ O')
    (hroot : c.dry = false → g.destRoot ≠ none) : c.Holds K O' M g d :=
  { h with opened := fun hdry _ => hroot hdry, drive := h.drive.enter hO }

theorem Holds.nodup (h : c.Holds K O M g d) (hc : c.Clear) : ∀ n ∈ d, n.file.parents.Nodup := by
  intro n hn
  by_cases hdry : c.dry = true
  · rw [h.drive.unchanged hdry] at hn
    exact hc.parents n hn
  · obtain ⟨G, hG⟩ := h.drive.grown (Bool.eq_false_iff.mpr hdry)
    rcases hG.cases_mem hn with hn | ⟨m, hm, rfl⟩
    · obtain ⟨P, hP, -⟩ := hG.new_parents hn
      rw [hP]
      exact List.nodup_singleton P
    · rw [hG.patched m hm]
      exact hc.parents m hm

/-- A source folder has the listing it had. -/
theorem Holds.listed_source (h : c.Holds K O M g d) (hc : c.Clear) {p : String}
    (hp : p ∈ c.sources) (ex : Option (List String)) :
    d.listed c.sv.profile p ex = c.base.listed c.sv.profile p ex := by
  by_cases hdry : c.dry = true
  · rw [h.drive.unchanged hdry]
  · obtain ⟨G, hG⟩ := h.drive.grown (Bool.eq_false_iff.mpr hdry)
    exact hG.listed_source hc hp ex

/-- A shortcut of the source has the target it had. -/
theorem Holds.resolve_eq (h : c.Holds K O M g d) (hc : c.Clear) {src : DriveFile}
    (hsrc : c.Item src) : d.resolve src = c.base.resolve src := by
  by_cases hdry : c.dry = true
  · rw [h.drive.unchanged hdry]
  · obtain ⟨G, hG⟩ := h.drive.grown (Bool.eq_false_iff.mpr hdry)
    exact hG.resolve_item hc hsrc

/-- A file of the source is still there. -/
theorem Holds.item_mem (h : c.Holds K O M g d) (hc : c.Clear) {src : DriveFile}
    (hsrc : c.Item src) : ∃ n ∈ d, src.Shows n := by
  obtain ⟨n, hn, p, hp, hlive, rfl⟩ := hsrc
  have hshows : (DriveFile.fromApi (n.file.view listFields)).Shows n := ⟨rfl, rfl, rfl, rfl⟩
  by_cases hdry : c.dry = true
  · rw [h.drive.unchanged hdry]
    exact ⟨n, hn, hshows⟩
  · obtain ⟨G, hG⟩ := h.drive.grown (Bool.eq_false_iff.mpr hdry)
    exact ⟨n, hG.mem_of_spared hn (hc.ownItem n hn p hp hlive).1, hshows⟩

/-- The index of a level that was not entered is the one its folder had. -/
theorem Holds.index_eq (h : c.Holds K O M g d) (hc : c.Clear) {p : String} (hp : p ∈ K)
    (hpO : p ∉ O) (hroot : c.root ∈ K) {place dest : Option String}
    (hdock : c.Docked (some p) place dest g.folderMap) :
    DestinationIndex.build (c.sv.indexed d dest) = c.guide.shelf place := by
  have hdocked := hdock.docked
  split_ifs at hdocked with hdry
  · rw [hdocked, h.drive.unchanged hdry]
    rfl
  · obtain ⟨G, hG⟩ := h.drive.grown (Bool.eq_false_iff.mpr hdry)
    obtain ⟨P, rfl, hP, hplace⟩ := hdocked
    obtain ⟨P', hberth⟩ := hG.berths p hp
    obtain rfl : P = P' := Option.some.inj (hP.symm.trans hberth.place)
    exact hG.index_eq hc hberth hpO hroot hplace

theorem resolve_shows {src target : DriveFile} (h : d.resolve src = some target) :
    ∃ n ∈ d, target.Shows n := by
  obtain ⟨id, -, hfind⟩ := Option.bind_eq_some_iff.mp h
  obtain ⟨n, hn, rfl⟩ := Option.map_eq_some_iff.mp hfind
  exact ⟨n, (Drive.find_eq_some hn).1, rfl, rfl, rfl, rfl⟩

/-- A shortcut is resolved to its target. -/
theorem resolveShortcut_succeeds (src : DriveFile) :
    Succeeds c.cp s (resolveShortcut src) fun r s' => s' = s ∧ r = s.drive.resolve src := by
  unfold resolveShortcut Drive.resolve
  cases truthy src.shortcutTargetId with
  | none => exact Succeeds.pure ⟨rfl, rfl⟩
  | some id =>
    apply Succeeds.bind (R := fun x s' => s' = s ∧ (s.drive.find id).elim
      (x = .error Drive.notFound) fun n => x = .ok (n.file.view shortcutFields))
    · apply Server.ask_getMetadata (by decide)
      · intro n hn
        rw [hn]
        exact ⟨rfl, rfl⟩
      · intro hnone
        rw [hnone]
        exact ⟨rfl, rfl⟩
    · rintro x s' ⟨rfl, hx⟩
      cases hfind : s'.drive.find id with
      | some n =>
        rw [hfind] at hx
        obtain rfl := hx
        exact Succeeds.pure ⟨rfl, by rw [Option.bind_some, hfind]; rfl⟩
      | none =>
        rw [hfind] at hx
        obtain rfl := hx
        exact Succeeds.pure ⟨rfl, by rw [Option.bind_some, hfind]; rfl⟩

/-! ## A level -/

/-- A level in the course of a run: its folder is placed and entered, and its index is known. -/
structure Ready (c : Course) (K O : Set String) (M : List Effect) (s : Site c.sv.service)
    (l : Level) (i : ℕ) (place : Option String) : Prop where
  at_ : c.At K O M s
  root : c.root ∈ K ∧ c.root ∈ O
  placed : l.parentSourceId ∈ K
  entered : l.parentSourceId ∈ O
  docked : c.Docked (some l.parentSourceId) place l.dest s.mem.state.folderMap
  index : i < s.mem.indexes.length
  visited : ∀ v ∈ l.visited, v ∈ K

variable {l : Level} {i : ℕ} {place : Option String}

theorem Ready.saves (h : c.Ready K O M s l i place) : c.Saves K O (s.mem.gist c.dry) := .inr h.root

theorem Docked.congr {k : String} {dest : Option String} {fm fm' : Dict String}
    (h : c.Docked (some k) place dest fm) (hk : AList.lookup k fm' = AList.lookup k fm) :
    c.Docked (some k) place dest fm' where
  known := h.known
  docked := by
    have hdocked := h.docked
    split_ifs at hdocked ⊢
    · exact hdocked
    · obtain ⟨P, hP, hplace, hhome⟩ := hdocked
      exact ⟨P, hP, hk.trans hplace, hhome⟩

/-- The folder of a docked level stays where it is. -/
theorem Docked.frame {k : String} {dest : Option String} {m m' : Mem} {n : ℕ}
    (h : c.Docked (some k) place dest m.state.folderMap) (hf : Mem.Frame K n m m') (hk : k ∈ K) :
    c.Docked (some k) place dest m'.state.folderMap :=
  h.congr (hf.places k hk)

/-- A level after one of its procedures. -/
theorem Ready.next (h : c.Ready K O M s l i place) {M' : List Effect} {s' : Site c.sv.service}
    (h' : c.At K' O' M' s') (hK : K ⊆ K') (hO : O ⊆ O') (hf : Mem.Frame K i s.mem s'.mem) :
    c.Ready K' O' M' s' l i place where
  at_ := h'
  root := ⟨hK h.root.1, hO h.root.2⟩
  placed := hK h.placed
  entered := hO h.entered
  docked := h.docked.frame hf h.placed
  index := lt_of_lt_of_le h.index hf.grows
  visited v hv := hK (h.visited v hv)

theorem Ready.opened (h : c.Ready K O M s l i place) (hdry : c.dry = false) :
    (s.mem.gist c.dry).destRoot ≠ none :=
  h.at_.opened hdry ⟨_, h.entered⟩

/-- A level that is due: its folder is placed and not yet entered. -/
structure Due (c : Course) (K O : Set String) (M : List Effect) (s : Site c.sv.service)
    (l : Level) (place : Option String) : Prop where
  at_ : c.At K O M s
  root : c.root ∈ K ∧ (c.root = l.parentSourceId ∨ c.root ∈ O)
  placed : l.parentSourceId ∈ K
  closed : l.parentSourceId ∉ O
  docked : c.Docked (some l.parentSourceId) place l.dest s.mem.state.folderMap
  visited : ∀ v ∈ l.visited, v ∈ K
  opened : c.dry = false → (s.mem.gist c.dry).destRoot ≠ none

/-- Opening a level: its index is the one its folder had. -/
theorem buildIndex_ready (hc : c.Clear) (h : c.Due K O M s l place) :
    Succeeds c.cp s (buildIndex l.dest) fun i s' =>
      c.Ready K (insert l.parentSourceId O) M s' l i place ∧
      s'.mem.indexAt i = c.guide.shelf place ∧
      i = s.mem.indexes.length ∧ Mem.Frame K i s.mem s'.mem := by
  have hindex := h.at_.index_eq hc h.placed h.closed h.root.1 h.docked
  apply (Server.buildIndex_succeeds l.dest).mono
  rintro i s' ⟨rfl, rfl⟩
  have hat : c.At K O M ⟨(s.mem.exec (.newIndex l.dest (c.sv.indexed s.drive l.dest))).2,
      s.drive⟩ := h.at_
  refine ⟨⟨hat.enter (Set.subset_insert _ _) h.opened, h.root, h.placed, Set.mem_insert _ _, h.docked, ?_,
    h.visited⟩, ?_, rfl, ?_⟩
  · simp [Mem.exec]
  · rw [← hindex]
    simp [Mem.exec, Mem.indexAt]
  · refine ⟨by simp [Mem.exec], fun j hj => ?_, fun _ _ => rfl⟩
    simp [Mem.exec, Mem.indexAt, List.getElem?_append_left hj]

/-- A level after some of its children. -/
structure After (c : Course) (K K' O' : Set String) (M' : List Effect) (idx : DestinationIndex)
    (l : Level) (i : ℕ) (place : Option String) (s s' : Site c.sv.service) : Prop where
  ready : c.Ready K' O' M' s' l i place
  index : s'.mem.indexAt i = idx
  frame : Mem.Frame K i s.mem s'.mem

/-! ## Children -/

/-- A file of a level, found under its own id or through a shortcut. -/
theorem copyFile_after (hc : c.Clear) (h : c.Ready K O M s l i place) {src : DriveFile} {n : Node}
    (hn : n ∈ s.drive) (hshows : src.Shows n) (hfolder : src.isFolder = false)
    {shortcutId : Option String} (hfits : validateAppProperties (copyProps src shortcutId) = .ok ()) :
    Succeeds c.cp s (c.cp.copyFile l.dest src i l.parentSourceId shortcutId) fun _ s' =>
      c.After K K O (M ++ [(c.cp.settle (s.mem.indexAt i) l.parentSourceId src shortcutId).1])
        (c.cp.settle (s.mem.indexAt i) l.parentSourceId src shortcutId).2 l i place s s' := by
  apply (copyFile_succeeds hc h.at_ h.saves h.placed h.entered h.docked h.index hn hshows hfolder
    hfits).mono
  rintro _ s' ⟨h', hleft⟩
  exact ⟨h.next h' subset_rfl subset_rfl hleft.frame, hleft.index, hleft.frame⟩

/-- A file of the source. -/
theorem submitFile_after (hc : c.Clear) (h : c.Ready K O M s l i place) {src : DriveFile}
    (hsrc : c.Item src) (hfolder : src.isFolder = false)
    (hfits : validateAppProperties (copyProps src none) = .ok ()) :
    Succeeds c.cp s (c.cp.submitFile l.dest src i l.parentSourceId) fun _ s' =>
      c.After K K O (M ++ [(c.cp.settle (s.mem.indexAt i) l.parentSourceId src none).1])
        (c.cp.settle (s.mem.indexAt i) l.parentSourceId src none).2 l i place s s' := by
  obtain ⟨n, hn, hshows⟩ := h.at_.item_mem hc hsrc
  unfold Copier.submitFile
  rw [hc.unpooled, if_neg Bool.false_ne_true]
  exact copyFile_after hc h hn hshows hfolder hfits

/-- A shortcut of the source with a file as its target. -/
theorem linkedFile_after (hc : c.Clear) (h : c.Ready K O M s l i place) {src target : DriveFile}
    (hsrc : c.Item src) (htarget : c.base.resolve src = some target)
    (hfolder : target.isFolder = false)
    (hfits : validateAppProperties (copyProps target (some src.id)) = .ok ()) :
    Succeeds c.cp s (c.cp.copyFile l.dest target i l.parentSourceId (some src.id)) fun _ s' =>
      c.After K K O
        (M ++ [(c.cp.settle (s.mem.indexAt i) l.parentSourceId target (some src.id)).1])
        (c.cp.settle (s.mem.indexAt i) l.parentSourceId target (some src.id)).2 l i place s s' := by
  rw [← h.at_.resolve_eq hc hsrc] at htarget
  obtain ⟨n, hn, hshows⟩ := resolve_shows htarget
  exact copyFile_after hc h hn hshows hfolder hfits

/-- A shortcut without a target. -/
theorem inaccessible_after (h : c.Ready K O M s l i place) (src : DriveFile) :
    Succeeds c.cp s (inaccessibleShortcut src l.parentSourceId) fun _ s' =>
      c.After K K O (M ++ [.failed (inaccessibleItem src l.parentSourceId)]) (s.mem.indexAt i) l i
        place s s' := by
  apply (recordFailed_succeeds h.at_ rfl).mono
  rintro _ s' ⟨h', hi, hf⟩
  have hframe : Mem.Frame K i s.mem s'.mem := .of_eq hi hf
  exact ⟨h.next h' subset_rfl subset_rfl hframe, by rw [Mem.indexAt, hi]; rfl, hframe⟩

/-- A folder of a level is placed. -/
theorem enterFolder_after (hc : c.Clear) (h : c.Ready K O M s l i place) {src : DriveFile}
    (hf : src.id ∉ K) (hne : src.id ≠ "") (hsource : src.id ∈ c.sources)
    (hfits : validateAppProperties (folderProps src.id none) = .ok ()) :
    Succeeds c.cp s (c.cp.enterFolder l src none) fun r s' => ∃ dest, r = some dest ∧
      c.Docked (some src.id) (c.home place src) dest s'.mem.state.folderMap ∧
      c.After K (insert src.id K) O (M ++ [Forest.placing c.guide l.parentSourceId place src])
        (s.mem.indexAt i) l i place s s' := by
  unfold Copier.enterFolder
  apply Succeeds.bind (R := fun r s' => ∃ dest, r = .ok dest ∧
    c.Docked (some src.id) (c.home place src) dest s'.mem.state.folderMap ∧
    c.After K (insert src.id K) O (M ++ [Forest.placing c.guide l.parentSourceId place src])
      (s.mem.indexAt i) l i place s s')
  · apply Succeeds.attempt
    apply (getOrCreateFolder_succeeds hc h.at_ h.saves hf hne hsource hfits h.docked
      (fun u hu => Option.some.inj hu ▸ h.placed) (.inl h.root.1)).mono
    rintro dest s' ⟨h', hdock, hframe⟩
    refine ⟨dest, rfl, hdock, ?_, ?_, hframe i⟩
    · exact h.next h' (Set.subset_insert _ _) subset_rfl (hframe i)
    · exact (hframe (i + 1)).shelves i (by omega)
  · rintro r s' ⟨dest, rfl, h'⟩
    exact Succeeds.pure ⟨dest, rfl, h'⟩

/-! ## Subfolders -/

/-- What entering a level with the contents of a forest does. -/
def Enters (c : Course) (f : Forest) : Prop :=
  ∀ (K O : Set String) (M : List Effect) (s : Site c.sv.service) (l : Level)
    (place : Option String), c.Due K O M s l place → l.children = f.children →
    (∀ k ∈ f.keys, k ∉ K ∧ k ∉ O) →
    Succeeds c.cp s (c.cp.processLevel l) fun _ s' =>
      c.At (K ∪ f.keySet) (insert l.parentSourceId O ∪ f.keySet)
        (M ++ f.effects c.guide c.cp.config.fastList l.parentSourceId place) s' ∧
      Mem.Frame K s.mem.indexes.length s.mem s'.mem

/-- The destination of a placed folder is one to descend into. -/
theorem descends_iff (h : c.At K O M s) {k : String} (hk : k ∈ K) {home dest : Option String}
    (hdock : c.Docked (some k) home dest s.mem.state.folderMap) (kids : List DriveFile) :
    c.cp.descends dest kids = !kids.isEmpty := by
  have hdocked := hdock.docked
  unfold Copier.descends
  split_ifs at hdocked with hdry
  · rw [show c.cp.config.dryRun = true from hdry, Bool.or_true, Bool.and_true]
  · obtain ⟨G, hG⟩ := h.drive.grown (Bool.eq_false_iff.mpr hdry)
    obtain ⟨P, rfl, hP, -⟩ := hdocked
    obtain ⟨P', hberth⟩ := hG.berths k hk
    obtain rfl : P = P' := Option.some.inj (hP.symm.trans hberth.place)
    rw [truthy_some hberth.truthy, Option.isSome_some, Bool.true_or, Bool.and_true]

/-- A placed folder is entered unless it is empty. -/
theorem descend_after (h : c.Ready K O M s l i place) {k : String} (hk : k ∈ K) (hkO : k ∉ O)
    {home dest : Option String} (hdock : c.Docked (some k) home dest s.mem.state.folderMap)
    {sub : Forest} (hsub : c.Enters sub) (hkeys : ∀ k' ∈ sub.keys, k' ∉ K ∧ k' ∉ O) :
    Succeeds c.cp s (c.cp.descend l k dest sub.children) fun _ s' =>
      c.After K (K ∪ sub.keySet) (insert k O ∪ sub.keySet)
        (M ++ sub.effects c.guide c.cp.config.fastList k home) (s.mem.indexAt i) l i place s s' := by
  unfold Copier.descend
  rw [descends_iff h.at_ hk hdock]
  split_ifs with hkids
  · apply Succeeds.enter
    apply (hsub K O M s (Level.below l k dest sub.children) home ?_ rfl hkeys).mono
    · rintro _ s' ⟨h', hframe⟩
      have hi := h.index
      refine ⟨h.next h' Set.subset_union_left ?_ (hframe.mono subset_rfl hi.le), hframe.shelves i hi,
        hframe.mono subset_rfl hi.le⟩
      exact fun x hx => .inl (.inr hx)
    · refine ⟨h.at_, ⟨h.root.1, .inr h.root.2⟩, hk, hkO, hdock, fun v hv => ?_, h.opened⟩
      rcases Finset.mem_insert.mp hv with rfl | hv
      · exact hk
      · exact h.visited v hv
  · have hnil : sub = .nil := Forest.eq_nil_of_children (by simpa using hkids)
    subst hnil
    apply Succeeds.pure
    rw [Forest.effects_nil, List.append_nil, Forest.keySet_nil, Set.union_empty, Set.union_empty]
    have hframe : Mem.Frame K i s.mem s.mem := .of_eq rfl rfl
    exact ⟨h.next (h.at_.enter (Set.subset_insert k O) h.opened) subset_rfl (Set.subset_insert k O) hframe,
      rfl, hframe⟩

/-- The record of a folder for the completed folders is not part of the course. -/
theorem recordTreeNode_succeeds (s : Site c.sv.service) (folder : String) (kids : List DriveFile) :
    Succeeds c.cp s (c.cp.recordTreeNode folder kids) fun _ s' => s'.drive = s.drive ∧
      s'.mem.gist c.dry = s.mem.gist c.dry ∧ s'.mem.indexes = s.mem.indexes := by
  unfold Copier.recordTreeNode
  split_ifs
  · exact Succeeds.mem ⟨rfl, rfl, rfl⟩
  · exact Succeeds.pure ⟨rfl, rfl, rfl⟩

theorem recordTreeNode_after (h : c.Ready K O M s l i place) (folder : String)
    (kids : List DriveFile) :
    Succeeds c.cp s (c.cp.recordTreeNode folder kids) fun _ s' =>
      c.After K K O M (s.mem.indexAt i) l i place s s' := by
  apply (recordTreeNode_succeeds s folder kids).mono
  rintro _ ⟨m, d⟩ ⟨rfl, hg, hi⟩
  have hframe : Mem.Frame K i s.mem m := .of_eq hi (congrArg Gist.folderMap hg)
  have hat : c.At K O M ⟨m, s.drive⟩ := by
    unfold At
    rw [hg]
    exact h.at_
  exact ⟨h.next hat subset_rfl subset_rfl hframe, by rw [Mem.indexAt, hi]; rfl, hframe⟩

theorem skipCompleted_succeeds (h : c.At K O M s) (folder : DriveFile) :
    Succeeds c.cp s (c.cp.skipCompleted l folder none) fun b s' => b = false ∧ s' = s := by
  unfold Copier.skipCompleted Copier.mayBeComplete
  rw [Option.isNone_none, Bool.and_true]
  split_ifs with hskip
  · have hnone : s.mem.state.completedFolders = ∅ := h.uncompleted hskip
    apply Succeeds.mem_run (x := false) (m := s.mem)
    · simp [Mem.exec, hnone]
    · exact Succeeds.pure ⟨rfl, rfl⟩
  · exact Succeeds.pure ⟨rfl, rfl⟩

theorem After.trans {K₁ K₂ O₁ O₂ : Set String} {M₁ M₂ : List Effect} {idx₁ idx₂ : DestinationIndex}
    {s₁ s₂ : Site c.sv.service} (h : c.After K K₁ O₁ M₁ idx₁ l i place s s₁)
    (h' : c.After K₁ K₂ O₂ M₂ idx₂ l i place s₁ s₂) (hK : K ⊆ K₁) :
    c.After K K₂ O₂ M₂ idx₂ l i place s s₂ where
  ready := h'.ready
  index := h'.index
  frame := h.frame.trans h'.frame hK le_rfl

/-- A subfolder in the default traversal. -/
theorem copyFolder_after (hc : c.Clear) (h : c.Ready K O M s l i place) {src : DriveFile}
    {sub : Forest} (hf : src.id ∉ K) (hfO : src.id ∉ O) (hne : src.id ≠ "")
    (hsource : src.id ∈ c.sources) (hfits : validateAppProperties (folderProps src.id none) = .ok ())
    (hkids : sub.children = shown
      (c.base.listed c.sv.profile src.id (some c.cp.config.excludeSubstrings)))
    (hsub : c.Enters sub) (hkeys : ∀ k ∈ sub.keys, k ≠ src.id ∧ k ∉ K ∧ k ∉ O) :
    Succeeds c.cp s (c.cp.copyFolder l src none) fun _ s' =>
      c.After K (insert src.id K ∪ sub.keySet) (insert src.id O ∪ sub.keySet)
        (M ++ [Forest.placing c.guide l.parentSourceId place src] ++
          sub.effects c.guide c.cp.config.fastList src.id (c.home place src))
        (s.mem.indexAt i) l i place s s' := by
  unfold Copier.copyFolder
  rw [if_neg fun hv => hf (h.visited src.id hv)]
  apply Succeeds.bind (skipCompleted_succeeds h.at_ src)
  rintro b s ⟨rfl, rfl⟩
  rw [if_neg Bool.false_ne_true]
  apply Succeeds.bind (enterFolder_after hc h hf hne hsource hfits)
  rintro r s₁ ⟨dest, rfl, hdock, h₁⟩
  dsimp only
  apply Succeeds.bind (Server.listChildren_succeeds src.id src.id)
  rintro kids s₂ ⟨rfl, rfl⟩
  rw [h₁.ready.at_.listed_source hc hsource, ← hkids]
  apply Succeeds.bind (recordTreeNode_after h₁.ready src.id sub.children)
  rintro _ s₃ h₃
  have hdock₃ := hdock.frame h₃.frame (Set.mem_insert src.id K)
  have hmem : ∀ k ∈ sub.keys, k ∉ insert src.id K ∧ k ∉ O := by
    intro k hk
    obtain ⟨hne, hK, hO⟩ := hkeys k hk
    exact ⟨fun hm => hm.elim hne hK, hO⟩
  apply (descend_after h₃.ready (Set.mem_insert src.id K) hfO hdock₃ hsub hmem).mono
  rintro _ s' h'
  rw [h₃.index, h₁.index] at h'
  exact (h₁.trans h₃ (Set.subset_insert _ _)).trans h' (Set.subset_insert _ _)

/-! ## The default traversal -/

/-- One child and then the others. -/
theorem processChildren_cons {src : DriveFile} {rest : List DriveFile}
    {R Q : Unit → Site c.sv.service → Prop} (h : c.Ready K O M s l i place)
    (hx : Succeeds c.cp s (c.cp.processChild l i src) R)
    (hrest : ∀ s', R () s' → Succeeds c.cp s' (c.cp.processChildren l i rest) Q) :
    Succeeds c.cp s (c.cp.processChildren l i (src :: rest)) Q := by
  unfold Copier.processChildren
  apply Succeeds.mem_run (x := false) (m := s.mem)
  · exact Prod.ext h.at_.running rfl
  rw [if_neg Bool.false_ne_true]
  apply Succeeds.bind hx
  rintro _ s' hs'
  exact hrest s' hs'

theorem After.congr {s' : Site c.sv.service} {K₁ K₂ O₁ O₂ : Set String} {M₁ M₂ : List Effect}
    {idx : DestinationIndex} (h : c.After K K₁ O₁ M₁ idx l i place s s') (hK : K₁ = K₂)
    (hO : O₁ = O₂) (hM : M₁ = M₂) : c.After K K₂ O₂ M₂ idx l i place s s' := by
  subst hK hO hM
  exact h

theorem keySet_folder (src : DriveFile) (sub rest : Forest) (S : Set String) :
    insert src.id S ∪ sub.keySet ∪ rest.keySet = S ∪ (Forest.folder src sub rest).keySet := by
  ext k
  simp only [Forest.keySet, Forest.keys, Set.mem_union, Set.mem_insert_iff, Set.mem_ofPred_eq,
    List.mem_cons, List.mem_append]
  tauto

/-- What the default traversal of a level does. -/
def Walks (c : Course) (f : Forest) : Prop :=
  ∀ {K O : Set String} {M : List Effect} {s : Site c.sv.service} {l : Level} {i : ℕ}
    {place : Option String}, c.Ready K O M s l i place → (∀ k ∈ f.keys, k ∉ K ∧ k ∉ O) →
    Succeeds c.cp s (c.cp.processChildren l i f.children) fun _ s' => ∃ idx,
      c.After K (K ∪ f.keySet) (O ∪ f.keySet)
        (M ++ f.walk c.guide l.parentSourceId place (s.mem.indexAt i)) idx l i place s s'

/-- A child that is not entered, and then the others. -/
theorem leaf_children {src : DriveFile} {rest : Forest} {e : Effect} {idx : DestinationIndex}
    (h : c.Ready K O M s l i place)
    (hx : Succeeds c.cp s (c.cp.processChild l i src) fun _ s' =>
      c.After K K O (M ++ [e]) idx l i place s s')
    (hrest : c.Walks rest) (hkeys : ∀ k ∈ rest.keys, k ∉ K ∧ k ∉ O) :
    Succeeds c.cp s (c.cp.processChildren l i (src :: rest.children)) fun _ s' => ∃ idx',
      c.After K (K ∪ rest.keySet) (O ∪ rest.keySet)
        (M ++ (e :: rest.walk c.guide l.parentSourceId place idx)) idx' l i place s s' := by
  apply processChildren_cons h hx
  intro s₁ h₁
  apply (hrest h₁.ready hkeys).mono
  rintro _ s' ⟨idx', h'⟩
  rw [h₁.index, List.append_assoc] at h'
  exact ⟨idx', h₁.trans h' subset_rfl⟩

/-- Entering a level in the default traversal. -/
theorem Walks.enters {f : Forest} (hf : c.Walks f) (hc : c.Clear)
    (hslow : c.cp.config.fastList = false) : c.Enters f := by
  intro K O M s l place hdue hchildren hkeys
  unfold Copier.processLevel Forest.effects
  rw [hslow, if_neg Bool.false_ne_true, if_neg Bool.false_ne_true, hchildren]
  apply Succeeds.bind (buildIndex_ready hc hdue)
  rintro i s₁ ⟨hready, hindex, rfl, hframe⟩
  have hmem : ∀ k ∈ f.keys, k ∉ K ∧ k ∉ insert l.parentSourceId O := by
    intro k hk
    obtain ⟨hK, hO⟩ := hkeys k hk
    refine ⟨hK, fun hm => hm.elim ?_ hO⟩
    rintro rfl
    exact hK hdue.placed
  apply (hf hready hmem).mono
  rintro _ s' ⟨idx, h'⟩
  rw [hindex] at h'
  exact ⟨h'.ready.at_, hframe.trans h'.frame subset_rfl le_rfl⟩

/-- The default traversal has the effects of the walk. -/
theorem walks (hc : c.Clear) (hslow : c.cp.config.fastList = false) (f : Forest)
    (hshows : c.Shows f) (hnodup : f.keys.Nodup) : c.Walks f := by
  induction f with
  | nil =>
    intro K O M s l i place h _
    apply Succeeds.pure
    refine ⟨s.mem.indexAt i, ?_⟩
    rw [Forest.keySet_nil, Set.union_empty, Set.union_empty, Forest.walk, List.append_nil]
    exact ⟨h, rfl, .of_eq rfl rfl⟩
  | file src rest ih =>
    intro K O M s l i place h hkeys
    obtain ⟨hsrc, hfolder, hlink, hfits, hrest⟩ := hshows
    apply leaf_children h _ (ih hrest hnodup) hkeys
    unfold Copier.processChild
    rw [hfolder, hlink, Bool.or_false, if_neg Bool.false_ne_true]
    exact submitFile_after hc h hsrc hfolder hfits
  | link src target rest ih =>
    intro K O M s l i place h hkeys
    obtain ⟨hsrc, hlink, htarget, hfolder, hfits, hrest⟩ := hshows
    apply leaf_children h _ (ih hrest hnodup) hkeys
    unfold Copier.processChild Copier.handleContainer
    rw [hlink, Bool.or_true, if_pos rfl, if_pos rfl]
    apply Succeeds.bind (resolveShortcut_succeeds src)
    rintro r s ⟨rfl, rfl⟩
    rw [h.at_.resolve_eq hc hsrc, htarget]
    dsimp only
    rw [hfolder, if_neg Bool.false_ne_true]
    exact linkedFile_after hc h hsrc htarget hfolder hfits
  | broken src rest ih =>
    intro K O M s l i place h hkeys
    obtain ⟨hsrc, hlink, htarget, hrest⟩ := hshows
    apply leaf_children h _ (ih hrest hnodup) hkeys
    unfold Copier.processChild Copier.handleContainer
    rw [hlink, Bool.or_true, if_pos rfl, if_pos rfl]
    apply Succeeds.bind (resolveShortcut_succeeds src)
    rintro r s ⟨rfl, rfl⟩
    rw [h.at_.resolve_eq hc hsrc, htarget]
    exact inaccessible_after h src
  | folder src sub rest ihsub ihrest =>
    intro K O M s l i place h hkeys
    obtain ⟨hfolder, hne, hsource, hfits, hkids, hsub, hrest⟩ := hshows
    obtain ⟨hsrc, hnodup⟩ := List.nodup_cons.mp hnodup
    obtain ⟨hnodupsub, hnoduprest, hdisjoint⟩ := List.nodup_append.mp hnodup
    rw [List.mem_append, not_or] at hsrc
    obtain ⟨hf, hfO⟩ := hkeys src.id List.mem_cons_self
    have hlink : src.isShortcut = false := DriveFile.not_isShortcut_of_isFolder hfolder
    have hchild : c.cp.processChild l i src = c.cp.copyFolder l src none := by
      simp [Copier.processChild, Copier.handleContainer, hfolder, hlink]
    have henters : c.Enters sub := Walks.enters (ihsub hsub hnodupsub) hc hslow
    have hkeysub : ∀ k ∈ sub.keys, k ≠ src.id ∧ k ∉ K ∧ k ∉ O := by
      intro k hk
      refine ⟨fun he => hsrc.1 (he ▸ hk), hkeys k ?_⟩
      exact List.mem_cons_of_mem _ (List.mem_append_left _ hk)
    apply processChildren_cons h (hchild ▸ copyFolder_after hc h hf hfO hne hsource hfits hkids
      henters hkeysub)
    intro s₁ h₁
    have hkeyrest : ∀ k ∈ rest.keys, k ∉ insert src.id K ∪ sub.keySet ∧
        k ∉ insert src.id O ∪ sub.keySet := by
      intro k hk
      obtain ⟨hK, hO⟩ := hkeys k (List.mem_cons_of_mem _ (List.mem_append_right _ hk))
      have hne : k ≠ src.id := fun he => hsrc.2 (he ▸ hk)
      have hsub : k ∉ sub.keySet := fun hm => hdisjoint k hm k hk rfl
      exact ⟨fun hm => hm.elim (fun hm => hm.elim hne hK) hsub,
        fun hm => hm.elim (fun hm => hm.elim hne hO) hsub⟩
    apply (ihrest hrest hnoduprest h₁.ready hkeyrest).mono
    rintro _ s' ⟨idx, h'⟩
    rw [h₁.index, keySet_folder, keySet_folder] at h'
    refine ⟨idx, (h₁.trans h' ?_).congr rfl rfl ?_⟩
    · exact fun k hk => .inl (.inr hk)
    · have heffects : sub.effects c.guide c.cp.config.fastList src.id (c.home place src) =
          sub.walk c.guide src.id (c.home place src) (c.guide.shelf (c.home place src)) := by
        rw [Forest.effects, hslow, if_neg Bool.false_ne_true]
      rw [heffects, Forest.walk]
      simp only [List.append_assoc]
      rfl

end Course
end TurboCopy
