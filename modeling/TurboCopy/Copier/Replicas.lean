import TurboCopy.Copier.Duplicates
import TurboCopy.Copier.Mirrored

/-!
# The first copy of a source folder

A real run over a server without errors, from a source tree into a destination parent that has no
copy of it: it ends, everything that was there is unchanged, and the new folder is a mirror of the
source, with the same bytes.
-/

namespace TurboCopy

open Threads CopierM Copier

/-! ## The counts -/

namespace Forest

/-- The files that are small enough, with the targets of the shortcuts. -/
def due (f : Forest) : List DriveFile := (f.items.filter fun x => !tooLarge x.1).map Prod.fst

variable {f : Forest} {u : Option String} {M M' : List Effect}

theorem madeIn_perm (h : M.Perm M') : (madeIn u M).Perm (madeIn u M') :=
  (h.filterMap _).filter _

theorem due_cons (x : DriveFile × Option String) (items : List (DriveFile × Option String)) :
    ((x :: items).filter fun x => !tooLarge x.1).map Prod.fst =
      if tooLarge x.1 then (items.filter fun x => !tooLarge x.1).map Prod.fst
      else x.1 :: (items.filter fun x => !tooLarge x.1).map Prod.fst := by
  rw [List.filter_cons]
  cases tooLarge x.1 <;> rfl

theorem due_folder (src : DriveFile) (sub rest : Forest) :
    (folder src sub rest).due = sub.due ++ rest.due := by
  have hitems : (folder src sub rest).items = sub.items ++ rest.items := rfl
  rw [due, hitems, List.filter_append, List.map_append]
  rfl

/-- What is counted when everything is made anew. -/
theorem counts_anew (f : Forest) : ∀ under : String,
    ((f.anew under).map Effect.copies).sum = f.due.length ∧
      ((f.anew under).map Effect.bytes).sum = (f.due.map DriveFile.bytes).sum ∧
      ((f.anew under).map Effect.skips).sum = 0 := by
  have hcons (under : String) (src : DriveFile) (shortcutId : Option String) {N : List Effect}
      {due : List DriveFile} (h : (N.map Effect.copies).sum = due.length ∧
        (N.map Effect.bytes).sum = (due.map DriveFile.bytes).sum ∧ (N.map Effect.skips).sum = 0) :
      ((copying under src shortcutId :: N).map Effect.copies).sum =
          (if tooLarge src then due else src :: due).length ∧
        ((copying under src shortcutId :: N).map Effect.bytes).sum =
          ((if tooLarge src then due else src :: due).map DriveFile.bytes).sum ∧
        ((copying under src shortcutId :: N).map Effect.skips).sum = 0 := by
    obtain ⟨hcopies, hbytes, hskips⟩ := h
    unfold copying
    split_ifs
    · simp [Effect.copies, Effect.bytes, Effect.skips, hcopies, hbytes, hskips]
    · simp [Effect.copies, Effect.bytes, Effect.skips, hcopies, hbytes, hskips, add_comm]
  induction f with
  | nil => exact fun _ => ⟨rfl, rfl, rfl⟩
  | file src rest ih =>
    intro under
    have hdue : (file src rest).due = if tooLarge src then rest.due else src :: rest.due :=
      due_cons (src, none) rest.items
    rw [hdue]
    exact hcons under src none (ih under)
  | link src target rest ih =>
    intro under
    have hdue : (link src target rest).due =
        if tooLarge target then rest.due else target :: rest.due :=
      due_cons (target, some src.id) rest.items
    rw [hdue]
    exact hcons under target (some src.id) (ih under)
  | broken src rest ih =>
    intro under
    obtain ⟨hcopies, hbytes, hskips⟩ := ih under
    have hdue : (broken src rest).due = rest.due := rfl
    simp [anew, hdue, Effect.copies, Effect.bytes, Effect.skips, hcopies, hbytes, hskips]
  | folder src sub rest ihsub ihrest =>
    intro under
    obtain ⟨hcopies, hbytes, hskips⟩ := ihsub src.id
    obtain ⟨hcopies', hbytes', hskips'⟩ := ihrest under
    rw [due_folder]
    simp [anew, Effect.copies, Effect.bytes, Effect.skips, hcopies, hbytes, hskips, hcopies',
      hbytes', hskips']

end Forest

/-! ## The items of a tree -/

section

variable {sv : Server} {d d' : Drive} {ex : List String} {f : Forest} {p : String}

/-- The files of a tree and the targets of its shortcuts are on the Drive. -/
theorem Server.Shows.items_has : ∀ {p : String}, sv.Shows d ex f →
    (∀ src ∈ f.children, src ∈ shown (d.listed sv.profile p (some ex))) →
    ∀ src shortcutId, (src, shortcutId) ∈ f.items → d.has src.id := by
  have hlisted {p : String} {src : DriveFile}
      (hsrc : src ∈ shown (d.listed sv.profile p (some ex))) : d.has src.id := by
    obtain ⟨n, hn, rfl⟩ := Server.mem_shown hsrc
    exact ⟨n, List.mem_of_mem_filter hn, rfl⟩
  induction f with
  | nil => exact fun _ _ _ _ h => absurd h List.not_mem_nil
  | file src rest ih =>
    rintro p ⟨-, -, -, hrest⟩ hkids x shortcutId hx
    rcases List.mem_cons.mp hx with hx | hx
    · cases hx
      exact hlisted (hkids src List.mem_cons_self)
    · exact ih hrest (fun y hy => hkids y (List.mem_cons_of_mem _ hy)) x shortcutId hx
  | link src target rest ih =>
    rintro p ⟨-, htarget, -, -, hrest⟩ hkids x shortcutId hx
    rcases List.mem_cons.mp hx with hx | hx
    · cases hx
      obtain ⟨id, -, hfound⟩ := Option.bind_eq_some_iff.mp htarget
      obtain ⟨n, hn, rfl⟩ := Option.map_eq_some_iff.mp hfound
      exact ⟨n, (Drive.find_eq_some hn).1, rfl⟩
    · exact ih hrest (fun y hy => hkids y (List.mem_cons_of_mem _ hy)) x shortcutId hx
  | broken src rest ih =>
    rintro p ⟨-, -, hrest⟩ hkids x shortcutId hx
    exact ih hrest (fun y hy => hkids y (List.mem_cons_of_mem _ hy)) x shortcutId hx
  | folder src sub rest ihsub ihrest =>
    rintro p ⟨-, -, -, hsubkids, hsub, hrest⟩ hkids x shortcutId hx
    rcases List.mem_append.mp hx with hx | hx
    · exact ihsub hsub (fun y hy => hsubkids ▸ hy) x shortcutId hx
    · exact ihrest hrest (fun y hy => hkids y (List.mem_cons_of_mem _ hy)) x shortcutId hx

/-- What is made in the first level has the names of its items. -/
theorem Server.Shows.tier_names (h : sv.Shows d ex f) (under : String) : ∀ l ∈ f.tier under,
    ∃ src ∈ f.children, l.name = src.name := by
  have hcopying {src x : DriveFile} {shortcutId : Option String} {l : Label}
      (hl : l ∈ (Forest.copying under src shortcutId).label.toList) (hname : src.name = x.name) :
      l.name = x.name := by
    unfold Forest.copying at hl
    split_ifs at hl
    · exact absurd hl List.not_mem_nil
    · rw [List.mem_singleton.mp hl]
      exact hname
  induction f with
  | nil => exact fun l hl => absurd hl List.not_mem_nil
  | file src rest ih =>
    intro l hl
    rcases List.mem_append.mp hl with hl | hl
    · exact ⟨src, List.mem_cons_self, hcopying hl rfl⟩
    · obtain ⟨x, hx, hname⟩ := ih h.2.2.2 l hl
      exact ⟨x, List.mem_cons_of_mem _ hx, hname⟩
  | link src target rest ih =>
    intro l hl
    obtain ⟨-, htarget, -, -, hrest⟩ := h
    rcases List.mem_append.mp hl with hl | hl
    · obtain ⟨id, -, hfound⟩ := Option.bind_eq_some_iff.mp htarget
      obtain ⟨n, -, rfl⟩ := Option.map_eq_some_iff.mp hfound
      exact ⟨src, List.mem_cons_self, hcopying hl rfl⟩
    · obtain ⟨x, hx, hname⟩ := ih hrest l hl
      exact ⟨x, List.mem_cons_of_mem _ hx, hname⟩
  | broken src rest ih =>
    intro l hl
    obtain ⟨x, hx, hname⟩ := ih h.2.2 l hl
    exact ⟨x, List.mem_cons_of_mem _ hx, hname⟩
  | folder src sub rest _ ih =>
    intro l hl
    rcases List.mem_append.mp hl with hl | hl
    · rw [List.mem_singleton.mp hl]
      exact ⟨src, List.mem_cons_self, rfl⟩
    · obtain ⟨x, hx, hname⟩ := ih h.2.2.2.2.2 l hl
      exact ⟨x, List.mem_cons_of_mem _ hx, hname⟩

end

/-! ## Runs of a server -/

/-- A site over a server, seen as one over the Drive of its profile. -/
def Server.site (sv : Server) (s : Site sv.service) : Site (Drive.service sv.profile) :=
  ⟨s.mem, s.drive⟩

/-- A server answers as the Drive of its profile may. -/
theorem Server.Serves.ofProfile {sv : Server} {q : Request} {d d' : Drive} {x : q.Ret}
    (h : sv.Serves q d x d') : Drive.Serves sv.profile q d x d' := by
  cases h with
  | granted hg => exact .granted hg
  | missing hlacks _ hx => exact .raised _ (.inr hlacks) hx

theorem Server.embeds (sv : Server) (cp : Copier) : Embeds (cp.undisturbed sv.service)
    (cp.runs (Drive.service sv.profile) anyStep) sv.site where
  perform o s x s' h := by
    cases o with
    | mem o =>
      obtain ⟨hx, hs⟩ := h
      exact ⟨⟨hx, congrArg sv.site hs⟩, trivial⟩
    | ask q =>
      obtain ⟨hs, hm⟩ := h
      exact ⟨⟨Server.Serves.ofProfile hs, hm⟩, trivial⟩
  body _ := rfl
  env _ _ h := h.elim

theorem Server.placesCopies (sv : Server) : sv.profile.PlacesCopies := by
  rintro n body f c p ⟨hf, -⟩ hp
  have hparents : f.untimed.parents = (Drive.exactCopy n body).parents := congrArg _ hf
  change f.parents = body.parent.toList at hparents
  rw [hparents, hp]
  rfl

theorem Server.copiesBytes (sv : Server) : sv.profile.CopiesBytes := by
  rintro n body f c ⟨hf, hc⟩
  have hprops : f.untimed.appProperties = (Drive.exactCopy n body).appProperties := congrArg _ hf
  have hsize : f.untimed.size = (Drive.exactCopy n body).size := congrArg _ hf
  have hmd5 : f.untimed.md5Checksum = (Drive.exactCopy n body).md5Checksum := congrArg _ hf
  exact ⟨hprops, hsize, hmd5, hc⟩

/-- A new file with the tags of a copy is a copy. -/
theorem copyOf_of_duplicates {base d : Drive} {source destParent : String} {src : DriveFile}
    {shortcutId : Option String} {m : Node} (hspared : Spared source destParent base d)
    (h : base.Duplicates d) (hhas : base.has src.id) (hm : m ∈ d) (hfresh : base.Fresh m.id)
    (hname : m.file.name = src.name) (hmime : m.file.mimeType = src.mimeType)
    (hprops : m.file.appProperties = copyProps src shortcutId) :
    m.CopyOf base src shortcutId := by
  obtain ⟨n₀, hn₀, hid₀⟩ := hhas
  refine ⟨hname, hmime, hprops, n₀, hn₀, hid₀, fun hstore hstore' => ?_⟩
  have hkey : AList.lookup "source_file_id" m.file.appProperties = some src.id := by
    rw [hprops, lookup_copyProps_file]
  obtain ⟨n, hn, hid, hbytes⟩ := h m hm hfresh src.id hkey
  have hkept : n₀ ∈ d := by
    rcases hspared.kept n₀ hn₀ with hkept | hnode
    · exact hkept
    · rw [hnode.1] at hstore
      cases hstore
  obtain rfl := Drive.eq_of_id hn hkept (hid.trans hid₀.symm)
  have hsame := hbytes hstore (hname ▸ hstore')
  simp only [Node.bytes, Prod.mk.injEq] at hsame
  exact hsame

/-! ## The first copy -/

/-- A source tree and a destination parent that is usable and apart from it. The copier takes one
thread, has no size limit and is to copy all pages, and nothing in the source folder has a name of
the resume store. -/
structure Server.Ready (sv : Server) (cp : Copier) (d : Drive) (root destParent : String)
    (tree : Forest) : Prop where
  single : cp.config.workers = 1
  unlimited : cp.config.maxCopySizeGb = 0
  real : cp.config.dryRun = false
  pages : cp.config.fromPage = 0 ∧ cp.config.toPage = 0
  valid : cp.config.validate cp.showFloat = []
  source : extractFolderId cp.config.sourceLink = some root
  dest : extractFolderId cp.config.destLink = some destParent
  sourceTree : sv.SourceTree d cp.config.excludeSubstrings root tree
  there : d.has root
  usable : ∃ p ∈ d, p.id = destParent ∧ p.file.trashed = false ∧ p.file.canAddChildren ≠ some false
  outside : ¬d.Under root destParent
  apart : Apart d destParent root tree
  named : ∀ src ∈ tree.children, isStoreName src.name = false
  nameless : ¬d.has ""

/-- The destination parent has no copy of the source folder. -/
structure Server.Uncopied (sv : Server) (cp : Copier) (d : Drive) (root destParent : String)
    (tree : Forest) : Prop extends sv.Ready cp d root destParent tree where
  new : ∀ m ∈ d, m.liveIn destParent = true → m.isFolder = true → m.tag ≠ some root

/-- The first copy of a source folder, with what the result says of it. -/
structure FirstCopy (base d : Drive) (destParent root name : String) (tree : Forest)
    (r : CopyResult) : Prop where
  received : base.Received d destParent root name tree r.fullyOk
  completed : r.completed = true
  ok : (tree.anew root).filterMap Effect.failure = [] → r.fullyOk = true
  copied : r.copiedCount = tree.due.length
  bytes : r.copiedBytes = (tree.due.map DriveFile.bytes).sum
  skipped : r.skippedCount = 0
  failed : (r.failedItems.map FailedItem.untimed).Perm
    ((tree.anew root).filterMap Effect.failure)

section

variable {sv : Server} {cp : Copier} {d : Drive} {root destParent : String} {tree : Forest}

namespace Server.Uncopied

theorem unlogged (h : sv.Uncopied cp d root destParent tree) : Unlogged d destParent root :=
  fun m hm hlive hfolder htag => absurd htag (h.new m hm hlive hfolder)

theorem found_none (h : sv.Uncopied cp d root destParent tree) :
    sv.found d destParent root = none := by
  cases hfound : sv.found d destParent root with
  | none => rfl
  | some R =>
    obtain ⟨-, m, hm, -, hfolder, htag, hlive⟩ := Server.found_node hfound
    exact absurd htag (h.new m hm hlive hfolder)

end Server.Uncopied

namespace Server.Ready

theorem setting (h : sv.Ready cp d root destParent tree) (hlog : Unlogged d destParent root) :
    sv.Setting cp d root destParent tree (Mirror d destParent) := by
  have hpooled : cp.pooled = false := by
    rw [Copier.pooled, h.single]
    rfl
  exact mirror_setting hpooled (by rw [h.unlimited]; exact lt_irrefl 0) h.source h.dest
    h.sourceTree h.apart hlog

/-- The destination parent passes the check of `_preflight`. -/
theorem reads_preflight (h : sv.Ready cp d root destParent tree) :
    sv.Reads d (preflight destParent) none := by
  obtain ⟨p, hp, rfl, hlive, hadd⟩ := h.usable
  have hask : sv.Reads d (ask (.getMetadata p.id [.id, .mimeType, .trashed, .capabilities]))
      (Server.metadata d p.id [.id, .mimeType, .trashed, .capabilities]) :=
    Server.reads_metadata (by decide)
  rw [Server.metadata, Drive.find_of_mem hp] at hask
  unfold preflight
  apply Server.Reads.bind hask
  have htrashed : (p.file.view [.id, .mimeType, .trashed, .capabilities]).trashed = false := hlive
  have hallowed : (p.file.view [.id, .mimeType, .trashed, .capabilities]).canAddChildren ≠
      some false := hadd
  dsimp only
  rw [htrashed, if_neg Bool.false_ne_true, if_neg hallowed]
  exact Server.Reads.pure _

end Server.Ready

/-- A whole source tree is copied. -/
theorem run_comes_whole (h : sv.Ready cp d root destParent tree)
    (hlog : Unlogged d destParent root) (now : String) :
    Succeeds cp (⟨cp.freshMem now, d⟩ : Site sv.service) cp.run fun r s' =>
      ∃ n ∈ d, n.id = root ∧ (sv.course cp d root destParent tree (Mirror d destParent)).Comes
        n.file.name tree r s'.drive := by
  have hrun : cp.run = cp.runOn root destParent := by
    unfold Copier.run
    simp only [h.valid, h.source, h.dest]
  obtain ⟨p, hp, hpid, -⟩ := h.usable
  have hsetting := h.setting hlog
  have htree := h.sourceTree
  obtain ⟨n, hn, rfl⟩ := h.there
  obtain ⟨hclear, hloaded⟩ := hsetting.clear ⟨p, hp, hpid⟩ ⟨n, hn, rfl⟩ cp.config.dryRun
    cp.config.fastList
  obtain ⟨b, hb, hunder⟩ := Server.exists_isDescendantOf sv d destParent n.id
  have houtside : b = false := Bool.eq_false_iff.mpr fun htrue => h.outside (hunder htrue)
  have hne : destParent ≠ n.id := by
    rintro rfl
    exact h.outside .self
  rw [hrun]
  apply runOn_succeeds rfl (fun heq => absurd heq hne) fun _ => hb
  rw [houtside]
  apply afterCheck_succeeds rfl h.reads_preflight
  apply Succeeds.mono
  · apply Course.copyTree_comes
      (c := sv.course cp d n.id destParent tree (Mirror d destParent)) (f := tree)
      (course_begins hclear hsetting.parent (extractFolderId_ne_empty h.source) htree.tagged _)
      (Drive.find_of_mem hn) hloaded hsetting.completed _ htree.nodup
    · intro s hs
      change Succeeds cp s (cp.listChildren n.id cp.config.fromPage cp.config.toPage n.id) _
      rw [h.pages.1, h.pages.2]
      apply (Server.listChildren_succeeds n.id n.id).mono
      rintro kids s' ⟨rfl, rfl⟩
      refine ⟨rfl, ?_⟩
      rw [htree.children]
      have hsame := congrArg (List.map DriveFile.fromApi) hs
      rw [Server.folderFiles, Server.folderFiles, List.map_map, List.map_map] at hsame
      exact hsame
    · intro F prior
      apply Course.shows_of (p := n.id) List.mem_cons_self htree.below
      · intro src hsrc
        rwa [htree.children] at hsrc
      · exact fun k hk => List.mem_cons_of_mem _ hk
  · exact fun r s' hs' => ⟨n, hn, rfl, hs'⟩

/-- The effects of the first copy. -/
theorem makes_of_perm {c : Course} {name : String} {M : List Effect}
    (hM : M.Perm (.made none (c.rootFolder name) :: tree.anew c.root))
    (hnodup : (c.root :: tree.keys).Nodup) : c.Makes name tree M := by
  obtain ⟨hroot, hkeys⟩ := List.nodup_cons.mp hnodup
  have hnone : ∀ l, (Effect.made none (c.rootFolder name)).label = some l → l.under = none := by
    rintro l ⟨⟩
    rfl
  have hother (k : String) : Forest.madeIn (some k)
      (.made none (c.rootFolder name) :: tree.anew c.root) =
        Forest.madeIn (some k) (tree.anew c.root) :=
    Forest.madeIn_cons_of_ne fun l hl => by
      rw [hnone l hl]
      exact (Option.some_ne_none k).symm
  constructor
  · have hkeep := hM.filterMap Effect.keeping
    rw [List.filterMap_cons_none rfl, Forest.keeping_anew] at hkeep
    exact hkeep.eq_nil
  · have hmade := Forest.madeIn_perm (u := none) hM
    rw [Forest.madeIn_cons_of hnone, Forest.madeIn_anew_none, List.append_nil] at hmade
    exact hmade
  · have hmade := Forest.madeIn_perm (u := some c.root) hM
    rw [hother, Forest.madeIn_anew_self tree hroot] at hmade
    exact hmade
  · intro k sub hsub
    have hmade := Forest.madeIn_perm (u := some k) hM
    rw [hother, Forest.madeIn_anew_folder tree hroot hkeys hsub] at hmade
    exact hmade

/-- What a run that copies the whole tree leaves, when the new files have their bytes. -/
theorem firstCopy_of_comes (h : sv.Uncopied cp d root destParent tree)
    {name : String} {r : CopyResult} {d' : Drive}
    (hcomes : (sv.course cp d root destParent tree (Mirror d destParent)).Comes name tree r d')
    (hspared : Spared root destParent d d') (hbytes : d.Duplicates d') :
    FirstCopy d d' destParent root name tree r := by
  obtain ⟨p, hp, hpid, -⟩ := h.usable
  obtain ⟨-, hloaded⟩ := (h.setting h.unlogged).clear ⟨p, hp, hpid⟩ h.there cp.config.dryRun cp.config.fastList
  have htree := h.sourceTree
  obtain ⟨prior, hnothing, harrived⟩ := hcomes.accepted (findings_unlogged h.unlogged)
  have hplace : (sv.course cp d root destParent tree (Mirror d destParent)).rootPlace name =
      none := (course_home _ _).trans h.found_none
  rw [course_landing, course_guide, hplace] at harrived
  generalize hM : _ ++ Forest.effects (sv.guide cp d) _ _ _ _ = M at harrived
  have hM : M.Perm (.made none { id := root, name := name, mimeType := folderMime } ::
      tree.anew root) := by
    have hwalk : tree.effects (sv.guide cp d) false root none = tree.anew root := by
      rw [Forest.effects, if_neg Bool.false_ne_true]
      exact walk_anew tree root
    have hperm := tree.effects_perm (sv.guide cp d) root none cp.config.fastList false
    rw [hwalk] at hperm
    rw [← hM, h.found_none]
    exact hperm.cons _
  have hkids : ∀ src ∈ tree.children,
      src ∈ shown (d.listed sv.profile root (some cp.config.excludeSubstrings)) := by
    intro src hsrc
    rwa [htree.children] at hsrc
  obtain ⟨hroot, -⟩ := List.nodup_cons.mp htree.nodup
  have hcounts := Tally.of_perm hM
  obtain ⟨hcopies, hsum, hskips⟩ := tree.counts_anew root
  have hmode : r.dryRun = false := harrived.mode.trans h.real
  obtain ⟨hcopied, hcopiedBytes, hskipped, hfailed⟩ := harrived.shows_
  rw [hmode, if_neg Bool.false_ne_true] at hcopied hcopiedBytes
  constructor
  · apply Course.Arrived.received harrived (hloaded _ _ (findings_unlogged h.unlogged)) h.real rfl
      rfl (makes_of_perm hM htree.nodup) (.inl rfl)
    · intro k hk
      refine ⟨.inr hk, ?_⟩
      rintro rfl
      exact hroot hk
    · intro l hl
      obtain ⟨src, hsrc, hname⟩ := htree.below.tier_names _ l hl
      rw [hname]
      exact h.named src hsrc
    · intro src shortcutId hitem m hm hfresh hname hmime hprops
      have hsrc := htree.below.items_has hkids src shortcutId hitem
      exact copyOf_of_duplicates hspared hbytes hsrc hm hfresh hname hmime hprops
  · exact harrived.completed
  · intro hwhole
    have hnone := hM.filterMap Effect.failure
    rw [List.filterMap_cons_none rfl, hwhole] at hnone
    exact harrived.fullyOk h.real (List.map_eq_nil_iff.mp (hnothing h.real)) hnone.eq_nil
  · rw [hcopied, hcounts.1]
    simpa [Tally.of, Effect.copies] using hcopies
  · rw [hcopiedBytes, hcounts.2.1]
    simpa [Tally.of, Effect.bytes] using hsum
  · rw [hskipped, hcounts.2.2.1]
    simpa [Tally.of, Effect.skips] using hskips
  · rw [hfailed]
    exact hcounts.2.2.2

namespace Server.Uncopied

theorem yields (h : sv.Uncopied cp d root destParent tree) (now : String) :
    Yields (cp.undisturbed sv.service) cp.run ⟨cp.freshMem now, d⟩ fun x w => ∃ r n,
      x = .ok r ∧ n ∈ d ∧ n.id = root ∧
        (sv.course cp d root destParent tree (Mirror d destParent)).Comes n.file.name tree r
          w.state.drive := by
  apply Alone.yields (cp.undisturbed_env sv.service)
  apply Alone.mono (run_comes_whole h.toReady h.unlogged now [])
  rintro (e | r) w hw
  · exact hw.elim
  · obtain ⟨n, hn, hid, hcomes⟩ := hw
    exact ⟨r, n, rfl, hn, hid, hcomes⟩

/-- A run that has ended leaves the first copy. -/
theorem firstCopy (h : sv.Uncopied cp d root destParent tree) {now : String}
    {c : Config (cp.undisturbed sv.service) (Except Exc CopyResult)} {a : Except Exc CopyResult}
    (hc : Reach (cp.undisturbed sv.service)
      (start (cp.undisturbed sv.service) cp.run ⟨cp.freshMem now, d⟩ []) c) (ha : c.Returned a) :
    ∃ r n, a = .ok r ∧ n ∈ d ∧ n.id = root ∧
      FirstCopy d c.world.state.drive destParent root n.file.name tree r := by
  obtain ⟨r, n, rfl, hn, hid, hcomes⟩ := (h.yields now).returned c a hc ha
  -- the run is one over the Drive of the profile, where its footprint and its copies are known
  have hreach : Reach (cp.runs (Drive.service sv.profile) anyStep)
      (start (cp.runs (Drive.service sv.profile) anyStep) cp.run ⟨cp.freshMem now, d⟩ [])
      (c.map sv.site) := (sv.embeds cp).reach_start hc
  have hspared := run_spares sv.placesCopies h.nameless hreach
  have hbytes := duplicates_throughout sv.placesCopies sv.copiesBytes h.nameless h.real now hreach
  have hsource : cp.sourceId = root := by
    rw [Copier.sourceId, h.source]
    rfl
  have hdest : cp.destParent = destParent := by
    rw [Copier.destParent, h.dest]
    rfl
  rw [hsource, hdest] at hspared
  exact ⟨r, n, rfl, hn, hid, firstCopy_of_comes h hcomes hspared hbytes⟩

end Server.Uncopied

/-- Every run from a source tree into a destination parent without a copy of it can be run to its
end, and when it has ended the destination parent has its first copy, beside what it had. -/
theorem first_copy_mirrors (h : sv.Uncopied cp d root destParent tree) (now : String) :
    Yields (cp.undisturbed sv.service) cp.run ⟨cp.freshMem now, d⟩ fun x w => ∃ r n,
      x = .ok r ∧ n ∈ d ∧ n.id = root ∧
        FirstCopy d w.state.drive destParent root n.file.name tree r :=
  ⟨(h.yields now).completes, fun _ _ hc ha => h.firstCopy hc ha⟩

end

/-! ## A folder with two files and a shortcut -/

/-- The partly copied folder before its first copy. -/
def uncopiedDrive : Drive where
  nodes := [folderNode "sourcefolder" "Source" [], fileNode "first" "a" ["sourcefolder"] "5" "m1",
    folderNode "sub" "Sub" ["sourcefolder"], fileNode "second" "b" ["sub"] "7" "m2",
    linkNode "link" "l" ["sub"] "first", folderNode "targetfolder" "Target" []]
  nodup := by decide

theorem uncopiedDrive_sourceTree :
    plainServer.SourceTree uncopiedDrive [] "sourcefolder" partialTree where
  children := by decide +kernel
  below := by
    have hlink : uncopiedDrive.resolve (linkNode "link" "l" ["sub"] "first").asListed =
        some { DriveFile.fromApi ((fileNode "first" "a" ["sourcefolder"] "5" "m1").file.view
          shortcutFields) with name := "l" } := by decide +kernel
    exact ⟨rfl, rfl, by decide +kernel, rfl, by decide, by decide +kernel, by decide +kernel,
      ⟨rfl, rfl, by decide +kernel, rfl, hlink, rfl, by decide +kernel, trivial⟩, trivial⟩
  tagged := by decide +kernel
  nodup := by decide +kernel
  parents := by decide +kernel

theorem uncopiedDrive_untagged : ∀ n ∈ uncopiedDrive.nodes, n.tag = none := by decide +kernel

theorem uncopiedDrive_uncopied : plainServer.Uncopied unlimitedCopier uncopiedDrive "sourcefolder"
    "targetfolder" partialTree where
  single := rfl
  unlimited := rfl
  real := rfl
  pages := ⟨rfl, rfl⟩
  valid := by decide +kernel
  source := smallCopier_between.source
  dest := smallCopier_between.dest
  sourceTree := uncopiedDrive_sourceTree
  there := ⟨folderNode "sourcefolder" "Source" [], List.mem_cons_self, rfl⟩
  usable := ⟨folderNode "targetfolder" "Target" [], List.mem_of_getElem? (i := 5) rfl, rfl, rfl,
    by decide⟩
  outside := by
    have hparents : ∀ n ∈ uncopiedDrive.nodes, n.id = "targetfolder" → n.file.parents = [] := by
      decide +kernel
    generalize hid : "targetfolder" = id
    rintro (_ | ⟨hm, hp, -⟩)
    · exact absurd hid (by decide)
    · rw [hparents _ hm hid.symm] at hp
      exact absurd hp List.not_mem_nil
  apart := by
    intro p hp
    cases hp with
    | parent => decide +kernel
    | folder _ hn _ _ htag => exact absurd (uncopiedDrive_untagged _ hn) (by rw [htag]; nofun)
  new m hm _ _ := by
    rw [uncopiedDrive_untagged m hm]
    nofun
  named := by decide +kernel
  nameless := by
    have hids : ∀ n ∈ uncopiedDrive.nodes, n.id ≠ "" := by decide +kernel
    rintro ⟨n, hn, hid⟩
    exact hids n hn hid

/-- The first copy of the folder has three files. -/
theorem first_copy_mirrors_partial : partialTree.due.length = 3 ∧
    Yields (unlimitedCopier.undisturbed plainServer.service) unlimitedCopier.run
      ⟨unlimitedCopier.freshMem "", uncopiedDrive⟩ fun x w =>
        ∃ r n, x = .ok r ∧ n ∈ uncopiedDrive ∧ n.id = "sourcefolder" ∧
          FirstCopy uncopiedDrive w.state.drive "targetfolder" "sourcefolder" n.file.name
            partialTree r :=
  ⟨by decide +kernel, first_copy_mirrors uncopiedDrive_uncopied ""⟩

end TurboCopy
