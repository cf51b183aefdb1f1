import TurboCopy.Copier.Arrival

/-!
# A dry run predicts the real run

For a source tree, a destination that is apart from it and a Drive without a log: the dry run and
the real run from the same state have the same effects, so they end with the same counts.
-/

namespace TurboCopy

open Threads CopierM Copier

/-- The destination: the parent folder, and below it the live folders that are tagged as copies. -/
inductive Mirror (d : Drive) (destParent : String) : String → Prop
  | parent : Mirror d destParent destParent
  | folder {p k : String} {n : Node} (hp : Mirror d destParent p) (hn : n ∈ d)
      (hlive : n.liveIn p = true) (hfolder : n.isFolder = true) (htag : n.tag = some k) :
      Mirror d destParent n.id

/-- No folder of the destination is a folder of the source. -/
def Apart (d : Drive) (destParent root : String) (tree : Forest) : Prop :=
  ∀ p, Mirror d destParent p → p ∉ root :: tree.keys

/-- No copy of the source root in the destination parent holds a log. -/
def Unlogged (d : Drive) (destParent root : String) : Prop :=
  ∀ m ∈ d, m.liveIn destParent = true → m.isFolder = true → m.tag = some root →
    ∀ n ∈ d, n.liveIn m.id = true → startsWith n.file.name logPrefix = false

/-- The copier with `dry_run` set or not. -/
def Copier.inMode (cp : Copier) (dry : Bool) : Copier := cp.variant dry cp.config.fastList

/-- What a destination without logs has for a source. -/
def Server.guide (sv : Server) (cp : Copier) (d : Drive) : Guide where
  settle := cp.settle
  home place f := place.bind fun p => sv.found d p f.id
  shelf place := DestinationIndex.build (sv.indexed d place)

section

variable {sv : Server} {cp : Copier} {d : Drive} {root destParent : String} {tree : Forest}
  {held : String → Prop}

theorem course_guide (prior : List FailedItem) :
    ((sv.course cp d root destParent tree held).loaded .nothing prior).guide =
      sv.guide cp d := by
  have hhome : ((sv.course cp d root destParent tree held).loaded .nothing prior).home =
      (sv.guide cp d).home := by
    funext place f
    change (sv.course cp d root destParent tree held).home place f = _
    rw [course_home]
    rfl
  unfold Course.guide
  rw [hhome]
  rfl

theorem course_landing (name : String) :
    (sv.course cp d root destParent tree held).landing name =
      [match sv.found d destParent root with
      | some id => .kept root id
      | none => .made none { id := root, name := name, mimeType := folderMime }] := by
  unfold Course.landing Course.placing
  rw [course_home]
  rfl

/-- The root of the source has no log in the destination. -/
theorem rootLogs_unlogged (hlog : Unlogged d destParent root) :
    sv.rootLogs d (sv.found d destParent root) = [] := by
  unfold Server.rootLogs
  cases hR : truthy (sv.found d destParent root) with
  | none => rfl
  | some R =>
    obtain ⟨-, m, hm, rfl, hfolder, htag, hlive⟩ := Server.found_node (truthy_eq_some.mp hR).1
    apply List.filter_eq_nil_iff.mpr
    intro f hf
    obtain ⟨n, hn, rfl⟩ := List.mem_map.mp hf
    obtain ⟨hn, hshown⟩ := List.mem_filter.mp hn
    have hno := hlog m hm hlive hfolder htag n hn (Bool.and_eq_true_iff.mp hshown).1
    rw [Bool.not_eq_true]
    exact hno

theorem findings_unlogged (hlog : Unlogged d destParent root) :
    (sv.course cp d root destParent tree held).findings = some .nothing := by
  have hlogs : sv.rootLogs (sv.course cp d root destParent tree held).base
      (sv.course cp d root destParent tree held).rootHome = [] :=
    rootLogs_unlogged hlog
  unfold Course.findings
  change Drive.findings _ _ _ (sv.rootLogs _ _) _ = _
  rw [hlogs]
  rfl

/-- A course without a log into a destination that is apart from the source. -/
theorem mirror_clear (hworkers : cp.pooled = false) (hlimit : ¬0 < cp.config.maxCopySizeGb)
    (htree : sv.SourceTree d cp.config.excludeSubstrings root tree)
    (hapart : Apart d destParent root tree) (hparent : d.has destParent) (hroot : d.has root)
    (prior : List FailedItem) :
    ((sv.course cp d root destParent tree (Mirror d destParent)).loaded .nothing prior).Clear where
  unpooled := hworkers
  unlimited := hlimit
  parents := htree.parents
  destParent h := hapart destParent .parent h
  parentHas := hparent
  sourcesHas := by
    intro p hp
    have hp : p ∈ root :: tree.keys := hp
    rcases List.mem_cons.mp hp with rfl | hp
    · exact hroot
    · apply htree.below.has _ p hp
      intro src hsrc
      rw [htree.children] at hsrc
      obtain ⟨n, hn, rfl⟩ := Server.mem_shown hsrc
      exact ⟨n, List.mem_of_mem_filter hn, rfl⟩
  apart P hP h := hapart P hP h
  home := by
    intro place f P _ hplace hhome
    have hhome : (sv.course cp d root destParent tree (Mirror d destParent)).home place f =
        some P := hhome
    rw [course_home] at hhome
    obtain ⟨A, hA, hfound⟩ := Option.bind_eq_some_iff.mp hhome
    obtain ⟨-, n, hn, rfl, hfolder, htag, hlive⟩ := Server.found_node hfound
    exact .folder (hplace A hA) hn hlive hfolder htag
  ownItem _ _ _ _ _ := ⟨(Option.some_ne_none _).symm, fun _ _ => (Option.some_ne_none _).symm⟩
  ownHome n _ h := absurd h.symm (Option.some_ne_none n.id)
  ownHas id h := absurd h.symm (Option.some_ne_none id)

theorem mirror_setting (hworkers : cp.pooled = false) (hlimit : ¬0 < cp.config.maxCopySizeGb)
    (hsource : extractFolderId cp.config.sourceLink = some root)
    (hdest : extractFolderId cp.config.destLink = some destParent)
    (htree : sv.SourceTree d cp.config.excludeSubstrings root tree)
    (hapart : Apart d destParent root tree) (hlog : Unlogged d destParent root) :
    sv.Setting cp d root destParent tree (Mirror d destParent) where
  sourceLink := hsource
  destLink := hdest
  sourceTree := htree
  parent := .parent
  clear := by
    intro hparent hroot dry fast
    have hpooled : (cp.variant dry fast).pooled = false := hworkers
    have hclear := mirror_clear hpooled hlimit htree hapart hparent hroot
    refine ⟨hclear [], fun F prior hF => ?_⟩
    rw [findings_unlogged hlog] at hF
    rw [← Option.some.inj hF]
    exact hclear prior
  completed := by
    intro F hF _
    rw [findings_unlogged hlog] at hF
    rw [← Option.some.inj hF]
    rfl

/-- Both modes of a copier run to their end, with the same counts. -/
theorem run_shows (h : sv.Setting cp d root destParent tree held)
    (hlog : Unlogged d destParent root) :
    ∃ t : Tally, ∀ (dry : Bool) (now : String), Succeeds (cp.inMode dry)
      (⟨(cp.inMode dry).freshMem now, d⟩ : Site sv.service) (cp.inMode dry).run
      fun r _ => r.dryRun = dry ∧ r.Shows t := by
  rcases run_comes h with hstopped | ⟨name, f, -, -, -, hcomes⟩
  · refine ⟨Tally.of [], fun dry now => ?_⟩
    apply (hstopped dry cp.config.fastList now).mono
    exact fun r s' hs' => ⟨hs'.1, hs'.2.1⟩
  · refine ⟨Tally.of ((sv.course cp d root destParent tree held).landing name ++
      f.effects (sv.guide cp d) cp.config.fastList root (sv.found d destParent root)),
      fun dry now => ?_⟩
    apply (hcomes dry cp.config.fastList now).mono
    intro r s' hs'
    unfold Course.Comes at hs'
    rw [findings_unlogged hlog] at hs'
    obtain ⟨prior, -, harrived⟩ := hs'
    refine ⟨harrived.mode, ?_⟩
    have hshows := harrived.shows_
    rw [course_landing, course_guide] at hshows
    rw [course_landing]
    have hplace : (sv.course (cp.variant dry cp.config.fastList) d root destParent tree
        held).rootPlace name = sv.found d destParent root := course_home _ _
    rw [hplace] at hshows
    exact hshows

end

/-! ## The prediction -/

/-- The result of a dry run has the counts and the failures of the result of a real run. -/
structure CopyResult.Predicts (planned made : CopyResult) : Prop where
  copied : planned.wouldCopyCount = made.copiedCount
  bytes : planned.wouldCopyBytes = made.copiedBytes
  skipped : planned.skippedCount = made.skippedCount
  failed : planned.failedItems.map FailedItem.untimed = made.failedItems.map FailedItem.untimed

theorem CopyResult.Shows.predicts {planned made : CopyResult} {t : Tally}
    (hplanned : planned.Shows t) (hmade : made.Shows t) (hdry : planned.dryRun = true)
    (hreal : made.dryRun = false) : planned.Predicts made := by
  obtain ⟨hcopied, hbytes, hskipped, hfailed⟩ := hplanned
  obtain ⟨hcopied', hbytes', hskipped', hfailed'⟩ := hmade
  rw [hdry, if_pos rfl] at hcopied hbytes
  rw [hreal, if_neg Bool.false_ne_true] at hcopied' hbytes'
  exact ⟨hcopied.trans hcopied'.symm, hbytes.trans hbytes'.symm, hskipped.trans hskipped'.symm,
    hfailed.trans hfailed'.symm⟩

/-- The runs of a mode of a copier on the Drive of a server. -/
abbrev Server.runs (sv : Server) (cp : Copier) (dry : Bool) : System copierSig :=
  (cp.inMode dry).undisturbed sv.service

/-- A run of a mode of a copier that has returned its result. -/
def Server.Ends (sv : Server) (cp : Copier) (d : Drive) (dry : Bool) (r : CopyResult) : Prop :=
  ∃ now c, Reach (sv.runs cp dry)
    (start (sv.runs cp dry) (cp.inMode dry).run ⟨(cp.inMode dry).freshMem now, d⟩ []) c ∧
    c.Returned (.ok r)

/-- Both modes can always be run to a result, and every dry run predicts every real run from the
same state. -/
theorem dry_run_predicts {sv : Server} {cp : Copier} {d : Drive} {root destParent : String}
    {tree : Forest} (hworkers : cp.config.workers = 1) (hlimit : cp.config.maxCopySizeGb = 0)
    (hsource : extractFolderId cp.config.sourceLink = some root)
    (hdest : extractFolderId cp.config.destLink = some destParent)
    (htree : sv.SourceTree d cp.config.excludeSubstrings root tree)
    (hapart : Apart d destParent root tree) (hlog : Unlogged d destParent root) :
    (∀ dry now, Yields (sv.runs cp dry) (cp.inMode dry).run ⟨(cp.inMode dry).freshMem now, d⟩
      fun x _ => ∃ r, x = .ok r) ∧
    ∀ planned made, sv.Ends cp d true planned → sv.Ends cp d false made →
      planned.Predicts made := by
  have hpooled : cp.pooled = false := by
    rw [Copier.pooled, hworkers]
    rfl
  obtain ⟨t, hruns⟩ := run_shows (mirror_setting hpooled (by rw [hlimit]; exact lt_irrefl 0) hsource
    hdest htree hapart hlog) hlog
  have hyields (dry : Bool) (now : String) : Yields (sv.runs cp dry) (cp.inMode dry).run
      ⟨(cp.inMode dry).freshMem now, d⟩ fun x _ => ∃ r, x = .ok r ∧ r.dryRun = dry ∧ r.Shows t := by
    apply Alone.yields ((cp.inMode dry).undisturbed_env sv.service)
    apply Alone.mono (hruns dry now [])
    rintro (e | r) w h
    · exact h.elim
    · exact ⟨r, rfl, h⟩
  constructor
  · intro dry now
    obtain ⟨hcompletes, hreturned⟩ := hyields dry now
    refine ⟨hcompletes, fun c a hc ha => ?_⟩
    obtain ⟨r, hr, -⟩ := hreturned c a hc ha
    exact ⟨r, hr⟩
  · rintro planned made ⟨now, c, hc, hret⟩ ⟨now', c', hc', hret'⟩
    obtain ⟨r, hr, hdry, hshows⟩ := (hyields true now).returned c _ hc hret
    obtain ⟨r', hr', hreal, hshows'⟩ := (hyields false now').returned c' _ hc' hret'
    obtain rfl := Except.ok.inj hr
    obtain rfl := Except.ok.inj hr'
    exact hshows.predicts hshows' hdry hreal

/-! ## A partly copied folder -/

/-- A server that delivers every listing in one page. -/
def plainServer : Server where
  hides _ _ := false
  turn _ files := (files, none)
  whole _ files := List.append_nil files
  shrinks _ _ _ _ h := nomatch h
  email := none
  rootData := { id := "root" }

/-- A copier without a size limit. -/
def unlimitedCopier : Copier :=
  { smallCopier with config := { smallCopier.config with maxCopySizeGb := 0 } }

/-- Two files and a shortcut to one of them, in a folder of which the first file has been copied. -/
def partialDrive : Drive where
  nodes := [folderNode "sourcefolder" "Source" [], fileNode "first" "a" ["sourcefolder"] "5" "m1",
    folderNode "sub" "Sub" ["sourcefolder"], fileNode "second" "b" ["sub"] "7" "m2",
    linkNode "link" "l" ["sub"] "first", folderNode "targetfolder" "Target" [],
    (folderNode "copied" "Source" ["targetfolder"]).tagged [("source_folder_id", "sourcefolder")],
    fileNode "done" "a" ["copied"] "5" "m1"]
  nodup := by decide

def Node.asListed (n : Node) : DriveFile := DriveFile.fromApi (n.file.view listFields)

def partialTree : Forest :=
  .file (fileNode "first" "a" ["sourcefolder"] "5" "m1").asListed
    (.folder (folderNode "sub" "Sub" ["sourcefolder"]).asListed
      (.file (fileNode "second" "b" ["sub"] "7" "m2").asListed
        (.link (linkNode "link" "l" ["sub"] "first").asListed
          { DriveFile.fromApi ((fileNode "first" "a" ["sourcefolder"] "5" "m1").file.view
            shortcutFields) with name := "l" } .nil)) .nil)

theorem partialTree_sourceTree :
    plainServer.SourceTree partialDrive [] "sourcefolder" partialTree where
  children := by decide +kernel
  below := by
    have hlink : partialDrive.resolve (linkNode "link" "l" ["sub"] "first").asListed =
        some { DriveFile.fromApi ((fileNode "first" "a" ["sourcefolder"] "5" "m1").file.view
          shortcutFields) with name := "l" } := by decide +kernel
    exact ⟨rfl, rfl, by decide +kernel, rfl, by decide, by decide +kernel, by decide +kernel,
      ⟨rfl, rfl, by decide +kernel, rfl, hlink, rfl, by decide +kernel, trivial⟩, trivial⟩
  tagged := by decide +kernel
  nodup := by decide +kernel
  parents := by decide +kernel

theorem partialDrive_apart : Apart partialDrive "targetfolder" "sourcefolder" partialTree := by
  have hcopies : ∀ n ∈ partialDrive.nodes, n.tag.isSome = true →
      n.id ∉ "sourcefolder" :: partialTree.keys := by decide +kernel
  intro p hp
  cases hp with
  | parent => decide +kernel
  | folder _ hn _ _ htag => exact hcopies _ hn (Option.isSome_of_eq_some htag)

theorem partialDrive_unlogged : Unlogged partialDrive "targetfolder" "sourcefolder" := by
  have hlogs : ∀ n ∈ partialDrive.nodes, startsWith n.file.name logPrefix = false := by
    decide +kernel
  exact fun _ _ _ _ _ n hn _ => hlogs n hn

/-- The dry run from the partly copied folder predicts the real run. -/
theorem dry_run_predicts_partial :
    (∀ dry now, Yields (plainServer.runs unlimitedCopier dry) (unlimitedCopier.inMode dry).run
      ⟨(unlimitedCopier.inMode dry).freshMem now, partialDrive⟩ fun x _ => ∃ r, x = .ok r) ∧
    ∀ planned made, plainServer.Ends unlimitedCopier partialDrive true planned →
      plainServer.Ends unlimitedCopier partialDrive false made → planned.Predicts made :=
  dry_run_predicts (by decide) rfl smallCopier_between.source
    smallCopier_between.dest partialTree_sourceTree partialDrive_apart partialDrive_unlogged

end TurboCopy
