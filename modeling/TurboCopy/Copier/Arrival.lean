import TurboCopy.Copier.Descent
import TurboCopy.Copier.Loading
import TurboCopy.Copier.Passage
import TurboCopy.Copier.SourceTree

/-!
# A whole run from a Drive

From the two folder ids to the result: the checks, the destination root, the logs found there and
the traversal. What a run comes to does not depend on its mode or its traversal otherwise than
through the effects of its course.
-/

namespace TurboCopy

open Threads CopierM Copier

theorem lookup_setdefaults {α : Type} [DecidableEq α] (e : Dict α) (k : String) : ∀ d : Dict α,
    AList.lookup k (e.entries.foldl (fun d x => Dict.setdefault d x.1 x.2) d) =
      (AList.lookup k d).or (AList.lookup k e) := by
  have hfold (es : List (Sigma fun _ : String => α)) : ∀ d : Dict α,
      AList.lookup k (es.foldl (fun d x => Dict.setdefault d x.1 x.2) d) =
        (AList.lookup k d).or (es.dlookup k) := by
    induction es with
    | nil => intro d; simp
    | cons x es ih =>
      intro d
      rw [List.foldl_cons, ih, Dict.lookup_setdefault]
      split_ifs with hk
      · subst hk
        rw [List.dlookup_cons_eq]
        cases AList.lookup x.1 d <;> rfl
      · rw [List.dlookup_cons_ne _ _ hk]
  exact hfold e.entries

namespace Course

variable {c : Course} {K : Set String} {M : List Effect} {g : Gist} {d : Drive}

/-- The course of a run that has loaded its logs. -/
def loaded (c : Course) (F : Findings) (prior : List FailedItem) : Course :=
  { c with cache := F.folderMap, own := F.own, prior := prior }

theorem Realizes.load {fm : Dict String} {l : Label} {n : Node} (h : c.Realizes fm l n)
    (F : Findings) (prior : List FailedItem) : (c.loaded F prior).Realizes fm l n :=
  ⟨h.name, h.mimeType, h.props, h.live, h.parents, h.key⟩

theorem Berth.load {k P : String} (h : c.Berth g d k P) (F : Findings)
    (prior : List FailedItem) : (c.loaded F prior).Berth g d k P :=
  ⟨h.place, h.truthy, h.apart, h.node⟩

/-- A place that the run already has is kept when the logs are loaded. -/
theorem lookup_into (F : Findings) (prior : List FailedItem) {k P : String}
    (h : AList.lookup k g.folderMap = some P) :
    AList.lookup k (F.into prior g).folderMap = some P := by
  change AList.lookup k (F.folderMap.entries.foldl _ g.folderMap) = some P
  rw [lookup_setdefaults, h]
  rfl

/-- The logs are loaded before any folder has been entered. -/
theorem Grown.load {G : Growth} (h : c.Grown K ∅ M G g d) (F : Findings)
    (prior : List FailedItem) : (c.loaded F prior).Grown K ∅ M G (F.into prior g) d := by
  have hmap : ∀ k ∈ K, AList.lookup k (F.into prior g).folderMap = AList.lookup k g.folderMap := by
    intro k hk
    obtain ⟨P, hP⟩ := h.berths k hk
    rw [hP.place, lookup_into F prior hP.place]
  have hlogged := h.unlogged
  exact
    { nodes := h.nodes
      realized := by
        have hreal := Realizes.forall₂_mono hmap h.realized h.known
        exact hreal.imp fun l n hl => hl.load F prior
      labels := by
        have hlabels := h.labels
        rw [hlogged, if_neg Bool.false_ne_true] at hlabels ⊢
        exact hlabels
      known := h.known
      fresh := h.fresh
      patched := h.patched
      spared := fun n hn _ => h.spared n hn (.inr (Set.notMem_empty _))
      ownLog := by
        rw [hlogged, if_neg Bool.false_ne_true]
        rfl
      berths := by
        intro k hk
        obtain ⟨P, hP⟩ := h.berths k hk
        exact ⟨P, (hP.mono (hmap k hk) fun _ hn => hn).load F prior⟩
      kept := by
        intro k P hkP
        obtain ⟨hk, hP, hhas⟩ := h.kept k P hkP
        exact ⟨hk, (hmap k hk).trans hP, hhas⟩
      placed := h.placed
      anchor := by
        rcases h.anchor with hnone | hanchor
        · exact .inl hnone
        · cases hroot : AList.lookup c.root g.folderMap with
          | none => exact .inl (hanchor.trans hroot)
          | some P => exact .inr ((hanchor.trans hroot).trans (lookup_into F prior hroot).symm)
      rooted := by
        intro P hP hK
        exact h.rooted P ((hmap c.root hK).symm.trans hP) hK
      saved := h.saved
      logName := h.logName }

/-- The state of a run that has placed its root and loaded its logs. -/
theorem Holds.load {name : String} (h : c.Holds K ∅ (c.landing name) g d) (hcache : c.cache = ∅)
    (F : Findings) (prior : List FailedItem)
    (hskip : c.cp.config.skipCompletedFolders = true → F.completed = ∅) {own : Option String}
    (hown : c.dry = false → own = F.own) :
    (c.loaded F prior).Holds K ∅ (c.landing name) { F.into prior g with ownLog := own } d where
  running := h.running
  listed := h.listed
  mode := h.mode
  log := h.log
  counts := h.counts
  previous _ := by
    have hremaining := remaining_placing (c := c) prior [] none (some c.destParent)
      (c.rootFolder name)
    exact (hremaining.trans (List.filter_eq_self.mpr fun _ _ => rfl)).symm
  uncompleted hs := by
    change g.completed ∪ F.completed = ∅
    rw [h.uncompleted hs, hskip hs, Finset.union_empty]
  cache f hf := by
    change AList.lookup f (F.folderMap.entries.foldl _ g.folderMap) = AList.lookup f F.folderMap
    rw [lookup_setdefaults, h.cache f hf, hcache, AList.lookup_empty, Option.none_or]
  opened _ hO := absurd hO Set.not_nonempty_empty
  drive := by
    have hd := h.drive
    unfold Drives at hd ⊢
    change if c.dry then d = c.base else _
    split_ifs at hd ⊢ with hdry
    · exact hd
    · obtain ⟨G, hG⟩ := hd
      rw [hown (Bool.eq_false_iff.mpr hdry)]
      exact ⟨G, hG.load F prior⟩

/-- What the logs of the destination root hold, unless one of them cannot be read. -/
def findings (c : Course) : Option Findings :=
  c.base.findings c.cp.sha256 c.sv.account (c.sv.rootLogs c.base c.rootHome) .nothing

/-- A course without a log, and what the run needs to begin it. -/
structure Begins (c : Course) (name : String) : Prop where
  clear : c.Clear
  cache : c.cache = ∅
  prior : c.prior = []
  own : c.own = none
  logName : c.logName = logNameFor c.sv.account
  rootHome : c.rootHome = c.rootPlace name
  source : c.root ∈ c.sources
  dest : c.dest c.destParent
  root : c.root ≠ ""
  fits : validateAppProperties (folderProps c.root none) = .ok ()

/-- The logs that are found in the destination root are those it had. -/
theorem Begins.findings_eq {name : String} (h : c.Begins name)
    (hg : c.Holds {c.root} ∅ (c.landing name) g d) {dest : Option String}
    (hdock : c.Docked (some c.root) (c.rootPlace name) dest g.folderMap) :
    d.findings c.cp.sha256 c.sv.account (c.sv.rootLogs d dest) .nothing = c.findings ∧
      (c.findings = none → d = c.base) := by
  have hdocked := hdock.docked
  unfold findings
  rw [h.rootHome]
  by_cases hdry : c.dry = true
  · rw [if_pos hdry] at hdocked
    rw [hg.drive.unchanged hdry, hdocked]
    exact ⟨rfl, fun _ => rfl⟩
  · have hdry : c.dry = false := Bool.eq_false_iff.mpr hdry
    rw [hdry, if_neg Bool.false_ne_true] at hdocked
    obtain ⟨hsame, hsome⟩ := hdock.truthy_dest hg.drive (Set.mem_singleton _) hdry
    obtain ⟨R, hR⟩ := Option.ne_none_iff_exists'.mp hsome
    obtain ⟨P, rfl, -, hplace⟩ := hdocked
    have hfiles := landed_files h.clear hg hdock hR
    rcases hplace with hplace | ⟨hplace, -⟩
    · obtain ⟨G, hG⟩ := hg.drive.grown hdry
      obtain ⟨hnodes, hlabels⟩ := hG.landed
      rw [landing, placing_kept hplace] at hlabels
      have hnew : G.new = [] := by
        have hreal := hG.realized
        rw [List.perm_nil.mp hlabels] at hreal
        exact List.forall₂_nil_left_iff.mp hreal
      rw [hnew, List.nil_append] at hnodes
      rw [hplace, Drive.ext_nodes hnodes]
      exact ⟨rfl, fun _ => rfl⟩
    · rw [hplace] at hfiles
      have hlogs : c.sv.rootLogs d (some P) = [] := by
        unfold Server.rootLogs
        rw [hR]
        dsimp only
        rw [hfiles]
        rfl
      rw [hlogs, hplace]
      exact ⟨rfl, fun hnone => absurd hnone (Option.some_ne_none _)⟩

/-- What a run comes to: it stops at a log that cannot be read, or it arrives. -/
def Comes (c : Course) (name : String) (f : Forest) (r : CopyResult) (d : Drive) : Prop :=
  match c.findings with
  | none => r.dryRun = c.dry ∧ r.Shows (Tally.of []) ∧ d = c.base
  | some F => ∃ prior, (c.dry = false → prior.map FailedItem.untimed = F.failed) ∧
      (c.loaded F prior).Arrived ({c.root} ∪ f.keySet) (insert c.root ∅ ∪ f.keySet)
        (c.landing name ++ f.effects (c.loaded F prior).guide c.cp.config.fastList c.root
          (c.rootPlace name)) r d

variable {name : String} {f : Forest} {r : CopyResult} {d : Drive}

theorem Comes.refused (h : c.Comes name f r d) (hfindings : c.findings = none) :
    r.dryRun = c.dry ∧ r.Shows (Tally.of []) ∧ d = c.base := by
  rwa [Comes, hfindings] at h

theorem Comes.accepted (h : c.Comes name f r d) {F : Findings} (hfindings : c.findings = some F) :
    ∃ prior, (c.dry = false → prior.map FailedItem.untimed = F.failed) ∧
      (c.loaded F prior).Arrived ({c.root} ∪ f.keySet) (insert c.root ∅ ∪ f.keySet)
        (c.landing name ++ f.effects (c.loaded F prior).guide c.cp.config.fastList c.root
          (c.rootPlace name)) r d := by
  rwa [Comes, hfindings] at h

variable {s : Site c.sv.service}

/-- From a placed destination root on. -/
theorem copyInto_comes {name : String} (h : c.Begins name)
    (hclear : ∀ F prior, c.findings = some F → (c.loaded F prior).Clear)
    (hskip : ∀ F, c.findings = some F → c.cp.config.skipCompletedFolders = true → F.completed = ∅)
    {f : Forest} (hshows : ∀ F prior, (c.loaded F prior).Shows f) (hnodup : (c.root :: f.keys).Nodup)
    (hlist : ∀ s : Site c.sv.service,
      c.sv.folderFiles s.drive c.root (some c.cp.config.excludeSubstrings) =
        c.sv.folderFiles c.base c.root (some c.cp.config.excludeSubstrings) →
      Succeeds c.cp s (c.cp.listChildren c.root c.cp.config.fromPage c.cp.config.toPage c.root)
        fun kids s' => s' = s ∧ kids = f.children)
    (hat : c.At {c.root} ∅ (c.landing name) s) {dest : Option String}
    (hdock : c.Docked (some c.root) (c.rootPlace name) dest s.mem.state.folderMap) :
    Succeeds c.cp s (c.cp.copyInto c.root c.sv.account dest) fun r s' =>
      c.Comes name f r s'.drive := by
  unfold Copier.copyInto
  apply Succeeds.mem_bind
  have hroot : c.dry = false → dest = AList.lookup c.root s.mem.state.folderMap ∧ dest ≠ none := by
    intro hdry
    have hdocked := hdock.docked
    rw [hdry, if_neg Bool.false_ne_true] at hdocked
    obtain ⟨P, rfl, hplace, -⟩ := hdocked
    exact ⟨hplace.symm, Option.some_ne_none P⟩
  have hat₁ : c.At {c.root} ∅ (c.landing name) ⟨(s.mem.exec (.setDestRoot dest)).2, s.drive⟩ :=
    hat.setRoot fun hdry => (hroot hdry).1
  have hprevious : c.dry = false →
      ((s.mem.exec (.setDestRoot dest)).2.gist c.dry).previous = [] := by
    intro hdry
    rw [hat₁.previous hdry, h.prior]
    rfl
  obtain ⟨hfindings, hunread⟩ := h.findings_eq hat₁ hdock
  apply Succeeds.bind (Server.resume_succeeds
    (s := ⟨(s.mem.exec (.setDestRoot dest)).2, s.drive⟩) (hat₁.log.trans h.logName) hprevious)
  rintro x ⟨m, _⟩ ⟨rfl, hx⟩
  dsimp only at hx
  rw [hfindings] at hx
  unfold Comes
  cases hF : c.findings with
  | none =>
    rw [hF] at hx
    obtain ⟨⟨text, rfl⟩, hresult⟩ := hx
    have hsame := hunread hF
    have hshown := result_shows hat₁.mode hat₁.counts
    apply Succeeds.mem_bind
    apply Succeeds.mem
    have hmode : m.result.dryRun = c.dry := (congrArg CopyResult.dryRun hresult).trans hat₁.mode
    have hnothing : Tally.of (c.landing name) = Tally.of [] :=
      of_placing [] none (some c.destParent) (c.rootFolder name)
    rw [hnothing] at hshown
    have hshown : m.result.Shows (Tally.of []) := hresult ▸ hshown
    exact ⟨hmode, ⟨hshown.copied, hshown.bytes, hshown.skipped, hshown.failed⟩, hsame⟩
  | some F =>
    rw [hF] at hx
    obtain ⟨rfl, prior, own, hprior, hown, hg⟩ := hx
    have hown : c.dry = false → own = F.own := by
      intro hdry
      apply hown
      obtain ⟨G, hG⟩ := hat₁.drive.grown hdry
      have hlog := hG.ownLog
      rw [hG.unlogged, if_neg Bool.false_ne_true, h.own] at hlog
      exact hlog
    have hat₂ : (c.loaded F prior).At {c.root} ∅ (c.landing name) ⟨m, s.drive⟩ := by
      have hload := hat₁.load h.cache F prior (hskip F hF) hown
      unfold At
      change Holds _ _ _ _ (m.gist c.dry) _
      rw [hg]
      exact hload
    have hopened : c.dry = false → m.state.destRootId ≠ none := by
      intro hdry
      change (m.gist c.dry).destRoot ≠ none
      rw [hg]
      exact (hroot hdry).2
    have hmap : m.state.folderMap = (F.into prior (s.mem.gist c.dry)).folderMap :=
      congrArg Gist.folderMap hg
    have hdock₂ : (c.loaded F prior).Docked (some c.root) (c.rootPlace name) dest
        m.state.folderMap := by
      refine ⟨hdock.known, ?_⟩
      have hdocked := hdock.docked
      change if c.dry then _ else _
      split_ifs at hdocked ⊢
      · exact hdocked
      · obtain ⟨P, hP, hplace, hbase⟩ := hdocked
        refine ⟨P, hP, ?_, hbase⟩
        rw [hmap]
        exact lookup_into F prior hplace
    have hlisted : c.sv.folderFiles s.drive c.root (some c.cp.config.excludeSubstrings) =
        c.sv.folderFiles c.base c.root (some c.cp.config.excludeSubstrings) :=
      congrArg (List.map _) (hat₁.listed_source h.clear h.source _)
    obtain ⟨hnew, hnodup⟩ := List.nodup_cons.mp hnodup
    apply (passage_succeeds (c := c.loaded F prior) (hclear F prior hF) (hshows F prior) hnodup hnew
      (hlist ⟨m, s.drive⟩ hlisted) hat₂ hopened hdock₂).mono
    exact fun r s' h' => ⟨prior, hprior, h'⟩

/-- From the metadata of the source folder on. -/
theorem copyTree_comes {n : Node} (h : c.Begins n.file.name) (hn : c.base.find c.root = some n)
    (hclear : ∀ F prior, c.findings = some F → (c.loaded F prior).Clear)
    (hskip : ∀ F, c.findings = some F → c.cp.config.skipCompletedFolders = true → F.completed = ∅)
    {f : Forest} (hshows : ∀ F prior, (c.loaded F prior).Shows f) (hnodup : (c.root :: f.keys).Nodup)
    (hlist : ∀ s : Site c.sv.service,
      c.sv.folderFiles s.drive c.root (some c.cp.config.excludeSubstrings) =
        c.sv.folderFiles c.base c.root (some c.cp.config.excludeSubstrings) →
      Succeeds c.cp s (c.cp.listChildren c.root c.cp.config.fromPage c.cp.config.toPage c.root)
        fun kids s' => s' = s ∧ kids = f.children) (now : String) :
    Succeeds c.cp
      (⟨((c.cp.freshMem now).exec (.beginRun c.sv.account c.root)).2, c.base⟩ : Site c.sv.service)
      (c.cp.copyTree c.root c.destParent c.sv.account) fun r s' =>
        c.Comes n.file.name f r s'.drive := by
  have hstart := c.start_holds h.cache h.prior h.own now c.sv.account h.logName
  unfold Copier.copyTree
  apply Succeeds.bind (Server.reads_metadata (by decide) c.cp _ rfl)
  rintro x s ⟨rfl, rfl⟩
  rw [Server.metadata, hn]
  dsimp only
  apply Succeeds.bind (R := fun x s' => ∃ dest, x = .ok dest ∧
    c.At {c.root} ∅ (c.landing n.file.name) s' ∧
    c.Docked (some c.root) (c.rootPlace n.file.name) dest s'.mem.state.folderMap)
  · apply Succeeds.attempt
    apply (landing_succeeds h.clear hstart h.dest h.root h.source h.fits rfl h.rootHome).mono
    rintro dest s' hs'
    exact ⟨dest, rfl, hs'⟩
  · rintro x s ⟨dest, rfl, hat, hdock⟩
    exact copyInto_comes h hclear hskip hshows hnodup hlist hat hdock

end Course

/-! ## The two modes and the two traversals -/

/-- The copier with other values of `dry_run` and `fast_list`. -/
def Copier.variant (cp : Copier) (dry fast : Bool) : Copier :=
  { cp with config := { cp.config with dryRun := dry, fastList := fast } }

/-- The course of a run before it has loaded a log. -/
def Server.course (sv : Server) (cp : Copier) (d : Drive) (root destParent : String)
    (tree : Forest) (held : String → Prop) : Course where
  sv := sv
  cp := cp
  base := d
  root := root
  destParent := destParent
  rootHome := sv.found d destParent root
  sources := {k | k ∈ root :: tree.keys}
  dest := held
  cache := ∅
  own := none
  logName := logNameFor sv.account
  prior := []

/-- What has to hold for all variants of a copier: one thread, no size limit, a source tree, and
a destination that is apart from it together with its logs. -/
structure Server.Setting (sv : Server) (cp : Copier) (d : Drive) (root destParent : String)
    (tree : Forest) (held : String → Prop) : Prop where
  sourceLink : extractFolderId cp.config.sourceLink = some root
  destLink : extractFolderId cp.config.destLink = some destParent
  sourceTree : sv.SourceTree d cp.config.excludeSubstrings root tree
  parent : held destParent
  clear : d.has destParent → d.has root → ∀ dry fast,
    (sv.course (cp.variant dry fast) d root destParent tree held).Clear ∧
    ∀ F prior, (sv.course (cp.variant dry fast) d root destParent tree held).findings = some F →
      ((sv.course (cp.variant dry fast) d root destParent tree held).loaded F prior).Clear
  completed : ∀ F, (sv.course cp d root destParent tree held).findings = some F →
    cp.config.skipCompletedFolders = true → F.completed = ∅

section

variable {sv : Server} {cp : Copier} {d : Drive} {root destParent : String} {tree : Forest}
  {held : String → Prop}

/-- Without a log, folders are found by a search only. -/
theorem course_home (place : Option String) (f : DriveFile) :
    (sv.course cp d root destParent tree held).home place f =
      place.bind fun p => sv.found d p f.id := by
  have hcached : (sv.course cp d root destParent tree held).cached f = none := rfl
  unfold Course.home
  rw [hcached]
  split_ifs with hdry
  · rw [Option.isNone_iff_eq_none.mp (Bool.and_eq_true_iff.mp hdry).2]
    rfl
  · rfl

theorem course_begins (hc : (sv.course cp d root destParent tree held).Clear)
    (hparent : held destParent) (hroot : root ≠ "")
    (hfits : validateAppProperties (folderProps root none) = .ok ()) (name : String) :
    (sv.course cp d root destParent tree held).Begins name where
  clear := hc
  cache := rfl
  prior := rfl
  own := rfl
  logName := rfl
  rootHome := by
    rw [Course.rootPlace, course_home]
    rfl
  source := List.mem_cons_self
  dest := hparent
  root := hroot
  fits := hfits

/-- Up to the checks a run only reads. -/
theorem runOn_succeeds {s : Site sv.service} {Q : CopyResult → Site sv.service → Prop}
    {inside : Bool} (hdrive : s.drive = d) (hequal : destParent = root → inside = true)
    (hinside : destParent ≠ root → sv.Reads d (isDescendantOf destParent root) inside)
    (h : Succeeds cp ⟨(s.mem.exec (.beginRun sv.account root)).2, d⟩
      (cp.afterCheck root destParent sv.account inside) Q) :
    Succeeds cp s (cp.runOn root destParent) Q := by
  unfold Copier.runOn
  apply Succeeds.bind (Server.reads_accountId cp s hdrive)
  rintro account s' ⟨rfl, rfl⟩
  apply Succeeds.mem_bind
  rw [hdrive]
  split_ifs with heq
  · obtain rfl := hequal heq
    exact h
  · apply Succeeds.bind (hinside heq cp _ rfl)
    rintro b s ⟨rfl, rfl⟩
    exact h

theorem afterCheck_succeeds {s : Site sv.service} {Q : CopyResult → Site sv.service → Prop}
    {o : Option String} (hdrive : s.drive = d) (hpreflight : sv.Reads d (preflight destParent) o)
    (h : Succeeds cp s (o.elim (cp.copyTree root destParent sv.account) stopWith) Q) :
    Succeeds cp s (cp.afterCheck root destParent sv.account false) Q := by
  apply Succeeds.bind (hpreflight cp s hdrive)
  rintro x s ⟨rfl, rfl⟩
  cases x with
  | none => exact h
  | some error => exact h

/-- The outcome of a run that stops before it has looked at a file. -/
def Stopped (dry : Bool) (d : Drive) (r : CopyResult) (d' : Drive) : Prop :=
  r.dryRun = dry ∧ r.Shows (Tally.of []) ∧ d' = d

theorem stopWith_stopped {dry fast : Bool} {s : Site sv.service}
    (hmode : s.mem.result.dryRun = dry) (hempty : s.mem.result.Shows (Tally.of []))
    (reason : String) : Succeeds (cp.variant dry fast) s (stopWith reason) fun r s' =>
      Stopped dry s.drive r s'.drive := by
  apply Succeeds.mem_bind
  apply Succeeds.mem
  exact ⟨hmode, ⟨hempty.copied, hempty.bytes, hempty.skipped, hempty.failed⟩, rfl⟩

/-- A part of the tree that is listed as the contents of the root. -/
structure Server.Selected (sv : Server) (d : Drive) (ex : List String) (tree f : Forest) : Prop where
  shows_ : sv.Shows d ex f
  children : f.children.Sublist tree.children
  keys : f.keys.Sublist tree.keys

/-- What all variants of a copier come to: they stop, or they have the same part of the tree to
copy. -/
theorem runOn_comes (h : sv.Setting cp d root destParent tree held) :
    (∀ dry fast now, Succeeds (cp.variant dry fast)
      (⟨(cp.variant dry fast).freshMem now, d⟩ : Site sv.service)
      ((cp.variant dry fast).runOn root destParent) fun r s' => Stopped dry d r s'.drive) ∨
    ∃ name f, d.has destParent ∧ d.has root ∧
      sv.Selected d cp.config.excludeSubstrings tree f ∧
      ∀ dry fast now, Succeeds (cp.variant dry fast)
        (⟨(cp.variant dry fast).freshMem now, d⟩ : Site sv.service)
        ((cp.variant dry fast).runOn root destParent) fun r s' =>
          (sv.course (cp.variant dry fast) d root destParent tree held).Comes name f r s'.drive := by
  have hstopped (dry fast : Bool) (now reason : String) : Succeeds (cp.variant dry fast)
      (⟨(((cp.variant dry fast).freshMem now).exec (.beginRun sv.account root)).2, d⟩ :
        Site sv.service) (stopWith reason) fun r s' => Stopped dry d r s'.drive :=
    stopWith_stopped rfl ⟨ite_self 0, ite_self 0, rfl, rfl⟩ reason
  obtain ⟨inside, hequal, hinside⟩ : ∃ b, (destParent = root → b = true) ∧
      (destParent ≠ root → sv.Reads d (isDescendantOf destParent root) b) := by
    by_cases heq : destParent = root
    · exact ⟨true, fun _ => rfl, absurd heq⟩
    · obtain ⟨b, hb, -⟩ := Server.exists_isDescendantOf sv d destParent root
      exact ⟨b, fun h => absurd h heq, fun _ => hb⟩
  obtain ⟨o, hpreflight, hparent⟩ := Server.exists_preflight sv d destParent
  cases inside with
  | true =>
    left
    intro dry fast now
    exact runOn_succeeds rfl hequal hinside (hstopped dry fast now _)
  | false =>
    cases o with
    | some error =>
      left
      intro dry fast now
      apply runOn_succeeds rfl hequal hinside
      exact afterCheck_succeeds rfl hpreflight (hstopped dry fast now error)
    | none =>
      cases hn : d.find root with
      | none =>
        left
        intro dry fast now
        apply runOn_succeeds rfl hequal hinside
        apply afterCheck_succeeds rfl hpreflight
        apply Succeeds.bind (Server.reads_metadata (by decide) _ _ rfl)
        rintro x s ⟨rfl, rfl⟩
        rw [Server.metadata, hn]
        exact hstopped dry fast now _
      | some n =>
        right
        obtain ⟨more, hmore, -, hrun⟩ := Server.exists_listed sv
          (sv.folderFiles d root (some cp.config.excludeSubstrings)) root
          cp.config.excludeSubstrings cp.config.fromPage cp.config.toPage none 0
        have htree := h.sourceTree
        have hkids : (more.map DriveFile.fromApi).Sublist tree.children := by
          rw [htree.children]
          have hsub := hmore.map DriveFile.fromApi
          simpa [Server.due, Server.folderFiles, shown, Function.comp_def] using hsub
        obtain ⟨f, hf, hshows, hkeys⟩ := htree.below.sub hkids
        have hhas : d.has root := by
          obtain ⟨hmem, hid⟩ := Drive.find_eq_some hn
          exact ⟨n, hmem, hid⟩
        refine ⟨n.file.name, f, hparent rfl, hhas, ⟨hshows, hf ▸ hkids, hkeys⟩,
          fun dry fast now => ?_⟩
        obtain ⟨hclear, hloaded⟩ := h.clear (hparent rfl) hhas dry fast
        apply runOn_succeeds rfl hequal hinside
        apply afterCheck_succeeds rfl hpreflight
        apply Course.copyTree_comes (c := sv.course (cp.variant dry fast) d root destParent tree held)
          (course_begins hclear h.parent (extractFolderId_ne_empty h.sourceLink) htree.tagged _) hn
          hloaded h.completed
        · intro F prior
          apply Course.shows_of (p := root) List.mem_cons_self hshows
          · intro src hsrc
            have hmem := (hf ▸ hkids : f.children.Sublist tree.children).subset hsrc
            rwa [htree.children] at hmem
          · exact fun k hk => List.mem_cons_of_mem _ (hkeys.subset hk)
        · exact htree.nodup.sublist (hkeys.cons_cons root)
        · intro s hs
          apply (hrun (cp.variant dry fast) s root [] rfl hs).mono
          rintro kids s' ⟨rfl, rfl⟩
          exact ⟨rfl, hf.symm⟩

/-- The same for whole runs. -/
theorem run_comes (h : sv.Setting cp d root destParent tree held) :
    (∀ dry fast now, Succeeds (cp.variant dry fast)
      (⟨(cp.variant dry fast).freshMem now, d⟩ : Site sv.service)
      (cp.variant dry fast).run fun r s' => Stopped dry d r s'.drive) ∨
    ∃ name f, d.has destParent ∧ d.has root ∧
      sv.Selected d cp.config.excludeSubstrings tree f ∧
      ∀ dry fast now, Succeeds (cp.variant dry fast)
        (⟨(cp.variant dry fast).freshMem now, d⟩ : Site sv.service)
        (cp.variant dry fast).run fun r s' =>
          (sv.course (cp.variant dry fast) d root destParent tree held).Comes name f r s'.drive := by
  cases hvalid : cp.config.validate cp.showFloat with
  | nil =>
    have hrun (dry fast : Bool) :
        (cp.variant dry fast).run = (cp.variant dry fast).runOn root destParent := by
      have hvalid : (cp.variant dry fast).config.validate (cp.variant dry fast).showFloat = [] :=
        hvalid
      have hsource : extractFolderId (cp.variant dry fast).config.sourceLink = some root :=
        h.sourceLink
      have hdest : extractFolderId (cp.variant dry fast).config.destLink = some destParent :=
        h.destLink
      unfold Copier.run
      simp only [hvalid, hsource, hdest]
    simp only [hrun]
    exact runOn_comes h
  | cons error errors =>
    left
    intro dry fast now
    have hvalid : (cp.variant dry fast).config.validate (cp.variant dry fast).showFloat =
        error :: errors := hvalid
    unfold Copier.run
    simp only [hvalid]
    exact stopWith_stopped rfl ⟨ite_self 0, ite_self 0, rfl, rfl⟩ _

end

end TurboCopy
