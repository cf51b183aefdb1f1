import TurboCopy.Copier.Ends

/-!
# A run on a course

From the destination root to the result: the traversal of the source root, the last save, and
the counts that the run ends with.
-/

namespace TurboCopy

open Threads CopierM Copier

/-- The result of a run shows the counts of the effects. -/
structure CopyResult.Shows (r : CopyResult) (t : Tally) : Prop where
  copied : (if r.dryRun then r.wouldCopyCount else r.copiedCount) = t.copied
  bytes : (if r.dryRun then r.wouldCopyBytes else r.copiedBytes) = t.bytes
  skipped : r.skippedCount = t.skipped
  failed : r.failedItems.map FailedItem.untimed = t.failed

namespace Course

variable {c : Course} {K O : Set String} {M : List Effect} {s : Site c.sv.service}

/-! ## The destination root -/

/-- The state a run starts the search for its destination root in. -/
theorem start_holds (hcache : c.cache = ∅) (hprior : c.prior = []) (hown : c.own = none)
    (now : String) (account : Option String) (hname : c.logName = logNameFor account) :
    c.Holds ∅ ∅ [] (((c.cp.freshMem now).exec (.beginRun account c.root)).2.gist c.dry) c.base where
  running := rfl
  listed := rfl
  mode := rfl
  log := hname.symm
  counts := by
    simp [Mem.gist, Mem.exec, Copier.freshMem, Tally.of]
  previous _ := by
    rw [hprior]
    rfl
  uncompleted _ := rfl
  opened _ hO := absurd hO Set.not_nonempty_empty
  cache f _ := by
    rw [hcache]
    rfl
  drive := by
    unfold Drives
    split_ifs
    · rfl
    · refine ⟨⟨[], [], id, false⟩, ?_⟩
      exact
        { nodes := by rw [List.map_id]; rfl
          realized := .nil
          labels := .refl _
          known := List.forall_mem_nil _
          fresh := List.forall_mem_nil _
          patched := fun n _ => rfl
          spared := fun n _ _ => rfl
          ownLog := hown.symm
          berths := fun k hk => absurd hk (Set.notMem_empty k)
          kept := fun _ _ h => absurd h List.not_mem_nil
          placed := fun k hk => absurd hk (Set.notMem_empty k)
          anchor := .inl rfl
          rooted := fun P _ hk => absurd hk (Set.notMem_empty c.root)
          saved := rfl
          logName := hname.symm }

/-- The source root as a folder to be placed. -/
def rootFolder (c : Course) (name : String) : DriveFile where
  id := c.root
  name := name
  mimeType := folderMime

/-- The effects of placing the root. -/
def landing (c : Course) (name : String) : List Effect :=
  [c.placing none (some c.destParent) (c.rootFolder name)]

def rootPlace (c : Course) (name : String) : Option String :=
  c.home (some c.destParent) (c.rootFolder name)

/-- Placing the source root. -/
theorem landing_succeeds (hc : c.Clear) (h : c.At ∅ ∅ [] s) (hdest : c.dest c.destParent)
    (hne : c.root ≠ "") (hsource : c.root ∈ c.sources)
    (hfits : validateAppProperties (folderProps c.root none) = .ok ()) {name : String}
    (hstart : s.mem.state.destRootId = none) (hhome : c.rootHome = c.rootPlace name) :
    Succeeds c.cp s (c.cp.getOrCreateFolder (some c.destParent) name c.root none) fun dest s' =>
      c.At {c.root} ∅ (c.landing name) s' ∧
      c.Docked (some c.root) (c.rootPlace name) dest s'.mem.state.folderMap := by
  have hdock : c.Docked none (some c.destParent) (some c.destParent) s.mem.state.folderMap := by
    refine ⟨?_, ?_⟩
    · rintro A ⟨⟩
      exact hdest
    · split_ifs
      · rfl
      · exact ⟨c.destParent, rfl, rfl, .inl rfl⟩
  have hsaves : c.Saves ∅ ∅ (s.mem.gist c.dry) := .inl (by rw [Mem.gist, hstart]; rfl)
  have hopens : c.Opens ∅ (some c.destParent) (c.rootFolder name) (s.mem.gist c.dry) :=
    .inr ⟨rfl, hstart, hhome⟩
  apply (getOrCreateFolder_succeeds (f := c.rootFolder name) hc h hsaves (Set.notMem_empty _) hne
    hsource hfits hdock (by rintro _ ⟨⟩) hopens).mono
  rintro dest s' ⟨h', hdock', -⟩
  rw [List.nil_append, insert_empty_eq] at h'
  exact ⟨h', hdock'⟩

/-- The counters of the memory are those of the effects. -/
theorem result_shows {m : Mem} (hmode : m.result.dryRun = c.dry)
    (hcounts : (m.gist c.dry).counts = Tally.of M) : m.result.Shows (Tally.of M) := by
  refine ⟨?_, ?_, congrArg Tally.skipped hcounts, congrArg Tally.failed hcounts⟩
  · rw [hmode, ← hcounts]
    rfl
  · rw [hmode, ← hcounts]
    rfl

/-- The destination root is made known to the run. -/
theorem Holds.setRoot {g : Gist} {d : Drive} (h : c.Holds K ∅ M g d) {dest : Option String}
    (hdest : c.dry = false → dest = AList.lookup c.root g.folderMap) :
    c.Holds K ∅ M { g with destRoot := dest } d where
  running := h.running
  listed := h.listed
  mode := h.mode
  log := h.log
  counts := h.counts
  previous := h.previous
  uncompleted := h.uncompleted
  cache := h.cache
  opened _ hO := absurd hO Set.not_nonempty_empty
  drive := by
    have hd := h.drive
    unfold Drives at hd ⊢
    split_ifs at hd ⊢ with hdry
    · exact hd
    · obtain ⟨G, hG⟩ := hd
      refine ⟨G, ?_⟩
      exact
        { hG with
          berths := by
            intro k hk
            obtain ⟨P, hP⟩ := hG.berths k hk
            exact ⟨P, hP.place, hP.truthy, hP.apart, hP.node⟩
          anchor := .inr (hdest (Bool.eq_false_iff.mpr hdry)) }

/-- Before the root is entered there is no log. -/
theorem Grown.unlogged {G : Growth} {g : Gist} {d : Drive} (h : c.Grown K ∅ M G g d) :
    G.logged = false := by
  by_contra hlogged
  have hlogged : G.logged = true := by simpa using hlogged
  have hlabels := h.labels
  rw [if_pos hlogged] at hlabels
  have hlog : c.logLabel ∈ G.labels :=
    hlabels.mem_iff.mpr (List.mem_append_right _ List.mem_cons_self)
  have hmime : c.logLabel.mimeType ≠ folderMime :=
    show "application/json" ≠ folderMime by decide
  obtain ⟨-, u, hu, -⟩ := (h.known _ hlog).file hmime
  exact Set.notMem_empty u hu

/-- The Drive before the root is entered. -/
theorem Grown.landed {G : Growth} {g : Gist} {d : Drive} (h : c.Grown K ∅ M G g d) :
    d.nodes = G.new ++ c.base.nodes ∧ G.labels.Perm (M.filterMap Effect.label) := by
  constructor
  · rw [h.nodes]
    congr 1
    calc c.base.nodes.map G.patch = c.base.nodes.map fun n => n :=
          List.map_congr_left fun n hn => h.spared n hn (.inr (Set.notMem_empty _))
      _ = c.base.nodes := List.map_id _
  · have hlabels := h.labels
    rw [h.unlogged, if_neg Bool.false_ne_true, List.append_nil] at hlabels
    exact hlabels

/-- The files of the destination root when the logs are loaded: those it had, none if it is
new. -/
theorem landed_files (hc : c.Clear) {name : String} {g : Gist} {d : Drive}
    (h : c.Holds {c.root} ∅ (c.landing name) g d) {dest : Option String} {fm : Dict String}
    (hdock : c.Docked (some c.root) (c.rootPlace name) dest fm) {R : String}
    (hR : truthy dest = some R) : c.sv.folderFiles d R none =
      match c.rootPlace name with
      | some P => c.sv.folderFiles c.base P none
      | none => [] := by
  obtain ⟨hdest, -⟩ := truthy_eq_some.mp hR
  have hdocked := hdock.docked
  split_ifs at hdocked with hdry
  · rw [← hdocked, hdest, h.drive.unchanged hdry]
  · obtain ⟨G, hG⟩ := h.drive.grown (Bool.eq_false_iff.mpr hdry)
    obtain ⟨hnodes, hlabels⟩ := hG.landed
    obtain ⟨P, hP, -, hplace⟩ := hdocked
    obtain rfl : R = P := Option.some.inj (hdest.symm.trans hP)
    rcases hplace with hplace | ⟨hplace, hfresh⟩
    · rw [landing, placing_kept hplace] at hlabels
      have hnil : G.labels = [] := List.perm_nil.mp hlabels
      have hnew : G.new = [] := by
        have hreal := hG.realized
        rw [hnil] at hreal
        exact List.forall₂_nil_left_iff.mp hreal
      rw [hnew, List.nil_append] at hnodes
      rw [hplace, Drive.ext_nodes hnodes]
    · have hnone : d.listed c.sv.profile R none = [] := by
        apply List.filter_eq_nil_iff.mpr
        intro n hn hlive
        have hlive : n.liveIn R = true := (Bool.and_eq_true_iff.mp hlive).1
        simp only [Node.liveIn, Bool.and_eq_true, decide_eq_true_eq] at hlive
        rw [hnodes] at hn
        rcases List.mem_append.mp hn with hn | hn
        · obtain ⟨l, hl, -, hreal⟩ := hG.label_of hn
          rw [landing, placing_made hplace] at hlabels
          have hunder : l.under = none := by
            rw [List.mem_singleton.mp (hlabels.mem_iff.mp hl)]
          obtain ⟨P, hP, hparents⟩ := hreal.parents
          rw [hunder] at hP
          obtain ⟨m, hm, hid⟩ := hc.parentHas
          rw [hparents, List.mem_singleton, ← Option.some.inj hP] at hlive
          exact (hfresh.2 m hm).1 (hid.trans hlive.2.symm)
        · exact (hfresh.2 n hn).2.1 hlive.2
      rw [hplace, Server.folderFiles, hnone]
      rfl

/-- Everything below the source root, and the root, are placed and entered in the end. -/
theorem traverse_succeeds (hc : c.Clear) {f : Forest} (hshows : c.Shows f) (hnodup : f.keys.Nodup)
    (hroot : c.root ∉ f.keys)
    (hlist : Succeeds c.cp s (c.cp.listChildren c.root c.cp.config.fromPage c.cp.config.toPage
      c.root) fun kids s' => s' = s ∧ kids = f.children)
    (h : c.At {c.root} ∅ M s) (hopened : c.dry = false → s.mem.state.destRootId ≠ none)
    {place dest : Option String}
    (hdock : c.Docked (some c.root) place dest s.mem.state.folderMap) :
    Succeeds c.cp s (c.cp.traverse c.root dest) fun b s' => b = true ∧
      c.At ({c.root} ∪ f.keySet) (insert c.root ∅ ∪ f.keySet)
        (M ++ f.effects c.guide c.cp.config.fastList c.root place) s' ∧
      AList.lookup c.root s'.mem.state.folderMap = AList.lookup c.root s.mem.state.folderMap := by
  unfold Copier.traverse Copier.enterRoot
  apply Succeeds.bind (R := fun _ s' =>
    c.At ({c.root} ∪ f.keySet) (insert c.root ∅ ∪ f.keySet)
      (M ++ f.effects c.guide c.cp.config.fastList c.root place) s' ∧
    AList.lookup c.root s'.mem.state.folderMap = AList.lookup c.root s.mem.state.folderMap)
  · apply Succeeds.bind hlist
    rintro kids s ⟨rfl, rfl⟩
    apply Succeeds.bind (recordTreeNode_succeeds s c.root f.children)
    rintro _ ⟨m, d⟩ ⟨rfl, hg, -⟩
    have hmap : m.state.folderMap = s.mem.state.folderMap := congrArg Gist.folderMap hg
    apply Succeeds.enter
    apply (enters hc f hshows hnodup {c.root} ∅ M ⟨m, s.drive⟩ _ place ?_ rfl ?_).mono
    · rintro _ s' ⟨h', hframe⟩
      exact ⟨h', (hframe.places c.root (Set.mem_singleton _)).trans (congrArg _ hmap)⟩
    · refine ⟨?_, ⟨Set.mem_singleton _, .inl rfl⟩, Set.mem_singleton _, Set.notMem_empty _, ?_, ?_,
        ?_⟩
      · unfold At
        rw [hg]
        exact h
      · rw [hmap]
        exact hdock
      · intro v hv
        exact Finset.mem_singleton.mp hv
      · rw [hg]
        exact hopened
    · intro k hk
      exact ⟨fun he => hroot (he ▸ hk), Set.notMem_empty k⟩
  · rintro _ s' ⟨h', hplace⟩
    apply Succeeds.bind (R := fun _ s'' => s'' = s') (Succeeds.drainFutures rfl)
    rintro _ s' rfl
    apply Succeeds.mem_run (x := false) (m := s'.mem)
    · exact Prod.ext h'.running rfl
    exact Succeeds.pure ⟨rfl, h', hplace⟩

/-- The destination root of a real run that has entered it. -/
theorem Holds.truthy_destRoot {g : Gist} {d : Drive} (h : c.Holds K O M g d) (hdry : c.dry = false)
    (hK : c.root ∈ K) (hO : c.root ∈ O) : ∃ R, truthy g.destRoot = some R := by
  obtain ⟨G, hG⟩ := h.drive.grown hdry
  obtain ⟨P, hP⟩ := hG.berths c.root hK
  refine ⟨P, truthy_eq_some.mpr ⟨?_, hP.truthy⟩⟩
  have hanchor := hG.anchor.resolve_left (h.opened hdry ⟨_, hO⟩)
  exact hanchor.trans hP.place

/-- The last save of a run. -/
theorem closing_succeeds (hc : c.Clear) (h : c.At K O M s) (hK : c.root ∈ K) (hO : c.root ∈ O)
    (dest : Option String) :
    Succeeds c.cp s (c.cp.closing dest) fun _ s' =>
      c.Drives K O M (s'.mem.gist c.dry) s'.drive ∧
      (c.dry = false → truthy dest ≠ none → truthy s'.mem.ownLogFileId ≠ none) ∧
      ∃ own done, s'.mem.gist c.dry = { s.mem.gist c.dry with completed := done, ownLog := own } := by
  unfold Copier.closing
  apply Succeeds.bind (R := fun _ s' => s' = s) (Succeeds.drainFutures rfl)
  rintro _ s rfl
  apply Succeeds.bind (R := fun _ s' => s'.drive = s.drive ∧ ∃ done,
    s'.mem.gist c.dry = { s.mem.gist c.dry with completed := done })
  · unfold Copier.recordCompletedFolders
    split_ifs
    · exact Succeeds.mem ⟨rfl, _, rfl⟩
    · exact Succeeds.pure ⟨rfl, _, rfl⟩
  · rintro _ ⟨m, d⟩ ⟨rfl, done, hg⟩
    have hg : m.gist c.dry = { s.mem.gist c.dry with completed := done } := hg
    have hd : c.Drives K O M (m.gist c.dry) s.drive := by
      apply h.drive.congr rfl rfl <;> rw [hg]
    unfold Copier.saveAfter
    split_ifs with hsave
    · have hdry : c.dry = false := by simpa using (Bool.and_eq_true_iff.mp hsave).1
      obtain ⟨R, hR⟩ := h.truthy_destRoot hdry hK hO
      have hroot : truthy m.state.destRootId = some R := by
        change truthy (m.gist c.dry).destRoot = some R
        rw [hg]
        exact hR
      apply (saveLog_due (s := ⟨m, s.drive⟩) hc hd hdry hK hO hroot (Bool.true_or _)).mono
      rintro _ s' ⟨⟨hd', hs'⟩, hown⟩
      refine ⟨hd', fun _ _ => hown, s'.mem.ownLogFileId, done, ?_⟩
      rw [hs'.gist, hg]
    · refine Succeeds.pure ⟨hd, fun hdry hdest => absurd hsave ?_, _, done, hg⟩
      rw [not_not, show c.cp.config.dryRun = false from hdry, Bool.not_false, Bool.true_and,
        Option.isSome_iff_ne_none]
      exact hdest

/-- The destination root of a real run is there. -/
theorem Docked.has {g : Gist} {d : Drive} {k : String} {place dest : Option String}
    (hdock : c.Docked (some k) place dest g.folderMap) (hd : c.Drives K O M g d) (hk : k ∈ K)
    (hdry : c.dry = false) : ∀ R, truthy dest = some R → d.has R := by
  intro R hR
  obtain ⟨G, hG⟩ := hd.grown hdry
  have hdocked := hdock.docked
  rw [hdry, if_neg Bool.false_ne_true] at hdocked
  obtain ⟨P, hP, hplace, -⟩ := hdocked
  obtain ⟨P', hberth⟩ := hG.berths k hk
  obtain ⟨n, hn, hid, -⟩ := hberth.node
  have hRP : R = P := Option.some.inj ((truthy_eq_some.mp hR).1.symm.trans hP)
  have hPP' : P = P' := Option.some.inj (hplace.symm.trans hberth.place)
  exact ⟨n, hn, hid.trans (hPP'.symm.trans hRP.symm)⟩

theorem Docked.truthy_dest {g : Gist} {d : Drive} {k : String} {place dest : Option String}
    (hdock : c.Docked (some k) place dest g.folderMap) (hd : c.Drives K O M g d) (hk : k ∈ K)
    (hdry : c.dry = false) : truthy dest = AList.lookup k g.folderMap ∧ truthy dest ≠ none := by
  obtain ⟨G, hG⟩ := hd.grown hdry
  have hdocked := hdock.docked
  rw [hdry, if_neg Bool.false_ne_true] at hdocked
  obtain ⟨P, rfl, hplace, -⟩ := hdocked
  obtain ⟨P', hberth⟩ := hG.berths k hk
  obtain rfl : P = P' := Option.some.inj (hplace.symm.trans hberth.place)
  rw [truthy_some hberth.truthy, hberth.place]
  exact ⟨rfl, Option.some_ne_none P⟩

/-- What the traversal of a root leads to. -/
structure Arrived (c : Course) (K O : Set String) (M : List Effect) (r : CopyResult) (d : Drive) :
    Prop where
  shows_ : r.Shows (Tally.of M)
  mode : r.dryRun = c.dry
  completed : r.completed = true
  listed : r.hadListingErrors = false
  settled : if c.dry then d = c.base else r.logSaveFailed = false ∧
    r.previousFailedItems = remaining c.prior M ∧ ∃ g G d' R, c.Grown K O M G g d' ∧
      truthy g.ownLog ≠ none ∧ AList.lookup c.root g.folderMap = some R ∧
      c.sv.Settled r false d' (some R) d

/-- From a destination root with its logs loaded to the result. -/
theorem passage_succeeds (hc : c.Clear) {f : Forest} (hshows : c.Shows f) (hnodup : f.keys.Nodup)
    (hroot : c.root ∉ f.keys)
    (hlist : Succeeds c.cp s (c.cp.listChildren c.root c.cp.config.fromPage c.cp.config.toPage
      c.root) fun kids s' => s' = s ∧ kids = f.children)
    (h : c.At {c.root} ∅ M s) (hopened : c.dry = false → s.mem.state.destRootId ≠ none)
    {place dest : Option String}
    (hdock : c.Docked (some c.root) place dest s.mem.state.folderMap) :
    Succeeds c.cp s (do
      let outcome ← attempt (c.cp.traverse c.root dest)
      c.cp.closing dest
      match outcome with
      | .ok completed => c.cp.finalize dest completed
      | .error (.quotaStopped _) => c.cp.finalize dest false
      | .error e => throw e) fun r s' =>
        c.Arrived ({c.root} ∪ f.keySet) (insert c.root ∅ ∪ f.keySet)
          (M ++ f.effects c.guide c.cp.config.fastList c.root place) r s'.drive := by
  have hK : c.root ∈ {c.root} ∪ f.keySet := .inl rfl
  have hO : c.root ∈ insert c.root ∅ ∪ f.keySet := .inl (Set.mem_insert _ _)
  apply Succeeds.bind (R := fun x s' => x = .ok true ∧
    c.At ({c.root} ∪ f.keySet) (insert c.root ∅ ∪ f.keySet)
      (M ++ f.effects c.guide c.cp.config.fastList c.root place) s' ∧
    AList.lookup c.root s'.mem.state.folderMap = AList.lookup c.root s.mem.state.folderMap)
  · apply Succeeds.attempt
    apply (traverse_succeeds hc hshows hnodup hroot hlist h hopened hdock).mono
    rintro b s' ⟨rfl, hs'⟩
    exact ⟨rfl, hs'⟩
  · rintro x s₁ ⟨rfl, h₁, hplace⟩
    apply Succeeds.bind (closing_succeeds hc h₁ hK hO dest)
    rintro _ s₂ ⟨hd, hsaved, own, done, hg⟩
    have hmap : (s₂.mem.gist c.dry).folderMap = s₁.mem.state.folderMap := by rw [hg]; rfl
    have hdock₂ : c.Docked (some c.root) place dest (s₂.mem.gist c.dry).folderMap :=
      hdock.congr (by rw [hmap, hplace])
    apply (Server.finalize_succeeds true fun hdry => hdock₂.has hd hK hdry).mono
    rintro r s' ⟨rfl, hsettled⟩
    have hmode : s₂.mem.result.dryRun = c.dry := by
      change (s₂.mem.gist c.dry).dryRun = c.dry
      rw [hg]
      exact h₁.mode
    have hshown := result_shows hmode (by rw [hg]; exact h₁.counts)
    refine ⟨⟨hshown.copied, hshown.bytes, hshown.skipped, hshown.failed⟩, hmode, rfl, ?_, ?_⟩
    · change (s₂.mem.gist c.dry).listingErrors = false
      rw [hg]
      exact h₁.listed
    · cases hdry : c.dry with
      | true =>
        rw [if_pos rfl, ← hd.unchanged hdry]
        rw [show c.cp.config.dryRun = true from hdry] at hsettled
        exact hsettled.of_dry (hmode.trans hdry)
      | false =>
        rw [if_neg Bool.false_ne_true]
        obtain ⟨G, hG⟩ := hd.grown hdry
        obtain ⟨hdest, hsome⟩ := hdock₂.truthy_dest hd hK hdry
        obtain ⟨R, hR⟩ := Option.ne_none_iff_exists'.mp hsome
        rw [show c.cp.config.dryRun = false from hdry, hR] at hsettled
        refine ⟨hG.saved, ?_, _, G, _, R, hG, hsaved hdry hsome, hdest.symm.trans hR, hsettled⟩
        change (s₂.mem.gist c.dry).previous = _
        rw [hg]
        exact h₁.previous hdry

end Course
end TurboCopy
