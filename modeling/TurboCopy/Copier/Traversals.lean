import TurboCopy.Copier.Renaming
import TurboCopy.Copier.Forecast

/-!
# The two traversals

The default and the fast traversal of a source tree have the same effects in another order. The
Drives they leave have the same files and folders up to the ids of the new ones, and the results
have the same counts.
-/

namespace TurboCopy

open Threads CopierM Copier

theorem Drive.not_fresh {d : Drive} {id : String} (h : d.has id) : ¬d.Fresh id := by
  obtain ⟨n, hn, rfl⟩ := h
  exact fun hf => (hf.2 n hn).1 rfl

namespace Course

/-- The course of another copier that has its own list of prior failures. -/
def again (c : Course) (cp : Copier) (prior : List FailedItem) : Course :=
  { c with cp := cp, prior := prior }

variable {c : Course} {cp' : Copier} {prior' : List FailedItem} {K O : Set String}
  {M M' : List Effect} {G G' : Growth} {g g' : Gist} {d d' : Drive}

/-! ## The Drive before the end of a run -/

/-- What was there is unchanged but for the contents of the log. -/
theorem Grown.patch_outline (h : c.Grown K O M G g d) {n : Node} (hn : n ∈ c.base) :
    (G.patch n).outline = n.outline := by
  rw [Node.outline, Node.id, h.patched n hn]
  rfl

theorem Grown.outlines (h : c.Grown K O M G g d) :
    d.outlines = G.new.map Node.outline ++ c.base.outlines := by
  have hbase : (c.base.nodes.map G.patch).map Node.outline = c.base.outlines := by
    rw [List.map_map]
    exact List.map_congr_left fun n hn => h.patch_outline hn
  rw [Drive.outlines, h.nodes, List.map_append, hbase]

theorem Grown.nodup_new (h : c.Grown K O M G g d) : (G.new.map Node.id).Nodup := by
  have hnodup := d.nodup
  rw [h.nodes, List.map_append] at hnodup
  exact hnodup.of_append_left

theorem Realizes.outline {fm : Dict String} {l : Label} {n : Node} {P : String}
    (h : c.Realizes fm l n) (hparents : n.file.parents = [P]) :
    n.outline = ⟨n.id, l.name, l.mimeType, l.props, false, [P]⟩ := by
  simp only [Node.outline, h.name, h.mimeType, h.props, h.live, hparents]

theorem Realizes.of_again {fm : Dict String} {l : Label} {n : Node}
    (h : (c.again cp' prior').Realizes fm l n) : c.Realizes fm l n :=
  ⟨h.name, h.mimeType, h.props, h.live, h.parents, h.key⟩

/-- The new files of a second run in the order of those of the first, and a permutation that takes
the ids of the ones to those of the others. -/
structure Aligned (c : Course) (G : Growth) (g' : Gist) (new : List Node) (ρ : Equiv.Perm String) :
    Prop where
  realized : List.Forall₂ (c.Realizes g'.folderMap) G.labels new
  ids : (G.new.map Node.id).map ρ = new.map Node.id
  kept : ∀ id, ¬c.base.Fresh id → ρ id = id

/-- Two runs with the same labels can be aligned. -/
theorem Grown.aligned (h : c.Grown K O M G g d)
    (h' : (c.again cp' prior').Grown K O M' G' g' d') (hM : M.Perm M')
    (hlogged : G.logged = G'.logged) :
    ∃ new ρ, new.Perm G'.new ∧ c.Aligned G g' new ρ := by
  have hlabels : G.labels.Perm G'.labels := by
    have hsame : (M.filterMap Effect.label ++ if G.logged then [c.logLabel] else []).Perm
        (M'.filterMap Effect.label ++ if G'.logged then [c.logLabel] else []) := by
      rw [hlogged]
      exact (hM.filterMap _).append_right _
    exact (h.labels.trans hsame).trans h'.labels.symm
  obtain ⟨new, hreal, hnew⟩ := List.perm_comp_forall₂ hlabels h'.realized
  have hids : (new.map Node.id).Perm (G'.new.map Node.id) := hnew.map _
  have hlen : (G.new.map Node.id).length = (new.map Node.id).length := by
    rw [List.length_map, List.length_map, ← h.realized.length_eq, hreal.length_eq]
  obtain ⟨ρ, hρ, hfixed⟩ := exists_perm_map h.nodup_new (hids.nodup_iff.mpr h'.nodup_new) hlen
  refine ⟨new, ρ, hnew, ⟨hreal.imp fun l n => Realizes.of_again, hρ,
    fun id hid => hfixed id ?_ ?_⟩⟩
  · intro hmem
    obtain ⟨n, hn, rfl⟩ := List.mem_map.mp hmem
    exact hid (h.fresh n hn)
  · intro hmem
    obtain ⟨n, hn, rfl⟩ := List.mem_map.mp hmem
    exact hid (h'.fresh n (hnew.subset hn))

namespace Aligned

variable {new : List Node} {ρ : Equiv.Perm String} (ha : c.Aligned G g' new ρ)
include ha

/-- The two new files of a label. -/
theorem pair (h : c.Grown K O M G g d) {i : ℕ} (hi : i < G.labels.length) :
    ∃ (hn : i < G.new.length) (hn' : i < new.length), ρ G.new[i].id = new[i].id ∧
      c.Realizes g.folderMap G.labels[i] G.new[i] ∧
      c.Realizes g'.folderMap G.labels[i] new[i] := by
  have hn : i < G.new.length := h.realized.length_eq ▸ hi
  have hn' : i < new.length := ha.realized.length_eq ▸ hi
  have hget := List.getElem_of_eq ha.ids (i := i) (by simpa using hn)
  exact ⟨hn, hn', by simpa using hget, h.realized.get hi hn, ha.realized.get hi hn'⟩

/-- The places of the second run are those of the first under their new ids. -/
theorem placeOf_eq (hc : c.Clear) (h : c.Grown K O M G g d)
    (h' : (c.again cp' prior').Grown K O M' G' g' d') (hM : M.Perm M') {u : Option String}
    {P : String} (hu : ∀ k, u = some k → k ∈ K) (hP : c.placeOf g.folderMap u = some P) :
    c.placeOf g'.folderMap u = some (ρ P) := by
  cases u with
  | none =>
    obtain rfl : c.destParent = P := Option.some.inj hP
    rw [ha.kept _ (Drive.not_fresh hc.parentHas)]
    rfl
  | some k =>
    have hP : AList.lookup k g.folderMap = some P := hP
    rcases h.placed k (hu k rfl) with ⟨Q, hQ⟩ | ⟨l, hl, hkey⟩
    · obtain ⟨-, hlookup, hhas⟩ := h.kept k Q hQ
      obtain rfl : Q = P := Option.some.inj (hlookup.symm.trans hP)
      rw [ha.kept _ (Drive.not_fresh hhas)]
      exact (h'.kept k Q ((hM.filterMap _).subset hQ)).2.1
    · obtain ⟨i, hi, rfl⟩ := List.mem_iff_getElem.mp hl
      obtain ⟨hn, hn', hid, hreal, hreal'⟩ := ha.pair h hi
      obtain rfl := Option.some.inj ((hreal.key k hkey).symm.trans hP)
      exact (hreal'.key k hkey).trans (congrArg some hid.symm)

/-- The new files of the second run are those of the first under their new ids. -/
theorem outlines_new (hc : c.Clear) (h : c.Grown K O M G g d)
    (h' : (c.again cp' prior').Grown K O M' G' g' d') (hM : M.Perm M') :
    (G.new.map Node.outline).map (Outline.rename ρ) = new.map Node.outline := by
  apply List.ext_getElem
  · simp [← h.realized.length_eq, ← ha.realized.length_eq]
  · intro i hi hi'
    have hi : i < G.labels.length := by simpa [← h.realized.length_eq] using hi
    obtain ⟨hn, hn', hid, hreal, hreal'⟩ := ha.pair h hi
    obtain ⟨P, hP, hparents⟩ := hreal.parents
    obtain ⟨P', hP', hparents'⟩ := hreal'.parents
    have hknown := h.known _ (List.getElem_mem hi)
    have hplaced := ha.placeOf_eq hc h h' hM (fun k hk => hknown.under k hk) hP
    obtain rfl : ρ P = P' := Option.some.inj (hplaced.symm.trans hP')
    rw [List.getElem_map, List.getElem_map, List.getElem_map, hreal.outline hparents,
      hreal'.outline hparents', ← hid]
    rfl

/-- What was there is not renamed. -/
theorem outlines_base : c.base.outlines.map (Outline.rename ρ) = c.base.outlines := by
  apply (List.map_congr_left fun o ho => ?_).trans (List.map_id _)
  obtain ⟨n, hn, rfl⟩ := List.mem_map.mp ho
  have hparents : n.file.parents.map ρ = n.file.parents :=
    (List.map_congr_left fun P hP => ha.kept P fun hf => (hf.2 n hn).2.1 hP).trans (List.map_id _)
  have hid : ρ n.id = n.id := ha.kept n.id (Drive.not_fresh ⟨n, hn, rfl⟩)
  simp only [Outline.rename, Node.outline, hid, hparents, id_eq]

/-- Two runs with the same effects leave the same but for the ids of the new files. -/
theorem renames (hc : c.Clear) (h : c.Grown K O M G g d)
    (h' : (c.again cp' prior').Grown K O M' G' g' d') (hM : M.Perm M') (hnew : new.Perm G'.new) :
    c.base.Renames ρ d d' where
  kept := ha.kept
  outlines := by
    rw [h.outlines, h'.outlines, List.map_append, ha.outlines_new hc h h' hM]
    change (_ ++ c.base.outlines.map _).Perm (_ ++ c.base.outlines)
    rw [ha.outlines_base]
    exact (hnew.map _).append_right _

end Aligned

/-! ## The reports -/

/-- A report is one of the new files or was there. -/
theorem Grown.reportIn_isSome (h : c.Grown K O M G g d) (R : String) :
    (c.sv.reportIn d R).isSome = true ↔ (∃ o ∈ G.new.map Node.outline, o.reports R = true) ∨
      (c.sv.reportIn c.base R).isSome = true := by
  have hbase : (c.base.nodes.map G.patch).find? (fun n => n.outline.reports R) =
      (c.base.nodes.find? fun n => n.outline.reports R).map G.patch := by
    rw [List.find?_map]
    congr 1
    apply List.find?_congr
    intro n hn
    rw [Function.comp_apply, h.patch_outline hn]
  rw [Server.reportIn_eq, h.nodes, List.find?_append, hbase]
  cases hfind : G.new.find? fun n => n.outline.reports R with
  | some n =>
    have hn : truthy (some n.id) = some n.id :=
      truthy_some (h.fresh n (List.mem_of_find?_eq_some hfind)).1
    have hreports := List.find?_some hfind
    have hnew : ∃ o ∈ G.new.map Node.outline, o.reports R = true :=
      ⟨n.outline, List.mem_map_of_mem (List.mem_of_find?_eq_some hfind), hreports⟩
    rw [Option.some_or, Option.bind_some, hn]
    exact iff_of_true rfl (.inl hnew)
  | none =>
    have hnew : ¬∃ o ∈ G.new.map Node.outline, o.reports R = true := by
      rintro ⟨o, ho, hreports⟩
      obtain ⟨n, hn, rfl⟩ := List.mem_map.mp ho
      exact List.find?_eq_none.mp hfind n hn hreports
    rw [or_iff_right hnew, Server.reportIn_eq]
    cases hfound : c.base.nodes.find? fun n => n.outline.reports R with
    | none => exact Iff.rfl
    | some n =>
      have hid := h.patch_id (List.mem_of_find?_eq_some hfound)
      rw [Option.none_or, Option.map_some, Option.bind_some, Option.bind_some, hid]

/-- Aligned runs find a report in the same cases. -/
theorem Aligned.reportIn_isSome {new : List Node} {ρ : Equiv.Perm String}
    (ha : c.Aligned G g' new ρ) (hc : c.Clear) (h : c.Grown K O M G g d)
    (h' : (c.again cp' prior').Grown K O M' G' g' d') (hM : M.Perm M') (hnew : new.Perm G'.new)
    (R : String) : (c.sv.reportIn d R).isSome = (c.sv.reportIn d' (ρ R)).isSome := by
  rw [Bool.eq_iff_iff, h.reportIn_isSome R]
  apply Iff.trans _ (h'.reportIn_isSome (ρ R)).symm
  change _ ↔ (∃ o ∈ G'.new.map Node.outline, o.reports (ρ R) = true) ∨
    (c.sv.reportIn c.base (ρ R)).isSome = true
  rw [(ha.renames hc h h' hM hnew).reportIn_base c.sv R]
  have hmem (o : Outline) : o ∈ G'.new.map Node.outline ↔
      o ∈ (G.new.map Node.outline).map (Outline.rename ρ) := by
    rw [ha.outlines_new hc h h' hM]
    exact (hnew.map Node.outline).mem_iff.symm
  apply or_congr_left
  constructor
  · rintro ⟨o, ho, hreports⟩
    refine ⟨o.rename ρ, (hmem _).mpr (List.mem_map_of_mem ho), ?_⟩
    rwa [Outline.reports_rename]
  · rintro ⟨o, ho, hreports⟩
    obtain ⟨o', ho', rfl⟩ := List.mem_map.mp ((hmem o).mp ho)
    rw [Outline.reports_rename] at hreports
    exact ⟨o', ho', hreports⟩

/-! ## The end of a run -/

theorem remaining_untimed (prior : List FailedItem) (M : List Effect) :
    (remaining prior M).map FailedItem.untimed = remaining (prior.map FailedItem.untimed) M := by
  unfold remaining
  rw [List.filter_map]
  rfl

/-- Runs with the same effects and the same prior failures have failures in the same cases. -/
theorem hasFailures_eq {r r' : CopyResult} {prior : List FailedItem} (hM : M.Perm M')
    (h : r.Shows (Tally.of M)) (h' : r'.Shows (Tally.of M'))
    (hprevious : r.previousFailedItems = remaining prior M)
    (hprevious' : r'.previousFailedItems = remaining prior' M')
    (hprior : prior'.map FailedItem.untimed = prior.map FailedItem.untimed) :
    r.hasFailures = r'.hasFailures := by
  have hfailed : (r.failedItems.map FailedItem.untimed).Perm
      (r'.failedItems.map FailedItem.untimed) := by
    rw [h.failed, h'.failed]
    exact (Tally.of_perm hM).2.2.2
  have hleft : r.previousFailedItems.map FailedItem.untimed =
      r'.previousFailedItems.map FailedItem.untimed := by
    rw [hprevious, hprevious', remaining_untimed, remaining_untimed, hprior, remaining_perm hM]
  have hempty : r.failedItems.isEmpty = r'.failedItems.isEmpty := by
    rw [← List.isEmpty_map (f := FailedItem.untimed) (l := r.failedItems), hfailed.isEmpty_eq,
      List.isEmpty_map]
  have hempty' : r.previousFailedItems.isEmpty = r'.previousFailedItems.isEmpty := by
    rw [← List.isEmpty_map (f := FailedItem.untimed) (l := r.previousFailedItems), hleft,
      List.isEmpty_map]
  rw [CopyResult.hasFailures, CopyResult.hasFailures, hempty, hempty']

/-- Whether a run has made a log depends on what it has loaded only. -/
theorem Grown.logged_eq (h : c.Grown K O M G g d) (hown : truthy g.ownLog ≠ none) :
    G.logged = (truthy c.own).isNone := by
  have hlog := h.ownLog
  cases hG : G.logged with
  | false =>
    rw [hG, if_neg Bool.false_ne_true] at hlog
    rw [hlog] at hown
    simp [Option.ne_none_iff_isSome.mp hown]
  | true =>
    rw [hG, if_pos rfl] at hlog
    rw [hlog.1]
    rfl

/-- Two runs with the same effects and the same prior failures leave Drives that differ by a
renaming of new ids. -/
theorem Arrived.renames {r r' : CopyResult} (hc : c.Clear) (h : c.Arrived K O M r d)
    (h' : (c.again cp' prior').Arrived K O M' r' d') (hM : M.Perm M')
    (hdry : cp'.config.dryRun = c.dry) (hroot : c.root ∈ K)
    (hprior : c.dry = false →
      prior'.map FailedItem.untimed = c.prior.map FailedItem.untimed) :
    ∃ ρ, c.base.Renames ρ d d' := by
  have hsettled := h.settled
  have hsettled' := h'.settled
  have hmode : (c.again cp' prior').dry = c.dry := hdry
  rw [hmode] at hsettled'
  cases hreal : c.dry with
  | true =>
    rw [if_pos hreal] at hsettled hsettled'
    rw [hsettled, hsettled']
    exact ⟨1, .refl _ _⟩
  | false =>
    rw [if_neg (by rw [hreal]; exact Bool.false_ne_true)] at hsettled hsettled'
    obtain ⟨hsaved, hprevious, g, G, e, R, hG, hown, hR, hend⟩ := hsettled
    obtain ⟨hsaved', hprevious', g', G', e', R', hG', hown', hR', hend'⟩ := hsettled'
    have hlogged : G.logged = G'.logged := (hG.logged_eq hown).trans (hG'.logged_eq hown').symm
    obtain ⟨new, ρ, hnew, ha⟩ := hG.aligned hG' hM hlogged
    have hplaced := ha.placeOf_eq hc hG hG' hM (u := some c.root)
      (fun k hk => Option.some.inj hk ▸ hroot) hR
    obtain rfl : ρ R = R' := Option.some.inj (hplaced.symm.trans hR')
    have hfailures := hasFailures_eq hM h.shows_ h'.shows_ hprevious hprevious' (hprior hreal)
    have hok : r.fullyOk = r'.fullyOk := by
      rw [CopyResult.fullyOk, CopyResult.fullyOk, hfailures, h.completed, h'.completed, h.listed,
        h'.listed, h.mode, h'.mode, hmode, hsaved, hsaved']
    obtain ⟨P, hberth⟩ := hG.berths c.root hroot
    obtain rfl : P = R := Option.some.inj (hberth.place.symm.trans hR)
    obtain ⟨n, hn, hid, -⟩ := hberth.node
    apply hend.renames hend' hok hfailures (ha.renames hc hG hG' hM hnew)
      (ha.reportIn_isSome hc hG hG' hM hnew P) ⟨n, hn, hid⟩ (fun _ => hG.fresh_base)
    exact fun _ => hG'.fresh_base

end Course

/-! ## Destinations apart from the source -/

/-- The destination folders: the parent folder and the live copies of source folders. -/
inductive DestFolder (d : Drive) (destParent root : String) (tree : Forest) : String → Prop
  | parent : DestFolder d destParent root tree destParent
  | folder {k : String} {n : Node} (hn : n ∈ d) (hlive : n.file.trashed = false)
      (hfolder : n.isFolder = true) (hk : k ∈ root :: tree.keys) (htag : n.tag = some k) :
      DestFolder d destParent root tree n.id

/-- The destination is disjoint from the source: no destination folder is a source folder, and a
log in a copy of the source root is in no other folder and not the target of a source shortcut. -/
structure Detached (d : Drive) (destParent root : String) (tree : Forest) : Prop where
  folders : ∀ P, DestFolder d destParent root tree P → P ∉ root :: tree.keys
  logParent : ∀ m ∈ d, m.liveIn destParent = true → m.isFolder = true → m.tag = some root →
    ∀ n ∈ d, n.liveIn m.id = true → startsWith n.file.name logPrefix = true →
    ∀ P, n.liveIn P = true → P = m.id
  logTarget : ∀ m ∈ d, m.liveIn destParent = true → m.isFolder = true → m.tag = some root →
    ∀ n ∈ d, n.liveIn m.id = true → startsWith n.file.name logPrefix = true →
    ∀ x ∈ d, ∀ p ∈ root :: tree.keys, x.liveIn p = true → x.file.shortcutTarget ≠ some n.id

/-- The log to overwrite is one of the logs. -/
theorem Drive.findings_own {sha256 : Json → String} {d : Drive} {account : Option String}
    (files : List ApiFile) : ∀ {F F' : Findings}, d.findings sha256 account files F = some F' →
      F'.own = F.own ∨ ∃ entry ∈ files, F'.own = some entry.id := by
  induction files with
  | nil =>
    rintro F F' h
    obtain rfl := Option.some.inj h
    exact .inl rfl
  | cons entry rest ih =>
    intro F F' h
    unfold Drive.findings at h
    cases hread : d.holdings sha256 entry.id with
    | none =>
      rw [hread] at h
      cases h
    | some holdings =>
      rw [hread] at h
      rcases ih h with hown | ⟨e, he, hown⟩
      · unfold Findings.add at hown
        dsimp only at hown
        split_ifs at hown with hname
        · exact .inr ⟨entry, List.mem_cons_self, hown⟩
        · exact .inl hown
      · exact .inr ⟨e, List.mem_cons_of_mem _ he, hown⟩

section

variable {sv : Server} {cp : Copier} {d : Drive} {root destParent : String} {tree : Forest}
  {F : Findings} {prior : List FailedItem}

/-- The destination folder of a source folder is a live copy of it. -/
theorem home_destFolder {place : Option String} {f : DriveFile} {P : String}
    (hf : f.id ∈ root :: tree.keys)
    (h : ((sv.course cp d root destParent tree (DestFolder d destParent root tree)).loaded F
      prior).home place f = some P) : DestFolder d destParent root tree P := by
  obtain ⟨-, n, hn, rfl, hfolder, htag, hlive⟩ := Course.home_node h
  exact .folder hn hlive hfolder hf htag

/-- The log that a run overwrites lies in the destination root. -/
theorem own_log {id : String}
    (h : (sv.course cp d root destParent tree (DestFolder d destParent root tree)).findings =
      some F) (hown : F.own = some id) :
    ∃ m ∈ d, m.liveIn destParent = true ∧ m.isFolder = true ∧ m.tag = some root ∧
      sv.found d destParent root = some m.id ∧
      ∃ n ∈ d, n.id = id ∧ n.liveIn m.id = true ∧ startsWith n.file.name logPrefix = true := by
  rcases Drive.findings_own _ h with hnone | ⟨entry, hentry, hentryOwn⟩
  · exact nomatch hown.symm.trans hnone
  · obtain rfl : id = entry.id := Option.some.inj (hown.symm.trans hentryOwn)
    change entry ∈ sv.rootLogs d (sv.found d destParent root) at hentry
    unfold Server.rootLogs at hentry
    cases hR : truthy (sv.found d destParent root) with
    | none =>
      rw [hR] at hentry
      exact nomatch hentry
    | some R =>
      rw [hR] at hentry
      have hfound := (truthy_eq_some.mp hR).1
      obtain ⟨-, m, hm, rfl, hfolder, htag, hlive⟩ := Server.found_node hfound
      obtain ⟨hfile, hname⟩ := List.mem_filter.mp hentry
      obtain ⟨n, hn, rfl⟩ := List.mem_map.mp hfile
      obtain ⟨hn, hshown⟩ := List.mem_filter.mp hn
      exact ⟨m, hm, hlive, hfolder, htag, hfound, n, hn, rfl,
        (Bool.and_eq_true_iff.mp hshown).1, hname⟩

variable (hpooled : cp.pooled = false) (hlimit : ¬0 < cp.config.maxCopySizeGb)
  (htree : sv.SourceTree d cp.config.excludeSubstrings root tree)
  (hdetached : Detached d destParent root tree) (hparent : d.has destParent) (hroot : d.has root)
include hpooled hlimit htree hdetached hparent hroot

/-- A course into a destination that is disjoint from the source. -/
theorem detached_clear
    (hown : ∀ id, F.own = some id → (sv.course cp d root destParent tree
      (DestFolder d destParent root tree)).findings = some F) :
    ((sv.course cp d root destParent tree (DestFolder d destParent root tree)).loaded F
      prior).Clear where
  unpooled := hpooled
  unlimited := hlimit
  parents := htree.parents
  destParent h := hdetached.folders destParent .parent h
  parentHas := hparent
  sourcesHas := by
    intro p hp
    have hp : p ∈ root :: tree.keys := hp
    rcases List.mem_cons.mp hp with rfl | hp
    · exact hroot
    · apply htree.below.has _ p hp
      intro src hsrc
      rw [htree.children] at hsrc
      obtain ⟨n, hn, rfl⟩ := Server.mem_shown hsrc
      exact ⟨n, List.mem_of_mem_filter hn, rfl⟩
  apart P hP h := hdetached.folders P hP h
  home place f P hf _ hhome := home_destFolder hf hhome
  ownItem := by
    intro x hx p hp hlive
    constructor
    · intro hid
      obtain ⟨m, hm, hmlive, hfolder, htag, -, n, hn, hnid, hnlive, hname⟩ :=
        own_log (hown _ hid) hid
      obtain rfl := Drive.eq_of_id hn hx hnid
      have hmlive' := (Bool.and_eq_true_iff.mp hmlive).1
      rw [Bool.not_eq_true'] at hmlive'
      obtain rfl := hdetached.logParent m hm hmlive hfolder htag n hn hnlive hname p hlive
      exact hdetached.folders m.id (.folder hm hmlive' hfolder List.mem_cons_self htag) hp
    · intro t ht hid
      obtain ⟨m, hm, hmlive, hfolder, htag, -, n, hn, rfl, hnlive, hname⟩ :=
        own_log (hown _ hid) hid
      exact hdetached.logTarget m hm hmlive hfolder htag n hn hnlive hname x hx p hp hlive ht
  ownHome := by
    intro x hx hid P hlive
    obtain ⟨m, hm, hmlive, hfolder, htag, hfound, n, hn, hnid, hnlive, hname⟩ :=
      own_log (hown _ hid) hid
    obtain rfl := Drive.eq_of_id hn hx hnid
    obtain rfl := hdetached.logParent m hm hmlive hfolder htag n hn hnlive hname P hlive
    exact hfound
  ownHas := by
    intro id hid
    obtain ⟨-, -, -, -, -, -, n, hn, hnid, -⟩ :=
      own_log (hown _ (truthy_eq_some.mp hid).1) (truthy_eq_some.mp hid).1
    exact ⟨n, hn, hnid⟩

omit hpooled hlimit htree hdetached hparent hroot

theorem detached_setting (hpooled : cp.pooled = false) (hlimit : ¬0 < cp.config.maxCopySizeGb)
    (hskip : cp.config.skipCompletedFolders = false)
    (hsource : extractFolderId cp.config.sourceLink = some root)
    (hdest : extractFolderId cp.config.destLink = some destParent)
    (htree : sv.SourceTree d cp.config.excludeSubstrings root tree)
    (hdetached : Detached d destParent root tree) :
    sv.Setting cp d root destParent tree (DestFolder d destParent root tree) where
  sourceLink := hsource
  destLink := hdest
  sourceTree := htree
  parent := .parent
  clear := by
    intro hparent hroot dry fast
    have hpooled' : (cp.variant dry fast).pooled = false := hpooled
    constructor
    · change ((sv.course (cp.variant dry fast) d root destParent tree
        (DestFolder d destParent root tree)).loaded .nothing []).Clear
      exact detached_clear hpooled' hlimit htree hdetached hparent hroot fun id hid => nomatch hid
    · intro F prior hF
      exact detached_clear hpooled' hlimit htree hdetached hparent hroot fun _ _ => hF
  completed := by
    intro F _ hon
    rw [hskip] at hon
    exact nomatch hon

/-- The results of two runs count the same. -/
structure CopyResult.Agrees (r r' : CopyResult) : Prop where
  mode : r.dryRun = r'.dryRun
  copied : r.dryRun = false → r.copiedCount = r'.copiedCount
  planned : r.dryRun = true → r.wouldCopyCount = r'.wouldCopyCount
  skipped : r.skippedCount = r'.skippedCount
  failed : (r.failedItems.map FailedItem.untimed).Perm (r'.failedItems.map FailedItem.untimed)

theorem CopyResult.Shows.agrees {r r' : CopyResult} {M M' : List Effect} (hM : M.Perm M')
    (h : r.Shows (Tally.of M)) (h' : r'.Shows (Tally.of M')) (hmode : r.dryRun = r'.dryRun) :
    r.Agrees r' := by
  obtain ⟨hcopied, -, hskipped, hfailed⟩ := Tally.of_perm hM
  have hcount := h.copied.trans (hcopied.trans h'.copied.symm)
  refine ⟨hmode, fun hreal => ?_, fun hdry => ?_, ?_, ?_⟩
  · rwa [← hmode, hreal, if_neg Bool.false_ne_true, if_neg Bool.false_ne_true] at hcount
  · rwa [← hmode, hdry, if_pos rfl, if_pos rfl] at hcount
  · exact h.skipped.trans (hskipped.trans h'.skipped.symm)
  · rw [h.failed, h'.failed]
    exact hfailed

/-- Two runs that come to the same part of the tree agree. -/
theorem comes_agree {held : String → Prop} {dry : Bool} {name : String} {f : Forest}
    {r r' : CopyResult} {e e' : Drive}
    (hclear : ∀ F prior, (sv.course (cp.variant dry true) d root destParent tree held).findings =
      some F → ((sv.course (cp.variant dry true) d root destParent tree held).loaded F prior).Clear)
    (h : (sv.course (cp.variant dry true) d root destParent tree held).Comes name f r e)
    (h' : (sv.course (cp.variant dry false) d root destParent tree held).Comes name f r' e') :
    r.Agrees r' ∧ ∃ ρ, d.Renames ρ e e' := by
  cases hfindings : (sv.course (cp.variant dry true) d root destParent tree held).findings with
  | none =>
    obtain ⟨hmode, hshows, rfl⟩ := h.refused hfindings
    obtain ⟨hmode', hshows', rfl⟩ := h'.refused hfindings
    exact ⟨hshows.agrees (.refl _) hshows' (hmode.trans hmode'.symm), 1, .refl _ _⟩
  | some F =>
    obtain ⟨prior, hprior, harrived⟩ := h.accepted hfindings
    obtain ⟨prior', hprior', harrived'⟩ := h'.accepted hfindings
    have hM : ((sv.course (cp.variant dry true) d root destParent tree held).landing name ++
        f.effects ((sv.course (cp.variant dry true) d root destParent tree held).loaded F
          prior).guide true root
          ((sv.course (cp.variant dry true) d root destParent tree held).rootPlace name)).Perm
        ((sv.course (cp.variant dry true) d root destParent tree held).landing name ++
        f.effects ((sv.course (cp.variant dry true) d root destParent tree held).loaded F
          prior).guide false root
          ((sv.course (cp.variant dry true) d root destParent tree held).rootPlace name)) :=
      (f.effects_perm _ _ _ true false).append_left _
    refine ⟨harrived.shows_.agrees hM harrived'.shows_ (harrived.mode.trans harrived'.mode.symm), ?_⟩
    change (((sv.course (cp.variant dry true) d root destParent tree held).loaded F prior).again
      (cp.variant dry false) prior').Arrived _ _ _ _ _ at harrived'
    apply Course.Arrived.renames (hclear F prior hfindings) harrived harrived' hM rfl
    · exact .inl rfl
    · intro hreal
      exact (hprior' hreal).trans (hprior hreal).symm

end

/-- The copier with `fast_list` set or not. -/
def Copier.listing (cp : Copier) (fast : Bool) : Copier := cp.variant cp.config.dryRun fast

/-- The runs of a traversal on the Drive of a server. -/
abbrev Server.traversals (sv : Server) (cp : Copier) (fast : Bool) : System copierSig :=
  (cp.listing fast).undisturbed sv.service

/-- A run with a traversal that has returned its result, with the Drive it has left. -/
def Server.Leaves (sv : Server) (cp : Copier) (d : Drive) (fast : Bool) (r : CopyResult)
    (d' : Drive) : Prop :=
  ∃ now c, Reach (sv.traversals cp fast)
    (start (sv.traversals cp fast) (cp.listing fast).run ⟨(cp.listing fast).freshMem now, d⟩ []) c ∧
    c.Returned (.ok r) ∧ c.world.state.drive = d'

/-- Both traversals can always be run to a result. Their results count the same, and the Drives
they leave differ by a renaming of new ids. -/
theorem fast_list_agrees {sv : Server} {cp : Copier} {d : Drive} {root destParent : String}
    {tree : Forest} (hworkers : cp.config.workers = 1) (hlimit : cp.config.maxCopySizeGb = 0)
    (hskip : cp.config.skipCompletedFolders = false)
    (hsource : extractFolderId cp.config.sourceLink = some root)
    (hdest : extractFolderId cp.config.destLink = some destParent)
    (htree : sv.SourceTree d cp.config.excludeSubstrings root tree)
    (hdetached : Detached d destParent root tree) :
    (∀ fast now, Yields (sv.traversals cp fast) (cp.listing fast).run
      ⟨(cp.listing fast).freshMem now, d⟩ fun x _ => ∃ r, x = .ok r) ∧
    ∀ r r' e e', sv.Leaves cp d true r e → sv.Leaves cp d false r' e' →
      r.Agrees r' ∧ ∃ ρ, d.Renames ρ e e' := by
  have hpooled : cp.pooled = false := by
    rw [Copier.pooled, hworkers]
    rfl
  have hunlimited : ¬0 < cp.config.maxCopySizeGb := by
    rw [hlimit]
    exact lt_irrefl 0
  have hset := detached_setting hpooled hunlimited hskip hsource hdest htree hdetached
  obtain ⟨S, hruns, hagree⟩ : ∃ S : Bool → CopyResult → Drive → Prop,
      (∀ fast now, Succeeds (cp.listing fast)
        (⟨(cp.listing fast).freshMem now, d⟩ : Site sv.service) (cp.listing fast).run
        fun r s' => S fast r s'.drive) ∧
      ∀ r r' e e', S true r e → S false r' e' → r.Agrees r' ∧ ∃ ρ, d.Renames ρ e e' := by
    rcases run_comes hset with hstopped | ⟨name, f, hparent, hroot, -, hcomes⟩
    · refine ⟨fun _ r e => Stopped cp.config.dryRun d r e, fun fast now => hstopped _ fast now, ?_⟩
      rintro r r' e e' ⟨hmode, hshows, rfl⟩ ⟨hmode', hshows', rfl⟩
      exact ⟨hshows.agrees (.refl _) hshows' (hmode.trans hmode'.symm), 1, .refl _ _⟩
    · refine ⟨fun fast r e => (sv.course (cp.variant cp.config.dryRun fast) d root destParent tree
        (DestFolder d destParent root tree)).Comes name f r e, fun fast now => hcomes _ fast now, ?_⟩
      intro r r' e e' h h'
      exact comes_agree (hset.clear hparent hroot cp.config.dryRun true).2 h h'
  have hyields (fast : Bool) (now : String) : Yields (sv.traversals cp fast) (cp.listing fast).run
      ⟨(cp.listing fast).freshMem now, d⟩ fun x w => ∃ r, x = .ok r ∧ S fast r w.state.drive := by
    apply Alone.yields ((cp.listing fast).undisturbed_env sv.service)
    apply Alone.mono (hruns fast now [])
    rintro (e | r) w h
    · exact h.elim
    · exact ⟨r, rfl, h⟩
  constructor
  · intro fast now
    obtain ⟨hcompletes, hreturned⟩ := hyields fast now
    refine ⟨hcompletes, fun c a hc ha => ?_⟩
    obtain ⟨r, hr, -⟩ := hreturned c a hc ha
    exact ⟨r, hr⟩
  · rintro r r' e e' ⟨now, c, hc, hret, rfl⟩ ⟨now', c', hc', hret', rfl⟩
    obtain ⟨q, hq, hS⟩ := (hyields true now).returned c _ hc hret
    obtain ⟨q', hq', hS'⟩ := (hyields false now').returned c' _ hc' hret'
    obtain rfl := Except.ok.inj hq
    obtain rfl := Except.ok.inj hq'
    exact hagree _ _ _ _ hS hS'

theorem partialDrive_detached :
    Detached partialDrive "targetfolder" "sourcefolder" partialTree where
  folders := by
    have hcopies : ∀ n ∈ partialDrive.nodes, n.tag.isSome = true →
        n.id ∉ "sourcefolder" :: partialTree.keys := by decide +kernel
    intro P hP
    cases hP with
    | parent => decide +kernel
    | folder hn _ _ _ htag => exact hcopies _ hn (Option.isSome_of_eq_some htag)
  logParent m hm hlive hfolder htag n hn hin hlog :=
    absurd (partialDrive_unlogged m hm hlive hfolder htag n hn hin) (by rw [hlog]; decide)
  logTarget m hm hlive hfolder htag n hn hin hlog :=
    absurd (partialDrive_unlogged m hm hlive hfolder htag n hn hin) (by rw [hlog]; decide)

/-- Both traversals from the partly copied folder agree. -/
theorem fast_list_agrees_partial :
    (∀ fast now, Yields (plainServer.traversals unlimitedCopier fast)
      (unlimitedCopier.listing fast).run ⟨(unlimitedCopier.listing fast).freshMem now, partialDrive⟩
      fun x _ => ∃ r, x = .ok r) ∧
    ∀ r r' e e', plainServer.Leaves unlimitedCopier partialDrive true r e →
      plainServer.Leaves unlimitedCopier partialDrive false r' e' →
      r.Agrees r' ∧ ∃ ρ, partialDrive.Renames ρ e e' :=
  fast_list_agrees (by decide) rfl rfl smallCopier_between.source smallCopier_between.dest
    partialTree_sourceTree partialDrive_detached

end TurboCopy
