import TurboCopy.Copier.Steady
import TurboCopy.Copier.Forest

/-!
# What a run has done so far

The state of a run of one thread over an honest server, described by the effects it has had. A
dry run leaves the Drive as it was. In a real run every new node carries a label that says what
it stands for: its name, its properties, and by the keys of source folders which folder it is in
and which it is. The Drive of a run is compared with the one it started from only through what
the engine reads of it.
-/

namespace TurboCopy

open Threads CopierM Copier

/-- The target of a shortcut under the shortcut's name. -/
def Drive.resolve (d : Drive) (src : DriveFile) : Option DriveFile :=
  (truthy src.shortcutTargetId).bind fun id => (d.find id).map fun n =>
    { DriveFile.fromApi (n.file.view shortcutFields) with name := src.name }

def FailedItem.untimed (f : FailedItem) : FailedItem := { f with timestamp := "" }

/-- The failure of a file that is too large to be copied. -/
def tooLargeItem (src : DriveFile) (parentSourceId : String) (shortcutId : Option String) :
    FailedItem where
  sourceId := src.id
  name := src.name
  mimeType := src.mimeType
  reason := "fileTooLargeToCopy"
  errorMessage := tooLargeText src
  timestamp := ""
  parentSourceId := some parentSourceId
  sourceShortcutId := shortcutId
  effectiveSourceId := some (orElse shortcutId src.id)

/-- What `_copy_file` does with a file when nothing goes wrong, and what it leaves of the index. -/
def Copier.settle (cp : Copier) (idx : DestinationIndex) (under : String) (src : DriveFile)
    (shortcutId : Option String) : Effect × DestinationIndex :=
  match idx.popMatch src cp.config.verifyMode cp.config.allowNameOnly
      (orElse shortcutId src.id) with
  | (some _, idx') => (.skipped src shortcutId, idx')
  | (none, _) =>
    if tooLarge src then (.failed (tooLargeItem src under shortcutId), idx)
    else (.copied under src shortcutId, idx)

/-! ## Labels -/

/-- What a new node stands for. The folder it is in is given by its source folder, the
destination parent by none; a folder has the key of its source folder. -/
structure Label where
  name : String
  mimeType : String
  props : Dict String
  under : Option String
  key : Option String

def Effect.label : Effect → Option Label
  | copied under src shortcutId =>
    some ⟨src.name, src.mimeType, copyProps src shortcutId, some under, none⟩
  | made under folder =>
    some ⟨folder.name, folderMime, folderProps folder.id none, under, some folder.id⟩
  | _ => none

/-- The folder that is kept for a source folder. -/
def Effect.keeping : Effect → Option (String × String)
  | kept key id => some (key, id)
  | _ => none

/-- The source folder whose copy a folder is tagged as. -/
def Node.tag (n : Node) : Option String := AList.lookup "source_folder_id" n.file.appProperties

/-! ## Courses -/

/-- A folder is taken for the copy of a source folder when it is live and tagged as it. -/
theorem isDestFolder_view {n : Node} {k : String} :
    isDestFolder (DriveFile.fromApi (n.file.view folderFields)) k none = true ↔
      n.file.trashed = false ∧ n.isFolder = true ∧ n.tag = some k := by
  simp [isDestFolder, DriveFile.isFolder, DriveFile.fromApi, ApiFile.view, folderFields,
    folderKeyName, Node.isFolder, Node.tag, and_assoc]

/-- The part of the memory that the course of a run depends on. -/
structure Gist where
  stop : Bool
  counts : Tally
  previous : List FailedItem
  completed : Finset String
  folderMap : Dict String
  destRoot : Option String
  ownLog : Option String
  logName : String
  saveFailed : Bool
  listingErrors : Bool
  dryRun : Bool

def Mem.gist (dry : Bool) (m : Mem) : Gist where
  stop := m.stop
  counts :=
    { copied := if dry then m.result.wouldCopyCount else m.result.copiedCount
      bytes := if dry then m.result.wouldCopyBytes else m.result.copiedBytes
      skipped := m.result.skippedCount
      failed := m.result.failedItems.map FailedItem.untimed }
  previous := m.result.previousFailedItems
  completed := m.state.completedFolders
  folderMap := m.state.folderMap
  destRoot := m.state.destRootId
  ownLog := m.ownLogFileId
  logName := orElse m.ownLogName (logNameFor m.state.account)
  saveFailed := m.result.logSaveFailed
  listingErrors := m.result.hadListingErrors
  dryRun := m.result.dryRun

/-- The copy of a source folder that a search finds in a place. -/
def Server.found (sv : Server) (d : Drive) (place key : String) : Option String :=
  match (sv.turn (.search (folderQuery place key none) 10)
      (Server.foundFiles d (folderQuery place key none))).1 with
  | [] => none
  | g :: rest => truthy (some (firstById g rest))

/-- What is fixed for a run: the server, the copier, the Drive it starts from, its source folders
and the destination folders it may use, with what its logs had: the folder map, the log to
overwrite and the prior failures. -/
structure Course where
  sv : Server
  cp : Copier
  base : Drive
  root : String
  destParent : String
  rootHome : Option String
  sources : Set String
  dest : String → Prop
  cache : Dict String
  own : Option String
  logName : String
  prior : List FailedItem

namespace Course

variable (c : Course)

abbrev dry : Bool := c.cp.config.dryRun

/-- The folder the logs have for a source folder, when it is still a copy of it. -/
def cached (f : DriveFile) : Option String :=
  (truthy (AList.lookup f.id c.cache)).filter fun id =>
    (c.base.find id).any fun n =>
      isDestFolder (DriveFile.fromApi (n.file.view folderFields)) f.id none

def found (place : String) (f : DriveFile) : Option String := c.sv.found c.base place f.id

/-- The destination folder of a source folder before the run. A dry run does not ask for what is
in a folder that it would make. -/
def home (place : Option String) (f : DriveFile) : Option String :=
  if c.dry && place.isNone then none
  else (c.cached f).orElse fun _ => place.bind fun p => c.found p f

def guide : Guide where
  settle := c.cp.settle
  home := c.home
  shelf place := DestinationIndex.build (c.sv.indexed c.base place)

def logLabel : Label := ⟨c.logName, "application/json", toolProps, some c.root, none⟩

/-- The destination folder of a source folder in a run. -/
def placeOf (folderMap : Dict String) : Option String → Option String
  | none => some c.destParent
  | some k => AList.lookup k folderMap

/-- A node is what its label says. -/
structure Realizes (folderMap : Dict String) (l : Label) (n : Node) : Prop where
  name : n.file.name = l.name
  mimeType : n.file.mimeType = l.mimeType
  props : n.file.appProperties = l.props
  live : n.file.trashed = false
  parents : ∃ P, c.placeOf folderMap l.under = some P ∧ n.file.parents = [P]
  key : ∀ k, l.key = some k → AList.lookup k folderMap = some n.id

/-- A label whose folders are among those placed so far, and entered if it is a file's. -/
structure Known (K O : Set String) (l : Label) : Prop where
  under : ∀ u, l.under = some u → u ∈ K
  folder : l.mimeType = folderMime →
    ∃ k ∈ K, l.key = some k ∧ AList.lookup "source_folder_id" l.props = some k
  file : l.mimeType ≠ folderMime → l.key = none ∧ ∃ u ∈ O, l.under = some u

/-- The destination folder of a source folder that has been placed. -/
structure Berth (g : Gist) (d : Drive) (k P : String) : Prop where
  place : AList.lookup k g.folderMap = some P
  truthy : P ≠ ""
  apart : P ∉ c.sources
  node : ∃ n ∈ d, n.id = P ∧ n.isFolder = true ∧ n.tag = some k

/-- How the Drive has grown: the new nodes with their labels, what has become of the old ones,
and whether a log is among the new ones. -/
structure Growth where
  new : List Node
  labels : List Label
  patch : Node → Node
  logged : Bool

/-- The Drive of a real run after the effects `M`, with the source folders placed and those
entered. Only the log that the run overwrites has changed. -/
structure Grown (K O : Set String) (M : List Effect) (G : Growth) (g : Gist) (d : Drive) : Prop where
  nodes : d.nodes = G.new ++ c.base.nodes.map G.patch
  realized : List.Forall₂ (c.Realizes g.folderMap) G.labels G.new
  labels : G.labels.Perm (M.filterMap Effect.label ++ if G.logged then [c.logLabel] else [])
  known : ∀ l ∈ G.labels, Known K O l
  fresh : ∀ n ∈ G.new, c.base.Fresh n.id
  patched : ∀ n ∈ c.base, (G.patch n).file = { n.file with
    md5Checksum := (G.patch n).file.md5Checksum, size := (G.patch n).file.size }
  spared : ∀ n ∈ c.base, c.own ≠ some n.id ∨ c.root ∉ O → G.patch n = n
  ownLog : if G.logged then truthy c.own = none ∧ ∃ n ∈ G.new, g.ownLog = some n.id
    else g.ownLog = c.own
  berths : ∀ k ∈ K, ∃ P, c.Berth g d k P
  kept : ∀ k P, (k, P) ∈ M.filterMap Effect.keeping →
    k ∈ K ∧ AList.lookup k g.folderMap = some P ∧ c.base.has P
  placed : ∀ k ∈ K, (∃ P, (k, P) ∈ M.filterMap Effect.keeping) ∨ ∃ l ∈ G.labels, l.key = some k
  anchor : g.destRoot = none ∨ g.destRoot = AList.lookup c.root g.folderMap
  rooted : ∀ P, AList.lookup c.root g.folderMap = some P → c.root ∈ K →
    c.rootHome = some P ∨ c.rootHome = none ∧ c.base.Fresh P
  saved : g.saveFailed = false
  logName : g.logName = c.logName

/-- The Drive of a run after the effects `M`. -/
def Drives (K O : Set String) (M : List Effect) (g : Gist) (d : Drive) : Prop :=
  if c.dry then d = c.base else ∃ G, c.Grown K O M G g d

/-- The state of a run after the effects `M`. -/
structure Holds (K O : Set String) (M : List Effect) (g : Gist) (d : Drive) : Prop where
  running : g.stop = false
  listed : g.listingErrors = false
  mode : g.dryRun = c.dry
  log : g.logName = c.logName
  counts : g.counts = Tally.of M
  previous : c.dry = false → g.previous = remaining c.prior M
  uncompleted : c.cp.config.skipCompletedFolders = true → g.completed = ∅
  cache : ∀ f ∉ K, AList.lookup f g.folderMap = AList.lookup f c.cache
  opened : c.dry = false → O.Nonempty → g.destRoot ≠ none
  drive : c.Drives K O M g d

/-- What a course has to satisfy: one thread without a size limit, a destination that is apart
from the source, and no log that is read as a part of either. -/
structure Clear : Prop where
  unpooled : c.cp.pooled = false
  unlimited : ¬0 < c.cp.config.maxCopySizeGb
  parents : ∀ n ∈ c.base, n.file.parents.Nodup
  destParent : c.destParent ∉ c.sources
  parentHas : c.base.has c.destParent
  sourcesHas : ∀ p ∈ c.sources, c.base.has p
  apart : ∀ P, c.dest P → P ∉ c.sources
  home : ∀ place f P, f.id ∈ c.sources → (∀ A, place = some A → c.dest A) →
    c.home place f = some P → c.dest P
  ownItem : ∀ n ∈ c.base, ∀ p ∈ c.sources, n.liveIn p = true →
    c.own ≠ some n.id ∧ ∀ t, n.file.shortcutTarget = some t → c.own ≠ some t
  ownHome : ∀ n ∈ c.base, c.own = some n.id → ∀ P, n.liveIn P = true → c.rootHome = some P
  ownHas : ∀ id, truthy c.own = some id → c.base.has id

/-- The destination of a source folder whose place before the run is `place`; without a source
folder, the destination parent. -/
structure Docked (k place dest : Option String) (folderMap : Dict String) : Prop where
  known : ∀ A, place = some A → c.dest A
  docked : if c.dry then dest = place else ∃ P, dest = some P ∧ c.placeOf folderMap k = some P ∧
    (place = some P ∨ place = none ∧ c.base.Fresh P)

/-- A file or shortcut of a source folder. -/
def Item (src : DriveFile) : Prop :=
  ∃ n ∈ c.base, ∃ p ∈ c.sources, n.liveIn p = true ∧
    src = DriveFile.fromApi (n.file.view listFields)

/-- The forest is what the Drive shows, and its tags fit. -/
def Shows : Forest → Prop
  | .nil => True
  | .file src rest => c.Item src ∧ src.isFolder = false ∧ src.isShortcut = false ∧
      validateAppProperties (copyProps src none) = .ok () ∧ Shows rest
  | .link src target rest => c.Item src ∧ src.isShortcut = true ∧
      c.base.resolve src = some target ∧ target.isFolder = false ∧
      validateAppProperties (copyProps target (some src.id)) = .ok () ∧ Shows rest
  | .broken src rest => c.Item src ∧ src.isShortcut = true ∧ c.base.resolve src = none ∧ Shows rest
  | .folder src sub rest => src.isFolder = true ∧ src.id ≠ "" ∧ src.id ∈ c.sources ∧
      validateAppProperties (folderProps src.id none) = .ok () ∧
      sub.children = shown
        (c.base.listed c.sv.profile src.id (some c.cp.config.excludeSubstrings)) ∧
      Shows sub ∧ Shows rest

variable {c} {K K' O O' : Set String} {M : List Effect} {G : Growth} {g g' : Gist} {d : Drive}

/-! ## Reading the Drive -/

/-- Changed elements that a filter rejects before and after do not matter to it. -/
theorem filter_map_eq {α : Type} {f : α → α} {q : α → Bool} {xs : List α}
    (h : ∀ x ∈ xs, f x = x ∨ q x = false ∧ q (f x) = false) :
    (xs.map f).filter q = xs.filter q := by
  induction xs with
  | nil => rfl
  | cons x xs ih =>
    have hrest := ih fun y hy => h y (List.mem_cons_of_mem x hy)
    rw [List.map_cons, List.filter_cons, List.filter_cons, hrest]
    rcases h x List.mem_cons_self with hx | ⟨hx, hfx⟩
    · rw [hx]
    · rw [hx, hfx, if_neg Bool.false_ne_true, if_neg Bool.false_ne_true]

namespace Grown

variable (h : c.Grown K O M G g d) (hc : c.Clear)
include h

theorem mem_new {n : Node} (hn : n ∈ G.new) : n ∈ d := by
  change n ∈ d.nodes
  rw [h.nodes]
  exact List.mem_append_left _ hn

theorem mem_patch {n : Node} (hn : n ∈ c.base) : G.patch n ∈ d := by
  change G.patch n ∈ d.nodes
  rw [h.nodes]
  exact List.mem_append_right _ (List.mem_map_of_mem hn)

theorem patch_id {n : Node} (hn : n ∈ c.base) : (G.patch n).id = n.id := by
  rw [Node.id, h.patched n hn]

theorem patch_liveIn {n : Node} (hn : n ∈ c.base) (p : String) :
    (G.patch n).liveIn p = n.liveIn p := by
  rw [Node.liveIn, h.patched n hn]
  rfl

theorem cases_mem {n : Node} (hn : n ∈ d) : n ∈ G.new ∨ ∃ m ∈ c.base, n = G.patch m := by
  have hn : n ∈ d.nodes := hn
  rw [h.nodes] at hn
  rcases List.mem_append.mp hn with hn | hn
  · exact .inl hn
  · obtain ⟨m, hm, rfl⟩ := List.mem_map.mp hn
    exact .inr ⟨m, hm, rfl⟩

/-- The label of a new node. -/
theorem label_of {n : Node} (hn : n ∈ G.new) :
    ∃ l ∈ G.labels, Known K O l ∧ c.Realizes g.folderMap l n := by
  obtain ⟨i, hi, rfl⟩ := List.mem_iff_getElem.mp hn
  have hlen := h.realized.length_eq
  refine ⟨G.labels[i], List.getElem_mem _, h.known _ (List.getElem_mem _), ?_⟩
  exact List.Forall₂.get h.realized (by omega) hi

/-- A new node is in a folder that is placed, or in the destination parent. -/
theorem new_parents {n : Node} (hn : n ∈ G.new) : ∃ P, n.file.parents = [P] ∧
    (P = c.destParent ∨ ∃ u ∈ K, c.Berth g d u P) := by
  obtain ⟨l, -, hknown, hl⟩ := h.label_of hn
  obtain ⟨P, hP, hparents⟩ := hl.parents
  refine ⟨P, hparents, ?_⟩
  cases hu : l.under with
  | none =>
    rw [hu] at hP
    exact .inl (Option.some.inj hP).symm
  | some u =>
    rw [hu] at hP
    obtain ⟨P', hberth⟩ := h.berths u (hknown.under u hu)
    have hPP' : P = P' := Option.some.inj (hP.symm.trans hberth.place)
    exact .inr ⟨u, hknown.under u hu, hPP' ▸ hberth⟩

include hc

/-- The listing of a source folder is what it was. -/
theorem listed_source {p : String} (hp : p ∈ c.sources) (ex : Option (List String)) :
    d.listed c.sv.profile p ex = c.base.listed c.sv.profile p ex := by
  unfold Drive.listed
  rw [h.nodes, List.filter_append]
  have hnew : (G.new.filter fun n =>
      n.liveIn p && !(ex.any fun ex => c.sv.profile.hides ex n.file)) = [] := by
    rw [List.filter_eq_nil_iff]
    intro n hn hlive
    obtain ⟨P, hparents, hP⟩ := h.new_parents hn
    have hpP : p = P := by
      simp only [Node.liveIn, hparents, Bool.and_eq_true, List.mem_singleton,
        decide_eq_true_eq] at hlive
      exact hlive.1.2
    rcases hP with rfl | ⟨u, -, hberth⟩
    · exact hc.destParent (hpP ▸ hp)
    · exact hberth.apart (hpP ▸ hp)
  rw [hnew, List.nil_append]
  apply filter_map_eq
  intro n hn
  by_cases hlive : n.liveIn p = true
  · exact .inl (h.spared n hn (.inl (hc.ownItem n hn p hp hlive).1))
  · refine .inr ⟨?_, ?_⟩
    · simp [hlive]
    · simp [h.patch_liveIn hn, hlive]

omit hc in
theorem mem_of_spared {n : Node} (hn : n ∈ c.base) (hown : c.own ≠ some n.id) : n ∈ d := by
  have hmem := h.mem_patch hn
  rwa [h.spared n hn (.inl hown)] at hmem

omit hc in
theorem find_none {id : String} (hbase : c.base.find id = none)
    (hnew : ∀ n ∈ G.new, n.id ≠ id) : d.find id = none := by
  apply List.find?_eq_none.mpr
  intro n hn
  rcases h.cases_mem hn with hn | ⟨m, hm, rfl⟩
  · simpa using hnew n hn
  · have hbase := List.find?_eq_none.mp hbase m hm
    simpa [h.patch_id hm] using hbase

/-- A shortcut of the source has the target it had. -/
theorem resolve_item {src : DriveFile} (hsrc : c.Item src) : d.resolve src = c.base.resolve src := by
  obtain ⟨m, hm, p, hp, hlive, rfl⟩ := hsrc
  unfold Drive.resolve
  cases ht : truthy (DriveFile.fromApi (m.file.view listFields)).shortcutTargetId with
  | none => rfl
  | some t =>
    have htarget : m.file.shortcutTarget = some t := (truthy_eq_some.mp ht).1
    have hsame : d.find t = c.base.find t := by
      cases hbase : c.base.find t with
      | none =>
        apply h.find_none hbase
        rintro n hn rfl
        exact (h.fresh n hn).2 m hm |>.2.2 htarget
      | some n =>
        obtain ⟨hn, rfl⟩ := Drive.find_eq_some hbase
        exact Drive.find_of_mem (h.mem_of_spared hn ((hc.ownItem m hm p hp hlive).2 _ htarget))
    simp only [Option.bind_some, hsame]

omit h hc in
/-- A folder is the place of one source folder. -/
theorem berth_inj {u v P : String} (hu : c.Berth g d u P) (hv : c.Berth g d v P) : u = v := by
  obtain ⟨n, hn, hid, -, hu⟩ := hu.node
  obtain ⟨m, hm, hid', -, hv⟩ := hv.node
  obtain rfl := Drive.eq_of_id hn hm (hid.trans hid'.symm)
  exact Option.some.inj (hu.symm.trans hv)

omit hc in
/-- No file has been put into a folder that was not entered. -/
theorem new_isFolder {p P : String} (hberth : c.Berth g d p P) (hp : p ∉ O) {n : Node}
    (hn : n ∈ G.new) (hlive : n.liveIn P = true) : n.isFolder = true := by
  obtain ⟨l, -, hknown, hl⟩ := h.label_of hn
  by_contra hfolder
  have hmime : l.mimeType ≠ folderMime := by
    rw [← hl.mimeType]
    simpa [Node.isFolder] using hfolder
  obtain ⟨-, u, hu, hunder⟩ := hknown.file hmime
  obtain ⟨Q, hQ, hparents⟩ := hl.parents
  obtain rfl : P = Q := by simpa [Node.liveIn, hparents, hl.live] using hlive
  rw [hunder] at hQ
  obtain ⟨P', hberth'⟩ := h.berths u (hknown.under u hunder)
  obtain rfl : P = P' := Option.some.inj (hQ.symm.trans hberth'.place)
  exact hp (berth_inj hberth hberth' ▸ hu)

/-- The index of a folder that was not entered is the one it had. -/
theorem index_eq {p P : String} {place : Option String} (hberth : c.Berth g d p P) (hp : p ∉ O)
    (hroot : c.root ∈ K) (hplace : place = some P ∨ place = none ∧ c.base.Fresh P) :
    DestinationIndex.build (c.sv.indexed d (some P)) = c.guide.shelf place := by
  have hlisted : c.sv.indexed d (some P) = shown (d.listed c.sv.profile P none) := by
    simp only [Server.indexed, truthy_some hberth.truthy]
  have hbase : (c.base.nodes.map G.patch).filter
      (fun n => n.liveIn P && !((none : Option (List String)).any
        fun ex => c.sv.profile.hides ex n.file)) = c.base.listed c.sv.profile P none := by
    apply filter_map_eq
    intro n hn
    by_cases hlive : n.liveIn P = true
    · left
      apply h.spared n hn
      by_cases hown : c.own = some n.id
      · right
        obtain ⟨R, hR⟩ := h.berths c.root hroot
        have hhome := hc.ownHome n hn hown P hlive
        rcases h.rooted R hR.place hroot with hrooted | ⟨hrooted, -⟩
        · obtain rfl : P = R := Option.some.inj (hhome.symm.trans hrooted)
          exact berth_inj hberth hR ▸ hp
        · exact absurd (hhome.symm.trans hrooted) nofun
      · exact .inl hown
    · refine .inr ⟨?_, ?_⟩
      · simp [hlive]
      · simp [h.patch_liveIn hn, hlive]
  rw [hlisted, Drive.listed, h.nodes, List.filter_append, hbase, shown, List.map_append,
    DestinationIndex.build_append]
  · change DestinationIndex.build (shown _) = DestinationIndex.build (c.sv.indexed c.base place)
    rcases hplace with rfl | ⟨rfl, hfresh⟩
    · simp only [Server.indexed, truthy_some hberth.truthy]
    · have hnone : c.base.listed c.sv.profile P none = [] := by
        apply List.filter_eq_nil_iff.mpr
        intro n hn
        simp [Node.liveIn, (hfresh.2 n hn).2.1]
      rw [hnone]
      rfl
  · intro f hf
    obtain ⟨n, hn, rfl⟩ := List.mem_map.mp hf
    obtain ⟨hn, hlive⟩ := List.mem_filter.mp hn
    have hfolder := h.new_isFolder hberth hp hn (Bool.and_eq_true_iff.mp hlive).1
    simpa [DriveFile.isFolder, DriveFile.fromApi, ApiFile.view, listFields, Node.isFolder]
      using hfolder

omit hc in
/-- A new folder is tagged with the key of a folder that was placed. -/
theorem new_tag {n : Node} (hn : n ∈ G.new) (hfolder : n.isFolder = true) :
    ∃ k ∈ K, n.tag = some k := by
  obtain ⟨l, -, hknown, hl⟩ := h.label_of hn
  have hmime : l.mimeType = folderMime := by
    rw [← hl.mimeType]
    simpa [Node.isFolder] using hfolder
  obtain ⟨k, hk, -, htag⟩ := hknown.folder hmime
  exact ⟨k, hk, by rw [Node.tag, hl.props, htag]⟩

omit hc in
/-- A search for the copy of a folder that was not placed finds what it found. -/
theorem foundFiles_eq {k : String} (hk : k ∉ K) (P : String) :
    Server.foundFiles d (folderQuery P k none) =
      Server.foundFiles c.base (folderQuery P k none) := by
  unfold Server.foundFiles Drive.matching
  rw [h.nodes, List.filter_append]
  have hnew : (G.new.filter fun n => n.liveIn (folderQuery P k none).parent && n.isFolder &&
      decide (AList.lookup (folderQuery P k none).key n.file.appProperties =
        some (folderQuery P k none).value)) = [] := by
    apply List.filter_eq_nil_iff.mpr
    intro n hn hmatch
    simp only [Bool.and_eq_true, decide_eq_true_eq] at hmatch
    obtain ⟨k', hk', htag⟩ := h.new_tag hn hmatch.1.2
    have htag' : n.tag = some k := hmatch.2
    exact hk (Option.some.inj (htag'.symm.trans htag) ▸ hk')
  rw [hnew, List.nil_append, List.filter_map, List.map_map]
  have hkept : ∀ n ∈ c.base.nodes, (G.patch n).isFolder = n.isFolder ∧
      (G.patch n).file.appProperties = n.file.appProperties ∧
      (G.patch n).file.view searchFields = n.file.view searchFields := by
    intro n hn
    refine ⟨?_, ?_, ?_⟩
    · rw [Node.isFolder, h.patched n hn]
      rfl
    · rw [h.patched n hn]
    · rw [h.patched n hn]
      simp [ApiFile.view, searchFields]
  have hfilter : (c.base.nodes.filter ((fun n => n.liveIn (folderQuery P k none).parent &&
        n.isFolder && decide (AList.lookup (folderQuery P k none).key n.file.appProperties =
          some (folderQuery P k none).value)) ∘ G.patch)) =
      c.base.nodes.filter fun n => n.liveIn (folderQuery P k none).parent && n.isFolder &&
        decide (AList.lookup (folderQuery P k none).key n.file.appProperties =
          some (folderQuery P k none).value) := by
    apply List.filter_congr
    intro n hn
    simp only [Function.comp_apply, h.patch_liveIn hn, (hkept n hn).1, (hkept n hn).2.1]
  rw [hfilter]
  apply List.map_congr_left
  intro n hn
  exact (hkept n (List.mem_of_mem_filter hn)).2.2

omit hc in
/-- What the metadata of a folder confirms is what it did. -/
theorem confirmed_eq {k : String} (hk : k ∉ K) (id : String) :
    ((d.find id).any fun n => isDestFolder (DriveFile.fromApi (n.file.view folderFields)) k none) =
      (c.base.find id).any fun n =>
        isDestFolder (DriveFile.fromApi (n.file.view folderFields)) k none := by
  cases hbase : c.base.find id with
  | some n =>
    obtain ⟨hn, rfl⟩ := Drive.find_eq_some hbase
    have hfind := Drive.find_of_mem (h.mem_patch hn)
    rw [h.patch_id hn] at hfind
    rw [hfind, Option.any_some, Option.any_some, h.patched n hn]
    simp [ApiFile.view, folderFields]
  | none =>
    cases hd : d.find id with
    | none => rfl
    | some n =>
      obtain ⟨hn, rfl⟩ := Drive.find_eq_some hd
      rw [Option.any_some, Option.any_none, Bool.eq_false_iff]
      intro hconfirmed
      rcases h.cases_mem hn with hn | ⟨m, hm, rfl⟩
      · obtain ⟨-, hfolder⟩ := isDestFolder_view.mp hconfirmed
        obtain ⟨k', hk', htag⟩ := h.new_tag hn hfolder.1
        exact hk (Option.some.inj (hfolder.2.symm.trans htag) ▸ hk')
      · rw [h.patch_id hm, Drive.find_of_mem hm] at hbase
        cases hbase

end Grown

/-! ## How the Drive grows -/

theorem Known.mono {l : Label} (h : Known K O l) (hK : K ⊆ K') (hO : O ⊆ O') : Known K' O' l where
  under u hu := hK (h.under u hu)
  folder hmime := by
    obtain ⟨k, hk, hkey⟩ := h.folder hmime
    exact ⟨k, hK hk, hkey⟩
  file hmime := by
    obtain ⟨hkey, u, hu, hunder⟩ := h.file hmime
    exact ⟨hkey, u, hO hu, hunder⟩

/-- A node stays what its label says when more folders are mapped. -/
theorem Realizes.mono {fm fm' : Dict String} {l : Label} {n : Node} (h : c.Realizes fm l n)
    (hl : Known K O l) (hmap : ∀ k ∈ K, AList.lookup k fm' = AList.lookup k fm) :
    c.Realizes fm' l n where
  name := h.name
  mimeType := h.mimeType
  props := h.props
  live := h.live
  parents := by
    obtain ⟨P, hP, hparents⟩ := h.parents
    refine ⟨P, ?_, hparents⟩
    cases hu : l.under with
    | none => rwa [hu] at hP
    | some u =>
      rw [hu] at hP
      exact (hmap u (hl.under u hu)).trans hP
  key k hkey := by
    by_cases hmime : l.mimeType = folderMime
    · obtain ⟨k', hk', hkey', -⟩ := hl.folder hmime
      obtain rfl : k = k' := Option.some.inj (hkey.symm.trans hkey')
      exact (hmap k hk').trans (h.key k hkey)
    · exact absurd (hkey.symm.trans (hl.file hmime).1) nofun

theorem Realizes.forall₂_mono {fm fm' : Dict String}
    (hmap : ∀ k ∈ K, AList.lookup k fm' = AList.lookup k fm) {ls : List Label} {ns : List Node}
    (h : List.Forall₂ (c.Realizes fm) ls ns) :
    (∀ l ∈ ls, Known K O l) → List.Forall₂ (c.Realizes fm') ls ns := by
  induction h with
  | nil => exact fun _ => .nil
  | cons hl _ ih =>
    intro hknown
    exact .cons (hl.mono (hknown _ List.mem_cons_self) hmap)
      (ih fun l hl => hknown l (List.mem_cons_of_mem _ hl))

theorem Berth.mono {k P : String} {d' : Drive} (h : c.Berth g d k P)
    (hmap : AList.lookup k g'.folderMap = AList.lookup k g.folderMap) (hd : ∀ n ∈ d, n ∈ d') :
    c.Berth g' d' k P where
  place := hmap.trans h.place
  truthy := h.truthy
  apart := h.apart
  node := by
    obtain ⟨n, hn, hnode⟩ := h.node
    exact ⟨n, hd n hn, hnode⟩

namespace Grown

variable (h : c.Grown K O M G g d)
include h

theorem fresh_base {id : String} (hf : d.Fresh id) : c.base.Fresh id := by
  refine ⟨hf.1, fun n hn => ?_⟩
  have hpatch := hf.2 _ (h.mem_patch hn)
  rw [h.patch_id hn, h.patched n hn] at hpatch
  exact hpatch

/-- More nodes and more places. -/
theorem extend {en : List Node} {el : List Label} {d' : Drive} {M' : List Effect}
    (hd : d'.nodes = en ++ d.nodes) (hreal : List.Forall₂ (c.Realizes g'.folderMap) el en)
    (hknown : ∀ l ∈ el, Known K' O l) (hfresh : ∀ n ∈ en, d.Fresh n.id)
    (hlabels : (el ++ M.filterMap Effect.label).Perm (M'.filterMap Effect.label)) (hK : K ⊆ K')
    (hmap : ∀ k ∈ K, AList.lookup k g'.folderMap = AList.lookup k g.folderMap)
    (hberths : ∀ k ∈ K', k ∉ K → ∃ P, c.Berth g' d' k P)
    (hkept : ∀ k P, (k, P) ∈ M'.filterMap Effect.keeping → (k, P) ∈ M.filterMap Effect.keeping ∨
      k ∈ K' ∧ AList.lookup k g'.folderMap = some P ∧ c.base.has P)
    (hkeeps : ∀ x ∈ M.filterMap Effect.keeping, x ∈ M'.filterMap Effect.keeping)
    (hplaced : ∀ k ∈ K', k ∉ K →
      (∃ P, (k, P) ∈ M'.filterMap Effect.keeping) ∨ ∃ l ∈ el, l.key = some k)
    (hanchor : g'.destRoot = none ∨ g'.destRoot = AList.lookup c.root g'.folderMap)
    (hrooted : ∀ P, AList.lookup c.root g'.folderMap = some P → c.root ∈ K' →
      c.rootHome = some P ∨ c.rootHome = none ∧ c.base.Fresh P)
    (hown : g'.ownLog = g.ownLog) (hsaved : g'.saveFailed = g.saveFailed)
    (hname : g'.logName = g.logName) :
    c.Grown K' O M' { G with new := en ++ G.new, labels := el ++ G.labels } g' d' where
  nodes := by rw [hd, h.nodes, List.append_assoc]
  realized := List.rel_append hreal (Realizes.forall₂_mono hmap h.realized h.known)
  labels := by
    have hall := h.labels.append_left el
    rw [← List.append_assoc] at hall
    exact hall.trans (hlabels.append_right _)
  known := by
    intro l hl
    rcases List.mem_append.mp hl with hl | hl
    · exact hknown l hl
    · exact (h.known l hl).mono hK subset_rfl
  fresh := by
    intro n hn
    rcases List.mem_append.mp hn with hn | hn
    · exact h.fresh_base (hfresh n hn)
    · exact h.fresh n hn
  patched := h.patched
  spared := h.spared
  ownLog := by
    have hlog := h.ownLog
    rw [hown]
    dsimp only
    split_ifs at hlog ⊢
    · obtain ⟨hnone, n, hn, hid⟩ := hlog
      exact ⟨hnone, n, List.mem_append_right _ hn, hid⟩
    · exact hlog
  berths := by
    intro k hk
    by_cases hold : k ∈ K
    · obtain ⟨P, hP⟩ := h.berths k hold
      refine ⟨P, hP.mono (hmap k hold) fun n hn => ?_⟩
      change n ∈ d'.nodes
      rw [hd]
      exact List.mem_append_right _ hn
    · exact hberths k hk hold
  kept := by
    intro k P hkP
    rcases hkept k P hkP with hold | hnew
    · obtain ⟨hk, hP, hhas⟩ := h.kept k P hold
      exact ⟨hK hk, (hmap k hk).trans hP, hhas⟩
    · exact hnew
  placed := by
    intro k hk
    by_cases hold : k ∈ K
    · rcases h.placed k hold with ⟨P, hP⟩ | ⟨l, hl, hkey⟩
      · exact .inl ⟨P, hkeeps _ hP⟩
      · exact .inr ⟨l, List.mem_append_right _ hl, hkey⟩
    · rcases hplaced k hk hold with hP | ⟨l, hl, hkey⟩
      · exact .inl hP
      · exact .inr ⟨l, List.mem_append_left _ hl, hkey⟩
  anchor := hanchor
  rooted := hrooted
  saved := hsaved.trans h.saved
  logName := hname.trans h.logName

/-- Effects without a new node, and changes of the memory that the Drive does not depend on. -/
theorem congr {M' : List Effect}
    (hM : (M.filterMap Effect.label).Perm (M'.filterMap Effect.label))
    (hkeeping : M.filterMap Effect.keeping = M'.filterMap Effect.keeping)
    (hmap : g'.folderMap = g.folderMap) (hroot : g'.destRoot = g.destRoot)
    (hown : g'.ownLog = g.ownLog) (hsaved : g'.saveFailed = g.saveFailed)
    (hname : g'.logName = g.logName) : c.Grown K O M' G g' d where
  nodes := h.nodes
  realized := by rw [hmap]; exact h.realized
  labels := h.labels.trans (hM.append_right _)
  known := h.known
  fresh := h.fresh
  patched := h.patched
  spared := h.spared
  ownLog := by rw [hown]; exact h.ownLog
  berths k hk := by
    obtain ⟨P, hP⟩ := h.berths k hk
    exact ⟨P, hP.mono (by rw [hmap]) fun _ hn => hn⟩
  kept := by rw [← hkeeping, hmap]; exact h.kept
  placed := by rw [← hkeeping]; exact h.placed
  anchor := by rw [hroot, hmap]; exact h.anchor
  rooted := by rw [hmap]; exact h.rooted
  saved := hsaved.trans h.saved
  logName := hname.trans h.logName

/-- A level is entered. -/
theorem enter (hO : O ⊆ O') : c.Grown K O' M G g d :=
  { h with
    known := fun l hl => (h.known l hl).mono subset_rfl hO
    spared := fun n hn ho => h.spared n hn (ho.imp_right fun hr hm => hr (hO hm)) }

/-- The log is made. -/
theorem log {n : Node} (hf : d.Fresh n.id) (hreal : c.Realizes g.folderMap c.logLabel n)
    (hroot : c.root ∈ K) (hentered : c.root ∈ O) (hown : truthy g.ownLog = none)
    (hg : g' = { g with ownLog := some n.id }) :
    c.Grown K O M { G with new := n :: G.new, labels := c.logLabel :: G.labels, logged := true } g'
      (d.add n hf) := by
  subst hg
  have hlogged : G.logged = false := by
    by_contra hlogged
    have hlog := h.ownLog
    rw [if_pos (by simpa using hlogged)] at hlog
    obtain ⟨-, m, hm, hid⟩ := hlog
    rw [hid, truthy_some (h.fresh m hm).1] at hown
    exact nomatch hown
  have hlog := h.ownLog
  rw [hlogged, if_neg (by simp)] at hlog
  exact
    { nodes := by rw [List.cons_append, ← h.nodes]; rfl
      realized := .cons hreal h.realized
      labels := by
        have hall := h.labels
        rw [hlogged, if_neg (by simp), List.append_nil] at hall
        rw [if_pos rfl]
        exact (hall.cons _).trans (List.perm_append_singleton _ _).symm
      known := by
        intro l hl
        rcases List.mem_cons.mp hl with rfl | hl
        · refine ⟨?_, ?_, ?_⟩
          · rintro u ⟨⟩
            exact hroot
          · intro hmime
            exact absurd (show "application/json" = folderMime from hmime) (by decide)
          · exact fun _ => ⟨rfl, c.root, hentered, rfl⟩
        · exact h.known l hl
      fresh := by
        intro m hm
        rcases List.mem_cons.mp hm with rfl | hm
        · exact h.fresh_base hf
        · exact h.fresh m hm
      patched := h.patched
      spared := h.spared
      ownLog := by
        rw [if_pos rfl]
        exact ⟨hlog ▸ hown, n, List.mem_cons_self, rfl⟩
      berths := by
        intro k hk
        obtain ⟨P, hP⟩ := h.berths k hk
        exact ⟨P, hP.mono rfl fun m hm => Drive.mem_add.mpr (.inr hm)⟩
      kept := h.kept
      placed := fun k hk => (h.placed k hk).imp_right fun ⟨l, hl, hkey⟩ =>
        ⟨l, List.mem_cons_of_mem _ hl, hkey⟩
      anchor := h.anchor
      rooted := h.rooted
      saved := h.saved
      logName := h.logName }

theorem has_ownLog (hc : c.Clear) {id : String} (hown : truthy g.ownLog = some id) : d.has id := by
  have hlog := h.ownLog
  have hid := (truthy_eq_some.mp hown).1
  split_ifs at hlog
  · obtain ⟨-, n, hn, hlog⟩ := hlog
    exact ⟨n, h.mem_new hn, Option.some.inj (hlog.symm.trans hid)⟩
  · rw [hlog] at hown
    obtain ⟨n, hn, rfl⟩ := hc.ownHas id hown
    exact ⟨_, h.mem_patch hn, h.patch_id hn⟩

/-- The log is overwritten. -/
theorem overwrite {id : String} (hown : truthy g.ownLog = some id) (hentered : c.root ∈ O)
    (data : Content) (md5 size : Option String) :
    ∃ G', c.Grown K O M G' g (d.overwrite id data md5 size) := by
  let e (n : Node) : Node :=
    if n.id = id then ⟨{ n.file with md5Checksum := md5, size := size }, data⟩ else n
  have he (n : Node) : (e n).file = { n.file with
      md5Checksum := (e n).file.md5Checksum, size := (e n).file.size } := by
    unfold e
    split_ifs <;> rfl
  have hid (n : Node) : (e n).id = n.id := by rw [Node.id, he]
  have hlog := h.ownLog
  have hsome := (truthy_eq_some.mp hown).1
  refine ⟨{ G with new := G.new.map e, patch := fun n => e (G.patch n) }, ?_⟩
  exact
    { nodes := by
        change d.nodes.map e = _
        rw [h.nodes, List.map_append, List.map_map]
        rfl
      realized := by
        rw [List.forall₂_map_right_iff]
        apply h.realized.imp
        intro l n hl
        refine ⟨?_, ?_, ?_, ?_, ?_, ?_⟩
        · rw [he]; exact hl.name
        · rw [he]; exact hl.mimeType
        · rw [he]; exact hl.props
        · rw [he]; exact hl.live
        · rw [he]; exact hl.parents
        · rw [hid]; exact hl.key
      labels := h.labels
      known := h.known
      fresh := by
        intro n hn
        obtain ⟨m, hm, rfl⟩ := List.mem_map.mp hn
        rw [hid]
        exact h.fresh m hm
      patched := by
        intro n hn
        dsimp only
        rw [he, h.patched n hn]
      spared := by
        intro n hn hspared
        dsimp only
        rw [h.spared n hn hspared]
        apply if_neg
        rintro rfl
        split_ifs at hlog
        · obtain ⟨-, m, hm, hown⟩ := hlog
          have hmid : m.id = n.id := Option.some.inj (hown.symm.trans hsome)
          exact (h.fresh m hm).2 n hn |>.1 hmid.symm
        · exact hspared.elim (fun hne => hne (hlog.symm.trans hsome)) fun hr => hr hentered
      ownLog := by
        dsimp only
        split_ifs at hlog ⊢
        · obtain ⟨hnone, n, hn, hown⟩ := hlog
          exact ⟨hnone, e n, List.mem_map_of_mem hn, by rw [hid, hown]⟩
        · exact hlog
      berths := by
        intro k hk
        obtain ⟨P, hP⟩ := h.berths k hk
        obtain ⟨n, hn, rfl, hfolder, htag⟩ := hP.node
        refine ⟨_, hP.place, hP.truthy, hP.apart, e n, List.mem_map_of_mem hn, hid n, ?_, ?_⟩
        · rw [Node.isFolder, he]
          exact hfolder
        · rw [Node.tag, he]
          exact htag
      kept := h.kept
      placed := h.placed
      anchor := h.anchor
      rooted := h.rooted
      saved := h.saved
      logName := h.logName }

end Grown

end Course
end TurboCopy
