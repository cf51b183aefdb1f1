import TurboCopy.Copier.Course

/-!
# The procedures on a course

What each procedure of the engine does to a run on a course: which effects it adds, which
source folders it places or enters, and what it leaves alone.
-/

namespace TurboCopy

open Threads CopierM Copier

/-- What a procedure leaves alone: the first `n` indexes and the places of the folders `K`. -/
structure Mem.Frame (K : Set String) (n : ℕ) (m m' : Mem) : Prop where
  grows : m.indexes.length ≤ m'.indexes.length
  shelves : ∀ i < n, m'.indexAt i = m.indexAt i
  places : ∀ k ∈ K, AList.lookup k m'.state.folderMap = AList.lookup k m.state.folderMap

namespace Mem.Frame

variable {K K' : Set String} {n n' : ℕ} {m m₁ m₂ : Mem}

theorem of_eq (hi : m₁.indexes = m.indexes) (hf : m₁.state.folderMap = m.state.folderMap) :
    Frame K n m m₁ where
  grows := by rw [hi]
  shelves i _ := by rw [Mem.indexAt, hi]; rfl
  places k _ := by rw [hf]

theorem trans (h : Frame K n m m₁) (h' : Frame K' n' m₁ m₂) (hK : K ⊆ K') (hn : n ≤ n') :
    Frame K n m m₂ where
  grows := h.grows.trans h'.grows
  shelves i hi := (h'.shelves i (by omega)).trans (h.shelves i hi)
  places k hk := (h'.places k (hK hk)).trans (h.places k hk)

theorem mono (h : Frame K' n' m m₁) (hK : K ⊆ K') (hn : n ≤ n') : Frame K n m m₁ where
  grows := h.grows
  shelves i hi := h.shelves i (by omega)
  places k hk := h.places k (hK hk)

end Mem.Frame

theorem Mem.indexAt_setIndex_self {m : Mem} {i : ℕ} (hi : i < m.indexes.length)
    (idx : DestinationIndex) : (m.setIndex i idx).indexAt i = idx := by
  simp [Mem.indexAt, Mem.setIndex, hi]

theorem Mem.indexAt_setIndex_ne {m : Mem} {i j : ℕ} (hj : j ≠ i) (idx : DestinationIndex) :
    (m.setIndex i idx).indexAt j = m.indexAt j := by
  simp [Mem.indexAt, Mem.setIndex, Ne.symm hj]

/-- A file resource of the Drive, under an id that is not empty. -/
def Drive.Has (d : Drive) (f : ApiFile) : Prop := f.id ≠ "" ∧ ∃ n ∈ d, n.file = f

/-- The source is the node, as far as a copy is compared with it. -/
structure DriveFile.Shows (src : DriveFile) (n : Node) : Prop where
  id : n.id = src.id
  mimeType : n.file.mimeType = src.mimeType
  md5 : n.file.md5Checksum = src.md5
  size : n.file.size.bind parseInt = src.size

/-- An exact copy passes its verification. -/
theorem checkCopy_exact {src : DriveFile} {shortcutId : Option String} {n : Node} {f : ApiFile}
    (hn : src.Shows n) (hname : f.name = src.name) (hmime : f.mimeType = n.file.mimeType)
    (hsize : f.size = n.file.size) (hmd5 : f.md5Checksum = n.file.md5Checksum)
    (hprops : f.appProperties = copyProps src shortcutId) :
    checkCopy src shortcutId (DriveFile.fromApi (f.view verifyFields)) = none := by
  have hshortcut : ((truthy shortcutId).isSome && decide (AList.lookup "source_shortcut_id"
      (copyProps src shortcutId) ≠ shortcutId)) = false := by
    rw [lookup_copyProps_shortcut]
    cases ht : truthy shortcutId with
    | none => rfl
    | some t => simp [(truthy_eq_some.mp ht).1]
  have hview : DriveFile.fromApi (f.view verifyFields) =
      { id := f.id, name := src.name, mimeType := src.mimeType, size := src.size, md5 := src.md5
        appProperties := copyProps src shortcutId } := by
    simp [DriveFile.fromApi, ApiFile.view, verifyFields, hname, hmime, hsize, hmd5, hprops,
      hn.mimeType, hn.md5, hn.size]
  rw [hview]
  unfold checkCopy
  dsimp only
  rw [if_neg (by simp [lookup_copyProps_file]), hshortcut]
  simp only [Bool.false_eq_true, if_false, ne_eq, not_true_eq_false, decide_false, Bool.and_false]
  split_ifs
  · rfl
  · cases src.size <;> simp

namespace Course

/-- The state of a run after the effects `M`. -/
abbrev At (c : Course) (K O : Set String) (M : List Effect) (s : Site c.sv.service) : Prop :=
  c.Holds K O M (s.mem.gist c.dry) s.drive

variable {c : Course} {K K' O O' : Set String} {M : List Effect} {s : Site c.sv.service}

theorem Drives.grown {g : Gist} {d : Drive} (h : c.Drives K O M g d) (hdry : c.dry = false) :
    ∃ G, c.Grown K O M G g d := by
  unfold Drives at h
  rwa [hdry, if_neg Bool.false_ne_true] at h

theorem Drives.unchanged {g : Gist} {d : Drive} (h : c.Drives K O M g d) (hdry : c.dry = true) :
    d = c.base := by
  unfold Drives at h
  rwa [hdry, if_pos rfl] at h

theorem Drives.of_grown {g : Gist} {d : Drive} {G : Growth} (h : c.Grown K O M G g d)
    (hdry : c.dry = false) : c.Drives K O M g d := by
  unfold Drives
  rw [hdry, if_neg Bool.false_ne_true]
  exact ⟨G, h⟩

/-! ## Saving the log -/

/-- The log can be saved: the run has no destination root yet, or it has entered it. -/
def Saves (c : Course) (K O : Set String) (g : Gist) : Prop :=
  truthy g.destRoot = none ∨ c.root ∈ K ∧ c.root ∈ O

/-- Saving the log changes which log the run overwrites, and nothing else that its course
depends on. -/
structure Saved (dry : Bool) (m m' : Mem) : Prop where
  indexes : m'.indexes = m.indexes
  gist : m'.gist dry = { m.gist dry with ownLog := m'.ownLogFileId }

theorem Saved.refl {dry : Bool} (m : Mem) : Saved dry m m := ⟨rfl, rfl⟩

theorem save_succeeds (hc : c.Clear) (h : c.Drives K O M (s.mem.gist c.dry) s.drive)
    (hdry : c.dry = false) (hK : c.root ∈ K) (hO : c.root ∈ O) {R : String}
    (hroot : truthy s.mem.state.destRootId = some R) :
    Succeeds c.cp s c.cp.save fun _ s' =>
      (c.Drives K O M (s'.mem.gist c.dry) s'.drive ∧ Saved c.dry s.mem s'.mem) ∧
        truthy s'.mem.ownLogFileId ≠ none := by
  obtain ⟨G, hG⟩ := h.grown hdry
  unfold Copier.save
  apply Succeeds.bind (R := fun _ s' => s' = s) (Server.ask_nowIso fun _ => rfl)
  rintro now s rfl
  apply Succeeds.mem_bind
  apply Succeeds.mem_bind
  dsimp only [Mem.exec]
  cases hown : truthy s.mem.ownLogFileId with
  | some id =>
    dsimp only
    apply Succeeds.bind (R := fun x s' => x = .ok () ∧
      (c.Drives K O M (s'.mem.gist c.dry) s'.drive ∧ Saved c.dry s.mem s'.mem) ∧
        truthy s'.mem.ownLogFileId ≠ none)
    · apply Server.ask_updateFileContent
      · exact hG.has_ownLog hc hown
      · intro md5 size
        obtain ⟨G', hG'⟩ := hG.overwrite hown hO _ md5 size
        exact ⟨rfl, ⟨.of_grown hG' hdry, rfl, rfl⟩,
          fun hnone => Option.some_ne_none id (hown.symm.trans hnone)⟩
    · rintro x s' ⟨rfl, hs'⟩
      exact Succeeds.orThrow_ok hs'
  | none =>
    dsimp only
    obtain ⟨P, hP⟩ := hG.berths c.root hK
    have hsome := (truthy_eq_some.mp hroot).1
    have hplace : some R = AList.lookup c.root s.mem.state.folderMap := by
      rcases hG.anchor with hnone | hanchor
      · cases hsome.symm.trans hnone
      · exact hsome.symm.trans hanchor
    have hRP : P = R := Option.some.inj (hP.place.symm.trans hplace.symm)
    subst hRP
    apply Succeeds.bind (R := fun x s' => ∃ id, x = .ok (some id) ∧ id ≠ "" ∧
      c.Drives K O M ((s'.mem.exec (.setOwnLog (some id))).2.gist c.dry) s'.drive ∧
      Saved c.dry s.mem (s'.mem.exec (.setOwnLog (some id))).2)
    · apply Server.ask_createJsonFile
      · change s.drive.has (s.mem.state.destRootId.getD "")
        rw [hsome]
        obtain ⟨n, hn, hid, -⟩ := hP.node
        exact ⟨n, hn, hid⟩
      · intro id size md5 hf
        refine ⟨id, rfl, hf.1, .of_grown (hG.log hf ?_ hK hO hown rfl) hdry, rfl, rfl⟩
        refine ⟨hG.logName, rfl, rfl, rfl, ⟨P, hP.place, ?_⟩, fun _ hfolder => by cases hfolder⟩
        change [s.mem.state.destRootId.getD ""] = [P]
        rw [hsome]
        rfl
    · rintro x s' ⟨id, rfl, hid, hs'⟩
      apply Succeeds.bind (R := fun created s'' => created = some id ∧ s'' = s')
        (Succeeds.orThrow_ok ⟨rfl, rfl⟩)
      rintro created s'' ⟨rfl, rfl⟩
      exact Succeeds.mem ⟨hs',
        fun hnone => Option.some_ne_none id ((truthy_some hid).symm.trans hnone)⟩

/-- A log that is due is saved. -/
theorem saveLog_due (hc : c.Clear) (h : c.Drives K O M (s.mem.gist c.dry) s.drive)
    (hdry : c.dry = false) (hK : c.root ∈ K) (hO : c.root ∈ O) {R : String}
    (hroot : truthy s.mem.state.destRootId = some R) {force : Bool}
    (hdue : (force || decide (flushEvery ≤ s.mem.dirty)) = true) :
    Succeeds c.cp s (c.cp.saveLog force) fun _ s' =>
      (c.Drives K O M (s'.mem.gist c.dry) s'.drive ∧ Saved c.dry s.mem s'.mem) ∧
        truthy s'.mem.ownLogFileId ≠ none := by
  unfold Copier.saveLog
  rw [if_neg (Bool.eq_false_iff.mp hdry)]
  apply Succeeds.mem_bind
  change Succeeds c.cp s (if (truthy s.mem.state.destRootId).isNone then _ else _) _
  rw [hroot]
  have he : s.mem.exec (.beginSave force) = (true, { s.mem with dirty := 0 }) := if_pos hdue
  apply Succeeds.mem_run he
  apply Succeeds.bind (R := fun r s' => r = .ok () ∧
    (c.Drives K O M (s'.mem.gist c.dry) s'.drive ∧ Saved c.dry s.mem s'.mem) ∧
      truthy s'.mem.ownLogFileId ≠ none)
  · apply Succeeds.attempt
    apply (save_succeeds hc (s := ⟨{ s.mem with dirty := 0 }, s.drive⟩) h hdry hK hO hroot).mono
    rintro _ s' ⟨⟨hd, hs'⟩, hown⟩
    exact ⟨rfl, ⟨hd, hs'.indexes, hs'.gist⟩, hown⟩
  · rintro r s' ⟨rfl, hs'⟩
    exact Succeeds.pure hs'

theorem saveLog_succeeds (hc : c.Clear) (h : c.Drives K O M (s.mem.gist c.dry) s.drive)
    (hsaves : c.Saves K O (s.mem.gist c.dry)) (force : Bool) :
    Succeeds c.cp s (c.cp.saveLog force) fun _ s' =>
      c.Drives K O M (s'.mem.gist c.dry) s'.drive ∧ Saved c.dry s.mem s'.mem := by
  by_cases hdry : c.dry = true
  · unfold Copier.saveLog
    rw [if_pos hdry]
    exact Succeeds.pure ⟨h, .refl _⟩
  have hdry : c.dry = false := Bool.eq_false_iff.mpr hdry
  cases hroot : truthy s.mem.state.destRootId with
  | none =>
    unfold Copier.saveLog
    rw [if_neg (Bool.eq_false_iff.mp hdry)]
    apply Succeeds.mem_bind
    change Succeeds c.cp s (if (truthy s.mem.state.destRootId).isNone then _ else _) _
    rw [hroot]
    exact Succeeds.pure ⟨h, .refl _⟩
  | some R =>
    have hsome : truthy (s.mem.gist c.dry).destRoot ≠ none := by
      rw [show (s.mem.gist c.dry).destRoot = s.mem.state.destRootId from rfl, hroot]
      exact Option.some_ne_none R
    obtain ⟨hK, hO⟩ := hsaves.resolve_left hsome
    by_cases hdue : (force || decide (flushEvery ≤ s.mem.dirty)) = true
    · exact (saveLog_due hc h hdry hK hO hroot hdue).mono fun _ _ hs' => hs'.1
    · unfold Copier.saveLog
      rw [if_neg (Bool.eq_false_iff.mp hdry)]
      apply Succeeds.mem_bind
      change Succeeds c.cp s (if (truthy s.mem.state.destRootId).isNone then _ else _) _
      rw [hroot]
      have he : s.mem.exec (.beginSave force) = (false, s.mem) := if_neg hdue
      apply Succeeds.mem_run he
      exact Succeeds.pure ⟨h, .refl _⟩

theorem maybeFlush_succeeds (hc : c.Clear) (h : c.Drives K O M (s.mem.gist c.dry) s.drive)
    (hsaves : c.Saves K O (s.mem.gist c.dry)) :
    Succeeds c.cp s c.cp.maybeFlush fun _ s' =>
      c.Drives K O M (s'.mem.gist c.dry) s'.drive ∧ Saved c.dry s.mem s'.mem := by
  unfold Copier.maybeFlush
  split_ifs
  · exact Succeeds.pure ⟨h, .refl _⟩
  · apply Succeeds.mem_bind
    split_ifs
    · exact saveLog_succeeds hc h hsaves false
    · exact Succeeds.pure ⟨h, .refl _⟩

/-! ## Files -/

/-- Effects without a new node, and changes of the memory that the Drive does not depend on. -/
theorem Drives.congr {g g' : Gist} {d : Drive} {M' : List Effect} (h : c.Drives K O M g d)
    (hM : M.filterMap Effect.label = M'.filterMap Effect.label)
    (hkeeping : M.filterMap Effect.keeping = M'.filterMap Effect.keeping)
    (hmap : g'.folderMap = g.folderMap) (hroot : g'.destRoot = g.destRoot)
    (hown : g'.ownLog = g.ownLog) (hsaved : g'.saveFailed = g.saveFailed)
    (hname : g'.logName = g.logName) : c.Drives K O M' g' d := by
  unfold Drives at h ⊢
  split_ifs at h ⊢
  · exact h
  · obtain ⟨G, hG⟩ := h
    exact ⟨G, hG.congr (.of_eq hM) hkeeping hmap hroot hown hsaved hname⟩

theorem Drives.note {g g' : Gist} {d : Drive} (h : c.Drives K O M g d) {e : Effect}
    (he : e.label = none) (hkeep : e.keeping = none) (hmap : g'.folderMap = g.folderMap)
    (hroot : g'.destRoot = g.destRoot) (hown : g'.ownLog = g.ownLog) (hsaved : g'.saveFailed = g.saveFailed)
    (hname : g'.logName = g.logName) : c.Drives K O (M ++ [e]) g' d :=
  h.congr (by simp [List.filterMap_append, he]) (by simp [List.filterMap_append, hkeep]) hmap hroot hown hsaved hname

/-- The memory after an effect, with a Drive for it. -/
theorem Holds.effect {g g' : Gist} {d d' : Drive} (h : c.Holds K O M g d) {e : Effect}
    (hg : g' = { g with
      counts := g.counts.add e, previous := g'.previous, ownLog := g'.ownLog })
    (hprevious : c.dry = false →
      g'.previous = g.previous.filter fun f => !f.struckBy e.strikes)
    (hd : c.Drives K O (M ++ [e]) g' d') : c.Holds K O (M ++ [e]) g' d' where
  running := by rw [hg]; exact h.running
  listed := by rw [hg]; exact h.listed
  mode := by rw [hg]; exact h.mode
  log := by rw [hg]; exact h.log
  counts := by rw [hg, Tally.of_append_singleton, ← h.counts]
  previous hdry := by rw [hprevious hdry, remaining_append_singleton, ← h.previous hdry]
  uncompleted hskip := by rw [hg]; exact h.uncompleted hskip
  cache := by rw [hg]; exact h.cache
  opened := by rw [hg]; exact h.opened
  drive := hd

/-- What `_reconcile_failed` leaves of the prior failures. -/
theorem reconcileFailed_succeeds {s : Site c.sv.service} (effId : String) (src : DriveFile) :
    Succeeds c.cp s (reconcileFailed effId src) fun _ s' => s'.drive = s.drive ∧
      s'.mem.indexes = s.mem.indexes ∧ s'.mem.gist c.dry = { s.mem.gist c.dry with
        previous := (s.mem.gist c.dry).previous.filter fun f =>
          !f.struckBy ([effId, src.id].filter fun k => k ≠ "") } := by
  unfold reconcileFailed
  apply Succeeds.mem_bind
  split_ifs with hprevious
  · exact Succeeds.mem ⟨rfl, rfl, rfl⟩
  · apply Succeeds.pure
    refine ⟨rfl, rfl, ?_⟩
    have hnone : s.mem.result.previousFailedItems = [] := by
      simpa [Mem.exec] using hprevious
    simp [Mem.gist, Mem.exec, hnone]

theorem recordFailed_succeeds (h : c.At K O M s) {src : DriveFile} {reason message : String}
    {parent target shortcut eff : Option String} {item : FailedItem}
    (hitem : item = { sourceId := src.id, name := src.name, mimeType := src.mimeType
                      reason := reason, errorMessage := message, timestamp := ""
                      parentSourceId := parent, shortcutTargetId := target
                      sourceShortcutId := shortcut, effectiveSourceId := eff }) :
    Succeeds c.cp s (recordFailed src reason message parent target shortcut eff) fun _ s' =>
      c.At K O (M ++ [.failed item]) s' ∧ s'.mem.indexes = s.mem.indexes ∧
        s'.mem.state.folderMap = s.mem.state.folderMap := by
  unfold recordFailed
  apply Succeeds.bind (R := fun _ s' => s' = s) (Server.ask_nowIso fun _ => rfl)
  rintro now s rfl
  apply Succeeds.mem
  refine ⟨h.effect ?_ (fun _ => ?_) (h.drive.note rfl rfl rfl rfl rfl rfl rfl), rfl, rfl⟩
  · rw [hitem]
    simp [Mem.gist, Mem.exec, FailedItem.untimed]
  have hprevious : (s.mem.gist c.dry).previous.filter
      (fun f => !f.struckBy (Effect.failed item).strikes) = (s.mem.gist c.dry).previous := by
    apply List.filter_eq_self.mpr
    intro f _
    simp [Effect.strikes, f.struckBy_nil]
  rw [hprevious]
  rfl

/-- An index and the memory in which a lookup has left `idx` of it. -/
structure Left (i : ℕ) (idx : DestinationIndex) (m m' : Mem) : Prop where
  length : m'.indexes.length = m.indexes.length
  index : m'.indexAt i = idx
  others : ∀ j ≠ i, m'.indexAt j = m.indexAt j
  places : m'.state.folderMap = m.state.folderMap

theorem Left.same {i : ℕ} {m m' : Mem} (hi : m'.indexes = m.indexes)
    (hf : m'.state.folderMap = m.state.folderMap) : Left i (m.indexAt i) m m' where
  length := by rw [hi]
  index := by rw [Mem.indexAt, hi]; rfl
  others j _ := by rw [Mem.indexAt, hi]; rfl
  places := hf

theorem Left.then_same {i : ℕ} {idx : DestinationIndex} {m m₁ m₂ : Mem} (h : Left i idx m m₁)
    (hi : m₂.indexes = m₁.indexes) (hf : m₂.state.folderMap = m₁.state.folderMap) :
    Left i idx m m₂ where
  length := by rw [hi, h.length]
  index := by rw [Mem.indexAt, hi, ← h.index]; rfl
  others j hj := by rw [Mem.indexAt, hi, ← h.others j hj]; rfl
  places := hf.trans h.places

theorem Left.then {i : ℕ} {idx idx' : DestinationIndex} {m m₁ m₂ : Mem} (h : Left i idx m m₁)
    (h' : Left i idx' m₁ m₂) : Left i idx' m m₂ where
  length := h'.length.trans h.length
  index := h'.index
  others j hj := (h'.others j hj).trans (h.others j hj)
  places := h'.places.trans h.places

theorem Left.frame {i : ℕ} {idx : DestinationIndex} {m m' : Mem} (h : Left i idx m m') :
    Mem.Frame K i m m' where
  grows := h.length.ge
  shelves j hj := h.others j (by omega)
  places k _ := by rw [h.places]

theorem left_setIndex {m m' : Mem} {i : ℕ} (hi : i < m.indexes.length) {idx : DestinationIndex}
    (hm : m'.indexes = (m.setIndex i idx).indexes)
    (hf : m'.state.folderMap = m.state.folderMap) : Left i idx m m' where
  length := by simp [hm, Mem.setIndex]
  index := by
    rw [← Mem.indexAt_setIndex_self hi idx, Mem.indexAt, hm]
    rfl
  others j hj := by
    have hne := Mem.indexAt_setIndex_ne (m := m) hj idx
    rw [← hne, Mem.indexAt, hm]
    rfl
  places := hf

theorem popMatch_of_popByAppProp {idx idx' : DestinationIndex} {src item : DriveFile}
    {mode : VerifyMode} {allow : Bool} {eff : String}
    (h : idx.popByAppProp eff = (some item, idx')) :
    idx.popMatch src mode allow eff = (some item, idx') := by
  have hne : eff ≠ "" := by
    rintro rfl
    exact nomatch h
  unfold DestinationIndex.popMatch
  simp only [hne, if_false, h]

theorem skipTrusted_succeeds (h : c.At K O M s) {i : ℕ} (hi : i < s.mem.indexes.length)
    (src : DriveFile) (shortcutId : Option String) :
    Succeeds c.cp s (skipTrusted (orElse shortcutId src.id) src i) fun b s' =>
      if b then ∃ item idx, (s.mem.indexAt i).popMatch src c.cp.config.verifyMode
          c.cp.config.allowNameOnly (orElse shortcutId src.id) = (some item, idx) ∧
          c.At K O (M ++ [.skipped src shortcutId]) s' ∧ Left i idx s.mem s'.mem
      else s'.drive = s.drive ∧ s'.mem.gist c.dry = s.mem.gist c.dry ∧
        s'.mem.indexes = s.mem.indexes := by
  unfold skipTrusted
  apply Succeeds.mem_bind
  split_ifs with hcopied
  · cases hp : (s.mem.indexAt i).popByAppProp (orElse shortcutId src.id) with
    | mk o idx =>
      cases o with
      | some item =>
        have he : s.mem.exec (.trustResume i (orElse shortcutId src.id) src) =
            (some item, { s.mem.setIndex i idx with
              result := { s.mem.result with skippedCount := s.mem.result.skippedCount + 1 } }) := by
          simp [Mem.exec, hp]
        apply Succeeds.mem_run he
        rw [if_pos Option.isSome_some]
        apply Succeeds.bind (reconcileFailed_succeeds _ src)
        rintro _ s' ⟨hd, hindexes, hg⟩
        apply Succeeds.pure
        refine ⟨item, idx, popMatch_of_popByAppProp hp, ?_, ?_⟩
        · unfold At
          rw [hd, hg]
          apply h.effect
          · rw [Tally.add_skipped]
            rfl
          · exact fun _ => rfl
          · exact h.drive.note rfl rfl rfl rfl rfl rfl rfl
        · have hmap := congrArg Gist.folderMap hg
          exact left_setIndex hi hindexes hmap
      | none =>
        have he : s.mem.exec (.trustResume i (orElse shortcutId src.id) src) =
            (none, { s.mem with state := { s.mem.state with
              copiedIds := s.mem.state.copiedIds.erase (orElse shortcutId src.id) } }) := by
          simp [Mem.exec, hp]
        apply Succeeds.mem_run he
        exact Succeeds.pure ⟨rfl, rfl, rfl⟩
  · exact Succeeds.pure ⟨rfl, rfl, rfl⟩

theorem skipMatched_succeeds (hc : c.Clear) (h : c.At K O M s)
    (hsaves : c.Saves K O (s.mem.gist c.dry)) {i : ℕ} (hi : i < s.mem.indexes.length) (src : DriveFile) (shortcutId : Option String) :
    Succeeds c.cp s (c.cp.skipMatched (orElse shortcutId src.id) src i) fun b s' =>
      if b then ∃ item idx, (s.mem.indexAt i).popMatch src c.cp.config.verifyMode
          c.cp.config.allowNameOnly (orElse shortcutId src.id) = (some item, idx) ∧
          c.At K O (M ++ [.skipped src shortcutId]) s' ∧ Left i idx s.mem s'.mem
      else ((s.mem.indexAt i).popMatch src c.cp.config.verifyMode
          c.cp.config.allowNameOnly (orElse shortcutId src.id)).1 = none ∧ s' = s := by
  unfold Copier.skipMatched
  cases hp : (s.mem.indexAt i).popMatch src c.cp.config.verifyMode c.cp.config.allowNameOnly
    (orElse shortcutId src.id) with
  | mk o idx =>
    cases o with
    | none =>
      have he : s.mem.exec (.popMatch i src c.cp.config.verifyMode c.cp.config.allowNameOnly
          (orElse shortcutId src.id)) = (none, s.mem) := by
        simp [Mem.exec, hp]
      apply Succeeds.mem_run he
      exact Succeeds.pure ⟨rfl, rfl⟩
    | some item =>
      have he : s.mem.exec (.popMatch i src c.cp.config.verifyMode c.cp.config.allowNameOnly
          (orElse shortcutId src.id)) = (some item, s.mem.setIndex i idx) := by
        simp [Mem.exec, hp]
      apply Succeeds.mem_run he
      rw [if_pos Option.isSome_some]
      unfold Copier.recordExisting
      apply Succeeds.bind (R := fun _ s' =>
        c.Drives K O (M ++ [.skipped src shortcutId]) (s'.mem.gist c.dry) s'.drive ∧
        Saved c.dry ((s.mem.setIndex i idx).exec (.recordExisting (orElse shortcutId src.id))).2
          s'.mem)
      · apply Succeeds.mem_bind
        exact maybeFlush_succeeds hc (h.drive.note rfl rfl rfl rfl rfl rfl rfl) hsaves
      · rintro _ s₁ ⟨hd₁, hs₁⟩
        apply Succeeds.bind (reconcileFailed_succeeds _ src)
        rintro _ s' ⟨hd, hindexes, hg⟩
        apply Succeeds.pure
        refine ⟨item, idx, rfl, ?_, ?_⟩
        · unfold At
          rw [hd, hg]
          apply h.effect
          · rw [hs₁.gist, Tally.add_skipped]
            rfl
          · rw [hs₁.gist]
            exact fun _ => rfl
          · exact hd₁.congr rfl rfl rfl rfl rfl rfl rfl
        · have hmap := congrArg Gist.folderMap hg
          rw [hs₁.gist] at hmap
          exact left_setIndex hi (hindexes.trans hs₁.indexes) hmap

theorem copyMissing_succeeds (hc : c.Clear) (h : c.At K O M s) (hdry : c.dry = false)
    (hsaves : c.Saves K O (s.mem.gist c.dry)) {p P : String} (hp : p ∈ K) (hpO : p ∈ O)
    (hplace : AList.lookup p s.mem.state.folderMap = some P) {src : DriveFile} {n : Node}
    (hn : n ∈ s.drive) (hshows : src.Shows n) (hfolder : src.isFolder = false)
    {shortcutId : Option String}
    (hfits : validateAppProperties (copyProps src shortcutId) = .ok ()) :
    Succeeds c.cp s (c.cp.copyMissing (some P) src p shortcutId (orElse shortcutId src.id))
      fun _ s' => c.At K O (M ++ [.copied p src shortcutId]) s' ∧
        s'.mem.indexes = s.mem.indexes ∧ s'.mem.state.folderMap = s.mem.state.folderMap := by
  obtain ⟨G, hG⟩ := h.drive.grown hdry
  obtain ⟨P', hP⟩ := hG.berths p hp
  obtain rfl : P = P' := Option.some.inj (hplace.symm.trans hP.place)
  unfold Copier.copyMissing
  have he : s.mem.exec (.reserve c.cp.config.maxCopySizeGb src.bytes (c.cp.budgetText src)) =
      (true, { s.mem with runBytes := s.mem.runBytes + src.bytes }) :=
    if_neg fun hover => hc.unlimited hover.1
  apply Succeeds.mem_run he
  rw [if_pos rfl, hfits]
  dsimp only
  apply Succeeds.bind (R := fun x (s' : Site c.sv.service) => ∃ f : ApiFile,
    x = .ok (some f.id) ∧ f.untimed = Drive.exactCopy n (c.cp.copyBody (some P) src shortcutId) ∧
    s'.drive.Has f ∧
    c.Drives K O (M ++ [.copied p src shortcutId]) (s'.mem.gist c.dry) s'.drive ∧
    s'.mem = { s.mem with runBytes := s.mem.runBytes + src.bytes })
  · rw [← hshows.id]
    apply Server.ask_copyFile (p := P)
    · rfl
    · obtain ⟨m, hm, hid, -⟩ := hP.node
      exact ⟨m, hm, hid⟩
    · intro f hf hexact
      refine ⟨f, rfl, hexact, ⟨hf.1, ⟨f, n.content⟩, List.mem_cons_self, rfl⟩, ?_, rfl⟩
      have hmime : src.mimeType ≠ folderMime := by
        simpa [DriveFile.isFolder] using hfolder
      have hlabel : c.Realizes s.mem.state.folderMap
          ⟨src.name, src.mimeType, copyProps src shortcutId, some p, none⟩ ⟨f, n.content⟩ := by
        refine ⟨?_, ?_, ?_, ?_, ⟨P, hplace, ?_⟩, fun _ hmade => by cases hmade⟩
        · exact congrArg ApiFile.name hexact
        · exact (congrArg ApiFile.mimeType hexact).trans hshows.mimeType
        · exact congrArg ApiFile.appProperties hexact
        · exact congrArg ApiFile.trashed hexact
        · exact congrArg ApiFile.parents hexact
      have hknown : Known K O ⟨src.name, src.mimeType, copyProps src shortcutId, some p, none⟩ := by
        refine ⟨?_, fun hfold => absurd hfold hmime, fun _ => ⟨rfl, p, hpO, rfl⟩⟩
        rintro u ⟨⟩
        exact hp
      have hnodes : (s.drive.add ⟨f, n.content⟩ hf).nodes = [⟨f, n.content⟩] ++ s.drive.nodes := rfl
      refine .of_grown (hG.extend hnodes (.cons hlabel .nil) ?_ ?_ ?_ subset_rfl
        (fun _ _ => rfl) (fun k hk hk' => absurd hk hk') ?_ ?_ (fun k hk hk' => absurd hk hk')
        hG.anchor hG.rooted rfl rfl rfl) hdry
      · intro l hl
        rw [List.mem_singleton.mp hl]
        exact hknown
      · intro m hm
        rw [List.mem_singleton.mp hm]
        exact hf
      · rw [List.filterMap_append]
        exact (List.perm_append_singleton _ _).symm
      · rw [List.filterMap_append]
        exact fun _ _ h => .inl ((List.mem_append.mp h).resolve_right List.not_mem_nil)
      · rw [List.filterMap_append]
        exact fun _ h => List.mem_append_left _ h
    · exact hn
  · rintro x ⟨m₁, d₁⟩ ⟨f, rfl, hexact, ⟨hne, m, hm, rfl⟩, hd₁, rfl⟩
    dsimp only
    unfold Copier.settleCopy
    apply Succeeds.bind (R := fun v s' => v = none ∧
      s' = ⟨{ s.mem with runBytes := s.mem.runBytes + src.bytes }, d₁⟩)
    · unfold Copier.verifyCopy
      rw [truthy_some hne]
      dsimp only
      have hfind := Drive.find_of_mem hm
      apply Succeeds.bind (R := fun x s' => x = .ok (m.file.view verifyFields) ∧
        s' = ⟨{ s.mem with runBytes := s.mem.runBytes + src.bytes }, d₁⟩)
      · apply Server.ask_getMetadata (by decide)
        · intro m' hm'
          rw [show m' = m from Option.some.inj (hm'.symm.trans hfind)]
          exact ⟨rfl, rfl⟩
        · intro hnone
          cases hfind.symm.trans hnone
      · rintro x s' ⟨rfl, rfl⟩
        apply Succeeds.pure
        refine ⟨?_, rfl⟩
        have hmime := congrArg ApiFile.mimeType hexact
        have hsize := congrArg ApiFile.size hexact
        have hmd5 := congrArg ApiFile.md5Checksum hexact
        exact checkCopy_exact hshows (congrArg ApiFile.name hexact) hmime hsize hmd5
          (congrArg ApiFile.appProperties hexact)
    · rintro v s' ⟨rfl, rfl⟩
      dsimp only
      unfold Copier.markCopied
      apply Succeeds.bind (R := fun _ s' =>
        c.Drives K O (M ++ [.copied p src shortcutId]) (s'.mem.gist c.dry) s'.drive ∧
        Saved c.dry (({ s.mem with runBytes := s.mem.runBytes + src.bytes } : Mem).exec
          (.markCopied (orElse shortcutId src.id) src.bytes)).2 s'.mem)
      · apply Succeeds.mem_bind
        exact maybeFlush_succeeds hc (hd₁.congr rfl rfl rfl rfl rfl rfl rfl) hsaves
      · rintro _ s₂ ⟨hd₂, hs₂⟩
        apply (reconcileFailed_succeeds _ src).mono
        rintro _ s' ⟨hd, hindexes, hg⟩
        refine ⟨?_, hindexes.trans hs₂.indexes, ?_⟩
        · unfold At
          rw [hd, hg]
          apply h.effect
          · rw [hs₂.gist, Tally.add_copied]
            simp only [Mem.gist, Mem.exec, hdry, Bool.false_eq_true, if_false]
          · rw [hs₂.gist]
            exact fun _ => rfl
          · exact hd₂.congr rfl rfl rfl rfl rfl rfl rfl
        · have hmap := congrArg Gist.folderMap hg
          rw [hs₂.gist] at hmap
          exact hmap

/-- A file has the effect that the index of its folder decides. -/
theorem copyFile_succeeds (hc : c.Clear) (h : c.At K O M s) (hsaves : c.Saves K O (s.mem.gist c.dry))
    {p : String} (hp : p ∈ K) (hpO : p ∈ O) {place dest : Option String}
    (hdock : c.Docked (some p) place dest s.mem.state.folderMap) {i : ℕ}
    (hi : i < s.mem.indexes.length) {src : DriveFile} {n : Node} (hn : n ∈ s.drive)
    (hshows : src.Shows n) (hfolder : src.isFolder = false) {shortcutId : Option String}
    (hfits : validateAppProperties (copyProps src shortcutId) = .ok ()) :
    Succeeds c.cp s (c.cp.copyFile dest src i p shortcutId) fun _ s' =>
      c.At K O (M ++ [(c.cp.settle (s.mem.indexAt i) p src shortcutId).1]) s' ∧
        Left i (c.cp.settle (s.mem.indexAt i) p src shortcutId).2 s.mem s'.mem := by
  unfold Copier.copyFile
  apply Succeeds.mem_run (x := false) (m := s.mem)
  · exact Prod.ext h.running rfl
  rw [if_neg Bool.false_ne_true]
  apply Succeeds.bind (skipTrusted_succeeds h hi src shortcutId)
  rintro (_ | _) ⟨m₁, d₁⟩ hs₁
  · rw [if_neg Bool.false_ne_true] at hs₁ ⊢
    obtain ⟨rfl, hg, hindexes⟩ := hs₁
    have h₁ : c.At K O M ⟨m₁, s.drive⟩ := by
      unfold At
      rw [hg]
      exact h
    have hmap : m₁.state.folderMap = s.mem.state.folderMap := congrArg Gist.folderMap hg
    have hindex : m₁.indexAt i = s.mem.indexAt i := by rw [Mem.indexAt, hindexes]; rfl
    have hleft : Left i (s.mem.indexAt i) s.mem m₁ := Left.same hindexes hmap
    have hskip := skipMatched_succeeds hc h₁ (hg ▸ hsaves) (hleft.length ▸ hi) src shortcutId
    dsimp only at hskip
    rw [hindex] at hskip
    apply Succeeds.bind hskip
    rintro (_ | _) s₂ hs₂
    · rw [if_neg Bool.false_ne_true] at hs₂ ⊢
      obtain ⟨hnone, rfl⟩ := hs₂
      have hsettle : c.cp.settle (s.mem.indexAt i) p src shortcutId =
          if tooLarge src then (.failed (tooLargeItem src p shortcutId), s.mem.indexAt i)
          else (.copied p src shortcutId, s.mem.indexAt i) := by
        unfold Copier.settle
        split
        · rename_i hpop
          rw [hpop] at hnone
          exact nomatch hnone
        · rfl
      rw [hsettle]
      split_ifs with hlarge hdry
      · apply (recordFailed_succeeds h₁ rfl).mono
        rintro _ s' ⟨h', hi', hf'⟩
        exact ⟨h', hleft.then_same hi' hf'⟩
      · apply Succeeds.mem
        refine ⟨?_, hleft.then_same rfl rfl⟩
        apply h₁.effect
        · rw [Tally.add_copied]
          simp [Mem.gist, Mem.exec, hdry]
        · exact fun hreal => absurd (hdry.symm.trans hreal) Bool.noConfusion
        · unfold Drives
          rw [if_pos hdry]
          exact h₁.drive.unchanged hdry
      · have hreal : c.dry = false := Bool.eq_false_iff.mpr hdry
        have hdocked := hdock.docked
        rw [hreal, if_neg Bool.false_ne_true] at hdocked
        obtain ⟨P, rfl, hplace, -⟩ := hdocked
        apply (copyMissing_succeeds hc h₁ hreal (hg ▸ hsaves) hp hpO (hmap ▸ hplace) hn hshows
          hfolder hfits).mono
        rintro _ s' ⟨h', hi', hf'⟩
        exact ⟨h', hleft.then_same hi' hf'⟩
    · rw [if_pos rfl] at hs₂ ⊢
      obtain ⟨item, idx, hpop, h₂, hleft₂⟩ := hs₂
      have hsettle : c.cp.settle (s.mem.indexAt i) p src shortcutId =
          (.skipped src shortcutId, idx) := by
        simp only [Copier.settle, hpop]
      rw [hsettle]
      exact Succeeds.pure ⟨h₂, hleft.then hleft₂⟩
  · rw [if_pos rfl] at hs₁ ⊢
    obtain ⟨item, idx, hpop, h₁, hleft₁⟩ := hs₁
    have hsettle : c.cp.settle (s.mem.indexAt i) p src shortcutId =
        (.skipped src shortcutId, idx) := by
      simp only [Copier.settle, hpop]
    rw [hsettle]
    exact Succeeds.pure ⟨h₁, hleft₁⟩

end Course
end TurboCopy
