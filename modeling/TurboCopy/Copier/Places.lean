import TurboCopy.Copier.Steps

/-!
# Placing a folder

`_get_or_create_folder` on a course: the folder the logs have, the folder a search finds, or a
new one.
-/

namespace TurboCopy

open Threads CopierM Copier

theorem firstById_mem (f : ApiFile) (rest : List ApiFile) :
    ∃ g ∈ f :: rest, g.id = firstById f rest := by
  induction rest generalizing f with
  | nil => exact ⟨f, List.mem_cons_self, rfl⟩
  | cons g rest ih =>
    unfold firstById
    split_ifs
    · obtain ⟨x, hx, hid⟩ := ih g
      exact ⟨x, List.mem_cons_of_mem f hx, hid⟩
    · obtain ⟨x, hx, hid⟩ := ih f
      refine ⟨x, ?_, hid⟩
      rcases List.mem_cons.mp hx with rfl | hx
      · exact List.mem_cons_self
      · exact List.mem_cons_of_mem f (List.mem_cons_of_mem g hx)

/-- The memory in which a folder is mapped. -/
structure Mapped (k P : String) (m m' : Mem) : Prop where
  indexes : m'.indexes = m.indexes
  place : AList.lookup k m'.state.folderMap = some P
  others : ∀ k' ≠ k, AList.lookup k' m'.state.folderMap = AList.lookup k' m.state.folderMap

theorem Mapped.frame {k P : String} {m m' : Mem} (h : Mapped k P m m') {K : Set String} (hk : k ∉ K)
    (n : ℕ) : Mem.Frame K n m m' where
  grows := by rw [h.indexes]
  shelves i _ := by rw [Mem.indexAt, h.indexes]; rfl
  places k' hk' := h.others k' fun he => hk (he ▸ hk')

/-- The memory in which a folder is mapped and nothing else has changed for the course. -/
structure Placed (k P : String) (m m' : Mem) : Prop extends Mapped k P m m' where
  gist : ∀ dry, m'.gist dry = { m.gist dry with folderMap := m'.state.folderMap }

theorem Placed.mapFolder (m : Mem) (p k P : String) :
    Placed k P m (m.exec (.mapFolder p k P)).2 where
  indexes := rfl
  place := AList.lookup_insert _
  others _ hk := AList.lookup_insert_ne hk
  gist _ := rfl

theorem lookup_folderProps {id : String} (h : id ≠ "") :
    AList.lookup "source_folder_id" (folderProps id none) = some id := by
  simp [folderProps, h]

/-- What a search finds is a copy of the folder. -/
theorem Server.found_node {sv : Server} {d : Drive} {P key Q : String}
    (h : sv.found d P key = some Q) : Q ≠ "" ∧ ∃ n ∈ d, n.id = Q ∧ n.isFolder = true ∧
      n.tag = some key ∧ n.liveIn P = true := by
  unfold Server.found at h
  split at h
  · exact nomatch h
  · rename_i g rest hpage
    obtain ⟨hid, hne⟩ := truthy_eq_some.mp h
    obtain ⟨g', hg', hid'⟩ := firstById_mem g rest
    have hmem : g' ∈ Server.foundFiles d (folderQuery P key none) := by
      rw [← sv.whole (.search (folderQuery P key none) 10)
        (Server.foundFiles d (folderQuery P key none)), hpage]
      exact List.mem_append_left _ hg'
    obtain ⟨n, hn, rfl⟩ := List.mem_map.mp hmem
    obtain ⟨hn, hmatch⟩ := List.mem_filter.mp hn
    simp only [Bool.and_eq_true, decide_eq_true_eq] at hmatch
    exact ⟨hne, n, hn, hid'.trans (Option.some.inj hid), hmatch.1.2, hmatch.2, hmatch.1.1⟩

namespace Course

variable {c : Course} {K K' O O' : Set String} {M : List Effect} {s : Site c.sv.service}

/-! ## What the destination has -/

theorem found_node {P Q : String} {f : DriveFile} (h : c.found P f = some Q) :
    Q ≠ "" ∧ ∃ n ∈ c.base, n.id = Q ∧ n.isFolder = true ∧ n.tag = some f.id ∧
      n.liveIn P = true := Server.found_node h

/-- What the logs have is a live copy of the folder. -/
theorem cached_node {f : DriveFile} {Q : String} (h : c.cached f = some Q) :
    truthy (AList.lookup f.id c.cache) = some Q ∧
      ∃ n ∈ c.base, n.id = Q ∧ n.isFolder = true ∧ n.tag = some f.id ∧
        n.file.trashed = false := by
  obtain ⟨hQ, hconfirmed⟩ := Option.filter_eq_some_iff.mp h
  refine ⟨hQ, ?_⟩
  obtain ⟨n, hfind, hn⟩ := Option.any_eq_true _ _ |>.mp hconfirmed
  obtain ⟨hmem, hid⟩ := Drive.find_eq_some hfind
  obtain ⟨hlive, hfolder, htag⟩ := isDestFolder_view.mp hn
  exact ⟨n, hmem, hid, hfolder, htag, hlive⟩

/-- The home of a folder is a live copy of it. -/
theorem home_node {place : Option String} {f : DriveFile} {Q : String}
    (h : c.home place f = some Q) :
    Q ≠ "" ∧ ∃ n ∈ c.base, n.id = Q ∧ n.isFolder = true ∧ n.tag = some f.id ∧
      n.file.trashed = false := by
  unfold home at h
  split_ifs at h
  cases hcached : c.cached f with
  | some P =>
    rw [hcached] at h
    obtain rfl : P = Q := Option.some.inj h
    obtain ⟨hP, hn⟩ := cached_node hcached
    exact ⟨(truthy_eq_some.mp hP).2, hn⟩
  | none =>
    rw [hcached] at h
    obtain ⟨p, -, hfound⟩ := Option.bind_eq_some_iff.mp h
    obtain ⟨hne, n, hn, hid, hfolder, htag, hlive⟩ := found_node hfound
    have hlive := (Bool.and_eq_true_iff.mp hlive).1
    rw [Bool.not_eq_true'] at hlive
    exact ⟨hne, n, hn, hid, hfolder, htag, hlive⟩

/-- Nothing is found in a folder that is new. -/
theorem found_fresh {P : String} (hP : c.base.Fresh P) (f : DriveFile) : c.found P f = none := by
  cases h : c.found P f with
  | none => rfl
  | some Q =>
    obtain ⟨-, n, hn, -, -, -, hlive⟩ := found_node h
    simp only [Node.liveIn, Bool.and_eq_true, decide_eq_true_eq] at hlive
    exact absurd hlive.2 (hP.2 n hn).2.1

/-- The home of a folder, looked for in the destination of the run. -/
theorem home_docked {place : Option String} {P : String} (f : DriveFile)
    (h : place = some P ∨ c.dry = false ∧ place = none ∧ c.base.Fresh P) :
    c.home place f = (c.cached f).orElse fun _ => c.found P f := by
  unfold home
  rcases h with rfl | ⟨hdry, rfl, hP⟩
  · rw [Option.isNone_some, Bool.and_false, if_neg Bool.false_ne_true]
    rfl
  · rw [hdry, Bool.false_and, if_neg Bool.false_ne_true, found_fresh hP]
    rfl

theorem Holds.confirmed {g : Gist} {d : Drive} (h : c.Holds K O M g d) {k : String} (hk : k ∉ K)
    (id : String) :
    ((d.find id).any fun n => isDestFolder (DriveFile.fromApi (n.file.view folderFields)) k none) =
      (c.base.find id).any fun n =>
        isDestFolder (DriveFile.fromApi (n.file.view folderFields)) k none := by
  cases hdry : c.dry with
  | true => rw [h.drive.unchanged hdry]
  | false =>
    obtain ⟨G, hG⟩ := h.drive.grown hdry
    exact hG.confirmed_eq hk id

theorem Holds.foundFiles {g : Gist} {d : Drive} (h : c.Holds K O M g d) {k : String} (hk : k ∉ K)
    (P : String) : Server.foundFiles d (folderQuery P k none) =
      Server.foundFiles c.base (folderQuery P k none) := by
  cases hdry : c.dry with
  | true => rw [h.drive.unchanged hdry]
  | false =>
    obtain ⟨G, hG⟩ := h.drive.grown hdry
    exact hG.foundFiles_eq hk P

/-- A missing object does not stop a run. -/
theorem raiseIfFatalQuota_notFound (context : String) :
    Succeeds c.cp s (c.cp.raiseIfFatalQuota Drive.notFound context) fun _ s' => s' = s := by
  unfold Copier.raiseIfFatalQuota
  rw [if_neg (by decide +kernel)]
  exact Succeeds.pure rfl

/-- The check of a folder that the logs have. -/
theorem verifyDestFolder_succeeds (h : c.At K O M s) {k : String} (hk : k ∉ K) (id : String) :
    Succeeds c.cp s (c.cp.verifyDestFolder id k none) fun b s' => s' = s ∧
      b = (c.base.find id).any fun n =>
        isDestFolder (DriveFile.fromApi (n.file.view folderFields)) k none := by
  have hconfirmed := h.confirmed hk id
  unfold Copier.verifyDestFolder
  cases hfind : s.drive.find id with
  | some n =>
    rw [hfind, Option.any_some] at hconfirmed
    apply Succeeds.bind (R := fun x s' => s' = s ∧ x = .ok (n.file.view folderFields))
    · apply Server.ask_getMetadata (by decide)
      · intro m hm
        rw [Option.some.inj (hm.symm.trans hfind)]
        exact ⟨rfl, rfl⟩
      · intro hnone
        exact absurd (hfind.symm.trans hnone) nofun
    · rintro x s' ⟨rfl, rfl⟩
      exact Succeeds.pure ⟨rfl, hconfirmed⟩
  | none =>
    rw [hfind, Option.any_none] at hconfirmed
    apply Succeeds.bind (R := fun x s' => s' = s ∧ x = .error Drive.notFound)
    · apply Server.ask_getMetadata (by decide)
      · intro m hm
        exact absurd (hfind.symm.trans hm) nofun
      · exact fun _ => ⟨rfl, rfl⟩
    · rintro x s' ⟨rfl, rfl⟩
      apply Succeeds.bind (R := fun _ s'' => s'' = s') (raiseIfFatalQuota_notFound _)
      rintro _ s'' rfl
      exact Succeeds.pure ⟨rfl, hconfirmed⟩

/-- The lookup in the folder map. -/
theorem cachedDestFolder_succeeds (h : c.At K O M s) {f : DriveFile} (hf : f.id ∉ K) (P : String) :
    Succeeds c.cp s (c.cp.cachedDestFolder P f.id none) fun r s' => s' = s ∧ r = c.cached f := by
  unfold Copier.cachedDestFolder
  apply Succeeds.mem_bind
  have hcache : (s.mem.exec (.cachedFolder P f.id)).1 = AList.lookup f.id c.cache := h.cache f.id hf
  rw [hcache]
  unfold cached
  cases ht : truthy (AList.lookup f.id c.cache) with
  | none => exact Succeeds.pure ⟨rfl, rfl⟩
  | some id =>
    apply Succeeds.bind (verifyDestFolder_succeeds h hf id)
    rintro b s' ⟨rfl, rfl⟩
    rw [Option.filter_some]
    split_ifs
    · exact Succeeds.pure ⟨rfl, rfl⟩
    · exact Succeeds.pure ⟨rfl, rfl⟩

/-- The search in the destination folder. -/
theorem findDestFolder_succeeds (h : c.At K O M s) {f : DriveFile} (hf : f.id ∉ K)
    (hne : f.id ≠ "") (P : String) :
    Succeeds c.cp s (c.cp.findDestFolder P f.id none) fun r s' => s' = s ∧
      truthy r = c.found P f := by
  unfold Copier.findDestFolder found Server.found
  rw [orElse_none, if_neg hne, ← h.foundFiles hf P]
  generalize hpage : c.sv.turn (.search (folderQuery P f.id none) 10)
    (Server.foundFiles s.drive (folderQuery P f.id none)) = page
  apply Succeeds.bind (R := fun x s' => s' = s ∧ x = .ok page)
  · apply Server.ask_search
    rw [hpage]
    exact ⟨rfl, rfl⟩
  · rintro x s' ⟨rfl, rfl⟩
    dsimp only
    cases page.1 with
    | nil => exact Succeeds.pure ⟨rfl, rfl⟩
    | cons f rest => exact Succeeds.pure ⟨rfl, rfl⟩

/-- The lookups before a folder is made. -/
theorem knownFolder_succeeds (h : c.At K O M s) {f : DriveFile} (hf : f.id ∉ K) (hne : f.id ≠ "")
    {place : Option String} {P : String}
    (hplace : place = some P ∨ c.dry = false ∧ place = none ∧ c.base.Fresh P) :
    Succeeds c.cp s (c.cp.knownFolder P f.id none) fun r s' => r = c.home place f ∧
      s'.drive = s.drive ∧ match r with
      | none => s' = s
      | some Q => Placed f.id Q s.mem s'.mem := by
  unfold Copier.knownFolder
  rw [orElse_none, if_neg hne, home_docked f hplace]
  apply Succeeds.bind (cachedDestFolder_succeeds h hf P)
  rintro r s ⟨rfl, rfl⟩
  cases hcached : c.cached f with
  | some Q =>
    apply Succeeds.pure
    refine ⟨rfl, rfl, ⟨rfl, ?_, fun _ _ => rfl⟩, fun _ => rfl⟩
    obtain ⟨hQ, -⟩ := cached_node hcached
    have hcache : AList.lookup f.id s.mem.state.folderMap = AList.lookup f.id c.cache :=
      h.cache f.id hf
    rw [hcache]
    exact (truthy_eq_some.mp hQ).1
  | none =>
    dsimp only
    apply Succeeds.bind (findDestFolder_succeeds h hf hne P)
    rintro r s' ⟨rfl, hr⟩
    rw [hr]
    cases c.found P f with
    | none => exact Succeeds.pure ⟨rfl, rfl, rfl⟩
    | some Q =>
      apply Succeeds.mem_bind
      exact Succeeds.pure ⟨rfl, rfl, Placed.mapFolder s'.mem P f.id Q⟩

/-! ## Placing -/

/-- The effect of a folder: it is made unless the destination has it. -/
def placing (c : Course) (under place : Option String) (f : DriveFile) : Effect :=
  match c.home place f with
  | some id => .kept f.id id
  | none => .made under f

theorem placing_kept {under place : Option String} {f : DriveFile} {Q : String}
    (h : c.home place f = some Q) : c.placing under place f = .kept f.id Q := by
  rw [placing, h]

theorem placing_made {under place : Option String} {f : DriveFile} (h : c.home place f = none) :
    c.placing under place f = .made under f := by
  rw [placing, h]

/-- The source root is placed first, and before the run has a destination root. -/
def Opens (c : Course) (K : Set String) (place : Option String) (f : DriveFile) (g : Gist) : Prop :=
  c.root ∈ K ∨ f.id = c.root ∧ g.destRoot = none ∧ c.rootHome = c.home place f

theorem Docked.places {k place : Option String} {P : String} {fm : Dict String}
    (h : c.Docked k place (some P) fm) :
    place = some P ∨ c.dry = false ∧ place = none ∧ c.base.Fresh P := by
  have hdocked := h.docked
  split_ifs at hdocked with hdry
  · exact .inl hdocked.symm
  · obtain ⟨Q, hQ, -, hplace⟩ := hdocked
    rw [← Option.some.inj hQ] at hplace
    exact hplace.imp_right fun hnone => ⟨Bool.eq_false_iff.mpr hdry, hnone⟩

/-- A folder is placed in the Drive of a real run. -/
theorem Grown.place {G : Growth} {m m' : Mem} {d d' : Drive} {f : DriveFile} {Q : String}
    {under place : Option String} {en : List Node} {el : List Label}
    (h : c.Grown K O M G (m.gist c.dry) d) (hp : Placed f.id Q m m') (hf : f.id ∉ K)
    (hopens : c.Opens K place f (m.gist c.dry))
    (hhome : c.home place f = some Q ∨ c.home place f = none ∧ c.base.Fresh Q)
    (hd : d'.nodes = en ++ d.nodes)
    (hreal : List.Forall₂ (c.Realizes m'.state.folderMap) el en)
    (hknown : ∀ l ∈ el, Known (insert f.id K) O l) (hfresh : ∀ n ∈ en, d.Fresh n.id)
    (hlabels : (el ++ M.filterMap Effect.label).Perm
      ((M ++ [c.placing under place f]).filterMap Effect.label))
    (hmade : c.home place f = none → ∃ l ∈ el, l.key = some f.id)
    (hberth : c.Berth (m'.gist c.dry) d' f.id Q) :
    ∃ G, c.Grown (insert f.id K) O (M ++ [c.placing under place f]) G (m'.gist c.dry) d' := by
  have hg := hp.gist c.dry
  have hmap : ∀ k ∈ K, AList.lookup k m'.state.folderMap = AList.lookup k m.state.folderMap :=
    fun k hk => hp.others k fun he => hf (he ▸ hk)
  have hown : (m'.gist c.dry).ownLog = (m.gist c.dry).ownLog := by rw [hg]
  have hsaved : (m'.gist c.dry).saveFailed = (m.gist c.dry).saveFailed := by rw [hg]
  have hname : (m'.gist c.dry).logName = (m.gist c.dry).logName := by rw [hg]
  have hdest : (m'.gist c.dry).destRoot = (m.gist c.dry).destRoot := by rw [hg]
  refine ⟨_, h.extend hd hreal hknown hfresh hlabels (Set.subset_insert _ _) hmap ?_ ?_ ?_ ?_
    ?_ ?_ hown hsaved hname⟩
  · intro k hk hk'
    obtain rfl : k = f.id := hk.resolve_right hk'
    exact ⟨Q, hberth⟩
  · rw [List.filterMap_append]
    intro k P hkP
    refine (List.mem_append.mp hkP).imp_right fun hnew => ?_
    rcases hhome with hhome | ⟨hhome, -⟩
    · rw [placing_kept hhome] at hnew
      obtain ⟨rfl, rfl⟩ := Prod.mk.inj (List.mem_singleton.mp hnew)
      obtain ⟨-, n, hn, hid, -⟩ := home_node hhome
      exact ⟨Set.mem_insert _ _, hp.place, n, hn, hid⟩
    · rw [placing_made hhome] at hnew
      exact absurd hnew List.not_mem_nil
  · rw [List.filterMap_append]
    exact fun _ h => List.mem_append_left _ h
  · rw [List.filterMap_append]
    intro k hk hk'
    obtain rfl : k = f.id := hk.resolve_right hk'
    rcases hhome with hhome | ⟨hhome, -⟩
    · rw [placing_kept hhome]
      exact .inl ⟨Q, List.mem_append_right _ List.mem_cons_self⟩
    · exact .inr (hmade hhome)
  · rw [hdest]
    rcases hopens with hroot | ⟨-, hnone, -⟩
    · exact h.anchor.imp_right fun ha => ha.trans (hmap c.root hroot).symm
    · exact .inl hnone
  · intro P hP hroot'
    have hP : AList.lookup c.root m'.state.folderMap = some P := hP
    rcases hopens with hroot | ⟨hroot, -, hsame⟩
    · exact h.rooted P ((hmap c.root hroot).symm.trans hP) hroot
    · rw [← hroot, hp.place] at hP
      rw [hsame, ← Option.some.inj hP]
      exact hhome

/-- Placing a folder counts for nothing. -/
theorem of_placing (M : List Effect) (under place : Option String) (f : DriveFile) :
    Tally.of (M ++ [c.placing under place f]) = Tally.of M := by
  rw [Tally.of_append_singleton]
  unfold placing
  split
  · rw [Tally.add_kept]
  · rw [Tally.add_made]

theorem remaining_placing (prior : List FailedItem) (M : List Effect) (under place : Option String)
    (f : DriveFile) : remaining prior (M ++ [c.placing under place f]) = remaining prior M := by
  have hstrikes : (c.placing under place f).strikes = [] := by
    unfold placing
    split <;> rfl
  rw [remaining_append_singleton, hstrikes]
  apply List.filter_eq_self.mpr
  intro x _
  simp [x.struckBy_nil]

/-- The memory after a folder has been placed, with a Drive for it. -/
theorem Holds.place {g g' : Gist} {d d' : Drive} (h : c.Holds K O M g d) {f : DriveFile}
    {under place : Option String}
    (hg : g' = { g with folderMap := g'.folderMap, ownLog := g'.ownLog })
    (hmap : ∀ k ≠ f.id, AList.lookup k g'.folderMap = AList.lookup k g.folderMap)
    (hd : c.Drives (insert f.id K) O (M ++ [c.placing under place f]) g' d') :
    c.Holds (insert f.id K) O (M ++ [c.placing under place f]) g' d' where
  running := by rw [hg]; exact h.running
  listed := by rw [hg]; exact h.listed
  mode := by rw [hg]; exact h.mode
  log := by rw [hg]; exact h.log
  counts := by rw [hg, of_placing]; exact h.counts
  previous := by rw [hg, remaining_placing]; exact h.previous
  uncompleted hskip := by rw [hg]; exact h.uncompleted hskip
  cache k hk := by
    rw [Set.mem_insert_iff, not_or] at hk
    exact (hmap k hk.1).trans (h.cache k hk.2)
  opened := by rw [hg]; exact h.opened
  drive := hd

/-- The home of a folder as its berth. -/
theorem Grown.home_berth {G : Growth} {g g' : Gist} {d : Drive} {f : DriveFile} {Q : String}
    {place : Option String} (h : c.Grown K O M G g d) (hc : c.Clear)
    (hplace : AList.lookup f.id g'.folderMap = some Q) (hsource : f.id ∈ c.sources)
    (hknown : ∀ A, place = some A → c.dest A) (hhome : c.home place f = some Q) :
    c.Berth g' d f.id Q := by
  obtain ⟨hne, n, hn, rfl, hfolder, htag, -⟩ := home_node hhome
  have hpatch := h.patched n hn
  have hapart : n.id ∉ c.sources := hc.apart n.id (hc.home place f n.id hsource hknown hhome)
  refine ⟨hplace, hne, hapart, G.patch n, h.mem_patch hn, h.patch_id hn, ?_, ?_⟩
  · rw [Node.isFolder, hpatch]
    exact hfolder
  · rw [Node.tag, hpatch]
    exact htag

/-- A folder that the destination has is placed where it is. -/
theorem at_home (hc : c.Clear) (h : c.At K O M s) {m' : Mem} {f : DriveFile} {Q : String}
    (hp : Placed f.id Q s.mem m') (hf : f.id ∉ K) (hsource : f.id ∈ c.sources)
    {under place dest : Option String} (hdock : c.Docked under place dest s.mem.state.folderMap)
    (hopens : c.Opens K place f (s.mem.gist c.dry)) (hhome : c.home place f = some Q) :
    c.At (insert f.id K) O (M ++ [c.placing under place f]) ⟨m', s.drive⟩ := by
  have hg : m'.gist c.dry = { s.mem.gist c.dry with
      folderMap := (m'.gist c.dry).folderMap, ownLog := (m'.gist c.dry).ownLog } := by
    rw [hp.gist c.dry]
  apply h.place hg hp.others
  by_cases hdry : c.dry = true
  · unfold Drives
    rw [if_pos hdry]
    exact h.drive.unchanged hdry
  · have hdry : c.dry = false := Bool.eq_false_iff.mpr hdry
    obtain ⟨G, hG⟩ := h.drive.grown hdry
    have hberth : c.Berth (m'.gist c.dry) s.drive f.id Q :=
      hG.home_berth hc hp.place hsource hdock.known hhome
    have hnodes : s.drive.nodes = [] ++ s.drive.nodes := rfl
    have hlabels : ([] ++ M.filterMap Effect.label).Perm
        ((M ++ [c.placing under place f]).filterMap Effect.label) := by
      rw [placing_kept hhome, List.filterMap_append]
      exact .of_eq (List.append_nil _).symm
    obtain ⟨G', hG'⟩ := hG.place hp hf hopens (.inl hhome) hnodes .nil (List.forall_mem_nil _)
      (List.forall_mem_nil _) hlabels (fun hnone => nomatch hhome.symm.trans hnone) hberth
    exact .of_grown hG' hdry

/-- The folder that is made for a source folder. -/
def madeNode (P : String) (f : DriveFile) (id : String) : Node where
  file := { id := id, name := f.name, mimeType := folderMime, appProperties := folderProps f.id none
            parents := [P] }

/-- A new folder is what its label says. -/
theorem realizes_made {fm : Dict String} {f : DriveFile} {id P : String} {under : Option String}
    (hP : c.placeOf fm under = some P) (hid : AList.lookup f.id fm = some id) :
    c.Realizes fm ⟨f.name, folderMime, folderProps f.id none, under, some f.id⟩
      (madeNode P f id) where
  name := rfl
  mimeType := rfl
  props := rfl
  live := rfl
  parents := ⟨P, hP, rfl⟩
  key _ hk := Option.some.inj hk ▸ hid

/-- A folder that the destination does not have is made in its parent. -/
theorem createFolder_succeeds (hc : c.Clear) (h : c.At K O M s) (hdry : c.dry = false)
    (hsaves : c.Saves K O (s.mem.gist c.dry)) {f : DriveFile} (hf : f.id ∉ K) (hne : f.id ≠ "")
    (hfits : validateAppProperties (folderProps f.id none) = .ok ())
    {under place : Option String} {P : String}
    (hparent : c.placeOf s.mem.state.folderMap under = some P) (hunder : ∀ u, under = some u → u ∈ K)
    (hopens : c.Opens K place f (s.mem.gist c.dry)) (hhome : c.home place f = none) :
    Succeeds c.cp s (c.cp.createFolder P f.name f.id none) fun r s' => ∃ Q, r = some Q ∧
      c.base.Fresh Q ∧ c.At (insert f.id K) O (M ++ [c.placing under place f]) s' ∧
      Mapped f.id Q s.mem s'.mem := by
  obtain ⟨G, hG⟩ := h.drive.grown hdry
  have hhas : s.drive.has P := by
    cases hu : under with
    | none =>
      rw [hu] at hparent
      obtain ⟨n, hn, hid⟩ := hc.parentHas
      exact ⟨_, hG.mem_patch hn, (hG.patch_id hn).trans (hid.trans (Option.some.inj hparent))⟩
    | some u =>
      rw [hu] at hparent
      obtain ⟨P', hP'⟩ := hG.berths u (hunder u hu)
      obtain ⟨n, hn, hid, -⟩ := hP'.node
      exact ⟨n, hn, hid.trans (Option.some.inj (hP'.place.symm.trans hparent))⟩
  unfold Copier.createFolder
  rw [hfits]
  dsimp only
  apply Succeeds.bind (R := fun x (s' : Site c.sv.service) => ∃ Q, x = .ok (some Q) ∧ Q ≠ "" ∧
    c.base.Fresh Q ∧ s'.mem = s.mem ∧ ∀ m', Placed f.id Q s.mem m' →
      c.Drives (insert f.id K) O (M ++ [c.placing under place f]) (m'.gist c.dry) s'.drive)
  · apply Server.ask_createFolder hhas
    intro Q hfresh
    refine ⟨Q, rfl, hfresh.1, hG.fresh_base hfresh, rfl, fun m' hp => ?_⟩
    have hnodes : (s.drive.add (madeNode P f Q) hfresh).nodes =
        [madeNode P f Q] ++ s.drive.nodes := rfl
    have hP : c.placeOf m'.state.folderMap under = some P := by
      cases hu : under with
      | none => rwa [hu] at hparent
      | some u =>
        rw [hu] at hparent
        exact (hp.others u fun he => hf (he ▸ hunder u hu)).trans hparent
    have hknown : Known (insert f.id K) O
        ⟨f.name, folderMime, folderProps f.id none, under, some f.id⟩ := by
      refine ⟨fun u hu => .inr (hunder u hu), fun _ => ?_, fun hmime => absurd rfl hmime⟩
      exact ⟨f.id, Set.mem_insert _ _, rfl, lookup_folderProps hne⟩
    have hapart : Q ∉ c.sources := by
      intro hQ
      obtain ⟨n, hn, hid⟩ := hc.sourcesHas Q hQ
      exact ((hG.fresh_base hfresh).2 n hn).1 hid
    have hlabels : ([(⟨f.name, folderMime, folderProps f.id none, under, some f.id⟩ : Label)] ++
        M.filterMap Effect.label).Perm ((M ++ [c.placing under place f]).filterMap Effect.label) := by
      rw [placing_made hhome, List.filterMap_append]
      exact (List.perm_append_singleton _ _).symm
    obtain ⟨G', hG'⟩ := hG.place hp hf hopens (.inr ⟨hhome, hG.fresh_base hfresh⟩) hnodes
      (.cons (realizes_made hP hp.place) .nil) (List.forall_mem_singleton.mpr hknown)
      (List.forall_mem_singleton.mpr hfresh) hlabels (fun _ => ⟨_, List.mem_cons_self, rfl⟩)
      ⟨hp.place, hfresh.1, hapart, _, List.mem_cons_self, rfl, rfl, lookup_folderProps hne⟩
    exact .of_grown hG' hdry
  · rintro x ⟨m, d⟩ ⟨Q, rfl, hQ, hfresh, rfl, hd⟩
    dsimp only
    rw [truthy_some hQ]
    dsimp only
    rw [orElse_none, if_neg hne]
    apply Succeeds.mem_bind
    have hp := Placed.mapFolder s.mem P f.id Q
    have hsaves' : c.Saves (insert f.id K) O ((s.mem.exec (.mapFolder P f.id Q)).2.gist c.dry) :=
      hsaves.imp_right fun hroot => ⟨.inr hroot.1, hroot.2⟩
    have hsave := saveLog_succeeds (s := ⟨(s.mem.exec (.mapFolder P f.id Q)).2, d⟩) hc (hd _ hp)
      hsaves' false
    apply Succeeds.bind hsave
    rintro _ s' ⟨hd', hs'⟩
    apply Succeeds.pure
    refine ⟨Q, rfl, hfresh, ?_, ?_⟩
    · apply h.place _ _ hd'
      · rw [hs'.gist]
        rfl
      · intro k hk
        rw [hs'.gist]
        exact hp.others k hk
    · have hmap : s'.mem.state.folderMap = (s.mem.exec (.mapFolder P f.id Q)).2.state.folderMap :=
        congrArg Gist.folderMap hs'.gist
      refine ⟨hs'.indexes, ?_, ?_⟩
      · rw [hmap]
        exact hp.place
      · rw [hmap]
        exact hp.others

/-- `_get_or_create_folder` places a folder at its home, or makes it. -/
theorem getOrCreateFolder_succeeds (hc : c.Clear) (h : c.At K O M s)
    (hsaves : c.Saves K O (s.mem.gist c.dry)) {f : DriveFile} (hf : f.id ∉ K) (hne : f.id ≠ "")
    (hsource : f.id ∈ c.sources) (hfits : validateAppProperties (folderProps f.id none) = .ok ())
    {under place dest : Option String} (hdock : c.Docked under place dest s.mem.state.folderMap)
    (hunder : ∀ u, under = some u → u ∈ K) (hopens : c.Opens K place f (s.mem.gist c.dry)) :
    Succeeds c.cp s (c.cp.getOrCreateFolder dest f.name f.id none) fun dest' s' =>
      c.At (insert f.id K) O (M ++ [c.placing under place f]) s' ∧
      c.Docked (some f.id) (c.home place f) dest' s'.mem.state.folderMap ∧
      ∀ n, Mem.Frame K n s.mem s'.mem := by
  have hknown : ∀ A, c.home place f = some A → c.dest A :=
    fun A => hc.home place f A hsource hdock.known
  unfold Copier.getOrCreateFolder
  cases dest with
  | none =>
    have hdocked := hdock.docked
    split_ifs at hdocked with hdry
    · have hhome : c.home place f = none := by
        rw [← hdocked, home, if_pos (by rw [hdry]; rfl)]
      apply Succeeds.pure
      refine ⟨?_, ⟨hknown, ?_⟩, fun n => .of_eq rfl rfl⟩
      · apply h.place rfl (fun _ _ => rfl)
        unfold Drives
        rw [if_pos hdry]
        exact h.drive.unchanged hdry
      · rw [if_pos hdry, hhome]
    · obtain ⟨P, hP, -⟩ := hdocked
      exact nomatch hP
  | some P =>
    dsimp only
    apply Succeeds.bind (knownFolder_succeeds h hf hne hdock.places)
    rintro r ⟨m', d'⟩ ⟨rfl, rfl, hr⟩
    cases hhome : c.home place f with
    | some Q =>
      rw [hhome] at hr
      have hr : Placed f.id Q s.mem m' := hr
      apply Succeeds.pure
      refine ⟨at_home hc h hr hf hsource hdock hopens hhome, ⟨hhome ▸ hknown, ?_⟩,
        fun n => hr.frame hf n⟩
      split_ifs
      · rfl
      · exact ⟨Q, rfl, hr.place, .inl rfl⟩
    | none =>
      rw [hhome] at hr
      obtain rfl : m' = s.mem := congrArg Site.mem hr
      dsimp only
      split_ifs with hdry
      · apply Succeeds.pure
        refine ⟨?_, ⟨hhome ▸ hknown, ?_⟩, fun n => .of_eq rfl rfl⟩
        · apply h.place rfl (fun _ _ => rfl)
          unfold Drives
          rw [if_pos hdry]
          exact h.drive.unchanged hdry
        · rw [if_pos hdry]
      · have hdry : c.dry = false := Bool.eq_false_iff.mpr hdry
        have hdocked := hdock.docked
        rw [hdry, if_neg Bool.false_ne_true] at hdocked
        obtain ⟨P', hP', hparent, -⟩ := hdocked
        obtain rfl : P = P' := Option.some.inj hP'
        apply (createFolder_succeeds hc h hdry hsaves hf hne hfits hparent hunder hopens hhome).mono
        rintro r s' ⟨Q, rfl, hfresh, h', hmapped⟩
        refine ⟨h', ⟨nofun, ?_⟩, fun n => hmapped.frame hf n⟩
        rw [hdry, if_neg Bool.false_ne_true]
        exact ⟨Q, rfl, hmapped.place, .inr ⟨rfl, hfresh⟩⟩

end Course
end TurboCopy
