import TurboCopy.Copier.Forecast
import TurboCopy.Copier.Footprint

/-!
# A new copy of a source tree

What a real run over a server without errors leaves when the destination has no copy of the source
yet: a new folder with the contents of the source, folder by folder, without the files that are too
large and the shortcuts that lead nowhere, and with nothing else in it.
-/

namespace TurboCopy

open Threads CopierM Copier

/-! ## The copies of a tree -/

namespace Forest

/-- A file that the destination does not have. -/
def copying (under : String) (src : DriveFile) (shortcutId : Option String) : Effect :=
  if tooLarge src then .failed (tooLargeItem src under shortcutId) else .copied under src shortcutId

/-- The effects of the default traversal when the destination has nothing. -/
def anew : String → Forest → List Effect
  | _, nil => []
  | under, file src rest => copying under src none :: anew under rest
  | under, link src target rest => copying under target (some src.id) :: anew under rest
  | under, broken src rest => .failed (inaccessibleItem src under) :: anew under rest
  | under, folder src sub rest =>
    .made (some under) src :: (anew src.id sub ++ anew under rest)

/-- What is made in the folder of a first level. -/
def tier (under : String) : Forest → List Label
  | nil => []
  | file src rest => (copying under src none).label.toList ++ tier under rest
  | link src target rest => (copying under target (some src.id)).label.toList ++ tier under rest
  | broken _ rest => tier under rest
  | folder src _ rest => (Effect.made (some under) src).label.toList ++ tier under rest

/-- The folders with their contents. -/
def folders : Forest → List (String × Forest)
  | nil => []
  | file _ rest => rest.folders
  | link _ _ rest => rest.folders
  | broken _ rest => rest.folders
  | folder src sub rest => (src.id, sub) :: (sub.folders ++ rest.folders)

/-- What is made in the copy of a folder, and in the destination parent. -/
def madeIn (u : Option String) (M : List Effect) : List Label :=
  (M.filterMap Effect.label).filter fun l => l.under = u

variable {under k : String} {u : Option String} {f sub : Forest} {M M' : List Effect} {e : Effect}

theorem mem_keys_of_folders (h : (k, sub) ∈ f.folders) : k ∈ f.keys := by
  induction f with
  | nil => exact absurd h List.not_mem_nil
  | file src rest ih => exact ih h
  | link src target rest ih => exact ih h
  | broken src rest ih => exact ih h
  | folder src sub' rest ihsub ihrest =>
    simp only [folders, List.mem_cons, List.mem_append, Prod.mk.injEq] at h
    simp only [keys, List.mem_cons, List.mem_append]
    rcases h with ⟨rfl, -⟩ | h | h
    · exact .inl rfl
    · exact .inr (.inl (ihsub h))
    · exact .inr (.inr (ihrest h))

theorem madeIn_append : madeIn u (M ++ M') = madeIn u M ++ madeIn u M' := by
  simp [madeIn]

theorem madeIn_cons_none (h : e.label = none) : madeIn u (e :: M) = madeIn u M := by
  simp [madeIn, h]

theorem madeIn_cons_of (h : ∀ l, e.label = some l → l.under = u) :
    madeIn u (e :: M) = e.label.toList ++ madeIn u M := by
  unfold madeIn
  cases he : e.label with
  | none => simp [he]
  | some l => simp [he, h l he]

theorem madeIn_cons_of_ne (h : ∀ l, e.label = some l → l.under ≠ u) :
    madeIn u (e :: M) = madeIn u M := by
  unfold madeIn
  cases he : e.label with
  | none => simp [he]
  | some l => simp [he, h l he]

theorem copying_under (src : DriveFile) (shortcutId : Option String) (l : Label)
    (h : (copying under src shortcutId).label = some l) : l.under = some under := by
  unfold copying at h
  split_ifs at h
  · cases h
  · cases h
    rfl

theorem made_under (src : DriveFile) (l : Label)
    (h : (Effect.made (some under) src).label = some l) : l.under = some under := by
  cases h
  rfl

/-- Nothing is made in a folder that is not of the tree. -/
theorem madeIn_anew_of_notMem (f : Forest) : ∀ {under : String}, k ≠ under → k ∉ f.keys →
    madeIn (some k) (f.anew under) = [] := by
  induction f with
  | nil => exact fun _ _ => rfl
  | file src rest ih =>
    intro under hk hkeys
    have hne : some under ≠ some k := fun h => hk (Option.some.inj h).symm
    exact (madeIn_cons_of_ne fun l hl => copying_under src none l hl ▸ hne).trans (ih hk hkeys)
  | link src target rest ih =>
    intro under hk hkeys
    have hne : some under ≠ some k := fun h => hk (Option.some.inj h).symm
    exact (madeIn_cons_of_ne fun l hl => copying_under target _ l hl ▸ hne).trans (ih hk hkeys)
  | broken src rest ih =>
    intro under hk hkeys
    exact (madeIn_cons_none rfl).trans (ih hk hkeys)
  | folder src sub rest ihsub ihrest =>
    intro under hk hkeys
    simp only [keys, List.mem_cons, List.mem_append, not_or] at hkeys
    have hne : some under ≠ some k := fun h => hk (Option.some.inj h).symm
    refine (madeIn_cons_of_ne fun l hl => made_under src l hl ▸ hne).trans ?_
    rw [madeIn_append, ihsub hkeys.1 hkeys.2.1, ihrest hk hkeys.2.2, List.append_nil]

/-- In the folder of the first level its tier is made. -/
theorem madeIn_anew_self (f : Forest) : under ∉ f.keys →
    madeIn (some under) (f.anew under) = f.tier under := by
  induction f with
  | nil => exact fun _ => rfl
  | file src rest ih =>
    intro hkeys
    exact (madeIn_cons_of (copying_under src none)).trans (congrArg _ (ih hkeys))
  | link src target rest ih =>
    intro hkeys
    exact (madeIn_cons_of (copying_under target _)).trans (congrArg _ (ih hkeys))
  | broken src rest ih =>
    intro hkeys
    exact (madeIn_cons_none rfl).trans (ih hkeys)
  | folder src sub rest _ ihrest =>
    intro hkeys
    simp only [keys, List.mem_cons, List.mem_append, not_or] at hkeys
    refine (madeIn_cons_of (made_under src)).trans (congrArg _ ?_)
    rw [madeIn_append, madeIn_anew_of_notMem sub hkeys.1 hkeys.2.1, ihrest hkeys.2.2,
      List.nil_append]

/-- In each folder its own tier is made. -/
theorem madeIn_anew_folder (f : Forest) : ∀ {under : String}, under ∉ f.keys → f.keys.Nodup →
    (k, sub) ∈ f.folders → madeIn (some k) (f.anew under) = sub.tier k := by
  induction f with
  | nil => exact fun _ _ h => absurd h List.not_mem_nil
  | file src rest ih =>
    intro under hu hnodup h
    have hne : some under ≠ some k := by
      rintro ⟨⟩
      exact hu (mem_keys_of_folders h)
    exact (madeIn_cons_of_ne fun l hl => copying_under src none l hl ▸ hne).trans (ih hu hnodup h)
  | link src target rest ih =>
    intro under hu hnodup h
    have hne : some under ≠ some k := by
      rintro ⟨⟩
      exact hu (mem_keys_of_folders h)
    exact (madeIn_cons_of_ne fun l hl => copying_under target _ l hl ▸ hne).trans (ih hu hnodup h)
  | broken src rest ih =>
    intro under hu hnodup h
    exact (madeIn_cons_none rfl).trans (ih hu hnodup h)
  | folder src sub' rest ihsub ihrest =>
    intro under hu hnodup h
    have hne : some under ≠ some k := by
      rintro ⟨⟩
      exact hu (mem_keys_of_folders h)
    have hk : k ≠ under := fun h => hne (congrArg some h.symm)
    obtain ⟨hsrc, hnodup⟩ := List.nodup_cons.mp hnodup
    obtain ⟨hnodupsub, hnoduprest, hdisjoint⟩ := List.nodup_append.mp hnodup
    simp only [keys, List.mem_cons, List.mem_append, not_or] at hu hsrc
    refine (madeIn_cons_of_ne fun l hl => made_under src l hl ▸ hne).trans ?_
    rw [madeIn_append]
    simp only [folders, List.mem_cons, List.mem_append, Prod.mk.injEq] at h
    rcases h with ⟨rfl, rfl⟩ | h | h
    · rw [madeIn_anew_self sub hsrc.1, madeIn_anew_of_notMem rest hk hsrc.2, List.append_nil]
    · have hmem := mem_keys_of_folders h
      rw [ihsub hsrc.1 hnodupsub h,
        madeIn_anew_of_notMem rest hk fun hm => hdisjoint k hmem k hm rfl, List.append_nil]
    · have hmem := mem_keys_of_folders h
      have hksrc : k ≠ src.id := by
        rintro rfl
        exact hsrc.2 hmem
      rw [madeIn_anew_of_notMem sub' hksrc fun hm => hdisjoint k hm k hmem rfl,
        ihrest hu.2.2 hnoduprest h, List.nil_append]

theorem madeIn_anew_none (f : Forest) : ∀ under : String, madeIn none (f.anew under) = [] := by
  induction f with
  | nil => exact fun _ => rfl
  | file src rest ih =>
    intro under
    exact (madeIn_cons_of_ne fun l hl => copying_under src none l hl ▸ nofun).trans (ih under)
  | link src target rest ih =>
    intro under
    exact (madeIn_cons_of_ne fun l hl => copying_under target _ l hl ▸ nofun).trans (ih under)
  | broken src rest ih =>
    intro under
    exact (madeIn_cons_none rfl).trans (ih under)
  | folder src sub rest ihsub ihrest =>
    intro under
    refine (madeIn_cons_of_ne fun l hl => made_under src l hl ▸ nofun).trans ?_
    rw [madeIn_append, ihsub, ihrest, List.append_nil]

theorem keeping_anew (f : Forest) : ∀ under : String,
    (f.anew under).filterMap Effect.keeping = [] := by
  have hcopying (under : String) (src : DriveFile) (shortcutId : Option String) :
      (copying under src shortcutId).keeping = none := by
    unfold copying
    split_ifs
    · rfl
    · rfl
  induction f with
  | nil => exact fun _ => rfl
  | file src rest ih =>
    intro under
    rw [anew, List.filterMap_cons_none (hcopying _ _ _), ih]
  | link src target rest ih =>
    intro under
    rw [anew, List.filterMap_cons_none (hcopying _ _ _), ih]
  | broken src rest ih =>
    intro under
    rw [anew, List.filterMap_cons_none rfl, ih]
  | folder src sub rest ihsub ihrest =>
    intro under
    rw [anew, List.filterMap_cons_none rfl, List.filterMap_append, ihsub, ihrest, List.append_nil]

end Forest

section

variable {sv : Server} {cp : Copier} {d : Drive}

/-- A file meets an empty index. -/
theorem settle_empty (under : String) (src : DriveFile) (shortcutId : Option String) :
    cp.settle {} under src shortcutId = (Forest.copying under src shortcutId, {}) := by
  have hpop : DestinationIndex.popMatch {} src cp.config.verifyMode cp.config.allowNameOnly
      (orElse shortcutId src.id) = (none, {}) := by
    have hkey (eff : String) : DestinationIndex.popByAppProp {} eff = (none, {}) := by
      unfold DestinationIndex.popByAppProp
      split_ifs
      · rfl
      · rfl
    have hname : DestinationIndex.nameMatch cp.config.verifyMode cp.config.allowNameOnly src
        (DestinationIndex.named {} src.name) = none := by
      unfold DestinationIndex.nameMatch
      cases cp.config.verifyMode <;> simp [DestinationIndex.named]
    unfold DestinationIndex.popMatch
    dsimp only
    rw [hkey]
    dsimp only
    rw [hname]
  unfold Copier.settle Forest.copying
  rw [hpop]
  dsimp only
  split_ifs
  · rfl
  · rfl

/-- Without a place in the destination everything is made anew. -/
theorem walk_anew (f : Forest) : ∀ under : String,
    f.walk (sv.guide cp d) under none {} = f.anew under := by
  induction f with
  | nil => exact fun _ => rfl
  | file src rest ih =>
    intro under
    have hsettle : (sv.guide cp d).settle {} under src none = _ := settle_empty under src none
    rw [Forest.walk, hsettle, Forest.anew, ih]
  | link src target rest ih =>
    intro under
    have hsettle : (sv.guide cp d).settle {} under target (some src.id) = _ :=
      settle_empty under target (some src.id)
    rw [Forest.walk, hsettle, Forest.anew, ih]
  | broken src rest ih =>
    intro under
    rw [Forest.walk, Forest.anew, ih]
  | folder src sub rest ihsub ihrest =>
    intro under
    have hhome : (sv.guide cp d).home none src = none := rfl
    have hshelf : (sv.guide cp d).shelf none = {} := rfl
    rw [Forest.walk, Forest.anew, Forest.placing, hhome, hshelf]
    dsimp only
    rw [ihsub, ihrest]

end

/-! ## Mirrors -/

/-- The live items of a folder. -/
def Drive.inside (d : Drive) (p : String) : List Node := d.nodes.filter fun n => n.liveIn p

/-- A copy of a file, as the tool makes it. Its bytes are those of the file, unless one of them has
a name of the resume store. -/
structure Node.CopyOf (base : Drive) (m : Node) (src : DriveFile) (shortcutId : Option String) :
    Prop where
  name : m.file.name = src.name
  mimeType : m.file.mimeType = src.mimeType
  props : m.file.appProperties = copyProps src shortcutId
  bytes : ∃ n ∈ base, n.id = src.id ∧ (isStoreName n.file.name = false →
    isStoreName src.name = false → m.file.size = n.file.size ∧
      m.file.md5Checksum = n.file.md5Checksum ∧ m.content = n.content)

/-- The folder that is made for a source folder. -/
structure Node.FolderFor (m : Node) (key name : String) : Prop where
  name : m.file.name = name
  folder : m.isFolder = true
  props : m.file.appProperties = folderProps key none

/-- The items hold a copy of each file of the forest that is not too large, of the target of each
shortcut that has one, and of each folder with its contents, and nothing else. -/
def Drive.Mirrors (base d : Drive) : Forest → List Node → Prop
  | .nil, ns => ns = []
  | .file src rest, ns =>
    if tooLarge src then Mirrors base d rest ns
    else ∃ m ms, ns.Perm (m :: ms) ∧ m.CopyOf base src none ∧ Mirrors base d rest ms
  | .link src target rest, ns =>
    if tooLarge target then Mirrors base d rest ns
    else ∃ m ms, ns.Perm (m :: ms) ∧ m.CopyOf base target (some src.id) ∧ Mirrors base d rest ms
  | .broken _ rest, ns => Mirrors base d rest ns
  | .folder src sub rest, ns => ∃ m ms, ns.Perm (m :: ms) ∧ m.FolderFor src.id src.name ∧
      Mirrors base d sub (d.inside m.id) ∧ Mirrors base d rest ms

section

variable {base d : Drive} {R : Label → Node → Prop}

theorem Drive.Mirrors.perm {f : Forest} : ∀ {ns ns' : List Node}, base.Mirrors d f ns → ns'.Perm ns →
    base.Mirrors d f ns' := by
  induction f with
  | nil =>
    rintro ns ns' rfl hperm
    exact hperm.eq_nil
  | file src rest ih =>
    intro ns ns' h hperm
    unfold Drive.Mirrors at h ⊢
    split_ifs at h ⊢
    · exact ih h hperm
    · obtain ⟨m, ms, hns, h⟩ := h
      exact ⟨m, ms, hperm.trans hns, h⟩
  | link src target rest ih =>
    intro ns ns' h hperm
    unfold Drive.Mirrors at h ⊢
    split_ifs at h ⊢
    · exact ih h hperm
    · obtain ⟨m, ms, hns, h⟩ := h
      exact ⟨m, ms, hperm.trans hns, h⟩
  | broken src rest ih => exact fun h hperm => ih h hperm
  | folder src sub rest _ _ =>
    rintro ns ns' ⟨m, ms, hns, h⟩ hperm
    exact ⟨m, ms, hperm.trans hns, h⟩

/-- The files of a forest, with the shortcuts through which they are found. -/
def Forest.items : Forest → List (DriveFile × Option String)
  | .nil => []
  | .file src rest => (src, none) :: rest.items
  | .link src target rest => (target, some src.id) :: rest.items
  | .broken _ rest => rest.items
  | .folder _ sub rest => sub.items ++ rest.items

/-- The copy of a file, if it is made, and the other items. -/
theorem leaf_mirrors {src : DriveFile} {shortcutId : Option String} {under : String}
    {ls : List Label} {ns : List Node} {P : List Node → Prop}
    (hcopy : ∀ l n, R l n → (Forest.copying under src shortcutId).label = some l →
      n.CopyOf base src shortcutId) (hrest : ∀ ms, List.Forall₂ R ls ms → P ms)
    (h : List.Forall₂ R ((Forest.copying under src shortcutId).label.toList ++ ls) ns) :
    if tooLarge src then P ns
    else ∃ m ms, ns.Perm (m :: ms) ∧ m.CopyOf base src shortcutId ∧ P ms := by
  unfold Forest.copying at hcopy h
  split_ifs at hcopy h ⊢
  · exact hrest ns h
  · obtain ⟨m, ms, hm, hms, rfl⟩ := List.forall₂_cons_left_iff.mp h
    exact ⟨m, ms, .refl _, hcopy _ m hm rfl, hrest ms hms⟩

/-- Items that realize the labels of each folder are a mirror. -/
theorem mirrors_of_tiers (f : Forest) : ∀ {under : String} {ns : List Node},
    (∀ src shortcutId, (src, shortcutId) ∈ f.items → ∀ u l n, R l n →
      (Forest.copying u src shortcutId).label = some l → n.CopyOf base src shortcutId) →
    (∀ u src l n, R l n → (Effect.made u src).label = some l → n.FolderFor src.id src.name) →
    (∀ k sub, (k, sub) ∈ f.folders → ∃ P, (∀ l n, R l n → l.key = some k → n.id = P) ∧
      ∃ ms, (d.inside P).Perm ms ∧ List.Forall₂ R (sub.tier k) ms) →
    List.Forall₂ R (f.tier under) ns → base.Mirrors d f ns := by
  induction f with
  | nil =>
    intro under ns _ _ _ h
    exact List.forall₂_nil_left_iff.mp h
  | file src rest ih =>
    intro under ns hcopy hfolder hsub h
    apply leaf_mirrors (hcopy src none List.mem_cons_self under) _ h
    exact fun ms hms => ih (fun s i hs => hcopy s i (List.mem_cons_of_mem _ hs)) hfolder hsub hms
  | link src target rest ih =>
    intro under ns hcopy hfolder hsub h
    apply leaf_mirrors (hcopy target (some src.id) List.mem_cons_self under) _ h
    exact fun ms hms => ih (fun s i hs => hcopy s i (List.mem_cons_of_mem _ hs)) hfolder hsub hms
  | broken src rest ih =>
    intro under ns hcopy hfolder hsub h
    exact ih hcopy hfolder hsub h
  | folder src sub rest ihsub ihrest =>
    intro under ns hcopy hfolder hsub h
    obtain ⟨m, ms, hm, hms, rfl⟩ := List.forall₂_cons_left_iff.mp h
    refine ⟨m, ms, .refl _, hfolder _ src _ m hm rfl, ?_, ?_⟩
    · obtain ⟨P, hP, ns, hns, htier⟩ := hsub src.id sub List.mem_cons_self
      rw [hP _ m hm rfl]
      apply Drive.Mirrors.perm _ hns
      apply ihsub (fun s i hs => hcopy s i (List.mem_append_left _ hs)) hfolder _ htier
      exact fun k f hk => hsub k f (List.mem_cons_of_mem _ (List.mem_append_left _ hk))
    · apply ihrest (fun s i hs => hcopy s i (List.mem_append_right _ hs)) hfolder _ hms
      exact fun k f hk => hsub k f (List.mem_cons_of_mem _ (List.mem_append_right _ hk))

end

/-! ## Related lists -/

theorem forall₂_exists_left {α β : Type} {R : α → β → Prop} {xs : List α} {ys : List β}
    (h : List.Forall₂ R xs ys) {y : β} (hy : y ∈ ys) : ∃ x ∈ xs, R x y := by
  induction h with
  | nil => exact absurd hy List.not_mem_nil
  | cons hxy _ ih =>
    rcases List.mem_cons.mp hy with rfl | hy
    · exact ⟨_, List.mem_cons_self, hxy⟩
    · obtain ⟨x, hx, hxy⟩ := ih hy
      exact ⟨x, List.mem_cons_of_mem _ hx, hxy⟩

theorem forall₂_parts {α β : Type} {R : α → β → Prop} {xs xs' : List α} {ys : List β}
    (h : List.Forall₂ R (xs ++ xs') ys) : ∃ zs zs', ys = zs ++ zs' ∧ List.Forall₂ R xs zs ∧
      List.Forall₂ R xs' zs' :=
  ⟨ys.take xs.length, ys.drop xs.length, (List.take_append_drop _ _).symm,
    (List.forall₂_take_append _ _ _ h.flip).flip, (List.forall₂_drop_append _ _ _ h.flip).flip⟩

/-! ## What a course has made -/

namespace Course

variable {c : Course} {K O : Set String} {M : List Effect} {G : Growth} {g : Gist} {d : Drive}

theorem Grown.nodes_eq (h : c.Grown K O M G g d) (hown : c.own = none) :
    d.nodes = G.new ++ c.base.nodes := by
  rw [h.nodes]
  congr 1
  calc c.base.nodes.map G.patch = c.base.nodes.map fun n => n :=
        List.map_congr_left fun n hn => h.spared n hn (.inl (hown ▸ (Option.some_ne_none _).symm))
    _ = c.base.nodes := List.map_id _

/-- The labels of what is new in a folder. -/
def labelsIn (c : Course) (M : List Effect) (G : Growth) (u : Option String) : List Label :=
  Forest.madeIn u M ++ if G.logged = true ∧ u = some c.root then [c.logLabel] else []

theorem Grown.labels_filter (h : c.Grown K O M G g d) (u : Option String) :
    (G.labels.filter fun l => l.under = u).Perm (c.labelsIn M G u) := by
  have hperm := h.labels.filter fun l => decide (l.under = u)
  rw [List.filter_append] at hperm
  refine hperm.trans (.of_eq ?_)
  unfold labelsIn Forest.madeIn
  congr 1
  by_cases hlog : G.logged = true
  · by_cases hu : u = some c.root
    · subst hu
      simp [hlog, logLabel]
    · simp [hlog, hu, logLabel, Ne.symm hu]
  · simp [hlog]

/-- When nothing is kept, each folder that is placed is new. -/
theorem Grown.home_new (h : c.Grown K O M G g d) (hkeep : M.filterMap Effect.keeping = [])
    {k : String} (hk : k ∈ K) : ∃ P, c.Berth g d k P ∧ c.base.Fresh P ∧
      ∀ l n, c.Realizes g.folderMap l n → l.key = some k → n.id = P := by
  obtain ⟨P, hP⟩ := h.berths k hk
  have hid : ∀ l n, c.Realizes g.folderMap l n → l.key = some k → n.id = P := by
    intro l n hl hkey
    exact Option.some.inj ((hl.key k hkey).symm.trans hP.place)
  refine ⟨P, hP, ?_, hid⟩
  rcases h.placed k hk with ⟨P', hkept⟩ | ⟨l, hl, hkey⟩
  · rw [hkeep] at hkept
    exact absurd hkept List.not_mem_nil
  · obtain ⟨i, hi, rfl⟩ := List.mem_iff_getElem.mp hl
    have hlen := h.realized.length_eq
    have hreal := List.Forall₂.get h.realized hi (by omega)
    rw [← hid _ _ hreal hkey]
    exact h.fresh _ (List.getElem_mem _)

/-- The new items of a place are those that were made in it. -/
theorem Grown.new_inside (h : c.Grown K O M G g d) (u : Option String) {P : String}
    (hplace : ∀ v, (∀ k, v = some k → k ∈ K) → (c.placeOf g.folderMap v = some P ↔ v = u)) :
    ∃ ms, (G.new.filter fun n => n.liveIn P).Perm ms ∧
      List.Forall₂ (c.Realizes g.folderMap) (c.labelsIn M G u) ms := by
  have hknown : List.Forall₂ (fun l n => Known K O l ∧ c.Realizes g.folderMap l n) G.labels G.new :=
    (List.forall₂_and_left _ _).mpr ⟨h.known, h.realized⟩
  have hfilter : List.Forall₂ (fun l n => Known K O l ∧ c.Realizes g.folderMap l n)
      (G.labels.filter fun l => l.under = u) (G.new.filter fun n => n.liveIn P) := by
    apply List.rel_filter _ hknown
    rintro l n ⟨hl, hreal⟩
    obtain ⟨Q, hQ, hparents⟩ := hreal.parents
    have hlive : n.liveIn P = true ↔ P = Q := by
      simp [Node.liveIn, hparents, hreal.live]
    dsimp only
    rw [hlive, decide_eq_true_eq, ← hplace l.under hl.under, hQ, Option.some_inj, eq_comm]
  obtain ⟨ms, hms, hperm⟩ := List.perm_comp_forall₂ (h.labels_filter u).symm
    (List.Forall₂.imp (fun _ _ h => h.2) hfilter)
  exact ⟨ms, hperm.symm, hms⟩

/-- A new folder is in no place but its own. -/
theorem Grown.placeOf_berth (h : c.Grown K O M G g d) (hc : c.Clear) {k P : String}
    (hP : c.Berth g d k P) (hfresh : c.base.Fresh P) (v : Option String)
    (hv : ∀ k, v = some k → k ∈ K) : c.placeOf g.folderMap v = some P ↔ v = some k := by
  cases v with
  | none =>
    refine ⟨fun he => ?_, nofun⟩
    obtain rfl : c.destParent = P := Option.some.inj he
    obtain ⟨n, hn, hid⟩ := hc.parentHas
    exact absurd hid (hfresh.2 n hn).1
  | some u =>
    obtain ⟨Q, hQ⟩ := h.berths u (hv u rfl)
    have hplace : c.placeOf g.folderMap (some u) = some Q := hQ.place
    rw [hplace, Option.some_inj, Option.some_inj]
    constructor
    · rintro rfl
      exact berth_inj hQ hP
    · rintro rfl
      exact Option.some.inj (hQ.place.symm.trans hP.place)

/-- The items of a new folder are those that were made in it. -/
theorem Grown.inside_home (h : c.Grown K O M G g d) (hc : c.Clear) (hown : c.own = none)
    {k P : String} (hP : c.Berth g d k P) (hfresh : c.base.Fresh P) :
    ∃ ms, (d.inside P).Perm ms ∧
      List.Forall₂ (c.Realizes g.folderMap) (c.labelsIn M G (some k)) ms := by
  have hold : c.base.nodes.filter (fun n => n.liveIn P) = [] := by
    apply List.filter_eq_nil_iff.mpr
    intro n hn hlive
    simp only [Node.liveIn, Bool.and_eq_true, decide_eq_true_eq] at hlive
    exact (hfresh.2 n hn).2.1 hlive.2
  rw [Drive.inside, h.nodes_eq hown, List.filter_append, hold, List.append_nil]
  exact h.new_inside (some k) (h.placeOf_berth hc hP hfresh)

theorem Grown.old_or_new (h : c.Grown K O M G g d) (hown : c.own = none) :
    ∀ n ∈ d, n ∈ c.base ∨ c.base.Fresh n.id ∧ ∃ p, n.file.parents = [p] := by
  intro n hn
  have hn : n ∈ d.nodes := hn
  rw [h.nodes_eq hown] at hn
  rcases List.mem_append.mp hn with hn | hn
  · obtain ⟨p, hp, -⟩ := h.new_parents hn
    exact .inr ⟨h.fresh n hn, p, hp⟩
  · exact .inl hn

/-- When nothing is kept, no folder that was there has anything new, but the destination parent. -/
theorem Grown.inside_other (h : c.Grown K O M G g d) (hown : c.own = none)
    (hkeep : M.filterMap Effect.keeping = []) {p : String} (hp : p ≠ c.destParent)
    (hold : ¬c.base.Fresh p) : d.inside p = c.base.inside p := by
  have hnone : G.new.filter (fun n => n.liveIn p) = [] := by
    apply List.filter_eq_nil_iff.mpr
    intro n hn hlive
    obtain ⟨P, hP, hplace⟩ := h.new_parents hn
    simp only [Node.liveIn, hP, List.mem_singleton, Bool.and_eq_true, decide_eq_true_eq] at hlive
    obtain rfl := hlive.2
    rcases hplace with rfl | ⟨u, hu, hberth⟩
    · exact hp rfl
    · obtain ⟨Q, hQ, hfresh, -⟩ := h.home_new hkeep hu
      obtain rfl : p = Q := Option.some.inj (hberth.place.symm.trans hQ.place)
      exact hold hfresh
  rw [Drive.inside, h.nodes_eq hown, List.filter_append, hnone, List.nil_append]
  rfl

/-- In the destination parent there is in addition what was made in it. -/
theorem Grown.inside_parent (h : c.Grown K O M G g d) (hc : c.Clear) (hown : c.own = none)
    (hkeep : M.filterMap Effect.keeping = []) :
    ∃ ms, (d.inside c.destParent).Perm (ms ++ c.base.inside c.destParent) ∧
      List.Forall₂ (c.Realizes g.folderMap) (c.labelsIn M G none) ms := by
  have hplace (v : Option String) (hv : ∀ k, v = some k → k ∈ K) :
      c.placeOf g.folderMap v = some c.destParent ↔ v = none := by
    cases v with
    | none => exact iff_of_true rfl rfl
    | some u =>
      obtain ⟨Q, hQ, hfresh, -⟩ := h.home_new hkeep (hv u rfl)
      refine iff_of_false (fun he => ?_) nofun
      obtain rfl : Q = c.destParent := Option.some.inj (hQ.place.symm.trans he)
      obtain ⟨n, hn, hid⟩ := hc.parentHas
      exact (hfresh.2 n hn).1 hid
  obtain ⟨ms, hms, hreal⟩ := h.new_inside none hplace
  refine ⟨ms, ?_, hreal⟩
  rw [Drive.inside, h.nodes_eq hown, List.filter_append]
  exact hms.append_right _

end Course

/-! ## The end of the run -/

/-- A file of the resume store, as a cleanup looks for it. -/
def Node.isStored (n : Node) : Bool := isOwned (n.file.view listFields) && isStoreName n.file.name

section

variable {sv : Server} {d d' : Drive} {P R : String}

/-- What is trashed is no longer in a folder. -/
theorem inside_trash (d : Drive) (id p : String) :
    (d.trash id).inside p = (d.inside p).filter fun n => n.id ≠ id := by
  unfold Drive.inside
  change (d.nodes.map _).filter _ = _
  induction d.nodes with
  | nil => rfl
  | cons n ns ih =>
    rw [List.map_cons, List.filter_cons, List.filter_cons, ih]
    by_cases hid : n.id = id
    · have hgone : Node.liveIn ⟨{ n.file with trashed := true }, n.content⟩ p = false := rfl
      rw [if_pos hid, hgone, if_neg Bool.false_ne_true]
      by_cases hlive : n.liveIn p = true
      · rw [if_pos hlive, List.filter_cons, if_neg (by simpa using hid)]
      · rw [if_neg hlive]
    · rw [if_neg hid]
      by_cases hlive : n.liveIn p = true
      · rw [if_pos hlive, if_pos hlive, List.filter_cons, if_pos (by simpa using hid)]
      · rw [if_neg hlive, if_neg hlive]

theorem inside_foldl_trash (ids : List String) (p : String) : ∀ d : Drive,
    (ids.foldl Drive.trash d).inside p = (d.inside p).filter fun n => n.id ∉ ids := by
  induction ids with
  | nil => exact fun d => by simp
  | cons id ids ih =>
    intro d
    rw [List.foldl_cons, ih, inside_trash, List.filter_filter]
    apply List.filter_congr
    intro n _
    simp [Bool.and_comm]

/-- What a cleanup trashes. -/
theorem mem_storeIds {R : String} {n : Node} (hn : n ∈ d) :
    n.id ∈ Server.storeIds (sv.folderFiles d R none) ↔ (n.liveIn R && n.isStored) = true := by
  simp only [Server.storeIds, Server.folderFiles, List.mem_map, List.mem_filter]
  constructor
  · rintro ⟨_, ⟨⟨m, hm, rfl⟩, hstored⟩, hid⟩
    obtain ⟨hm, hlive⟩ := List.mem_filter.mp hm
    obtain rfl := Drive.eq_of_id hm hn hid
    exact Bool.and_eq_true_iff.mpr ⟨(Bool.and_eq_true_iff.mp hlive).1, hstored⟩
  · intro h
    obtain ⟨hlive, hstored⟩ := Bool.and_eq_true_iff.mp h
    refine ⟨_, ⟨⟨n, ?_, rfl⟩, hstored⟩, rfl⟩
    exact List.mem_filter.mpr ⟨hn, by simp [hlive]⟩

/-- A cleanup takes the files of the store out of the destination root. -/
theorem inside_swept (d : Drive) (R p : String) :
    (sv.swept d R).inside p = (d.inside p).filter fun n => !(n.liveIn R && n.isStored) := by
  unfold Server.swept
  rw [inside_foldl_trash]
  apply List.filter_congr
  intro n hn
  simp only [mem_storeIds (List.mem_of_mem_filter hn)]
  cases n.liveIn R && n.isStored <;> rfl

theorem mem_foldl_trash {n : Node} (ids : List String) (hid : n.id ∉ ids) : ∀ d : Drive, n ∈ d →
    n ∈ ids.foldl Drive.trash d := by
  induction ids with
  | nil => exact fun _ h => h
  | cons id ids ih =>
    intro d hn
    rw [List.mem_cons, not_or] at hid
    exact ih hid.2 _ (Drive.mem_edit.mpr ⟨n, hn, if_neg hid.1⟩)

theorem isStored_of_tool {n : Node} (hname : isStoreName n.file.name = true)
    (hprops : n.file.appProperties = toolProps) : n.isStored = true := by
  have howned : isOwned (n.file.view listFields) = true := by
    change decide (AList.lookup "copied_by_tool" n.file.appProperties = some toolTag) = true
    rw [hprops]
    decide
  rw [Node.isStored, howned, hname]
  rfl

theorem of_mem_foldl_trash {n : Node} (ids : List String) : ∀ d : Drive,
    n ∈ ids.foldl Drive.trash d → ∃ m ∈ d, m.core = n.core ∧ (m = n ∨ m.id ∈ ids) := by
  induction ids with
  | nil => exact fun d hn => ⟨n, hn, rfl, .inl rfl⟩
  | cons id ids ih =>
    intro d hn
    obtain ⟨m, hm, hcore, hsame⟩ := ih _ hn
    obtain ⟨k, hk, rfl⟩ := Drive.mem_edit.mp hm
    by_cases hkid : k.id = id
    · rw [if_pos hkid] at hcore
      exact ⟨k, hk, hcore, .inr (hkid ▸ List.mem_cons_self)⟩
    · rw [if_neg hkid] at hcore hsame
      exact ⟨k, hk, hcore, hsame.imp_right (List.mem_cons_of_mem id)⟩

/-- What the end of a run leaves of the Drive, when there was no report of failures: after a run
that went fully well the files of the store are gone, and otherwise there may be one more. -/
structure Concluded (r : CopyResult) (d : Drive) (R : String) (d' : Drive) : Prop where
  kept : ∀ n ∈ d, n.liveIn R = false → n ∈ d'
  origin : ∀ n ∈ d', (∃ m ∈ d, m.core = n.core ∧ (m = n ∨ m.liveIn R = true)) ∨
    d.Fresh n.id ∧ n.file.parents = [R]
  others : ∀ P, P ≠ R → (∀ n ∈ d.inside P, n.liveIn R = false) → d'.inside P = d.inside P
  root : if r.fullyOk then d'.inside R = (d.inside R).filter fun n => !n.isStored
    else ∃ es, d'.inside R = es ++ d.inside R ∧ ∀ n ∈ es, n.isStored = true

theorem Concluded.of_settled {r : CopyResult} (h : sv.Settled r false d (some R) d')
    (hreport : sv.reportIn d R = none) : Concluded r d R d' := by
  unfold Server.Settled at h
  dsimp only at h
  by_cases hok : r.fullyOk = true
  · rw [if_pos hok] at h
    subst h
    have hstored : ∀ n ∈ d, n.id ∈ Server.storeIds (sv.folderFiles d R none) →
        n.liveIn R = true := fun n hn hid => (Bool.and_eq_true_iff.mp ((mem_storeIds hn).mp hid)).1
    refine ⟨fun n hn hlive => ?_, fun n hn => ?_, fun P _ hP => ?_, ?_⟩
    · apply mem_foldl_trash _ _ d hn
      intro hid
      rw [hstored n hn hid] at hlive
      cases hlive
    · obtain ⟨m, hm, hcore, hsame⟩ := of_mem_foldl_trash _ d hn
      exact .inl ⟨m, hm, hcore, hsame.imp_right (hstored m hm)⟩
    · rw [inside_swept]
      apply List.filter_eq_self.mpr
      intro n hn
      simp [hP n hn]
    · rw [if_pos hok, inside_swept]
      apply List.filter_congr
      intro n hn
      rw [(List.mem_filter.mp hn).2, Bool.true_and]
  · rw [if_neg hok] at h
    rw [Bool.not_false, Bool.and_true] at h
    split_ifs at h
    · cases h with
      | overwritten hfound => rw [hreport] at hfound; cases hfound
      | made _ n hf hn =>
        have hstored : n.isStored = true :=
          isStored_of_tool (by rw [hn.name]; decide) hn.props
        have hinside (P : String) : (d.add n hf).inside P =
            (if P = R then [n] else []) ++ d.inside P := by
          have hlive : n.liveIn P = decide (P = R) := by
            simp [Node.liveIn, hn.live, hn.parents]
          unfold Drive.inside
          change (n :: d.nodes).filter _ = _
          rw [List.filter_cons, hlive]
          by_cases hPR : P = R
          · simp [hPR]
          · simp [hPR]
        refine ⟨fun m hm _ => Drive.mem_add.mpr (.inr hm), fun m hm => ?_, fun P hPR _ => ?_, ?_⟩
        · rcases Drive.mem_add.mp hm with rfl | hm
          · exact .inr ⟨hf, hn.parents⟩
          · exact .inl ⟨m, hm, rfl, .inl rfl⟩
        · rw [hinside, if_neg hPR, List.nil_append]
        · rw [if_neg hok]
          refine ⟨[n], ?_, ?_⟩
          · rw [hinside, if_pos rfl]
          · intro m hm
            rwa [List.mem_singleton.mp hm]
    · subst h
      refine ⟨fun n hn _ => hn, fun n hn => .inl ⟨n, hn, rfl, .inl rfl⟩, fun _ _ _ => rfl, ?_⟩
      rw [if_neg hok]
      exact ⟨[], rfl, by simp⟩

end

/-- A new copy of a source folder in the destination parent: nothing that was there has changed,
no other folder has received anything, and the new folder holds a mirror of the source beside the
files of the store, which are gone after a run that went fully well. -/
structure Drive.Received (base d : Drive) (destParent root name : String) (f : Forest) (ok : Bool) :
    Prop where
  kept : ∀ n ∈ base, n ∈ d
  added : ∀ n ∈ d, n ∈ base ∨ base.Fresh n.id ∧ ∃ p, n.file.parents = [p]
  others : ∀ p, p ≠ destParent → ¬base.Fresh p → d.inside p = base.inside p
  copy : ∃ m ∈ d, base.Fresh m.id ∧ m.FolderFor root name ∧
    (d.inside destParent).Perm (m :: base.inside destParent) ∧
    ∃ ms es, (d.inside m.id).Perm (es ++ ms) ∧ base.Mirrors d f ms ∧
      (∀ n ∈ es, n.isStored = true) ∧ (ok = true → es = [])

namespace Course

variable {c : Course} {K O : Set String} {M : List Effect} {G : Growth} {g : Gist} {d d' : Drive}
  {r : CopyResult} {name : String} {f : Forest}

/-- The effects of a run that makes a folder and everything below it. -/
structure Makes (c : Course) (name : String) (f : Forest) (M : List Effect) : Prop where
  keeping : M.filterMap Effect.keeping = []
  parent : (Forest.madeIn none M).Perm (Effect.made none (c.rootFolder name)).label.toList
  root : (Forest.madeIn (some c.root) M).Perm (f.tier c.root)
  folders : ∀ k sub, (k, sub) ∈ f.folders → (Forest.madeIn (some k) M).Perm (sub.tier k)

/-- The items of a new folder, which are all new. -/
theorem Grown.tier_inside (h : c.Grown K O M G g d) (hc : c.Clear) (hown : c.own = none)
    (hkeep : M.filterMap Effect.keeping = []) {k : String} (hk : k ∈ K) {ls : List Label}
    (hls : (c.labelsIn M G (some k)).Perm ls) : ∃ P, c.Berth g d k P ∧ c.base.Fresh P ∧
      (∀ l n, c.Realizes g.folderMap l n → l.key = some k → n.id = P) ∧
      ∃ ms, (d.inside P).Perm ms ∧ List.Forall₂ (c.Realizes g.folderMap) ls ms ∧
        ∀ n ∈ ms, c.base.Fresh n.id ∧ n.file.parents = [P] := by
  obtain ⟨P, hP, hfresh, hid⟩ := h.home_new hkeep hk
  obtain ⟨ms, hms, hreal⟩ := h.inside_home hc hown hP hfresh
  obtain ⟨ns, hns, hperm⟩ := List.perm_comp_forall₂ hls.symm hreal
  refine ⟨P, hP, hfresh, hid, ns, hms.trans hperm.symm, hns, fun n hn => ?_⟩
  have hn : n ∈ d.inside P := hms.mem_iff.mpr (hperm.mem_iff.mp hn)
  obtain ⟨hn, hlive⟩ := List.mem_filter.mp hn
  simp only [Node.liveIn, Bool.and_eq_true, decide_eq_true_eq] at hlive
  rcases h.cases_mem hn with hn | ⟨m, hm, rfl⟩
  · obtain ⟨Q, hQ, -⟩ := h.new_parents hn
    refine ⟨h.fresh n hn, ?_⟩
    rw [hQ, List.mem_singleton] at hlive
    rw [hQ, hlive.2]
  · have hmem : P ∈ m.file.parents := by
      have hparents : (G.patch m).file.parents = m.file.parents := by rw [h.patched m hm]
      rw [← hparents]
      exact hlive.2
    exact absurd hmem (hfresh.2 m hm).2.1

theorem logNameFor_ne_report (account : Option String) : logNameFor account ≠ failedReportName := by
  intro he
  have hlog := startsWith_logNameFor account
  rw [he] at hlog
  exact absurd hlog (by decide)

theorem isStoreName_report : isStoreName failedReportName = true := by decide

theorem isStoreName_logNameFor (account : Option String) : isStoreName (logNameFor account) = true := by
  rw [isStoreName, startsWith_logNameFor, Bool.true_or]

/-- The items of the destination root: those of the source, and a log. -/
structure AtRoot (c : Course) (f : Forest) (g : Gist) (d : Drive) (R : String)
    (ns ls : List Node) : Prop where
  items : (d.inside R).Perm (ls ++ ns)
  realized : List.Forall₂ (c.Realizes g.folderMap) (f.tier c.root) ns
  named : ∀ n ∈ ns, isStoreName n.file.name = false
  logs : ∀ n ∈ ls, n.isStored = true ∧ n.file.name ≠ failedReportName
  new : ∀ n ∈ d.inside R, c.base.Fresh n.id ∧ n.file.parents = [R]

theorem Grown.atRoot (h : c.Grown K O M G g d) (hc : c.Clear) (hown : c.own = none)
    (hlog : c.logName = logNameFor c.sv.account) (hM : c.Makes name f M) (hroot : c.root ∈ K)
    (hnames : ∀ l ∈ f.tier c.root, isStoreName l.name = false) :
    ∃ R, c.Berth g d c.root R ∧ c.base.Fresh R ∧
      (∀ l n, c.Realizes g.folderMap l n → l.key = some c.root → n.id = R) ∧
      ∃ ns ls, c.AtRoot f g d R ns ls := by
  let logs : List Label := if G.logged = true then [c.logLabel] else []
  have hlogs : ∀ l ∈ logs, l = c.logLabel := by
    intro l hl
    unfold logs at hl
    split_ifs at hl
    · exact List.mem_singleton.mp hl
    · exact absurd hl List.not_mem_nil
  have htop : (c.labelsIn M G (some c.root)).Perm (f.tier c.root ++ logs) := by
    unfold labelsIn
    simp only [and_true]
    exact hM.root.append_right _
  obtain ⟨R, hR, hfresh, hid, ms, hms, hreal, hnew⟩ := h.tier_inside hc hown hM.keeping hroot htop
  obtain ⟨ns, ls, rfl, hns, hls⟩ := forall₂_parts hreal
  refine ⟨R, hR, hfresh, hid, ns, ls, hms.trans List.perm_append_comm, hns, ?_, ?_, ?_⟩
  · intro n hn
    obtain ⟨l, hl, hreal⟩ := forall₂_exists_left hns hn
    rw [hreal.name]
    exact hnames l hl
  · intro n hn
    obtain ⟨l, hl, hreal⟩ := forall₂_exists_left hls hn
    obtain rfl := hlogs l hl
    have hname : n.file.name = logNameFor c.sv.account := hreal.name.trans hlog
    refine ⟨isStored_of_tool ?_ hreal.props, ?_⟩
    · rw [hname]
      exact isStoreName_logNameFor _
    · rw [hname]
      exact logNameFor_ne_report _
  · intro n hn
    exact hnew n (hms.mem_iff.mp hn)

theorem AtRoot.not_report {R : String} {ns ls : List Node} (h : c.AtRoot f g d R ns ls) :
    c.sv.reportIn d R = none := by
  have hno : ((c.sv.folderFiles d R none).find? fun f => f.name = failedReportName && isOwned f) =
      none := by
    apply List.find?_eq_none.mpr
    intro x hx hfound
    obtain ⟨n, hn, rfl⟩ := List.mem_map.mp hx
    obtain ⟨hn, hlisted⟩ := List.mem_filter.mp hn
    have hname : n.file.name = failedReportName :=
      of_decide_eq_true (Bool.and_eq_true_iff.mp hfound).1
    have hin : n ∈ d.inside R := List.mem_filter.mpr ⟨hn, (Bool.and_eq_true_iff.mp hlisted).1⟩
    rcases List.mem_append.mp (h.items.mem_iff.mp hin) with hn | hn
    · exact (h.logs n hn).2 hname
    · have hnot := h.named n hn
      rw [hname, isStoreName_report] at hnot
      cases hnot
  rw [Server.reportIn, hno]
  rfl

/-- The items of the destination root after the end of the run. -/
theorem AtRoot.concluded {R : String} {ns ls : List Node} (h : c.AtRoot f g d R ns ls)
    (hd : Concluded r d R d') : ∃ es, (d'.inside R).Perm (es ++ ns) ∧
      (∀ n ∈ es, n.isStored = true) ∧ (r.fullyOk = true → es = []) := by
  have hroot := hd.root
  split_ifs at hroot with hok
  · refine ⟨[], ?_, by simp, fun _ => rfl⟩
    rw [hroot]
    apply (h.items.filter _).trans
    rw [List.filter_append]
    have hls : ls.filter (fun n => !n.isStored) = [] := by
      apply List.filter_eq_nil_iff.mpr
      intro n hn
      simp [(h.logs n hn).1]
    have hns : ns.filter (fun n => !n.isStored) = ns := by
      apply List.filter_eq_self.mpr
      intro n hn
      simp [Node.isStored, h.named n hn]
    rw [hls, hns]
  · obtain ⟨es, hes, hstored⟩ := hroot
    refine ⟨es ++ ls, ?_, ?_, fun h => absurd h hok⟩
    · rw [hes, List.append_assoc]
      exact h.items.append_left es
    · intro n hn
      rcases List.mem_append.mp hn with hn | hn
      · exact hstored n hn
      · exact (h.logs n hn).1

/-- The items of the destination root are a mirror, when the other new folders have the items that
were made in them. -/
theorem Grown.mirrors (h : c.Grown K O M G g d) (hc : c.Clear) (hown : c.own = none)
    (hM : c.Makes name f M) {R : String} (hR : c.Berth g d c.root R)
    (hkeys : ∀ k ∈ f.keys, k ∈ K ∧ k ≠ c.root)
    (hsame : ∀ P, P ≠ R → c.base.Fresh P → d'.inside P = d.inside P)
    (hcopies : ∀ src shortcutId, (src, shortcutId) ∈ f.items → ∀ m ∈ d', c.base.Fresh m.id →
      m.file.name = src.name → m.file.mimeType = src.mimeType →
      m.file.appProperties = copyProps src shortcutId → m.CopyOf c.base src shortcutId)
    {ns : List Node} (hns : ∀ n ∈ ns, n ∈ d' ∧ c.base.Fresh n.id)
    (hreal : List.Forall₂ (c.Realizes g.folderMap) (f.tier c.root) ns) :
    c.base.Mirrors d' f ns := by
  have hboth {ls : List Label} {ms : List Node} (hms : ∀ n ∈ ms, n ∈ d' ∧ c.base.Fresh n.id)
      (hreal : List.Forall₂ (c.Realizes g.folderMap) ls ms) : List.Forall₂
        (fun l n => (n ∈ d' ∧ c.base.Fresh n.id) ∧ c.Realizes g.folderMap l n) ls ms :=
    ((List.forall₂_and_left _ _).mpr ⟨hms, hreal.flip⟩).flip
  apply mirrors_of_tiers f _ _ _ (hboth hns hreal)
  · rintro src shortcutId hitem u l n ⟨⟨hn, hfresh⟩, hreal⟩ hl
    unfold Forest.copying at hl
    split_ifs at hl
    · cases hl
    · cases hl
      exact hcopies src shortcutId hitem n hn hfresh hreal.name hreal.mimeType hreal.props
  · rintro u src l n ⟨-, hreal⟩ hl
    cases hl
    refine ⟨hreal.name, ?_, hreal.props⟩
    rw [Node.isFolder, hreal.mimeType]
    exact decide_eq_true rfl
  · intro k sub hsub
    obtain ⟨hk, hkroot⟩ := hkeys k (Forest.mem_keys_of_folders hsub)
    have htier : (c.labelsIn M G (some k)).Perm (sub.tier k) := by
      unfold labelsIn
      rw [if_neg fun hne => hkroot (Option.some.inj hne.2), List.append_nil]
      exact hM.folders k sub hsub
    obtain ⟨P, hP, hfresh, hid, ms, hms, hreal, hnew⟩ := h.tier_inside hc hown hM.keeping hk htier
    have hPR : P ≠ R := by
      rintro rfl
      exact hkroot (berth_inj hP hR)
    have hinside := hsame P hPR hfresh
    refine ⟨P, fun l n hl => hid l n hl.2, ms, hinside ▸ hms, hboth ?_ hreal⟩
    intro n hn
    refine ⟨?_, (hnew n hn).1⟩
    have hmem : n ∈ d'.inside P := hinside ▸ hms.mem_iff.mpr hn
    exact List.mem_of_mem_filter hmem

/-- A run without failures, old or new, goes fully well. -/
theorem Arrived.fullyOk (h : c.Arrived K O M r d) (hdry : c.dry = false) (hprior : c.prior = [])
    (hM : M.filterMap Effect.failure = []) : r.fullyOk = true := by
  have hmode : r.dryRun = false := h.mode.trans hdry
  have hsettled := h.settled
  rw [hdry, if_neg Bool.false_ne_true] at hsettled
  obtain ⟨hsaved, hprevious, -⟩ := hsettled
  have hnone : r.failedItems = [] := by
    have hfailed := h.shows_.failed
    rw [Tally.of, hM] at hfailed
    exact List.map_eq_nil_iff.mp hfailed
  have hempty : r.previousFailedItems = [] := by
    rw [hprevious, hprior]
    rfl
  simp [CopyResult.fullyOk, CopyResult.hasFailures, h.completed, h.listed, hmode, hsaved, hnone,
    hempty]

/-- A run that has made a folder and everything below it leaves a new copy of the source. -/
theorem Arrived.received (h : c.Arrived K O M r d) (hc : c.Clear) (hdry : c.dry = false)
    (hown : c.own = none) (hlog : c.logName = logNameFor c.sv.account) (hM : c.Makes name f M)
    (hroot : c.root ∈ K) (hkeys : ∀ k ∈ f.keys, k ∈ K ∧ k ≠ c.root)
    (hnames : ∀ l ∈ f.tier c.root, isStoreName l.name = false)
    (hbytes : ∀ src shortcutId, (src, shortcutId) ∈ f.items → ∀ m ∈ d, c.base.Fresh m.id →
      m.file.name = src.name → m.file.mimeType = src.mimeType →
      m.file.appProperties = copyProps src shortcutId → m.CopyOf c.base src shortcutId) :
    c.base.Received d c.destParent c.root name f r.fullyOk := by
  have hsettled := h.settled
  rw [hdry, if_neg Bool.false_ne_true] at hsettled
  obtain ⟨-, -, g, G, d', R, hG, -, hR, hsettled⟩ := hsettled
  obtain ⟨R', hberth, hfresh, hid, ns, ls, hat⟩ := hG.atRoot hc hown hlog hM hroot hnames
  obtain rfl : R = R' := Option.some.inj (hR.symm.trans hberth.place)
  have hd := Concluded.of_settled hsettled hat.not_report
  obtain ⟨es, hes, hstored, hok⟩ := hat.concluded hd
  have hapart {P : String} (hP : P ≠ R) : ∀ n ∈ d'.inside P, n.liveIn R = false := by
    intro n hn
    by_contra hlive
    obtain ⟨hn, hliveP⟩ := List.mem_filter.mp hn
    have hparents := (hat.new n (List.mem_filter.mpr ⟨hn, by simpa using hlive⟩)).2
    simp only [Node.liveIn, hparents, List.mem_singleton, Bool.and_eq_true,
      decide_eq_true_eq] at hliveP
    exact hP hliveP.2
  have hold : ∀ n ∈ c.base, n ∈ d' := by
    intro n hn
    change n ∈ d'.nodes
    rw [hG.nodes_eq hown]
    exact List.mem_append_right _ hn
  have hparent : c.destParent ≠ R := by
    rintro rfl
    obtain ⟨n, hn, hid⟩ := hc.parentHas
    exact (hfresh.2 n hn).1 hid
  -- the copy of the source folder
  obtain ⟨ps, hps, hreal⟩ := hG.inside_parent hc hown hM.keeping
  have hmade : (c.labelsIn M G none).Perm (Effect.made none (c.rootFolder name)).label.toList := by
    unfold labelsIn
    rw [if_neg (by simp), List.append_nil]
    exact hM.parent
  obtain ⟨qs, hqs, hperm⟩ := List.perm_comp_forall₂ hmade.symm hreal
  obtain ⟨m, ms, hm, hms, rfl⟩ := List.forall₂_cons_left_iff.mp hqs
  obtain rfl := List.forall₂_nil_left_iff.mp hms
  have hmR : m.id = R := hid _ m hm rfl
  have hinside : (d'.inside c.destParent).Perm (m :: c.base.inside c.destParent) :=
    hps.trans (hperm.symm.append_right _)
  have hmem : m ∈ d'.inside c.destParent := hinside.mem_iff.mpr List.mem_cons_self
  have hmd' : m ∈ d' := List.mem_of_mem_filter hmem
  have haside : ∀ n ∈ c.base, n.liveIn R = false := by
    intro n hn
    by_contra hlive
    simp only [Node.liveIn, Bool.not_eq_false, Bool.and_eq_true, decide_eq_true_eq] at hlive
    exact (hfresh.2 n hn).2.1 hlive.2
  refine ⟨fun n hn => hd.kept n (hold n hn) (haside n hn), fun n hn => ?_, fun p hp hpfresh => ?_,
    m, hd.kept m hmd' (hapart hparent m hmem), hmR ▸ hfresh, ?_, ?_, ns, es, hmR ▸ hes, ?_, hstored,
    hok⟩
  · rcases hd.origin n hn with ⟨k, hk, hcore, hsame⟩ | ⟨hnew, hplace⟩
    · rcases hG.old_or_new hown k hk with hk | ⟨hk, p, hp⟩
      · rcases hsame with rfl | hlive
        · exact .inl hk
        · rw [haside k hk] at hlive
          cases hlive
      · exact .inr ⟨Node.id_of_core hcore ▸ hk, p, (Node.parents_of_core hcore) ▸ hp⟩
    · exact .inr ⟨⟨hnew.1, fun k hk => hnew.2 k (hold k hk)⟩, R, hplace⟩
  · have hinside := hG.inside_other hown hM.keeping hp hpfresh
    have hpR : p ≠ R := fun h => hpfresh (h ▸ hfresh)
    rw [hd.others p hpR, hinside]
    intro n hn
    rw [hinside] at hn
    exact haside n (List.mem_of_mem_filter hn)
  · refine ⟨hm.name, ?_, hm.props⟩
    rw [Node.isFolder, hm.mimeType]
    exact decide_eq_true rfl
  · rw [hd.others _ hparent (hapart hparent)]
    exact hinside
  · apply hG.mirrors hc hown hM hberth hkeys (fun P hP _ => hd.others P hP (hapart hP)) hbytes _
      hat.realized
    intro n hn
    have hin : n ∈ d.inside R := hes.mem_iff.mpr (List.mem_append_right _ hn)
    refine ⟨List.mem_of_mem_filter hin, ?_⟩
    exact (hat.new n (hat.items.mem_iff.mpr (List.mem_append_right _ hn))).1

end Course

end TurboCopy
