import TurboCopy.Copier.Walks

/-!
# The fast traversal on a course

A level first places all its folders and serves all its files, then lists the folders in batches
and enters them one by one.
-/

namespace TurboCopy

open Threads CopierM Copier

namespace Forest

def topSet (f : Forest) : Set String := {k | k ∈ f.tops}

def deepSet (f : Forest) : Set String := {k | k ∈ f.deep}

/-- The folders of a forest are those of its first level and those below. -/
theorem keys_perm (f : Forest) : f.keys.Perm (f.tops ++ f.deep) := by
  induction f with
  | nil => exact .refl _
  | file _ _ ih => exact ih
  | link _ _ _ ih => exact ih
  | broken _ _ ih => exact ih
  | folder src sub rest _ ih =>
    have h : (sub.keys ++ rest.keys).Perm (rest.tops ++ (sub.keys ++ rest.deep)) := by
      apply (ih.append_left sub.keys).trans
      rw [← List.append_assoc, ← List.append_assoc]
      exact List.perm_append_comm.append_right _
    exact h.cons src.id

theorem mem_keys {f : Forest} {k : String} : k ∈ f.keys ↔ k ∈ f.tops ∨ k ∈ f.deep := by
  rw [f.keys_perm.mem_iff, List.mem_append]

theorem keySet_eq (f : Forest) : f.keySet = f.topSet ∪ f.deepSet := by
  ext k
  exact mem_keys

end Forest

namespace Course

variable {c : Course} {K O : Set String} {M : List Effect} {s : Site c.sv.service} {l : Level}
  {i : ℕ} {place : Option String}

theorem Shows.source {f : Forest} (h : c.Shows f) {k : String} (hk : k ∈ f.tops) :
    k ∈ c.sources := by
  induction f with
  | nil => exact absurd hk List.not_mem_nil
  | file _ _ ih => exact ih h.2.2.2.2 hk
  | link _ _ _ ih => exact ih h.2.2.2.2.2 hk
  | broken _ _ ih => exact ih h.2.2.2 hk
  | folder src sub rest _ ih =>
    obtain ⟨-, -, hsource, -, -, -, hrest⟩ := h
    rcases List.mem_cons.mp hk with rfl | hk
    · exact hsource
    · exact ih hrest hk

/-! ## Queueing the folders of a level -/

/-- The folders of a forest with their destinations, in their order. -/
def Queued (c : Course) (folderMap : Dict String) (place : Option String) :
    Forest → List Pending → Prop
  | .nil, q => q = []
  | .file _ rest, q => Queued c folderMap place rest q
  | .link _ _ rest, q => Queued c folderMap place rest q
  | .broken _ rest, q => Queued c folderMap place rest q
  | .folder src _ rest, q => ∃ dest q', q = (src, dest) :: q' ∧
      c.Docked (some src.id) (c.home place src) dest folderMap ∧ Queued c folderMap place rest q'

/-- Queued folders stay where they are. -/
theorem Queued.frame {m m' : Mem} {n : ℕ} (hf : Mem.Frame K n m m') {f : Forest} :
    ∀ {q : List Pending}, c.Queued m.state.folderMap place f q → (∀ k ∈ f.tops, k ∈ K) →
      c.Queued m'.state.folderMap place f q := by
  induction f with
  | nil => exact fun h _ => h
  | file _ _ ih => exact ih
  | link _ _ _ ih => exact ih
  | broken _ _ ih => exact ih
  | folder src sub rest _ ih =>
    rintro q ⟨dest, q', hq, hdock, hrest⟩ hk
    refine ⟨dest, q', hq, hdock.frame hf (hk src.id List.mem_cons_self), ?_⟩
    exact ih hrest fun k hk' => hk k (List.mem_cons_of_mem _ hk')

theorem Queued.ids {fm : Dict String} {f : Forest} : ∀ {q : List Pending},
    c.Queued fm place f q → (q.map fun p => p.1.id) = f.tops := by
  induction f with
  | nil =>
    rintro q rfl
    rfl
  | file _ _ ih => exact ih
  | link _ _ _ ih => exact ih
  | broken _ _ ih => exact ih
  | folder src sub rest _ ih =>
    rintro q ⟨dest, q', rfl, -, hrest⟩
    rw [List.map_cons, ih hrest]
    rfl

/-- What the loop over the children of a level does in the fast traversal. -/
def Queues (c : Course) (f : Forest) : Prop :=
  ∀ {K O : Set String} {M : List Effect} {s : Site c.sv.service} {l : Level} {i : ℕ}
    {place : Option String} (pending : List Pending), c.Ready K O M s l i place →
    (∀ k ∈ f.tops, k ∉ K) →
    Succeeds c.cp s (c.cp.enqueueChildren l i f.children pending) fun q s' => ∃ q' idx,
      q = pending ++ q' ∧ c.Queued s'.mem.state.folderMap place f q' ∧
      c.After K (K ∪ f.topSet) O
        (M ++ f.level c.guide l.parentSourceId place (s.mem.indexAt i)) idx l i place s s'

/-- One child and then the others. -/
theorem enqueueChildren_cons {src : DriveFile} {rest : List DriveFile} {pending : List Pending}
    {R Q : List Pending → Site c.sv.service → Prop} (h : c.Ready K O M s l i place)
    (hx : Succeeds c.cp s (c.cp.enqueueChild l i src pending) R)
    (hrest : ∀ q s', R q s' → Succeeds c.cp s' (c.cp.enqueueChildren l i rest q) Q) :
    Succeeds c.cp s (c.cp.enqueueChildren l i (src :: rest) pending) Q := by
  unfold Copier.enqueueChildren
  apply Succeeds.mem_run (x := false) (m := s.mem)
  · exact Prod.ext h.at_.running rfl
  rw [if_neg Bool.false_ne_true]
  apply Succeeds.bind hx
  exact hrest

/-- A child that is not a folder, and then the others. -/
theorem leaf_queued {src : DriveFile} {rest : Forest} {e : Effect} {idx : DestinationIndex}
    {pending : List Pending} (h : c.Ready K O M s l i place)
    (hx : Succeeds c.cp s (c.cp.enqueueChild l i src pending) fun q s' => q = pending ∧
      c.After K K O (M ++ [e]) idx l i place s s')
    (hrest : c.Queues rest) (hkeys : ∀ k ∈ rest.tops, k ∉ K) :
    Succeeds c.cp s (c.cp.enqueueChildren l i (src :: rest.children) pending) fun q s' => ∃ q' idx',
      q = pending ++ q' ∧ c.Queued s'.mem.state.folderMap place rest q' ∧
      c.After K (K ∪ rest.topSet) O
        (M ++ (e :: rest.level c.guide l.parentSourceId place idx)) idx' l i place s s' := by
  apply enqueueChildren_cons h hx
  rintro q s₁ ⟨rfl, h₁⟩
  apply (hrest q h₁.ready hkeys).mono
  rintro q₂ s' ⟨q', idx', rfl, hq', h'⟩
  rw [h₁.index, List.append_assoc] at h'
  exact ⟨q', idx', rfl, hq', h₁.trans h' subset_rfl⟩

/-- The loop over the children has the effects of the level. -/
theorem queues (hc : c.Clear) (f : Forest) (hshows : c.Shows f) (hnodup : f.tops.Nodup) :
    c.Queues f := by
  induction f with
  | nil =>
    intro K O M s l i place pending h _
    apply Succeeds.pure
    refine ⟨[], s.mem.indexAt i, (List.append_nil _).symm, rfl, ?_⟩
    have htop : Forest.topSet .nil = ∅ := by simp [Forest.topSet, Forest.tops]
    rw [htop, Set.union_empty, Forest.level, List.append_nil]
    exact ⟨h, rfl, .of_eq rfl rfl⟩
  | file src rest ih =>
    intro K O M s l i place pending h hkeys
    obtain ⟨hsrc, hfolder, hlink, hfits, hrest⟩ := hshows
    apply leaf_queued h _ (ih hrest hnodup) hkeys
    unfold Copier.enqueueChild
    rw [hfolder, hlink, if_neg Bool.false_ne_true, if_neg Bool.false_ne_true]
    apply Succeeds.bind (submitFile_after hc h hsrc hfolder hfits)
    rintro _ s' h'
    exact Succeeds.pure ⟨rfl, h'⟩
  | link src target rest ih =>
    intro K O M s l i place pending h hkeys
    obtain ⟨hsrc, hlink, htarget, hfolder, hfits, hrest⟩ := hshows
    apply leaf_queued h _ (ih hrest hnodup) hkeys
    unfold Copier.enqueueChild
    rw [hlink, if_pos rfl]
    apply Succeeds.bind (resolveShortcut_succeeds src)
    rintro r s ⟨rfl, rfl⟩
    rw [h.at_.resolve_eq hc hsrc, htarget]
    dsimp only
    rw [hfolder, if_neg Bool.false_ne_true]
    apply Succeeds.bind (linkedFile_after hc h hsrc htarget hfolder hfits)
    rintro _ s' h'
    exact Succeeds.pure ⟨rfl, h'⟩
  | broken src rest ih =>
    intro K O M s l i place pending h hkeys
    obtain ⟨hsrc, hlink, htarget, hrest⟩ := hshows
    apply leaf_queued h _ (ih hrest hnodup) hkeys
    unfold Copier.enqueueChild
    rw [hlink, if_pos rfl]
    apply Succeeds.bind (resolveShortcut_succeeds src)
    rintro r s ⟨rfl, rfl⟩
    rw [h.at_.resolve_eq hc hsrc, htarget]
    dsimp only
    apply Succeeds.bind (inaccessible_after h src)
    rintro _ s' h'
    exact Succeeds.pure ⟨rfl, h'⟩
  | folder src sub rest _ ih =>
    intro K O M s l i place pending h hkeys
    obtain ⟨hfolder, hne, hsource, hfits, hkids, hsub, hrest⟩ := hshows
    obtain ⟨hsrc, hnodup⟩ := List.nodup_cons.mp hnodup
    have hf : src.id ∉ K := hkeys src.id List.mem_cons_self
    have hlink : src.isShortcut = false := DriveFile.not_isShortcut_of_isFolder hfolder
    apply enqueueChildren_cons h (R := fun q s' => ∃ dest, q = pending ++ [(src, dest)] ∧
      c.Docked (some src.id) (c.home place src) dest s'.mem.state.folderMap ∧
      c.After K (insert src.id K) O (M ++ [Forest.placing c.guide l.parentSourceId place src])
        (s.mem.indexAt i) l i place s s')
    · unfold Copier.enqueueChild Copier.enqueueFolder
      rw [hlink, hfolder, if_neg Bool.false_ne_true, if_pos rfl,
        if_neg fun hv => hf (h.visited src.id hv)]
      apply Succeeds.bind (enterFolder_after hc h hf hne hsource hfits)
      rintro r s' ⟨dest, rfl, hdock, h'⟩
      exact Succeeds.pure ⟨dest, rfl, hdock, h'⟩
    · rintro q s₁ ⟨dest, rfl, hdock, h₁⟩
      have hkeyrest : ∀ k ∈ rest.tops, k ∉ insert src.id K := by
        intro k hk hm
        exact hm.elim (fun he => hsrc (he ▸ hk)) (hkeys k (List.mem_cons_of_mem _ hk))
      apply (ih hrest hnodup (pending ++ [(src, dest)]) h₁.ready hkeyrest).mono
      rintro q₂ s' ⟨q', idx, rfl, hq', h'⟩
      rw [h₁.index, List.append_assoc] at h'
      refine ⟨(src, dest) :: q', idx, by simp, ⟨dest, q', rfl, ?_, hq'⟩, ?_⟩
      · exact hdock.frame h'.frame (Set.mem_insert src.id K)
      · apply (h₁.trans h' (Set.subset_insert _ _)).congr _ rfl rfl
        ext k
        simp [Forest.topSet, Forest.tops, or_assoc, or_left_comm]

/-! ## Entering the queued folders -/

/-- What the loop over the pending folders does. -/
def Sweeps (c : Course) (f : Forest) : Prop :=
  ∀ {K O : Set String} {M : List Effect} {s : Site c.sv.service} {l : Level} {i : ℕ}
    {place : Option String} {q : List Pending} {found : ChildMap}, c.Ready K O M s l i place →
    c.Queued s.mem.state.folderMap place f q → (∀ k ∈ f.tops, k ∈ K) → (∀ k ∈ f.deep, k ∉ K) →
    (∀ k ∈ f.keys, k ∉ O) →
    (∀ k ∈ f.tops, AList.lookup k found = some (shown
      (c.base.listed c.sv.profile k (some c.cp.config.excludeSubstrings)))) →
    Succeeds c.cp s (c.cp.processPending l found q) fun _ s' =>
      c.After K (K ∪ f.deepSet) (O ∪ f.keySet) (M ++ f.deeper c.guide place) (s.mem.indexAt i) l i
        place s s'

/-- Entering a level in the fast traversal. -/
theorem Sweeps.enters {f : Forest} (hf : c.Sweeps f) (hc : c.Clear)
    (hfast : c.cp.config.fastList = true) (hshows : c.Shows f) (hnodup : f.keys.Nodup) :
    c.Enters f := by
  intro K O M s l place hdue hchildren hkeys
  have hperm := f.keys_perm.nodup_iff.mp hnodup
  obtain ⟨htops, -, hdisjoint⟩ := List.nodup_append.mp hperm
  have hnew (k : String) (hk : k ∈ f.keys) : k ∉ insert l.parentSourceId O := by
    obtain ⟨hK, hO⟩ := hkeys k hk
    refine fun hm => hm.elim ?_ hO
    rintro rfl
    exact hK hdue.placed
  unfold Copier.processLevel Copier.processLevelFast Forest.effects
  rw [hfast, if_pos rfl, if_pos rfl, hchildren]
  apply Succeeds.bind (buildIndex_ready hc hdue)
  rintro i s₁ ⟨hready, hindex, rfl, hframe⟩
  apply Succeeds.bind (queues hc f hshows htops [] hready fun k hk =>
    (hkeys k (Forest.mem_keys.mpr (.inl hk))).1)
  rintro q s₂ ⟨q', idx, hq, hqueued, h₂⟩
  rw [List.nil_append] at hq
  subst hq
  have hsweep {found : ChildMap} (hfound : ∀ k ∈ f.tops, AList.lookup k found = some (shown
      (c.base.listed c.sv.profile k (some c.cp.config.excludeSubstrings)))) :
      Succeeds c.cp s₂ (c.cp.processPending l found q) fun _ s' =>
        c.At (K ∪ f.keySet) (insert l.parentSourceId O ∪ f.keySet)
          (M ++ (f.level c.guide l.parentSourceId place (c.guide.shelf place) ++
            f.deeper c.guide place)) s' ∧ Mem.Frame K s.mem.indexes.length s.mem s'.mem := by
    apply (hf h₂.ready hqueued (fun k hk => .inr hk) ?_ hnew hfound).mono
    · rintro _ s' h'
      have h := h'.ready.at_
      rw [hindex, Set.union_assoc, ← Forest.keySet_eq, List.append_assoc] at h
      exact ⟨h, (hframe.trans h₂.frame subset_rfl le_rfl).trans h'.frame Set.subset_union_left le_rfl⟩
    · rintro k hk (hK | htop)
      · exact (hkeys k (Forest.mem_keys.mpr (.inr hk))).1 hK
      · exact hdisjoint k htop k hk rfl
  have hids : (q.map fun p => p.1.id) = f.tops := hqueued.ids
  split_ifs with hempty
  · have hq : q = [] := List.isEmpty_iff.mp hempty
    rw [hq] at hids hsweep
    exact @hsweep ∅ fun k hk => absurd (hids ▸ hk) List.not_mem_nil
  · apply Succeeds.mem_run (x := false) (m := s₂.mem)
    · exact Prod.ext h₂.ready.at_.running rfl
    rw [if_neg Bool.false_ne_true]
    have hstop : s₂.mem.stop = false := h₂.ready.at_.running
    apply Succeeds.bind (Server.batchedList_succeeds hstop (h₂.ready.at_.nodup hc) _ ∅)
    rintro found s₃ ⟨rfl, hfound⟩
    apply hsweep
    intro k hk
    rw [hfound k, flatten_slices, List.nil_append, hids, if_pos hk,
      h₂.ready.at_.listed_source hc (hshows.source hk)]

/-- The loop over the pending folders has the effects of what is below them. -/
theorem sweeps (hc : c.Clear) (hfast : c.cp.config.fastList = true) (f : Forest)
    (hshows : c.Shows f) (hnodup : f.keys.Nodup) : c.Sweeps f := by
  induction f with
  | nil =>
    rintro K O M s l i place q found h rfl - - - -
    apply Succeeds.pure
    have hdeep : Forest.deepSet .nil = ∅ := by simp [Forest.deepSet, Forest.deep]
    rw [hdeep, Forest.keySet_nil, Set.union_empty, Set.union_empty, Forest.deeper, List.append_nil]
    exact ⟨h, rfl, .of_eq rfl rfl⟩
  | file src rest ih => exact ih hshows.2.2.2.2 hnodup
  | link src target rest ih => exact ih hshows.2.2.2.2.2 hnodup
  | broken src rest ih => exact ih hshows.2.2.2 hnodup
  | folder src sub rest ihsub ihrest =>
    rintro K O M s l i place q found h ⟨dest, q', rfl, hdock, hqueued⟩ htops hdeep hkeys hfound
    obtain ⟨hfolder, hne, hsource, hfits, hkids, hsub, hrest⟩ := hshows
    obtain ⟨hsrc, hnodup⟩ := List.nodup_cons.mp hnodup
    obtain ⟨hnodupsub, hnoduprest, hdisjoint⟩ := List.nodup_append.mp hnodup
    rw [List.mem_append, not_or] at hsrc
    have henters : c.Enters sub := Sweeps.enters (ihsub hsub hnodupsub) hc hfast hsub hnodupsub
    have hkeysub : ∀ k ∈ sub.keys, k ∉ K ∧ k ∉ O := by
      intro k hk
      refine ⟨hdeep k (List.mem_append_left _ hk), hkeys k ?_⟩
      exact List.mem_cons_of_mem _ (List.mem_append_left _ hk)
    have hk := htops src.id List.mem_cons_self
    have hkO := hkeys src.id List.mem_cons_self
    unfold Copier.processPending
    apply Succeeds.mem_run (x := false) (m := s.mem)
    · exact Prod.ext h.at_.running rfl
    rw [if_neg Bool.false_ne_true, hfound src.id List.mem_cons_self, Option.getD_some, ← hkids]
    apply Succeeds.bind (descend_after h hk hkO hdock henters hkeysub)
    rintro _ s₁ h₁
    have hout (k : String) (hk : k ∈ rest.keys) : k ∉ sub.keySet :=
      fun hm => hdisjoint k hm k hk rfl
    have hdeeprest : ∀ k ∈ rest.deep, k ∉ K ∪ sub.keySet := by
      rintro k hk (hK | hm)
      · exact hdeep k (List.mem_append_right _ hk) hK
      · exact hout k (Forest.mem_keys.mpr (.inr hk)) hm
    have hkeyrest : ∀ k ∈ rest.keys, k ∉ insert src.id O ∪ sub.keySet := by
      rintro k hk ((he | hO) | hm)
      · exact hsrc.2 (he ▸ hk)
      · exact hkeys k (List.mem_cons_of_mem _ (List.mem_append_right _ hk)) hO
      · exact hout k hk hm
    have htopsrest : ∀ k ∈ rest.tops, k ∈ K := fun k hk => htops k (List.mem_cons_of_mem _ hk)
    apply (ihrest hrest hnoduprest h₁.ready (hqueued.frame h₁.frame htopsrest)
      (fun k hk => .inl (htopsrest k hk)) hdeeprest hkeyrest
      fun k hk => hfound k (List.mem_cons_of_mem _ hk)).mono
    rintro _ s' h'
    rw [h₁.index, keySet_folder, Forest.effects, hfast, if_pos rfl, List.append_assoc] at h'
    apply (h₁.trans h' Set.subset_union_left).congr _ rfl rfl
    ext k
    simp [Forest.keySet, Forest.deepSet, Forest.deep, or_assoc]

/-- Entering a level, in either traversal. -/
theorem enters (hc : c.Clear) (f : Forest) (hshows : c.Shows f) (hnodup : f.keys.Nodup) :
    c.Enters f := by
  cases hfast : c.cp.config.fastList with
  | true => exact Sweeps.enters (sweeps hc hfast f hshows hnodup) hc hfast hshows hnodup
  | false => exact Walks.enters (walks hc hfast f hshows hnodup) hc hfast

end Course
end TurboCopy
