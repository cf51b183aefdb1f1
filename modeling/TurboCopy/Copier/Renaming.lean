import TurboCopy.Copier.Passage

/-!
# Drives up to the ids of their new files

Two runs from one Drive give their new files different ids. A permutation of the ids that moves no
id of the first Drive takes what the one run leaves to what the other leaves.
-/

namespace TurboCopy

open Threads CopierM Copier

/-- A permutation that takes one list to another and moves nothing else. -/
theorem exists_perm_map {α : Type} [DecidableEq α] {xs : List α} : ∀ {ys : List α}, xs.Nodup →
    ys.Nodup → xs.length = ys.length →
    ∃ ρ : Equiv.Perm α, xs.map ρ = ys ∧ ∀ z, z ∉ xs → z ∉ ys → ρ z = z := by
  induction xs with
  | nil =>
    intro ys _ _ hlen
    obtain rfl := List.length_eq_zero_iff.mp hlen.symm
    exact ⟨1, rfl, fun _ _ _ => rfl⟩
  | cons x xs ih =>
    intro ys hxs hys hlen
    cases ys with
    | nil => simp at hlen
    | cons y ys =>
      obtain ⟨hx, hxs⟩ := List.nodup_cons.mp hxs
      obtain ⟨hy, hys⟩ := List.nodup_cons.mp hys
      obtain ⟨ρ, rfl, hfixed⟩ := ih hxs hys (by simpa using hlen)
      refine ⟨Equiv.swap (ρ x) y * ρ, ?_, ?_⟩
      · have hrest : ∀ z ∈ xs, Equiv.swap (ρ x) y (ρ z) = ρ z := by
          intro z hz
          apply Equiv.swap_apply_of_ne_of_ne
          · exact fun h => hx (ρ.injective h ▸ hz)
          · exact fun h => hy (h ▸ List.mem_map_of_mem hz)
        simpa using hrest
      · intro z hz hz'
        have hsame : ρ z = z := hfixed z (List.not_mem_of_not_mem_cons hz)
          (List.not_mem_of_not_mem_cons hz')
        rw [Equiv.Perm.mul_apply, hsame]
        apply Equiv.swap_apply_of_ne_of_ne
        · intro h
          have hzx : z = x := ρ.injective (hsame.trans h)
          exact hz (hzx ▸ List.mem_cons_self)
        · exact List.ne_of_not_mem_cons hz'

/-! ## Outlines -/

/-- A file or folder without what differs between two copies of one file. -/
structure Outline where
  id : String
  name : String
  mimeType : String
  appProperties : Dict String
  trashed : Bool
  parents : List String

def Node.outline (n : Node) : Outline where
  id := n.id
  name := n.file.name
  mimeType := n.file.mimeType
  appProperties := n.file.appProperties
  trashed := n.file.trashed
  parents := n.file.parents

def Drive.outlines (d : Drive) : List Outline := d.nodes.map Node.outline

namespace Outline

def rename (ρ : Equiv.Perm String) (o : Outline) : Outline :=
  { o with id := ρ o.id, parents := o.parents.map ρ }

/-- A live child of a folder. -/
def liveIn (R : String) (o : Outline) : Bool := !o.trashed && decide (R ∈ o.parents)

/-- The file carries the tag of the tool. -/
def owned (o : Outline) : Bool := AList.lookup "copied_by_tool" o.appProperties = some toolTag

/-- A report of failures in a folder. -/
def reports (R : String) (o : Outline) : Bool :=
  o.liveIn R && (o.name = failedReportName && o.owned)

/-- What a cleanup of a folder makes of a file. -/
def sweep (R : String) (o : Outline) : Outline :=
  if o.liveIn R && (o.owned && isStoreName o.name) then { o with trashed := true } else o

variable {ρ : Equiv.Perm String}

@[simp] theorem liveIn_rename (R : String) (o : Outline) :
    (o.rename ρ).liveIn (ρ R) = o.liveIn R := by
  have hmem : ρ R ∈ (o.rename ρ).parents ↔ R ∈ o.parents :=
    List.mem_map_of_injective ρ.injective
  simp only [liveIn, hmem]
  rfl

theorem reports_rename (R : String) (o : Outline) :
    (o.rename ρ).reports (ρ R) = o.reports R := by
  rw [reports, liveIn_rename]
  rfl

theorem rename_sweep (R : String) (o : Outline) :
    (o.sweep R).rename ρ = (o.rename ρ).sweep (ρ R) := by
  unfold sweep
  rw [liveIn_rename]
  change _ = if o.liveIn R && (o.owned && isStoreName o.name) then _ else _
  split_ifs
  · rfl
  · rfl

end Outline

namespace Drive

variable {d : Drive}

@[simp] theorem outlines_overwrite (id : String) (data : Content) (md5 size : Option String) :
    (d.overwrite id data md5 size).outlines = d.outlines := by
  unfold outlines overwrite edit
  rw [List.map_map]
  apply List.map_congr_left
  intro n _
  rw [Function.comp_apply]
  split_ifs
  · rfl
  · rfl

@[simp] theorem outlines_add (n : Node) (hf : d.Fresh n.id) :
    (d.add n hf).outlines = n.outline :: d.outlines := rfl

/-- The files that are trashed one after the other are the files of a list. -/
theorem outlines_trash (ids : List String) : ∀ d : Drive, (ids.foldl Drive.trash d).outlines =
    d.nodes.map fun n => if n.id ∈ ids then { n.outline with trashed := true } else n.outline := by
  induction ids with
  | nil => exact fun d => by simp [outlines]
  | cons id ids ih =>
    intro d
    rw [List.foldl_cons, ih]
    unfold trash edit
    rw [List.map_map]
    apply List.map_congr_left
    intro n _
    simp only [Function.comp_apply, List.mem_cons]
    by_cases hid : n.id = id
    · have hrest : n.id = id ∨ n.id ∈ ids := .inl hid
      rw [if_pos hid, if_pos hrest]
      split_ifs
      · rfl
      · rfl
    · have hrest : (n.id = id ∨ n.id ∈ ids) ↔ n.id ∈ ids := or_iff_right hid
      rw [if_neg hid]
      simp only [hrest]

end Drive

namespace Server

variable {sv : Server} {d : Drive} {R : String}

theorem mem_storeIds {n : Node} (hn : n ∈ d) :
    n.id ∈ storeIds (sv.folderFiles d R none) ↔
      n.liveIn R = true ∧ isOwned n.file = true ∧ isStoreName n.file.name = true := by
  unfold storeIds folderFiles Drive.listed
  constructor
  · intro h
    obtain ⟨f, hf, hid⟩ := List.mem_map.mp h
    obtain ⟨hf, hstore⟩ := List.mem_filter.mp hf
    obtain ⟨m, hm, rfl⟩ := List.mem_map.mp hf
    obtain ⟨hm, hlive⟩ := List.mem_filter.mp hm
    obtain rfl := Drive.eq_of_id hm hn hid
    exact ⟨(Bool.and_eq_true_iff.mp hlive).1, Bool.and_eq_true_iff.mp hstore⟩
  · rintro ⟨hlive, hstore⟩
    apply List.mem_map.mpr
    refine ⟨n.file.view listFields, List.mem_filter.mpr ⟨?_, Bool.and_eq_true_iff.mpr hstore⟩, rfl⟩
    exact List.mem_map_of_mem (List.mem_filter.mpr ⟨hn, by simp [hlive]⟩)

theorem outlines_swept (sv : Server) (d : Drive) (R : String) :
    (sv.swept d R).outlines = d.outlines.map (Outline.sweep R) := by
  rw [swept, Drive.outlines_trash, Drive.outlines, List.map_map]
  apply List.map_congr_left
  intro n hn
  simp only [mem_storeIds hn, Function.comp_apply, Outline.sweep]
  change _ = if n.liveIn R && (isOwned n.file && isStoreName n.file.name) then _ else _
  simp only [Bool.and_eq_true]

/-- The report that an export overwrites is the first one. -/
theorem reportIn_eq (sv : Server) (d : Drive) (R : String) : sv.reportIn d R =
    (d.nodes.find? fun n => n.outline.reports R).bind fun n => truthy (some n.id) := by
  unfold reportIn folderFiles Drive.listed
  rw [List.find?_map, List.find?_filter, Option.bind_map]
  congr 2
  funext n
  rw [Option.any_none, Bool.not_false, Bool.and_true, Bool.decide_and, Bool.decide_eq_true,
    Bool.decide_eq_true]
  rfl

end Server

/-! ## Renamings -/

/-- The second Drive is the first with other ids for what `base` does not have. -/
structure Drive.Renames (base : Drive) (ρ : Equiv.Perm String) (d d' : Drive) : Prop where
  kept : ∀ id, ¬base.Fresh id → ρ id = id
  outlines : (d.outlines.map (Outline.rename ρ)).Perm d'.outlines

namespace Drive.Renames

variable {base d d' : Drive} {ρ : Equiv.Perm String}

theorem refl (base d : Drive) : base.Renames 1 d d where
  kept _ _ := rfl
  outlines := by
    have hid : Outline.rename 1 = id := by
      funext o
      simp [Outline.rename]
    rw [hid, List.map_id]

/-- A renaming takes new ids to new ids. -/
theorem fresh (h : base.Renames ρ d d') {id : String} (hid : base.Fresh id) :
    base.Fresh (ρ id) := by
  by_contra hold
  have hsame : ρ id = id := ρ.injective (h.kept _ hold)
  exact hold (hsame.symm ▸ hid)

theorem swept (h : base.Renames ρ d d') (sv : Server) (R : String) :
    base.Renames ρ (sv.swept d R) (sv.swept d' (ρ R)) where
  kept := h.kept
  outlines := by
    rw [Server.outlines_swept, Server.outlines_swept, List.map_map]
    have hcomm : Outline.rename ρ ∘ Outline.sweep R =
        Outline.sweep (ρ R) ∘ Outline.rename ρ := by
      funext o
      exact Outline.rename_sweep R o
    rw [hcomm, ← List.map_map]
    exact h.outlines.map _

theorem overwrite (h : base.Renames ρ d d') (id id' : String) (data data' : Content)
    (md5 md5' size size' : Option String) :
    base.Renames ρ (d.overwrite id data md5 size) (d'.overwrite id' data' md5' size') where
  kept := h.kept
  outlines := by simpa using h.outlines

/-- A renaming extends to a new file in the same folder. -/
theorem add (h : base.Renames ρ d d') {R : String} (hR : d.has R) {n n' : Node}
    (hf : d.Fresh n.id) (hf' : d'.Fresh n'.id) (hbase : base.Fresh n.id) (hbase' : base.Fresh n'.id)
    (hn : n.outline = { n'.outline with id := n.id, parents := [R] })
    (hn' : n'.file.parents = [ρ R]) :
    ∃ ρ', base.Renames ρ' (d.add n hf) (d'.add n' hf') := by
  have hmentioned : ∀ o ∈ d.outlines, ∀ x, x = o.id ∨ x ∈ o.parents →
      Equiv.swap (ρ n.id) n'.id (ρ x) = ρ x := by
    intro o ho x hx
    obtain ⟨m, hm, rfl⟩ := List.mem_map.mp ho
    obtain ⟨m', hm', houtline⟩ := List.mem_map.mp (h.outlines.subset (List.mem_map_of_mem ho))
    apply Equiv.swap_apply_of_ne_of_ne
    · intro heq
      obtain rfl := ρ.injective heq
      rcases hx with hx | hx
      · exact (hf.2 m hm).1 hx.symm
      · exact (hf.2 m hm).2.1 hx
    · intro heq
      rcases hx with rfl | hx
      · have hid : m'.id = ρ m.id := congrArg Outline.id houtline
        exact (hf'.2 m' hm').1 (hid.trans heq)
      · have hparents : m'.file.parents = m.file.parents.map ρ := congrArg Outline.parents houtline
        apply (hf'.2 m' hm').2.1
        rw [← heq, hparents]
        exact List.mem_map_of_mem hx
  have hrenamed : d.outlines.map (Outline.rename (Equiv.swap (ρ n.id) n'.id * ρ)) =
      d.outlines.map (Outline.rename ρ) := by
    apply List.map_congr_left
    intro o ho
    have hparents : o.parents.map (Equiv.swap (ρ n.id) n'.id * ρ) = o.parents.map ρ :=
      List.map_congr_left fun x hx => hmentioned o ho x (.inr hx)
    have hid : (Equiv.swap (ρ n.id) n'.id * ρ) o.id = ρ o.id := hmentioned o ho o.id (.inl rfl)
    simp only [Outline.rename, hparents, hid]
  refine ⟨Equiv.swap (ρ n.id) n'.id * ρ, ?_, ?_⟩
  · intro id hid
    rw [Equiv.Perm.mul_apply, h.kept id hid]
    apply Equiv.swap_apply_of_ne_of_ne
    · rintro rfl
      exact hid (h.fresh hbase)
    · rintro rfl
      exact hid hbase'
  · obtain ⟨m, hm, rfl⟩ := hR
    have hplace := hmentioned m.outline (List.mem_map_of_mem hm) m.id (.inl rfl)
    have hnew : n.outline.rename (Equiv.swap (ρ n.id) n'.id * ρ) = n'.outline := by
      rw [hn]
      have hparents : n'.outline.parents = [ρ m.id] := hn'
      simp only [Outline.rename, List.map_cons, List.map_nil, Equiv.Perm.mul_apply, hplace,
        Equiv.swap_apply_left, ← hparents]
      rfl
    rw [outlines_add, outlines_add, List.map_cons, hrenamed, hnew]
    exact h.outlines.cons _

/-- A folder has a report in `base` if and only if the renamed folder has one. -/
theorem reportIn_base (h : base.Renames ρ d d') (sv : Server) (R : String) :
    sv.reportIn base (ρ R) = sv.reportIn base R := by
  by_cases hR : base.Fresh R
  · have hnone (P : String) (hP : base.Fresh P) : sv.reportIn base P = none := by
      rw [Server.reportIn_eq, List.find?_eq_none.mpr]
      · rfl
      · intro n hn
        have hparents : P ∉ n.outline.parents := (hP.2 n hn).2.1
        simp [Outline.reports, Outline.liveIn, hparents]
    rw [hnone R hR, hnone (ρ R) (h.fresh hR)]
  · rw [h.kept R hR]

end Drive.Renames

/-- The end of a run leaves Drives that differ by a renaming when it has found such. -/
theorem Server.Settled.renames {sv : Server} {base d d' e e' : Drive} {ρ : Equiv.Perm String}
    {r r' : CopyResult} {R : String} (h : sv.Settled r false d (some R) e)
    (h' : sv.Settled r' false d' (some (ρ R)) e') (hok : r.fullyOk = r'.fullyOk)
    (hfailures : r.hasFailures = r'.hasFailures) (hren : base.Renames ρ d d')
    (hreport : (sv.reportIn d R).isSome = (sv.reportIn d' (ρ R)).isSome) (hR : d.has R)
    (hfresh : ∀ id, d.Fresh id → base.Fresh id) (hfresh' : ∀ id, d'.Fresh id → base.Fresh id) :
    ∃ ρ', base.Renames ρ' e e' := by
  unfold Server.Settled at h h'
  rw [hok, hfailures] at h
  dsimp only at h h'
  split_ifs at h h' with hclean hfailed
  · subst h h'
    exact ⟨ρ, hren.swept sv R⟩
  · cases h with
    | overwritten hid data md5 size =>
      cases h' with
      | overwritten hid' data' md5' size' => exact ⟨ρ, hren.overwrite _ _ _ _ _ _ _ _⟩
      | made hnone' n' hf' hn' =>
        rw [hid, hnone'] at hreport
        exact nomatch hreport
    | made hnone n hf hn =>
      cases h' with
      | overwritten hid' data' md5' size' =>
        rw [hid', hnone] at hreport
        exact nomatch hreport
      | made hnone' n' hf' hn' =>
        apply hren.add hR hf hf' (hfresh _ hf) (hfresh' _ hf') _ hn'.parents
        simp only [Node.outline, hn.name, hn.mimeType, hn.props, hn.live, hn.parents, hn'.name,
          hn'.mimeType, hn'.props, hn'.live]
  · subst h h'
    exact ⟨ρ, hren⟩

end TurboCopy
