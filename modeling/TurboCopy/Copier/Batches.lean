import TurboCopy.Copier.Solo
import TurboCopy.Copier.Replay

/-!
# Batched listings

What `_batched_list` returns when the server honours only some of the clauses of a
multi-parent query. A `Shelf` is a Drive whose `i`-th multi-parent listing delivers the items
with a parent among the clauses it honours, or fails with an error that is not a quota error;
listings of a single folder succeed. The last batch that contains a folder decides what is
returned for it: its items when the batch failed or had none of them, else those with an
honoured parent in the group.
-/

namespace TurboCopy

open Threads CopierM Copier

/-! ## The items of a page by their parents -/

theorem lookup_addParents (group : List String) (f : DriveFile) (pid : String) (hp : pid ∈ group) :
    ∀ (parents : List String) (out : ChildMap), parents.Nodup →
      AList.lookup pid (parents.foldl (fun out pid =>
        if pid ∈ group then AList.insert pid ((AList.lookup pid out).getD [] ++ [f]) out
        else out) out) =
      if pid ∈ parents then some ((AList.lookup pid out).getD [] ++ [f])
      else AList.lookup pid out := by
  intro parents
  induction parents with
  | nil => intro out _; rfl
  | cons p parents ih =>
    intro out hnodup
    obtain ⟨hnot, hnodup⟩ := List.nodup_cons.mp hnodup
    rw [List.foldl_cons, ih _ hnodup]
    by_cases h : pid = p
    · subst h
      rw [if_neg hnot, if_pos hp, AList.lookup_insert, if_pos List.mem_cons_self]
    · have hsame : AList.lookup pid (if p ∈ group then
          AList.insert p ((AList.lookup p out).getD [] ++ [f]) out else out) =
          AList.lookup pid out := by
        split_ifs
        · exact AList.lookup_insert_ne h
        · rfl
      rw [hsame]
      simp only [List.mem_cons, h, false_or]

theorem lookup_addPage (group : List String) (pid : String) (hp : pid ∈ group) :
    ∀ (files : List ApiFile) (out : ChildMap) (kids : List DriveFile),
      (∀ f ∈ files, f.parents.Nodup) → AList.lookup pid out = some kids →
      AList.lookup pid (addPage group out files) =
        some (kids ++ (files.filter fun f => pid ∈ f.parents).map DriveFile.fromApi) := by
  intro files
  induction files with
  | nil => intro out kids _ h; simpa [addPage] using h
  | cons f files ih =>
    intro out kids hnodup h
    have hf := lookup_addParents group (DriveFile.fromApi f) pid hp f.parents out
      (hnodup f List.mem_cons_self)
    have hrest := fun g hg => hnodup g (List.mem_cons_of_mem f hg)
    unfold addPage at ih ⊢
    rw [List.foldl_cons]
    by_cases hmem : pid ∈ f.parents
    · rw [if_pos hmem, h, Option.getD_some] at hf
      rw [ih _ _ hrest hf, List.filter_cons_of_pos (by simpa using hmem), List.map_cons,
        List.append_assoc, List.singleton_append]
    · rw [if_neg hmem, h] at hf
      rw [ih _ _ hrest hf, List.filter_cons_of_neg (by simpa using hmem)]

theorem lookup_emptyMap {group : List String} {pid : String} (hp : pid ∈ group) :
    AList.lookup pid (emptyMap group) = some [] := by
  have hkeep : ∀ (ids : List String) (out : ChildMap), pid ∈ ids ∨ AList.lookup pid out = some [] →
      AList.lookup pid (ids.foldl (fun out pid => AList.insert pid [] out) out) = some [] := by
    intro ids
    induction ids with
    | nil =>
      intro out h
      exact h.resolve_left (List.not_mem_nil)
    | cons x ids ih =>
      intro out h
      rw [List.foldl_cons]
      apply ih
      by_cases hx : pid = x
      · subst hx
        exact .inr (AList.lookup_insert _)
      · rw [AList.lookup_insert_ne hx]
        exact h.imp_left fun hm => (List.mem_cons.mp hm).resolve_left hx
  exact hkeep group ∅ (.inl hp)

/-! ## The pages of a listing -/

/-- What has been gathered of a listing of `ns` when the page `tok` is next. -/
def Drive.Gathers (ns : List Node) (fields : List ApiField) (files : List ApiFile) :
    Option PageToken → Prop
  | none => files = []
  | some t => (files ++ t.rest).Perm (ns.map fun n => n.file.view fields)

namespace Drive.Paged

variable {ns : List Node} {fields : List ApiField} {tok : Option PageToken} {page : Page}
  {files : List ApiFile}

theorem gathers (h : Paged ns fields tok page) (hf : Gathers ns fields files tok) :
    ((files ++ page.1) ++ restOf page.2).Perm (ns.map fun n => n.file.view fields) := by
  cases tok with
  | none =>
    obtain rfl : files = [] := hf
    exact h
  | some t =>
    rw [List.append_assoc, h.1]
    exact hf

theorem pagesLeft_lt {t : PageToken} (h : Paged ns fields tok page) (ht : page.2 = some t) :
    CopierM.Completes.pagesLeft (some t) < CopierM.Completes.pagesLeft tok := by
  cases tok with
  | none => exact WithTop.coe_lt_top t.left
  | some t' => exact WithTop.coe_lt_coe.mpr (h.2 t ht)

end Drive.Paged

theorem Drive.exists_paged (ns : List Node) (fields : List ApiField) (tok : Option PageToken) :
    ∃ page, Paged ns fields tok page ∧ page.2 = none := by
  cases tok with
  | none => exact ⟨(ns.map fun n => n.file.view fields, none), by simp [Paged, restOf], rfl⟩
  | some t => exact ⟨(t.rest, none), by simp [Paged, restOf], rfl⟩

/-! ## A server that honours some clauses -/

/-- A Drive with what its multi-parent listings do: the clauses the `i`-th one honours, and
whether it fails. -/
structure Shelf where
  drive : Drive
  profile : Profile
  parents : ∀ n ∈ drive, n.file.parents.Nodup
  honours : ℕ → String → Bool
  fails : ℕ → Bool

/-- The nodes of a listing as the engine sees them. -/
def shown (ns : List Node) : List DriveFile :=
  ns.map fun n => DriveFile.fromApi (n.file.view listFields)

theorem fromApi_view_multi (f : ApiFile) :
    DriveFile.fromApi (f.view multiFields) = DriveFile.fromApi (f.view listFields) := by
  simp [DriveFile.fromApi, ApiFile.view, multiFields, listFields]

theorem parents_view_multi (f : ApiFile) : (f.view multiFields).parents = f.parents := by
  simp [ApiFile.view, multiFields]

namespace Shelf

variable (sh : Shelf) (ex : List String)

/-- The listing of one folder. -/
def listing (p : String) : List Node := sh.drive.listed sh.profile p (some ex)

/-- A node has a parent in the group that the `i`-th multi-parent listing honours. -/
def found (i : ℕ) (group : List String) (n : Node) : Bool :=
  group.any fun p => sh.honours i p && decide (p ∈ n.file.parents)

/-- What the `i`-th multi-parent listing delivers unless it fails. -/
def response (i : ℕ) (group : List String) : List Node :=
  sh.drive.nodes.filter fun n =>
    !n.file.trashed && sh.found i group n && !sh.profile.hides ex n.file

/-- The answers. The state counts the multi-parent listings begun so far; one that fails
raises before its last page. -/
inductive Serves : (q : Request) → ℕ → q.Ret → ℕ → Prop
  | single (i : ℕ) (p : String) (tok) (page : Page)
      (h : Drive.Paged (sh.listing ex p) listFields tok page) :
      Serves (.listChildren p (some ex) tok) i (.ok page) i
  | first (i : ℕ) (group) (page : Page)
      (h : Drive.Paged (sh.response ex i group) multiFields none page)
      (hlast : sh.fails i = true → page.2 ≠ none) :
      Serves (.listChildrenMulti group ex none) i (.ok page) (i + 1)
  | next (i : ℕ) (group) (t : PageToken) (page : Page)
      (h : Drive.Paged (sh.response ex i group) multiFields (some t) page)
      (hlast : sh.fails i = true → page.2 ≠ none) :
      Serves (.listChildrenMulti group ex (some t)) (i + 1) (.ok page) (i + 1)
  | failsFirst (i : ℕ) (group) (e : ApiError) (h : sh.fails i = true)
      (he : e.isFatalQuota = false) :
      Serves (.listChildrenMulti group ex none) i (.error e) (i + 1)
  | failsNext (i : ℕ) (group) (t : PageToken) (e : ApiError) (h : sh.fails i = true)
      (he : e.isFatalQuota = false) :
      Serves (.listChildrenMulti group ex (some t)) (i + 1) (.error e) (i + 1)

def service : Service where
  State := ℕ
  serves := sh.Serves ex

/-- The part of a listing that the `i`-th batch brings. -/
def part (i : ℕ) (group : List String) (p : String) : List Node :=
  if sh.fails i then [] else (sh.listing ex p).filter (sh.found i group)

/-- What is returned for a folder of the `i`-th batch. -/
def delivered (i : ℕ) (group : List String) (p : String) : List Node :=
  if (sh.part ex i group p).isEmpty then sh.listing ex p else sh.part ex i group p

variable {sh ex}

theorem filter_response (i : ℕ) (group : List String) (p : String) :
    ((sh.response ex i group).filter fun n => p ∈ n.file.parents) =
      (sh.listing ex p).filter (sh.found i group) := by
  unfold response listing Drive.listed
  rw [List.filter_filter, List.filter_filter]
  apply List.filter_congr
  intro n _
  simp only [Node.liveIn, Option.any_some]
  cases n.file.trashed <;> cases sh.found i group n <;> cases sh.profile.hides ex n.file <;>
    simp

/-! ## The procedures -/

variable {cp : Copier} {m : Mem} {i : ℕ}

/-- The engine of a copier over a shelf. -/
abbrev scene (sh : Shelf) (cp : Copier) : Type := Scene cp (sh.service cp.config.excludeSubstrings)

theorem ask_single {w : sh.scene cp} (fid : String) (tok : Option PageToken)
    {E : Exc → sh.scene cp → Prop} :
    Completes w (ask (.listChildren fid (some cp.config.excludeSubstrings) tok)) (fun x w' =>
      w'.state = w.state ∧ ∃ page, x = .ok page ∧
        Drive.Paged (sh.listing cp.config.excludeSubstrings fid) listFields tok page) E := by
  obtain ⟨page, hpage, -⟩ := Drive.exists_paged
    (sh.listing cp.config.excludeSubstrings fid) listFields tok
  apply Completes.ask ⟨_, _, Serves.single _ fid tok page hpage⟩
  rintro x d hserves
  cases hserves with
  | single i p tok page h => exact ⟨rfl, page, rfl, h⟩

theorem listChildren_completes {w : sh.scene cp} (fid : String) {E : Exc → sh.scene cp → Prop} :
    Completes w (cp.listChildren fid 0 0 fid) (fun kids w' => w'.state = w.state ∧
      kids.Perm (shown (sh.listing cp.config.excludeSubstrings fid))) E := by
  apply Completes.iterate (fun s => Completes.pagesLeft s.2.1) (fun s w' => w'.state = w.state ∧
    ∃ files, s.1 = files.map DriveFile.fromApi ∧
      Drive.Gathers (sh.listing cp.config.excludeSubstrings fid) listFields files s.2.1)
  · rintro ⟨out, tok, n⟩ w₁ ⟨hs, files, hout, hg⟩
    dsimp only at hout hg
    apply Completes.bind (ask_single fid tok)
    rintro x w₂ ⟨hs₂, page, rfl, hpage⟩
    have hkept : keepPage 0 0 out page.1 (n + 1) = (files ++ page.1).map DriveFile.fromApi := by
      simp [keepPage, inPageRange, hout]
    have hgathered := hpage.gathers hg
    dsimp only
    rw [hkept]
    cases ht : page.2 with
    | none =>
      apply Completes.pure
      rw [ht] at hgathered
      refine ⟨hs₂.trans hs, ?_⟩
      have hperm := hgathered.map DriveFile.fromApi
      simpa [restOf, shown, Function.comp_def] using hperm
    | some t =>
      apply Completes.pure
      rw [ht] at hgathered
      exact ⟨⟨hs₂.trans hs, _, rfl, hgathered⟩, hpage.pagesLeft_lt ht⟩
  · exact ⟨rfl, [], rfl, rfl⟩

/-- The state in which the page `tok` of the `i`-th multi-parent listing is asked for. -/
def turn (i : ℕ) : Option PageToken → ℕ
  | none => i
  | some _ => i + 1

theorem ask_multi {w : sh.scene cp} (group : List String) (tok : Option PageToken)
    (hw : w.state = ⟨m, turn i tok⟩) {E : Exc → sh.scene cp → Prop} :
    Completes w (ask (.listChildrenMulti group cp.config.excludeSubstrings tok)) (fun x w' =>
      w'.state = ⟨m, i + 1⟩ ∧
        ((∃ page, x = .ok page ∧ (sh.fails i = true → page.2 ≠ none) ∧
          Drive.Paged (sh.response cp.config.excludeSubstrings i group) multiFields tok page) ∨
        sh.fails i = true ∧ ∃ e, x = .error e ∧ e.isFatalQuota = false)) E := by
  have hstate : w.state.drive = turn i tok := by rw [hw]
  have hsite : (⟨w.state.mem, i + 1⟩ : Site (sh.service cp.config.excludeSubstrings)) =
      ⟨m, i + 1⟩ := by rw [hw]
  apply Completes.ask
  · rw [hstate]
    by_cases hf : sh.fails i = true
    · cases tok with
      | none => exact ⟨_, _, Serves.failsFirst i group ⟨"", none, none⟩ hf (by decide +kernel)⟩
      | some t => exact ⟨_, _, Serves.failsNext i group t ⟨"", none, none⟩ hf (by decide +kernel)⟩
    · obtain ⟨page, hpage, -⟩ := Drive.exists_paged
        (sh.response cp.config.excludeSubstrings i group) multiFields tok
      cases tok with
      | none => exact ⟨_, _, Serves.first i group page hpage fun h => absurd h hf⟩
      | some t => exact ⟨_, _, Serves.next i group t page hpage fun h => absurd h hf⟩
  · intro x d hserves
    rw [hstate] at hserves
    cases tok with
    | none =>
      cases hserves with
      | first _ _ page h hlast =>
        exact ⟨hsite, .inl ⟨page, rfl, hlast, h⟩⟩
      | failsFirst _ _ e h he =>
        exact ⟨hsite, .inr ⟨h, e, rfl, he⟩⟩
    | some t =>
      cases hserves with
      | next _ _ _ page h hlast =>
        exact ⟨hsite, .inl ⟨page, rfl, hlast, h⟩⟩
      | failsNext _ _ _ e h he =>
        exact ⟨hsite, .inr ⟨h, e, rfl, he⟩⟩

/-- What the `i`-th batch leaves in the map of its group. -/
def Gathered (sh : Shelf) (ex : List String) (i : ℕ) (group : List String) (out : ChildMap) :
    Prop :=
  ∃ files : List ApiFile, out = addPage group (emptyMap group) files ∧
    files.Perm ((sh.response ex i group).map fun n => n.file.view multiFields)

theorem listMultiPages_completes {w : sh.scene cp} (group : List String) (hw : w.state = ⟨m, i⟩) :
    Completes w (cp.listMultiPages group)
      (fun out w' => w'.state = ⟨m, i + 1⟩ ∧ sh.fails i = false ∧
        sh.Gathered cp.config.excludeSubstrings i group out)
      fun e w' => w'.state = ⟨m, i + 1⟩ ∧ sh.fails i = true ∧
        ∃ a, e = .client a ∧ a.isFatalQuota = false := by
  apply Completes.pages fun out tok w' => w'.state = ⟨m, turn i tok⟩ ∧
    ∃ files, out = addPage group (emptyMap group) files ∧
      Drive.Gathers (sh.response cp.config.excludeSubstrings i group) multiFields files tok
  · rintro out tok w₁ ⟨hs, files, hout, hg⟩
    apply Completes.bind (ask_multi group tok hs)
    rintro x w₂ ⟨hs₂, ⟨page, rfl, hlast, hpage⟩ | ⟨hf, e, rfl, he⟩⟩
    · apply Completes.pure
      have hgathered := hpage.gathers hg
      have hadd : addPage group out page.1 = addPage group (emptyMap group) (files ++ page.1) := by
        rw [hout, addPage, addPage, addPage, List.foldl_append]
      cases ht : page.2 with
      | none =>
        rw [ht, restOf, List.append_nil] at hgathered
        refine ⟨hs₂, ?_, _, hadd, hgathered⟩
        exact Bool.eq_false_iff.mpr fun h => hlast h ht
      | some t =>
        rw [ht] at hgathered
        exact ⟨⟨hs₂, _, hadd, hgathered⟩, hpage.pagesLeft_lt ht⟩
    · exact Completes.throw ⟨hs₂, hf, e, rfl, he⟩
  · exact ⟨hw, [], rfl, rfl⟩

/-- What the engine knows after the `i`-th batch. -/
def Batched (sh : Shelf) (ex : List String) (i : ℕ) (group : List String) :
    Option ChildMap → Prop
  | none => sh.fails i = true
  | some out => sh.fails i = false ∧ sh.Gathered ex i group out

theorem listBatch_completes {w : sh.scene cp} (group : List String) (hw : w.state = ⟨m, i⟩)
    {E : Exc → sh.scene cp → Prop} :
    Completes w (cp.listBatch group) (fun batched w' => w'.state = ⟨m, i + 1⟩ ∧
      sh.Batched cp.config.excludeSubstrings i group batched) E := by
  have hlist := (listMultiPages_completes group hw).mono
    (Q := fun out w' => w'.state = ⟨m, i + 1⟩ ∧
      sh.Batched cp.config.excludeSubstrings i group (some out))
    (E := fun e w' => w'.state = ⟨m, i + 1⟩ ∧ sh.fails i = true ∧
      ∃ a, e = .client a ∧ a.isFatalQuota = false) (fun _ _ h => h) fun _ _ h => h
  apply Completes.bind (R := fun r w' => w'.state = ⟨m, i + 1⟩ ∧ match r with
    | .ok out => sh.Batched cp.config.excludeSubstrings i group (some out)
    | .error e => sh.fails i = true ∧ ∃ a, e = .client a ∧ a.isFatalQuota = false)
    (Completes.attempt hlist)
  rintro (e | out) w₁ ⟨hs, h⟩
  · obtain ⟨hf, a, rfl, ha⟩ := h
    have hraise : cp.raiseIfFatalQuota a "fast-list listing" = pure () := by
      unfold raiseIfFatalQuota
      rw [ha]
      rfl
    dsimp only
    rw [hraise]
    exact Completes.pure ⟨hs, hf⟩
  · exact Completes.pure ⟨hs, h⟩

/-- The children a batch has for a folder of its group. -/
theorem Batched.children {group : List String} {batched : Option ChildMap} {ex : List String}
    (h : sh.Batched ex i group batched) {fid : String} (hfid : fid ∈ group) :
    (batchedChildren group batched fid).Perm (shown (sh.part ex i group fid)) := by
  cases batched with
  | none =>
    have hf : sh.fails i = true := h
    simp [batchedChildren, part, hf, shown]
  | some out =>
    obtain ⟨hf, files, hout, hfiles⟩ := h
    have hnodup : ∀ f ∈ files, f.parents.Nodup := by
      intro f hmem
      obtain ⟨n, hn, rfl⟩ := List.mem_map.mp (hfiles.mem_iff.mp hmem)
      rw [parents_view_multi]
      exact sh.parents n (List.mem_of_mem_filter hn)
    have hlookup : AList.lookup fid out =
        some ((files.filter fun f => fid ∈ f.parents).map DriveFile.fromApi) := by
      rw [hout, lookup_addPage group fid hfid files _ [] hnodup (lookup_emptyMap hfid),
        List.nil_append]
    have hperm : ((files.filter fun f => fid ∈ f.parents).map DriveFile.fromApi).Perm
        (shown (sh.part ex i group fid)) := by
      have hresponse := (hfiles.filter fun f => decide (fid ∈ f.parents)).map DriveFile.fromApi
      rw [List.filter_map, List.map_map] at hresponse
      rw [part, if_neg (by simp [hf]), ← filter_response, shown]
      convert hresponse using 2
      · funext n
        exact (fromApi_view_multi n.file).symm
      · simp only [Function.comp_def, parents_view_multi]
    unfold batchedChildren
    dsimp only
    split_ifs with hempty
    · have hnone := List.all_eq_true.mp (Bool.and_eq_true_iff.mp hempty).2 fid hfid
      rw [hlookup, Option.getD_some, List.isEmpty_iff] at hnone
      rw [hnone] at hperm
      exact hperm
    · rw [hlookup, Option.getD_some]
      exact hperm

theorem confirmOne_completes {w : sh.scene cp} {group : List String} {batched : Option ChildMap}
    (h : sh.Batched cp.config.excludeSubstrings i group batched) {fid : String}
    (hfid : fid ∈ group) {E : Exc → sh.scene cp → Prop} :
    Completes w (cp.confirmOne group batched fid) (fun kids w' => w'.state = w.state ∧
      kids.Perm (shown (sh.delivered cp.config.excludeSubstrings i group fid))) E := by
  have hperm := h.children hfid
  have hempty : (batchedChildren group batched fid).isEmpty =
      (sh.part cp.config.excludeSubstrings i group fid).isEmpty := by
    rw [Bool.eq_iff_iff, List.isEmpty_iff_length_eq_zero, List.isEmpty_iff_length_eq_zero,
      hperm.length_eq, shown, List.length_map]
  unfold confirmOne
  dsimp only
  rw [hempty, delivered]
  split_ifs
  · exact listChildren_completes fid
  · exact Completes.pure ⟨rfl, hperm⟩

theorem confirmBatch_completes {group : List String} {batched : Option ChildMap}
    (h : sh.Batched cp.config.excludeSubstrings i group batched)
    {E : Exc → sh.scene cp → Prop} : ∀ (fids : List String) (result : ChildMap) (w : sh.scene cp),
    (∀ fid ∈ fids, fid ∈ group) →
    Completes w (cp.confirmBatch group batched fids result) (fun out w' => w'.state = w.state ∧
      ∀ fid, if fid ∈ fids then ∃ kids, AList.lookup fid out = some kids ∧
          kids.Perm (shown (sh.delivered cp.config.excludeSubstrings i group fid))
        else AList.lookup fid out = AList.lookup fid result) E := by
  intro fids
  induction fids with
  | nil => intro result w _; exact Completes.pure ⟨rfl, fun fid => by simp⟩
  | cons x fids ih =>
    intro result w hsub
    apply Completes.bind (confirmOne_completes h (hsub x List.mem_cons_self))
    rintro kids w₁ ⟨hs₁, hkids⟩
    apply (ih (AList.insert x kids result) w₁
      fun fid hfid => hsub fid (List.mem_cons_of_mem x hfid)).mono _ fun _ _ h => h
    rintro out w₂ ⟨hs₂, hout⟩
    refine ⟨hs₂.trans hs₁, fun fid => ?_⟩
    have hfid := hout fid
    by_cases hmem : fid ∈ fids
    · rw [if_pos hmem] at hfid
      rwa [if_pos (List.mem_cons_of_mem x hmem)]
    · rw [if_neg hmem] at hfid
      by_cases hx : fid = x
      · subst hx
        rw [if_pos List.mem_cons_self]
        exact ⟨kids, by rw [hfid, AList.lookup_insert], hkids⟩
      · rw [if_neg (by simp [hx, hmem]), hfid, AList.lookup_insert_ne hx]

end Shelf

/-- The last of some groups that contains `x` is the `i`-th. -/
structure LastIn {α : Type} (groups : List (List α)) (x : α) (i : ℕ) (group : List α) : Prop where
  get : groups[i]? = some group
  mem : x ∈ group
  last : ∀ g ∈ groups.drop (i + 1), x ∉ g

namespace LastIn

variable {α : Type} {groups : List (List α)} {group g : List α} {x : α} {i : ℕ}

theorem cons_succ : LastIn (g :: groups) x (i + 1) group ↔ LastIn groups x i group := by
  constructor
  · intro h
    exact ⟨by simpa using h.get, h.mem, by simpa using h.last⟩
  · intro h
    exact ⟨by simpa using h.get, h.mem, by simpa using h.last⟩

theorem exists_of_mem : ∀ groups : List (List α), x ∈ groups.flatten →
    ∃ i group, LastIn groups x i group := by
  intro groups
  induction groups with
  | nil => intro h; exact absurd h List.not_mem_nil
  | cons g groups ih =>
    intro h
    by_cases hrest : x ∈ groups.flatten
    · obtain ⟨i, group, hi⟩ := ih hrest
      exact ⟨i + 1, group, cons_succ.mpr hi⟩
    · have hg : x ∈ g := by
        rw [List.flatten_cons, List.mem_append] at h
        exact h.resolve_right hrest
      refine ⟨0, g, rfl, hg, fun g' hg' hx => ?_⟩
      exact hrest (List.mem_flatten.mpr ⟨g', by simpa using hg', hx⟩)

end LastIn

namespace Shelf

variable {sh : Shelf} {cp : Copier}

theorem batchedList_completes {m : Mem} (hm : m.stop = false) {E : Exc → sh.scene cp → Prop} :
    ∀ (groups : List (List String)) (i : ℕ) (result : ChildMap) (w : sh.scene cp),
    w.state = ⟨m, i⟩ →
    Completes w (cp.batchedList groups result) (fun out _ =>
      (∀ fid k group, LastIn groups fid k group → ∃ kids, AList.lookup fid out = some kids ∧
        kids.Perm (shown (sh.delivered cp.config.excludeSubstrings (i + k) group fid))) ∧
      ∀ fid, fid ∉ groups.flatten → AList.lookup fid out = AList.lookup fid result) E := by
  intro groups
  induction groups with
  | nil =>
    intro i result w _
    apply Completes.pure
    exact ⟨fun fid k group h => (nomatch h.get), fun fid _ => rfl⟩
  | cons g groups ih =>
    intro i result w hw
    have hstop : (w.state.mem.exec .stopIsSet).1 = false := by rw [hw]; exact hm
    have hlog : (w.log ⟨(w.state.mem.exec .stopIsSet).2, w.state.drive⟩
        (.did (.mem .stopIsSet) (w.state.mem.exec .stopIsSet).1)).state = ⟨m, i⟩ := hw
    apply Completes.bind (Completes.mem (Q := fun b w' => b = false ∧ w'.state = ⟨m, i⟩) ⟨hstop, hlog⟩)
    rintro b w₁ ⟨rfl, hs₁⟩
    apply Completes.bind (listBatch_completes g hs₁)
    rintro batched w₂ ⟨hs₂, hbatched⟩
    apply Completes.bind (confirmBatch_completes hbatched g result w₂ fun fid h => h)
    rintro out₁ w₃ ⟨hs₃, hout₁⟩
    apply (ih (i + 1) out₁ w₃ (hs₃.trans hs₂)).mono _ fun _ _ h => h
    rintro out w₄ ⟨hin, hnot⟩
    constructor
    · intro fid k group hlast
      cases k with
      | succ k =>
        have h := hin fid k group (LastIn.cons_succ.mp hlast)
        rwa [show i + 1 + k = i + (k + 1) by omega] at h
      | zero =>
        obtain rfl : g = group := by simpa using hlast.get
        have hfid := hout₁ fid
        rw [if_pos hlast.mem] at hfid
        rw [hnot fid]
        · exact hfid
        · intro hflat
          obtain ⟨g', hg', hx⟩ := List.mem_flatten.mp hflat
          exact hlast.last g' (by simpa using hg') hx
    · intro fid hflat
      rw [List.flatten_cons, List.mem_append, not_or] at hflat
      have hfid := hout₁ fid
      rw [if_neg hflat.1] at hfid
      rw [hnot fid hflat.2, hfid]

/-- The batch delivers the listing of `p`: it failed, or it has none of the items of `p`, or
all of them. -/
def Complete (sh : Shelf) (ex : List String) (i : ℕ) (group : List String) (p : String) : Prop :=
  sh.fails i = true ∨ (∀ n ∈ sh.listing ex p, sh.found i group n = false) ∨
    ∀ n ∈ sh.listing ex p, sh.found i group n = true

theorem perm_delivered_iff {ex : List String} {i : ℕ} {group : List String} {p : String}
    {kids : List DriveFile} (h : kids.Perm (shown (sh.delivered ex i group p))) :
    kids.Perm (shown (sh.listing ex p)) ↔ sh.Complete ex i group p := by
  unfold delivered part at h
  constructor
  · intro hall
    by_cases hf : sh.fails i = true
    · exact .inl hf
    rw [if_neg hf] at h
    split_ifs at h with hempty
    · right
      left
      intro n hn
      have hnot := List.filter_eq_nil_iff.mp (List.isEmpty_iff.mp hempty) n hn
      exact Bool.eq_false_iff.mpr hnot
    · right
      right
      have hlen : ((sh.listing ex p).filter (sh.found i group)).length =
          (sh.listing ex p).length := by
        simpa [shown] using (h.symm.trans hall).length_eq
      exact List.length_filter_eq_length_iff.mp hlen
  · rintro (hf | hnone | hsome)
    · simpa [hf] using h
    · have hnil : (sh.listing ex p).filter (sh.found i group) = [] := by
        rw [List.filter_eq_nil_iff]
        intro n hn
        rw [hnone n hn]
        exact Bool.false_ne_true
      simpa [hnil] using h
    · rw [List.filter_eq_self.mpr hsome] at h
      split_ifs at h with hf hlisting hlisting
      · exact h
      · exact absurd rfl hlisting
      · exact h
      · exact h

theorem batchedList_stopped {m : Mem} (hm : m.stop = true) {i : ℕ} {groups : List (List String)}
    {w : sh.scene cp} (hw : w.state = ⟨m, i⟩) {E : Exc → sh.scene cp → Prop} :
    Completes w (cp.batchedList groups ∅) (fun out _ => out = ∅) E := by
  cases groups with
  | nil => exact Completes.pure rfl
  | cons g groups =>
    have hstop : (w.state.mem.exec .stopIsSet).1 = true := by rw [hw]; exact hm
    apply Completes.bind (Completes.mem (Q := fun b _ => b = true) hstop)
    rintro b w₁ rfl
    exact Completes.pure rfl

/-- The map `_batched_list` returns for a list of folders has the listing of every folder
exactly when no stop was requested and the last batch of each folder failed, brought none of
its items or brought all of them. -/
theorem batched_list_complete_iff (sh : Shelf) (cp : Copier) (m : Mem) (folders : List String) :
    Yields (cp.undisturbed (sh.service cp.config.excludeSubstrings))
      (cp.batchedList (slices batchSize [] folders) ∅) ⟨m, (0 : ℕ)⟩ fun r _ => ∃ out, r = .ok out ∧
        ((∀ f ∈ folders, ∃ kids, AList.lookup f out = some kids ∧
            kids.Perm (shown (sh.listing cp.config.excludeSubstrings f))) ↔
          ∀ f ∈ folders, m.stop = false ∧ ∀ i group, LastIn (slices batchSize [] folders) f i group →
            sh.Complete cp.config.excludeSubstrings i group f) := by
  apply Alone.yields (cp.undisturbed_env _)
  have hflat : (slices batchSize [] folders).flatten = folders := flatten_slices _ _ _
  by_cases hm : m.stop = true
  · have hends : Completes (w := (⟨⟨m, (0 : ℕ)⟩, []⟩ : sh.scene cp))
        (cp.batchedList (slices batchSize [] folders) ∅) (fun out _ => out = ∅)
        fun _ _ => False := batchedList_stopped hm rfl
    refine Alone.mono hends ?_
    rintro (e | out) w h
    · exact h.elim
    · obtain rfl : out = ∅ := h
      refine ⟨∅, rfl, fun hall f hf => ?_, fun hall f hf => ?_⟩
      · obtain ⟨kids, hkids, -⟩ := hall f hf
        exact nomatch hkids
      · rw [hm] at hall
        exact nomatch (hall f hf).1
  · have hm : m.stop = false := Bool.eq_false_iff.mpr hm
    have hends := batchedList_completes (E := fun _ _ => False) hm (slices batchSize [] folders) 0 ∅
      (⟨⟨m, (0 : ℕ)⟩, []⟩ : sh.scene cp) rfl
    refine Alone.mono hends ?_
    rintro (e | out) w h
    · exact h.elim
    refine ⟨out, rfl, fun hall f hf => ⟨hm, fun i group hlast => ?_⟩, fun hall f hf => ?_⟩
    · obtain ⟨kids, hkids, hperm⟩ := h.1 f i group hlast
      rw [Nat.zero_add] at hperm
      obtain ⟨kids', hkids', hlisting⟩ := hall f hf
      obtain rfl : kids' = kids := Option.some.inj (hkids'.symm.trans hkids)
      exact (perm_delivered_iff hperm).mp hlisting
    · obtain ⟨i, group, hlast⟩ := LastIn.exists_of_mem _ (hflat.symm ▸ hf)
      obtain ⟨kids, hkids, hperm⟩ := h.1 f i group hlast
      rw [Nat.zero_add] at hperm
      exact ⟨kids, hkids, (perm_delivered_iff hperm).mpr ((hall f hf).2 i group hlast)⟩

end Shelf

/-! ## A lost file -/

/-- Two folders that share a file; the second has one of its own. The server honours the
clause of the first. -/
def overlapShelf : Shelf where
  drive := ⟨[folderNode "first" "First" [], folderNode "second" "Second" [],
    fileNode "shared" "shared.txt" ["first", "second"] "1" "aa",
    fileNode "own" "own.txt" ["second"] "1" "bb"], by decide⟩
  profile := openProfile
  parents := List.forall_iff_forall_mem.mp (by decide)
  honours _ p := p = "first"
  fails _ := false

/-- The file that only the second folder has is missing from what is returned for it. -/
theorem batched_list_loses_own :
    ¬Yields (smallCopier.undisturbed (overlapShelf.service []))
      (smallCopier.batchedList (slices batchSize [] ["first", "second"]) ∅)
      ⟨smallCopier.freshMem "", (0 : ℕ)⟩ fun r _ => ∃ out, r = .ok out ∧
        ∀ f ∈ ["first", "second"], ∃ kids, AList.lookup f out = some kids ∧
          kids.Perm (shown (overlapShelf.listing [] f)) := by
  intro hall
  have hends := Shelf.batchedList_completes (m := smallCopier.freshMem "")
    (E := fun _ _ => False) rfl (slices batchSize [] ["first", "second"]) 0 ∅
    (⟨⟨smallCopier.freshMem "", (0 : ℕ)⟩, []⟩ : overlapShelf.scene smallCopier) rfl
  have hyields := Alone.yields (smallCopier.undisturbed_env _) hends
  obtain ⟨c, r, hc, hr⟩ := hall.completes _ .refl
  obtain ⟨out, rfl, hlisted⟩ := hall.returned c r hc hr
  obtain ⟨kids, hkids, hperm⟩ := hlisted "second" (by decide)
  obtain ⟨kids', hkids', hpart⟩ := (hyields.returned c _ hc hr).1 "second" 0 ["first", "second"]
    ⟨rfl, by decide, by decide⟩
  obtain rfl : kids' = kids := Option.some.inj (hkids'.symm.trans hkids)
  exact absurd (hpart.symm.trans hperm).length_eq (by decide +kernel)

end TurboCopy
