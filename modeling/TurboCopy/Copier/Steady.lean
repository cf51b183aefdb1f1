import TurboCopy.Copier.Batches

/-!
# A server that makes no errors

A `Server` is a Drive whose calls fail only when what they ask for does not exist. It makes
exact copies, delivers a listing in the order of the Drive, and answers equal questions about
equal nodes with equal pages. `Succeeds` is the triple for procedures that raise nothing; it
looks at the state of a world only.
-/

namespace TurboCopy

open Threads CopierM Copier

/-- The page a listing continues from. -/
def Request.token : Request → Option PageToken
  | .listChildren _ _ tok => tok
  | .listChildrenMulti _ _ tok => tok
  | _ => none

/-- How a server cuts its answers into pages, what its exclude lists hide and whose account it
serves. -/
structure Server where
  hides : List String → ApiFile → Bool
  turn : Request → List ApiFile → Page
  whole : ∀ q files, (turn q files).1 ++ restOf (turn q files).2 = files
  shrinks : ∀ q t t', q.token = some t → (turn q t.rest).2 = some t' → t'.left < t.left
  email : Option String
  rootData : ApiFile

/-- What a copy and the metadata asked for it agree on. -/
def ApiFile.untimed (f : ApiFile) : ApiFile :=
  { f with id := "", modifiedTime := none, createdTime := none, description := none
           canAddChildren := none }

namespace Server

variable (sv : Server)

def profile : Profile where
  raises _ := False
  copies n body f c := f.untimed = Drive.exactCopy n body ∧ c = n.content
  prompt := False
  hides := sv.hides

/-- What the server has to deliver in the listing of a folder. -/
def due (files : List ApiFile) : Option PageToken → List ApiFile
  | none => files
  | some t => t.rest

/-- The files of the listing of one folder. -/
def folderFiles (d : Drive) (p : String) (ex : Option (List String)) : List ApiFile :=
  (d.listed sv.profile p ex).map fun n => n.file.view listFields

def groupFiles (d : Drive) (group ex : List String) : List ApiFile :=
  (d.listedMulti sv.profile group ex).map fun n => n.file.view multiFields

def foundFiles (d : Drive) (q : FolderQuery) : List ApiFile :=
  (d.matching q).map fun n => n.file.view searchFields

/-- The answers that depend on the request and the nodes it is about only. -/
def Steady (d : Drive) : (q : Request) → q.Ret → Prop
  | .aboutUser, x => x = .ok sv.email
  | .getMetadata _ fields, x => fields = [.id] → x = .ok sv.rootData
  | .listChildren p ex tok, x =>
    x = .ok (sv.turn (.listChildren p ex tok) (due (sv.folderFiles d p ex) tok))
  | .listChildrenMulti group ex tok, x =>
    x = .ok (sv.turn (.listChildrenMulti group ex tok) (due (sv.groupFiles d group ex) tok))
  | .search q size, x => x = .ok (sv.turn (.search q size) (foundFiles d q))
  | _, _ => True

/-- A request is answered, or its object is missing. -/
inductive Serves (q : Request) (d : Drive) (x : q.Ret) : Drive → Prop
  | granted {d' : Drive} (h : Drive.Grants sv.profile q d x d') (hs : sv.Steady d q x) :
      Serves q d x d'
  | missing (h : d.Lacks q) (hq : ∀ id, q ≠ .getMetadata id [.id])
      (hx : x = q.raised Drive.notFound) : Serves q d x d

abbrev service : Service where
  State := Drive
  serves := sv.Serves

theorem paged_turn (q : Request) (ns : List Node) (fields : List ApiField)
    (tok : Option PageToken) (hq : q.token = tok) :
    Drive.Paged ns fields tok (sv.turn q (due (ns.map fun n => n.file.view fields) tok)) := by
  cases tok with
  | none =>
    change (_ ++ _ : List ApiFile).Perm _
    rw [sv.whole]
    rfl
  | some t =>
    constructor
    · exact sv.whole q t.rest
    · intro t' ht'
      exact sv.shrinks q t t' hq ht'

end Server

/-! ## Procedures that raise nothing -/

section

variable {V : Service} {cp : Copier} {α β : Type} {s : Site V}

/-- From the state `s` the procedure returns, in a state of `Q`. -/
def CopierM.Succeeds (cp : Copier) (s : Site V) (x : CopierM α) (Q : α → Site V → Prop) : Prop :=
  ∀ past, Completes (⟨s, past⟩ : Scene cp V) x (fun a w => Q a w.state) fun _ _ => False

namespace CopierM.Succeeds

variable {Q R : α → Site V → Prop}

theorem pure {a : α} (h : Q a s) : Succeeds cp s (pure a : CopierM α) Q :=
  fun _ => Completes.pure h

theorem bind {x : CopierM α} {f : α → CopierM β} {Q : β → Site V → Prop}
    (hx : Succeeds cp s x R) (hf : ∀ a s', R a s' → Succeeds cp s' (f a) Q) :
    Succeeds cp s (x >>= f) Q := by
  intro past
  apply Completes.bind (hx past)
  rintro a ⟨s', past'⟩ h
  exact hf a s' h past'

theorem mono {x : CopierM α} (h : Succeeds cp s x R) (hR : ∀ a s', R a s' → Q a s') :
    Succeeds cp s x Q :=
  fun past => (h past).mono (fun a w => hR a w.state) fun _ _ h => h

/-- An access to the memory. -/
theorem mem {o : MemOp} {Q : o.Out → Site V → Prop}
    (h : Q (s.mem.exec o).1 ⟨(s.mem.exec o).2, s.drive⟩) : Succeeds cp s (mem o) Q :=
  fun _ => Completes.mem h

/-- An access to the memory before a continuation. -/
theorem mem_bind {o : MemOp} {f : o.Out → CopierM β} {Q : β → Site V → Prop}
    (h : Succeeds cp ⟨(s.mem.exec o).2, s.drive⟩ (f (s.mem.exec o).1) Q) :
    Succeeds cp s (CopierM.mem o >>= f) Q := by
  apply bind (R := fun a s' => a = (s.mem.exec o).1 ∧ s' = ⟨(s.mem.exec o).2, s.drive⟩)
    (mem ⟨rfl, rfl⟩)
  rintro a s' ⟨rfl, rfl⟩
  exact h

/-- The same with the outcome at hand. -/
theorem mem_run {o : MemOp} {f : o.Out → CopierM β} {Q : β → Site V → Prop} {x : o.Out} {m : Mem}
    (he : s.mem.exec o = (x, m)) (h : Succeeds cp ⟨m, s.drive⟩ (f x) Q) :
    Succeeds cp s (CopierM.mem o >>= f) Q := by
  apply mem_bind
  rw [he]
  exact h

theorem ask {q : Request} {Q : q.Ret → Site V → Prop} (some : ∃ x d, V.serves q s.drive x d)
    (h : ∀ x d, V.serves q s.drive x d → Q x ⟨s.mem, d⟩) : Succeeds cp s (ask q) Q :=
  fun _ => Completes.ask some h

theorem attempt {x : CopierM α} {Q : Except Exc α → Site V → Prop}
    (h : Succeeds cp s x fun a => Q (.ok a)) : Succeeds cp s (attempt x) Q :=
  fun past => Completes.attempt ((h past).mono (fun _ _ h => h) fun _ _ h => h.elim)

theorem orThrow_ok {a : α} (h : Q a s) : Succeeds cp s (orThrow (.ok a)) Q :=
  fun _ => Completes.pure h

theorem enter {l : Level} {Q : Unit → Site V → Prop} (h : Succeeds cp s (cp.processLevel l) Q) :
    Succeeds cp s (enter l) Q :=
  fun _ => Completes.enter (h _)

theorem drainFutures {Q : Unit → Site V → Prop} (h : Q () s) : Succeeds cp s drainFutures Q :=
  fun _ => Completes.drainFutures h

/-- One round of a loop. -/
theorem iterate {body : β → CopierM (β ⊕ α)} {b : β}
    (h : Succeeds cp s (body b) fun y s' => match y with
      | .inl b' => Succeeds cp s' (CopierM.iterate body b') Q
      | .inr a => Q a s') : Succeeds cp s (CopierM.iterate body b) Q := by
  intro past
  apply Completes.iterate_step ((h past).mono _ fun _ _ h => h)
  rintro (b' | a) ⟨s', past'⟩ hy
  · exact hy past'
  · exact hy

end CopierM.Succeeds

end

/-! ## Requests -/

namespace Server

variable {sv : Server} {cp : Copier} {s : Site sv.service} {α : Type}

theorem granted_or_missing {q : Request} {d d' : Drive} {x : q.Ret} (h : sv.Serves q d x d')
    (hq : ¬d.Lacks q) : Drive.Grants sv.profile q d x d' ∧ sv.Steady d q x := by
  cases h with
  | granted h hs => exact ⟨h, hs⟩
  | missing h => exact absurd h hq

theorem ask_nowIso {Q : String → Site sv.service → Prop} (h : ∀ t, Q t s) :
    Succeeds cp s (ask .nowIso) Q := by
  apply Succeeds.ask ⟨"", s.drive, .granted (.nowIso _ _) trivial⟩
  rintro t d (⟨⟨⟩, -⟩ | ⟨hlacks, -, -⟩)
  · exact h t
  · exact hlacks.elim

theorem ask_aboutUser {Q : Except ApiError (Option String) → Site sv.service → Prop}
    (h : Q (.ok sv.email) s) : Succeeds cp s (ask .aboutUser) Q := by
  have hserves : sv.Serves .aboutUser s.drive (.ok sv.email) s.drive :=
    .granted (.aboutUser _ _) rfl
  apply Succeeds.ask ⟨_, _, hserves⟩
  rintro x d (⟨⟨⟩, rfl⟩ | ⟨hlacks, -, -⟩)
  · exact h
  · exact hlacks.elim

theorem ask_id {id : String} {Q : Except ApiError ApiFile → Site sv.service → Prop}
    (h : Q (.ok sv.rootData) s) : Succeeds cp s (ask (.getMetadata id [.id])) Q := by
  have hserves : sv.Serves (.getMetadata id [.id]) s.drive (.ok sv.rootData) s.drive :=
    .granted (.getId _ _ _) fun _ => rfl
  apply Succeeds.ask ⟨_, _, hserves⟩
  rintro x d (⟨hg, hs⟩ | ⟨-, hq, -⟩)
  · have hx : x = .ok sv.rootData := hs rfl
    have hd : d = s.drive := by cases hg <;> rfl
    rw [hx, hd]
    exact h
  · exact absurd rfl (hq id)

/-- The metadata of a node, or that there is none. -/
theorem ask_getMetadata {id : String} {fields : List ApiField} (hf : fields ≠ [.id])
    {Q : Except ApiError ApiFile → Site sv.service → Prop}
    (hfound : ∀ n, s.drive.find id = some n → Q (.ok (n.file.view fields)) s)
    (hmissing : s.drive.find id = none → Q (.error Drive.notFound) s) :
    Succeeds cp s (ask (.getMetadata id fields)) Q := by
  apply Succeeds.ask
  · cases h : s.drive.find id with
    | none =>
      refine ⟨_, _, .missing (Drive.not_has_of_find h) (fun id' he => hf ?_) rfl⟩
      injection he
    | some n =>
      obtain ⟨hn, rfl⟩ := Drive.find_eq_some h
      exact ⟨_, _, .granted (.getMetadata s.drive n hn fields) fun he => absurd he hf⟩
  · rintro x d (⟨hg, -⟩ | ⟨hlacks, -, rfl⟩)
    · cases hg with
      | getId => exact absurd rfl hf
      | getMetadata _ n hn =>
        refine hfound n ?_
        cases h : s.drive.find n.id with
        | none => exact absurd ⟨n, hn, rfl⟩ (Drive.not_has_of_find h)
        | some m =>
          obtain ⟨hm, hid⟩ := Drive.find_eq_some h
          rw [Drive.eq_of_id hm hn hid]
    · refine hmissing ?_
      cases h : s.drive.find id with
      | none => rfl
      | some m => exact absurd ⟨m, Drive.find_eq_some h⟩ hlacks

theorem ask_listChildren {p : String} {ex : Option (List String)} {tok : Option PageToken}
    {Q : Except ApiError Page → Site sv.service → Prop}
    (h : Q (.ok (sv.turn (.listChildren p ex tok) (due (sv.folderFiles s.drive p ex) tok))) s) :
    Succeeds cp s (ask (.listChildren p ex tok)) Q := by
  apply Succeeds.ask
  · exact ⟨_, _, .granted (.listChildren _ p ex tok _ (sv.paged_turn _ _ _ tok rfl)) rfl⟩
  · rintro x d (⟨hg, rfl⟩ | ⟨hlacks, -, -⟩)
    · cases hg with
      | listChildren => exact h
    · exact hlacks.elim

theorem ask_listChildrenMulti {group ex : List String} {tok : Option PageToken}
    {Q : Except ApiError Page → Site sv.service → Prop}
    (h : Q (.ok (sv.turn (.listChildrenMulti group ex tok)
      (due (sv.groupFiles s.drive group ex) tok))) s) :
    Succeeds cp s (ask (.listChildrenMulti group ex tok)) Q := by
  apply Succeeds.ask
  · exact ⟨_, _, .granted (.listChildrenMulti _ group ex tok _ (sv.paged_turn _ _ _ tok rfl)) rfl⟩
  · rintro x d (⟨hg, rfl⟩ | ⟨hlacks, -, -⟩)
    · cases hg with
      | listChildrenMulti => exact h
    · exact hlacks.elim

theorem ask_search {q : FolderQuery} {size : ℕ} {Q : Except ApiError Page → Site sv.service → Prop}
    (h : Q (.ok (sv.turn (.search q size) (foundFiles s.drive q))) s) :
    Succeeds cp s (ask (.search q size)) Q := by
  apply Succeeds.ask
  · exact ⟨_, _, .granted (.search _ q size _ (sv.paged_turn _ _ _ none rfl) nofun) rfl⟩
  · rintro x d (⟨hg, rfl⟩ | ⟨hlacks, -, -⟩)
    · cases hg with
      | search => exact h
    · exact hlacks.elim

/-- A copy of a node of the Drive into a folder of the Drive. -/
theorem ask_copyFile {n : Node} (hn : n ∈ s.drive) {body : CopyBody} {vis rev : Bool} {p : String}
    (hbody : body.parent = some p) (hp : s.drive.has p)
    {Q : Except ApiError (Option String) → Site sv.service → Prop}
    (h : ∀ (f : ApiFile) (hf : s.drive.Fresh f.id), f.untimed = Drive.exactCopy n body →
      Q (.ok (some f.id)) ⟨s.mem, s.drive.add ⟨f, n.content⟩ hf⟩) :
    Succeeds cp s (ask (.copyFile n.id body vis rev)) Q := by
  have hparent : ∀ q, body.parent = some q → s.drive.has q := by
    intro q hq
    rwa [← Option.some.inj (hbody.symm.trans hq)]
  apply Succeeds.ask
  · exact ⟨_, _, .granted (.copyFile s.drive n hn body vis rev
      { Drive.exactCopy n body with id := s.drive.freshId } n.content s.drive.fresh_freshId
      ⟨rfl, rfl⟩ hparent) trivial⟩
  · intro x d hx
    obtain ⟨hg, -⟩ := granted_or_missing hx (by
      rintro (hlacks | hlacks)
      · exact hlacks ⟨n, hn, rfl⟩
      · exact hlacks p hbody hp)
    generalize hid : n.id = id at hg
    cases hg with
    | copyFile _ m hm _ _ _ f c hf hc hp' =>
      obtain rfl := Drive.eq_of_id hn hm hid
      obtain ⟨hexact, rfl⟩ := hc
      exact h f hf hexact

theorem ask_createFolder {name p : String} {props : Dict String} (hp : s.drive.has p)
    {Q : Except ApiError (Option String) → Site sv.service → Prop}
    (h : ∀ (id : String) (hf : s.drive.Fresh id), Q (.ok (some id)) ⟨s.mem, s.drive.add
      ⟨{ id := id, name := name, mimeType := folderMime, appProperties := props
         parents := [p] }, .text ""⟩ hf⟩) :
    Succeeds cp s (ask (.createFolder name p props)) Q := by
  apply Succeeds.ask
  · exact ⟨_, _, .granted (.createFolder s.drive name p props s.drive.freshId hp
      s.drive.fresh_freshId) trivial⟩
  · intro x d hx
    obtain ⟨hg, -⟩ := granted_or_missing hx fun hlacks => hlacks hp
    cases hg with
    | createFolder _ _ _ _ id hp hf => exact h id hf

theorem ask_createJsonFile {name p : String} {data : Content} {props : Dict String}
    (hp : s.drive.has p) {Q : Except ApiError (Option String) → Site sv.service → Prop}
    (h : ∀ (id : String) (size md5 : Option String) (hf : s.drive.Fresh id),
      Q (.ok (some id)) ⟨s.mem, s.drive.add
        ⟨{ id := id, name := name, mimeType := "application/json", size := size
           md5Checksum := md5, appProperties := props, parents := [p] }, data⟩ hf⟩) :
    Succeeds cp s (ask (.createJsonFile name p data props)) Q := by
  apply Succeeds.ask
  · exact ⟨_, _, .granted (.createJsonFile s.drive name p data props s.drive.freshId none none hp
      s.drive.fresh_freshId) trivial⟩
  · intro x d hx
    obtain ⟨hg, -⟩ := granted_or_missing hx fun hlacks => hlacks hp
    cases hg with
    | createJsonFile _ _ _ _ _ id size md5 hp hf => exact h id size md5 hf

theorem ask_updateFileContent {id : String} {data : Content} (hid : s.drive.has id)
    {Q : Except ApiError Unit → Site sv.service → Prop}
    (h : ∀ md5 size, Q (.ok ()) ⟨s.mem, s.drive.overwrite id data md5 size⟩) :
    Succeeds cp s (ask (.updateFileContent id data)) Q := by
  apply Succeeds.ask
  · exact ⟨_, _, .granted (.updateFileContent s.drive id data none none hid) trivial⟩
  · intro x d hx
    obtain ⟨hg, -⟩ := granted_or_missing hx fun hlacks => hlacks hid
    cases hg with
    | updateFileContent _ _ _ md5 size _ => exact h md5 size

/-- A file is put into the trash when it is there. -/
theorem ask_trashFile {id : String} {Q : Except ApiError Unit → Site sv.service → Prop}
    (h : ∀ x, Q x ⟨s.mem, s.drive.trash id⟩) : Succeeds cp s (ask (.trashFile id)) Q := by
  by_cases hid : s.drive.has id
  · have hserves : sv.Serves (.trashFile id) s.drive (.ok ()) (Drive.trash s.drive id) :=
      .granted (.trashFile s.drive id hid) trivial
    apply Succeeds.ask ⟨_, _, hserves⟩
    intro x d hx
    obtain ⟨hg, -⟩ := granted_or_missing hx fun hlacks => hlacks hid
    cases hg with
    | trashFile => exact h _
  · have hsame : s.drive.trash id = s.drive := Drive.trash_missing hid
    have hserves : sv.Serves (.trashFile id) s.drive (.error Drive.notFound) s.drive :=
      .missing hid nofun rfl
    apply Succeeds.ask ⟨_, _, hserves⟩
    rintro x d (⟨hg, -⟩ | ⟨-, -, -⟩)
    · cases hg with
      | trashFile _ _ hhas => exact absurd hhas hid
    · have hQ := h x
      rwa [hsame] at hQ

/-! ## Listings -/

theorem turn_none {q : Request} {files : List ApiFile} (h : (sv.turn q files).2 = none) :
    (sv.turn q files).1 = files := by
  have hwhole := sv.whole q files
  rw [h] at hwhole
  simpa [restOf] using hwhole

theorem turn_some {q : Request} {files : List ApiFile} {t : PageToken}
    (h : (sv.turn q files).2 = some t) : (sv.turn q files).1 ++ t.rest = files := by
  have hwhole := sv.whole q files
  rwa [h] at hwhole

theorem pagesLeft_turn {q : Request} {files : List ApiFile} {tok : Option PageToken}
    (hq : q.token = tok) {t : PageToken} (h : (sv.turn q (due files tok)).2 = some t) :
    Completes.pagesLeft (some t) < Completes.pagesLeft tok := by
  cases tok with
  | none => exact WithTop.coe_lt_top t.left
  | some t' => exact WithTop.coe_lt_coe.mpr (sv.shrinks q t' t hq h)

/-- What the pages of a listing from `tok` on add to it, with a page range: the same for every
copier with the exclude list and every Drive with the same listing. -/
theorem exists_listed (sv : Server) (files : List ApiFile) (p : String) (ex : List String)
    (a b : ℤ) (tok : Option PageToken) : ∀ n : ℕ,
    ∃ more : List ApiFile, more.Sublist (due files tok) ∧ (a = 0 → b = 0 → more = due files tok) ∧
      ∀ (cp : Copier) (s : Site sv.service) (parent : String) (out : List DriveFile),
        cp.config.excludeSubstrings = ex → sv.folderFiles s.drive p (some ex) = files →
        Succeeds cp s (CopierM.iterate (cp.listRound p a b parent) (out, tok, n))
          fun kids s' => s' = s ∧ kids = out ++ more.map DriveFile.fromApi := by
  induction hleft : Completes.pagesLeft tok using WellFoundedLT.induction generalizing tok with
  | ind m ih =>
    intro n
    generalize hpage : sv.turn (.listChildren p (some ex) tok) (due files tok) = page
    let kept : List ApiFile := if inPageRange a b (n + 1) then page.1 else []
    have hkept : kept.Sublist page.1 := by
      unfold kept
      split_ifs
      · exact List.Sublist.refl _
      · exact List.nil_sublist _
    have hall (ha : a = 0) (hb : b = 0) : kept = page.1 := by
      simp [kept, inPageRange, ha, hb]
    have hout (out : List DriveFile) : keepPage a b out page.1 (n + 1) =
        out ++ kept.map DriveFile.fromApi := by
      unfold keepPage kept
      split_ifs
      · rfl
      · simp
    have hask {cp : Copier} {s : Site sv.service} (hex : cp.config.excludeSubstrings = ex)
        (hfiles : sv.folderFiles s.drive p (some ex) = files) :
        Succeeds cp s (ask (.listChildren p (some cp.config.excludeSubstrings) tok))
          fun x s' => s' = s ∧ x = .ok page := by
      apply ask_listChildren
      rw [hex, hfiles, hpage]
      exact ⟨rfl, rfl⟩
    cases ht : page.2 with
    | none =>
      have hdue : page.1 = due files tok := by
        rw [← hpage] at ht ⊢
        exact turn_none ht
      refine ⟨kept, hdue ▸ hkept, fun ha hb => (hall ha hb).trans hdue, ?_⟩
      intro cp s parent out hex hfiles
      apply Succeeds.iterate
      apply Succeeds.bind (hask hex hfiles)
      rintro x s' ⟨rfl, rfl⟩
      dsimp only
      rw [ht, hout]
      exact Succeeds.pure ⟨rfl, rfl⟩
    | some t =>
      have hdue : page.1 ++ t.rest = due files tok := by
        rw [← hpage] at ht ⊢
        exact turn_some ht
      have hlt : Completes.pagesLeft (some t) < m := by
        rw [← hpage] at ht
        exact hleft ▸ pagesLeft_turn rfl ht
      obtain ⟨more, hmore, hrest, hrun⟩ := ih _ hlt (some t) rfl (n + 1)
      by_cases hstop : (decide (0 < b) && decide (b ≤ ((n + 1 : ℕ) : ℤ))) = true
      · refine ⟨kept, ?_, fun ha hb => ?_, ?_⟩
        · rw [← hdue]
          exact hkept.trans (List.sublist_append_left _ _)
        · simp [hb] at hstop
        · intro cp s parent out hex hfiles
          apply Succeeds.iterate
          apply Succeeds.bind (hask hex hfiles)
          rintro x s' ⟨rfl, rfl⟩
          dsimp only
          rw [ht, hout]
          dsimp only
          rw [if_pos hstop]
          exact Succeeds.pure ⟨rfl, rfl⟩
      · refine ⟨kept ++ more, ?_, fun ha hb => ?_, ?_⟩
        · rw [← hdue]
          exact hkept.append hmore
        · rw [hall ha hb, hrest ha hb, ← hdue]
          rfl
        · intro cp s parent out hex hfiles
          apply Succeeds.iterate
          apply Succeeds.bind (hask hex hfiles)
          rintro x s' ⟨rfl, rfl⟩
          dsimp only
          rw [ht, hout]
          dsimp only
          rw [if_neg hstop]
          apply Succeeds.pure
          apply (hrun cp s' parent _ hex hfiles).mono
          rintro kids s'' ⟨rfl, rfl⟩
          exact ⟨rfl, by rw [List.map_append, List.append_assoc]⟩

/-- The listing of a folder below the root. -/
theorem listChildren_succeeds (p parent : String) :
    Succeeds cp s (cp.listChildren p 0 0 parent) fun kids s' => s' = s ∧
      kids = shown (s.drive.listed sv.profile p (some cp.config.excludeSubstrings)) := by
  obtain ⟨more, -, hmore, hrun⟩ := exists_listed sv
    (sv.folderFiles s.drive p (some cp.config.excludeSubstrings)) p cp.config.excludeSubstrings 0 0
    none 0
  apply (hrun cp s parent [] rfl rfl).mono
  rintro kids s' ⟨rfl, rfl⟩
  refine ⟨rfl, ?_⟩
  rw [hmore rfl rfl]
  simp [due, folderFiles, shown, Function.comp_def]

/-- The files of an index from the page `tok` on. -/
theorem indexRounds_succeed (d : String) (tok : Option PageToken) : ∀ out : List DriveFile,
    Succeeds cp s (CopierM.iterate (indexRound d) (out, tok)) fun items s' => s' = s ∧
      items = out ++ (due (sv.folderFiles s.drive d none) tok).map DriveFile.fromApi := by
  induction hleft : Completes.pagesLeft tok using WellFoundedLT.induction generalizing tok with
  | ind m ih =>
    intro out
    generalize hpage : sv.turn (.listChildren d none tok) (due (sv.folderFiles s.drive d none) tok)
      = page
    apply Succeeds.iterate
    apply Succeeds.bind (R := fun x s' => s' = s ∧ x = .ok page)
    · apply ask_listChildren
      rw [hpage]
      exact ⟨rfl, rfl⟩
    · rintro x s' ⟨rfl, rfl⟩
      cases ht : page.2 with
      | none =>
        dsimp only
        rw [ht]
        rw [← hpage] at ht
        apply Succeeds.pure
        exact ⟨rfl, by rw [← hpage, turn_none ht]⟩
      | some t =>
        dsimp only
        rw [ht]
        rw [← hpage] at ht
        apply Succeeds.pure
        apply (ih _ (hleft ▸ pagesLeft_turn rfl ht) (some t) rfl _).mono
        rintro items s'' ⟨rfl, rfl⟩
        refine ⟨rfl, ?_⟩
        rw [← turn_some ht, List.map_append, hpage, List.append_assoc]
        rfl

/-- The files `_build_index` sees. -/
def indexed (d : Drive) (dest : Option String) : List DriveFile :=
  match truthy dest with
  | none => []
  | some p => shown (d.listed sv.profile p none)

theorem buildIndex_succeeds (dest : Option String) :
    Succeeds cp s (buildIndex dest) fun i s' => i = s.mem.indexes.length ∧
      s' = ⟨(s.mem.exec (.newIndex dest (sv.indexed s.drive dest))).2, s.drive⟩ := by
  unfold buildIndex indexed
  cases truthy dest with
  | none => exact Succeeds.mem ⟨rfl, rfl⟩
  | some d =>
    apply Succeeds.bind (indexRounds_succeed d none [])
    rintro items s' ⟨rfl, rfl⟩
    have hitems : [] ++ (due (sv.folderFiles s'.drive d none) none).map DriveFile.fromApi =
        shown (s'.drive.listed sv.profile d none) := by
      simp [due, folderFiles, shown, Function.comp_def]
    rw [hitems]
    exact Succeeds.mem ⟨rfl, rfl⟩

/-! ## Batched listings -/

variable {ex : List String} {group : List String}

/-- The files that the listing of a group has for one of its folders. -/
theorem groupFiles_of (d : Drive) {p : String} (hp : p ∈ group) :
    ((sv.groupFiles d group ex).filter fun f => p ∈ f.parents).map DriveFile.fromApi =
      shown (d.listed sv.profile p (some ex)) := by
  unfold groupFiles shown Drive.listed Drive.listedMulti
  rw [List.filter_map, List.map_map, List.filter_filter]
  have hfilter : (d.nodes.filter fun n => decide (p ∈ (n.file.view multiFields).parents) &&
        ((group.any fun p => n.liveIn p) && !sv.profile.hides ex n.file)) =
      d.nodes.filter fun n => n.liveIn p && !sv.profile.hides ex n.file := by
    apply List.filter_congr
    intro n _
    rw [parents_view_multi]
    by_cases hmem : p ∈ n.file.parents
    · cases htrashed : n.file.trashed with
      | true => simp [Node.liveIn, htrashed]
      | false =>
        have hany : (group.any fun p => n.liveIn p) = true :=
          List.any_eq_true.mpr ⟨p, hp, by simp [Node.liveIn, htrashed, hmem]⟩
        rw [hany]
        simp [Node.liveIn, htrashed, hmem]
    · simp [Node.liveIn, hmem]
  simp only [Option.any_some, Function.comp_def] at hfilter ⊢
  rw [hfilter]
  apply List.map_congr_left
  intro n _
  exact fromApi_view_multi n.file

theorem multiRounds_succeed (group : List String) (tok : Option PageToken) : ∀ out : ChildMap,
    Succeeds cp s (CopierM.iterate (fun r : ChildMap × Option PageToken => do
      let page ← (do orThrow (← ask (.listChildrenMulti group cp.config.excludeSubstrings r.2)))
      match page.2 with
      | none => pure (.inr (addPage group r.1 page.1))
      | some t => pure (.inl (addPage group r.1 page.1, some t))) (out, tok)) fun found s' =>
        s' = s ∧ found = addPage group out
          (due (sv.groupFiles s.drive group cp.config.excludeSubstrings) tok) := by
  induction hleft : Completes.pagesLeft tok using WellFoundedLT.induction generalizing tok with
  | ind m ih =>
    intro out
    generalize hpage : sv.turn (.listChildrenMulti group cp.config.excludeSubstrings tok)
      (due (sv.groupFiles s.drive group cp.config.excludeSubstrings) tok) = page
    apply Succeeds.iterate
    apply Succeeds.bind (R := fun x s' => s' = s ∧ x = page)
    · apply Succeeds.bind (R := fun x s' => s' = s ∧ x = .ok page)
      · apply ask_listChildrenMulti
        rw [hpage]
        exact ⟨rfl, rfl⟩
      · rintro x s' ⟨rfl, rfl⟩
        exact Succeeds.orThrow_ok ⟨rfl, rfl⟩
    · rintro x s' ⟨rfl, rfl⟩
      cases ht : x.2 with
      | none =>
        rw [← hpage] at ht
        apply Succeeds.pure
        exact ⟨rfl, by rw [← hpage, turn_none ht]⟩
      | some t =>
        rw [← hpage] at ht
        apply Succeeds.pure
        apply (ih _ (hleft ▸ pagesLeft_turn rfl ht) (some t) rfl _).mono
        rintro found s'' ⟨rfl, rfl⟩
        refine ⟨rfl, ?_⟩
        rw [← turn_some ht, hpage, addPage, addPage, addPage, List.foldl_append]
        rfl

/-- The listing of a group has the listing of each of its folders. -/
theorem listBatch_succeeds (group : List String) (hnodup : ∀ n ∈ s.drive, n.file.parents.Nodup) :
    Succeeds cp s (cp.listBatch group) fun batched s' => s' = s ∧ ∃ out, batched = some out ∧
      ∀ p ∈ group, AList.lookup p out =
        some (shown (s.drive.listed sv.profile p (some cp.config.excludeSubstrings))) := by
  unfold listBatch
  apply Succeeds.bind (R := fun r s' => s' = s ∧ r = .ok (addPage group (emptyMap group)
    (sv.groupFiles s.drive group cp.config.excludeSubstrings)))
  · apply Succeeds.attempt
    apply (multiRounds_succeed group none (emptyMap group)).mono
    rintro out s' ⟨rfl, rfl⟩
    exact ⟨rfl, rfl⟩
  · rintro r s' ⟨rfl, rfl⟩
    apply Succeeds.pure
    refine ⟨rfl, _, rfl, fun p hp => ?_⟩
    have hfiles : ∀ f ∈ sv.groupFiles s'.drive group cp.config.excludeSubstrings,
        f.parents.Nodup := by
      intro f hf
      obtain ⟨n, hn, rfl⟩ := List.mem_map.mp hf
      rw [parents_view_multi]
      exact hnodup n (List.mem_of_mem_filter hn)
    rw [lookup_addPage group p hp _ _ [] hfiles (lookup_emptyMap hp), List.nil_append,
      groupFiles_of s'.drive hp]

theorem confirmOne_succeeds {out : ChildMap} {p : String} (hp : p ∈ group)
    (hout : ∀ p ∈ group, AList.lookup p out =
      some (shown (s.drive.listed sv.profile p (some cp.config.excludeSubstrings)))) :
    Succeeds cp s (cp.confirmOne group (some out) p) fun kids s' => s' = s ∧
      kids = shown (s.drive.listed sv.profile p (some cp.config.excludeSubstrings)) := by
  have hgot : batchedChildren group (some out) p =
      shown (s.drive.listed sv.profile p (some cp.config.excludeSubstrings)) := by
    unfold batchedChildren
    dsimp only
    split_ifs with hempty
    · have hnone := List.all_eq_true.mp (Bool.and_eq_true_iff.mp hempty).2 p hp
      rw [hout p hp, Option.getD_some, List.isEmpty_iff] at hnone
      rw [hnone]
    · rw [hout p hp, Option.getD_some]
  unfold confirmOne
  dsimp only
  rw [hgot]
  split_ifs
  · exact listChildren_succeeds p p
  · exact Succeeds.pure ⟨rfl, rfl⟩

theorem confirmBatch_succeeds {out : ChildMap}
    (hout : ∀ p ∈ group, AList.lookup p out =
      some (shown (s.drive.listed sv.profile p (some cp.config.excludeSubstrings)))) :
    ∀ (fids : List String) (result : ChildMap), (∀ p ∈ fids, p ∈ group) →
      Succeeds cp s (cp.confirmBatch group (some out) fids result) fun found s' => s' = s ∧
        ∀ p, AList.lookup p found = if p ∈ fids
          then some (shown (s.drive.listed sv.profile p (some cp.config.excludeSubstrings)))
          else AList.lookup p result := by
  intro fids
  induction fids with
  | nil => intro result _; exact Succeeds.pure ⟨rfl, fun p => by simp⟩
  | cons x fids ih =>
    intro result hsub
    apply Succeeds.bind (confirmOne_succeeds (hsub x List.mem_cons_self) hout)
    rintro kids s' ⟨rfl, rfl⟩
    apply (ih _ fun p hp => hsub p (List.mem_cons_of_mem x hp)).mono
    rintro found s'' ⟨rfl, hfound⟩
    refine ⟨rfl, fun p => ?_⟩
    rw [hfound p]
    by_cases hx : p = x
    · subst hx
      simp
    · simp [hx, AList.lookup_insert_ne hx]

/-- `_batched_list` finds the listing of every folder. -/
theorem batchedList_succeeds (hstop : s.mem.stop = false)
    (hnodup : ∀ n ∈ s.drive, n.file.parents.Nodup) :
    ∀ (groups : List (List String)) (result : ChildMap),
      Succeeds cp s (cp.batchedList groups result) fun found s' => s' = s ∧
        ∀ p, AList.lookup p found = if p ∈ groups.flatten
          then some (shown (s.drive.listed sv.profile p (some cp.config.excludeSubstrings)))
          else AList.lookup p result := by
  intro groups
  induction groups with
  | nil => intro result; exact Succeeds.pure ⟨rfl, fun p => by simp⟩
  | cons group groups ih =>
    intro result
    unfold batchedList
    apply Succeeds.mem_bind
    have hrun : (s.mem.exec .stopIsSet).1 = false := hstop
    rw [hrun]
    apply Succeeds.bind (listBatch_succeeds group hnodup)
    rintro batched s' ⟨rfl, out, rfl, hout⟩
    apply Succeeds.bind (confirmBatch_succeeds hout group result fun _ h => h)
    rintro mid s'' ⟨rfl, hmid⟩
    apply (ih mid).mono
    rintro found s₃ ⟨rfl, hfound⟩
    refine ⟨rfl, fun p => ?_⟩
    rw [hfound p, hmid p]
    by_cases hp : p ∈ groups.flatten
    · simp only [List.flatten_cons, List.mem_append, hp, or_true, if_true]
    · simp only [List.flatten_cons, List.mem_append, hp, or_false, if_false]

end Server

end TurboCopy
