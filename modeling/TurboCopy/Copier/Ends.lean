import TurboCopy.Copier.Sweeps

/-!
# The beginning and the end of a run

What comes before the traversal depends on the Drive only: the account, whether the destination
is inside the source, and whether it can be used. What comes after it trashes the logs or exports
the failures.
-/

namespace TurboCopy

open Threads CopierM Copier

/-- The folder itself, and what has a parent below it. -/
inductive Drive.Under (d : Drive) (ancestor : String) : String → Prop
  | self : Under d ancestor ancestor
  | parent {m : Node} {p : String} (hm : m ∈ d) (hp : p ∈ m.file.parents) (h : Under d ancestor p) :
      Under d ancestor m.id

namespace Server

variable {sv : Server} {α β : Type} {d : Drive}

/-- A procedure that changes nothing, with an answer that depends on the Drive only. -/
def Reads (sv : Server) (d : Drive) (x : CopierM α) (a : α) : Prop :=
  ∀ (cp : Copier) (s : Site sv.service), s.drive = d →
    Succeeds cp s x fun a' s' => s' = s ∧ a' = a

theorem Reads.pure (a : α) : sv.Reads d (pure a : CopierM α) a :=
  fun _ _ _ => Succeeds.pure ⟨rfl, rfl⟩

theorem Reads.bind {x : CopierM α} {f : α → CopierM β} {a : α} {b : β} (hx : sv.Reads d x a)
    (hf : sv.Reads d (f a) b) : sv.Reads d (x >>= f) b := by
  intro cp s hs
  apply Succeeds.bind (hx cp s hs)
  rintro a s' ⟨rfl, rfl⟩
  exact hf cp s' hs

/-- The metadata of a node, or the error that says it is missing. -/
def metadata (d : Drive) (id : String) (fields : List ApiField) : Except ApiError ApiFile :=
  match d.find id with
  | some n => .ok (n.file.view fields)
  | none => .error Drive.notFound

theorem reads_metadata {id : String} {fields : List ApiField} (hf : fields ≠ [.id]) :
    sv.Reads d (ask (.getMetadata id fields)) (metadata d id fields) := by
  rintro cp s rfl
  unfold metadata
  apply ask_getMetadata hf
  · intro n hn
    rw [hn]
    exact ⟨rfl, rfl⟩
  · intro hnone
    rw [hnone]
    exact ⟨rfl, rfl⟩

/-- The parents in the metadata of a node. -/
theorem metadata_parents {id : String} {data : ApiFile}
    (h : metadata d id [.id, .parents] = .ok data) :
    ∃ m ∈ d, m.id = id ∧ data.parents = m.file.parents := by
  unfold metadata at h
  split at h
  · rename_i m hm
    obtain ⟨hmem, hid⟩ := Drive.find_eq_some hm
    obtain rfl := Except.ok.inj h
    exact ⟨m, hmem, hid, rfl⟩
  · exact nomatch h

theorem Reads.iterate {body : β → CopierM (β ⊕ α)} {b : β} {y : β ⊕ α} {a : α}
    (hbody : sv.Reads d (body b) y) (hy : match y with
      | .inl b' => sv.Reads d (CopierM.iterate body b') a
      | .inr a' => a' = a) : sv.Reads d (CopierM.iterate body b) a := by
  intro cp s hs
  apply Succeeds.iterate
  apply (hbody cp s hs).mono
  rintro y s' ⟨rfl, rfl⟩
  cases y with
  | inl b' => exact hy cp s' hs
  | inr a' => exact ⟨rfl, hy⟩

/-- The walk up the parents comes to an end, since it sees at most 200 folders. What it finds is
above a folder of the stack. -/
theorem exists_climb (sv : Server) (d : Drive) (ancestor : String) (n : ℕ) :
    ∀ seen : List String, 200 ≤ seen.length + n → ∀ stack : List String,
      ∃ b, sv.Reads d (CopierM.iterate (climb ancestor 200) (stack, seen)) b ∧
        (b = true → ∃ x ∈ stack, d.Under ancestor x) := by
  induction n with
  | zero =>
    intro seen hseen stack
    refine ⟨false, Reads.iterate (y := .inr false) ?_ rfl, nofun⟩
    unfold climb
    cases stack with
    | nil => exact Reads.pure _
    | cons cur stack =>
      dsimp only
      rw [if_pos (by omega)]
      exact Reads.pure _
  | succ n ih =>
    intro seen hseen stack
    induction stack with
    | nil => exact ⟨false, Reads.iterate (y := .inr false) (Reads.pure _) rfl, nofun⟩
    | cons cur stack ihstack =>
      have hrest {b : Bool} (hb : b = true → ∃ x ∈ stack, d.Under ancestor x) :
          b = true → ∃ x ∈ cur :: stack, d.Under ancestor x := by
        intro htrue
        obtain ⟨x, hx, hunder⟩ := hb htrue
        exact ⟨x, List.mem_cons_of_mem cur hx, hunder⟩
      by_cases hmax : 200 ≤ seen.length
      · refine ⟨false, Reads.iterate (y := .inr false) ?_ rfl, nofun⟩
        unfold climb
        dsimp only
        rw [if_pos hmax]
        exact Reads.pure _
      by_cases hfound : cur = ancestor
      · refine ⟨true, Reads.iterate (y := .inr true) ?_ rfl, fun _ => ?_⟩
        · unfold climb
          dsimp only
          rw [if_neg hmax, if_pos hfound]
          exact Reads.pure _
        · exact ⟨cur, List.mem_cons_self, hfound ▸ .self⟩
      by_cases hcur : cur ∈ seen
      · obtain ⟨b, hb, hunder⟩ := ihstack
        refine ⟨b, Reads.iterate (y := .inl (stack, seen)) ?_ hb, hrest hunder⟩
        unfold climb
        dsimp only
        rw [if_neg hmax, if_neg hfound, if_pos hcur]
        exact Reads.pure _
      have hlen : 200 ≤ (cur :: seen).length + n := by
        rw [List.length_cons]
        omega
      cases hdata : metadata d cur [.id, .parents] with
      | error e =>
        obtain ⟨b, hb, hunder⟩ := ih (cur :: seen) hlen stack
        refine ⟨b, Reads.iterate (y := .inl (stack, cur :: seen)) ?_ hb, hrest hunder⟩
        unfold climb
        dsimp only
        rw [if_neg hmax, if_neg hfound, if_neg hcur]
        apply Reads.bind (reads_metadata (by decide))
        rw [hdata]
        exact Reads.pure _
      | ok data =>
        let stack' := (data.parents.filter fun p => p ∉ cur :: seen).reverse ++ stack
        obtain ⟨b, hb, hunder⟩ := ih (cur :: seen) hlen stack'
        refine ⟨b, Reads.iterate (y := .inl (stack', cur :: seen)) ?_ hb, fun htrue => ?_⟩
        · unfold climb
          dsimp only
          rw [if_neg hmax, if_neg hfound, if_neg hcur]
          apply Reads.bind (reads_metadata (by decide))
          rw [hdata]
          exact Reads.pure _
        · obtain ⟨x, hx, hx'⟩ := hunder htrue
          rcases List.mem_append.mp hx with hx | hx
          · obtain ⟨m, hm, rfl, hparents⟩ := metadata_parents hdata
            have hparent : x ∈ m.file.parents :=
              hparents ▸ List.mem_of_mem_filter (List.mem_reverse.mp hx)
            exact ⟨m.id, List.mem_cons_self, .parent hm hparent hx'⟩
          · exact ⟨x, List.mem_cons_of_mem cur hx, hx'⟩

/-- Whether the destination is inside the source. If it is found to be, it is. -/
theorem exists_isDescendantOf (sv : Server) (d : Drive) (candidate ancestor : String) :
    ∃ b, sv.Reads d (isDescendantOf candidate ancestor) b ∧
      (b = true → d.Under ancestor candidate) := by
  unfold isDescendantOf
  split_ifs
  · exact ⟨false, Reads.pure false, nofun⟩
  · obtain ⟨b, hb, hunder⟩ := exists_climb sv d ancestor 200 [] (by simp) [candidate]
    refine ⟨b, hb, fun htrue => ?_⟩
    obtain ⟨x, hx, hx'⟩ := hunder htrue
    obtain rfl := List.mem_singleton.mp hx
    exact hx'

/-- Whether the destination parent can be used; if so it is there. -/
theorem exists_preflight (sv : Server) (d : Drive) (destParent : String) :
    ∃ o, sv.Reads d (preflight destParent) o ∧ (o = none → d.has destParent) := by
  have hask : sv.Reads d (ask (.getMetadata destParent [.id, .mimeType, .trashed, .capabilities]))
      (metadata d destParent [.id, .mimeType, .trashed, .capabilities]) :=
    reads_metadata (by decide)
  unfold preflight
  cases hdata : metadata d destParent [.id, .mimeType, .trashed, .capabilities] with
  | error e =>
    refine ⟨some s!"Cannot access destination folder: {e.text}", Reads.bind hask ?_, nofun⟩
    rw [hdata]
    exact Reads.pure _
  | ok data =>
    have hhas : d.has destParent := by
      unfold metadata at hdata
      split at hdata
      · rename_i n hn
        exact ⟨n, Drive.find_eq_some hn⟩
      · exact nomatch hdata
    rw [hdata] at hask
    by_cases htrashed : data.trashed = true
    · refine ⟨some "Destination folder is in the trash.", Reads.bind hask ?_, nofun⟩
      dsimp only
      rw [if_pos htrashed]
      exact Reads.pure _
    · by_cases hadd : data.canAddChildren = some false
      · refine ⟨some "You do not have permission to add files to the destination folder.",
          Reads.bind hask ?_, nofun⟩
        dsimp only
        rw [if_neg htrashed, if_pos hadd]
        exact Reads.pure _
      · refine ⟨none, Reads.bind hask ?_, fun _ => hhas⟩
        dsimp only
        rw [if_neg htrashed, if_neg hadd]
        exact Reads.pure _

/-- The account of the run. -/
def account (sv : Server) : Option String :=
  match truthy sv.email with
  | some e => some e
  | none => some s!"root-{sv.rootData.id}"

theorem reads_accountId : sv.Reads d accountId sv.account := by
  unfold accountId account
  intro cp s hs
  apply Succeeds.bind (R := fun x s' => s' = s ∧ x = .ok sv.email) (ask_aboutUser ⟨rfl, rfl⟩)
  rintro x s' ⟨rfl, rfl⟩
  dsimp only
  cases truthy sv.email with
  | some e => exact Succeeds.pure ⟨rfl, rfl⟩
  | none =>
    apply Succeeds.bind (R := fun x s'' => s'' = s' ∧ x = .ok sv.rootData) (ask_id ⟨rfl, rfl⟩)
    rintro x s'' ⟨rfl, rfl⟩
    exact Succeeds.pure ⟨rfl, rfl⟩

/-! ## The logs and the report -/

variable {cp : Copier} {s : Site sv.service}

theorem listPage_succeeds {R : String} {tok : Option PageToken} {page : Page}
    (hpage : sv.turn (.listChildren R none tok) (due (sv.folderFiles s.drive R none) tok) = page) :
    Succeeds cp s (listPage R tok) fun x s' => s' = s ∧ x = page := by
  unfold listPage
  apply Succeeds.bind (R := fun x s' => s' = s ∧ x = .ok page)
  · apply ask_listChildren
    rw [hpage]
    exact ⟨rfl, rfl⟩
  · rintro x s' ⟨rfl, rfl⟩
    exact Succeeds.orThrow_ok ⟨rfl, rfl⟩

/-- The pages of the logs from `tok` on. -/
theorem logRounds_succeed (R : String) (tok : Option PageToken) : ∀ out : List ApiFile,
    Succeeds cp s (CopierM.iterate (fun r : List ApiFile × Option PageToken => do
      let page ← listPage R r.2
      match page.2 with
      | none => pure (.inr (r.1 ++ page.1.filter fun f => startsWith f.name logPrefix))
      | some t =>
        pure (.inl (r.1 ++ page.1.filter fun f => startsWith f.name logPrefix, some t)))
      (out, tok)) fun files s' => s' = s ∧ files = out ++
        (due (sv.folderFiles s.drive R none) tok).filter fun f => startsWith f.name logPrefix := by
  induction hleft : Completes.pagesLeft tok using WellFoundedLT.induction generalizing tok with
  | ind m ih =>
    intro out
    generalize hpage : sv.turn (.listChildren R none tok) (due (sv.folderFiles s.drive R none) tok)
      = page
    apply Succeeds.iterate
    apply Succeeds.bind (listPage_succeeds hpage)
    rintro x s' ⟨rfl, rfl⟩
    cases ht : x.2 with
    | none =>
      rw [← hpage] at ht
      apply Succeeds.pure
      exact ⟨rfl, by rw [← hpage, turn_none ht]⟩
    | some t =>
      rw [← hpage] at ht
      apply Succeeds.pure
      apply (ih _ (hleft ▸ pagesLeft_turn rfl ht) (some t) rfl _).mono
      rintro files s'' ⟨rfl, rfl⟩
      refine ⟨rfl, ?_⟩
      rw [← turn_some ht, List.filter_append, hpage, List.append_assoc]
      rfl

/-- The logs of a folder. -/
theorem listLogFiles_succeeds (R : String) : Succeeds cp s (listLogFiles R) fun files s' =>
    s' = s ∧ files = (sv.folderFiles s.drive R none).filter fun f => startsWith f.name logPrefix :=
  logRounds_succeed R none []

/-- The ids of the files that a cleanup trashes. -/
def storeIds (files : List ApiFile) : List String :=
  (files.filter fun f => isOwned f && isStoreName f.name).map ApiFile.id

theorem trashOwned_succeeds (files : List ApiFile) : ∀ s : Site sv.service,
    Succeeds cp s (trashOwned files) fun _ s' => s'.mem = s.mem ∧
      s'.drive = (storeIds files).foldl Drive.trash s.drive := by
  induction files with
  | nil => exact fun s => Succeeds.pure ⟨rfl, rfl⟩
  | cons f files ih =>
    intro s
    unfold trashOwned trashIfOwned storeIds
    rw [List.filter_cons]
    split_ifs
    · apply Succeeds.bind (R := fun _ s' => s'.mem = s.mem ∧ s'.drive = Drive.trash s.drive f.id)
      · apply Succeeds.bind (R := fun _ s' => s'.mem = s.mem ∧
          s'.drive = Drive.trash s.drive f.id) (ask_trashFile fun _ => ⟨rfl, rfl⟩)
        exact fun _ s' hs' => Succeeds.pure hs'
      · rintro _ s' ⟨hm, hd⟩
        apply (ih s').mono
        rintro _ s'' ⟨hm', hd'⟩
        exact ⟨hm'.trans hm, by rw [hd', hd]; rfl⟩
    · apply Succeeds.bind (R := fun _ s' => s' = s) (Succeeds.pure rfl)
      rintro _ s' rfl
      exact ih s'

theorem storeIds_append (files files' : List ApiFile) :
    storeIds (files ++ files') = storeIds files ++ storeIds files' := by
  simp [storeIds]

/-- The pages of a cleanup from `tok` on. -/
theorem cleanupRounds_succeed (R : String) (tok : Option PageToken) : ∀ s : Site sv.service,
    Succeeds cp s (CopierM.iterate (fun token => do
      let page ← listPage R token
      trashOwned page.1
      match page.2 with
      | none => pure (.inr ())
      | some t => pure (.inl (some t))) tok) fun _ s' => s'.mem = s.mem ∧
        s'.drive = (storeIds (due (sv.folderFiles s.drive R none) tok)).foldl Drive.trash
          s.drive := by
  induction hleft : Completes.pagesLeft tok using WellFoundedLT.induction generalizing tok with
  | ind m ih =>
    intro s
    generalize hpage : sv.turn (.listChildren R none tok) (due (sv.folderFiles s.drive R none) tok)
      = page
    apply Succeeds.iterate
    apply Succeeds.bind (listPage_succeeds hpage)
    rintro x s' ⟨rfl, rfl⟩
    apply Succeeds.bind (trashOwned_succeeds x.1 s')
    rintro _ s'' ⟨hm, hd⟩
    cases ht : x.2 with
    | none =>
      rw [← hpage] at ht
      apply Succeeds.pure
      refine ⟨hm, ?_⟩
      rw [hd, ← hpage, turn_none ht]
    | some t =>
      rw [← hpage] at ht
      apply Succeeds.pure
      apply (ih _ (hleft ▸ pagesLeft_turn rfl ht) (some t) rfl s'').mono
      rintro _ s₃ ⟨hm', hd'⟩
      refine ⟨hm'.trans hm, ?_⟩
      rw [hd', hd, ← turn_some ht, hpage, storeIds_append, List.foldl_append]
      rfl

/-- A cleanup trashes the files of the store in the destination root. -/
theorem cleanup_succeeds (R : String) : Succeeds cp s (cleanup R) fun _ s' => s'.mem = s.mem ∧
    s'.drive = (storeIds (sv.folderFiles s.drive R none)).foldl Drive.trash s.drive :=
  cleanupRounds_succeed R none s

/-- The pages of a search for a file of the store from `tok` on. -/
theorem findRounds_succeed (R name : String) (tok : Option PageToken) :
    Succeeds cp s (CopierM.iterate (fun token => do
      let page ← listPage R token
      match page.1.find? fun f => f.name = name && isOwned f with
      | some f => pure (.inr (some f.id))
      | none =>
        match page.2 with
        | none => pure (.inr none)
        | some t => pure (.inl (some t))) tok) fun o s' => s' = s ∧
          o = ((due (sv.folderFiles s.drive R none) tok).find? fun f =>
            f.name = name && isOwned f).map ApiFile.id := by
  induction hleft : Completes.pagesLeft tok using WellFoundedLT.induction generalizing tok with
  | ind m ih =>
    generalize hpage : sv.turn (.listChildren R none tok) (due (sv.folderFiles s.drive R none) tok)
      = page
    apply Succeeds.iterate
    apply Succeeds.bind (listPage_succeeds hpage)
    rintro x s' ⟨rfl, rfl⟩
    have hsplit : x.1 ++ restOf x.2 = due (sv.folderFiles s'.drive R none) tok := by
      rw [← hpage]
      exact sv.whole _ _
    rw [← hsplit, List.find?_append]
    cases hfind : x.1.find? fun f => f.name = name && isOwned f with
    | some f => exact Succeeds.pure ⟨rfl, rfl⟩
    | none =>
      cases ht : x.2 with
      | none => exact Succeeds.pure ⟨rfl, rfl⟩
      | some t =>
        rw [← hpage] at ht
        apply Succeeds.pure
        exact ih _ (hleft ▸ pagesLeft_turn rfl ht) (some t) rfl

/-- The first file of the store with a name. -/
theorem findOwned_succeeds (R name : String) : Succeeds cp s (findOwned R name) fun o s' => s' = s ∧
    o = ((sv.folderFiles s.drive R none).find? fun f => f.name = name && isOwned f).map
      ApiFile.id :=
  findRounds_succeed R name none

/-- The report of failures in a folder that an export overwrites. -/
def reportIn (sv : Server) (d : Drive) (R : String) : Option String :=
  ((sv.folderFiles d R none).find? fun f => f.name = failedReportName && isOwned f).bind fun f =>
    truthy (some f.id)

/-- The node of a new report. -/
structure IsReport (R : String) (n : Node) : Prop where
  name : n.file.name = failedReportName
  mimeType : n.file.mimeType = "application/json"
  props : n.file.appProperties = toolProps
  live : n.file.trashed = false
  parents : n.file.parents = [R]

/-- The Drive after an export: a report is overwritten, or there was none and one is made. -/
inductive Exported (sv : Server) (d : Drive) (R : String) : Drive → Prop
  | overwritten {id : String} (h : sv.reportIn d R = some id) (data : Content)
      (md5 size : Option String) : Exported sv d R (d.overwrite id data md5 size)
  | made (h : sv.reportIn d R = none) (n : Node) (hf : d.Fresh n.id) (hn : IsReport R n) :
      Exported sv d R (d.add n hf)

/-- The report that is made when none is found. -/
theorem makeReport_succeeds {R : String} (hhas : s.drive.has R) (data : Content)
    (hnone : sv.reportIn s.drive R = none) :
    Succeeds cp s (do
      let _ ← orThrow (← ask (.createJsonFile failedReportName R data toolProps))
      pure ()) fun _ s' => s'.mem = s.mem ∧ Exported sv s.drive R s'.drive := by
  apply Succeeds.bind (R := fun x s' => ∃ id, x = .ok (some id) ∧ s'.mem = s.mem ∧
    Exported sv s.drive R s'.drive)
  · apply ask_createJsonFile hhas
    intro id size md5 hf
    exact ⟨id, rfl, rfl, .made hnone _ hf ⟨rfl, rfl, rfl, rfl, rfl⟩⟩
  · rintro x s' ⟨id, rfl, hs'⟩
    apply Succeeds.bind (R := fun _ s'' => s'' = s') (Succeeds.orThrow_ok rfl)
    rintro _ s'' rfl
    exact Succeeds.pure hs'

theorem exportFailedReport_succeeds {R : String} (hR : R ≠ "") (hhas : s.drive.has R)
    {failed : List FailedItem} (hfailed : failed.isEmpty = false) :
    Succeeds cp s (exportFailedReport R failed) fun _ s' => s'.mem = s.mem ∧
      Exported sv s.drive R s'.drive := by
  unfold exportFailedReport
  rw [hfailed, decide_eq_false hR, Bool.or_false, if_neg Bool.false_ne_true]
  apply Succeeds.bind (R := fun _ s' => s' = s) (ask_nowIso fun _ => rfl)
  rintro now s rfl
  apply Succeeds.bind (findOwned_succeeds R failedReportName)
  rintro o s ⟨rfl, ho⟩
  cases hfind : (sv.folderFiles s.drive R none).find? fun f =>
    f.name = failedReportName && isOwned f with
  | some f =>
    obtain ⟨n, hn, rfl⟩ := List.mem_map.mp (List.mem_of_find?_eq_some hfind)
    rw [hfind, Option.map_some] at ho
    subst ho
    have hreport : sv.reportIn s.drive R = truthy (some n.id) := by
      rw [reportIn, hfind]
      rfl
    by_cases hid : n.id = ""
    · rw [show truthy (some (n.file.view listFields).id) = none from if_pos hid]
      exact makeReport_succeeds hhas _ (hreport.trans (if_pos hid))
    · rw [show truthy (some (n.file.view listFields).id) = some n.id from truthy_some hid]
      dsimp only
      apply Succeeds.bind (R := fun x s' => x = .ok () ∧ s'.mem = s.mem ∧
        Exported sv s.drive R s'.drive)
      · apply ask_updateFileContent ⟨n, List.mem_of_mem_filter hn, rfl⟩
        intro md5 size
        exact ⟨rfl, rfl, .overwritten (hreport.trans (truthy_some hid)) _ md5 size⟩
      · rintro x s' ⟨rfl, hs'⟩
        exact Succeeds.orThrow_ok hs'
  | none =>
    rw [hfind, Option.map_none] at ho
    subst ho
    apply makeReport_succeeds hhas
    rw [reportIn, hfind]
    rfl

/-- The Drive after the logs of a folder have been trashed. -/
def swept (sv : Server) (d : Drive) (R : String) : Drive :=
  (storeIds (sv.folderFiles d R none)).foldl Drive.trash d

/-- What the end of a run does to a Drive: the logs go after a run without any failure, and
otherwise the failures are exported. -/
def Settled (sv : Server) (r : CopyResult) (dry : Bool) (d : Drive) : Option String → Drive → Prop
  | none, d' => d' = d
  | some R, d' =>
    if r.fullyOk then d' = sv.swept d R
    else if r.hasFailures && !dry then Exported sv d R d' else d' = d

/-- The end of a dry run leaves the Drive as it is. -/
theorem Settled.of_dry {r : CopyResult} {d d' : Drive} {R : Option String}
    (h : sv.Settled r true d R d') (hr : r.dryRun = true) : d' = d := by
  cases R with
  | none => exact h
  | some R =>
    have hok : r.fullyOk = false := by simp [CopyResult.fullyOk, hr]
    unfold Settled at h
    dsimp only at h
    rw [hok, if_neg Bool.false_ne_true, Bool.not_true, Bool.and_false,
      if_neg Bool.false_ne_true] at h
    exact h

theorem cleanupAfter_succeeds (destRoot : Option String) :
    Succeeds cp s (cleanupAfter destRoot) fun _ s' => s'.mem = s.mem ∧
      s'.drive = match truthy destRoot with
        | none => s.drive
        | some R => if s.mem.result.fullyOk then sv.swept s.drive R else s.drive := by
  unfold cleanupAfter
  apply Succeeds.mem_bind
  cases truthy destRoot with
  | none => exact Succeeds.pure ⟨rfl, rfl⟩
  | some R =>
    change Succeeds cp s (if s.mem.result.fullyOk then _ else _) _
    dsimp only
    by_cases hok : s.mem.result.fullyOk = true
    · rw [if_pos hok, if_pos hok]
      apply Succeeds.bind (Succeeds.attempt (Q := fun _ s' => s'.mem = s.mem ∧
        s'.drive = sv.swept s.drive R) (cleanup_succeeds R))
      exact fun _ s' hs' => Succeeds.pure hs'
    · rw [if_neg hok, if_neg hok]
      exact Succeeds.pure ⟨rfl, rfl⟩

theorem reportAfter_succeeds {destRoot : Option String}
    (hhas : cp.config.dryRun = false → ∀ R, truthy destRoot = some R → s.drive.has R) :
    Succeeds cp s (cp.reportAfter destRoot) fun _ s' => s'.mem = s.mem ∧
      match truthy destRoot with
      | none => s'.drive = s.drive
      | some R => if s.mem.result.hasFailures && !cp.config.dryRun then Exported sv s.drive R s'.drive
        else s'.drive = s.drive := by
  unfold Copier.reportAfter
  apply Succeeds.mem_bind
  cases hR : truthy destRoot with
  | none => exact Succeeds.pure ⟨rfl, rfl⟩
  | some R =>
    have hfailed : (!(s.mem.result.previousFailedItems ++ s.mem.result.failedItems).isEmpty) =
        s.mem.result.hasFailures := by
      rw [CopyResult.hasFailures, Bool.and_comm]
      cases s.mem.result.previousFailedItems <;> rfl
    change Succeeds cp s (if (!(s.mem.result.previousFailedItems ++
      s.mem.result.failedItems).isEmpty) && !cp.config.dryRun then _ else _) _
    rw [hfailed]
    dsimp only
    by_cases hexport : (s.mem.result.hasFailures && !cp.config.dryRun) = true
    · simp only [if_pos hexport]
      have hempty : (s.mem.result.previousFailedItems ++ s.mem.result.failedItems).isEmpty =
          false := by
        rw [← Bool.not_eq_true', hfailed]
        exact (Bool.and_eq_true_iff.mp hexport).1
      have hdry : cp.config.dryRun = false := by
        simpa using (Bool.and_eq_true_iff.mp hexport).2
      apply Succeeds.bind (Succeeds.attempt (Q := fun _ s' => s'.mem = s.mem ∧
        Exported sv s.drive R s'.drive)
        (exportFailedReport_succeeds (truthy_eq_some.mp hR).2 (hhas hdry R hR) hempty))
      exact fun _ s' hs' => Succeeds.pure hs'
    · simp only [if_neg hexport]
      exact Succeeds.pure ⟨rfl, rfl⟩

theorem not_hasFailures {r : CopyResult} (h : r.fullyOk = true) : r.hasFailures = false := by
  simp only [CopyResult.fullyOk, Bool.and_eq_true, Bool.not_eq_true'] at h
  exact h.1.1.1.2

theorem trash_has {id : String} {d : Drive} {R : String} (h : d.has R) : (d.trash id).has R := by
  obtain ⟨n, hn, hid⟩ := h
  refine ⟨_, Drive.mem_edit.mpr ⟨n, hn, rfl⟩, ?_⟩
  split_ifs
  · exact hid
  · exact hid

theorem foldl_trash_has {R : String} (ids : List String) : ∀ d : Drive, d.has R →
    (ids.foldl Drive.trash d).has R := by
  induction ids with
  | nil => exact fun _ h => h
  | cons id ids ih => exact fun d h => ih _ (trash_has h)

theorem finalize_succeeds {destRoot : Option String} (completed : Bool)
    (hhas : cp.config.dryRun = false → ∀ R, truthy destRoot = some R → s.drive.has R) :
    Succeeds cp s (cp.finalize destRoot completed) fun r s' =>
      r = { s.mem.result with completed := completed } ∧
      sv.Settled r cp.config.dryRun s.drive (truthy destRoot) s'.drive := by
  unfold Copier.finalize
  generalize hr : ({ s.mem.result with completed := completed } : CopyResult) = r
  apply Succeeds.mem_bind
  apply Succeeds.bind (cleanupAfter_succeeds destRoot)
  rintro _ ⟨m, d⟩ ⟨rfl, hd⟩
  have hd : d = match truthy destRoot with
      | none => s.drive
      | some R => if r.fullyOk then sv.swept s.drive R else s.drive := hr ▸ hd
  apply Succeeds.bind (reportAfter_succeeds ?_)
  · rintro _ s' ⟨hm, hd'⟩
    have hd' : match truthy destRoot with
        | none => s'.drive = d
        | some R => if r.hasFailures && !cp.config.dryRun then Exported sv d R s'.drive
          else s'.drive = d := hr ▸ hd'
    have hsettled : sv.Settled r cp.config.dryRun s.drive (truthy destRoot) s'.drive := by
      cases hR : truthy destRoot with
      | none =>
        rw [hR] at hd hd'
        exact hd'.trans hd
      | some R =>
        rw [hR] at hd hd'
        dsimp only at hd hd'
        unfold Settled
        dsimp only
        by_cases hok : r.fullyOk = true
        · rw [if_pos hok] at hd ⊢
          rw [not_hasFailures hok, Bool.false_and, if_neg Bool.false_ne_true] at hd'
          exact hd'.trans hd
        · rw [if_neg hok] at hd ⊢
          rw [← hd]
          exact hd'
    apply Succeeds.mem
    rw [hm]
    subst hr
    exact ⟨rfl, hsettled⟩
  · intro hdry R hR
    have hR' := hhas hdry R hR
    rw [hR] at hd
    obtain rfl := hd
    dsimp only
    split_ifs
    · exact foldl_trash_has _ _ hR'
    · exact hR'

end Server
end TurboCopy
