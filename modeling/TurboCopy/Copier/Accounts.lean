import TurboCopy.Copier.Solo
import TurboCopy.Copier.Replay

/-!
# Logs of several accounts

A `ResumeStore` for each account, all over one destination root. A store is loaded and then
saves as often as it likes, and the methods of different stores follow each other in any
order. The name of a log is all that says whose it is, and `log_name_for` gives some accounts
the same name. The logs are kept apart exactly when it does not.
-/

namespace TurboCopy

open Threads CopierM Copier

/-! ## The methods of a store that runs alone -/

/-- The file is a log in the folder `root` under the name of the log of the account. -/
def Node.IsLog (root : String) (account : Option String) (n : Node) : Prop :=
  n.liveIn root = true ∧ n.file.name = logNameFor account

theorem startsWith_logNameFor (account : Option String) :
    startsWith (logNameFor account) logPrefix = true := by
  unfold logNameFor startsWith
  rw [List.isPrefixOf_iff_prefix]
  cases truthy account with
  | none => exact ⟨logSuffix.toList, by simp⟩
  | some a =>
    dsimp only
    rw [String.toList_append, String.toList_append, String.toList_append, List.append_assoc,
      List.append_assoc]
    exact List.prefix_append _ _

section Methods

variable {pf : Profile} {cp : Copier} {root : String} {account : Option String}
  {w : Scene cp (Drive.service pf)} {m : Mem} {d : Drive}

/-- The log files of a folder in the order of the Drive. -/
def logFiles (pf : Profile) (d : Drive) (root : String) : List ApiFile :=
  ((d.listed pf root none).map fun n => n.file.view listFields).filter fun f =>
    startsWith f.name logPrefix

theorem mem_logFiles {f : ApiFile} : f ∈ logFiles pf d root ↔
    ∃ n ∈ d, n.liveIn root = true ∧ startsWith n.file.name logPrefix = true ∧
      n.file.view listFields = f := by
  unfold logFiles Drive.listed
  rw [List.mem_filter, List.mem_map]
  constructor
  · rintro ⟨⟨n, hn, rfl⟩, hname⟩
    obtain ⟨hmem, hlive⟩ := List.mem_filter.mp hn
    exact ⟨n, hmem, by simpa using hlive, hname, rfl⟩
  · rintro ⟨n, hmem, hlive, hname, rfl⟩
    exact ⟨⟨n, List.mem_filter.mpr ⟨hmem, by simpa using hlive⟩, rfl⟩, hname⟩

/-- Some call may raise. -/
def Profile.Faulty (pf : Profile) : Prop := ∃ q, pf.raises q

theorem completes_mem {o : MemOp} {Q : o.Out → Scene cp (Drive.service pf) → Prop}
    {E : Exc → Scene cp (Drive.service pf) → Prop} (hw : w.state = ⟨m, d⟩)
    (h : ∀ w', w'.state = ⟨(m.exec o).2, d⟩ → Q (m.exec o).1 w') : Completes w (mem o) Q E := by
  obtain ⟨_, past⟩ := w
  obtain rfl := hw
  exact Completes.mem (h _ rfl)

theorem completes_nowIso {Q : String → Scene cp (Drive.service pf) → Prop}
    {E : Exc → Scene cp (Drive.service pf) → Prop} (hw : w.state = ⟨m, d⟩)
    (h : ∀ t w', w'.state = ⟨m, d⟩ → Q t w') : Completes w (ask .nowIso) Q E := by
  apply Completes.ask ⟨"", _, Drive.Serves.granted (.nowIso w.state.drive "")⟩
  rintro t d' (hg | _)
  · cases hg
    exact h t _ hw
  · exact h t _ hw

theorem completes_listPage (hw : w.state = ⟨m, d⟩) (tok : Option PageToken) :
    Completes w (listPage root tok)
      (fun page w' => w'.state = ⟨m, d⟩ ∧ Drive.Paged (d.listed pf root none) listFields tok page)
      fun _ w' => w'.state = ⟨m, d⟩ ∧ pf.Faulty := by
  have hpage : ∃ page : Page, Drive.Paged (d.listed pf root none) listFields tok page := by
    cases tok with
    | none => exact ⟨(_, none), List.Perm.of_eq (List.append_nil _)⟩
    | some t => exact ⟨(t.rest, none), List.append_nil _, nofun⟩
  obtain ⟨page, hpage⟩ := hpage
  obtain ⟨_, past⟩ := w
  obtain rfl := hw
  unfold listPage
  apply Completes.bind (R := fun x w' => w'.state = ⟨m, d⟩ ∧ match x with
    | .ok page => Drive.Paged (d.listed pf root none) listFields tok page
    | .error _ => pf.Faulty)
  · apply Completes.ask ⟨_, _, Drive.Serves.granted (.listChildren d root none tok page hpage)⟩
    rintro x d' (hg | ⟨e, hraise, rfl⟩)
    · cases hg with
      | listChildren _ _ _ _ page h => exact ⟨rfl, h⟩
    · exact ⟨rfl, _, hraise.resolve_right id⟩
  · rintro x w' ⟨hw, hx⟩
    apply Completes.orThrow
    · rintro page rfl
      exact ⟨hw, hx⟩
    · rintro e rfl
      exact ⟨hw, hx⟩

theorem completes_listLogFiles (hw : w.state = ⟨m, d⟩) :
    Completes w (listLogFiles root)
      (fun files w' => w'.state = ⟨m, d⟩ ∧ files.Perm (logFiles pf d root))
      fun _ w' => w'.state = ⟨m, d⟩ ∧ pf.Faulty := by
  let P := fun f : ApiFile => startsWith f.name logPrefix
  apply Completes.pages (fun out tok w' => w'.state = ⟨m, d⟩ ∧
    (tok = none ∧ out = [] ∨
      ∃ t, tok = some t ∧ (out ++ t.rest.filter P).Perm (logFiles pf d root)))
  · rintro out tok w' ⟨hw', hout⟩
    apply (completes_listPage hw' tok).mono
    · rintro ⟨files, next⟩ w'' ⟨hw'', hpage⟩
      have hperm : (out ++ files.filter P ++ (restOf next).filter P).Perm (logFiles pf d root) := by
        rw [List.append_assoc, ← List.filter_append]
        rcases hout with ⟨rfl, rfl⟩ | ⟨t, rfl, hout⟩
        · exact hpage.filter P
        · rw [hpage.1]
          exact hout
      cases next with
      | none =>
        exact ⟨hw'', by simpa [restOf] using hperm⟩
      | some t =>
        refine ⟨⟨hw'', .inr ⟨t, rfl, hperm⟩⟩, ?_⟩
        rcases hout with ⟨rfl, rfl⟩ | ⟨t', rfl, -⟩
        · exact WithTop.coe_lt_top _
        · exact WithTop.coe_lt_coe.mpr (hpage.2 t rfl)
    · exact fun e w'' h => h
  · exact ⟨hw, .inl ⟨rfl, rfl⟩⟩

/-- A file that is read back as a log, whatever the time is. -/
def Copier.Readable (cp : Copier) (d : Drive) (id : String) : Prop :=
  ∃ n ∈ d, n.id = id ∧ ∀ now, ∃ t, deserialize cp.sha256 now n.content = .ok t

theorem completes_loadLog (hw : w.state = ⟨m, d⟩) (entry : ApiFile) :
    Completes w (cp.loadLog entry)
      (fun t w' => w'.state = ⟨m, d⟩ ∧ ∃ n ∈ d, n.id = entry.id ∧
        ∃ now, deserialize cp.sha256 now n.content = .ok t)
      fun _ w' => w'.state = ⟨m, d⟩ ∧ (pf.Faulty ∨ ¬cp.Readable d entry.id) := by
  obtain ⟨_, past⟩ := w
  obtain rfl := hw
  unfold Copier.loadLog
  apply Completes.bind (R := fun x w' => w'.state = ⟨m, d⟩ ∧ match x with
    | .ok raw => ∃ n ∈ d, n.id = entry.id ∧ n.content = raw
    | .error _ => pf.Faulty ∨ ¬cp.Readable d entry.id)
  · apply Completes.ask
    · by_cases hhas : d.has entry.id
      · obtain ⟨n, hn, hid⟩ := hhas
        rw [← hid]
        exact ⟨_, _, Drive.Serves.granted (.getMedia d n hn)⟩
      · exact ⟨_, _, Drive.Serves.raised Drive.notFound (.inr hhas) rfl⟩
    · rintro x d' (hg | ⟨e, hraise, rfl⟩)
      · generalize hid : entry.id = id at hg
        cases hg with
        | getMedia _ n hn => exact ⟨rfl, n, hn, rfl, rfl⟩
      · refine ⟨rfl, hraise.imp (fun h => ⟨_, h⟩) ?_⟩
        rintro hlacks ⟨n, hn, hid, -⟩
        exact hlacks ⟨n, hn, hid⟩
  · rintro (e | raw) w₁ ⟨hw₁, hx⟩
    · exact Completes.throw ⟨hw₁, hx⟩
    · obtain ⟨n, hn, hid, rfl⟩ := hx
      apply Completes.bind
      · exact completes_nowIso (Q := fun _ w' => w'.state = ⟨m, d⟩) hw₁ fun _ _ hw' => hw'
      · intro now w₂ hw₂
        cases hread : deserialize cp.sha256 now n.content with
        | ok t => exact Completes.pure ⟨hw₂, n, hn, hid, now, hread⟩
        | error text =>
          apply Completes.throw
          refine ⟨hw₂, .inr ?_⟩
          rintro ⟨n', hn', hid', hok⟩
          obtain rfl := Drive.eq_of_id hn' hn (hid'.trans hid.symm)
          obtain ⟨t, ht⟩ := hok now
          exact nomatch hread.symm.trans ht

/-- What loading the logs `files` gives: the state holds the copied ids of each, and the log of
the account among them is the one to overwrite. -/
structure Gathered (cp : Copier) (account : Option String) (files : List ApiFile) (d : Drive)
    (own : Option String) (merged t : ResumeState) (own' : Option String) : Prop where
  grows : merged.copiedIds ⊆ t.copiedIds
  reads : ∀ f ∈ files, ∃ n ∈ d, n.id = f.id ∧
    ∃ now s, deserialize cp.sha256 now n.content = .ok s ∧ s.copiedIds ⊆ t.copiedIds
  claims : own' = (files.filter fun f => f.name = logNameFor account).foldl
    (fun _ f => some f.id) own

theorem copiedIds_mergeLog (account : Option String) (merged : ResumeState) (entry : ApiFile)
    (s : ResumeState) :
    (mergeLog account merged entry s).copiedIds = merged.copiedIds ∪ s.copiedIds := by
  unfold mergeLog
  dsimp only
  split_ifs <;> rfl

theorem completes_loadLogs (files : List ApiFile) : ∀ {w : Scene cp (Drive.service pf)} {m : Mem}
    (_ : w.state = ⟨m, d⟩) (merged : ResumeState), Completes w (cp.loadLogs account files merged)
      (fun t w' => ∃ own, w'.state = ⟨{ m with ownLogFileId := own }, d⟩ ∧
        Gathered cp account files d m.ownLogFileId merged t own)
      fun _ w' => ∃ own, w'.state = ⟨{ m with ownLogFileId := own }, d⟩ ∧
        (pf.Faulty ∨ ∃ f ∈ files, ¬cp.Readable d f.id) := by
  induction files with
  | nil =>
    intro w m hw merged
    exact Completes.pure ⟨_, hw, subset_rfl, fun f hf => absurd hf List.not_mem_nil, rfl⟩
  | cons entry rest ih =>
    intro w m hw merged
    unfold Copier.loadLogs
    apply Completes.bind
      ((completes_loadLog hw entry).mono (R := fun t w' => w'.state = ⟨m, d⟩ ∧ ∃ n ∈ d,
        n.id = entry.id ∧ ∃ now, deserialize cp.sha256 now n.content = .ok t) (fun _ _ h => h) _)
    · rintro t w₁ ⟨hw₁, n, hn, hid, now, hread⟩
      let claimed := ([entry].filter fun f => f.name = logNameFor account).foldl
        (fun _ f => some f.id) m.ownLogFileId
      apply Completes.bind (R := fun _ w' => w'.state = ⟨{ m with ownLogFileId := claimed }, d⟩)
      · unfold Copier.claimLog
        by_cases hname : entry.name = logNameFor account
        · have hclaimed : claimed = some entry.id := by simp [claimed, hname]
          rw [if_pos hname, hclaimed]
          exact completes_mem hw₁ fun _ hw' => hw'
        · have hclaimed : claimed = m.ownLogFileId := by simp [claimed, hname]
          rw [if_neg hname, hclaimed]
          exact Completes.pure hw₁
      · intro _ w₂ hw₂
        apply (ih hw₂ (mergeLog account merged entry t)).mono
        · rintro t' w' ⟨own, hw', h⟩
          have hsub := copiedIds_mergeLog account merged entry t ▸ h.grows
          refine ⟨own, hw', Finset.union_subset_left hsub, ?_, ?_⟩
          · intro f hf
            rcases List.mem_cons.mp hf with rfl | hf
            · exact ⟨n, hn, hid, now, t, hread, Finset.union_subset_right hsub⟩
            · exact h.reads f hf
          · rw [h.claims, ← List.foldl_append, ← List.filter_append]
            rfl
        · rintro e w' ⟨own, hw', hfail⟩
          refine ⟨own, hw', hfail.imp_right ?_⟩
          rintro ⟨f, hf, hread'⟩
          exact ⟨f, List.mem_cons_of_mem _ hf, hread'⟩
    · rintro e w₁ ⟨hw₁, hfail⟩
      exact ⟨_, hw₁, hfail.imp_right fun h => ⟨entry, List.mem_cons_self, h⟩⟩

theorem completes_load (hw : w.state = ⟨m, d⟩) : Completes w (cp.load root account)
    (fun t w' => ∃ own files, files.Perm (logFiles pf d root) ∧
      w'.state = ⟨{ m with ownLogFileId := own, ownLogName := some (logNameFor account) }, d⟩ ∧
      ∃ merged, Gathered cp account files d m.ownLogFileId merged t own)
    fun _ w' => w'.state.drive = d ∧ (pf.Faulty ∨
      ∃ f ∈ logFiles pf d root, ¬cp.Readable d f.id) := by
  unfold Copier.load
  let s : Site (Drive.service pf) := ⟨{ m with ownLogName := some (logNameFor account) }, d⟩
  apply Completes.bind (R := fun _ w' => w'.state = s)
  · exact completes_mem hw fun _ hw' => hw'
  intro _ w₁ hw₁
  apply Completes.bind (R := fun _ w' => w'.state = s) (completes_nowIso hw₁ fun _ _ hw' => hw')
  intro created w₂ hw₂
  apply Completes.bind (R := fun _ w' => w'.state = s) (completes_nowIso hw₂ fun _ _ hw' => hw')
  intro updated w₃ hw₃
  apply Completes.bind (R := fun x w' => w'.state = s ∧ match x with
    | .ok files => files.Perm (logFiles pf d root)
    | .error _ => pf.Faulty)
  · exact Completes.attempt (completes_listLogFiles hw₃)
  · rintro (e | files) w₄ ⟨hw₄, hx⟩
    · exact Completes.throw ⟨by rw [hw₄], .inl hx⟩
    · apply (completes_loadLogs files hw₄ _).mono
      · rintro t w' ⟨own, hw', h⟩
        exact ⟨own, files, hx, hw', _, h⟩
      · rintro e w' ⟨own, hw', hfail⟩
        refine ⟨by rw [hw'], hfail.imp_right ?_⟩
        rintro ⟨f, hf, hread⟩
        exact ⟨f, hx.mem_iff.mp hf, hread⟩

/-- What saving a state leaves: the content of the own log changed, or a new log that is the own
one from now on. -/
inductive Stored (cp : Copier) (m : Mem) (d : Drive) (m' : Mem) : Drive → Prop
  | updated (id : String) (t : ResumeState) (md5 size : Option String)
      (own : truthy m.ownLogFileId = some id) (held : d.has id)
      (same : m'.ownLogFileId = m.ownLogFileId) (ht : t.copiedIds = m.state.copiedIds) :
      Stored cp m d m' (d.overwrite id (serialize cp.sha256 t) md5 size)
  | created (n : Node) (t : ResumeState) (hf : d.Fresh n.id)
      (own : truthy m.ownLogFileId = none) (own' : m'.ownLogFileId = some n.id)
      (name : n.file.name = orElse m.ownLogName (logNameFor m.state.account))
      (live : n.file.trashed = false) (parents : n.file.parents = [m.state.destRootId.getD ""])
      (content : n.content = serialize cp.sha256 t) (ht : t.copiedIds = m.state.copiedIds) :
      Stored cp m d m' (d.add n hf)

/-- What a save needs to exist. -/
def Mem.savesTo (m : Mem) : String := (truthy m.ownLogFileId).getD (m.state.destRootId.getD "")

theorem completes_save (hw : w.state = ⟨m, d⟩) : Completes w cp.save
    (fun _ w' => ∃ m' d', w'.state = ⟨m', d'⟩ ∧ m'.ownLogName = m.ownLogName ∧
      Stored cp m d m' d')
    fun _ w' => ∃ m', w'.state = ⟨m', d⟩ ∧ m'.ownLogName = m.ownLogName ∧
      m'.ownLogFileId = m.ownLogFileId ∧ (pf.Faulty ∨ ¬d.has m.savesTo) := by
  unfold Copier.save
  apply Completes.bind (R := fun _ w' => w'.state = ⟨m, d⟩) (completes_nowIso hw fun _ _ hw' => hw')
  intro now w₁ hw₁
  let t : ResumeState := { m.state with updatedAt := now }
  let m₁ : Mem := { m with state := t }
  apply Completes.bind (R := fun x w' => x = t ∧ w'.state = ⟨m₁, d⟩)
  · exact completes_mem hw₁ fun _ hw' => ⟨rfl, hw'⟩
  rintro _ w₂ ⟨rfl, hw₂⟩
  apply Completes.bind (R := fun x w' => x = (m.ownLogFileId, m.ownLogName) ∧ w'.state = ⟨m₁, d⟩)
  · exact completes_mem hw₂ fun _ hw' => ⟨rfl, hw'⟩
  rintro _ ⟨_, past⟩ ⟨rfl, rfl⟩
  dsimp only
  cases hown : truthy m.ownLogFileId with
  | some id =>
    have hsaves : m.savesTo = id := by simp [Mem.savesTo, hown]
    apply Completes.bind (R := fun x w' => match x with
      | .ok () => ∃ d', w'.state = ⟨m₁, d'⟩ ∧ Stored cp m d m₁ d'
      | .error _ => w'.state = ⟨m₁, d⟩ ∧ (pf.Faulty ∨ ¬d.has m.savesTo))
    · apply Completes.ask
      · by_cases hhas : d.has id
        · exact ⟨_, _, Drive.Serves.granted (.updateFileContent d id _ none none hhas)⟩
        · exact ⟨_, _, Drive.Serves.raised Drive.notFound (.inr hhas) rfl⟩
      · rintro x d' (hg | ⟨e, hraise, rfl⟩)
        · cases hg with
          | updateFileContent _ _ _ md5 size hhas =>
            exact ⟨_, rfl, .updated id t md5 size hown hhas rfl rfl⟩
        · exact ⟨rfl, hraise.imp (fun h => ⟨_, h⟩) fun h => hsaves ▸ h⟩
    · rintro (e | _) w' hx
      · exact Completes.throw ⟨m₁, hx.1, rfl, rfl, hx.2⟩
      · obtain ⟨d', hw', hs⟩ := hx
        exact Completes.pure ⟨m₁, d', hw', rfl, hs⟩
  | none =>
    have hsaves : m.savesTo = m.state.destRootId.getD "" := by simp [Mem.savesTo, hown]
    apply Completes.bind (R := fun x w' => match x with
      | .ok id => ∃ d', w'.state = ⟨m₁, d'⟩ ∧ Stored cp m d { m₁ with ownLogFileId := id } d'
      | .error _ => w'.state = ⟨m₁, d⟩ ∧ (pf.Faulty ∨ ¬d.has m.savesTo))
    · apply Completes.ask
      · by_cases hhas : d.has (m.state.destRootId.getD "")
        · exact ⟨_, _, Drive.Serves.granted
            (.createJsonFile d _ _ _ _ d.freshId none none hhas d.fresh_freshId)⟩
        · exact ⟨_, _, Drive.Serves.raised Drive.notFound (.inr hhas) rfl⟩
      · rintro x d' (hg | ⟨e, hraise, rfl⟩)
        · cases hg with
          | createJsonFile _ name _ _ props id size md5 hp hf =>
            exact ⟨_, rfl, .created ⟨_, _⟩ t hf hown rfl rfl rfl rfl rfl rfl⟩
        · exact ⟨rfl, hraise.imp (fun h => ⟨_, h⟩) fun h => hsaves ▸ h⟩
    · rintro (e | id) w' hx
      · exact Completes.throw ⟨m₁, hx.1, rfl, rfl, hx.2⟩
      · obtain ⟨d', hw', hs⟩ := hx
        exact completes_mem hw' fun _ hw'' => ⟨_, d', hw'', rfl, hs⟩

end Methods
/-! ## Stores over one root -/

/-- From the state `s` the procedure, run alone, can end with the result `r` in the state `s'`. -/
def Copier.Performs {α : Type} (cp : Copier) (V : Service) (s : Site V) (x : CopierM α)
    (r : Except Exc α) (s' : Site V) : Prop :=
  ∃ c, Reach (cp.undisturbed V) (Threads.start (cp.undisturbed V) x s []) c ∧ c.Returned r ∧
    c.world.state = s'

/-- A call of a method: the state that `load` returned and the log that is the own one from then
on; the state that `save` was given and the own log before and after. -/
inductive StoreEvent
  | loaded (account : Option String) (state : ResumeState) (own : Option String)
  | saved (account : Option String) (state : ResumeState) (own own' : Option String)
  | raised (account : Option String)

def StoreEvent.saves : StoreEvent → Bool
  | .saved _ _ _ _ => true
  | _ => false

/-- A Drive and for each account the store it has loaded last. -/
structure SharedDrive where
  drive : Drive
  stores : Option String → Option Mem

section Runs

variable (cp : Copier) (pf : Profile) (root : String) (A : Set (Option String))

/-- An account of `A` loads a new store, or saves a state for the root in the one it has. -/
inductive StoreStep (w : SharedDrive) : StoreEvent → SharedDrive → Prop
  | load {account : Option String} (ha : account ∈ A) (now : String) {t : ResumeState} {m : Mem}
      {d : Drive} (h : cp.Performs (Drive.service pf) ⟨cp.freshMem now, w.drive⟩
        (cp.load root account) (.ok t) ⟨m, d⟩) :
      StoreStep w (.loaded account t m.ownLogFileId)
        ⟨d, Function.update w.stores account (some m)⟩
  | loadRaises {account : Option String} (ha : account ∈ A) (now : String) {e : Exc} {m : Mem}
      {d : Drive} (h : cp.Performs (Drive.service pf) ⟨cp.freshMem now, w.drive⟩
        (cp.load root account) (.error e) ⟨m, d⟩) :
      StoreStep w (.raised account) ⟨d, w.stores⟩
  | save {account : Option String} {m : Mem} (hm : w.stores account = some m) {t : ResumeState}
      (ht : t.destRootId = some root) {m' : Mem} {d : Drive}
      (h : cp.Performs (Drive.service pf) ⟨{ m with state := t }, w.drive⟩ cp.save (.ok ())
        ⟨m', d⟩) :
      StoreStep w (.saved account t m.ownLogFileId m'.ownLogFileId)
        ⟨d, Function.update w.stores account (some m')⟩
  | saveRaises {account : Option String} {m : Mem} (hm : w.stores account = some m)
      {t : ResumeState} (ht : t.destRootId = some root) {e : Exc} {m' : Mem} {d : Drive}
      (h : cp.Performs (Drive.service pf) ⟨{ m with state := t }, w.drive⟩ cp.save (.error e)
        ⟨m', d⟩) :
      StoreStep w (.raised account) ⟨d, Function.update w.stores account (some m')⟩

/-- The sequences of calls that start without stores on the Drive `d`, the newest call first. -/
inductive StoreRun (d : Drive) : List StoreEvent → SharedDrive → Prop
  | start : StoreRun d [] ⟨d, fun _ => none⟩
  | step {past : List StoreEvent} {w w' : SharedDrive} {e : StoreEvent} (hr : StoreRun d past w)
      (hs : StoreStep cp pf root A w e w') : StoreRun d (e :: past) w'

end Runs

/-- The log is one that a save for the account created. -/
def CreatedFor (past : List StoreEvent) (account : Option String) (log : String) : Prop :=
  ∃ t own, .saved account t own (some log) ∈ past ∧ truthy own = none

/-- The copied ids in the state that was last saved for the account. -/
def lastSaved (account : Option String) : List StoreEvent → Option (Finset String)
  | [] => none
  | .saved a t _ _ :: past => if a = account then some t.copiedIds else lastSaved account past
  | _ :: past => lastSaved account past

def Drive.contentOf (d : Drive) (id : String) : Option Content := (d.find id).map Node.content

/-- A load finds the log of its account as its own and returns what all accounts have copied; a
save leaves the logs created for other accounts as they are. -/
def KeptApart (past : List StoreEvent) (w : SharedDrive) : StoreEvent → SharedDrive → Prop
  | .loaded account t own, w' => w'.drive = w.drive ∧
      (∀ log, CreatedFor past account log → own = some log) ∧
      ∀ other copied, lastSaved other past = some copied → copied ⊆ t.copiedIds
  | .saved account _ _ _, w' => ∀ other, other ≠ account → ∀ log, CreatedFor past other log →
      w'.drive.contentOf log = w.drive.contentOf log
  | .raised _, w' => w'.drive = w.drive

/-- Each account has one log at most, and that log has an id. -/
structure OneLogEach (A : Set (Option String)) (root : String) (d : Drive) : Prop where
  one : ∀ a ∈ A, ∀ n ∈ d, ∀ n' ∈ d, n.IsLog root a → n'.IsLog root a → n = n'
  id_ne : ∀ a ∈ A, ∀ n ∈ d, n.IsLog root a → n.id ≠ ""

/-! ## One log for each account -/

section Guard

variable {cp : Copier} {pf : Profile} {root : String} {A : Set (Option String)} {d d' : Drive}
  {account : Option String} {past : List StoreEvent} {w w' : SharedDrive} {e : StoreEvent}
  {m m' : Mem} {t : ResumeState}

/-- The own log of a store is the log of its account, if there is one. -/
def OwnsLog (root : String) (account : Option String) (m : Mem) (d : Drive) : Prop :=
  m.ownLogName = some (logNameFor account) ∧
    ∀ log, truthy m.ownLogFileId = some log ↔ ∃ n ∈ d, n.IsLog root account ∧ n.id = log

/-- `log` is the log of the account after a save, and all other nodes are what they were. -/
structure Wrote (cp : Copier) (root : String) (account : Option String) (copied : Finset String)
    (d d' : Drive) (log : Node) : Prop where
  mem : log ∈ d'
  isLog : log.IsLog root account
  id_ne : log.id ≠ ""
  content : ∃ t, log.content = serialize cp.sha256 t ∧ t.copiedIds = copied
  others : ∀ n : Node, n.id ≠ log.id → (n ∈ d' ↔ n ∈ d)
  logs : ∀ n ∈ d, n.IsLog root account ↔ n.id = log.id

theorem logNameFor_ne_empty (account : Option String) : logNameFor account ≠ "" := by
  intro h
  have hstarts := startsWith_logNameFor account
  rw [h] at hstarts
  exact absurd hstarts (by decide)

theorem Stored.wrote (h : Stored cp m d m' d') (howns : OwnsLog root account m d)
    (hroot : m.state.destRootId = some root) :
    ∃ log, m'.ownLogFileId = some log.id ∧
      Wrote cp root account m.state.copiedIds d d' log := by
  cases h with
  | updated id t md5 size hown held same ht =>
    obtain ⟨n, hn, hlog, rfl⟩ := (howns.2 id).mp hown
    obtain ⟨hsome, hne⟩ := truthy_eq_some.mp hown
    refine ⟨⟨{ n.file with md5Checksum := md5, size := size }, serialize cp.sha256 t⟩,
      same.trans hsome, ⟨?_, hlog, hne, ⟨t, rfl, ht⟩, ?_, ?_⟩⟩
    · exact Drive.mem_edit.mpr ⟨n, hn, if_pos rfl⟩
    · intro x hx
      change x.id ≠ n.id at hx
      constructor
      · intro hmem
        obtain ⟨y, hy, heq⟩ := Drive.mem_edit.mp hmem
        by_cases hid : y.id = n.id
        · rw [if_pos hid] at heq
          exact absurd (heq ▸ hid) hx
        · rw [if_neg hid] at heq
          exact heq ▸ hy
      · exact fun hmem => Drive.mem_edit.mpr ⟨x, hmem, if_neg hx⟩
    · intro x hx
      constructor
      · intro hxlog
        have hown' := (howns.2 x.id).mpr ⟨x, hx, hxlog, rfl⟩
        exact Option.some.inj (hown'.symm.trans hown)
      · intro hid
        rw [Drive.eq_of_id hx hn hid]
        exact hlog
  | created n t hf hown hown' hname hlive hparents hcontent ht =>
    refine ⟨n, hown', ⟨Drive.mem_add.mpr (.inl rfl), ⟨?_, ?_⟩, hf.1, ⟨t, hcontent, ht⟩, ?_, ?_⟩⟩
    · simp [Node.liveIn, hlive, hparents, hroot]
    · rw [hname, howns.1, orElse_some (logNameFor_ne_empty account)]
    · intro x hx
      rw [Drive.mem_add]
      exact or_iff_right fun heq => hx (heq ▸ rfl)
    · intro x hx
      constructor
      · intro hxlog
        have hown'' := (howns.2 x.id).mpr ⟨x, hx, hxlog, rfl⟩
        exact nomatch hown.symm.trans hown''
      · exact fun hid => absurd hid (hf.2 x hx).1

theorem foldl_claim {files : List ApiFile} {id : String} (h : ∀ f ∈ files, f.id = id)
    (hne : files ≠ []) (own : Option String) :
    files.foldl (fun _ f => some f.id) own = some id := by
  induction files generalizing own with
  | nil => exact absurd rfl hne
  | cons f rest ih =>
    rw [List.foldl_cons]
    by_cases hrest : rest = []
    · rw [hrest, List.foldl_nil, h f List.mem_cons_self]
    · exact ih (fun g hg => h g (List.mem_cons_of_mem _ hg)) hrest _

/-- A new store that has loaded owns the log of its account. -/
theorem Gathered.ownsLog {files : List ApiFile} {own : Option String} {merged : ResumeState}
    (h : Gathered cp account files d none merged t own) (hfiles : files.Perm (logFiles pf d root))
    (hone : OneLogEach {account} root d) :
    OwnsLog root account { m with ownLogFileId := own, ownLogName := some (logNameFor account) }
      d := by
  refine ⟨rfl, fun log => ?_⟩
  change truthy own = some log ↔ _
  have hmem (f : ApiFile) : f ∈ files.filter (fun f => f.name = logNameFor account) ↔
      ∃ n ∈ d, n.IsLog root account ∧ n.file.view listFields = f := by
    rw [List.mem_filter, hfiles.mem_iff, mem_logFiles]
    constructor
    · rintro ⟨⟨n, hn, hlive, -, rfl⟩, hname⟩
      exact ⟨n, hn, ⟨hlive, of_decide_eq_true hname⟩, rfl⟩
    · rintro ⟨n, hn, ⟨hlive, hname⟩, rfl⟩
      exact ⟨⟨n, hn, hlive, hname ▸ startsWith_logNameFor account, rfl⟩, decide_eq_true hname⟩
  rw [h.claims]
  by_cases hlogs : ∃ n ∈ d, n.IsLog root account
  · obtain ⟨n, hn, hlog⟩ := hlogs
    have hid : ∀ f ∈ files.filter (fun f => f.name = logNameFor account), f.id = n.id := by
      intro f hf
      obtain ⟨n', hn', hlog', rfl⟩ := (hmem f).mp hf
      rw [hone.one account rfl n hn n' hn' hlog hlog']
      rfl
    rw [foldl_claim hid (List.ne_nil_of_mem ((hmem _).mpr ⟨n, hn, hlog, rfl⟩)),
      truthy_some (hone.id_ne account rfl n hn hlog), Option.some.injEq]
    constructor
    · exact fun heq => ⟨n, hn, hlog, heq⟩
    · rintro ⟨n', hn', hlog', rfl⟩
      rw [hone.one account rfl n hn n' hn' hlog hlog']
  · have hnone : files.filter (fun f => f.name = logNameFor account) = [] := by
      apply List.eq_nil_iff_forall_not_mem.mpr
      intro f hf
      obtain ⟨n, hn, hlog, -⟩ := (hmem f).mp hf
      exact hlogs ⟨n, hn, hlog⟩
    rw [hnone, List.foldl_nil]
    constructor
    · exact fun heq => nomatch heq
    · rintro ⟨n, hn, hlog, -⟩
      exact absurd ⟨n, hn, hlog⟩ hlogs

theorem OneLogEach.mono {B : Set (Option String)} (h : OneLogEach A root d) (hB : B ⊆ A) :
    OneLogEach B root d :=
  ⟨fun a ha => h.one a (hB ha), fun a ha => h.id_ne a (hB ha)⟩

/-- What the calls so far have established. -/
structure Guarded (cp : Copier) (root : String) (A : Set (Option String))
    (past : List StoreEvent) (w : SharedDrive) : Prop where
  one : OneLogEach A root w.drive
  created : ∀ a log, CreatedFor past a log → a ∈ A ∧ ∃ n ∈ w.drive, n.IsLog root a ∧ n.id = log
  saved : ∀ a copied, lastSaved a past = some copied → a ∈ A ∧ ∃ n ∈ w.drive, n.IsLog root a ∧
    ∃ t, n.content = serialize cp.sha256 t ∧ t.copiedIds = copied
  store : ∀ a m, w.stores a = some m → a ∈ A ∧ OwnsLog root a m w.drive

theorem Guarded.start (h : OneLogEach A root d) : Guarded cp root A [] ⟨d, fun _ => none⟩ where
  one := h
  created := by
    rintro a log ⟨t, own, hm, -⟩
    exact absurd hm List.not_mem_nil
  saved _ _ h := absurd h.symm (Option.some_ne_none _)
  store _ _ h := absurd h.symm (Option.some_ne_none _)

/-- A load or a call that raised changes neither the Drive nor what has been saved. -/
theorem Guarded.keep (h : Guarded cp root A past w) (he : e.saves = false)
    {stores : Option String → Option Mem}
    (hstores : ∀ a m, stores a = some m → a ∈ A ∧ OwnsLog root a m w.drive) :
    Guarded cp root A (e :: past) ⟨w.drive, stores⟩ where
  one := h.one
  created := by
    rintro a log ⟨t, own, hm, hown⟩
    apply h.created a log
    refine ⟨t, own, (List.mem_cons.mp hm).resolve_left ?_, hown⟩
    rintro rfl
    exact nomatch he
  saved := by
    intro a copied hsaved
    apply h.saved a copied
    cases e with
    | saved b t own own' => exact nomatch he
    | loaded b t own => exact hsaved
    | raised b => exact hsaved
  store := hstores

theorem update_cases {stores : Option String → Option Mem} {P : Option String → Mem → Prop}
    (hself : P account m) {a : Option String} (hother : a ≠ account → stores a = some m' → P a m')
    (hm : Function.update stores account (some m) a = some m') : P a m' := by
  by_cases heq : a = account
  · subst heq
    rw [Function.update_self, Option.some.injEq] at hm
    exact hm ▸ hself
  · rw [Function.update_of_ne heq] at hm
    exact hother heq hm

/-- What a load finds. -/
theorem Guarded.finds (h : Guarded cp root A past w) {files : List ApiFile} {own : Option String}
    {merged : ResumeState} (hg : Gathered cp account files w.drive none merged t own)
    (hfiles : files.Perm (logFiles pf w.drive root))
    (howns : OwnsLog root account { m with ownLogFileId := own
                                           ownLogName := some (logNameFor account) } w.drive)
    (stores : Option String → Option Mem) :
    KeptApart past w (.loaded account t own) ⟨w.drive, stores⟩ := by
  refine ⟨rfl, ?_, ?_⟩
  · intro log hcreated
    obtain ⟨-, hnode⟩ := h.created account log hcreated
    exact (truthy_eq_some.mp ((howns.2 log).mpr hnode)).1
  · intro other copied hsaved
    obtain ⟨-, n, hn, hlog, t', hcontent, rfl⟩ := h.saved other copied hsaved
    have hf : n.file.view listFields ∈ files := by
      rw [hfiles.mem_iff, mem_logFiles]
      exact ⟨n, hn, hlog.1, hlog.2 ▸ startsWith_logNameFor other, rfl⟩
    obtain ⟨n', hn', hid, now, s, hread, hsub⟩ := hg.reads _ hf
    obtain rfl := Drive.eq_of_id hn' hn hid
    obtain ⟨s', hs', hsame⟩ := deserialize_serialize cp.sha256 now t'
    rw [hcontent, hs', Except.ok.injEq] at hread
    rw [← hsame.copiedIds, hread]
    exact hsub

section Save

variable {copied : Finset String} {log : Node}

theorem Wrote.contentOf (h : Wrote cp root account copied d d' log) {n : Node} (hn : n ∈ d)
    (hid : n.id ≠ log.id) : d'.contentOf n.id = d.contentOf n.id := by
  unfold Drive.contentOf
  rw [Drive.find_of_mem hn, Drive.find_of_mem ((h.others n hid).mpr hn)]

/-- A log of another account is not the one that was written. -/
theorem Wrote.other (h : Wrote cp root account copied d d' log) {a : Option String}
    (hname : logNameFor a ≠ logNameFor account) {n : Node} (hn : n ∈ d) (hlog : n.IsLog root a) :
    n.id ≠ log.id := by
  intro hid
  exact hname (hlog.2.symm.trans ((h.logs n hn).mpr hid).2)

/-- The logs after a save. -/
theorem Wrote.isLog_cases (h : Wrote cp root account copied d d' log) {a : Option String} {n : Node}
    (hn : n ∈ d') (hlog : n.IsLog root a) :
    logNameFor a = logNameFor account ∧ n = log ∨ logNameFor a ≠ logNameFor account ∧ n ∈ d := by
  by_cases hid : n.id = log.id
  · have heq : n = log := Drive.eq_of_id hn h.mem hid
    exact .inl ⟨hlog.2.symm.trans (heq ▸ h.isLog.2), heq⟩
  · have hmem := (h.others n hid).mp hn
    refine .inr ⟨fun hname => hid ?_, hmem⟩
    exact (h.logs n hmem).mp ⟨hlog.1, hlog.2.trans hname⟩

theorem Wrote.oneLogEach (h : Wrote cp root account copied d d' log) (hone : OneLogEach A root d) :
    OneLogEach A root d' := by
  constructor
  · intro a ha n hn n' hn' hlog hlog'
    rcases h.isLog_cases hn hlog with ⟨hname, rfl⟩ | ⟨hname, hmem⟩ <;>
      rcases h.isLog_cases hn' hlog' with ⟨hname', rfl⟩ | ⟨hname', hmem'⟩
    · rfl
    · exact absurd hname hname'
    · exact absurd hname' hname
    · exact hone.one a ha n hmem n' hmem' hlog hlog'
  · intro a ha n hn hlog
    rcases h.isLog_cases hn hlog with ⟨-, rfl⟩ | ⟨-, hmem⟩
    · exact h.id_ne
    · exact hone.id_ne a ha n hmem hlog

theorem Wrote.ownsLog (h : Wrote cp root account copied d d' log)
    (hown : m.ownLogFileId = some log.id) (hname : m.ownLogName = some (logNameFor account)) :
    OwnsLog root account m d' := by
  refine ⟨hname, fun id => ?_⟩
  rw [hown, truthy_some h.id_ne, Option.some.injEq]
  constructor
  · exact fun heq => ⟨log, h.mem, h.isLog, heq⟩
  · rintro ⟨n, hn, hlog, rfl⟩
    rcases h.isLog_cases hn hlog with ⟨-, rfl⟩ | ⟨hne, -⟩
    · rfl
    · exact absurd rfl hne

/-- A save does not touch what a store of another account owns. -/
theorem Wrote.ownsLog_other (h : Wrote cp root account copied d d' log) {a : Option String}
    (hname : logNameFor a ≠ logNameFor account) (howns : OwnsLog root a m d) :
    OwnsLog root a m d' := by
  refine ⟨howns.1, fun id => (howns.2 id).trans ?_⟩
  constructor
  · rintro ⟨n, hn, hlog, hid⟩
    exact ⟨n, (h.others n (h.other hname hn hlog)).mpr hn, hlog, hid⟩
  · rintro ⟨n, hn, hlog, hid⟩
    rcases h.isLog_cases hn hlog with ⟨heq, -⟩ | ⟨-, hmem⟩
    · exact absurd heq hname
    · exact ⟨n, hmem, hlog, hid⟩

/-- A save for an account whose log nobody else has. -/
theorem Guarded.save (h : Guarded cp root A past w) (hinj : Set.InjOn logNameFor A)
    (ha : account ∈ A) (hwrote : Wrote cp root account t.copiedIds w.drive d' log)
    (howns : OwnsLog root account m' d') (own : Option String) :
    Guarded cp root A (.saved account t own (some log.id) :: past)
      ⟨d', Function.update w.stores account (some m')⟩ where
  one := hwrote.oneLogEach h.one
  created := by
    rintro a id ⟨s, own', hm, hnone⟩
    rcases List.mem_cons.mp hm with heq | hm
    · cases heq
      exact ⟨ha, log, hwrote.mem, hwrote.isLog, rfl⟩
    · obtain ⟨haA, n, hn, hlog, hid⟩ := h.created a id ⟨s, own', hm, hnone⟩
      refine ⟨haA, ?_⟩
      by_cases heq : n.id = log.id
      · have hname := ((hwrote.logs n hn).mpr heq).2.symm.trans hlog.2
        exact ⟨log, hwrote.mem, ⟨hwrote.isLog.1, hwrote.isLog.2.trans hname⟩, heq.symm.trans hid⟩
      · exact ⟨n, (hwrote.others n heq).mpr hn, hlog, hid⟩
  saved := by
    intro a copied hsaved
    unfold lastSaved at hsaved
    split_ifs at hsaved with heq
    · obtain rfl := Option.some.inj hsaved
      exact ⟨heq ▸ ha, log, hwrote.mem, heq ▸ hwrote.isLog, hwrote.content⟩
    · obtain ⟨haA, n, hn, hlog, hcontent⟩ := h.saved a copied hsaved
      have hne : logNameFor a ≠ logNameFor account := fun hn => heq (hinj haA ha hn).symm
      exact ⟨haA, n, (hwrote.others n (hwrote.other hne hn hlog)).mpr hn, hlog, hcontent⟩
  store := by
    intro a m hm
    apply update_cases (P := fun a m => a ∈ A ∧ OwnsLog root a m d') ⟨ha, howns⟩ _ hm
    intro hne hstore
    obtain ⟨haA, howns'⟩ := h.store a m hstore
    exact ⟨haA, hwrote.ownsLog_other (fun hn => hne (hinj haA ha hn)) howns'⟩

end Save

theorem Copier.Performs.ok {α : Type} {V : Service} {s s' : Site V} {x : CopierM α} {a : α}
    (h : cp.Performs V s x (.ok a) s') {Q : α → Scene cp V → Prop} {E : Exc → Scene cp V → Prop}
    (hx : Completes ⟨s, []⟩ x Q E) : ∃ w, w.state = s' ∧ Q a w := by
  obtain ⟨c, hc, hret, hs⟩ := h
  exact ⟨c.world, hs, (hx.yields (cp.undisturbed_env V)).returned c _ hc hret⟩

theorem Copier.Performs.error {α : Type} {V : Service} {s s' : Site V} {x : CopierM α} {e : Exc}
    (h : cp.Performs V s x (.error e) s') {Q : α → Scene cp V → Prop}
    {E : Exc → Scene cp V → Prop} (hx : Completes ⟨s, []⟩ x Q E) : ∃ w, w.state = s' ∧ E e w := by
  obtain ⟨c, hc, hret, hs⟩ := h
  exact ⟨c.world, hs, (hx.yields (cp.undisturbed_env V)).returned c _ hc hret⟩

/-- Under accounts with names of their own, one call of a method. -/
theorem Guarded.step (hinj : Set.InjOn logNameFor A) (h : Guarded cp root A past w)
    (hs : StoreStep cp pf root A w e w') :
    Guarded cp root A (e :: past) w' ∧ KeptApart past w e w' := by
  cases hs with
  | @load account ha now t m d hx =>
    obtain ⟨w₁, hw₁, own, files, hfiles, hstate, merged, hg⟩ := hx.ok (completes_load rfl)
    cases hw₁.symm.trans hstate
    have howns := hg.ownsLog (m := cp.freshMem now) hfiles
      (h.one.mono (Set.singleton_subset_iff.mpr ha))
    refine ⟨h.keep rfl fun a m hm => ?_, h.finds hg hfiles howns _⟩
    exact update_cases (P := fun a m => a ∈ A ∧ OwnsLog root a m w.drive) ⟨ha, howns⟩
      (fun _ => h.store a m) hm
  | @loadRaises account ha now x m d hx =>
    obtain ⟨w₁, hw₁, hd, -⟩ := hx.error (completes_load rfl)
    rw [hw₁] at hd
    cases hd
    exact ⟨h.keep rfl h.store, rfl⟩
  | @save account m hm t ht m' d hx =>
    obtain ⟨ha, howns⟩ := h.store account m hm
    obtain ⟨w₁, hw₁, m₁, d₁, hstate, hname, hstored⟩ := hx.ok (completes_save rfl)
    cases hw₁.symm.trans hstate
    obtain ⟨log, hown, hwrote⟩ := hstored.wrote howns ht
    have howns' := hwrote.ownsLog hown (hname.trans howns.1)
    rw [hown]
    refine ⟨h.save hinj ha hwrote howns' m.ownLogFileId, fun other hne id hcreated => ?_⟩
    obtain ⟨hother, n, hn, hlog, rfl⟩ := h.created other id hcreated
    exact hwrote.contentOf hn (hwrote.other (fun heq => hne (hinj hother ha heq)) hn hlog)
  | @saveRaises account m hm t ht x m' d hx =>
    obtain ⟨ha, howns⟩ := h.store account m hm
    obtain ⟨w₁, hw₁, m₁, hstate, hname, hown, -⟩ := hx.error (completes_save rfl)
    cases hw₁.symm.trans hstate
    refine ⟨h.keep rfl fun a m₁ hm₁ => ?_, rfl⟩
    have howns' : OwnsLog root account m' w.drive := by
      refine ⟨hname.trans howns.1, fun log => ?_⟩
      rw [hown]
      exact howns.2 log
    exact update_cases (P := fun a m => a ∈ A ∧ OwnsLog root a m w.drive) ⟨ha, howns'⟩
      (fun _ => h.store a m₁) hm₁

theorem Guarded.run (hinj : Set.InjOn logNameFor A) (hone : OneLogEach A root d)
    (hr : StoreRun cp pf root A d past w) : Guarded cp root A past w := by
  induction hr with
  | start => exact .start hone
  | step _ hs ih => exact (ih.step hinj hs).1

end Guard

/-! ## Accounts with the same log -/

section Collision

variable {cp : Copier} {root : String} {A : Set (Option String)} {d : Drive} {m : Mem}

/-- The Drive of the root alone. -/
def bareDrive (root : String) : Drive where
  nodes := [⟨{ id := root, name := "", mimeType := folderMime }, .text ""⟩]
  nodup := List.nodup_singleton _

/-- Whatever calls the files allow are answered. -/
def willing : Profile where
  raises _ := False
  copies _ _ _ _ := True
  prompt := False
  hides _ _ := false

theorem willing_not_faulty : ¬willing.Faulty := fun ⟨_, h⟩ => h

theorem exists_performs {α : Type} {V : Service} {s : Site V} {x : CopierM α}
    {Q : α → Scene cp V → Prop} {E : Exc → Scene cp V → Prop} (hx : Completes ⟨s, []⟩ x Q E)
    (hE : ∀ e w, ¬E e w) : ∃ a w, Q a w ∧ cp.Performs V s x (.ok a) w.state := by
  obtain ⟨r, w, hr, hreach⟩ := Alone.reach hx
  cases r with
  | error e => exact absurd hr (hE e w)
  | ok a => exact ⟨a, w, hr, _, hreach, ⟨rfl, fun p hp => absurd hp List.not_mem_nil⟩, rfl⟩

theorem exists_load (cp : Copier) (account : Option String) (now : String)
    (hread : ∀ f ∈ logFiles willing d root, cp.Readable d f.id)
    (hone : OneLogEach {account} root d) :
    ∃ t m, cp.Performs (Drive.service willing) ⟨cp.freshMem now, d⟩ (cp.load root account) (.ok t)
      ⟨m, d⟩ ∧ OwnsLog root account m d := by
  let w : Scene cp (Drive.service willing) := ⟨⟨cp.freshMem now, d⟩, []⟩
  have hw : w.state = ⟨cp.freshMem now, d⟩ := rfl
  obtain ⟨t, w', ⟨own, files, hfiles, hstate, merged, hg⟩, hx⟩ :=
    exists_performs (completes_load hw) (by
      rintro e w' ⟨-, hfaulty | ⟨f, hf, hunread⟩⟩
      · exact willing_not_faulty hfaulty
      · exact hunread (hread f hf))
  rw [hstate] at hx
  exact ⟨t, _, hx, hg.ownsLog hfiles hone⟩

theorem exists_save (cp : Copier) {account : Option String} (howns : OwnsLog root account m d)
    (hroot : m.state.destRootId = some root) (hhas : d.has root) :
    ∃ m' d' log, cp.Performs (Drive.service willing) ⟨m, d⟩ cp.save (.ok ()) ⟨m', d'⟩ ∧
      m'.ownLogFileId = some log.id ∧ Wrote cp root account m.state.copiedIds d d' log := by
  let w : Scene cp (Drive.service willing) := ⟨⟨m, d⟩, []⟩
  have hw : w.state = ⟨m, d⟩ := rfl
  obtain ⟨_, w', ⟨m', d', hstate, -, hstored⟩, hx⟩ := exists_performs (completes_save hw) (by
    rintro e w' ⟨m', -, -, -, hfaulty | hlacks⟩
    · exact willing_not_faulty hfaulty
    · apply hlacks
      unfold Mem.savesTo
      cases hown : truthy m.ownLogFileId with
      | none => rwa [Option.getD_none, hroot]
      | some id =>
        obtain ⟨n, hn, -, hid⟩ := (howns.2 id).mp hown
        exact ⟨n, hn, hid⟩)
  rw [hstate] at hx
  obtain ⟨log, hown, hwrote⟩ := hstored.wrote howns hroot
  exact ⟨m', d', log, hx, hown, hwrote⟩

theorem not_live_bare {n : Node} (hn : n ∈ bareDrive root) : n.liveIn root = false := by
  obtain rfl := List.mem_singleton.mp hn
  simp [Node.liveIn]

theorem not_isLog_bare {n : Node} (hn : n ∈ bareDrive root) (a : Option String) :
    ¬n.IsLog root a :=
  fun hlog => nomatch (not_live_bare hn).symm.trans hlog.1

theorem oneLogEach_bare (root : String) (A : Set (Option String)) :
    OneLogEach A root (bareDrive root) :=
  ⟨fun a _ _ hn _ _ hlog => absurd hlog (not_isLog_bare hn a),
    fun a _ _ hn hlog => absurd hlog (not_isLog_bare hn a)⟩

theorem serialize_copiedIds {sha256 : Json → String} {s t : ResumeState}
    (h : serialize sha256 s = serialize sha256 t) : s.copiedIds = t.copiedIds := by
  obtain ⟨s', hs, hsame⟩ := deserialize_serialize sha256 "" s
  obtain ⟨t', ht, hsame'⟩ := deserialize_serialize sha256 "" t
  rw [h, ht, Except.ok.injEq] at hs
  rw [← hsame.copiedIds, ← hs, hsame'.copiedIds]

/-- A state for the root in which the ids are copied. -/
def stateWith (root : String) (copied : Finset String) : ResumeState :=
  { destRootId := some root, copiedIds := copied, createdAt := "", updatedAt := "" }

/-- The first save for `b` overwrites the log that was created for `a`. -/
theorem collision_overwrites (cp : Copier) (root : String) {a b : Option String} (ha : a ∈ A)
    (hb : b ∈ A) (hab : a ≠ b) (hname : logNameFor a = logNameFor b) : ∃ past w e w',
      StoreRun cp willing root A (bareDrive root) past w ∧
        StoreStep cp willing root A w e w' ∧ ¬KeptApart past w e w' := by
  have hroot : (bareDrive root).has root := ⟨_, List.mem_singleton_self _, rfl⟩
  obtain ⟨t₁, m₁, hx₁, howns₁⟩ := exists_load cp a "" (by
    intro f hf
    obtain ⟨n, hn, hlive, -⟩ := mem_logFiles.mp hf
    exact nomatch (not_live_bare hn).symm.trans hlive) (oneLogEach_bare root {a})
  obtain ⟨m₂, d₂, log₂, hx₂, hown₂, hwrote₂⟩ := exists_save cp
    (m := { m₁ with state := stateWith root ∅ }) howns₁ rfl hroot
  obtain ⟨s₂, hcontent₂, hs₂⟩ := hwrote₂.content
  obtain ⟨t₃, m₃, hx₃, howns₃⟩ := exists_load cp b (d := d₂) "" (by
    intro f hf
    obtain ⟨n, hn, hlive, -, rfl⟩ := mem_logFiles.mp hf
    by_cases hid : n.id = log₂.id
    · obtain rfl := Drive.eq_of_id hn hwrote₂.mem hid
      refine ⟨n, hn, rfl, fun now => ?_⟩
      obtain ⟨t, ht, -⟩ := deserialize_serialize cp.sha256 now s₂
      exact ⟨t, hcontent₂ ▸ ht⟩
    · exact nomatch (not_live_bare ((hwrote₂.others n hid).mp hn)).symm.trans hlive)
    (hwrote₂.oneLogEach (oneLogEach_bare root {b}))
  have hroot₂ : d₂.has root := by
    obtain ⟨n, hn, hid⟩ := hroot
    refine ⟨n, (hwrote₂.others n fun h => ?_).mpr hn, hid⟩
    exact not_isLog_bare hn a ((hwrote₂.logs n hn).mpr h)
  obtain ⟨m₄, d₄, log₄, hx₄, hown₄, hwrote₄⟩ := exists_save cp
    (m := { m₃ with state := stateWith root {"x"} }) howns₃ rfl hroot₂
  obtain ⟨s₄, hcontent₄, hs₄⟩ := hwrote₄.content
  have hlog : log₂.id = log₄.id :=
    (hwrote₄.logs log₂ hwrote₂.mem).mp ⟨hwrote₂.isLog.1, hwrote₂.isLog.2.trans hname⟩
  have hrun₁ : StoreRun cp willing root A (bareDrive root) _ _ :=
    StoreRun.start.step (.load ha "" hx₁)
  have hrun₂ := hrun₁.step (.save (Function.update_self _ _ _) rfl hx₂)
  have hrun₃ := hrun₂.step (.load hb "" hx₃)
  refine ⟨_, _, _, _, hrun₃, .save (Function.update_self _ _ _) rfl hx₄, fun hkept => ?_⟩
  have hcreated : truthy m₁.ownLogFileId = none := by
    apply Option.eq_none_iff_forall_ne_some.mpr
    intro id hid
    obtain ⟨n, hn, hlog, -⟩ := (howns₁.2 id).mp hid
    exact not_isLog_bare hn a hlog
  have hsame := hkept a hab log₂.id ⟨stateWith root ∅, m₁.ownLogFileId, by simp [hown₂], hcreated⟩
  have hsame' : some log₄.content = some log₂.content := by
    unfold Drive.contentOf at hsame
    rwa [hlog, Drive.find_of_mem hwrote₄.mem, ← hlog, Drive.find_of_mem hwrote₂.mem] at hsame
  rw [Option.some.injEq, hcontent₂, hcontent₄] at hsame'
  have hcopied := serialize_copiedIds hsame'
  rw [hs₂, hs₄] at hcopied
  exact absurd hcopied (by simp [stateWith])

end Collision

/-- The methods of the stores of the accounts in `A` keep the logs apart, on any Drive and in
any order, exactly when no two of these accounts have the same log name. -/
theorem logs_kept_apart_iff (cp : Copier) (root : String) (A : Set (Option String)) :
    (∀ (pf : Profile) (d : Drive), OneLogEach A root d → ∀ past w e w',
      StoreRun cp pf root A d past w → StoreStep cp pf root A w e w' → KeptApart past w e w') ↔
    Set.InjOn logNameFor A := by
  constructor
  · intro h a ha b hb hname
    by_contra hab
    obtain ⟨past, w, e, w', hr, hs, hnot⟩ := collision_overwrites cp root ha hb hab hname
    exact hnot (h willing (bareDrive root) (oneLogEach_bare root A) past w e w' hr hs)
  · intro hinj pf d hone past w e w' hr hs
    exact ((Guarded.run hinj hone hr).step hinj hs).2

/-- Two addresses that differ in a character that the name of a log cannot have. -/
def twoAddresses : Set (Option String) := {some "ann+x@mail.com", some "ann_x@mail.com"}

theorem log_of_another_account_overwritten :
    ¬∀ (pf : Profile) (d : Drive), OneLogEach twoAddresses "root" d →
      ∀ past w e w', StoreRun smallCopier pf "root" twoAddresses d past w →
        StoreStep smallCopier pf "root" twoAddresses w e w' → KeptApart past w e w' := by
  intro h
  obtain ⟨past, w, e, w', hr, hs, hnot⟩ := collision_overwrites smallCopier "root"
    (A := twoAddresses) (.inl rfl) (.inr rfl) (by decide) (by decide +kernel)
  exact hnot (h willing (bareDrive "root") (oneLogEach_bare "root" _) past w e w' hr hs)

end TurboCopy
