import TurboCopy.Copier.Ends
import TurboCopy.Copier.Course

/-!
# What the logs hold

`ResumeStore.load` over an honest server: what it merges from the logs of a folder, up to the
times it fills in, depends on the Drive only. A log that cannot be read stops it.
-/

namespace TurboCopy

open Threads CopierM Copier

/-- What a run takes over from a log: the folder map, the completed folders and the prior
failures without their times. -/
structure Holdings where
  folderMap : Dict String
  completed : Finset String
  failed : List FailedItem

def ResumeState.holdings (s : ResumeState) : Holdings where
  folderMap := s.folderMap
  completed := s.completedFolders
  failed := s.failedItems.map FailedItem.untimed

theorem logNameFor_ne (account : Option String) : logNameFor account ≠ "" := by
  intro h
  have hl := congrArg (fun s : String => s.toList.length) h
  unfold logNameFor at hl
  split at hl <;> simp [logPrefix] at hl

/-! ## One log -/

theorem fromDict?_untimed (now now' : String) (j : Json) :
    (FailedItem.fromDict? now j).map FailedItem.untimed =
      (FailedItem.fromDict? now' j).map FailedItem.untimed := by
  cases j <;> rfl

theorem mapM_fromDict?_untimed (now now' : String) (l : List Json) :
    (l.mapM (FailedItem.fromDict? now)).map (List.map FailedItem.untimed) =
      (l.mapM (FailedItem.fromDict? now')).map (List.map FailedItem.untimed) := by
  induction l with
  | nil => rfl
  | cons j l ih =>
    have hj := fromDict?_untimed now now' j
    rw [List.mapM_cons, List.mapM_cons]
    cases h : FailedItem.fromDict? now j with
    | none =>
      rw [h] at hj
      rw [Option.map_eq_none_iff.mp hj.symm]
      rfl
    | some f =>
      rw [h] at hj
      obtain ⟨f', hf', hf⟩ := Option.map_eq_some_iff.mp hj.symm
      rw [hf']
      cases hl : l.mapM (FailedItem.fromDict? now) with
      | none =>
        rw [hl] at ih
        have hnone := Option.map_eq_none_iff.mp ih.symm
        simp [hnone]
      | some fs =>
        rw [hl] at ih
        obtain ⟨fs', hfs', hfs⟩ := Option.map_eq_some_iff.mp ih.symm
        simp [hfs', hf, hfs]

/-- Two results that agree through `g`. -/
theorem readOr_map {α β : Type} {g : α → β} {conv conv' : Json → Option α}
    (h : ∀ v, (conv v).map g = (conv' v).map g) (data : List (String × Json)) (key : String)
    (default : α) : (readOr data key default conv).map g =
      (readOr data key default conv').map g := by
  unfold readOr
  cases Json.field data key with
  | none => rfl
  | some v =>
    dsimp only
    split_ifs
    · have hv := h v
      cases hc : conv v with
      | none =>
        rw [hc] at hv
        rw [Option.map_eq_none_iff.mp hv.symm]
      | some a =>
        rw [hc] at hv
        obtain ⟨a', hc', ha⟩ := Option.map_eq_some_iff.mp hv.symm
        rw [hc']
        exact congrArg Except.ok ha.symm
    · rfl

/-- The failed items of a log. -/
def readFailed (now : String) (data : List (String × Json)) : Except String (List FailedItem) :=
  readOr data "failed_items" [] fun v =>
    match v with
    | .arr l => l.mapM (FailedItem.fromDict? now)
    | _ => none

theorem readFailed_untimed (now now' : String) (data : List (String × Json)) :
    (readFailed now data).map (List.map FailedItem.untimed) =
      (readFailed now' data).map (List.map FailedItem.untimed) := by
  apply readOr_map
  intro v
  cases v
  case arr l => exact mapM_fromDict?_untimed now now' l
  all_goals rfl

theorem readState_holdings (now now' : String) (data : List (String × Json)) :
    (readState now data).map ResumeState.holdings =
      (readState now' data).map ResumeState.holdings := by
  have hwhole (now : String) : (readState now data).map ResumeState.holdings = (do
      let key := if (Json.field data "copied_file_ids").isSome then "copied_file_ids"
        else "copied_ids"
      let _ ← readOr data key [] Json.toStrings?
      let failed ← (readFailed now data).map (List.map FailedItem.untimed)
      let folderMap ← readOr data "folder_map" ∅ Json.toDict?
      let completed ← readOr data "completed_folder_ids" [] Json.toStrings?
      let _ ← readOr data "copied_bytes" 0 Json.toInt?
      pure (⟨folderMap, completed.toFinset, failed⟩ : Holdings)) := by
    have hfailed : (readOr data "failed_items" [] fun v => match v with
        | .arr l => l.mapM (FailedItem.fromDict? now)
        | _ => none) = readFailed now data := rfl
    unfold readState
    extract_lets key
    erw [hfailed]
    cases readOr data key [] Json.toStrings? with
    | error e => rfl
    | ok copied =>
      cases readFailed now data with
      | error e => rfl
      | ok failed =>
        cases readOr data "folder_map" ∅ Json.toDict? with
        | error e => rfl
        | ok folderMap =>
          cases readOr data "completed_folder_ids" [] Json.toStrings? with
          | error e => rfl
          | ok completed =>
            cases readOr data "copied_bytes" 0 Json.toInt? with
            | error e => rfl
            | ok bytes => rfl
  rw [hwhole now, hwhole now', readFailed_untimed now now']

theorem deserialize_holdings (sha256 : Json → String) (now now' : String) (c : Content) :
    (deserialize sha256 now c).map ResumeState.holdings =
      (deserialize sha256 now' c).map ResumeState.holdings := by
  have hread (raw : List (String × Json)) :
      (migrate raw >>= readState now).map ResumeState.holdings =
        (migrate raw >>= readState now').map ResumeState.holdings := by
    cases migrate raw with
    | error e => rfl
    | ok data => exact readState_holdings now now' data
  unfold deserialize
  split
  · rfl
  · split
    · exact hread _
    · exact hread _
    · split_ifs
      · exact hread _
      · rfl
  · rfl

/-! ## All logs -/

/-- What the logs hold together, and the log to overwrite. -/
structure Findings extends Holdings where
  own : Option String

namespace Findings

def nothing : Findings where
  folderMap := ∅
  completed := ∅
  failed := []
  own := none

def add (account : Option String) (F : Findings) (entry : ApiFile) (h : Holdings) : Findings where
  folderMap := h.folderMap.entries.foldl (fun d e => Dict.setdefault d e.1 e.2) F.folderMap
  completed := F.completed ∪ h.completed
  failed := F.failed ++ h.failed
  own := if entry.name = logNameFor account then some entry.id else F.own

end Findings

theorem mergeLog_holdings {account : Option String} {F : Findings} {merged state : ResumeState}
    (h : merged.holdings = F.toHoldings) (entry : ApiFile) :
    (mergeLog account merged entry state).holdings =
      (F.add account entry state.holdings).toHoldings := by
  have hmap : merged.folderMap = F.folderMap := congrArg Holdings.folderMap h
  have hdone : merged.completedFolders = F.completed := congrArg Holdings.completed h
  have hfailed : merged.failedItems.map FailedItem.untimed = F.failed :=
    congrArg Holdings.failed h
  unfold mergeLog
  split_ifs <;> simp [ResumeState.holdings, Findings.add, hmap, hdone, hfailed]

/-- The holdings of a log on a Drive, if it can be read. -/
def Drive.holdings (sha256 : Json → String) (d : Drive) (id : String) : Option Holdings :=
  (d.find id).bind fun n => ((deserialize sha256 "" n.content).map ResumeState.holdings).toOption

/-- What is found in some logs, unless one of them cannot be read. -/
def Drive.findings (sha256 : Json → String) (d : Drive) (account : Option String) :
    List ApiFile → Findings → Option Findings
  | [], F => some F
  | entry :: rest, F =>
    match d.holdings sha256 entry.id with
    | none => none
    | some h => findings sha256 d account rest (F.add account entry h)

/-- What the logs hold does not depend on the log that was to be overwritten. -/
theorem Drive.findings_holdings {sha256 : Json → String} {d : Drive} {account : Option String}
    (files : List ApiFile) : ∀ {F F' : Findings}, F.toHoldings = F'.toHoldings →
      (d.findings sha256 account files F).map Findings.toHoldings =
        (d.findings sha256 account files F').map Findings.toHoldings := by
  induction files with
  | nil => exact fun h => congrArg some h
  | cons entry rest ih =>
    intro F F' h
    unfold Drive.findings
    cases d.holdings sha256 entry.id with
    | none => rfl
    | some held =>
      apply ih
      simp only [Findings.add, h]

/-! ## Procedures that may raise -/

section

variable {V : Service} {cp : Copier} {α β : Type} {s : Site V} {Q R : α → Site V → Prop}
  {E : Exc → Site V → Prop}

/-- From the state `s` the procedure returns in a state of `Q` or raises in one of `E`. -/
def CopierM.Settles (cp : Copier) (s : Site V) (x : CopierM α) (Q : α → Site V → Prop)
    (E : Exc → Site V → Prop) : Prop :=
  ∀ past, Completes (⟨s, past⟩ : Scene cp V) x (fun a w => Q a w.state) fun e w => E e w.state

namespace CopierM.Settles

theorem of_succeeds {x : CopierM α} (h : Succeeds cp s x Q) : Settles cp s x Q E :=
  fun past => (h past).mono (fun _ _ h => h) fun _ _ h => h.elim

theorem pure {a : α} (h : Q a s) : Settles cp s (pure a : CopierM α) Q E :=
  fun _ => Completes.pure h

theorem throw {e : Exc} (h : E e s) : Settles cp s (throw e : CopierM α) Q E :=
  fun _ => Completes.throw h

theorem bind {x : CopierM α} {f : α → CopierM β} {Q : β → Site V → Prop}
    (hx : Settles cp s x R E) (hf : ∀ a s', R a s' → Settles cp s' (f a) Q E) :
    Settles cp s (x >>= f) Q E := by
  intro past
  apply Completes.bind (hx past)
  rintro a ⟨s', past'⟩ h
  exact hf a s' h past'

theorem mono {D : Exc → Site V → Prop} {x : CopierM α} (h : Settles cp s x R D)
    (hR : ∀ a s', R a s' → Q a s') (hE : ∀ e s', D e s' → E e s') : Settles cp s x Q E :=
  fun past => (h past).mono (fun a w => hR a w.state) fun e w => hE e w.state

theorem attempt {x : CopierM α} {Q : Except Exc α → Site V → Prop}
    (h : Settles cp s x (fun a => Q (.ok a)) fun e => Q (.error e)) :
    Succeeds cp s (attempt x) Q :=
  fun past => Completes.attempt (h past)

end CopierM.Settles

end

/-- The memory after the logs have been loaded. -/
def Findings.into (F : Findings) (prior : List FailedItem) (g : Gist) : Gist :=
  { g with
    previous := prior
    completed := g.completed ∪ F.completed
    folderMap := F.folderMap.entries.foldl (fun d e => Dict.setdefault d e.1 e.2) g.folderMap
    ownLog := F.own }

namespace Server

variable {sv : Server} {cp : Copier} {s : Site sv.service}

theorem ask_getMedia {id : String} {Q : Except ApiError Content → Site sv.service → Prop}
    (hfound : ∀ n, s.drive.find id = some n → Q (.ok n.content) s)
    (hmissing : s.drive.find id = none → Q (.error Drive.notFound) s) :
    Succeeds cp s (ask (.getMedia id)) Q := by
  apply Succeeds.ask
  · cases h : s.drive.find id with
    | none => exact ⟨_, _, .missing (Drive.not_has_of_find h) (fun _ => nofun) rfl⟩
    | some n =>
      obtain ⟨hn, rfl⟩ := Drive.find_eq_some h
      exact ⟨_, _, .granted (.getMedia s.drive n hn) trivial⟩
  · rintro x d (⟨hg, -⟩ | ⟨hlacks, -, rfl⟩)
    · cases hg with
      | getMedia _ n hn => exact hfound n (Drive.find_of_mem hn)
    · refine hmissing ?_
      cases h : s.drive.find id with
      | none => rfl
      | some m => exact absurd ⟨m, Drive.find_eq_some h⟩ hlacks

/-- A log is read, or the run stops. -/
theorem loadLog_settles (entry : ApiFile) : Settles cp s (cp.loadLog entry)
    (fun st s' => s' = s ∧ s.drive.holdings cp.sha256 entry.id = some st.holdings)
    (fun e s' => s' = s ∧ s.drive.holdings cp.sha256 entry.id = none ∧
      ∃ text, e = .runtimeError text) := by
  unfold Copier.loadLog Drive.holdings
  apply Settles.bind (R := fun x s' => s' = s ∧
    (s.drive.find entry.id).elim (x = .error Drive.notFound) fun n => x = .ok n.content)
  · apply Settles.of_succeeds
    apply ask_getMedia
    · intro n hn
      rw [hn]
      exact ⟨rfl, rfl⟩
    · intro hnone
      rw [hnone]
      exact ⟨rfl, rfl⟩
  rintro x s' ⟨rfl, hx⟩
  cases hn : s'.drive.find entry.id with
  | none =>
    rw [hn] at hx
    obtain rfl := hx
    exact Settles.throw ⟨rfl, rfl, _, rfl⟩
  | some n =>
    rw [hn] at hx
    obtain rfl := hx
    apply Settles.bind (R := fun _ s'' => s'' = s')
    · exact Settles.of_succeeds (ask_nowIso fun _ => rfl)
    rintro now s'' rfl
    have hsame := deserialize_holdings cp.sha256 "" now n.content
    rw [Option.bind_some, hsame]
    cases deserialize cp.sha256 now n.content with
    | error text => exact Settles.throw ⟨rfl, rfl, _, rfl⟩
    | ok st => exact Settles.pure ⟨rfl, rfl⟩

/-- The logs are merged in the order of the listing. -/
theorem loadLogs_settles (account : Option String) (files : List ApiFile) :
    ∀ (F : Findings) (merged : ResumeState) (s : Site sv.service),
      merged.holdings = F.toHoldings → s.mem.ownLogFileId = F.own →
      Settles cp s (cp.loadLogs account files merged)
        (fun st s' => ∃ F', s.drive.findings cp.sha256 account files F = some F' ∧
          st.holdings = F'.toHoldings ∧
          s' = ⟨{ s.mem with ownLogFileId := F'.own }, s.drive⟩)
        (fun e s' => s.drive.findings cp.sha256 account files F = none ∧
          (∃ text, e = .runtimeError text) ∧ s'.drive = s.drive ∧
          s'.mem.result = s.mem.result) := by
  induction files with
  | nil =>
    intro F merged s hmerged hown
    refine Settles.pure ⟨F, rfl, hmerged, ?_⟩
    rw [← hown]
  | cons entry rest ih =>
    intro F merged s hmerged hown
    unfold Copier.loadLogs Drive.findings
    apply Settles.bind (R := fun st s' => s' = s ∧
      s.drive.holdings cp.sha256 entry.id = some st.holdings)
    · apply (loadLog_settles entry).mono (fun _ _ h => h)
      rintro e s' ⟨rfl, hnone, htext⟩
      rw [hnone]
      exact ⟨rfl, htext, rfl, rfl⟩
    rintro st s ⟨rfl, hst⟩
    rw [hst]
    dsimp only
    let F' := F.add account entry st.holdings
    apply Settles.bind (R := fun _ s' => s' = ⟨{ s.mem with ownLogFileId := F'.own }, s.drive⟩)
    · apply Settles.of_succeeds
      unfold claimLog
      split_ifs with hclaim
      · apply Succeeds.mem
        simp only [F', Findings.add, if_pos hclaim]
        rfl
      · apply Succeeds.pure
        simp only [F', Findings.add, if_neg hclaim, ← hown]
    · rintro _ s' rfl
      exact ih F' _ ⟨{ s.mem with ownLogFileId := F'.own }, s.drive⟩
        (mergeLog_holdings hmerged entry) rfl

/-- The logs of a destination root. -/
def rootLogs (sv : Server) (d : Drive) (dest : Option String) : List ApiFile :=
  match truthy dest with
  | none => []
  | some R => (sv.folderFiles d R none).filter fun f => startsWith f.name logPrefix

theorem load_settles {dest account : Option String} {R : String} (hR : truthy dest = some R) :
    Settles cp s (cp.load R account)
      (fun st s' => ∃ F, s.drive.findings cp.sha256 account (sv.rootLogs s.drive dest)
          { Findings.nothing with own := s.mem.ownLogFileId } = some F ∧
        st.holdings = F.toHoldings ∧ s' = ⟨{ s.mem with
          ownLogName := some (logNameFor account), ownLogFileId := F.own }, s.drive⟩)
      (fun e s' => s.drive.findings cp.sha256 account (sv.rootLogs s.drive dest)
          { Findings.nothing with own := s.mem.ownLogFileId } = none ∧
        (∃ text, e = .runtimeError text) ∧ s'.drive = s.drive ∧
        s'.mem.result = s.mem.result) := by
  let named : Site sv.service := ⟨(s.mem.exec (.setOwnLogName (logNameFor account))).2, s.drive⟩
  unfold Copier.load
  apply Settles.bind (R := fun _ s' => s' = named) (Settles.of_succeeds (Succeeds.mem rfl))
  rintro _ s' rfl
  apply Settles.bind (R := fun _ s' => s' = named)
    (Settles.of_succeeds (ask_nowIso fun _ => rfl))
  rintro created s' rfl
  apply Settles.bind (R := fun _ s' => s' = named)
    (Settles.of_succeeds (ask_nowIso fun _ => rfl))
  rintro updated s' rfl
  apply Settles.bind (R := fun x s' => x = .ok (sv.rootLogs s.drive dest) ∧ s' = named)
  · apply Settles.of_succeeds
    apply Succeeds.attempt
    apply (listLogFiles_succeeds R).mono
    rintro files s' ⟨rfl, rfl⟩
    unfold rootLogs
    rw [hR]
    exact ⟨rfl, rfl⟩
  rintro x s' ⟨rfl, rfl⟩
  exact loadLogs_settles account _ _ _ named rfl rfl

/-- The logs are loaded into the memory, or the run stops. -/
theorem resume_succeeds {dest account : Option String} {dry : Bool}
    (hname : (s.mem.gist dry).logName = logNameFor account)
    (hprevious : dry = false → (s.mem.gist dry).previous = []) :
    Succeeds cp s (attempt (cp.resume dest account)) fun x s' => s'.drive = s.drive ∧
      match s.drive.findings cp.sha256 account (sv.rootLogs s.drive dest) .nothing with
      | none => (∃ text, x = .error (.runtimeError text)) ∧ s'.mem.result = s.mem.result
      | some F => x = .ok () ∧ ∃ prior own,
          (dry = false → prior.map FailedItem.untimed = F.failed) ∧
          (s.mem.ownLogFileId = none → own = F.own) ∧
          s'.mem.gist dry = { F.into prior (s.mem.gist dry) with ownLog := own } := by
  apply Settles.attempt
  unfold Copier.resume
  cases hR : truthy dest with
  | none =>
    apply Settles.pure
    rw [rootLogs, hR]
    refine ⟨rfl, rfl, (s.mem.gist dry).previous, s.mem.ownLogFileId, fun hdry => ?_, id, ?_⟩
    · rw [hprevious hdry]
      rfl
    · simp [Findings.nothing, Findings.into, Mem.gist]
  | some R =>
    have hsame : (s.drive.findings cp.sha256 account (sv.rootLogs s.drive dest)
        { Findings.nothing with own := s.mem.ownLogFileId }).map Findings.toHoldings =
        (s.drive.findings cp.sha256 account (sv.rootLogs s.drive dest) .nothing).map
          Findings.toHoldings := s.drive.findings_holdings _ rfl
    apply Settles.bind ((load_settles hR).mono (fun _ _ h => h) ?_)
    · rintro st s' ⟨F, hF, hst, rfl⟩
      rw [hF] at hsame
      obtain ⟨F', hF', hholds⟩ := Option.map_eq_some_iff.mp hsame.symm
      apply Settles.of_succeeds
      apply Succeeds.mem
      rw [hF']
      refine ⟨rfl, rfl, st.failedItems, F.own,
        fun _ => (congrArg Holdings.failed (hst.trans hholds.symm)), fun hown => ?_, ?_⟩
      · rw [hown] at hF
        exact congrArg Findings.own (Option.some.inj (hF.symm.trans hF'))
      rw [← hholds] at hst
      have hmap : st.folderMap = F'.folderMap := congrArg Holdings.folderMap hst
      have hdone : st.completedFolders = F'.completed := congrArg Holdings.completed hst
      have hname' : orElse (some (logNameFor account)) (logNameFor s.mem.state.account) =
          (s.mem.gist dry).logName := by
        rw [hname, orElse_some (logNameFor_ne account)]
      simp only [Findings.into, Mem.gist, Mem.exec, Mem.mergeResume, hmap, hdone] at hname' ⊢
      rw [hname']
    · rintro e s' ⟨hnone, htext, hd, hresult⟩
      rw [hnone] at hsame
      rw [Option.map_eq_none_iff.mp hsame.symm]
      obtain ⟨text, rfl⟩ := htext
      exact ⟨hd, ⟨text, rfl⟩, hresult⟩

end Server
end TurboCopy
