import TurboCopy.Copier.Conformance.Levels

/-!
# A run keeps to its protocol

The resume store's scans, the stages of `run` and the whole of it. What any reachable
configuration of a run satisfies can then be shown on the ledger alone.
-/

namespace TurboCopy

open Threads CopierM

variable {cp : Copier} {sourceId destParent : String}

section Store

variable {d : String} {tok : Option PageToken} {files : List ApiFile}

/-- One page of the destination root, with what the scan has seen of it. -/
theorem does_listPage : Does (copierProtocol cp sourceId destParent) {.scan d tok files}
    (listPage d tok) (fun page g => g = {.scan d page.2 (files ++ page.1)}) fun _ g => g = 0 := by
  unfold listPage
  refine Does.bind (R := fun r g => match r with
      | .error _ => g = 0
      | .ok page => g = {.scan d page.2 (files ++ page.1)}) (Does.ask ?_) ?_
  · rintro (e | page)
    · exact ⟨0, .store (.scanFailed d tok files e), rfl⟩
    · exact ⟨_, .store (.scanPage d tok files page.1 page.2), rfl⟩
  · rintro (e | page) g hg
    · exact Does.throw hg
    · exact Does.pure hg

theorem does_listLogFiles : Does (copierProtocol cp sourceId destParent) {.scan d none []}
    (listLogFiles d)
    (fun logs g => ∃ tok files, g = {.scan d tok files} ∧
      logs = files.filter fun f => startsWith f.name logPrefix) fun _ g => g = 0 := by
  unfold listLogFiles pages
  refine Does.iterate (fun s g => ∃ files, g = {.scan d s.2 files} ∧
    s.1 = files.filter fun f => startsWith f.name logPrefix) ⟨[], rfl, rfl⟩ ?_
  rintro ⟨out, tok⟩ _ ⟨files, rfl, rfl⟩
  refine Does.bind does_listPage ?_
  rintro ⟨fs, _ | t⟩ _ rfl
  · exact Does.pure ⟨none, files ++ fs, rfl, (List.filter_append _ _).symm⟩
  · exact Does.pure ⟨files ++ fs, rfl, (List.filter_append _ _).symm⟩

/-- The exceptions of `load`. -/
def LoadExc (e : Exc) (_ : Multiset Token) : Prop := ∃ message, e = .runtimeError message

theorem LoadExc.framed {e : Exc} {φ g : Multiset Token} (h : ∃ τ, g = φ + τ ∧ LoadExc e τ) :
    LoadExc e g :=
  let ⟨_, _, h⟩ := h
  h

theorem does_loadLog (entry : ApiFile) (todo : List ApiFile) (merged : ResumeState) :
    Does (copierProtocol cp sourceId destParent) {.merging (entry :: todo) merged}
      (cp.loadLog entry)
      (fun st g => ∃ raw now, deserialize cp.sha256 now raw = .ok st ∧
        g = {.reading entry raw todo merged}) LoadExc := by
  unfold Copier.loadLog
  refine Does.bind (R := fun r g => Answered (fun _ => g = 0)
      (fun raw => g = {.reading entry raw todo merged}) r) (Does.ask ?_) ?_
  · rintro (e | raw)
    · exact ⟨0, .store (.unreadable entry todo merged e), rfl⟩
    · exact ⟨_, .store (.read entry todo merged raw), rfl⟩
  · rintro (e | raw) g hg
    · exact Does.throw ⟨_, rfl⟩
    · obtain rfl : g = {.reading entry raw todo merged} := hg
      refine Does.seq (σ := {.reading entry raw todo merged})
        (asks_quiet (fun t => .nowIso t) fun _ => rfl) ?_
      intro now
      cases h : deserialize cp.sha256 now raw with
      | error text => exact Does.throw ⟨_, rfl⟩
      | ok st => exact Does.pure ⟨raw, now, h, rfl⟩

theorem does_loadLogs (account : Option String) (todo : List ApiFile) :
    ∀ merged, Does (copierProtocol cp sourceId destParent) {.merging todo merged}
      (cp.loadLogs account todo merged) (fun st g => g = {.merging [] st}) LoadExc := by
  induction todo with
  | nil => exact fun merged => Does.pure rfl
  | cons entry todo ih =>
    intro merged
    refine Does.bind (does_loadLog entry todo merged) ?_
    rintro st _ ⟨raw, now, hst, rfl⟩
    refine Does.shift (.merged entry raw todo merged account now st hst) ?_
    refine Does.part (φ := {.merging todo (Copier.mergeLog account merged entry st)})
      (σ := {.own entry}) (R := fun _ g => g = 0) (D := LoadExc) rfl ?_ ?_ fun _ _ h => h
    · unfold Copier.claimLog
      split_ifs
      · exact Does.mem fun u => ⟨0, .store (.owned entry u), rfl⟩
      · exact Does.shift (.forget (.own entry)) (Does.pure rfl)
    · rintro u _ rfl
      rw [add_zero]
      exact ih _

theorem does_load (account : Option String) :
    Does (copierProtocol cp sourceId destParent) {.rootAt d} (cp.load d account)
      (fun st g => g = {.rootAt d, .merging [] st}) LoadExc := by
  unfold Copier.load
  refine Does.seq (σ := {.rootAt d}) (does_quiet (fun u => .setOwnLogName account u) fun _ => rfl) ?_
  intro u
  refine Does.seq (σ := {.rootAt d}) (asks_quiet (fun t => .nowIso t) fun _ => rfl) ?_
  intro created
  refine Does.seq (σ := {.rootAt d}) (asks_quiet (fun t => .nowIso t) fun _ => rfl) ?_
  intro updated
  dsimp only
  refine Does.shift (.scan d) ?_
  refine Does.part (φ := {.rootAt d}) (D := LoadExc) (R := fun r g => Answered
    (fun _ => g = 0) (fun logs : List ApiFile => ∃ tok files, g = {Token.scan d tok files} ∧
      logs = files.filter fun f => startsWith f.name logPrefix) r) rfl
    (Does.attempt (does_listLogFiles.mono (fun _ _ h => h) fun _ _ h => h)) ?_ fun _ _ h => h
  rintro (e | logs) g hg
  · exact Does.throw ⟨_, rfl⟩
  · obtain ⟨tok, files, rfl, rfl⟩ := hg
    refine Does.shiftPart (.merge d tok account created updated files) ?_
    refine (Does.frame {.rootAt d} (does_loadLogs account _ _)).mono ?_ fun _ _ h => LoadExc.framed h
    rintro st _ ⟨_, rfl, rfl⟩
    rfl

theorem does_resume (destRoot account : Option String) :
    Does (copierProtocol cp sourceId destParent) (rootTokens destRoot)
      (cp.resume destRoot account) (fun _ g => g = rootTokens destRoot) LoadExc := by
  unfold Copier.resume
  cases h : truthy destRoot with
  | none => exact Does.pure rfl
  | some d =>
    have hr : rootTokens destRoot = {.rootAt d} := by rw [rootTokens, h]
    rw [hr]
    refine Does.bind (does_load account) ?_
    rintro st _ rfl
    have hmerge : Does (copierProtocol cp sourceId destParent) {.merging [] st}
        (mem (.mergeResume st)) (fun _ g => g = 0) LoadExc :=
      Does.mem fun u => ⟨0, .store (.merge st u), rfl⟩
    refine (Does.frame {.rootAt d} hmerge).mono ?_ fun _ _ h => LoadExc.framed h
    rintro u _ ⟨_, rfl, rfl⟩
    exact add_zero _

/-- A scan that found an owned file of a name, or none. -/
theorem does_findOwned (name : String) :
    Does (copierProtocol cp sourceId destParent) {.scan d none []} (Copier.findOwned d name)
      (fun id g => ∃ tok files, g = {.scan d tok files} ∧ ∀ i, id = some i →
        ∃ f ∈ files, f.id = i ∧ f.name = name ∧ isOwned f = true) fun _ _ => True := by
  unfold Copier.findOwned
  refine Does.iterate (fun t g => ∃ files, g = {.scan d t files}) ⟨[], rfl⟩ ?_
  rintro t _ ⟨files, rfl⟩
  refine Does.bind (does_listPage.mono (fun _ _ h => h) fun _ _ _ => trivial) ?_
  rintro ⟨fs, t'⟩ _ rfl
  dsimp only
  split
  · rename_i f hf
    refine Does.pure ⟨t', files ++ fs, rfl, ?_⟩
    rintro i hi
    cases hi
    have h := List.find?_some hf
    simp only [Bool.and_eq_true, decide_eq_true_eq] at h
    exact ⟨f, List.mem_append_right _ (List.mem_of_find?_eq_some hf), rfl, h.1, h.2⟩
  · cases t' with
    | none => exact Does.pure ⟨none, files ++ fs, rfl, fun i hi => nomatch hi⟩
    | some t => exact Does.pure ⟨files ++ fs, rfl⟩

theorem does_exportFailedReport (res : CopyResult) :
    Does (copierProtocol cp sourceId destParent) ({.returned res} + {.rootAt d})
      (Copier.exportFailedReport d (res.previousFailedItems ++ res.failedItems))
      (fun _ _ => True) fun _ _ => True := by
  unfold Copier.exportFailedReport
  split_ifs
  · exact Does.pure trivial
  · refine Does.seq (σ := {.returned res} + {.rootAt d})
      (asks_quiet (fun t => .nowIso t) fun _ => rfl) ?_
    intro now
    dsimp only
    refine Does.shiftPart (.scan d) ?_
    refine Does.part (φ := {.returned res} + {.rootAt d}) (σ := {.scan d none []})
      (D := fun _ _ => True) (by rw [add_assoc]; rfl) (does_findOwned failedReportName) ?_
      fun _ _ _ => trivial
    rintro id _ ⟨tok, files, rfl, hid⟩
    have hregroup : ({.returned res} + {.rootAt d} + {.scan d tok files} : Multiset Token) =
        {.rootAt d} + {.returned res, .scan d tok files} := by
      rw [add_right_comm, add_comm]
      rfl
    rw [hregroup]
    have hany {r : Except ApiError Unit} {g : Multiset Token} :
        Does (copierProtocol cp sourceId destParent) g (orThrow r) (fun _ _ => True)
          fun _ _ => True := Does.orThrow (fun _ _ => trivial) fun _ _ => trivial
    cases h : truthy id with
    | some i =>
      obtain ⟨rfl, -⟩ := truthy_eq_some.mp h
      obtain ⟨f, hf, rfl, hn, ho⟩ := hid i rfl
      refine Does.part (φ := {.rootAt d}) (R := fun _ _ => True) (D := fun _ _ => True) rfl
        (Does.ask fun r => ⟨_, .store (.report d tok files f now res r hf hn ho), trivial⟩)
        (fun r τ _ => hany) fun _ _ _ => trivial
    | none =>
      refine Does.part (φ := {.rootAt d}) (R := fun _ _ => True) (D := fun _ _ => True) rfl
        (Does.ask fun r => ⟨_, .store (.newReport d tok files now res r), trivial⟩) ?_
        fun _ _ _ => trivial
      intro r τ _
      refine Does.bind (R := fun _ _ => True)
        (Does.orThrow (fun _ _ => trivial) fun _ _ => trivial) ?_
      intro i τ _
      exact Does.pure trivial

theorem does_trashOwned (page : List ApiFile) (hp : ∀ f ∈ page, f ∈ files) :
    Does (copierProtocol cp sourceId destParent) {.scan d tok files} (Copier.trashOwned page)
      (fun _ g => g = {.scan d tok files}) fun _ _ => True := by
  induction page with
  | nil => exact Does.pure rfl
  | cons f rest ih =>
    refine Does.seq (σ := {.scan d tok files}) ?_ fun u =>
      ih fun g hg => hp g (List.mem_cons_of_mem _ hg)
    unfold Copier.trashIfOwned
    split_ifs with h
    · rw [Bool.and_eq_true] at h
      refine Does.seq (σ := {.scan d tok files}) (Does.ask fun r =>
        ⟨_, .store (.trash d tok files f r (hp f List.mem_cons_self) h.1 h.2), rfl⟩) ?_
      intro r
      exact Does.pure rfl
    · exact Does.pure rfl

theorem does_cleanup : Does (copierProtocol cp sourceId destParent) {.scan d none []}
    (Copier.cleanup d) (fun _ _ => True) fun _ _ => True := by
  unfold Copier.cleanup
  refine Does.iterate (fun t g => ∃ files, g = {.scan d t files}) ⟨[], rfl⟩ ?_
  rintro t _ ⟨files, rfl⟩
  refine Does.bind (does_listPage.mono (fun _ _ h => h) fun _ _ _ => trivial) ?_
  rintro ⟨fs, t'⟩ _ rfl
  refine Does.seq (σ := {.scan d t' (files ++ fs)})
    (does_trashOwned fs fun f hf => List.mem_append_right _ hf) ?_
  intro u
  cases t' with
  | none => exact Does.pure trivial
  | some t => exact Does.pure ⟨files ++ fs, rfl⟩

end Store

/-! ## The stages of a run -/

section Run

variable {τ : Multiset Token} {E : Exc → Multiset Token → Prop} {α : Type}

theorem does_result : Does (copierProtocol cp sourceId destParent) τ (mem .result)
    (fun r g => g = τ + {.returned r}) E := by
  intro f b
  refine Protocol.Leads.intro fun r => .inl ⟨f + τ, 0, {.returned r}, (add_zero _).symm,
    .run (.returned r), ?_⟩
  exact Protocol.Leads.intro ⟨τ + {.returned r}, add_assoc _ _ _, rfl⟩

/-- Reading the result without returning it. -/
theorem does_peek : Does (copierProtocol cp sourceId destParent) τ (mem .result)
    (fun _ g => g = τ) E := by
  refine Protocol.Spec.leads (Protocol.Spec.mono (does_result (τ := τ)
    (E := fun e g => E e g)) ?_)
  rintro (e | r) g hg
  · exact Protocol.Leads.intro hg
  · obtain rfl : g = τ + {.returned r} := hg
    refine ⟨τ, Protocol.Shifts.one (.forget (.returned r)) rfl (add_zero _).symm, rfl⟩

theorem does_stopWith (reason : String) : Does (copierProtocol cp sourceId destParent) τ
    (Copier.stopWith reason) (fun r g => g = τ + {.returned r}) E := by
  refine Does.seq (σ := τ) (does_quiet (fun u => .setStopReason reason u) fun _ => rfl) ?_
  intro u
  exact does_result

/-- What `run` leaves: the token of the result it returns. -/
def Ends (r : CopyResult) (g : Multiset Token) : Prop := ∃ junk, g = junk + {.returned r}

theorem does_cleanupAfter (destRoot : Option String) :
    Does (copierProtocol cp sourceId destParent) (τ + rootTokens destRoot)
      (Copier.cleanupAfter destRoot)
      (fun _ g => ∃ junk, g = junk + rootTokens destRoot) E := by
  unfold Copier.cleanupAfter
  refine Does.seq (σ := τ + rootTokens destRoot) does_peek ?_
  intro r
  cases h : truthy destRoot with
  | none => exact Does.pure ⟨τ, rfl⟩
  | some d =>
    have hr : rootTokens destRoot = {.rootAt d} := by rw [rootTokens, h]
    rw [hr]
    dsimp only
    split_ifs
    · have hscan : Does (copierProtocol cp sourceId destParent) {.rootAt d} (Copier.cleanup d)
          (fun _ g => ∃ junk, g = junk + {.rootAt d}) fun _ g => ∃ junk, g = junk + {.rootAt d} := by
        refine Does.shift (.scan d) ?_
        refine (Does.frame {.rootAt d} does_cleanup).mono ?_ ?_
        · rintro _ _ ⟨junk, rfl, -⟩
          exact ⟨junk, add_comm _ _⟩
        · rintro _ _ ⟨junk, rfl, -⟩
          exact ⟨junk, add_comm _ _⟩
      refine Does.part (φ := τ) (R := fun _ g => ∃ junk, g = junk + {.rootAt d})
        (D := fun _ _ => False) rfl (Does.attempt hscan) ?_ fun _ _ h => h.elim
      rintro _ _ ⟨junk, rfl⟩
      exact Does.pure ⟨τ + junk, (add_assoc _ _ _).symm⟩
    · exact Does.pure ⟨τ, rfl⟩

theorem does_reportAfter (destRoot : Option String) :
    Does (copierProtocol cp sourceId destParent) (τ + rootTokens destRoot)
      (cp.reportAfter destRoot) (fun _ _ => True) E := by
  unfold Copier.reportAfter
  refine Does.bind (does_result.mono (fun _ _ h => h) fun _ _ h => h) ?_
  rintro r _ rfl
  dsimp only
  cases h : truthy destRoot with
  | none => exact Does.pure trivial
  | some d =>
    have hr : rootTokens destRoot = {.rootAt d} := by rw [rootTokens, h]
    rw [hr]
    dsimp only
    split_ifs
    · refine Does.part (φ := τ) (R := fun _ _ => True) (D := fun _ _ => False) ?_
        (Does.attempt (does_exportFailedReport r)) ?_ fun _ _ h => h.elim
      · rw [add_assoc, add_comm ({Token.rootAt d} : Multiset Token)]
      · intro r τ' _
        exact Does.pure trivial
    · exact Does.pure trivial

/-- The end of a run, when `σ` pays for the flag of the result. -/
theorem does_finalize (destRoot : Option String) (completed : Bool) {σ : Multiset Token}
    (hset : ∀ u, ∃ σ', (copierProtocol cp sourceId destParent).rule
      (.mem (.setCompleted completed)) u σ σ') :
    Does (copierProtocol cp sourceId destParent) (τ + rootTokens destRoot + σ)
      (cp.finalize destRoot completed) Ends E := by
  unfold Copier.finalize
  refine Does.part (φ := τ + rootTokens destRoot) (R := fun _ _ => True) (D := fun _ _ => False)
    rfl (Does.mem fun u => (hset u).imp fun σ h => ⟨h, trivial⟩) ?_ fun _ _ h => h.elim
  intro u σ' _
  rw [add_right_comm]
  refine Does.bind (does_cleanupAfter destRoot) ?_
  rintro u _ ⟨junk, rfl⟩
  refine Does.bind (does_reportAfter destRoot) ?_
  intro u g _
  exact does_result.mono (fun r _ h => ⟨g, h⟩) fun _ _ h => h

theorem does_finalize_false (destRoot : Option String) :
    Does (copierProtocol cp sourceId destParent) (τ + rootTokens destRoot)
      (cp.finalize destRoot false) Ends E := by
  have h : Does (copierProtocol cp sourceId destParent) (τ + rootTokens destRoot + 0)
      (cp.finalize destRoot false) Ends E :=
    does_finalize destRoot false fun u => ⟨0, .quiet (.notDone u)⟩
  rwa [add_zero] at h

theorem does_enterRoot (name : String) (destRoot : Option String) :
    Does (copierProtocol cp sourceId destParent)
      {.idle, .folder (cp.rootJob sourceId destParent name) (.placed destRoot)}
      (cp.enterRoot sourceId destRoot) (fun _ g => g = {.idle}) Raises := by
  unfold Copier.enterRoot
  set j := cp.rootJob sourceId destParent name
  change Does _ ({Token.idle} + {Token.folder j (.placed destRoot)}) _ _ _
  refine Does.shiftPart (.placed j destRoot) ?_
  refine Does.part (φ := {.idle, .folder j (.placed destRoot)}) (D := Raises) rfl
    (does_listChildren (w := j.pageRange) sourceId) ?_ fun _ _ h => h.frame _
  rintro out _ rfl
  change Does _ ({Token.idle, Token.folder j (.placed destRoot),
    Token.listed sourceId j.pageRange out} + {Token.reach sourceId}) _ _ _
  refine Does.shiftPart (.forget (.reach sourceId)) ?_
  refine Does.part (φ := {.idle, .folder j (.placed destRoot)}) (D := Raises) rfl
    (does_recordTreeNode (w := j.pageRange) out) ?_ fun _ _ h => h.frame _
  rintro u _ rfl
  have hl : ({ dest := destRoot, children := out, visited := {sourceId}
               parentSourceId := sourceId } : Level) =
      ⟨destRoot, out, insert j.folderId j.visited, j.folderId⟩ := by
    rw [show j.visited = ∅ from rfl, insert_empty_eq]
    rfl
  rw [hl]
  exact Does.enter (.enter j destRoot out) (fun _ _ h => h) fun _ _ h => h

/-- What the traversal leaves next to the permission to use the store. When it saw the
stop flag clear with no task left, nobody owes anything. -/
def Traversed (destRoot : Option String) (r : Except Exc Bool) (g : Multiset Token) : Prop :=
  (∃ junk, g = junk + rootTokens destRoot) ∧
    (r = .ok true → g = {.complete} + rootTokens destRoot) ∧ ∀ e, r = .error e → Raises e g

theorem obeys_traverse (name : String) (destRoot : Option String) (b : Bool) :
    (copierProtocol cp sourceId destParent).Obeys (cp.traverse sourceId destRoot)
      (fun r _ g => Traversed destRoot r g) b
      (rootTokens destRoot +
        {.idle, .folder (cp.rootJob sourceId destParent name) (.placed destRoot)}) := by
  unfold Copier.traverse
  refine Protocol.Obeys.bind ((does_enterRoot name destRoot (rootTokens destRoot) b).mono ?_)
  rintro (e | u) b' g ⟨τ, rfl, h⟩
  · refine Protocol.Leads.intro ⟨⟨τ, add_comm _ _⟩, fun h => (nomatch h), ?_⟩
    rintro _ ⟨⟩
    exact Raises.frame h _
  · obtain rfl : τ = {.idle} := h
    refine Protocol.Leads.intro fun stopped => ?_
    rw [add_comm]
    cases stopped with
    | true =>
      refine .inl ⟨{.idle} + rootTokens destRoot, 0, 0, (add_zero _).symm,
        .quiet (.stopIsSet true), Protocol.Leads.intro ⟨⟨{.idle}, add_zero _⟩, ?_, ?_⟩⟩
      · intro h
        cases h
      · exact fun e h => nomatch h
    | false =>
      exact .inr ⟨rfl, _, .finish destRoot,
        Protocol.Leads.intro ⟨⟨{.complete}, rfl⟩, fun _ => rfl, fun e h => nomatch h⟩⟩

theorem does_closing (destRoot : Option String) : Does (copierProtocol cp sourceId destParent) τ
    (cp.closing destRoot) (fun _ g => g = τ) E := by
  unfold Copier.closing
  refine Does.seq (σ := τ) (Does.drainFutures rfl) ?_
  intro u
  refine Does.seq (σ := τ) ?_ ?_
  · unfold Copier.recordCompletedFolders
    split_ifs
    · exact does_quiet (fun u => .recordCompleted u) fun _ => rfl
    · exact Does.pure rfl
  · intro u
    unfold Copier.saveAfter
    split_ifs
    · exact does_saveLog true τ
    · exact Does.pure rfl

/-- What a run leaves: the token of its result, or that of an item whose properties are refused. -/
def Ended : Except Exc CopyResult → Multiset Token → Prop
  | .ok res, g => Ends res g
  | .error e, g => Refuses e g

theorem Ended.of_ends {τ : Multiset Token} {x : CopierM CopyResult} {b : Bool}
    (h : Does (copierProtocol cp sourceId destParent) τ x Ends Refuses) :
    (copierProtocol cp sourceId destParent).Obeys x (fun r _ g => Ended r g) b τ := by
  have h₀ := h 0 b
  rw [zero_add] at h₀
  refine h₀.mono ?_
  rintro (e | r) b g ⟨τ', rfl, hr⟩
  · rwa [zero_add]
  · rwa [zero_add]

theorem obeys_copyInto (name : String) (account destRoot : Option String) (b : Bool) :
    (copierProtocol cp sourceId destParent).Obeys (cp.copyInto sourceId account destRoot)
      (fun r _ g => Ended r g) b
      {.idle, .folder (cp.rootJob sourceId destParent name) (.placed destRoot)} := by
  unfold Copier.copyInto
  set j := cp.rootJob sourceId destParent name with hj
  refine Protocol.Leads.intro fun u => .inl ⟨{.idle}, {.folder j (.placed destRoot)},
    {.folder j (.placed destRoot)} + rootTokens destRoot, rfl, .run (.destRoot name destRoot u), ?_⟩
  have hload : Does (copierProtocol cp sourceId destParent) (rootTokens destRoot)
      (attempt (cp.resume destRoot account))
      (fun r g => Answered (LoadExc · g) (fun _ => g = rootTokens destRoot) r) fun _ _ => False :=
    Does.attempt (does_resume destRoot account)
  rw [show ({.idle} + ({.folder j (.placed destRoot)} + rootTokens destRoot) : Multiset Token) =
    {.idle, .folder j (.placed destRoot)} + rootTokens destRoot from (add_assoc _ _ _).symm]
  refine Protocol.Obeys.bind (Protocol.Leads.intro ?_)
  refine Protocol.Obeys.bind ((hload {.idle, .folder j (.placed destRoot)} b).mono ?_)
  rintro r b' g ⟨τ, rfl, hr⟩
  rcases r with e | e | u
  · exact hr.elim
  · obtain ⟨message, rfl⟩ := hr
    exact Ended.of_ends ((does_stopWith message).mono (fun _ _ h => ⟨_, h⟩) fun _ _ h => h)
  · obtain rfl : τ = rootTokens destRoot := hr
    rw [add_comm]
    refine Protocol.Obeys.bind (Protocol.Obeys.bind
      ((obeys_traverse name destRoot b').mono ?_))
    rintro r b'' g hg
    refine Protocol.Leads.intro ?_
    have hclose : Does (copierProtocol cp sourceId destParent) g (cp.closing destRoot)
        (fun _ g' => g' = g) Refuses := does_closing destRoot
    refine Ended.of_ends (Does.seq hclose ?_)
    intro u
    obtain ⟨⟨junk, rfl⟩, hdone, hraised⟩ := hg
    rcases r with e | completed
    · have he := hraised e rfl
      cases e with
      | quotaStopped reason => exact does_finalize_false destRoot
      | runtimeError message => exact Does.throw (he.refuses (by simp))
      | valueError message => exact Does.throw (he.refuses (by simp))
      | client error => exact Does.throw (he.refuses (by simp))
    · cases completed with
      | false => exact does_finalize_false destRoot
      | true =>
        rw [hdone rfl, add_comm]
        have h : Does (copierProtocol cp sourceId destParent)
            (0 + rootTokens destRoot + {.complete}) (cp.finalize destRoot true) Ends Refuses := does_finalize destRoot true fun u => ⟨0, .run (.completed u)⟩
        rwa [zero_add] at h

theorem obeys_copyTree (account : Option String) (b : Bool) :
    (copierProtocol cp sourceId destParent).Obeys (cp.copyTree sourceId destParent account)
      (fun r _ g => Ended r g) b {.idle, .begin} := by
  unfold Copier.copyTree
  refine Protocol.Leads.intro ?_
  rintro (e | source)
  · refine .inl ⟨{.idle, .begin}, 0, 0, (add_zero _).symm, .quiet (.getMetadata _ _ (by decide) _), ?_⟩
    exact Ended.of_ends ((does_stopWith _).mono (fun _ _ h => ⟨_, h⟩) fun _ _ h => h)
  · refine .inl ⟨{.idle}, {.begin}, _, rfl, .run (.begin source), ?_⟩
    set j := cp.rootJob sourceId destParent source.name with hj
    have hroot : Does (copierProtocol cp sourceId destParent) {.idle, .folder j .start}
        (attempt (cp.getOrCreateFolder j.dest j.name j.folderId j.shortcutId))
        (fun r g => Answered (Denied j · g)
          (fun dest => g = {.idle, .folder j (.placed dest)}) r) fun _ _ => False :=
      Does.attempt does_getOrCreateFolder
    have hroot' := hroot 0 b
    rw [zero_add] at hroot'
    refine Protocol.Obeys.bind (Protocol.Leads.intro ?_)
    refine Protocol.Obeys.bind (hroot'.mono ?_)
    rintro r b' g ⟨τ, rfl, hr⟩
    rw [zero_add]
    rcases r with e | e | dest
    · exact hr.elim
    · cases e with
      | quotaStopped reason =>
        have h : Does (copierProtocol cp sourceId destParent) (τ + rootTokens none)
          (cp.finalize none false) Ends Refuses := does_finalize_false none
        rw [show rootTokens none = 0 from rfl, add_zero] at h
        exact Ended.of_ends h
      | runtimeError message =>
        exact Ended.of_ends ((does_stopWith _).mono (fun _ _ h => ⟨_, h⟩) fun _ _ h => h)
      | valueError message =>
        exact Protocol.Leads.intro ((hr.raises (by simp)).refuses (by simp))
      | client error =>
        exact Protocol.Leads.intro ((hr.raises (by simp)).refuses (by simp))
    · obtain rfl : τ = {.idle, .folder j (.placed dest)} := hr
      exact obeys_copyInto source.name account dest b'

theorem does_rootAccount : Does (copierProtocol cp sourceId destParent) τ (do
    match ← ask (.getMetadata "root" [.id]) with
    | .error _ => pure none
    | .ok data => pure (some s!"root-{data.id}")) (fun _ g => g = τ) E := by
  refine Does.seq (σ := τ) (asks_quiet (fun r => .getMetadata _ _ (by decide) r) fun _ => rfl) ?_
  rintro (e | data)
  · exact Does.pure rfl
  · exact Does.pure rfl

theorem does_accountId : Does (copierProtocol cp sourceId destParent) τ Copier.accountId
    (fun _ g => g = τ) E := by
  unfold Copier.accountId
  refine Does.seq (σ := τ) (asks_quiet (fun r => .aboutUser r) fun _ => rfl) ?_
  rintro (e | email)
  · exact does_rootAccount
  · dsimp only
    split
    · exact Does.pure rfl
    · exact does_rootAccount

theorem does_climb (ancestorId : String) (maxNodes : ℕ) (s : List String × List String) :
    Does (copierProtocol cp sourceId destParent) τ (Copier.climb ancestorId maxNodes s)
      (fun _ g => g = τ) E := by
  obtain ⟨_ | ⟨cur, stack⟩, seen⟩ := s
  · exact Does.pure rfl
  · unfold Copier.climb
    dsimp only
    split_ifs
    · exact Does.pure rfl
    · exact Does.pure rfl
    · exact Does.pure rfl
    · refine Does.seq (σ := τ) (asks_quiet (fun r => .getMetadata _ _ (by decide) r) fun _ => rfl) ?_
      rintro (e | data)
      · exact Does.pure rfl
      · exact Does.pure rfl

theorem does_isDescendantOf (candidateId ancestorId : String) :
    Does (copierProtocol cp sourceId destParent) τ (Copier.isDescendantOf candidateId ancestorId)
      (fun _ g => g = τ) E := by
  unfold Copier.isDescendantOf
  split_ifs
  · exact Does.pure rfl
  · refine Does.iterate (fun _ g => g = τ) rfl ?_
    rintro s _ rfl
    refine (does_climb ancestorId 200 s).mono ?_ fun _ _ h => h
    rintro (s | b) _ rfl
    · rfl
    · rfl

theorem does_preflight (dest : String) : Does (copierProtocol cp sourceId destParent) τ
    (Copier.preflight dest) (fun _ g => g = τ) E := by
  unfold Copier.preflight
  refine Does.seq (σ := τ) (asks_quiet (fun r => .getMetadata _ _ (by decide) r) fun _ => rfl) ?_
  rintro (e | data)
  · exact Does.pure rfl
  · dsimp only
    split_ifs
    · exact Does.pure rfl
    · exact Does.pure rfl
    · exact Does.pure rfl

/-- A procedure that leaves its tokens may precede one that pays its way to the end. -/
theorem Ended.after {x : CopierM α} {f : α → CopierM CopyResult} {b : Bool}
    (hx : Does (copierProtocol cp sourceId destParent) τ x (fun _ g => g = τ) Refuses)
    (hf : ∀ a b, (copierProtocol cp sourceId destParent).Obeys (f a) (fun r _ g => Ended r g) b τ) :
    (copierProtocol cp sourceId destParent).Obeys (x >>= f : CopierM CopyResult)
      (fun r _ g => Ended r g) b τ := by
  have h := hx 0 b
  rw [zero_add] at h
  refine Protocol.Obeys.bind (h.mono ?_)
  rintro (e | a) b g ⟨τ', rfl, h⟩
  · rw [zero_add]
    exact Protocol.Leads.intro h
  · obtain rfl : τ' = τ := h
    rw [zero_add]
    exact hf a b

theorem obeys_stopWith (reason : String) (b : Bool) :
    (copierProtocol cp sourceId destParent).Obeys (Copier.stopWith reason)
      (fun r _ g => Ended r g) b {.idle, .begin} :=
  Ended.of_ends ((does_stopWith reason).mono (fun _ _ h => ⟨_, h⟩) fun _ _ h => h)

/-- The rest of the run after the check of the destination. -/
theorem obeys_afterCheck (account : Option String) (inside : Bool) (b : Bool) :
    (copierProtocol cp sourceId destParent).Obeys
      (if inside then Copier.stopWith Copier.unsafeDestination
      else do
        match ← Copier.preflight destParent with
        | some error => Copier.stopWith error
        | none => cp.copyTree sourceId destParent account : CopierM CopyResult)
      (fun r _ g => Ended r g) b {.idle, .begin} := by
  split_ifs
  · exact obeys_stopWith _ b
  · refine Ended.after (does_preflight _) ?_
    rintro (_ | error) b
    · exact obeys_copyTree account b
    · exact obeys_stopWith error b

theorem obeys_runOn (b : Bool) :
    (copierProtocol cp sourceId destParent).Obeys (cp.runOn sourceId destParent)
      (fun r _ g => Ended r g) b {.idle, .begin} := by
  unfold Copier.runOn
  refine Ended.after does_accountId ?_
  intro account b
  refine Ended.after (does_quiet (fun u => .beginRun _ _ u) fun _ => rfl) ?_
  intro u b
  dsimp only
  split_ifs
  · exact Ended.after (Does.pure rfl) (obeys_afterCheck account)
  · exact Ended.after (does_isDescendantOf _ _) (obeys_afterCheck account)

end Run

/-! ## The whole run -/

theorem Copier.obeys_run (cp : Copier) (b : Bool) :
    cp.protocol.Obeys cp.run (fun r _ g => Ended r g) b {.idle, .begin} := by
  unfold Copier.protocol Copier.run
  split
  · split
    · rename_i source dest hs hd
      have hs' : cp.sourceId = source := by rw [Copier.sourceId, hs, Option.getD_some]
      have hd' : cp.destParent = dest := by rw [Copier.destParent, hd, Option.getD_some]
      rw [← hs', ← hd']
      exact obeys_runOn b
    · exact Ended.of_ends (does_result.mono (fun _ _ h => ⟨_, h⟩) fun _ _ h => h)
  · exact Ended.of_ends ((does_stopWith _).mono (fun _ _ h => ⟨_, h⟩) fun _ _ h => h)

section Kept

-- The type of `obeys_run` must not be unfolded along the text of `run`.
attribute [local irreducible] Protocol.Obeys

/-- What every move of the ledger keeps holds in every configuration of a run. A run that has
ended holds the token of its result, or that of the item refused when it raised. -/
theorem Copier.run_kept (cp : Copier) {Y : System copierSig} (hY : Y.body = cp.processLevel)
    {I : Protocol.Ledger Token Y → Prop} (hI : Protocol.Kept cp.protocol I) {s : Y.State}
    {past : List (Event copierSig)} (hi : I ⟨⟨s, past⟩, {.idle, .begin}⟩)
    {c : Config Y (Except Exc CopyResult)} (h : Reach Y (start Y cp.run s past) c) :
    (∃ G, I ⟨c.world, G⟩) ∧ ∀ r, c.main = .pure r → ∃ G, I ⟨c.world, G⟩ ∧ match r with
      | .ok res => .returned res ∈ G
      | .error e => Refuses e G := by
  have hv : cp.protocol.Verified Y.body := by
    rw [hY]
    exact copier_verified cp cp.sourceId cp.destParent
  obtain ⟨hreach, hret⟩ := Protocol.sound hv hI hi (cp.obeys_run true) h
  refine ⟨hreach, fun r hr => ?_⟩
  obtain ⟨b, F, G, hG, hend⟩ := hret _ hr
  refine ⟨F + G, hG, ?_⟩
  cases r with
  | ok res =>
    obtain ⟨junk, rfl⟩ := hend
    simp
  | error e => exact Refuses.frame hend F

end Kept

end TurboCopy
