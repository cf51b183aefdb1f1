import TurboCopy.Attempts
import TurboCopy.Copier.Indexes
import TurboCopy.Copier.Replay

/-!
# Lost responses

A server that may apply a `files.copy` and lose the response. The client takes the error for
a failure and attempts the copy again, and nothing in the request tells the server that it has
made this copy before. Over such a server a run makes as many copies of an item as it comes
upon the item, as long as no call is applied twice.
-/

namespace TurboCopy

open Threads

/-! ## The server -/

/-- A copy that the server has made: its source, the body of the request and its id. -/
structure MadeCopy where
  source : String
  body : CopyBody
  id : String

/-- A Drive with the copies it has made. -/
structure CopyingDrive where
  drive : Drive
  made : List MadeCopy := []

section Lossy

variable (pf : Profile) (client : DriveClient) (id : String) (body : CopyBody) (vis rev : Bool)

/-- An attempt of `files.copy` is answered, or it is applied and the response is lost, or it
fails. -/
inductive Attempted (l : CopyingDrive) : Except HttpError (Option String) → CopyingDrive → Prop
  | answered {new : String} {d : Drive}
      (h : Drive.Grants pf (.copyFile id body vis rev) l.drive (.ok (some new)) d) :
      Attempted l (.ok (some new)) ⟨d, ⟨id, body, new⟩ :: l.made⟩
  | lost {new : String} {d : Drive}
      (h : Drive.Grants pf (.copyFile id body vis rev) l.drive (.ok (some new)) d)
      (e : HttpError) (he : classifyError e.toApiError = .transient) :
      Attempted l (.error e) ⟨d, ⟨id, body, new⟩ :: l.made⟩
  | failed (e : HttpError) : Attempted l (.error e) l

/-- A call of `copy_file`: the attempts that the client makes, one after the other. -/
inductive CopyCall (l : CopyingDrive) : Except ApiError (Option String) → CopyingDrive → Prop
  | run (env : Surroundings) (func : ℕ → Except HttpError (Option String))
      (states : ℕ → CopyingDrive) (n : ℕ) (first : states 0 = l)
      (number : (client.exec .copy env func).1.filterMap ClientStep.attempt? = List.range' 1 n)
      (chain : ∀ k < n, Attempted pf id body vis rev (states k) (func (k + 1)) (states (k + 1))) :
      CopyCall l ((client.exec .copy env func).2.mapError RetryError.toApiError) (states n)

/-- The server behind its client. -/
def lossyService : Service where
  State := CopyingDrive
  serves
    | .copyFile id body vis rev, l, x, l' => CopyCall pf client id body vis rev l x l'
    | q, l, x, l' => Drive.Serves pf q l.drive x l'.drive ∧ l'.made = l.made

end Lossy

/-- The folder a copy is asked for, and the item of the source it is a copy of. -/
def copyPlace (id : String) (body : CopyBody) : Option String × String :=
  (body.parent, orElse (AList.lookup "source_shortcut_id" body.appProperties) id)

def MadeCopy.place (m : MadeCopy) : Option String × String := copyPlace m.source m.body

def FileJob.place (j : FileJob) : Option String × String := (j.dest, j.eff)

theorem copyPlace_copyBody (cp : Copier) (j : FileJob) :
    copyPlace j.src.id (cp.copyBody j.dest j.src j.shortcutId) = j.place := by
  unfold copyPlace Copier.copyBody FileJob.place FileJob.eff
  dsimp only
  rw [lookup_copyProps_shortcut]
  cases h : truthy j.shortcutId with
  | none => simp [orElse, h]
  | some s => simp [orElse, h, truthy_some (truthy_eq_some.mp h).2]

/-- The copies for a place that were made, trashed or not. -/
def CopyingDrive.copies (l : CopyingDrive) (p : Option String × String) : ℕ :=
  (l.made.map MadeCopy.place).count p

/-- The copies for a place that are live in its folder. -/
def CopyingDrive.liveCopies (l : CopyingDrive) (p : Option String × String) : ℕ :=
  (l.made.filter fun m => decide (m.place = p) &&
    (l.drive.find m.id).any fun n => p.1.any n.liveIn).length

theorem CopyingDrive.liveCopies_le (l : CopyingDrive) (p : Option String × String) :
    l.liveCopies p ≤ l.copies p := by
  unfold liveCopies copies
  rw [List.count, List.countP_map, ← List.countP_eq_length_filter]
  apply List.countP_mono_left
  intro m _ hm
  rw [Bool.and_eq_true, decide_eq_true_eq] at hm
  simpa using hm.1

section Made

variable {pf : Profile} {client : DriveClient} {id : String} {body : CopyBody} {vis rev : Bool}
  {l l' : CopyingDrive}

/-- The states of a call differ by copies of what the call asks for. -/
theorem CopyCall.made {x : Except ApiError (Option String)}
    (h : CopyCall pf client id body vis rev l x l') :
    ∃ new : List MadeCopy, l'.made = new ++ l.made ∧ ∀ m ∈ new, m.place = copyPlace id body := by
  cases h with
  | run env func states n first number chain =>
    clear number
    induction n with
    | zero => exact ⟨[], by rw [first]; rfl, fun m hm => absurd hm List.not_mem_nil⟩
    | succ n ih =>
      obtain ⟨new, hmade, hplace⟩ := ih fun k hk => chain k (by omega)
      have hone {m : MadeCopy} (hm : m.place = copyPlace id body) :
          ∀ m' ∈ m :: new, m'.place = copyPlace id body :=
        List.forall_mem_cons.mpr ⟨hm, hplace⟩
      have hlast := chain n (Nat.lt_succ_self n)
      generalize func (n + 1) = x, states (n + 1) = l₂ at hlast
      cases hlast with
      | answered h => exact ⟨_, by rw [hmade]; rfl, hone (m := ⟨id, body, _⟩) rfl⟩
      | lost h e he => exact ⟨_, by rw [hmade]; rfl, hone (m := ⟨id, body, _⟩) rfl⟩
      | failed e => exact ⟨new, hmade, hplace⟩

end Made

/-! ## What a run asks for -/

/-- No call is applied twice: the server makes one copy at most before the client stops
attempting. -/
def AppliedOnce (pf : Profile) (client : DriveClient) : StepCondition (lossyService pf client)
  | .ask _, s, _, s' => s'.drive.made.length ≤ s.drive.made.length + 1
  | .mem _, _, _, _ => True

/-- How often a place is among the items of a level. -/
def Level.holds (p : Option String × String) (l : Level) : ℕ :=
  if l.dest = p.1 then (l.children.map DriveFile.id).count p.2 else 0

/-- How often the run came upon the item of a place, for the folder of that place. -/
def timesListed (p : Option String × String) (past : List (Event copierSig)) : ℕ :=
  (past.map fun e => match e with
    | .entered l => l.holds p
    | _ => 0).sum

/-- Every item that was listed has an id. -/
def Named (past : List (Event copierSig)) : Prop :=
  ∀ l, .entered l ∈ past → ∀ x ∈ l.children, x.id ≠ ""

theorem Named.tail {past : List (Event copierSig)} {e : Event copierSig}
    (h : Named (e :: past)) : Named past := fun l hl => h l (List.mem_cons_of_mem _ hl)

/-- The copies for a place that a token may still ask for. -/
def Token.upcoming (p : Option String × String) : Token → ℕ
  | .file j .start | .file j .missing | .file j .reserved => if j.place = p then 1 else 0
  | .shortcut l _ src => if (l.dest, src.id) = p then 1 else 0
  | .level l | .indexing l _ _ | .indexed l _ => l.holds p
  | _ => 0

/-- The copies for a place that an operation asks for. -/
def CopierOp.asksFor (p : Option String × String) : CopierOp → ℕ
  | .ask (.copyFile id body _ _) => if copyPlace id body = p then 1 else 0
  | _ => 0

section Upcoming

variable {pf : Profile} {client : DriveClient} {cp : Copier} {p : Option String × String}
  {o : CopierOp} {x : o.Out} {τ τ' G : Multiset Token} {past : List (Event copierSig)}
  {s s' : Site (lossyService pf client)}

/-- An operation adds the copies it asks for, at most. -/
theorem copies_step (hs : s.Step (AppliedOnce pf client) o x s') :
    s'.drive.copies p ≤ s.drive.copies p + o.asksFor p := by
  have hsame (h : s'.drive.made = s.drive.made) :
      s'.drive.copies p ≤ s.drive.copies p + o.asksFor p := by
    unfold CopyingDrive.copies
    rw [h]
    exact Nat.le_add_right _ _
  cases o with
  | mem o =>
    obtain ⟨-, rfl, -⟩ := hs
    exact hsame rfl
  | ask q =>
    obtain ⟨hserves, -, hone⟩ := hs
    cases q with
    | copyFile id body vis rev =>
      obtain ⟨new, hmade, hplace⟩ := CopyCall.made hserves
      change s'.drive.made.length ≤ s.drive.made.length + 1 at hone
      unfold CopyingDrive.copies CopierOp.asksFor
      rw [hmade, List.length_append] at hone
      rw [hmade, List.map_append, List.count_append]
      match new, hplace with
      | [], _ => simp
      | [m], hplace =>
        rw [List.map_singleton, List.count_singleton, hplace m (List.mem_singleton_self m)]
        simp only [beq_iff_eq]
        omega
      | _ :: _ :: _, _ =>
        rw [List.length_cons, List.length_cons] at hone
        omega
    | _ => exact hsame hserves.2

theorem upcoming_entry (l : Level) (index : ℕ) (src : DriveFile) :
    (Token.entry l index src).upcoming p ≤ if (l.dest, src.id) = p then 1 else 0 := by
  unfold Token.entry
  split_ifs with h₁ h₂ h₃ h₃ <;> simp_all [Token.upcoming, FileJob.place, FileJob.eff]

theorem upcoming_target (l : Level) (index : ℕ) (src target : DriveFile) (h : src.id ≠ "") :
    (Token.target l index src target).upcoming p ≤ (Token.shortcut l index src).upcoming p := by
  unfold Token.target
  split_ifs
  · exact Nat.zero_le _
  · simp [Token.upcoming, FileJob.place, FileJob.eff, orElse_some h]

theorem total_upcoming_entries (l : Level) (index : ℕ) :
    total (Token.upcoming p) (Multiset.map (Token.entry l index) l.children) ≤ l.holds p := by
  obtain ⟨dest, eff⟩ := p
  have hentries (xs : List DriveFile) :
      total (Token.upcoming (dest, eff)) (Multiset.map (Token.entry l index) xs) ≤
        if l.dest = dest then (xs.map DriveFile.id).count eff else 0 := by
    induction xs with
    | nil => exact Nat.zero_le _
    | cons x xs ih =>
      have hx := upcoming_entry (p := (dest, eff)) l index x
      rw [← Multiset.cons_coe, Multiset.map_cons, total_cons, List.map_cons, List.count_cons]
      by_cases hdest : l.dest = dest
      · rw [if_pos hdest] at ih ⊢
        simp only [hdest, Prod.mk.injEq, true_and] at hx
        simp only [beq_iff_eq]
        omega
      · rw [if_neg hdest] at ih ⊢
        simp only [hdest, Prod.mk.injEq, false_and, if_false] at hx
        omega
  exact hentries l.children

theorem FileRule.upcoming (h : FileRule cp o x τ τ') :
    total (Token.upcoming p) τ' + o.asksFor p ≤ total (Token.upcoming p) τ := by
  cases h with
  | copied j vis rev newId => simp [Token.upcoming, CopierOp.asksFor, copyPlace_copyBody]
  | refused j vis rev e => simp [Token.upcoming, CopierOp.asksFor, copyPlace_copyBody]
  | _ => simp [Token.upcoming, CopierOp.asksFor]

theorem FolderRule.upcoming (h : FolderRule cp o x τ τ') :
    total (Token.upcoming p) τ' + o.asksFor p ≤ total (Token.upcoming p) τ := by
  cases h <;> simp [Token.upcoming, CopierOp.asksFor]

theorem StoreRule.upcoming (h : StoreRule cp o x τ τ') :
    total (Token.upcoming p) τ' + o.asksFor p ≤ total (Token.upcoming p) τ := by
  cases h <;> simp [Token.upcoming, CopierOp.asksFor]

theorem RunRule.upcoming {sourceId destParent : String}
    (h : RunRule cp sourceId destParent o x τ τ') :
    total (Token.upcoming p) τ' + o.asksFor p ≤ total (Token.upcoming p) τ := by
  have hr (d : Option String) : total (Token.upcoming p) (rootTokens d) = 0 :=
    total_eq_zero (each_rootTokens fun _ => rfl)
  cases h <;> simp [Token.upcoming, CopierOp.asksFor, hr]

theorem ListRule.upcoming (h : ListRule cp o x τ τ') (hw : Each (Token.Within past) τ)
    (hnamed : Named past) :
    total (Token.upcoming p) τ' + o.asksFor p ≤ total (Token.upcoming p) τ := by
  cases h with
  | multiLast group out tok files =>
    have hzero : total (Token.upcoming p) (listedIn (Copier.addPage group out files) group) = 0 :=
      total_eq_zero (each_map.mpr fun _ _ => rfl)
    rw [hzero]
    simp [Token.upcoming, CopierOp.asksFor]
  | resolved l index src target data ht =>
    obtain ⟨hl, hsrc, -⟩ := each_singleton.mp hw
    rw [total_singleton, total_singleton]
    exact upcoming_target _ _ _ _ (hnamed l hl src hsrc)
  | index l items index =>
    rw [total_singleton]
    exact total_upcoming_entries l index
  | _ => simp [Token.upcoming, CopierOp.asksFor]

theorem CopierShift.upcoming (h : CopierShift cp τ τ') :
    total (Token.upcoming p) τ' ≤ total (Token.upcoming p) τ := by
  cases h with
  | forget h => simp
  | batch group => simp [Token.upcoming]
  | _ => simp [Token.upcoming]

/-- The copies made and those still to come, against what was listed. -/
def Accounted (p : Option String × String) (s : Site (lossyService pf client))
    (past : List (Event copierSig)) (G : Multiset Token) : Prop :=
  Named past → total (Token.upcoming p) G + s.drive.copies p ≤ timesListed p past

theorem Accounted.step (h : Accounted p s past (G + τ))
    (hs : s.Step (AppliedOnce pf client) o x s')
    (hτ : Named past → total (Token.upcoming p) τ' + o.asksFor p ≤ total (Token.upcoming p) τ) :
    Accounted p s' (.did o x :: past) (G + τ') := by
  intro hnamed
  have hbefore := h hnamed.tail
  have hstep := hτ hnamed.tail
  have hcopies := copies_step (p := p) hs
  have hsame : timesListed p (.did o x :: past) = timesListed p past := by
    simp [timesListed]
  rw [total_add] at hbefore ⊢
  omega

theorem asksFor_of_quiet (h : QuietRule o x) : o.asksFor p = 0 := by
  cases h <;> rfl

theorem asksFor_of_stop (h : StopRule o x) : o.asksFor p = 0 := by
  cases h <;> rfl

theorem Accounted.keeps : Keeps cp (AppliedOnce pf client)
    (fun _ past G => Each (Token.Within past) G) (Accounted p) where
  quiet {o x s s' past G} hr hs _ h := by
    rw [← add_zero G] at h ⊢
    exact h.step hs fun _ => by rw [asksFor_of_quiet hr, add_zero]
  stop τ hr hs _ h := h.step hs fun _ => by
    rw [asksFor_of_stop hr]
    exact Nat.zero_le _
  file hr hs _ h := h.step hs fun _ => hr.upcoming
  folder hr hs _ h := h.step hs fun _ => hr.upcoming
  list hr hs hw h := h.step hs fun hnamed => hr.upcoming (each_add.mp hw).2 hnamed
  store hr hs _ h := h.step hs fun _ => hr.upcoming
  run hr hs _ h := h.step hs fun _ => hr.upcoming
  solo {s s' past root} hs _ h := by
    rw [add_comm] at h ⊢
    exact h.step hs fun _ => by simp [Token.upcoming, CopierOp.asksFor]
  call {l s past G τ τ'} hc _ h := by
    intro hnamed
    have hbefore := h hnamed.tail
    have hlisted : timesListed p (.entered l :: past) = l.holds p + timesListed p past := by
      simp [timesListed]
    cases hc with
    | enter j dest out =>
      simp only [total_add, total_cons, total_singleton, Token.upcoming,
        Multiset.insert_eq_cons] at hbefore ⊢
      omega
  shift hc _ h := by
    intro hnamed
    have hbefore := h hnamed
    have hle := hc.upcoming (p := p)
    rw [total_add] at hbefore ⊢
    omega
  env _ _ h := h

/-- In every run in which no call of `files.copy` is applied twice, an item of the source that
is listed once for a folder has at most one live copy there that the run has made. -/
theorem copied_once_each (now : String) (d : Drive)
    {c : Config (cp.runs (lossyService pf client) (AppliedOnce pf client)) (Except Exc CopyResult)}
    (h : Reach (cp.runs (lossyService pf client) (AppliedOnce pf client))
      (start (cp.runs (lossyService pf client) (AppliedOnce pf client)) cp.run
        ⟨cp.freshMem now, ⟨d, []⟩⟩ []) c)
    (hnamed : Named c.world.trace) (dest : Option String) (item : String)
    (honce : timesListed (dest, item) c.world.trace ≤ 1) :
    c.world.state.drive.liveCopies (dest, item) ≤ 1 := by
  have hstart : Accounted (dest, item)
      (⟨cp.freshMem now, ⟨d, []⟩⟩ : Site (lossyService pf client)) [] {.idle, .begin} := by
    intro _
    simp [Token.upcoming, CopyingDrive.copies, timesListed]
  obtain ⟨⟨G, -, hG⟩, -⟩ := (within_keeps.keeps.both Accounted.keeps).throughout
    ⟨by simp [Token.Within], hstart⟩ h
  have hcopies := hG hnamed
  have hlive := c.world.state.drive.liveCopies_le (dest, item)
  omega

end Upcoming

/-! ## A copy whose response is lost -/

def plainClient : DriveClient where
  controller := false
  pacer := false

/-- The server is busy. -/
def busy : HttpError where
  text := "backendError"
  status := some 503

/-- The copy applied, if its objects exist. -/
def applyCopy (id : String) (body : CopyBody) (vis rev : Bool) (l : CopyingDrive) :
    Option (String × CopyingDrive) :=
  match Drive.reply openProfile.hides Drive.exactCopy (.copyFile id body vis rev) l.drive with
  | (.ok (some new), d) => some (new, ⟨d, ⟨id, body, new⟩ :: l.made⟩)
  | _ => none

/-- The answer to a call whose first attempt fails, after it was applied or before. -/
def secondAttempt (loses : Bool) (id : String) (body : CopyBody) (vis rev : Bool)
    (l : CopyingDrive) : Except ApiError (Option String) × CopyingDrive :=
  let l₁ := if loses then (applyCopy id body vis rev l).map Prod.snd else some l
  match l₁.bind (applyCopy id body vis rev) with
  | some (new, l₂) => (.ok (some new), l₂)
  | none => (.error Drive.notFound, l)

section Replay

variable {id : String} {body : CopyBody} {vis rev : Bool} {l l' : CopyingDrive} {new : String}

theorem openProfile_copies (n : Node) (body : CopyBody) (id : String) :
    openProfile.copies n body (Drive.named Drive.exactCopy n body id) n.content := ⟨⟨id, rfl⟩, rfl⟩

theorem applyCopy_grants (h : applyCopy id body vis rev l = some (new, l')) :
    Drive.Grants openProfile (.copyFile id body vis rev) l.drive (.ok (some new)) l'.drive ∧
      l' = ⟨l'.drive, ⟨id, body, new⟩ :: l.made⟩ := by
  have hserves := Drive.reply_serves openProfile_copies (.copyFile id body vis rev) l.drive
  unfold applyCopy at h
  split at h
  · rename_i new' d heq
    obtain ⟨rfl, rfl⟩ := Prod.mk.inj (Option.some.inj h)
    rw [heq] at hserves
    rcases hserves with hg | ⟨e, -, hx⟩
    · exact ⟨hg, rfl⟩
    · exact nomatch hx
  · exact nomatch h

theorem exec_fails (env : Surroundings) (func : ℕ → Except HttpError (Option String))
    (hfirst : func 1 = .error ⟨Drive.notFound, none⟩) :
    (plainClient.exec .copy env func).1.filterMap ClientStep.attempt? = [1] ∧
      (plainClient.exec .copy env func).2 = .error (.client ⟨Drive.notFound, none⟩) := by
  have hcls : classifyError Drive.notFound ≠ .transient := by decide +kernel
  have hmade : Made plainClient.policy env func 1 := by
    refine ⟨le_rfl, fun i hi hlt => absurd hi (not_le.mpr hlt), fun hon => ?_⟩
    obtain ⟨e, he, hpasses⟩ := hon.passes
    obtain rfl := Except.error.inj (hfirst.symm.trans he)
    exact hcls hpasses
  obtain ⟨hattempts, hresult⟩ := exec_made plainClient .copy hmade
  have hround : (retryRound OperationType.copy.value plainClient.policy env func 1).2 =
      some (.error (.client ⟨Drive.notFound, none⟩)) := by
    simp only [retryRound, hfirst, hcls, ne_eq, not_false_eq_true, true_or, if_true]
  exact ⟨hattempts, Option.some.inj (hresult.symm.trans hround)⟩

theorem busy_goesOn {func : ℕ → Except HttpError (Option String)} (hfirst : func 1 = .error busy) :
    GoesOn plainClient.policy calm func 1 where
  passes := ⟨busy, hfirst, by decide +kernel⟩
  allowed := by decide
  fits := by
    rintro ⟨e, he, hover⟩
    obtain rfl := Except.error.inj (hfirst.symm.trans he)
    rcases hover with ⟨n, hn, -⟩ | ⟨-, hlate⟩
    · exact nomatch hn
    · omega
  sleeps := by
    rintro ⟨e, r, d, -, -, hnot⟩
    exact nomatch hnot

theorem exec_again (func : ℕ → Except HttpError (Option String)) {x : Option String}
    (hfirst : func 1 = .error busy) (hsecond : func 2 = .ok x) :
    (plainClient.exec .copy calm func).1.filterMap ClientStep.attempt? = [1, 2] ∧
      (plainClient.exec .copy calm func).2 = .ok x := by
  have hmade : Made plainClient.policy calm func 2 := by
    refine ⟨by omega, fun i hi hlt => ?_, fun hon => ?_⟩
    · obtain rfl : i = 1 := by omega
      exact busy_goesOn hfirst
    · obtain ⟨e, he, -⟩ := hon.passes
      exact nomatch hsecond.symm.trans he
  obtain ⟨hattempts, hresult⟩ := exec_made plainClient .copy hmade
  have hround : (retryRound OperationType.copy.value plainClient.policy calm func 2).2 =
      some (.ok x) := by
    simp only [retryRound, hsecond]
  exact ⟨hattempts, Option.some.inj (hresult.symm.trans hround)⟩

/-- What the plan answers is an answer of the server. -/
theorem secondAttempt_call (loses : Bool) : CopyCall openProfile plainClient id body vis rev l
    (secondAttempt loses id body vis rev l).1 (secondAttempt loses id body vis rev l).2 := by
  unfold secondAttempt
  dsimp only
  split
  · rename_i new l₂ heq
    obtain ⟨l₁, hl₁, happly⟩ := Option.bind_eq_some_iff.mp heq
    obtain ⟨hsecond, hl₂⟩ := applyCopy_grants happly
    let func : ℕ → Except HttpError (Option String) := fun n =>
      if n = 1 then .error busy else .ok (some new)
    let states : ℕ → CopyingDrive := fun n => if n = 0 then l else if n = 1 then l₁ else l₂
    obtain ⟨hattempts, hresult⟩ := exec_again func (x := some new) rfl rfl
    have hcall (chain : ∀ k < 2, Attempted openProfile id body vis rev (states k) (func (k + 1))
        (states (k + 1))) := CopyCall.run (l := l) calm func states 2 rfl hattempts chain
    rw [hresult] at hcall
    refine hcall fun k hk => ?_
    obtain rfl | rfl : k = 0 ∨ k = 1 := by omega
    · cases loses with
      | false =>
        obtain rfl := Option.some.inj hl₁
        exact .failed busy
      | true =>
        obtain ⟨⟨new', l'⟩, hfirst, rfl⟩ := Option.map_eq_some_iff.mp hl₁
        obtain ⟨hgrants, hl'⟩ := applyCopy_grants hfirst
        change Attempted _ _ _ _ _ l _ l'
        rw [hl']
        exact .lost hgrants busy (by decide +kernel)
    · change Attempted _ _ _ _ _ l₁ _ l₂
      rw [hl₂]
      exact .answered hsecond
  · let func : ℕ → Except HttpError (Option String) := fun _ => .error ⟨Drive.notFound, none⟩
    obtain ⟨hattempts, hresult⟩ := exec_fails calm func rfl
    have hcall (chain : ∀ k < 1, Attempted openProfile id body vis rev l (func (k + 1)) l) :=
      CopyCall.run (l := l) calm func (fun _ => l) 1 rfl hattempts chain
    rw [hresult] at hcall
    exact hcall fun k _ => .failed _

/-- A run in which the first attempt of each copy fails. -/
def busyScript (cp : Copier) (loses : Bool)
    (ok : StepCondition (lossyService openProfile plainClient))
    (check : (o : CopierOp) → Site (lossyService openProfile plainClient) → o.Out →
      Site (lossyService openProfile plainClient) → Bool) :
    Script (cp.runs (lossyService openProfile plainClient) ok) where
  outcome _ o s := match o with
    | .mem o => ((s.mem.exec o).1, ⟨(s.mem.exec o).2, s.drive⟩)
    | .ask (.copyFile id body vis rev) =>
      let r := secondAttempt loses id body vis rev s.drive
      (r.1, ⟨s.mem, r.2⟩)
    | .ask q =>
      let r := Drive.reply openProfile.hides Drive.exactCopy q s.drive.drive
      (r.1, ⟨s.mem, ⟨r.2, s.drive.made⟩⟩)
  check := check
  poke _ _ := none

theorem busyScript_legal {cp : Copier} {loses : Bool}
    {ok : StepCondition (lossyService openProfile plainClient)}
    {check : (o : CopierOp) → Site (lossyService openProfile plainClient) → o.Out →
      Site (lossyService openProfile plainClient) → Bool}
    (hcheck : ∀ o s x s', check o s x s' = true → ok o s x s') :
    (busyScript cp loses ok check).Legal where
  outcome k o s hc := by
    refine ⟨?_, hcheck _ _ _ _ hc⟩
    cases o with
    | mem o => exact ⟨rfl, rfl⟩
    | ask q =>
      cases q with
      | copyFile id body vis rev => exact ⟨secondAttempt_call loses, rfl⟩
      | _ => exact ⟨⟨Drive.reply_serves openProfile_copies _ _, rfl⟩, rfl⟩
  poke _ _ _ h := nomatch h

end Replay

/-- A folder with one file, and its copy of the folder. -/
def lonelyDrive : Drive where
  nodes := [folderNode "sourcefolder" "Source" [], folderNode "targetfolder" "Target" [],
    (folderNode "root" "Source" ["targetfolder"]).tagged [("source_folder_id", "sourcefolder")],
    fileNode "file" "a" ["sourcefolder"] "1" "m"]
  nodup := by decide

/-- The items of the levels that were entered have ids. -/
def namedLevel : Event copierSig → Bool
  | .entered l => l.children.all fun x => x.id ≠ ""
  | _ => true

theorem named_of_all {past : List (Event copierSig)} (h : past.all namedLevel = true) :
    Named past := by
  intro l hl x hx
  have hlevel : (l.children.all fun x => decide (x.id ≠ "")) = true := List.all_eq_true.mp h _ hl
  simpa using List.all_eq_true.mp hlevel x hx

abbrev busyStart (ok : StepCondition (lossyService openProfile plainClient)) :
    Config (smallCopier.runs (lossyService openProfile plainClient) ok) (Except Exc CopyResult) :=
  start (smallCopier.runs (lossyService openProfile plainClient) ok) smallCopier.run
    ⟨smallCopier.freshMem "", ⟨lonelyDrive, []⟩⟩ []

/-- The run in which the copy is applied, its response lost, and the copy applied again. -/
def lostRun : Config (smallCopier.runs (lossyService openProfile plainClient) anyStep)
    (Except Exc CopyResult) :=
  replay (busyScript smallCopier true anyStep fun _ _ _ _ => true) 400 (busyStart anyStep)

/-- A run that goes well and leaves two live copies of the only file. -/
theorem lost_response_duplicates :
    ∃ c : Config (smallCopier.runs (lossyService openProfile plainClient) anyStep)
        (Except Exc CopyResult),
      Reach (smallCopier.runs (lossyService openProfile plainClient) anyStep)
        (busyStart anyStep) c ∧
      (∃ r, c.Returned (.ok r) ∧ r.fullyOk = true ∧ r.copiedCount = 1) ∧ Named c.world.trace ∧
      timesListed (some "root", "file") c.world.trace = 1 ∧
      c.world.state.drive.liveCopies (some "root", "file") = 2 := by
  refine ⟨lostRun, ?_, ?_, named_of_all (by decide +kernel), by decide +kernel, by decide +kernel⟩
  · exact replay_reach (busyScript_legal fun _ _ _ _ _ => trivial) 400 _
  · obtain ⟨r, hr, hP⟩ := Config.returned_of_any (c := lostRun)
      (P := fun r => r.fullyOk && r.copiedCount == 1) (by decide +kernel)
    rw [Bool.and_eq_true, beq_iff_eq] at hP
    exact ⟨r, hr, hP.1, hP.2⟩

/-- A step of the server that makes one copy at most. -/
def appliedOnce (o : CopierOp) (s : Site (lossyService openProfile plainClient)) (_ : o.Out)
    (s' : Site (lossyService openProfile plainClient)) : Bool :=
  match o with
  | .ask _ => decide (s'.drive.made.length ≤ s.drive.made.length + 1)
  | .mem _ => true

/-- The run in which the first attempt fails before it is applied. -/
def refusedRun : Config (smallCopier.runs (lossyService openProfile plainClient)
    (AppliedOnce openProfile plainClient)) (Except Exc CopyResult) :=
  replay (busyScript smallCopier false _ appliedOnce) 400 (busyStart _)

theorem copied_once_each_refused :
    refusedRun.world.state.drive.copies (some "root", "file") = 1 ∧
      refusedRun.world.state.drive.liveCopies (some "root", "file") ≤ 1 := by
  refine ⟨by decide +kernel, ?_⟩
  refine copied_once_each "" lonelyDrive ?_ (named_of_all (by decide +kernel)) (some "root") "file"
    (by decide +kernel)
  refine replay_reach (busyScript_legal fun o s x s' h => ?_) 400 _
  cases o with
  | mem o => trivial
  | ask q =>
    have hone : s'.drive.made.length ≤ s.drive.made.length + 1 := of_decide_eq_true h
    exact hone

end TurboCopy
