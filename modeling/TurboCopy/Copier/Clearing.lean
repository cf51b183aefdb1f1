import TurboCopy.Copier.Durability
import TurboCopy.Copier.Outcomes

/-!
# Prior failures are cleared by successes

A file that is copied or matched strikes out the prior failures known under its effective id
or its own id, and nothing else does. A file whose success is still to be reported holds a token,
so in a run that completed without failures every success has been reported.
-/

namespace TurboCopy

open Threads

/-! ## Two phases -/

/-- `B` holds unless a stop is on its way, and once the traversal is complete in any case. -/
def Phased {V : Service} (B : Invariant V) : Invariant V := fun s past G =>
  AllEarly G ∧ s.mem.result.completed = false ∧ (s.mem.stop = true ∨ B s past G) ∨
    AllClosed G ∧ B s past G

section Phased

variable {V : Service} {ok : StepCondition V} {cp : Copier} {J B : Invariant V}
  {past : List (Event copierSig)} {G τ τ' : Multiset Token} {o : CopierOp} {x : o.Out}
  {s s' : Site V}

/-- What keeps `B`, where a stop costs only tokens of the second phase. -/
structure KeepsPhased (cp : Copier) (ok : StepCondition V) (J B : Invariant V) : Prop where
  quiet : ∀ {o x s s' past G}, QuietRule o x → s.Step ok o x s' → J s past G → B s past G →
    B s' (.did o x :: past) G
  stop : ∀ {o x s s' past G τ}, StopRule o x → s.Step ok o x s' → J s past (G + τ) →
    AllClosed τ → B s past (G + τ) → B s' (.did o x :: past) (G + {.stopped})
  file : ∀ {o x s s' past G τ τ'}, FileRule cp o x τ τ' → s.Step ok o x s' → J s past (G + τ) →
    B s past (G + τ) → B s' (.did o x :: past) (G + τ')
  folder : ∀ {o x s s' past G τ τ'}, FolderRule cp o x τ τ' → s.Step ok o x s' →
    J s past (G + τ) → B s past (G + τ) → B s' (.did o x :: past) (G + τ')
  list : ∀ {o x s s' past G τ τ'}, ListRule cp o x τ τ' → s.Step ok o x s' → J s past (G + τ) →
    B s past (G + τ) → B s' (.did o x :: past) (G + τ')
  store : ∀ {o x s s' past G τ τ'}, StoreRule cp o x τ τ' → s.Step ok o x s' →
    J s past (G + τ) → B s past (G + τ) → B s' (.did o x :: past) (G + τ')
  run : ∀ {o x s s' past G τ τ'}, RunRule cp cp.sourceId cp.destParent o x τ τ' →
    s.Step ok o x s' → J s past (G + τ) → B s past (G + τ) → B s' (.did o x :: past) (G + τ')
  solo : ∀ {s s' past root}, s.Step ok (.mem .stopIsSet) false s' →
    B s past ({.idle} + rootTokens root) →
    B s' (.did (.mem .stopIsSet) false :: past) ({.complete} + rootTokens root)
  call : ∀ {l s past G τ τ'}, CallRule l τ τ' → B s past (G + τ) →
    B s (.entered l :: past) (G + τ')
  shift : ∀ {s past G τ τ'}, CopierShift cp τ τ' → B s past (G + τ) → B s past (G + τ')
  env : ∀ {m d past G} (reason : Option String), B ⟨m, d⟩ past G →
    B ⟨m.requestStop reason, d⟩ past G

/-- A step of the first phase. -/
theorem Phased.work (hs : s.Step ok o x s')
    (h : AllEarly (G + τ) ∧ s.mem.result.completed = false ∧
      (s.mem.stop = true ∨ B s past (G + τ)))
    (hτ : AllEarly τ') (hc : s'.mem.result.completed = false)
    (hB : B s past (G + τ) → s'.mem.stop = true ∨ B s' (.did o x :: past) (G + τ')) :
    Phased B s' (.did o x :: past) (G + τ') := by
  obtain ⟨he, -, hstop | h⟩ := h
  · exact .inl ⟨each_add.mpr ⟨(each_add.mp he).1, hτ⟩, hc, .inl (hs.stop_mono hstop)⟩
  · exact .inl ⟨each_add.mpr ⟨(each_add.mp he).1, hτ⟩, hc, hB h⟩

theorem KeepsPhased.run_keeps (hB : KeepsPhased cp ok J B)
    (hr : RunRule cp cp.sourceId cp.destParent o x τ τ') (hs : s.Step ok o x s')
    (hj : J s past (G + τ)) (h : Phased B s past (G + τ)) :
    Phased B s' (.did o x :: past) (G + τ') := by
  rcases h with h | ⟨hc, h⟩
  · apply Phased.work hs h _ _ fun h => .inr (hB.run hr hs hj h)
    · cases hr with
      | destRoot name d u =>
        exact each_add.mpr ⟨each_singleton.mpr rfl, each_rootTokens fun _ => rfl⟩
      | returned =>
        refine each_singleton.mpr ?_
        rw [hs.1]
        simp [Token.early, Mem.exec, h.2.1]
      | _ => simp [Token.early]
    · refine hs.completed (fun ho => ?_) h.2.1
      cases hr with
      | completed u => exact absurd (h.1 .complete (by simp)) (by simp [Token.early])
      | _ => cases ho
  · have hτ := (each_add.mp hc).2
    refine .inr ⟨each_add.mpr ⟨(each_add.mp hc).1, ?_⟩, hB.run hr hs hj h⟩
    cases hr <;> simp_all [Token.closed]

theorem KeepsPhased.keeps (hB : KeepsPhased cp ok J B) : Keeps cp ok J (Phased B) where
  quiet {o x s s' past G} hr hs hj h := by
    rcases h with h | ⟨hc, h⟩
    · rw [← add_zero G] at h hj ⊢
      refine Phased.work hs h each_zero (hs.completed (by cases hr <;> simp) h.2.1) fun h => .inr ?_
      rw [add_zero] at h hj ⊢
      exact hB.quiet hr hs hj h
    · exact .inr ⟨hc, hB.quiet hr hs hj h⟩
  stop τ hr hs hj h := by
    rcases h with h | ⟨hc, h⟩
    · exact Phased.work hs h (by simp [Token.early])
        (hs.completed (by cases hr <;> simp) h.2.1) fun _ => .inl (hr.sets hs)
    · obtain ⟨hG, hτ⟩ := each_add.mp hc
      exact .inr ⟨each_add.mpr ⟨hG, each_singleton.mpr rfl⟩, hB.stop hr hs hj hτ h⟩
  file hr hs hj h := by
    rcases h with h | ⟨hc, -⟩
    · exact Phased.work hs h (.of_ongoing hr.ongoing)
        (hs.completed (by cases hr <;> simp) h.2.1) fun h => .inr (hB.file hr hs hj h)
    · exact absurd (each_add.mp hc).2 hr.not_closed
  folder hr hs hj h := by
    rcases h with h | ⟨hc, -⟩
    · exact Phased.work hs h (.of_ongoing hr.ongoing)
        (hs.completed (by cases hr <;> simp) h.2.1) fun h => .inr (hB.folder hr hs hj h)
    · exact absurd (each_add.mp hc).2 hr.not_closed
  list hr hs hj h := by
    rcases h with h | ⟨hc, h⟩
    · exact Phased.work hs h (.of_ongoing hr.ongoing)
        (hs.completed (by cases hr <;> simp) h.2.1) fun h => .inr (hB.list hr hs hj h)
    · obtain ⟨hG, hτ⟩ := each_add.mp hc
      exact .inr ⟨each_add.mpr ⟨hG, (hr.closed hs hτ).2⟩, hB.list hr hs hj h⟩
  store hr hs hj h := by
    rcases h with h | ⟨hc, h⟩
    · exact Phased.work hs h (.of_ongoing hr.ongoing)
        (hs.completed (by cases hr <;> simp) h.2.1) fun h => .inr (hB.store hr hs hj h)
    · exact .inr ⟨each_add.mpr ⟨(each_add.mp hc).1, hr.closed⟩, hB.store hr hs hj h⟩
  run hr hs hj h := hB.run_keeps hr hs hj h
  solo {s s' past root} hs _ h := by
    rcases h with ⟨-, -, h⟩ | ⟨hc, -⟩
    · have h := h.resolve_left (by rw [hs.clear.1]; simp)
      refine .inr ⟨?_, hB.solo hs h⟩
      exact each_add.mpr ⟨each_singleton.mpr rfl, each_rootTokens fun _ => rfl⟩
    · exact absurd (hc .idle (by simp)) (by simp [Token.closed])
  call hc _ h := by
    rcases h with ⟨he, hcomp, h⟩ | ⟨hcl, -⟩
    · exact .inl ⟨each_add.mpr ⟨(each_add.mp he).1, AllEarly.of_ongoing hc.ongoing⟩, hcomp,
        h.imp_right (hB.call hc)⟩
    · exact absurd (each_add.mp hcl).2 hc.not_closed
  shift hc _ h := by
    rcases h with ⟨he, hcomp, h⟩ | ⟨hcl, h⟩
    · obtain ⟨hG, hτ⟩ := each_add.mp he
      exact .inl ⟨each_add.mpr ⟨hG, hc.early hτ⟩, hcomp, h.imp_right (hB.shift hc)⟩
    · obtain ⟨hG, hτ⟩ := each_add.mp hcl
      exact .inr ⟨each_add.mpr ⟨hG, hc.closed hτ⟩, hB.shift hc h⟩
  env reason _ h := by
    rcases h with ⟨he, hcomp, -⟩ | ⟨hcl, h⟩
    · exact .inl ⟨he, hcomp, .inl rfl⟩
    · exact .inr ⟨hcl, hB.env reason h⟩

end Phased

/-! ## Successes that are still to be reported -/

/-- The events since the logs were loaded. -/
def sinceLoad : List (Event copierSig) → List (Event copierSig)
  | [] => []
  | .did (.mem (.mergeResume _)) _ :: _ => []
  | e :: past => e :: sinceLoad past

/-- The ids under which a success strikes out failures. -/
def strikingIds (e : Event copierSig) : List String := (settledIds e).filter fun k => k ≠ ""

def FileJob.ids (j : FileJob) : List String := [j.eff, j.src.id]

/-- The ids of a file that is copied or matched and whose success is to be reported. -/
def Token.settling : Token → Option (List String)
  | .file _ .start | .file _ .missing | .file _ .reserved | .file _ .refused => none
  | .file j _ => some j.ids
  | _ => none

def Reports (G : Multiset Token) (ids : List String) : Prop := ∃ t ∈ G, t.settling = some ids

/-- Unless something failed, the pending failures have been struck out under the ids of every
file copied or matched, or a token stands for its report. -/
def Struck {V : Service} : Invariant V := fun s past G =>
  s.mem.result.failedItems ≠ [] ∨ ∀ e ∈ sinceLoad past,
    (∀ f ∈ pendingFailures past, f.struckBy (strikingIds e) = false) ∨ Reports G (settledIds e)

section Struck

variable {V : Service} {ok : StepCondition V} {cp : Copier} {past : List (Event copierSig)}
  {G τ τ' : Multiset Token} {o : CopierOp} {x : o.Out} {s s' : Site V} {e : Event copierSig}
  {ids : List String} {f : FailedItem}

theorem reports_add : Reports (G + τ) ids ↔ Reports G ids ∨ Reports τ ids := by
  simp only [Reports, Multiset.mem_add, or_and_right, exists_or]

theorem not_reports (h : Each (fun t => t.settling = none) τ) : ¬Reports τ ids := by
  rintro ⟨t, ht, hids⟩
  rw [h t ht] at hids
  exact nomatch hids

theorem mem_sinceLoad_cons {e' : Event copierSig} (h : e' ∈ sinceLoad (e :: past)) :
    (e' = e ∨ e' ∈ sinceLoad past) ∧
      ∀ f ∈ pendingFailures (e :: past), f ∈ pendingFailures past := by
  unfold sinceLoad at h
  split at h
  · rename_i heq
    exact nomatch heq
  · exact nomatch h
  · rename_i e₁ past₁ hnot heq
    obtain ⟨rfl, rfl⟩ := List.cons.inj heq
    refine ⟨List.mem_cons.mp h, fun f hf => ?_⟩
    unfold pendingFailures at hf
    split at hf
    · rename_i heq'
      exact nomatch heq'
    · rename_i loaded u past₂ heq'
      exact absurd (List.cons.inj heq').1 (hnot loaded u)
    · rename_i keys u past₂ heq'
      obtain ⟨-, rfl⟩ := List.cons.inj heq'
      exact List.mem_of_mem_filter hf
    · rename_i heq'
      obtain ⟨rfl, rfl⟩ := List.cons.inj heq'
      exact hf

theorem Mem.exec_failed (m : Mem) (o : MemOp) (h : m.result.failedItems ≠ []) :
    (m.exec o).2.result.failedItems ≠ [] := by
  cases o with
  | trustResume i eff src => simp only [Mem.exec]; split <;> exact h
  | popMatch i src mode allow eff => simp only [Mem.exec]; split <;> exact h
  | reserve max size reason => simp only [Mem.exec]; split_ifs <;> exact h
  | beginSave force => simp only [Mem.exec]; split_ifs <;> exact h
  | recordFailed item => exact List.append_ne_nil_of_left_ne_nil h _
  | _ => exact h

theorem Site.Step.failed (hs : s.Step ok o x s') (h : s.mem.result.failedItems ≠ []) :
    s'.mem.result.failedItems ≠ [] := by
  rw [hs.after]
  cases o with
  | mem o => exact Mem.exec_failed s.mem o h
  | ask q => exact h

/-- An event whose own success a token reports, and which passes on the reports. -/
theorem Struck.cons (h : Struck s past (G + τ))
    (hfailed : s.mem.result.failedItems ≠ [] → s'.mem.result.failedItems ≠ [])
    (hnew : settledIds e = [] ∨ Reports τ' (settledIds e))
    (hold : ∀ ids, Reports τ ids → Reports τ' ids) : Struck s' (e :: past) (G + τ') := by
  refine h.imp hfailed fun h e he => ?_
  obtain ⟨rfl | he, hpending⟩ := mem_sinceLoad_cons he
  · rcases hnew with hnil | hreport
    · left
      intro f _
      rw [strikingIds, hnil]
      exact f.struckBy_nil
    · exact .inr (reports_add.mpr (.inr hreport))
  · refine (h e he).imp (fun hstruck f hf => hstruck f (hpending f hf)) fun hreport => ?_
    exact reports_add.mpr ((reports_add.mp hreport).imp_right (hold _))

theorem Struck.step (h : Struck s past (G + τ)) (hs : s.Step ok o x s')
    (hnew : settledIds (.did o x) = [] ∨ Reports τ' (settledIds (.did o x)))
    (hold : ∀ ids, Reports τ ids → Reports τ' ids) : Struck s' (.did o x :: past) (G + τ') :=
  h.cons hs.failed hnew hold

theorem Struck.idle (h : Struck s past (G + τ)) (hs : s.Step ok o x s')
    (hnew : settledIds (.did o x) = []) (hτ : Each (fun t => t.settling = none) τ) :
    Struck s' (.did o x :: past) (G + τ') :=
  h.step hs (.inl hnew) fun _ hr => absurd hr (not_reports hτ)

theorem eq_of_reports_file {j : FileJob} {st : FileStage} (h : Reports {.file j st} ids) :
    ids = j.ids := by
  obtain ⟨t, ht, hids⟩ := h
  obtain rfl := Multiset.mem_singleton.mp ht
  cases st <;> simp_all [Token.settling]

/-- The next stage of a file that was copied or matched. -/
theorem reports_next {j : FileJob} {st st' : FileStage}
    (hst : (Token.file j st').settling = some j.ids) (ids : List String)
    (h : Reports {.file j st} ids) : Reports {.file j st'} ids := by
  obtain rfl := eq_of_reports_file h
  exact ⟨_, Multiset.mem_singleton_self _, hst⟩

theorem settledIds_copied (cp : Copier) (j : FileJob) (vis rev : Bool) (newId : Option String) :
    settledIds (.did (.ask (.copyFile j.src.id (cp.copyBody j.dest j.src j.shortcutId) vis rev))
      (.ok newId)) = j.ids := by
  have hlookup := lookup_copyProps_shortcut j.src j.shortcutId
  have heff : orElse (truthy j.shortcutId) j.src.id = j.eff := by
    unfold FileJob.eff orElse
    cases h : truthy j.shortcutId with
    | none => rfl
    | some sc => rw [truthy_some (truthy_eq_some.mp h).2]
  simp only [settledIds, Copier.copyBody, hlookup, heff, FileJob.ids]

/-- A file fails. -/
theorem Struck.fails (hs : s.Step ok (.mem (.recordFailed f)) () s') :
    Struck s' (.did (.mem (.recordFailed f)) () :: past) G := by
  obtain ⟨-, rfl, -⟩ := hs
  exact .inl (List.append_ne_nil_of_right_ne_nil _ (List.cons_ne_nil _ _))

/-- The success of a file is reported: it strikes out what it can, or nothing is pending. -/
theorem Struck.report {j : FileJob} (h : Struck s past (G + {.file j .settled}))
    (hs : s.Step ok o x s') (hnone : settledIds (.did o x) = [])
    (hpending : ∀ f ∈ pendingFailures (.did o x :: past),
      f.struckBy (j.ids.filter fun k => k ≠ "") = false) :
    Struck s' (.did o x :: past) G := by
  refine h.imp hs.failed fun h e he => ?_
  obtain ⟨rfl | he, hsub⟩ := mem_sinceLoad_cons he
  · left
    intro f _
    rw [strikingIds, hnone]
    exact f.struckBy_nil
  · rcases h e he with hstruck | hreport
    · exact .inl fun f hf => hstruck f (hsub f hf)
    · refine (reports_add.mp hreport).symm.imp_left fun hfile f hf => ?_
      rw [strikingIds, eq_of_reports_file hfile]
      exact hpending f hf

theorem FileRule.struck (hr : FileRule cp o x τ τ') (hs : s.Step ok o x s')
    (hm : Remembers s past) (h : Struck s past (G + τ)) :
    Struck s' (.did o x :: past) (G + τ') := by
  have hown (t : Token) (ids : List String) (ht : t.settling = some ids) : Reports {t} ids :=
    ⟨t, Multiset.mem_singleton_self t, ht⟩
  cases hr with
  | trusted j item => exact h.step hs (.inr (hown _ _ rfl)) (reports_next rfl)
  | matched j item => exact h.step hs (.inr (hown _ _ rfl)) (reports_next rfl)
  | copied j vis rev newId =>
    refine h.step hs (.inr ?_) (reports_next rfl)
    rw [settledIds_copied]
    exact hown _ _ rfl
  | distrusted j => exact h.idle hs rfl (each_singleton.mpr rfl)
  | missing j => exact h.idle hs rfl (each_singleton.mpr rfl)
  | wouldCopy j u hd => exact h.idle hs rfl (each_singleton.mpr rfl)
  | reserved j reason hd hl => exact h.idle hs rfl (each_singleton.mpr rfl)
  | refused j vis rev e => exact h.idle hs rfl (each_singleton.mpr rfl)
  | returned j u => exact h.idle hs rfl (each_singleton.mpr rfl)
  | existing j item u => exact h.step hs (.inl rfl) (reports_next rfl)
  | verified j id data hid hc => exact h.step hs (.inl rfl) (reports_next rfl)
  | unreadable j id e => exact h.step hs (.inl rfl) (reports_next rfl)
  | rejected j id data detail hc => exact h.step hs (.inl rfl) (reports_next rfl)
  | withdrawn j detail u => exact h.step hs (.inl rfl) (reports_next rfl)
  | marked j id u => exact h.step hs (.inl rfl) (reports_next rfl)
  | needed j => exact h.step hs (.inl rfl) (reports_next rfl)
  | tooLarge j it u hl ha => exact .fails hs
  | failed j it u ha => exact .fails hs
  | invalid j it u ha => exact .fails hs
  | reconciled j u =>
    rw [add_zero]
    refine h.report hs rfl fun f hf => ?_
    have hnot := (List.mem_filter.mp hf).2
    rw [Bool.not_eq_true'] at hnot
    exact hnot
  | unneeded j =>
    rw [add_zero]
    refine h.report hs rfl fun f hf => ?_
    have hnil : s.mem.result.previousFailedItems = [] := by
      have hx : false = !s.mem.result.previousFailedItems.isEmpty := hs.1
      simpa using hx.symm
    have hf' : f ∈ pendingFailures past := hf
    rw [← hm.previous, hnil] at hf'
    exact absurd hf' List.not_mem_nil

theorem CopierShift.reports (hc : CopierShift cp τ τ') (ids : List String) (h : Reports τ ids) :
    Reports τ' ids := by
  cases hc with
  | forget hk => cases hk <;> exact absurd h (not_reports (each_singleton.mpr rfl))
  | anonymous j newId hn => exact reports_next rfl ids h
  | batch group => exact reports_add.mpr (.inl h)
  | _ => exact absurd h (not_reports (by simp [Token.settling]))

theorem Struck.keeps : KeepsPhased (V := V) cp ok
    (fun s past _ => Remembers s past ∧ SavesFailures past) Struck where
  quiet {o x s s' past G} hr hs _ h := by
    rw [← add_zero G] at h ⊢
    exact h.idle hs (by cases hr <;> rfl) each_zero
  stop hr hs _ hc h := by
    refine h.step hs (.inl (by cases hr <;> rfl)) fun ids hrep => absurd hrep (not_reports ?_)
    exact hc.mono fun t ht => by cases t <;> first | rfl | exact nomatch ht
  file hr hs hj h := hr.struck hs hj.1 h
  folder hr hs _ h := h.idle hs (by cases hr <;> rfl) (by cases hr <;> simp [Token.settling])
  list hr hs _ h := h.idle hs (by cases hr <;> rfl) (by cases hr <;> simp [Token.settling])
  store hr hs _ h := h.idle hs (by cases hr <;> rfl) (by cases hr <;> simp [Token.settling])
  run hr hs _ h := h.idle hs (by cases hr <;> rfl) (by cases hr <;> simp [Token.settling])
  solo {s s' past root} hs h := by
    rw [add_comm] at h ⊢
    exact h.idle hs rfl (each_singleton.mpr rfl)
  call hc h := by
    cases hc
    exact h.cons id (.inl rfl) fun ids hr => absurd hr (not_reports (by simp [Token.settling]))
  shift hc h := by
    refine h.imp_right fun h e he => (h e he).imp_right fun hreport => ?_
    exact reports_add.mpr ((reports_add.mp hreport).imp_right (hc.reports _))
  env _ h := h

/-- A file that may still succeed was copied or matched. -/
def Token.Earned (past : List (Event copierSig)) : Token → Prop
  | .file _ .failing => True
  | t => ∀ ids, t.settling = some ids → ∃ e ∈ past, settledIds e = ids

theorem Token.earned_of {t : Token}
    (h : ∀ ids, t.settling = some ids → ∃ e ∈ past, settledIds e = ids) : t.Earned past := by
  unfold Token.Earned
  split
  · trivial
  · exact h

theorem Token.Earned.mono {t : Token} (h : t.Earned past) : t.Earned (e :: past) := by
  unfold Token.Earned at h
  split at h
  · trivial
  · apply Token.earned_of
    intro ids hids
    obtain ⟨e', he, heq⟩ := h ids hids
    exact ⟨e', List.mem_cons_of_mem _ he, heq⟩

theorem each_earned (h : Each (fun t => t.settling = none) τ) : Each (Token.Earned past) τ := by
  intro t ht
  apply Token.earned_of
  intro ids hids
  rw [h t ht] at hids
  exact nomatch hids

theorem earned_new {j : FileJob} {st : FileStage} (h : ∃ e ∈ past, settledIds e = j.ids) :
    Each (Token.Earned past) {.file j st} := by
  refine each_singleton.mpr (Token.earned_of fun ids hids => ?_)
  rw [eq_of_reports_file ⟨_, Multiset.mem_singleton_self _, hids⟩]
  exact h

theorem earned_next {j : FileJob} {st st' : FileStage}
    (h : ∀ ids, (Token.file j st).settling = some ids → ∃ e ∈ past, settledIds e = ids)
    (hst : (Token.file j st).settling = some j.ids) :
    Each (Token.Earned (e :: past)) {.file j st'} := by
  obtain ⟨e', he, heq⟩ := h j.ids hst
  exact earned_new ⟨e', List.mem_cons_of_mem _ he, heq⟩

theorem earned_keeps : KeepsEach (V := V) cp ok Always fun _ past => Token.Earned past where
  stable _ _ h := h.mono
  enters h := h.mono
  requests _ h := h
  stopped := each_singleton.mp (each_earned (each_singleton.mpr rfl))
  complete := each_singleton.mp (each_earned (each_singleton.mpr rfl))
  file hr _ _ h := by
    cases hr with
    | trusted j item => exact earned_new ⟨_, List.mem_cons_self, rfl⟩
    | matched j item => exact earned_new ⟨_, List.mem_cons_self, rfl⟩
    | copied j vis rev newId =>
      exact earned_new ⟨_, List.mem_cons_self, settledIds_copied cp j vis rev newId⟩
    | existing j item u => exact earned_next (each_singleton.mp h) rfl
    | verified j id data hid hc => exact earned_next (each_singleton.mp h) rfl
    | unreadable j id e => exact earned_next (each_singleton.mp h) rfl
    | rejected j id data detail hc => exact earned_next (each_singleton.mp h) rfl
    | marked j id u => exact earned_next (each_singleton.mp h) rfl
    | needed j => exact earned_next (each_singleton.mp h) rfl
    | withdrawn j detail u => exact each_singleton.mpr trivial
    | returned j u => exact each_singleton.mpr trivial
    | _ => exact each_earned (by simp [Token.settling])
  folder hr _ _ _ := each_earned (by cases hr <;> simp [Token.settling])
  list hr _ _ _ := by
    apply each_earned
    cases hr with
    | multiLast group out tok files => exact each_map.mpr fun _ _ => rfl
    | resolved l i src target data ht =>
      refine each_singleton.mpr ?_
      unfold Token.target
      split_ifs <;> rfl
    | index l items i =>
      refine each_map.mpr fun src _ => ?_
      unfold Token.entry
      split_ifs <;> rfl
    | _ => simp [Token.settling]
  store hr _ _ _ := each_earned (by cases hr <;> simp [Token.settling])
  run hr _ _ _ := by
    apply each_earned
    cases hr with
    | destRoot name d u =>
      exact each_add.mpr ⟨each_singleton.mpr rfl, each_rootTokens fun _ => rfl⟩
    | _ => simp [Token.settling]
  call hc _ _ := by
    apply each_earned
    cases hc
    simp [Token.settling]
  shift hc _ h := by
    cases hc with
    | batch group => exact each_add.mpr ⟨h, each_earned (each_singleton.mpr rfl)⟩
    | anonymous j newId hn => exact earned_new (each_singleton.mp h j.ids rfl)
    | _ => exact each_earned (by simp [Token.settling])

/-- A prior failure that is no longer pending was struck out under the ids of a success. -/
def StruckOut (past : List (Event copierSig)) : Prop :=
  ∀ f ∈ priorFailures past,
    f ∈ pendingFailures past ∨ ∃ e ∈ past, f.struckBy (strikingIds e) = true

theorem StruckOut.cons (h : StruckOut past)
    (he : ∀ keys, e = .did (.mem (.reconcile keys)) () → ∃ e' ∈ past, strikingIds e' = keys) :
    StruckOut (e :: past) := by
  have hold (f : FailedItem) (hf : f ∈ priorFailures past) :
      f ∈ pendingFailures past ∨ ∃ e' ∈ e :: past, f.struckBy (strikingIds e') = true := by
    refine (h f hf).imp_right ?_
    rintro ⟨e', he', hstruck⟩
    exact ⟨e', List.mem_cons_of_mem _ he', hstruck⟩
  cases e with
  | entered l => exact hold
  | did o x =>
    cases o with
    | ask q => exact hold
    | mem o =>
      cases o with
      | mergeResume loaded => exact fun f hf => .inl hf
      | reconcile keys =>
        intro f hf
        rcases hold f hf with hpending | hstruck
        · cases hs : f.struckBy keys with
          | false => exact .inl (List.mem_filter.mpr ⟨hpending, by rw [hs]; rfl⟩)
          | true =>
            obtain ⟨e', he', rfl⟩ := he keys rfl
            exact .inr ⟨e', List.mem_cons_of_mem _ he', hs⟩
        · exact .inr hstruck
      | _ => exact hold

theorem StruckOut.keeps :
    Keeps (V := V) cp ok (fun _ past G => Each (Token.Earned past) G) fun _ past _ => StruckOut past where
  quiet hr _ _ h := h.cons (by cases hr <;> nofun)
  stop _ hr _ _ h := h.cons (by cases hr <;> nofun)
  file hr _ hj h := by
    apply h.cons
    intro keys hkeys
    cases hr with
    | reconciled j u =>
      cases hkeys
      obtain ⟨e, he, heq⟩ := each_singleton.mp (each_add.mp hj).2 j.ids rfl
      exact ⟨e, he, by rw [strikingIds, heq, FileJob.ids]⟩
    | _ => exact nomatch hkeys
  folder hr _ _ h := h.cons (by cases hr <;> nofun)
  list hr _ _ h := h.cons (by cases hr <;> nofun)
  store hr _ _ h := h.cons (by cases hr <;> nofun)
  run hr _ _ h := h.cons (by cases hr <;> nofun)
  solo _ _ h := h.cons (by nofun)
  call _ _ h := h.cons (by nofun)
  shift _ _ h := h
  env _ _ h := h

theorem priorFailures_of_pending (past : List (Event copierSig)) (f : FailedItem)
    (h : f ∈ pendingFailures past) : f ∈ priorFailures past := by
  induction past using pendingFailures.induct with
  | case1 => exact h
  | case2 loaded u past => exact h
  | case3 keys u past ih => exact ih (List.mem_of_mem_filter h)
  | case4 e past h₁ h₂ ih =>
    unfold pendingFailures at h
    unfold priorFailures
    split at h <;> simp_all

/-- What a result says of the prior failures, as of the history before it was read. -/
structure Verdict (r : CopyResult) (earlier : List (Event copierSig)) : Prop where
  previous : r.previousFailedItems = pendingFailures earlier
  struckOut : StruckOut earlier
  struck : r.completed = true → r.failedItems = [] →
    ∀ e ∈ sinceLoad earlier, ∀ f ∈ pendingFailures earlier, f.struckBy (strikingIds e) = false

def Token.Judged (past : List (Event copierSig)) : Token → Prop
  | .returned r => ∃ earlier, (.did (.mem .result) r :: earlier) <:+ past ∧ Verdict r earlier
  | _ => True

/-- All that is known of the prior failures. -/
def Reviewed {V : Service} : Invariant V := fun s past G =>
  ((Remembers s past ∧ SavesFailures past) ∧ Phased Struck s past G) ∧
    (Each (Token.Earned past) G ∧ StruckOut past)

theorem Reviewed.keeps : Keeps (V := V) cp ok Always Reviewed :=
  (Remembers.keeps.both Struck.keeps.keeps).both
    ((earned_keeps.keeps.both StruckOut.keeps).weaken fun _ => trivial)

theorem Reviewed.start (cp : Copier) (now : String) (d : V.State) :
    Reviewed (⟨cp.freshMem now, d⟩ : Site V) [] {.idle, .begin} := by
  refine ⟨⟨Remembers.start cp now d, .inl ⟨by simp [Token.early], rfl, .inr (.inr ?_)⟩⟩, ?_, ?_⟩
  · exact fun e he => absurd he List.not_mem_nil
  · exact each_earned (by simp [Token.settling])
  · exact fun f hf => absurd hf List.not_mem_nil

theorem Reviewed.verdict (h : Reviewed s past G) : Verdict s.mem.result past where
  previous := h.1.1.1.previous
  struckOut := h.2.2
  struck hcompleted hfailed e he f hf := by
    rcases h.1.2 with ⟨-, hc, -⟩ | ⟨hclosed, hstruck⟩
    · rw [hc] at hcompleted
      exact nomatch hcompleted
    · rcases hstruck with hne | hstruck
      · exact absurd hfailed hne
      · refine (hstruck e he).elim (fun h => h f hf) fun hreport => absurd hreport (not_reports ?_)
        exact hclosed.mono fun t ht => by cases t <;> first | rfl | exact nomatch ht

theorem Token.Judged.mono {t : Token} (h : t.Judged past) : t.Judged (e :: past) := by
  cases t with
  | returned r =>
    obtain ⟨earlier, hsuf, hv⟩ := h
    exact ⟨earlier, hsuf.trans (List.suffix_cons e past), hv⟩
  | _ => trivial

theorem judged_of_ongoing (h : Ongoing τ) : Each (Token.Judged past) τ :=
  h.mono fun t ht => by
    cases t with
    | returned r => exact nomatch ht
    | _ => trivial

theorem judged_keeps : KeepsEach (V := V) cp ok Reviewed fun _ past => Token.Judged past where
  stable _ _ h := h.mono
  enters h := h.mono
  requests _ h := h
  stopped := trivial
  complete := trivial
  file hr _ _ _ := judged_of_ongoing hr.ongoing
  folder hr _ _ _ := judged_of_ongoing hr.ongoing
  list hr _ _ _ := judged_of_ongoing hr.ongoing
  store hr _ _ _ := judged_of_ongoing hr.ongoing
  run hr hs hj _ := by
    cases hr with
    | destRoot name d u =>
      exact each_add.mpr ⟨each_singleton.mpr trivial, each_rootTokens fun _ => trivial⟩
    | returned =>
      refine each_singleton.mpr ⟨_, List.suffix_rfl, ?_⟩
      rw [hs.1]
      exact hj.verdict
    | _ => simp [Token.Judged]
  call hc _ _ := judged_of_ongoing hc.ongoing
  shift hc _ h := by
    intro t ht
    cases hf : t.final with
    | false => exact judged_of_ongoing (each_singleton.mpr hf) t (Multiset.mem_singleton_self t)
    | true => exact h t (hc.ongoing hf ht)

/-- A run that completed without failures of its own has no prior failure left, and is
fully well, when each of them is known under an id of a file that was copied or matched after
the load; and only if each is known under an id of a file that was copied or matched. -/
theorem prior_failures_cleared (now : String) (d : V.State)
    {c : Config (cp.runs V ok) (Except Exc CopyResult)}
    (h : Reach (cp.runs V ok) (start (cp.runs V ok) cp.run ⟨cp.freshMem now, d⟩ []) c)
    {r : CopyResult} (hr : c.Returned (.ok r)) (hcompleted : r.completed = true)
    (hfailed : r.failedItems = []) (hlisted : r.hadListingErrors = false)
    (hsaved : r.logSaveFailed = false) (hdry : r.dryRun = false) :
    ∃ earlier, (.did (.mem .result) r :: earlier) <:+ c.world.trace ∧
      ((∀ f ∈ priorFailures earlier, ∃ e ∈ sinceLoad earlier, f.struckBy (strikingIds e) = true) →
        r.previousFailedItems = [] ∧ r.fullyOk = true) ∧
      (r.previousFailedItems = [] ∧ r.fullyOk = true →
        ∀ f ∈ priorFailures earlier, ∃ e ∈ earlier, f.struckBy (strikingIds e) = true) := by
  obtain ⟨-, hret⟩ := (Reviewed.keeps.both judged_keeps.keeps).throughout
    ⟨Reviewed.start cp now d, by simp [Token.Judged]⟩ h
  obtain ⟨G, hm, -, hjudged⟩ := hret r hr
  obtain ⟨earlier, hsuf, hv⟩ := hjudged _ hm
  refine ⟨earlier, hsuf, fun hall => ?_, fun hnone f hf => ?_⟩
  · have hnil : r.previousFailedItems = [] := by
      rw [hv.previous, List.eq_nil_iff_forall_not_mem]
      intro f hf
      obtain ⟨e, he, hstruck⟩ := hall f (priorFailures_of_pending earlier f hf)
      rw [hv.struck hcompleted hfailed e he f hf] at hstruck
      exact nomatch hstruck
    exact ⟨hnil, by simp [CopyResult.fullyOk, CopyResult.hasFailures, *]⟩
  · rcases hv.struckOut f hf with hpending | hstruck
    · rw [← hv.previous, hnone.1] at hpending
      exact absurd hpending List.not_mem_nil
    · exact hstruck

end Struck

/-! ## A failure that no success clears -/

/-- A source folder with a folder and a file in it. -/
def nestedDrive : Drive where
  nodes := [folderNode "sourcefolder" "Source" [], folderNode "targetfolder" "Target" [],
    folderNode "sub" "Sub" ["sourcefolder"], fileNode "first" "a" ["sub"] "1" "m"]
  nodup := by decide

/-- A first run in which the call number `k` raises: 27 lists the folder, 36 copies the file. -/
def brokenRun (k : ℕ) : Config (openRuns smallCopier) (Except Exc CopyResult) :=
  openRun smallCopier nestedDrive
    { raise := fun n => if n = k then some Drive.notFound else none } 400

/-- A second run over what the first one left, in which no call raises. -/
def repairRun (k : ℕ) : Config (openRuns smallCopier) (Except Exc CopyResult) :=
  openRun smallCopier (brokenRun k).world.state.drive {} 400

theorem brokenRun_reach (k : ℕ) :
    Reach (openRuns smallCopier) (openStart smallCopier nestedDrive) (brokenRun k) :=
  openRun_reach (fun _ => rfl) 400

theorem repairRun_reach (k : ℕ) : Reach (openRuns smallCopier)
    (openStart smallCopier (brokenRun k).world.state.drive) (repairRun k) :=
  openRun_reach (fun _ => rfl) 400

/-- The result of a run that completed without failures of its own. -/
def wentWell (r : CopyResult) : Bool :=
  r.completed && r.failedItems.isEmpty && !r.hadListingErrors && !r.logSaveFailed && !r.dryRun

/-- After a listing failure a second run without any failure is still not fully well. -/
theorem listing_failure_not_cleared : ∃ c₁ c₂ : Config (openRuns smallCopier) (Except Exc CopyResult),
    Reach (openRuns smallCopier) (openStart smallCopier nestedDrive) c₁ ∧
    (∃ r₁, c₁.Returned (.ok r₁) ∧ r₁.failedItems.map FailedItem.sourceId = ["sub"]) ∧
    Reach (openRuns smallCopier) (openStart smallCopier c₁.world.state.drive) c₂ ∧
    ∃ r₂, c₂.Returned (.ok r₂) ∧ wentWell r₂ = true ∧
      ¬(r₂.previousFailedItems = [] ∧ r₂.fullyOk = true) := by
  refine ⟨brokenRun 27, repairRun 27, brokenRun_reach 27, ?_, repairRun_reach 27, ?_⟩
  · obtain ⟨r, hr, hP⟩ := Config.returned_of_any (c := brokenRun 27)
      (P := fun r => r.failedItems.map FailedItem.sourceId = ["sub"]) (by decide +kernel)
    exact ⟨r, hr, by simpa using hP⟩
  · obtain ⟨r, hr, hP⟩ := Config.returned_of_any (c := repairRun 27)
      (P := fun r => wentWell r && !r.fullyOk) (by decide +kernel)
    rw [Bool.and_eq_true, Bool.not_eq_true'] at hP
    exact ⟨r, hr, hP.1, fun h => by rw [hP.2] at h; exact nomatch h.2⟩

/-- After a copy that was refused, the second run copies the file and is fully well. -/
theorem prior_failures_cleared_copy : ∃ r, (repairRun 36).Returned (.ok r) ∧ r.fullyOk = true ∧
    ∃ earlier, (.did (.mem .result) r :: earlier) <:+ (repairRun 36).world.trace ∧
      ((∀ f ∈ priorFailures earlier, ∃ e ∈ sinceLoad earlier, f.struckBy (strikingIds e) = true) →
        r.previousFailedItems = [] ∧ r.fullyOk = true) ∧
      (r.previousFailedItems = [] ∧ r.fullyOk = true →
        ∀ f ∈ priorFailures earlier, ∃ e ∈ earlier, f.struckBy (strikingIds e) = true) := by
  obtain ⟨r, hr, hP⟩ := Config.returned_of_any (c := repairRun 36)
    (P := fun r => wentWell r && r.fullyOk) (by decide +kernel)
  simp only [wentWell, Bool.and_eq_true, Bool.not_eq_true', List.isEmpty_iff] at hP
  obtain ⟨⟨⟨⟨⟨hcompleted, hfailed⟩, hlisted⟩, hsaved⟩, hdry⟩, hok⟩ := hP
  exact ⟨r, hr, hok, prior_failures_cleared "" _ (repairRun_reach 36) hr hcompleted hfailed
    hlisted hsaved hdry⟩

end TurboCopy
