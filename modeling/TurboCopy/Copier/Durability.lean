import TurboCopy.Copier.Replay

/-!
# Prior failures in the saved log

The failures a run loads are kept apart from the list that is serialized. They enter it only
when a success strikes some of them out, and then they stay. So a saved log names a prior
failure exactly when the run recorded it again, or some success found it still pending and did
not strike it out.
-/

namespace TurboCopy

open Threads

/-! ## The history of the prior failures -/

/-- The item is known under one of the ids. -/
def FailedItem.struckBy (f : FailedItem) (keys : List String) : Bool :=
  let hit (o : Option String) : Bool := o.any (· ∈ keys)
  hit f.effectiveSourceId || decide (f.sourceId ∈ keys) || hit f.sourceShortcutId ||
    hit f.shortcutTargetId

theorem FailedItem.struckBy_nil (f : FailedItem) : f.struckBy [] = false := by
  simp only [FailedItem.struckBy, List.not_mem_nil, decide_false, Bool.or_false]
  cases f.effectiveSourceId <;> cases f.sourceShortcutId <;> cases f.shortcutTargetId <;> rfl

/-- The failures in the logs a run loaded. -/
def priorFailures : List (Event copierSig) → List FailedItem
  | [] => []
  | .did (.mem (.mergeResume loaded)) _ :: _ => loaded.failedItems
  | _ :: past => priorFailures past

/-- The prior failures that no success has struck out. -/
def pendingFailures : List (Event copierSig) → List FailedItem
  | [] => []
  | .did (.mem (.mergeResume loaded)) _ :: _ => loaded.failedItems
  | .did (.mem (.reconcile keys)) _ :: past =>
    (pendingFailures past).filter fun f => !f.struckBy keys
  | _ :: past => pendingFailures past

/-- The effective id and the id of the source item that an event copied or matched. -/
def settledIds : Event copierSig → List String
  | .did (.ask (.copyFile id body _ _)) (.ok _) =>
    [orElse (AList.lookup "source_shortcut_id" body.appProperties) id, id]
  | .did (.mem (.popMatch _ src _ _ eff)) (some _) => [eff, src.id]
  | .did (.mem (.trustResume _ eff src)) (some _) => [eff, src.id]
  | _ => []

/-- One of the ids is that of the source item of the failure. -/
def FailedItem.isOf (f : FailedItem) (ids : List String) : Bool :=
  decide (f.sourceId ∈ ids) || f.effectiveSourceId.any (· ∈ ids)

/-- The source item of a failure was copied or matched. -/
def Resolved (past : List (Event copierSig)) (f : FailedItem) : Prop :=
  ∃ e ∈ past, f.isOf (settledIds e) = true

instance (past : List (Event copierSig)) (f : FailedItem) : Decidable (Resolved past f) :=
  inferInstanceAs (Decidable (∃ e ∈ past, f.isOf (settledIds e) = true))

/-- The run recorded the failure. -/
def Recorded (past : List (Event copierSig)) (f : FailedItem) : Prop :=
  .did (.mem (.recordFailed f)) () ∈ past

/-- A success found the failure pending and did not strike it out. -/
def Carried (past : List (Event copierSig)) (f : FailedItem) : Prop :=
  ∃ keys earlier, (.did (.mem (.reconcile keys)) () :: earlier) <:+ past ∧
    f ∈ pendingFailures earlier ∧ f.struckBy keys = false

section History

variable {past : List (Event copierSig)} {e : Event copierSig} {f : FailedItem}

theorem recorded_cons_of_ne (h : ∀ f, e ≠ .did (.mem (.recordFailed f)) ()) :
    Recorded (e :: past) f ↔ Recorded past f := by
  rw [Recorded, List.mem_cons, or_iff_right (h f).symm, Recorded]

theorem recorded_record (item : FailedItem) :
    Recorded (.did (.mem (.recordFailed item)) () :: past) f ↔ f = item ∨ Recorded past f := by
  rw [Recorded, List.mem_cons]
  constructor
  · rintro (he | h)
    · cases he
      exact .inl rfl
    · exact .inr h
  · rintro (rfl | h)
    · exact .inl rfl
    · exact .inr h

theorem carried_cons_of_ne (h : ∀ keys, e ≠ .did (.mem (.reconcile keys)) ()) :
    Carried (e :: past) f ↔ Carried past f := by
  constructor
  · rintro ⟨keys, earlier, hsuf, hf⟩
    rcases List.suffix_cons_iff.mp hsuf with heq | hsuf
    · exact absurd (List.cons.inj heq).1.symm (h keys)
    · exact ⟨keys, earlier, hsuf, hf⟩
  · rintro ⟨keys, earlier, hsuf, hf⟩
    exact ⟨keys, earlier, hsuf.trans (List.suffix_cons e past), hf⟩

theorem carried_reconcile (keys : List String) :
    Carried (.did (.mem (.reconcile keys)) () :: past) f ↔
      f ∈ (pendingFailures past).filter (fun f => !f.struckBy keys) ∨ Carried past f := by
  rw [List.mem_filter, Bool.not_eq_true']
  constructor
  · rintro ⟨keys', earlier, hsuf, hf⟩
    rcases List.suffix_cons_iff.mp hsuf with heq | hsuf
    · cases heq
      exact .inl hf
    · exact .inr ⟨keys', earlier, hsuf, hf⟩
  · rintro (hf | ⟨keys', earlier, hsuf, hf⟩)
    · exact ⟨keys, past, List.suffix_rfl, hf⟩
    · exact ⟨keys', earlier, hsuf.trans (List.suffix_cons _ past), hf⟩

end History

/-! ## The memory against the history -/

/-- The failures in the memory are those of the history. -/
structure Remembers {V : Service} (s : Site V) (past : List (Event copierSig)) : Prop where
  previous : s.mem.result.previousFailedItems = pendingFailures past
  failed : ∀ f, f ∈ s.mem.state.failedItems ↔ Recorded past f ∨ Carried past f

section Remembers

variable {V : Service} {ok : StepCondition V} {cp : Copier} {past : List (Event copierSig)}
  {s s' : Site V} {o : CopierOp} {x : o.Out}

/-- An operation that neither loads, records nor strikes out failures. -/
def MemOp.sparesFailures : MemOp → Bool
  | .mergeResume _ | .reconcile _ | .recordFailed _ => false
  | _ => true

theorem Mem.exec_spares {o : MemOp} (m : Mem) (h : o.sparesFailures = true) :
    (m.exec o).2.result.previousFailedItems = m.result.previousFailedItems ∧
      (m.exec o).2.state.failedItems = m.state.failedItems := by
  cases o with
  | trustResume i eff src => simp only [Mem.exec]; split <;> exact ⟨rfl, rfl⟩
  | popMatch i src mode allow eff => simp only [Mem.exec]; split <;> exact ⟨rfl, rfl⟩
  | reserve max size reason => simp only [Mem.exec]; split_ifs <;> exact ⟨rfl, rfl⟩
  | beginSave force => simp only [Mem.exec]; split_ifs <;> exact ⟨rfl, rfl⟩
  | mergeResume loaded => cases h
  | reconcile keys => cases h
  | recordFailed item => cases h
  | _ => exact ⟨rfl, rfl⟩

/-- An event that tells nothing of failures. -/
theorem Remembers.skip {e : Event copierSig} (h : Remembers s past)
    (hmem : s'.mem.result.previousFailedItems = s.mem.result.previousFailedItems ∧
      s'.mem.state.failedItems = s.mem.state.failedItems)
    (hpending : pendingFailures (e :: past) = pendingFailures past)
    (hrecord : ∀ f, e ≠ .did (.mem (.recordFailed f)) ())
    (hcarry : ∀ keys, e ≠ .did (.mem (.reconcile keys)) ()) : Remembers s' (e :: past) := by
  constructor
  · rw [hmem.1, h.previous, hpending]
  · intro f
    rw [hmem.2, h.failed, recorded_cons_of_ne hrecord, carried_cons_of_ne hcarry]

/-- A list rebuilt from some items in front loses none. -/
theorem mem_rebuilt {α : Type} [DecidableEq α] {front l : List α} {a : α} :
    a ∈ front ++ (l.filter fun b => b ∉ front) ↔ a ∈ front ∨ a ∈ l := by
  rw [List.mem_append, List.mem_filter, decide_eq_true_eq]
  by_cases ha : a ∈ front
  · simp only [ha, true_or]
  · simp only [ha, not_false_eq_true, and_true]

theorem Remembers.did (h : Remembers s past) (hs : s.Step ok o x s') :
    Remembers s' (.did o x :: past) := by
  cases o with
  | ask q =>
    obtain ⟨-, hmem, -⟩ := hs
    exact h.skip (by rw [hmem]; exact ⟨rfl, rfl⟩) rfl (fun _ he => nomatch he) fun _ he => nomatch he
  | mem o =>
    obtain ⟨-, rfl, -⟩ := hs
    cases o with
    | mergeResume loaded =>
      constructor
      · rfl
      · intro f
        rw [recorded_cons_of_ne (by nofun), carried_cons_of_ne (by nofun)]
        exact h.failed f
    | reconcile keys =>
      have hprevious : (s.mem.reconcile keys).result.previousFailedItems =
          (pendingFailures past).filter fun f => !f.struckBy keys := by
        rw [← h.previous]
        rfl
      constructor
      · exact hprevious
      · intro f
        have hfailed : f ∈ (s.mem.reconcile keys).state.failedItems ↔
            f ∈ (s.mem.reconcile keys).result.previousFailedItems ∨
              f ∈ s.mem.state.failedItems := mem_rebuilt
        rw [hprevious, h.failed] at hfailed
        rw [recorded_cons_of_ne (by nofun), carried_reconcile]
        exact hfailed.trans or_left_comm
    | recordFailed item =>
      constructor
      · exact h.previous
      · intro f
        rw [recorded_record, carried_cons_of_ne (by nofun), or_assoc]
        have hfailed : f ∈ s.mem.state.failedItems ++ [item] ↔ _ := List.mem_append
        rw [h.failed, List.mem_singleton, or_comm] at hfailed
        exact hfailed
    | _ =>
      exact h.skip (Mem.exec_spares s.mem rfl) rfl (fun _ he => nomatch he) fun _ he => nomatch he

/-- Every saved state names the failures of the history before it. -/
def SavesFailures (past : List (Event copierSig)) : Prop :=
  ∀ time saved earlier, (.did (.mem (.snapshot time)) saved :: earlier) <:+ past →
    ∀ f, f ∈ saved.failedItems ↔ Recorded earlier f ∨ Carried earlier f

theorem SavesFailures.cons {e : Event copierSig} (h : SavesFailures past)
    (he : ∀ time saved, e = .did (.mem (.snapshot time)) saved →
      ∀ f, f ∈ saved.failedItems ↔ Recorded past f ∨ Carried past f) :
    SavesFailures (e :: past) := by
  intro time saved earlier hsuf
  rcases List.suffix_cons_iff.mp hsuf with heq | hsuf
  · obtain ⟨rfl, rfl⟩ := List.cons.inj heq
    exact he time saved rfl
  · exact h time saved earlier hsuf

theorem Remembers.saves (h : Remembers s past) (hsaves : SavesFailures past)
    (hs : s.Step ok o x s') : SavesFailures (.did o x :: past) := by
  apply hsaves.cons
  intro time saved he
  cases he
  obtain ⟨rfl, -, -⟩ := hs
  exact h.failed

theorem Remembers.keeps :
    Keeps (V := V) cp ok Always fun s past _ => Remembers s past ∧ SavesFailures past :=
  Keeps.of_step (fun hs h => ⟨h.1.did hs, h.1.saves h.2 hs⟩)
    (fun h => ⟨h.1.skip ⟨rfl, rfl⟩ rfl (by nofun) (by nofun), h.2.cons (by nofun)⟩)
    fun _ h => ⟨⟨h.1.previous, h.1.failed⟩, h.2⟩

theorem Remembers.start (cp : Copier) (now : String) (d : V.State) :
    Remembers (⟨cp.freshMem now, d⟩ : Site V) [] ∧ SavesFailures [] := by
  refine ⟨⟨rfl, fun f => ⟨nofun, ?_⟩⟩, fun time saved earlier hsuf => ?_⟩
  · rintro (hr | ⟨keys, earlier, hsuf, -⟩)
    · exact absurd hr List.not_mem_nil
    · exact absurd (List.suffix_nil.mp hsuf) (List.cons_ne_nil _ _)
  · exact absurd (List.suffix_nil.mp hsuf) (List.cons_ne_nil _ _)

end Remembers

/-! ## A failure that is lost -/

theorem Resolved.mono {past earlier : List (Event copierSig)} {f : FailedItem}
    (h : Resolved earlier f) (hsuf : earlier <:+ past) : Resolved past f := by
  obtain ⟨e, he, hf⟩ := h
  exact ⟨e, hsuf.subset he, hf⟩

end TurboCopy
