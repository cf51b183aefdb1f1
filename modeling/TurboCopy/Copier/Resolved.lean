import TurboCopy.Copier.Durability
import TurboCopy.Copier.Solo

/-!
# Resolved failures and the list that is serialized

`_record_failed` and `_reconcile_failed` called in any order after the logs were loaded. The
first call of `_reconcile_failed` copies what it leaves of the prior failures into the list
that is serialized, and no later call takes anything out of that list. So a prior failure
that is resolved has left it for good exactly when the first call struck it out.
-/

namespace TurboCopy

open Threads CopierM

/-- A call of `_record_failed`, with the item it makes, or of `_reconcile_failed`. -/
inductive FailureCall
  | record (item : FailedItem)
  | reconcile (effId : String) (src : DriveFile)
deriving DecidableEq

namespace FailureCall

/-- The ids a call declares resolved. -/
def names : FailureCall → List String
  | record _ => []
  | reconcile effId src => [effId, src.id]

/-- The ids that `_reconcile_failed` goes by. -/
def keys? : FailureCall → Option (List String)
  | record _ => none
  | reconcile effId src => some ([effId, src.id].filter fun k => k ≠ "")

end FailureCall

namespace Mem

variable {m : Mem} {f : FailedItem}

/-- What a call does to the memory. -/
def call (m : Mem) : FailureCall → Mem
  | .record item => (m.exec (.recordFailed item)).2
  | .reconcile effId src =>
    if (m.exec .hasPrevious).1 then
      (m.exec (.reconcile ([effId, src.id].filter fun k => k ≠ ""))).2
    else m

def calls (m : Mem) (cs : List FailureCall) : Mem := cs.foldl call m

theorem mem_previous_reconcile (keys : List String) :
    f ∈ (m.reconcile keys).result.previousFailedItems ↔
      f ∈ m.result.previousFailedItems ∧ f.struckBy keys = false := by
  rw [← Bool.not_eq_true']
  exact List.mem_filter

/-- The list that is serialized gains the prior failures that are left and loses nothing. -/
theorem mem_failed_reconcile (keys : List String) :
    f ∈ (m.reconcile keys).state.failedItems ↔
      f ∈ m.state.failedItems ∨ f ∈ (m.reconcile keys).result.previousFailedItems := by
  simp only [reconcile, List.mem_append, List.mem_filter, decide_eq_true_eq]
  tauto

/-- Without prior failures there is nothing to reconcile. -/
theorem mem_call_reconcile (effId : String) (src : DriveFile) {keys : List String}
    (hkeys : keys = [effId, src.id].filter fun k => k ≠ "") :
    (f ∈ (m.call (.reconcile effId src)).result.previousFailedItems ↔
      f ∈ m.result.previousFailedItems ∧ f.struckBy keys = false) ∧
    (f ∈ (m.call (.reconcile effId src)).state.failedItems ↔
      f ∈ m.state.failedItems ∨ f ∈ m.result.previousFailedItems ∧ f.struckBy keys = false) := by
  subst hkeys
  by_cases hnone : m.result.previousFailedItems = []
  · have hcall : m.call (.reconcile effId src) = m := by
      simp [call, exec, hnone]
    rw [hcall, hnone]
    simp
  · have hcall : m.call (.reconcile effId src) =
        m.reconcile ([effId, src.id].filter fun k => k ≠ "") := by
      simp [call, exec, hnone]
    rw [hcall, ← mem_previous_reconcile]
    exact ⟨Iff.rfl, mem_failed_reconcile _⟩

/-- After any calls the list holds what it held, what was recorded, and what the first
reconciliation left of the prior failures. -/
theorem mem_failed_calls (cs : List FailureCall) :
    f ∈ (m.calls cs).state.failedItems ↔
      f ∈ m.state.failedItems ∨ .record f ∈ cs ∨ ∃ keys, cs.findSome? FailureCall.keys? = some keys ∧
        f ∈ m.result.previousFailedItems ∧ f.struckBy keys = false := by
  induction cs generalizing m with
  | nil => simp [calls]
  | cons c cs ih =>
    change f ∈ ((m.call c).calls cs).state.failedItems ↔ _
    rw [ih]
    cases c with
    | record item =>
      have hfailed : f ∈ (m.call (.record item)).state.failedItems ↔
          f ∈ m.state.failedItems ∨ f = item := by
        simp [call, exec]
      rw [hfailed]
      simp only [List.mem_cons, FailureCall.record.injEq, List.findSome?_cons, FailureCall.keys?,
        or_assoc]
      rfl
    | reconcile effId src =>
      obtain ⟨hprevious, hfailed⟩ := mem_call_reconcile (m := m) (f := f) effId src rfl
      rw [hprevious, hfailed]
      simp only [List.mem_cons, reduceCtorEq, false_or, List.findSome?_cons, FailureCall.keys?,
        Option.some.injEq, exists_eq_left', or_assoc]
      constructor
      · rintro (h | h | h | ⟨keys, -, h, -⟩)
        · exact .inl h
        · exact .inr (.inr h)
        · exact .inr (.inl h)
        · exact .inr (.inr h)
      · rintro (h | h | h)
        · exact .inl h
        · exact .inr (.inr (.inl h))
        · exact .inr (.inl h)

end Mem

/-! ## The procedures of the engine -/

section Procedures

variable {V : Service} {cp : Copier} {w : Scene cp V} {E : Exc → Scene cp V → Prop}

/-- `_reconcile_failed`, run by itself, is the call. -/
theorem completes_reconcileFailed (effId : String) (src : DriveFile) :
    Completes w (Copier.reconcileFailed effId src)
      (fun _ w' => w'.state.mem = w.state.mem.call (.reconcile effId src)) E := by
  apply Completes.bind (R := fun some w' => some = (w.state.mem.exec .hasPrevious).1 ∧
    w'.state.mem = w.state.mem)
  · exact Completes.mem ⟨rfl, rfl⟩
  · rintro some w' ⟨rfl, hmem⟩
    unfold Mem.call
    split_ifs
    · apply Completes.mem
      change (w'.state.mem.exec _).2 = (w.state.mem.exec _).2
      rw [hmem]
    · exact Completes.pure hmem

/-- `_record_failed`, run by itself, is the call for the item with the time of the clock. -/
theorem completes_recordFailed (hclock : ∃ now d, V.serves .nowIso w.state.drive now d)
    (src : DriveFile) (reason message : String) (parent target shortcut eff : Option String) :
    Completes w (Copier.recordFailed src reason message parent target shortcut eff)
      (fun _ w' => ∃ now, w'.state.mem = w.state.mem.call (.record
        { sourceId := src.id, name := src.name, mimeType := src.mimeType, reason := reason
          errorMessage := message, timestamp := now, parentSourceId := parent
          shortcutTargetId := target, sourceShortcutId := shortcut
          effectiveSourceId := eff })) E := by
  apply Completes.bind (R := fun _ w' => w'.state.mem = w.state.mem)
  · exact Completes.ask hclock fun _ _ _ => rfl
  · intro now w' hmem
    apply Completes.mem
    refine ⟨now, ?_⟩
    change (w'.state.mem.exec _).2 = (w.state.mem.exec _).2
    rw [hmem]

end Procedures

/-- The calls take every resolved prior failure out of the list that is serialized, and keep
what they recorded, if and only if the first reconciliation already strikes out all prior
failures that any of them resolves and none of these is recorded anew. -/
theorem resolved_failures_leave_iff (cp : Copier) (now : String) (loaded : ResumeState)
    (cs : List FailureCall) :
    ((∀ f ∈ loaded.failedItems, (∃ c ∈ cs, f.struckBy c.names = true) →
        f ∉ (((cp.freshMem now).mergeResume loaded).calls cs).state.failedItems) ∧
      ∀ item, .record item ∈ cs →
        item ∈ (((cp.freshMem now).mergeResume loaded).calls cs).state.failedItems) ↔
    ∀ f ∈ loaded.failedItems, (∃ c ∈ cs, f.struckBy c.names = true) →
      (∃ keys, cs.findSome? FailureCall.keys? = some keys ∧ f.struckBy keys = true) ∧
        .record f ∉ cs := by
  have hempty : ((cp.freshMem now).mergeResume loaded).state.failedItems = [] := rfl
  have hprevious :
      ((cp.freshMem now).mergeResume loaded).result.previousFailedItems = loaded.failedItems := rfl
  simp only [Mem.mem_failed_calls, hempty, hprevious, List.not_mem_nil, false_or]
  constructor
  · rintro ⟨hgone, -⟩ f hf hstruck
    obtain ⟨hrecord, hkeys⟩ := not_or.mp (hgone f hf hstruck)
    obtain ⟨c, hc, hnames⟩ := hstruck
    refine ⟨?_, hrecord⟩
    cases hfirst : cs.findSome? FailureCall.keys? with
    | none =>
      -- A call that strikes something out reconciles.
      cases c with
      | record item => simp [FailureCall.names, f.struckBy_nil] at hnames
      | reconcile effId src => exact nomatch List.findSome?_eq_none_iff.mp hfirst _ hc
    | some keys =>
      refine ⟨keys, rfl, ?_⟩
      by_contra hnot
      exact hkeys ⟨keys, hfirst, hf, Bool.not_eq_true _ ▸ hnot⟩
  · intro h
    refine ⟨?_, fun item hitem => .inl hitem⟩
    intro f hf hstruck hin
    obtain ⟨⟨keys, hfirst, hkeys⟩, hrecord⟩ := h f hf hstruck
    rcases hin with hin | ⟨keys', hfirst', -, hkeys'⟩
    · exact hrecord hin
    · rw [hfirst] at hfirst'
      cases hfirst'
      rw [hkeys] at hkeys'
      exact nomatch hkeys'

/-- Two prior failures, resolved one after the other. -/
def priorPair : ResumeState where
  failedItems :=
    [⟨"a", "a.txt", "", "copyFailed", "", "", none, none, none, some "a"⟩,
      ⟨"b", "b.txt", "", "copyFailed", "", "", none, none, none, some "b"⟩]

def resolvePair : List FailureCall := [.reconcile "a" ⟨"a", "a.txt", "", none, none, none, ∅, false,
  none, none, none⟩, .reconcile "b" ⟨"b", "b.txt", "", none, none, none, ∅, false, none, none, none⟩]

/-- The failure that the second call resolves stays in the list. -/
theorem resolved_failure_stays : ∃ f ∈ priorPair.failedItems,
    (∃ c ∈ resolvePair, f.struckBy c.names = true) ∧
      f ∈ (((smallCopier.freshMem "").mergeResume priorPair).calls resolvePair).state.failedItems := by
  refine ⟨⟨"b", "b.txt", "", "copyFailed", "", "", none, none, none, some "b"⟩, ?_, ?_, ?_⟩ <;>
    decide +kernel

end TurboCopy
