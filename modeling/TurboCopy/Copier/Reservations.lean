import TurboCopy.Copier.Calls

/-!
# The accounts of the reservations

One running total is raised when a copy reserves its bytes and lowered when the copy fails;
what is marked copied stays in it. Each thread owes what its text will give back or mark
next, so the total is what was marked and what the threads owe, unless a thread forgets its
reservation. It forgets one when the app properties of the file are refused: they are checked
after the reservation, and outside of the call whose failure releases it.
-/

namespace TurboCopy

open Threads CopierM

/-! ## What a thread owes -/

/-- What a thread owes just before an operation on the accounts. -/
def owedAt : CopierOp → Option ℤ
  | .mem (.reserve _ _ _) => some 0
  | .mem (.release size _) => some size
  | .mem (.markCopied _ size) => some size
  | _ => none

theorem owedAt_eq_none {o : CopierOp} (h : ¬Accounts o) : owedAt o = none := by
  unfold owedAt
  split
  · exact absurd trivial h
  · exact absurd trivial h
  · exact absurd trivial h
  · rfl

/-- On every path, the next operation on the accounts settles `b` bytes; nothing is owed
where there is none or the next one is a reservation. -/
def Owes : {α : Type} → Prog copierSig α → ℤ → Prop
  | _, .pure _, b => b = 0
  | _, .act o k, b =>
    match owedAt o with
    | some size => b = size
    | none => ∀ x, Owes (k x) b
  | _, _, _ => False

/-- Every operation has some outcome. -/
theorem CopierOp.out_nonempty (o : CopierOp) : Nonempty (copierSig.Out o) := by
  cases o with
  | mem o => exact ⟨((smallCopier.freshMem "").exec o).1⟩
  | ask q => exact ⟨q.raised Drive.notFound⟩

/-- A thread owes one amount. -/
theorem Owes.unique {α : Type} {p : Prog copierSig α} {b b' : ℤ} (h : Owes p b) (h' : Owes p b') :
    b = b' := by
  induction p with
  | pure a => rw [show b = 0 from h, show b' = 0 from h']
  | act o k ih =>
    unfold Owes at h h'
    split at h
    · rename_i size hsize
      rw [hsize] at h'
      rw [h, h']
    · rename_i hnone
      rw [hnone] at h'
      obtain ⟨x⟩ := CopierOp.out_nonempty o
      exact ih x (h x) (h' x)
  | _ => exact h.elim

/-- The size of the file that an event of the history marks as copied. -/
def markedSize : Event copierSig → Option ℤ
  | .did (.mem (.markCopied _ size)) _ => some size
  | _ => none

/-- The total size of the files marked as copied. -/
def markedBytes (past : List (Event copierSig)) : ℤ := (past.filterMap markedSize).sum

/-- What the running total of a configuration should be. -/
structure BooksBalance {cp : Copier} {V : Service} {ok : StepCondition V}
    (c : Config (cp.runs V ok) Unit) : Prop where
  owed : ∃! owed, List.Forall₂ Owes c.tasks owed
  sum : ∀ owed, List.Forall₂ Owes c.tasks owed →
    c.world.state.mem.runBytes = markedBytes c.world.trace + owed.sum
  nonneg : 0 ≤ c.world.state.mem.runBytes
  budget : 0 < cp.config.maxCopySizeGb →
    (c.world.state.mem.runBytes : ℚ) ≤ cp.config.maxCopySizeGb * gib
  closed : (∀ p ∈ c.tasks, Finished p) →
    c.world.state.mem.runBytes = c.world.state.mem.result.copiedBytes

/-! ## Which reservations are settled -/

/-- The files that reserve `size` bytes under the text `reason` are empty or have app
properties that Drive takes. -/
def Copier.Fits (cp : Copier) (calls : List CopierCall) (size : ℤ) (reason : String) : Prop :=
  ∀ call ∈ calls, ∀ src shortcutId, call.file? = some (src, shortcutId) → size = src.bytes →
    reason = cp.budgetText src → size ≠ 0 → validateAppProperties (copyProps src shortcutId) = .ok ()

/-- The reservations that are granted fit. -/
def Copier.grantsFit (cp : Copier) (calls : List CopierCall) {V : Service} : StepCondition V
  | .mem (.reserve _ size reason), _, granted, _ => granted = true → cp.Fits calls size reason
  | _, _, _, _ => True

/-- How operations move what a thread owes. A reservation that does not fit is forgotten. -/
inductive Owing (cp : Copier) (calls : List CopierCall) : Moving copierSig ℤ
  | granted {size : ℤ} {reason : String} (h : 0 ≤ size) :
      Owing cp calls (.mem (.reserve cp.config.maxCopySizeGb size reason)) true 0 size
  | forgotten {size : ℤ} {reason : String} (h : ¬cp.Fits calls size reason) :
      Owing cp calls (.mem (.reserve cp.config.maxCopySizeGb size reason)) true 0 0
  | refused (max : ℚ) (size : ℤ) (reason : String) :
      Owing cp calls (.mem (.reserve max size reason)) false 0 0
  | released (size : ℤ) (detail : Option String) (u) :
      Owing cp calls (.mem (.release size detail)) u size 0
  | marked (effId : String) (size : ℤ) (u) : Owing cp calls (.mem (.markCopied effId size)) u size 0
  | other {o : CopierOp} (x) (g : ℤ) (h : ¬Accounts o) : Owing cp calls o x g g

section Texts

variable {cp : Copier} {calls : List CopierCall}

/-- A program that keeps its accounts owes what its private state says. -/
theorem owes_of_tracks {α : Type} {p : Prog copierSig α} {g : ℤ}
    (h : p.Tracks (Owing cp calls) (fun _ g => g = 0) g) : Owes p g := by
  induction p generalizing g with
  | pure a => exact h
  | act o k ih =>
    unfold Owes
    split
    · rename_i size hsize
      obtain ⟨x⟩ := CopierOp.out_nonempty o
      obtain ⟨g', hm, -⟩ := h x
      cases hm with
      | other x g ho => exact nomatch (owedAt_eq_none ho).symm.trans hsize
      | _ => exact Option.some.inj hsize
    · rename_i hnone
      intro x
      obtain ⟨g', hm, hk⟩ := h x
      cases hm with
      | other x g ho => exact ih x hk
      | _ => exact nomatch hnone
  | _ => exact h.elim

theorem Owing.plain (g : ℤ) (o : CopierOp) (x : o.Out) (ho : ¬Accounts o) (_ : ¬PointsLog o)
    (_ : ¬TurnsBreaker o) : Owing cp calls o x g g := .other x g ho

theorem Copier.passive_saves (g : ℤ) : Passive (Owing cp calls) g cp.save :=
  passive_save fun _ x ho _ => .other x g ho

/-- A copy the server answered is marked, or its bytes are released. -/
theorem Copier.tracks_settleCopy (newId : Option String) (src : DriveFile) (parentSourceId : String)
    (shortcutId : Option String) (effId : String) :
    Prog.Tracks (Owing cp calls) (cp.settleCopy newId src parentSourceId shortcutId effId)
      (fun _ g => g = 0) src.bytes := by
  apply Prog.Tracks.bind (tracks_verifyCopy (Owing.plain _) newId src shortcutId)
  rintro _ _ ⟨⟨_ | detail, rfl⟩, rfl⟩
  · intro u
    refine ⟨0, .marked _ _ _, ?_⟩
    apply Passive.bind (passive_maybeFlush (Owing.plain 0) (passive_saves 0))
    exact fun _ => passive_reconcileFailed (Owing.plain 0) _ _
  · intro u
    refine ⟨0, .released _ _ _, ?_⟩
    apply Passive.bind (Passive.mem fun x => .other x 0 id)
    exact fun _ => passive_recordFailed (Owing.plain 0)

/-- The bytes that are reserved are given back or marked, if the file fits. -/
theorem Copier.passive_copyMissing {dest : Option String} {src : DriveFile} {parentSourceId : String}
    {shortcutId : Option String} {effId : String} {call : CopierCall} (hcall : call ∈ calls)
    (hfile : call.file? = some (src, shortcutId)) (hsize : 0 ≤ src.bytes) :
    Passive (Owing cp calls) 0 (cp.copyMissing dest src parentSourceId shortcutId effId) := by
  rintro (_ | _)
  · exact ⟨0, .refused _ _ _, rfl⟩
  cases hvalid : validateAppProperties (copyProps src shortcutId) with
  | error e =>
    refine ⟨0, ?_, Passive.throw e⟩
    by_cases hzero : src.bytes = 0
    · have hg : Owing cp calls (.mem (.reserve cp.config.maxCopySizeGb src.bytes
          (cp.budgetText src))) true 0 src.bytes := .granted hsize
      rwa [hzero] at hg ⊢
    · apply Owing.forgotten
      intro hfit
      exact nomatch hvalid.symm.trans (hfit call hcall src shortcutId hfile rfl rfl hzero)
  | ok u =>
    refine ⟨src.bytes, .granted hsize, ?_⟩
    rintro (e | newId)
    · refine ⟨src.bytes, .other _ _ id, fun u => ⟨0, .released _ _ _, ?_⟩⟩
      exact passive_handleCopyException (fun _ x ho _ => .other x 0 ho) (passive_saves 0) _ _ _ _ _
    · exact ⟨src.bytes, .other _ _ id, tracks_settleCopy newId src parentSourceId shortcutId effId⟩

end Texts

/-! ## The accounts of a crew -/

theorem Mem.books_exec (m : Mem) {o : MemOp} (h : ¬Accounts (.mem o)) :
    (m.exec o).2.runBytes = m.runBytes ∧
      (m.exec o).2.result.copiedBytes = m.result.copiedBytes := by
  cases o with
  | reserve max size reason => exact absurd trivial h
  | release size detail => exact absurd trivial h
  | markCopied effId size => exact absurd trivial h
  | trustResume i effId src => simp only [Mem.exec]; split <;> exact ⟨rfl, rfl⟩
  | popMatch i src mode allow effId => simp only [Mem.exec]; split <;> exact ⟨rfl, rfl⟩
  | beginSave force => simp only [Mem.exec]; split <;> exact ⟨rfl, rfl⟩
  | _ => exact ⟨rfl, rfl⟩

theorem markedBytes_other {o : CopierOp} {x : o.Out} {past : List (Event copierSig)}
    (h : ¬Accounts o) : markedBytes (.did o x :: past) = markedBytes past := by
  have hnone : markedSize (.did o x) = none := by
    cases o with
    | mem o => cases o <;> first | rfl | exact absurd trivial h
    | ask q => rfl
  rw [markedBytes, List.filterMap_cons_none hnone, markedBytes]

theorem markedBytes_marked (effId : String) (size : ℤ) (u : Unit) (past : List (Event copierSig)) :
    markedBytes (.did (.mem (.markCopied effId size)) u :: past) = markedBytes past + size := by
  have hsome : markedSize (.did (.mem (.markCopied effId size)) u) = some size := rfl
  rw [markedBytes, List.filterMap_cons_some hsome, List.sum_cons, add_comm, markedBytes]

/-- The accounts of a world in which the threads owe `owed`. -/
structure Books {cp : Copier} {V : Service} {ok : StepCondition V} (w : World (cp.runs V ok))
    (owed : List ℤ) : Prop where
  sum : w.state.mem.runBytes = markedBytes w.trace + owed.sum
  copied : w.state.mem.result.copiedBytes = markedBytes w.trace
  marked : 0 ≤ markedBytes w.trace
  owed : ∀ b ∈ owed, 0 ≤ b
  budget : 0 < cp.config.maxCopySizeGb →
    (w.state.mem.runBytes : ℚ) ≤ cp.config.maxCopySizeGb * gib

section Crew

variable {cp : Copier} {V : Service} {calls : List CopierCall}

theorem Site.Step.refused {ok : StepCondition V} {s s' : Site V} {max : ℚ} {size : ℤ}
    {reason : String} (h : s.Step ok (.mem (.reserve max size reason)) false s') :
    s'.mem.runBytes = s.mem.runBytes ∧ s'.mem.result.copiedBytes = s.mem.result.copiedBytes := by
  obtain ⟨hx, rfl, -⟩ := h
  simp only [Mem.exec] at hx ⊢
  split_ifs at hx ⊢
  exact ⟨rfl, rfl⟩

/-- A thread settles `a` bytes more with the run, of which `b` are marked. -/
theorem Books.move {ok : StepCondition V} {w w' : World (cp.runs V ok)} {us vs : List ℤ}
    {g g' a b : ℤ} (h : Books w (us ++ g :: vs)) (hg : g' = g + a - b)
    (hrun : w'.state.mem.runBytes = w.state.mem.runBytes + a)
    (hcopied : w'.state.mem.result.copiedBytes = w.state.mem.result.copiedBytes + b)
    (hmarked : markedBytes w'.trace = markedBytes w.trace + b) (hb : 0 ≤ b) (hg' : 0 ≤ g')
    (hbudget : 0 < cp.config.maxCopySizeGb →
      (w'.state.mem.runBytes : ℚ) ≤ cp.config.maxCopySizeGb * gib) :
    Books w' (us ++ g' :: vs) := by
  have hsum := h.sum
  have hold := h.marked
  simp only [List.sum_append, List.sum_cons] at hsum
  constructor
  · simp only [List.sum_append, List.sum_cons]
    omega
  · rw [hcopied, h.copied, hmarked]
  · omega
  · intro x hx
    rcases List.mem_append.mp hx with hx | hx
    · exact h.owed x (List.mem_append_left _ hx)
    · rcases List.mem_cons.mp hx with rfl | hx
      · exact hg'
      · exact h.owed x (List.mem_append_right _ (List.mem_cons_of_mem _ hx))
  · exact hbudget

theorem Books.act {w : World (cp.runs V (cp.grantsFit calls))} {us vs : List ℤ} {o : CopierOp}
    {x : o.Out} {s : Site V} {g g' : ℤ}
    (hp : (cp.runs V (cp.grantsFit calls)).perform o w.state x s) (hm : Owing cp calls o x g g')
    (h : Books w (us ++ g :: vs)) : Books (w.log s (.did o x)) (us ++ g' :: vs) := by
  have hs : w.state.Step (cp.grantsFit calls) o x s := Site.step_of_perform hp
  have howed : 0 ≤ g := h.owed g (by simp)
  have hmem : s.mem = w.state.mem.after o := hs.after
  cases hm with
  | granted hsize =>
    obtain ⟨hbound, rfl⟩ := hs.reserved
    exact h.move (by ring) rfl (add_zero _).symm (add_zero _).symm le_rfl hsize hbound
  | forgotten hnot => exact absurd (hs.2.2 rfl) hnot
  | refused max size reason =>
    obtain ⟨hrun, hcopied⟩ := hs.refused
    refine h.move (by ring) (hrun.trans (add_zero _).symm) (hcopied.trans (add_zero _).symm)
      (add_zero _).symm le_rfl le_rfl fun hmax => ?_
    change (s.mem.runBytes : ℚ) ≤ _
    rw [hrun]
    exact h.budget hmax
  | released _ detail u =>
    have hrun : s.mem.runBytes = w.state.mem.runBytes - g := by rw [hmem]; rfl
    refine h.move (b := 0) (by ring) hrun (by rw [add_zero]; exact hmem ▸ rfl)
      (add_zero _).symm le_rfl le_rfl fun hmax => ?_
    change (s.mem.runBytes : ℚ) ≤ _
    have hle : s.mem.runBytes ≤ w.state.mem.runBytes := by omega
    exact (Int.cast_le.mpr hle).trans (h.budget hmax)
  | marked effId _ u =>
    have hrun : s.mem.runBytes = w.state.mem.runBytes := by rw [hmem]; rfl
    have hcopied : s.mem.result.copiedBytes = w.state.mem.result.copiedBytes + g := by
      rw [hmem]; rfl
    refine h.move (by ring) (hrun.trans (add_zero _).symm) hcopied ?_ howed le_rfl fun hmax => ?_
    · exact markedBytes_marked effId g u w.trace
    · change (s.mem.runBytes : ℚ) ≤ _
      rw [hrun]
      exact h.budget hmax
  | other x g ho =>
    have hbooks : s.mem.runBytes = w.state.mem.runBytes ∧
        s.mem.result.copiedBytes = w.state.mem.result.copiedBytes := by
      rw [hmem]
      cases o with
      | mem o => exact Mem.books_exec _ ho
      | ask q => exact ⟨rfl, rfl⟩
    obtain ⟨hrun, hcopied⟩ := hbooks
    refine h.move (by ring) (hrun.trans (add_zero _).symm) (hcopied.trans (add_zero _).symm)
      ((markedBytes_other ho).trans (add_zero _).symm) le_rfl howed fun hmax => ?_
    change (s.mem.runBytes : ℚ) ≤ _
    rw [hrun]
    exact h.budget hmax

theorem Books.keeps : CrewKeeps (cp.runs V (cp.grantsFit calls)) (Owing cp calls) 0 Books where
  join {w gs} h := by
    refine ⟨?_, h.copied, h.marked, ?_, h.budget⟩
    · rw [List.sum_append, List.sum_singleton, add_zero]
      exact h.sum
    · intro b hb
      rcases List.mem_append.mp hb with hb | hb
      · exact h.owed b hb
      · exact (List.mem_singleton.mp hb).ge
  act hp hm h := h.act hp hm
  env {w s gs} he h := by
    obtain ⟨reason, rfl⟩ := he
    exact ⟨h.sum, h.copied, h.marked, h.owed, h.budget⟩

end Crew

/-- In a run whose reservations fit, the running total is what was marked copied and what the
threads owe, whatever the schedule and the outcomes of the calls. -/
theorem reservations_balance {cp : Copier} {V : Service} {calls : List CopierCall}
    (hsize : ∀ call ∈ calls, ∀ src shortcutId, call.file? = some (src, shortcutId) → 0 ≤ src.bytes)
    {m : Mem} (hrun : m.runBytes = 0) (hcopied : m.result.copiedBytes = 0) (d : V.State)
    {c : Config (cp.runs V (cp.grantsFit calls)) Unit}
    (h : Reach _ (start (cp.runs V (cp.grantsFit calls)) (cp.makesAll calls) ⟨m, d⟩ []) c) :
    BooksBalance c := by
  have htracks : ∀ p ∈ calls.map cp.makes, p.Tracks (Owing cp calls) (fun _ g => g = 0) 0 := by
    intro p hp
    obtain ⟨call, hcall, rfl⟩ := List.mem_map.mp hp
    apply (Copier.tracks_makes (Owing.plain 0) (Copier.passive_saves 0) call ?_).mono
    · exact fun _ _ h => h
    · intro dest src parent shortcutId hfile
      exact Copier.passive_copyMissing hcall hfile (hsize call hcall src shortcutId hfile)
  have hstart : Books (⟨⟨m, d⟩, []⟩ : World (cp.runs V (cp.grantsFit calls))) [] := by
    refine ⟨hrun, hcopied, le_rfl, by simp, fun hmax => ?_⟩
    have hgib : (0 : ℚ) < gib := by norm_num [gib]
    change (m.runBytes : ℚ) ≤ _
    rw [hrun, Int.cast_zero]
    exact (mul_pos hmax hgib).le
  obtain ⟨owed, hcrew⟩ := Crewed.reach Books.keeps htracks hstart h
  have hbooks := hcrew.world
  have hnonneg : 0 ≤ owed.sum := List.sum_nonneg hbooks.owed
  have howes : List.Forall₂ Owes c.tasks owed := hcrew.tasks.imp fun _ _ => owes_of_tracks
  have hunique : Relator.RightUnique (List.Forall₂ (@Owes Unit)) :=
    Relator.RightUnique.forall₂ fun _ _ _ => Owes.unique
  refine ⟨⟨owed, howes, fun _ h => hunique h howes⟩, fun _ h => ?_, ?_, hbooks.budget, ?_⟩
  · rw [hunique h howes]
    exact hbooks.sum
  · rw [hbooks.sum]
    exact add_nonneg hbooks.marked hnonneg
  · intro hfinished
    have hzero : owed.sum = 0 := List.sum_eq_zero (hcrew.finished hfinished)
    rw [hbooks.sum, hbooks.copied, hzero, add_zero]

/-! ## A file whose id is too long -/

def longId : String := String.ofList (List.replicate 120 'x')

def byteDrive : Drive where
  nodes := [folderNode "target" "Target" [], fileNode "file" "a.txt" [] "1" "m",
    fileNode longId "b.txt" [] "1" "m"]
  nodup := by decide +kernel

/-- A worker copies a file of one byte. -/
def byteCalls (id name : String) : List CopierCall :=
  [.work (some "target") { id := id, name := name, mimeType := "", size := some 1 } 0 "source"]

def byteTurns : List Turn := .main :: List.replicate 20 (.task 0)

/-- The file is copied and marked. -/
theorem reservations_balance_one :
    let c := callsAfter (smallCopier.grantsFit (byteCalls "file" "a.txt"))
      (smallCopier.freshMem "") byteDrive (byteCalls "file" "a.txt") byteTurns
    c.world.state.mem.runBytes = 1 ∧ BooksBalance c := by
  have hfit (size : ℤ) (reason : String) :
      smallCopier.Fits (byteCalls "file" "a.txt") size reason := by
    intro call hcall src shortcutId hfile _ _ _
    obtain rfl := List.mem_singleton.mp hcall
    cases hfile
    decide +kernel
  refine ⟨by decide +kernel, reservations_balance ?_ rfl rfl byteDrive (callsAfter_reach ?_ _)⟩
  · intro call hcall src shortcutId hfile
    obtain rfl := List.mem_singleton.mp hcall
    cases hfile
    decide
  · intro o s x s'
    unfold Copier.grantsFit
    split
    · exact fun _ => hfit _ _
    · trivial

/-- The worker forgets the byte it reserved. -/
theorem reservation_forgotten :
    let c := callsAfter anyStep (smallCopier.freshMem "") byteDrive (byteCalls longId "b.txt")
      byteTurns
    Reach _ (callsStart anyStep (smallCopier.freshMem "") byteDrive (byteCalls longId "b.txt")) c ∧
      (∀ p ∈ c.tasks, Finished p) ∧ c.world.state.mem.runBytes = 1 ∧
        c.world.state.mem.result.copiedBytes = 0 ∧ ¬BooksBalance c := by
  intro c
  have hreach : Reach _ (callsStart anyStep (smallCopier.freshMem "") byteDrive
      (byteCalls longId "b.txt")) c := callsAfter_reach (fun _ _ _ _ => trivial) _
  have hfinished : ∀ p ∈ c.tasks, Finished p := by
    intro p hp
    have hall : c.tasks.all (fun p => p.value?.isSome) = true := by decide +kernel
    obtain ⟨u, hu⟩ := Option.isSome_iff_exists.mp (List.all_eq_true.mp hall p hp)
    exact Prog.eq_pure hu
  have hrun : c.world.state.mem.runBytes = 1 := by decide +kernel
  have hcopied : c.world.state.mem.result.copiedBytes = 0 := by decide +kernel
  refine ⟨hreach, hfinished, hrun, hcopied, fun hbalance => ?_⟩
  have hclosed := hbalance.closed hfinished
  rw [hrun, hcopied] at hclosed
  exact nomatch hclosed

end TurboCopy
