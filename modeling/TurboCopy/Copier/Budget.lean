import TurboCopy.Copier.Origin
import TurboCopy.Copier.Replay

/-!
# The byte budget

What the server copied in a run, next to what the workers have reserved, stays within
the reservations, and a reservation is refused when it would exceed the budget. The one
release that breaks the balance is that of a copy which exists but failed verification.
-/

namespace TurboCopy

open Threads

/-- The source of the copy that an event of the history made. -/
def copiedId : Event copierSig → Option String
  | .did (.ask (.copyFile id _ _ _)) (.ok _) => some id
  | _ => none

/-- The total size of the files the server copied. -/
def copiedTotal (size : String → ℤ) (past : List (Event copierSig)) : ℤ :=
  ((past.filterMap copiedId).map size).sum

theorem copiedTotal_cons_none {size : String → ℤ} {e : Event copierSig}
    {past : List (Event copierSig)} (h : copiedId e = none) :
    copiedTotal size (e :: past) = copiedTotal size past := by
  rw [copiedTotal, List.filterMap_cons_none h, copiedTotal]

theorem copiedTotal_cons_some {size : String → ℤ} {e : Event copierSig} {id : String}
    {past : List (Event copierSig)} (h : copiedId e = some id) :
    copiedTotal size (e :: past) = size id + copiedTotal size past := by
  rw [copiedTotal, List.filterMap_cons_some h, List.map_cons, List.sum_cons, copiedTotal]

/-- The bytes a token holds a reservation for. -/
def Token.held (size : String → ℤ) : Token → ℤ
  | .file j .reserved => size j.src.id
  | .file j .refused => size j.src.id
  | _ => 0

section Held

variable {size : String → ℤ} {G τ τ' : Multiset Token}

theorem total_held_nonneg (hsize : ∀ id, 0 ≤ size id) : 0 ≤ total (Token.held size) G := by
  refine Multiset.sum_nonneg fun x hx => ?_
  obtain ⟨t, -, rfl⟩ := Multiset.mem_map.mp hx
  unfold Token.held
  split
  · exact hsize _
  · exact hsize _
  · exact le_rfl

theorem held_entry (l : Level) (index : ℕ) (src : DriveFile) :
    (Token.entry l index src).held size = 0 := by
  unfold Token.entry
  split_ifs <;> rfl

theorem held_target (l : Level) (index : ℕ) (src target : DriveFile) :
    (Token.target l index src target).held size = 0 := by
  unfold Token.target
  split_ifs <;> rfl

theorem total_held_rootTokens (d : Option String) : total (Token.held size) (rootTokens d) = 0 :=
  total_eq_zero (each_rootTokens fun _ => rfl)

end Held

/-! ## What the rules do to the balance -/

section Rules

variable {V : Service} {ok : StepCondition V} {cp : Copier} {sourceId destParent : String}
  {o : CopierOp} {x : o.Out} {s s' : Site V} {τ τ' : Multiset Token} {size : String → ℤ}

/-- A step that neither copies a file nor touches the running total of bytes. -/
structure Idles (o : CopierOp) (x : o.Out) (s s' : Site V) : Prop where
  runBytes : s'.mem.runBytes = s.mem.runBytes
  copied : copiedId (.did o x) = none

theorem QuietRule.idles (h : QuietRule o x) (hs : s.Step ok o x s') : Idles o x s s' := by
  refine ⟨?_, by cases h <;> rfl⟩
  rw [hs.after]
  cases h with
  | beginSave force b =>
    simp only [Mem.after, Mem.exec]
    split_ifs <;> rfl
  | _ => rfl

theorem StopRule.idles (h : StopRule o x) (hs : s.Step ok o x s') : Idles o x s s' := by
  refine ⟨?_, by cases h <;> rfl⟩
  rw [hs.after]
  cases h with
  | seen => rfl
  | set u => rfl
  | overBudget max size reason =>
    have hx := hs.1
    simp only [Mem.after, Mem.exec] at hx ⊢
    split_ifs with hc
    · rfl
    · rw [if_neg hc] at hx
      cases hx

theorem FolderRule.idles (h : FolderRule cp o x τ τ') (hs : s.Step ok o x s') :
    Idles o x s s' := by
  refine ⟨?_, by cases h <;> rfl⟩
  rw [hs.after]
  cases h <;> rfl

theorem FolderRule.held (h : FolderRule cp o x τ τ') : total (Token.held size) τ' = 0 := by
  cases h <;> simp [Token.held]

theorem ListRule.idles (h : ListRule cp o x τ τ') (hs : s.Step ok o x s') : Idles o x s s' := by
  refine ⟨?_, by cases h <;> rfl⟩
  rw [hs.after]
  cases h <;> rfl

theorem ListRule.held (h : ListRule cp o x τ τ') : total (Token.held size) τ' = 0 := by
  cases h with
  | multiLast => exact total_eq_zero (each_map.mpr fun _ _ => rfl)
  | index => exact total_eq_zero (each_map.mpr fun _ _ => held_entry _ _ _)
  | resolved => rw [total_singleton, held_target]
  | _ => simp [Token.held]

theorem StoreRule.idles (h : StoreRule cp o x τ τ') (hs : s.Step ok o x s') : Idles o x s s' := by
  refine ⟨?_, by cases h <;> rfl⟩
  rw [hs.after]
  cases h <;> rfl

theorem StoreRule.held (h : StoreRule cp o x τ τ') : total (Token.held size) τ' = 0 := by
  cases h <;> simp [Token.held]

theorem RunRule.idles (h : RunRule cp sourceId destParent o x τ τ') (hs : s.Step ok o x s') :
    Idles o x s s' := by
  refine ⟨?_, by cases h <;> rfl⟩
  rw [hs.after]
  cases h <;> rfl

theorem RunRule.held (h : RunRule cp sourceId destParent o x τ τ') : total (Token.held size) τ' = 0 := by
  cases h <;> simp [Token.held, total_held_rootTokens]

theorem CallRule.held {l : Level} (h : CallRule l τ τ') : total (Token.held size) τ' = 0 := by
  cases h
  simp [Token.held]

theorem CopierShift.held (h : CopierShift cp τ τ') : total (Token.held size) τ' = total (Token.held size) τ := by
  cases h with
  | forget h => cases h <;> simp [Token.held]
  | batch group => simp [Token.held]
  | _ => simp [Token.held]

end Rules

/-! ## The budget -/

/-- The answer reports the files of a source listing with their sizes. -/
def reportsSizes (size : String → ℤ) : (o : CopierOp) → o.Out → Bool
  | .ask (.listChildren _ (some _) _), .ok page =>
    page.1.all fun g => (DriveFile.fromApi g).bytes = size g.id
  | .ask (.listChildrenMulti _ _ _), .ok page =>
    page.1.all fun g => (DriveFile.fromApi g).bytes = size g.id
  | .ask (.getMetadata _ fields), .ok data =>
    fields ≠ shortcutFields || (DriveFile.fromApi data).bytes = size data.id
  | _, _ => true

/-- The reservation of a copy that exists is released only when it is empty. -/
def keepsReservation : CopierOp → Bool
  | .mem (.release size (some _)) => size ≤ 0
  | _ => true

/-- The runs over files of fixed sizes. -/
def sizedRuns {V : Service} (size : String → ℤ) : StepCondition V := fun o _ x _ =>
  reportsSizes size o x = true

/-- Of these, the runs that never give up the reservation of a copy that exists. -/
def reservedRuns {V : Service} (size : String → ℤ) : StepCondition V := fun o _ x _ =>
  reportsSizes size o x = true ∧ keepsReservation o = true

/-- The origin of items of known sizes. -/
def sizedOrigin (root : String) (size : String → ℤ) : Origin where
  root := root
  listed _ x := x.bytes = size x.id
  target _ x := x.bytes = size x.id

/-- The balance of a run: what was copied and what is reserved, against the running total
and the budget. -/
def Balanced {V : Service} (cp : Copier) (size : String → ℤ) : Invariant V := fun s past G =>
  copiedTotal size past + total (Token.held size) G ≤ s.mem.runBytes ∧
    (s.mem.runBytes : ℚ) ≤ cp.config.maxCopySizeGb * gib

section Budget

variable {V : Service} {cp : Copier} {size : String → ℤ}

theorem answers_sized (root : String) {o : CopierOp} {x : o.Out}
    (h : reportsSizes size o x = true) : (sizedOrigin root size).Answers o x := by
  cases o with
  | mem o => trivial
  | ask q =>
    cases q with
    | listChildren f ex tok =>
      cases ex with
      | none => trivial
      | some ex =>
        rcases x with e | page
        · trivial
        · simp only [reportsSizes, List.all_eq_true, decide_eq_true_eq] at h
          exact h
    | listChildrenMulti group ex tok =>
      rcases x with e | page
      · trivial
      · simp only [reportsSizes, List.all_eq_true, decide_eq_true_eq] at h
        exact fun g hg _ _ _ => h g hg
    | getMetadata id fields =>
      rcases x with e | data
      · trivial
      · intro hf s hs
        have hb : (DriveFile.fromApi data).bytes = size data.id := by
          simpa [reportsSizes, hf] using h
        exact hb
    | _ => trivial

theorem sized_of_file {root : String} {j : FileJob} (h : (sizedOrigin root size).File j) :
    j.src.bytes = size j.src.id := by
  rcases h with ⟨-, h, -⟩ | ⟨s, -, -, -, h, -⟩
  · exact h
  · exact h

/-- A step that idles keeps the balance when the tokens it leaves hold no more. -/
theorem Balanced.idle {o : CopierOp} {x : o.Out} {s s' : Site V} {past : List (Event copierSig)}
    {G τ τ' : Multiset Token} (h : Balanced cp size s past (G + τ)) (hi : Idles o x s s')
    (hτ : total (Token.held size) τ' ≤ total (Token.held size) τ) :
    Balanced cp size s' (.did o x :: past) (G + τ') := by
  obtain ⟨hsum, hmax⟩ := h
  rw [total_add] at hsum
  refine ⟨?_, by rw [hi.runBytes]; exact hmax⟩
  rw [copiedTotal_cons_none hi.copied, hi.runBytes, total_add]
  linarith

/-- The rules for a file, the only ones that reserve, copy and release. -/
theorem Balanced.file (hsize : ∀ id, 0 ≤ size id) (hmax : 0 < cp.config.maxCopySizeGb)
    {o : CopierOp} {x : o.Out} {s s' : Site V} {past : List (Event copierSig)}
    {G τ τ' : Multiset Token} (hr : FileRule cp o x τ τ') (hs : s.Step (reservedRuns size) o x s')
    (hk : Each (sizedOrigin cp.sourceId size).Knows (G + τ)) (h : Balanced cp size s past (G + τ)) :
    Balanced cp size s' (.did o x :: past) (G + τ') := by
  have hidle (hb : (s.mem.after o).runBytes = s.mem.runBytes) (hc : copiedId (.did o x) = none)
      (hτ : total (Token.held size) τ' ≤ total (Token.held size) τ) :
      Balanced cp size s' (.did o x :: past) (G + τ') :=
    h.idle ⟨by rw [hs.after, hb], hc⟩ hτ
  obtain ⟨hsum, hbound⟩ := id h
  rw [total_add] at hsum
  cases hr with
  | trusted j item =>
    obtain ⟨idx, -, rfl⟩ := hs.trusted
    exact h.idle ⟨rfl, rfl⟩ (by simp [Token.held])
  | distrusted j =>
    obtain ⟨-, rfl⟩ := hs.distrusted
    exact h.idle ⟨rfl, rfl⟩ (by simp [Token.held])
  | matched j item =>
    obtain ⟨idx, -, rfl⟩ := hs.matched
    exact h.idle ⟨rfl, rfl⟩ (by simp [Token.held])
  | missing j =>
    obtain ⟨-, rfl⟩ := hs.missing
    exact h.idle ⟨rfl, rfl⟩ (by simp [Token.held])
  | existing j item u => exact hidle rfl rfl (by simp [Token.held])
  | tooLarge j it u hl ha => exact hidle rfl rfl (by simp [Token.held])
  | wouldCopy j u hd => exact hidle rfl rfl (by simp [Token.held])
  | reserved j reason hd hl =>
    have hj : j.src.bytes = size j.src.id := by
      refine sized_of_file (each_singleton.mp (each_add.mp hk).2)
    obtain ⟨hfit, rfl⟩ := hs.reserved
    refine ⟨?_, hfit hmax⟩
    rw [copiedTotal_cons_none rfl, total_add]
    simp only [total_singleton, Token.held] at hsum ⊢
    linarith
  | copied j vis rev newId =>
    refine ⟨?_, by rw [hs.after]; exact hbound⟩
    rw [copiedTotal_cons_some rfl, hs.after, total_add]
    simp only [total_singleton, Token.held, Mem.after] at hsum ⊢
    linarith
  | refused j vis rev e => exact hidle rfl rfl (by simp [Token.held])
  | returned j u =>
    have hj : j.src.bytes = size j.src.id :=
      sized_of_file (each_singleton.mp (each_add.mp hk).2)
    obtain ⟨-, rfl, -⟩ := hs
    simp only [total_singleton, Token.held] at hsum
    refine ⟨?_, ?_⟩
    · rw [copiedTotal_cons_none rfl, total_add]
      simp only [total_singleton, Token.held, Mem.exec]
      linarith
    · have hle : s.mem.runBytes - j.src.bytes ≤ s.mem.runBytes := by
        have := hsize j.src.id
        omega
      exact le_trans (Int.cast_le.mpr hle) hbound
  | verified j id data hid hc => exact hidle rfl rfl (by simp [Token.held])
  | unreadable j id e => exact hidle rfl rfl (by simp [Token.held])
  | rejected j id data detail hc => exact hidle rfl rfl (by simp [Token.held])
  | withdrawn j detail u =>
    -- The condition leaves only empty files here, whose release changes nothing.
    have hj : j.src.bytes = size j.src.id :=
      sized_of_file (each_singleton.mp (each_add.mp hk).2)
    have hzero : j.src.bytes = 0 := le_antisymm (by simpa [keepsReservation] using hs.2.2.2) (by rw [hj]; exact hsize _)
    refine hidle ?_ rfl (by simp [Token.held])
    simp only [Mem.after, Mem.exec, hzero, sub_zero]
  | marked j id u => exact hidle rfl rfl (by simp [Token.held])
  | failed j it u ha => exact hidle rfl rfl (by simp [Token.held])
  | invalid j it u ha => exact hidle rfl rfl (by simp [Token.held, hsize])
  | reconciled j u => exact hidle rfl rfl (by simp [Token.held])
  | needed j => exact hidle rfl rfl (by simp [Token.held])
  | unneeded j => exact hidle rfl rfl (by simp [Token.held])

theorem Balanced.keeps (hsize : ∀ id, 0 ≤ size id) (hmax : 0 < cp.config.maxCopySizeGb) :
    Keeps (V := V) cp (reservedRuns size) (fun _ _ G => Each (sizedOrigin cp.sourceId size).Knows G)
      (Balanced cp size) where
  quiet {_ _ _ _ past G} hr hs _ h := by
    have h₀ := (by simpa using h : Balanced (V := V) cp size _ past (G + 0)).idle
      (hr.idles hs) le_rfl
    simpa using h₀
  stop _ hr hs _ h := h.idle (hr.idles hs) (by simpa [Token.held] using total_held_nonneg hsize)
  file hr hs hk h := h.file hsize hmax hr hs hk
  folder hr hs _ h := h.idle (hr.idles hs) (by rw [hr.held]; exact total_held_nonneg hsize)
  list hr hs _ h := h.idle (hr.idles hs) (by rw [hr.held]; exact total_held_nonneg hsize)
  store hr hs _ h := h.idle (hr.idles hs) (by rw [hr.held]; exact total_held_nonneg hsize)
  run hr hs _ h := h.idle (hr.idles hs) (by rw [hr.held]; exact total_held_nonneg hsize)
  solo hs _ h := by
    rw [hs.clear.2]
    obtain ⟨hsum, hbound⟩ := h
    refine ⟨?_, hbound⟩
    rw [copiedTotal_cons_none rfl]
    simpa [Token.held, total_held_rootTokens] using hsum
  call {_ _ _ _ τ _} hc _ h := by
    obtain ⟨hsum, hbound⟩ := h
    rw [total_add] at hsum
    have hτ : 0 ≤ total (Token.held size) τ := total_held_nonneg hsize
    refine ⟨?_, hbound⟩
    rw [copiedTotal_cons_none rfl, total_add, hc.held]
    linarith
  shift hc _ h := by
    obtain ⟨hsum, hbound⟩ := h
    refine ⟨?_, hbound⟩
    rw [total_add, hc.held, ← total_add]
    exact hsum
  env _ _ h := h

/-- In a run that never releases the reservation of a copy it made, the server copies no
more than the budget, whatever the schedule and the errors. -/
theorem copied_within_budget (hsize : ∀ id, 0 ≤ size id) (hmax : 0 < cp.config.maxCopySizeGb)
    (now : String) (d : V.State)
    {c : Config (cp.runs V (reservedRuns size)) (Except Exc CopyResult)}
    (h : Reach (cp.runs V (reservedRuns size))
      (start (cp.runs V (reservedRuns size)) cp.run ⟨cp.freshMem now, d⟩ []) c) :
    (copiedTotal size c.world.trace : ℚ) ≤ cp.config.maxCopySizeGb * gib := by
  have hk : Keeps (V := V) cp (reservedRuns size) Always
      fun _ _ G => Each (sizedOrigin cp.sourceId size).Knows G :=
    Origin.keeps (O := fun _ => sizedOrigin cp.sourceId size) (fun _ => by rw [sizedOrigin])
      (fun _ _ => ⟨rfl, fun h => h, fun h => h⟩)
      fun hs => answers_sized cp.sourceId hs.permitted.1
  have hgib : (0 : ℚ) < gib := by norm_num [gib]
  have hstart : Balanced cp size (⟨cp.freshMem now, d⟩ : Site V) [] {.idle, .begin} := by
    refine ⟨by simp [copiedTotal, Token.held, Copier.freshMem], ?_⟩
    simpa [Copier.freshMem] using (mul_pos hmax hgib).le
  obtain ⟨⟨G, -, hsum, hbound⟩, -⟩ :=
    (hk.both (Balanced.keeps hsize hmax)).throughout ⟨by simp [Origin.Knows], hstart⟩ h
  have hG : 0 ≤ total (Token.held size) G := total_held_nonneg hsize
  have hle : copiedTotal size c.world.trace ≤ c.world.state.mem.runBytes := by linarith
  exact le_trans (Int.cast_le.mpr hle) hbound

end Budget

/-! ## Two copies within a budget for one -/

/-- Two files of one gibibyte each. -/
def pairDrive : Drive where
  nodes := [folderNode "sourcefolder" "Source" [], folderNode "targetfolder" "Target" [],
    fileNode "first" "a" ["sourcefolder"] "1073741824" "m1",
    fileNode "second" "b" ["sourcefolder"] "1073741824" "m2"]
  nodup := by decide

def pairSizes (id : String) : ℤ := if id = "first" ∨ id = "second" then 1073741824 else 0

def pairCopier : Copier :=
  { smallCopier with config := { smallCopier.config with maxCopySizeGb := 1 } }

def pairStart (ok : StepCondition (Drive.service openProfile)) :
    Config (pairCopier.runs (Drive.service openProfile) ok) (Except Exc CopyResult) :=
  start _ pairCopier.run ⟨pairCopier.freshMem "", pairDrive⟩ []

/-- The run in which the action number `k` raises, as far as its steps pass the check. -/
def pairRun (ok : StepCondition (Drive.service openProfile)) (k : ℕ)
    (check : (o : CopierOp) → o.Out → Bool) :
    Config (pairCopier.runs (Drive.service openProfile) ok) (Except Exc CopyResult) :=
  let plan : Plan := { raise := fun n => if n = k then some Drive.notFound else none }
  replay (plan.script pairCopier openProfile ok (fun _ => true) fun o _ x _ => check o x) 200
    (pairStart ok)

theorem pairRun_reach {ok : StepCondition (Drive.service openProfile)} {k : ℕ}
    {check : (o : CopierOp) → o.Out → Bool} (h : ∀ o s x s', check o x = true → ok o s x s') :
    Reach _ (pairStart ok) (pairRun ok k check) :=
  replay_reach (Plan.legal (openProfile_admits fun _ => rfl) h) 200 _

/-- The copy of the first file is refused; the second file is copied within the budget. -/
theorem copied_within_budget_pair :
    copiedTotal pairSizes (pairRun (reservedRuns pairSizes) 25
      fun o x => reportsSizes pairSizes o x && keepsReservation o).world.trace = 1073741824 ∧
    (copiedTotal pairSizes (pairRun (reservedRuns pairSizes) 25
      fun o x => reportsSizes pairSizes o x && keepsReservation o).world.trace : ℚ) ≤
        pairCopier.config.maxCopySizeGb * gib := by
  refine ⟨by decide +kernel, copied_within_budget ?_ (by decide) "" pairDrive (pairRun_reach ?_)⟩
  · intro id
    unfold pairSizes
    split_ifs <;> decide
  · intro o s x s' h
    exact Bool.and_eq_true_iff.mp h

/-- The first copy exists but cannot be read, and its reservation pays for the second. -/
theorem budget_exceeded : ∃ c : Config (pairCopier.runs (Drive.service openProfile)
      (sizedRuns pairSizes)) (Except Exc CopyResult), Reach _ (pairStart (sizedRuns pairSizes)) c ∧
    ¬(copiedTotal pairSizes c.world.trace : ℚ) ≤ pairCopier.config.maxCopySizeGb * gib :=
  ⟨pairRun (sizedRuns pairSizes) 26 (reportsSizes pairSizes), pairRun_reach fun _ _ _ _ h => h,
    by decide +kernel⟩

end TurboCopy
