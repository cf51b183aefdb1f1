import TurboCopy.Copier.Replay

/-!
# Every item has one outcome

A file or shortcut of a processed listing is a duty of some token until it is copied,
skipped or recorded as failed. Weighing items, tokens and outcomes in a commutative
monoid gives a balance that every rule keeps, so a run that completed has an outcome for
each item: counted in the natural numbers, and by its id in the multisets of ids.
-/

namespace TurboCopy

open Threads

/-! ## What the history says -/

section History

variable {M : Type} [AddCommMonoid M] (w : String → M)

/-- The files and shortcuts of a level. -/
def Level.items (l : Level) : List DriveFile := l.children.filter fun x => !x.isFolder

def Level.weight (l : Level) : M := (l.items.map fun x => w x.id).sum

/-- The weight of the items an event puts before the traversal. -/
def itemsOf : Event copierSig → M
  | .entered l => l.weight w
  | _ => 0

/-- The weight of the outcome an event is. -/
def outcomeOf : Event copierSig → M
  | .did (.mem (.markCopied eff _)) _ => w eff
  | .did (.mem (.recordExisting eff)) _ => w eff
  | .did (.mem (.trustResume _ eff _)) (some _) => w eff
  | .did (.mem (.recordFailed it)) _ =>
    if it.mimeType = folderMime then 0 else w (it.effectiveSourceId.getD "")
  | _ => 0

/-- The target of a shortcut turned out to be a folder. -/
def leadsToFolder : Event copierSig → ℕ
  | .did (.ask (.getMetadata _ fields)) (.ok data) =>
    if fields = shortcutFields ∧ data.mimeType = folderMime then 1 else 0
  | _ => 0

def itemWeight (past : List (Event copierSig)) : M := (past.map (itemsOf w)).sum

def outcomeWeight (past : List (Event copierSig)) : M := (past.map (outcomeOf w)).sum

/-- How many shortcuts led to a folder. -/
def folderShortcuts (past : List (Event copierSig)) : ℕ := (past.map leadsToFolder).sum

/-- What a token still owes. -/
def Token.owes : Token → M
  | .file _ .settled => 0
  | .file j _ => w j.eff
  | .shortcut _ _ src => w src.id
  | .broken _ src => w src.id
  | .level l => l.weight w
  | .indexing l _ _ => l.weight w
  | .indexed l _ => l.weight w
  | _ => 0

variable {w} {G τ : Multiset Token}

@[simp] theorem itemWeight_cons {e : Event copierSig} {past : List (Event copierSig)} :
    itemWeight w (e :: past) = itemsOf w e + itemWeight w past := by
  rw [itemWeight, List.map_cons, List.sum_cons, itemWeight]

@[simp] theorem outcomeWeight_cons {e : Event copierSig} {past : List (Event copierSig)} :
    outcomeWeight w (e :: past) = outcomeOf w e + outcomeWeight w past := by
  rw [outcomeWeight, List.map_cons, List.sum_cons, outcomeWeight]

@[simp] theorem folderShortcuts_cons {e : Event copierSig} {past : List (Event copierSig)} :
    folderShortcuts (e :: past) = leadsToFolder e + folderShortcuts past := by
  rw [folderShortcuts, List.map_cons, List.sum_cons, folderShortcuts]

/-- The children of a level owe together what the level owed. -/
theorem total_owes_entries (l : Level) (index : ℕ) :
    total (Token.owes w) (Multiset.map (Token.entry l index) l.children) = l.weight w := by
  have hentry (x : DriveFile) :
      (Token.entry l index x).owes w = if x.isFolder then 0 else w x.id := by
    unfold Token.entry
    by_cases hs : x.isShortcut = true
    · rw [if_pos hs, DriveFile.not_isFolder_of_isShortcut hs]
      rfl
    · rw [if_neg hs]
      split_ifs <;> rfl
  have hsum (xs : List DriveFile) : total (Token.owes w) (Multiset.map (Token.entry l index) xs) =
      ((xs.filter fun x => !x.isFolder).map fun x => w x.id).sum := by
    induction xs with
    | nil => rfl
    | cons x xs ih =>
      rw [← Multiset.cons_coe, Multiset.map_cons, total_cons, ih, hentry, List.filter_cons]
      cases x.isFolder with
      | true => simp
      | false => simp
  exact hsum l.children

end History

/-! ## Idle steps -/

/-- The copies, skips and failures of items that a result counts. -/
def CopyResult.outcomes (r : CopyResult) : ℕ :=
  r.copiedCount + r.skippedCount + (r.failedItems.filter fun f => f.mimeType ≠ folderMime).length

section Rules

variable {V : Service} {ok : StepCondition V} {cp : Copier} {sourceId destParent : String}
  {o : CopierOp} {x : o.Out} {s s' : Site V} {τ τ' : Multiset Token}
  {M : Type} [AddCommMonoid M] {w : String → M}

/-- A step that counts nothing. -/
structure Uncounted (o : CopierOp) (x : o.Out) (s s' : Site V) : Prop where
  outcomes : s'.mem.result.outcomes = s.mem.result.outcomes
  event : ∀ {M : Type} [AddCommMonoid M] (w : String → M), outcomeOf w (.did o x) = 0
  resolves : leadsToFolder (.did o x) = 0

theorem CopyResult.outcomes_failed_folder (r : CopyResult) {it : FailedItem}
    (h : it.mimeType = folderMime) :
    ({ r with failedItems := r.failedItems ++ [it] } : CopyResult).outcomes = r.outcomes := by
  simp [CopyResult.outcomes, List.filter_append, h]

theorem CopyResult.outcomes_failed_item (r : CopyResult) {it : FailedItem}
    (h : it.mimeType ≠ folderMime) :
    ({ r with failedItems := r.failedItems ++ [it] } : CopyResult).outcomes = r.outcomes + 1 := by
  simp [CopyResult.outcomes, List.filter_append, h, Nat.add_assoc]

theorem QuietRule.uncounted (h : QuietRule o x) (hs : s.Step ok o x s') : Uncounted o x s s' := by
  cases h with
  | beginSave force b =>
    refine ⟨?_, fun _ => rfl, rfl⟩
    rw [hs.after]
    simp only [Mem.after, Mem.exec]
    split_ifs <;> rfl
  | failedFolder it h u =>
    refine ⟨?_, fun _ => ?_, rfl⟩
    · rw [hs.after]
      exact CopyResult.outcomes_failed_folder _ h
    · exact if_pos h
  | getMetadata id fields h r =>
    refine ⟨by rw [hs.after]; rfl, fun _ => rfl, ?_⟩
    rcases r with e | data
    · rfl
    · exact if_neg fun hf => h hf.1
  | _ => exact ⟨by rw [hs.after]; rfl, fun _ => rfl, rfl⟩

theorem StopRule.uncounted (h : StopRule o x) (hs : s.Step ok o x s') : Uncounted o x s s' := by
  refine ⟨?_, fun _ => by cases h <;> rfl, by cases h <;> rfl⟩
  rw [hs.after]
  cases h with
  | overBudget max size reason =>
    simp only [Mem.after, Mem.exec]
    split_ifs <;> rfl
  | _ => rfl

theorem verifyFields_ne : verifyFields ≠ shortcutFields := by decide

theorem FolderRule.uncounted (h : FolderRule cp o x τ τ') (hs : s.Step ok o x s') :
    Uncounted o x s s' := by
  cases h with
  | recorded j it u h =>
    refine ⟨?_, fun _ => if_pos h, rfl⟩
    rw [hs.after]
    exact CopyResult.outcomes_failed_folder _ h
  | _ => exact ⟨by rw [hs.after]; rfl, fun _ => rfl, rfl⟩

theorem FolderRule.owed (h : FolderRule cp o x τ τ') : total (Token.owes w) τ = 0 ∧ total (Token.owes w) τ' = 0 := by
  cases h <;> simp [Token.owes]

theorem StoreRule.uncounted (h : StoreRule cp o x τ τ') (hs : s.Step ok o x s') :
    Uncounted o x s s' := by
  cases h <;> exact ⟨by rw [hs.after]; rfl, fun _ => rfl, rfl⟩

theorem StoreRule.owed (h : StoreRule cp o x τ τ') : total (Token.owes w) τ = 0 ∧ total (Token.owes w) τ' = 0 := by
  cases h <;> simp [Token.owes]

theorem RunRule.uncounted (h : RunRule cp sourceId destParent o x τ τ') (hs : s.Step ok o x s') :
    Uncounted o x s s' := by
  cases h <;> exact ⟨by rw [hs.after]; rfl, fun _ => rfl, rfl⟩

theorem total_owes_rootTokens (d : Option String) : total (Token.owes w) (rootTokens d) = 0 :=
  total_eq_zero (each_rootTokens fun _ => rfl)

theorem RunRule.owed (h : RunRule cp sourceId destParent o x τ τ') :
    total (Token.owes w) τ = 0 ∧ total (Token.owes w) τ' = 0 := by
  cases h <;> simp [Token.owes, total_owes_rootTokens]

theorem CallRule.owed {l : Level} (h : CallRule l τ τ') : total (Token.owes w) τ = 0 ∧ total (Token.owes w) τ' = l.weight w := by
  cases h
  simp [Token.owes]

theorem CopierShift.owed (h : CopierShift cp τ τ') : total (Token.owes w) τ' = total (Token.owes w) τ := by
  cases h with
  | forget h => cases h <;> simp [Token.owes]
  | batch group => simp [Token.owes]
  | _ => simp [Token.owes]

end Rules

/-! ## Tokens belong to entered levels -/

/-- The items of a token are in a level that was entered. -/
def Token.Within (past : List (Event copierSig)) : Token → Prop
  | .file j _ => j.src.isFolder = false
  | .shortcut l _ src => .entered l ∈ past ∧ src ∈ l.children ∧ src.isShortcut = true
  | .broken l src => .entered l ∈ past ∧ src ∈ l.children ∧ src.isShortcut = true
  | .level l => .entered l ∈ past
  | .indexing l _ _ => .entered l ∈ past
  | .indexed l _ => .entered l ∈ past
  | _ => True

theorem Token.Within.mono {past : List (Event copierSig)} {e : Event copierSig} {t : Token}
    (h : t.Within past) : t.Within (e :: past) := by
  cases t <;> simp_all [Token.Within]

section Within

variable {V : Service} {ok : StepCondition V} {cp : Copier}

theorem within_entry {past : List (Event copierSig)} {l : Level} {index : ℕ} {src : DriveFile}
    (hl : .entered l ∈ past) (hs : src ∈ l.children) : (Token.entry l index src).Within past := by
  unfold Token.entry
  split_ifs with h₁ h₂
  · exact ⟨hl, hs, h₁⟩
  · trivial
  · simpa [Token.Within] using h₂

theorem within_target (past : List (Event copierSig)) (l : Level) (index : ℕ)
    (src target : DriveFile) : (Token.target l index src target).Within past := by
  unfold Token.target
  split_ifs with h
  · trivial
  · simpa [Token.Within] using h

theorem within_keeps : KeepsEach (V := V) cp ok Always fun _ past => Token.Within past where
  stable _ _ h := h.mono
  enters h := h.mono
  requests _ h := h
  stopped := trivial
  complete := trivial
  file hr _ _ h := by
    cases hr <;> simp_all [Token.Within]
  folder hr _ _ h := by
    cases hr <;> simp [Token.Within]
  list hr _ _ h := by
    cases hr with
    | multiLast group out tok files => simp [listedIn, Each, Token.Within]
    | resolved l index src target data ht => exact each_singleton.mpr (within_target _ _ _ _ _)
    | index l items i =>
      have hl := each_singleton.mp h
      exact each_map.mpr fun src hs => within_entry (List.mem_cons_of_mem _ hl) hs
    | _ => simp_all [Token.Within]
  store hr _ _ h := by
    cases hr <;> simp [Token.Within]
  run hr _ _ h := by
    cases hr with
    | destRoot name d u =>
      exact each_add.mpr ⟨each_singleton.mpr trivial, each_rootTokens fun _ => trivial⟩
    | _ => simp [Token.Within]
  call hc _ h := by
    cases hc
    simp [Token.Within]
  shift hc _ h := by
    cases hc with
    | batch group => exact each_add.mpr ⟨h, each_singleton.mpr trivial⟩
    | _ => simp_all [Token.Within]

end Within

/-! ## The balance -/

/-- The traversal has put only items with `good` ids before the engine. -/
def GoodItems (good : String → Prop) (past : List (Event copierSig)) : Prop :=
  ∀ l, .entered l ∈ past → ∀ x ∈ l.children, good x.id

/-- An id of a shortcut in an entered level. -/
def ShortcutId (past : List (Event copierSig)) (id : String) : Prop :=
  ∃ l, .entered l ∈ past ∧ ∃ src ∈ l.children, src.isShortcut = true ∧ src.id = id

/-- Outcomes, open duties and the shortcuts `X` that led to folders make up the items. -/
def Balance {M : Type} [AddCommMonoid M] (w : String → M) (past : List (Event copierSig))
    (G : Multiset Token) : Prop :=
  ∃ X : Multiset String, X.card = folderShortcuts past ∧ (∀ id ∈ X, ShortcutId past id) ∧
    outcomeWeight w past + total (Token.owes w) G + (X.map w).sum = itemWeight w past

section Balance

variable {V : Service} {ok : StepCondition V} {cp : Copier} {M : Type} [AddCommMonoid M]
  {w : String → M} {good : String → Prop} {past : List (Event copierSig)} {e : Event copierSig}
  {G τ τ' : Multiset Token} {o : CopierOp} {x : o.Out} {s s' : Site V}

theorem GoodItems.tail (h : GoodItems good (e :: past)) : GoodItems good past :=
  fun l hl => h l (List.mem_cons_of_mem _ hl)

theorem ShortcutId.mono {id : String} (h : ShortcutId past id) : ShortcutId (e :: past) id := by
  obtain ⟨l, hl, h⟩ := h
  exact ⟨l, List.mem_cons_of_mem _ hl, h⟩

/-- One event, with the shortcuts `Y` it sends to folders. -/
theorem Balance.step (h : Balance w past (G + τ)) (Y : Multiset String)
    (hY : Y.card = leadsToFolder e) (hid : ∀ id ∈ Y, ShortcutId past id)
    (heq : outcomeOf w e + total (Token.owes w) τ' + (Y.map w).sum = itemsOf w e + total (Token.owes w) τ) :
    Balance w (e :: past) (G + τ') := by
  obtain ⟨X, hX, hXid, hsum⟩ := h
  refine ⟨Y + X, by rw [Multiset.card_add, hY, hX, folderShortcuts_cons], ?_, ?_⟩
  · intro id hm
    rcases Multiset.mem_add.mp hm with hm | hm
    · exact (hid id hm).mono
    · exact (hXid id hm).mono
  · rw [outcomeWeight_cons, itemWeight_cons, total_add, Multiset.map_add, Multiset.sum_add, ← hsum,
      total_add]
    calc outcomeOf w e + outcomeWeight w past + (total (Token.owes w) G + total (Token.owes w) τ') +
          ((Y.map w).sum + (X.map w).sum)
        = (outcomeOf w e + total (Token.owes w) τ' + (Y.map w).sum) +
            (outcomeWeight w past + total (Token.owes w) G + (X.map w).sum) := by abel
      _ = itemsOf w e + total (Token.owes w) τ + (outcomeWeight w past + total (Token.owes w) G + (X.map w).sum) := by rw [heq]
      _ = itemsOf w e + (outcomeWeight w past + (total (Token.owes w) G + total (Token.owes w) τ) + (X.map w).sum) := by abel

/-- An event that sends no shortcut to a folder. -/
theorem Balance.plain (h : Balance w past (G + τ)) (hY : leadsToFolder e = 0)
    (heq : outcomeOf w e + total (Token.owes w) τ' = itemsOf w e + total (Token.owes w) τ) :
    Balance w (e :: past) (G + τ') :=
  h.step 0 (by rw [hY]; rfl) (fun id hm => absurd hm (Multiset.notMem_zero id))
    (by rw [Multiset.map_zero, Multiset.sum_zero, add_zero, heq])

theorem Balance.uncounted (h : Balance w past (G + τ)) (hu : Uncounted o x s s')
    (hτ : total (Token.owes w) τ' = total (Token.owes w) τ) : Balance w (.did o x :: past) (G + τ') :=
  h.plain hu.resolves (by rw [hu.event, hτ]; rfl)

theorem Balance.file (hr : FileRule cp o x τ τ') (hd : cp.config.dryRun = false)
    (hk : Each (Token.Within past) τ) (h : Balance w past (G + τ)) :
    Balance w (.did o x :: past) (G + τ') := by
  have hitem {j : FileJob} {it : FailedItem} {st : FileStage}
      (ha : it.About j.src j.eff) (hw : Each (Token.Within past) {.file j st}) (u : Unit) :
      outcomeOf w (.did (.mem (.recordFailed it)) u) = w j.eff := by
    have hf : j.src.isFolder = false := each_singleton.mp hw
    have hm : it.mimeType ≠ folderMime := by
      rw [ha.mimeType]
      simpa [DriveFile.isFolder] using hf
    simp only [outcomeOf, if_neg hm, ha.effectiveSourceId, Option.getD_some]
  have hread {id : String} (r : Except ApiError ApiFile) :
      leadsToFolder (.did (.ask (.getMetadata id verifyFields)) r) = 0 := by
    rcases r with e | data
    · rfl
    · simp [leadsToFolder, verifyFields_ne]
  cases hr with
  | tooLarge j it u hl ha =>
    refine h.plain rfl ?_
    rw [hitem ha hk]
    simp [Token.owes, itemsOf]
  | wouldCopy j u hdry => exact absurd hdry (by rw [hd]; simp)
  | failed j it u ha =>
    refine h.plain rfl ?_
    rw [hitem ha hk]
    simp [Token.owes, itemsOf]
  | invalid j it u ha =>
    refine h.plain rfl ?_
    rw [hitem ha hk]
    simp [Token.owes, itemsOf]
  | verified j id data hid hc => exact h.plain (hread _) (by simp [Token.owes, itemsOf, outcomeOf])
  | unreadable j id e => exact h.plain (hread _) (by simp [Token.owes, itemsOf, outcomeOf])
  | rejected j id data detail hc =>
    exact h.plain (hread _) (by simp [Token.owes, itemsOf, outcomeOf])
  | _ => exact h.plain rfl (by simp [Token.owes, itemsOf, outcomeOf])

theorem Balance.list (hr : ListRule cp o x τ τ')
    (hw : ∀ a b, good a → w (orElse (some a) b) = w a) (hg : GoodItems good past)
    (hk : Each (Token.Within past) τ) (h : Balance w past (G + τ)) :
    Balance w (.did o x :: past) (G + τ') := by
  cases hr with
  | multiLast group out tok files =>
    refine h.plain rfl ?_
    rw [listedIn, total_eq_zero (each_map.mpr fun _ _ => rfl)]
    simp [Token.owes, itemsOf, outcomeOf]
  | resolved l index src target data ht =>
    obtain ⟨hl, hs, hsc⟩ := each_singleton.mp hk
    have hfold : ({ DriveFile.fromApi data with name := src.name } : DriveFile).isFolder =
        decide (data.mimeType = folderMime) := rfl
    by_cases hf : data.mimeType = folderMime
    · -- The shortcut leaves the balance of items.
      refine h.step {src.id} ?_ ?_ ?_
      · simp [leadsToFolder, hf]
      · intro id hid
        rw [Multiset.mem_singleton.mp hid]
        exact ⟨l, hl, src, hs, hsc, rfl⟩
      · rw [total_singleton, Token.target, if_pos (by rw [hfold]; simpa using hf)]
        simp [Token.owes, itemsOf, outcomeOf]
    · refine h.plain (if_neg fun hc => hf hc.2) ?_
      rw [total_singleton, Token.target, if_neg (by rw [hfold]; simpa using hf)]
      simp only [Token.owes, itemsOf, outcomeOf, total_singleton, FileJob.eff, zero_add]
      exact hw _ _ (hg l hl src hs)
  | reported l src it u ha =>
    obtain ⟨hl, hs, hsc⟩ := each_singleton.mp hk
    have hm : it.mimeType ≠ folderMime := by
      have hf := DriveFile.not_isFolder_of_isShortcut hsc
      rw [ha.mimeType]
      simpa [DriveFile.isFolder] using hf
    refine h.plain rfl ?_
    simp [Token.owes, itemsOf, outcomeOf, hm, ha.effectiveSourceId]
  | index l items i =>
    refine h.plain rfl ?_
    rw [total_owes_entries]
    simp [Token.owes, itemsOf, outcomeOf]
  | inaccessible l index src target e ht =>
    exact h.plain rfl (by simp [Token.owes, itemsOf, outcomeOf])
  | _ => exact h.plain rfl (by simp [Token.owes, itemsOf, outcomeOf])

end Balance

/-! ## Runs -/

/-- Tokens that stand for no work on items: those of the store, of the end of a run, and the
listing of no folder. -/
def Token.closed : Token → Bool
  | .rootAt _ | .scan _ _ _ | .merging _ _ | .reading _ _ _ _ | .own _ | .saving _ | .writing _ _
  | .logged _ | .stopped | .complete | .returned _ | .batch [] _ _ => true
  | _ => false

section Closed

variable {cp : Copier} {sourceId destParent : String} {o : CopierOp} {x : o.Out}
  {G τ τ' : Multiset Token} {M : Type} [AddCommMonoid M] {w : String → M}

abbrev AllClosed (G : Multiset Token) : Prop := Each (fun t => t.closed = true) G

theorem AllClosed.owed (h : AllClosed G) : total (Token.owes w) G = 0 :=
  total_eq_zero (h.mono fun t ht => by cases t <;> first | rfl | exact nomatch ht)

theorem FileRule.not_closed (h : FileRule cp o x τ τ') : ¬AllClosed τ := by
  intro hc
  cases h <;> simp [Token.closed] at hc

theorem FolderRule.not_closed (h : FolderRule cp o x τ τ') : ¬AllClosed τ := by
  intro hc
  cases h <;> simp [Token.closed] at hc

/-- Without open work only the listing of no folder can go on. -/
theorem ListRule.closed {V : Service} {ok : StepCondition V} {s s' : Site V}
    (h : ListRule cp o x τ τ') (hs : s.Step ok o x s') (hc : AllClosed τ) :
    Uncounted o x s s' ∧ AllClosed τ' := by
  cases h with
  | multiPage group out tok files t =>
    cases group with
    | nil => exact ⟨⟨by rw [hs.after]; rfl, fun _ => rfl, rfl⟩, each_singleton.mpr rfl⟩
    | cons f group => simp [Token.closed] at hc
  | multiLast group out tok files =>
    cases group with
    | nil => exact ⟨⟨by rw [hs.after]; rfl, fun _ => rfl, rfl⟩, each_zero⟩
    | cons f group => simp [Token.closed] at hc
  | multiFailed group out tok e =>
    exact ⟨⟨by rw [hs.after]; rfl, fun _ => rfl, rfl⟩, each_zero⟩
  | _ => simp [Token.closed] at hc

theorem CallRule.not_closed {l : Level} (h : CallRule l τ τ') : ¬AllClosed τ := by
  intro hc
  cases h
  simp [Token.closed] at hc

theorem StoreRule.closed (h : StoreRule cp o x τ τ') : AllClosed τ' := by
  cases h <;> simp [Token.closed]

theorem CopierShift.closed (h : CopierShift cp τ τ') (hc : AllClosed τ) : AllClosed τ' := by
  cases h with
  | batch group =>
    cases group with
    | nil => exact each_add.mpr ⟨hc, each_singleton.mpr rfl⟩
    | cons f group => exact nomatch hc (.reach f) (by simp)
  | _ => simp_all [Token.closed]

/-- A token that does not say that the run is complete. -/
def Token.early : Token → Bool
  | .complete => false
  | .returned r => !r.completed
  | _ => true

abbrev AllEarly (G : Multiset Token) : Prop := Each (fun t => t.early = true) G

theorem Token.early_of_ongoing {t : Token} (h : t.final = false) : t.early = true := by
  cases t <;> first | rfl | exact nomatch h

theorem AllEarly.of_ongoing (h : Ongoing G) : AllEarly G := h.mono fun _ => Token.early_of_ongoing

theorem CopierShift.early (h : CopierShift cp τ τ') (he : AllEarly τ) : AllEarly τ' := by
  intro t ht
  cases hf : t.final with
  | false => exact Token.early_of_ongoing hf
  | true => exact he t (h.ongoing hf ht)

end Closed

/-- Before the traversal is complete: nothing says it is, and unless a stop is on its way
the items balance. -/
structure Working {V : Service} {M : Type} [AddCommMonoid M] (w : String → M)
    (good : String → Prop) (s : Site V) (past : List (Event copierSig)) (G : Multiset Token) :
    Prop where
  early : AllEarly G
  completed : s.mem.result.completed = false
  balance : s.mem.stop = true ∨ (GoodItems good past → Balance w past G)

/-- After it: no token stands for work, the items balance, and a returned result counts
what the memory counts. -/
structure Done {V : Service} {M : Type} [AddCommMonoid M] (w : String → M)
    (good : String → Prop) (s : Site V) (past : List (Event copierSig)) (G : Multiset Token) :
    Prop where
  closed : AllClosed G
  balance : GoodItems good past → Balance w past G
  returned : ∀ r, .returned r ∈ G → r.outcomes = s.mem.result.outcomes

def Tallied {V : Service} {M : Type} [AddCommMonoid M] (w : String → M) (good : String → Prop) :
    Invariant V := fun s past G => Working w good s past G ∨ Done w good s past G

section Runs

variable {V : Service} {ok : StepCondition V} {cp : Copier} {M : Type} [AddCommMonoid M]
  {w : String → M} {good : String → Prop} {past : List (Event copierSig)} {G τ τ' : Multiset Token}
  {o : CopierOp} {x : o.Out} {s s' : Site V} {sourceId destParent : String}

/-- A rule of the working phase. -/
theorem Working.step (h : Working w good s past (G + τ)) (hs : s.Step ok o x s')
    (he : AllEarly τ') (hc : s'.mem.result.completed = false)
    (hbal : s'.mem.stop = true ∨
      (GoodItems good past → Balance w past (G + τ) → Balance w (.did o x :: past) (G + τ'))) :
    Working w good s' (.did o x :: past) (G + τ') where
  early := each_add.mpr ⟨(each_add.mp h.early).1, he⟩
  completed := hc
  balance := by
    rcases hbal with hstop | hbal
    · exact .inl hstop
    · exact h.balance.imp hs.stop_mono fun hb hg => hbal hg.tail (hb hg.tail)

/-- A rule of the last phase. -/
theorem Done.step (h : Done w good s past (G + τ)) (hu : Uncounted o x s s') (hc : AllClosed τ')
    (hret : ∀ r, .returned r ∈ τ' → r.outcomes = s.mem.result.outcomes) :
    Done w good s' (.did o x :: past) (G + τ') where
  closed := each_add.mpr ⟨(each_add.mp h.closed).1, hc⟩
  balance hg := (h.balance hg.tail).uncounted hu
    (by rw [AllClosed.owed hc, AllClosed.owed (each_add.mp h.closed).2])
  returned r hm := by
    rw [hu.outcomes]
    rcases Multiset.mem_add.mp hm with hG | hτ
    · exact h.returned r (Multiset.mem_add.mpr (.inl hG))
    · exact hret r hτ

/-- The result says that the run is complete only when `_finalize` does. -/
theorem Site.Step.completed (hs : s.Step ok o x s') (ho : o ≠ .mem (.setCompleted true))
    (hc : s.mem.result.completed = false) : s'.mem.result.completed = false := by
  rw [hs.after]
  cases o with
  | ask q => exact hc
  | mem o =>
    cases o with
    | setCompleted b =>
      cases b with
      | false => rfl
      | true => exact absurd rfl ho
    | _ =>
      simp only [Mem.after, Mem.exec]
      (try split) <;> simp_all [Mem.setIndex, Mem.reconcile, Mem.mergeResume, Mem.recordTreeNode]

/-- The rules that count no item and leave no duty behind. -/
theorem Tallied.run (hr : RunRule cp sourceId destParent o x τ τ') (hs : s.Step ok o x s')
    (h : Tallied w good s past (G + τ)) : Tallied w good s' (.did o x :: past) (G + τ') := by
  have hu := hr.uncounted hs
  have hb (_ : GoodItems good past) (hb : Balance w past (G + τ)) :
      Balance w (.did o x :: past) (G + τ') := hb.uncounted hu (by rw [hr.owed.1, hr.owed.2])
  rcases h with h | h
  · refine .inl (h.step hs ?_ ?_ (.inr hb))
    · cases hr with
      | destRoot name d u =>
        exact each_add.mpr ⟨each_singleton.mpr rfl, each_rootTokens fun _ => rfl⟩
      | returned =>
        refine each_singleton.mpr ?_
        rw [hs.1]
        simp [Token.early, Mem.exec, h.completed]
      | _ => simp [Token.early]
    · refine hs.completed (fun ho => ?_) h.completed
      cases hr with
      | completed u => exact absurd (h.early .complete (by simp)) (by simp [Token.early])
      | _ => cases ho
  · have hτ := (each_add.mp h.closed).2
    refine .inr (h.step hu ?_ ?_)
    · cases hr <;> simp_all [Token.closed]
    · cases hr with
      | returned =>
        intro r hm
        rw [hs.1] at hm
        simp only [Multiset.mem_singleton, Token.returned.injEq, Mem.exec] at hm
        rw [hm]
      | _ => simp_all [Token.closed]

theorem Tallied.keeps (hd : cp.config.dryRun = false)
    (hw : ∀ a b, good a → w (orElse (some a) b) = w a) :
    Keeps (V := V) cp ok (fun _ past G => Each (Token.Within past) G) (Tallied w good) where
  quiet {o x s s' past G} hr hs _ h := by
    have hu := hr.uncounted hs
    rcases h with h | h
    · rw [← add_zero G] at h ⊢
      exact .inl (h.step hs each_zero (hs.completed (by cases hr <;> simp) h.completed)
        (.inr fun _ hb => hb.uncounted hu rfl))
    · rw [← add_zero G] at h ⊢
      exact .inr (h.step hu each_zero fun r hm => absurd hm (Multiset.notMem_zero _))
  stop τ hr hs _ h := by
    rcases h with h | h
    · exact .inl (h.step hs (by simp [Token.early])
        (hs.completed (by cases hr <;> simp) h.completed) (.inl (hr.sets hs)))
    · exact .inr (h.step (hr.uncounted hs) (by simp [Token.closed]) (by simp))
  file hr hs hk h := by
    rcases h with h | h
    · exact .inl (h.step hs (.of_ongoing hr.ongoing) (hs.completed (by cases hr <;> simp) h.completed)
        (.inr fun _ hb => hb.file hr hd (each_add.mp hk).2))
    · exact absurd (each_add.mp h.closed).2 hr.not_closed
  folder hr hs _ h := by
    rcases h with h | h
    · exact .inl (h.step hs (.of_ongoing hr.ongoing) (hs.completed (by cases hr <;> simp) h.completed)
        (.inr fun _ hb => hb.uncounted (hr.uncounted hs) (by rw [hr.owed.1, hr.owed.2])))
    · exact absurd (each_add.mp h.closed).2 hr.not_closed
  list hr hs hk h := by
    rcases h with h | h
    · exact .inl (h.step hs (.of_ongoing hr.ongoing) (hs.completed (by cases hr <;> simp) h.completed)
        (.inr fun hg hb => hb.list hr hw hg (each_add.mp hk).2))
    · obtain ⟨hu, hc⟩ := hr.closed hs (each_add.mp h.closed).2
      exact .inr (h.step hu hc fun r hm => nomatch hr.ongoing _ hm)
  store hr hs _ h := by
    rcases h with h | h
    · exact .inl (h.step hs (.of_ongoing hr.ongoing) (hs.completed (by cases hr <;> simp) h.completed)
        (.inr fun _ hb => hb.uncounted (hr.uncounted hs) (by rw [hr.owed.1, hr.owed.2])))
    · exact .inr (h.step (hr.uncounted hs) hr.closed fun r hm => nomatch hr.ongoing _ hm)
  run hr hs _ h := Tallied.run hr hs h
  solo {s s' past root} hs _ h := by
    obtain ⟨hclear, hs'⟩ := hs.clear
    rcases h with h | h
    · have hb := h.balance.resolve_left (by rw [hclear]; simp)
      refine .inr ⟨?_, fun hg => ?_, fun r hm => ?_⟩
      · exact each_add.mpr ⟨each_singleton.mpr rfl, each_rootTokens fun _ => rfl⟩
      · have hb' := hb hg.tail
        rw [← zero_add ({.idle} + rootTokens root)] at hb'
        rw [← zero_add ({.complete} + rootTokens root)]
        exact hb'.plain rfl (by simp [Token.owes, total_owes_rootTokens, outcomeOf, itemsOf])
      · have hr : .returned r ∈ rootTokens root := by simpa using hm
        exact nomatch ongoing_rootTokens root _ hr
    · exact absurd (h.closed .idle (by simp)) (by simp [Token.closed])
  call {l s past G τ τ'} hc _ h := by
    rcases h with h | h
    · refine .inl ⟨each_add.mpr ⟨(each_add.mp h.early).1, AllEarly.of_ongoing hc.ongoing⟩, h.completed, ?_⟩
      refine h.balance.imp_right fun hb hg => (hb hg.tail).plain rfl ?_
      rw [hc.owed.1, hc.owed.2]
      exact (zero_add _).trans (add_zero _).symm
    · exact absurd (each_add.mp h.closed).2 hc.not_closed
  shift hc _ h := by
    rcases h with h | h
    · obtain ⟨hG, hτ⟩ := each_add.mp h.early
      refine .inl ⟨each_add.mpr ⟨hG, hc.early hτ⟩, h.completed, ?_⟩
      refine h.balance.imp_right fun hb hg => ?_
      obtain ⟨X, hX, hid, hsum⟩ := hb hg
      exact ⟨X, hX, hid, by rw [← hsum, total_add, total_add, hc.owed]⟩
    · obtain ⟨hG, hτ⟩ := each_add.mp h.closed
      refine .inr ⟨each_add.mpr ⟨hG, hc.closed hτ⟩, fun hg => ?_, fun r hm => ?_⟩
      · obtain ⟨X, hX, hid, hsum⟩ := h.balance hg
        exact ⟨X, hX, hid, by rw [← hsum, total_add, total_add, hc.owed]⟩
      · refine h.returned r ?_
        exact (Multiset.mem_add.mp hm).elim (fun hm => Multiset.mem_add.mpr (.inl hm))
          fun hm => Multiset.mem_add.mpr (.inr (hc.ongoing rfl hm))
  env reason _ h := by
    rcases h with h | h
    · exact .inl ⟨h.early, h.completed, .inl rfl⟩
    · exact .inr ⟨h.closed, h.balance, h.returned⟩

end Runs

/-! ## Counting -/

/-- The result counts the outcomes of the history. -/
def Counted {V : Service} : Invariant V := fun s past _ =>
  s.mem.result.outcomes = outcomeWeight (fun _ => 1) past

section Counting

variable {V : Service} {ok : StepCondition V} {cp : Copier} {past : List (Event copierSig)}
  {G τ τ' : Multiset Token} {o : CopierOp} {x : o.Out} {s s' : Site V}

theorem Counted.step (h : Counted s past G)
    (heq : s'.mem.result.outcomes = outcomeOf (fun _ => 1) (.did o x) + s.mem.result.outcomes) :
    Counted s' (.did o x :: past) G := by
  unfold Counted at h ⊢
  rw [outcomeWeight_cons, heq, h]

theorem Counted.uncounted (h : Counted s past G) (hu : Uncounted o x s s') :
    Counted s' (.did o x :: past) G :=
  h.step (by rw [hu.outcomes, hu.event, zero_add])

theorem FileRule.counted (hr : FileRule cp o x τ τ') (hs : s.Step ok o x s')
    (hk : Each (Token.Within past) τ) :
    s'.mem.result.outcomes = outcomeOf (fun _ => 1) (.did o x) + s.mem.result.outcomes := by
  have hfailed {j : FileJob} {it : FailedItem} {st : FileStage} (ha : it.About j.src j.eff)
      (hw : Each (Token.Within past) {.file j st}) (u : Unit) :
      ({ s.mem.result with failedItems := s.mem.result.failedItems ++ [it] } : CopyResult).outcomes =
        outcomeOf (fun _ => 1) (.did (.mem (.recordFailed it)) u) + s.mem.result.outcomes := by
    have hf : j.src.isFolder = false := each_singleton.mp hw
    have hm : it.mimeType ≠ folderMime := by
      rw [ha.mimeType]
      simpa [DriveFile.isFolder] using hf
    rw [CopyResult.outcomes_failed_item _ hm, Nat.add_comm]
    exact congrArg (· + _) (if_neg hm).symm
  cases hr with
  | trusted j item =>
    obtain ⟨idx, -, rfl⟩ := hs.trusted
    simp only [CopyResult.outcomes, outcomeOf]
    omega
  | distrusted j =>
    obtain ⟨-, rfl⟩ := hs.distrusted
    exact (Nat.zero_add _).symm
  | matched j item =>
    obtain ⟨idx, -, rfl⟩ := hs.matched
    exact (Nat.zero_add _).symm
  | missing j =>
    obtain ⟨-, rfl⟩ := hs.missing
    exact (Nat.zero_add _).symm
  | reserved j reason hd hl =>
    obtain ⟨-, rfl⟩ := hs.reserved
    exact (Nat.zero_add _).symm
  | existing j item u =>
    rw [hs.after]
    simp only [CopyResult.outcomes, outcomeOf, Mem.after, Mem.exec]
    omega
  | marked j id u =>
    rw [hs.after]
    simp only [CopyResult.outcomes, outcomeOf, Mem.after, Mem.exec]
    omega
  | tooLarge j it u hl ha =>
    rw [hs.after]
    exact hfailed ha hk u
  | failed j it u ha =>
    rw [hs.after]
    exact hfailed ha hk u
  | invalid j it u ha =>
    rw [hs.after]
    exact hfailed ha hk u
  | _ =>
    rw [hs.after]
    exact (Nat.zero_add _).symm

theorem ListRule.counted (hr : ListRule cp o x τ τ') (hs : s.Step ok o x s')
    (hk : Each (Token.Within past) τ) :
    s'.mem.result.outcomes = outcomeOf (fun _ => 1) (.did o x) + s.mem.result.outcomes := by
  rw [hs.after]
  cases hr with
  | reported l src it u ha =>
    obtain ⟨-, -, hsc⟩ := each_singleton.mp hk
    have hm : it.mimeType ≠ folderMime := by
      have hf := DriveFile.not_isFolder_of_isShortcut hsc
      rw [ha.mimeType]
      simpa [DriveFile.isFolder] using hf
    refine (CopyResult.outcomes_failed_item _ hm).trans ?_
    rw [Nat.add_comm]
    exact congrArg (· + _) (if_neg hm).symm
  | _ => exact (Nat.zero_add _).symm

theorem Counted.keeps :
    Keeps (V := V) cp ok (fun _ past G => Each (Token.Within past) G) Counted where
  quiet hr hs _ h := h.uncounted (hr.uncounted hs)
  stop _ hr hs _ h := h.uncounted (hr.uncounted hs)
  file hr hs hk h := h.step (hr.counted hs (each_add.mp hk).2)
  folder hr hs _ h := h.uncounted (hr.uncounted hs)
  list hr hs hk h := h.step (hr.counted hs (each_add.mp hk).2)
  store hr hs _ h := h.uncounted (hr.uncounted hs)
  run hr hs _ h := h.uncounted (hr.uncounted hs)
  solo hs _ h := by
    rw [hs.clear.2]
    exact h.step (Nat.zero_add _).symm
  call _ _ h := h.trans (Nat.zero_add _).symm
  shift _ _ h := h
  env _ _ h := h

/-- In a run that completed, the copies, skips and failures of items account for the
items of all processed listings, and for each of them once: only the shortcuts `X` that led
to folders have no outcome. -/
theorem every_item_has_one_outcome (hd : cp.config.dryRun = false) (now : String) (d : V.State)
    {c : Config (cp.runs V ok) (Except Exc CopyResult)}
    (h : Reach (cp.runs V ok) (start (cp.runs V ok) cp.run ⟨cp.freshMem now, d⟩ []) c)
    {r : CopyResult} (hr : c.Returned (.ok r)) (hc : r.completed = true) :
    r.outcomes + folderShortcuts c.world.trace = itemWeight (fun _ => 1) c.world.trace ∧
      (GoodItems (fun id => id ≠ "") c.world.trace →
        ∃ X : Multiset String, X.card = folderShortcuts c.world.trace ∧
          (∀ id ∈ X, ShortcutId c.world.trace id) ∧
          outcomeWeight (fun id => {id}) c.world.trace + X =
            itemWeight (fun id => {id}) c.world.trace) := by
  have hearly : AllEarly {.idle, .begin} := by simp [Token.early]
  have hzero {M : Type} [AddCommMonoid M] (w : String → M) : Balance w [] {.idle, .begin} :=
    ⟨0, rfl, fun id hid => absurd hid (Multiset.notMem_zero id), by
      simp [outcomeWeight, itemWeight, Token.owes]⟩
  have hstart {M : Type} [AddCommMonoid M] (w : String → M) (good : String → Prop) :
      Tallied w good (⟨cp.freshMem now, d⟩ : Site V) [] {.idle, .begin} :=
    .inl ⟨hearly, rfl, .inr fun _ => hzero w⟩
  have hwithin : Each (Token.Within []) {.idle, .begin} := by simp [Token.Within]
  have hW : Keeps (V := V) cp ok Always fun _ past G => Each (Token.Within past) G :=
    within_keeps.keeps
  have hdone {M : Type} [AddCommMonoid M] {w : String → M} {good : String → Prop}
      {G : Multiset Token} (hm : .returned r ∈ G)
      (ht : Tallied w good c.world.state c.world.trace G) :
      Done w good c.world.state c.world.trace G := by
    refine ht.resolve_left fun hw => ?_
    have he : (!r.completed) = true := hw.early _ hm
    rw [hc] at he
    exact nomatch he
  constructor
  · have hT : Keeps (V := V) cp ok (fun _ past G => Each (Token.Within past) G)
        (Tallied (fun _ => 1) fun _ => True) := Tallied.keeps hd fun _ _ _ => rfl
    have hfresh : Counted (⟨cp.freshMem now, d⟩ : Site V) [] {.idle, .begin} := rfl
    obtain ⟨-, hret⟩ := ((hW.both Counted.keeps).both (hT.weaken And.left)).throughout
      ⟨⟨hwithin, hfresh⟩, hstart _ _⟩ h
    obtain ⟨G, hm, ⟨-, hcount⟩, ht⟩ := hret r hr
    have hD := hdone hm ht
    obtain ⟨X, hX, -, hsum⟩ := hD.balance fun _ _ _ _ => trivial
    rw [hD.returned r hm, hcount, ← hX, ← hsum, hD.closed.owed, add_zero, Multiset.map_const',
      Multiset.sum_replicate, smul_eq_mul, mul_one]
  · intro hids
    obtain ⟨-, hret⟩ := (hW.both (Tallied.keeps (w := fun id => ({id} : Multiset String)) hd
      fun a b ha => by rw [orElse_some ha])).throughout ⟨hwithin, hstart _ _⟩ h
    obtain ⟨G, hm, -, ht⟩ := hret r hr
    have hD := hdone hm ht
    obtain ⟨X, hX, hid, hsum⟩ := hD.balance hids
    refine ⟨X, hX, hid, ?_⟩
    rw [← hsum, hD.closed.owed, add_zero, Multiset.sum_map_singleton]

end Counting

/-- Two files and a shortcut to a folder with a third file. -/
def linkedDrive : Drive where
  nodes := [folderNode "sourcefolder" "Source" [], folderNode "targetfolder" "Target" [],
    folderNode "shared" "Shared" [], fileNode "first" "a" ["sourcefolder"] "1" "m1",
    fileNode "second" "b" ["sourcefolder"] "1" "m2", linkNode "link" "l" ["sourcefolder"] "shared",
    fileNode "third" "c" ["shared"] "1" "m3"]
  nodup := by decide

/-- The run in which the copy of the second file is refused. -/
def linkedRun : Config (openRuns smallCopier) (Except Exc CopyResult) :=
  openRun smallCopier linkedDrive
    { raise := fun k => if k = 35 then some Drive.notFound else none } 400

theorem linkedRun_reach :
    Reach (openRuns smallCopier) (openStart smallCopier linkedDrive) linkedRun :=
  openRun_reach (fun _ => rfl) 400

/-- Two copies and a failure, for four items of which one leads to a folder. -/
theorem every_item_has_one_outcome_linked : ∃ r, linkedRun.Returned (.ok r) ∧
    r.copiedCount = 2 ∧ r.failedItems.length = 1 ∧
    itemWeight (fun _ => 1) linkedRun.world.trace = 4 ∧
    r.outcomes + folderShortcuts linkedRun.world.trace =
      itemWeight (fun _ => 1) linkedRun.world.trace := by
  obtain ⟨r, hr, hP⟩ := Config.returned_of_any (c := linkedRun)
    (P := fun r => r.completed && (r.copiedCount == 2 && r.failedItems.length == 1))
    (by decide +kernel)
  simp only [Bool.and_eq_true, beq_iff_eq] at hP
  exact ⟨r, hr, hP.2.1, hP.2.2, by decide +kernel,
    (every_item_has_one_outcome rfl "" linkedDrive linkedRun_reach hr hP.1).1⟩

end TurboCopy
