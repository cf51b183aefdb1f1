import TurboCopy.Copier.Conformance.Run

/-!
# Invariants of runs

A property of the site, the history and the tokens that each family of rules keeps
holds throughout every run. `Keeps` lists what has to be shown, one field for each
family, so an invariant of the engine is proved without its text. The steps of a run
may be subject to a condition.
-/

namespace TurboCopy

open Threads

variable {V : Service}

/-- A condition on the steps of a run. -/
abbrev StepCondition (V : Service) : Type :=
  (o : CopierOp) → Site V → o.Out → Site V → Prop

def anyStep : StepCondition V := fun _ _ _ _ => True

/-- The runs of a copier over the Drive `V` whose steps meet a condition. -/
def Copier.runs (cp : Copier) (V : Service) (ok : StepCondition V) : System copierSig :=
  (cp.system V).restrict ok

/-- One operation of a run. -/
def Site.Step (s : Site V) (ok : StepCondition V) : (o : CopierOp) → o.Out → Site V → Prop
  | .mem o, x, s' => x = (s.mem.exec o).1 ∧ s' = ⟨(s.mem.exec o).2, s.drive⟩ ∧ ok (.mem o) s x s'
  | .ask q, x, s' => V.serves q s.drive x s'.drive ∧ s'.mem = s.mem ∧ ok (.ask q) s x s'

/-- The memory after an operation. -/
def Mem.after (m : Mem) : CopierOp → Mem
  | .mem o => (m.exec o).2
  | .ask _ => m

theorem Site.Step.after {ok : StepCondition V} {o : CopierOp} {s s' : Site V} {x : o.Out}
    (h : s.Step ok o x s') : s'.mem = s.mem.after o := by
  cases o with
  | mem o => rw [h.2.1, Mem.after]
  | ask q => exact h.2.1

theorem Site.Step.permitted {ok : StepCondition V} {o : CopierOp} {s s' : Site V} {x : o.Out}
    (h : s.Step ok o x s') : ok o s x s' := by
  cases o with
  | mem o => exact h.2.2
  | ask q => exact h.2.2

theorem Site.step_of_perform {cp : Copier} {ok : StepCondition V} {o : CopierOp} {s s' : Site V}
    {x : o.Out} (h : (cp.runs V ok).perform o s x s') : s.Step ok o x s' := by
  cases o with
  | mem o => exact ⟨h.1.1, h.1.2, h.2⟩
  | ask q => exact ⟨h.1.1, h.1.2, h.2⟩

section Inversion

variable {ok : StepCondition V} {s s' : Site V} {i : ℕ} {eff : String} {src item : DriveFile}
  {mode : VerifyMode} {allow : Bool} {maxGb : ℚ} {size : ℤ} {reason : String}

theorem Site.Step.trusted (h : s.Step ok (.mem (.trustResume i eff src)) (some item) s') :
    ∃ idx, (s.mem.indexAt i).popByAppProp eff = (some item, idx) ∧
      s' = ⟨{ s.mem.setIndex i idx with
        result := { s.mem.result with skippedCount := s.mem.result.skippedCount + 1 } }, s.drive⟩ := by
  obtain ⟨hx, rfl, -⟩ := h
  simp only [Mem.exec] at hx ⊢
  split at hx
  · rename_i it idx hp
    obtain rfl := Option.some.inj hx
    exact ⟨idx, hp, rfl⟩
  · cases hx

theorem Site.Step.distrusted (h : s.Step ok (.mem (.trustResume i eff src)) none s') :
    ((s.mem.indexAt i).popByAppProp eff).1 = none ∧
      s' = ⟨{ s.mem with state := { s.mem.state with
        copiedIds := s.mem.state.copiedIds.erase eff } }, s.drive⟩ := by
  obtain ⟨hx, rfl, -⟩ := h
  simp only [Mem.exec] at hx ⊢
  split at hx
  · cases hx
  · rename_i idx hp
    exact ⟨by rw [hp], rfl⟩

theorem Site.Step.matched (h : s.Step ok (.mem (.popMatch i src mode allow eff)) (some item) s') :
    ∃ idx, (s.mem.indexAt i).popMatch src mode allow eff = (some item, idx) ∧
      s' = ⟨s.mem.setIndex i idx, s.drive⟩ := by
  obtain ⟨hx, rfl, -⟩ := h
  simp only [Mem.exec] at hx ⊢
  split at hx
  · rename_i it idx hp
    obtain rfl := Option.some.inj hx
    exact ⟨idx, hp, rfl⟩
  · cases hx

theorem Site.Step.missing (h : s.Step ok (.mem (.popMatch i src mode allow eff)) none s') :
    ((s.mem.indexAt i).popMatch src mode allow eff).1 = none ∧ s' = s := by
  obtain ⟨hx, rfl, -⟩ := h
  simp only [Mem.exec] at hx ⊢
  split at hx
  · cases hx
  · rename_i idx hp
    exact ⟨by rw [hp], rfl⟩

theorem Site.Step.reserved (h : s.Step ok (.mem (.reserve maxGb size reason)) true s') :
    (0 < maxGb → ((s.mem.runBytes + size : ℤ) : ℚ) ≤ maxGb * gib) ∧
      s' = ⟨{ s.mem with runBytes := s.mem.runBytes + size }, s.drive⟩ := by
  obtain ⟨hx, rfl, -⟩ := h
  simp only [Mem.exec] at hx ⊢
  split_ifs at hx ⊢ with hc
  exact ⟨fun hmax => not_lt.mp fun hlt => hc ⟨hmax, hlt⟩, rfl⟩

end Inversion

/-- A property of a site, the history and the tokens. -/
abbrev Invariant (V : Service) : Type := Site V → List (Event copierSig) → Multiset Token → Prop

/-- What keeps `I` an invariant of the runs in which `J` is one. -/
structure Keeps (cp : Copier) (ok : StepCondition V) (J I : Invariant V) : Prop where
  quiet : ∀ {o x s s' past G}, QuietRule o x → s.Step ok o x s' → J s past G → I s past G →
    I s' (.did o x :: past) G
  stop : ∀ {o x s s' past G} (τ : Multiset Token), StopRule o x → s.Step ok o x s' →
    J s past (G + τ) → I s past (G + τ) → I s' (.did o x :: past) (G + {.stopped})
  file : ∀ {o x s s' past G τ τ'}, FileRule cp o x τ τ' → s.Step ok o x s' → J s past (G + τ) →
    I s past (G + τ) → I s' (.did o x :: past) (G + τ')
  folder : ∀ {o x s s' past G τ τ'}, FolderRule cp o x τ τ' → s.Step ok o x s' →
    J s past (G + τ) → I s past (G + τ) → I s' (.did o x :: past) (G + τ')
  list : ∀ {o x s s' past G τ τ'}, ListRule cp o x τ τ' → s.Step ok o x s' → J s past (G + τ) →
    I s past (G + τ) → I s' (.did o x :: past) (G + τ')
  store : ∀ {o x s s' past G τ τ'}, StoreRule cp o x τ τ' → s.Step ok o x s' →
    J s past (G + τ) → I s past (G + τ) → I s' (.did o x :: past) (G + τ')
  run : ∀ {o x s s' past G τ τ'}, RunRule cp cp.sourceId cp.destParent o x τ τ' →
    s.Step ok o x s' → J s past (G + τ) → I s past (G + τ) → I s' (.did o x :: past) (G + τ')
  solo : ∀ {s s' past root}, s.Step ok (.mem .stopIsSet) false s' →
    J s past ({.idle} + rootTokens root) → I s past ({.idle} + rootTokens root) →
    I s' (.did (.mem .stopIsSet) false :: past) ({.complete} + rootTokens root)
  call : ∀ {l s past G τ τ'}, CallRule l τ τ' → J s past (G + τ) → I s past (G + τ) →
    I s (.entered l :: past) (G + τ')
  shift : ∀ {s past G τ τ'}, CopierShift cp τ τ' → J s past (G + τ) → I s past (G + τ) →
    I s past (G + τ')
  env : ∀ {m d past G} (reason : Option String), J ⟨m, d⟩ past G → I ⟨m, d⟩ past G →
    I ⟨m.requestStop reason, d⟩ past G

/-- No assumption on the runs. -/
def Always : Invariant V := fun _ _ _ => True

/-- A thread that holds `stopped` knows that the stop flag is set. -/
def StopSeen : Invariant V := fun s _ G => .stopped ∈ G → s.mem.stop = true

/-- The stop flag is never cleared. -/
theorem Site.Step.stop_mono {ok : StepCondition V} {o : CopierOp} {s s' : Site V} {x : o.Out}
    (h : s.Step ok o x s') (hs : s.mem.stop = true) : s'.mem.stop = true := by
  rw [h.after]
  cases o with
  | mem o => exact Mem.stop_exec s.mem o hs
  | ask q => exact hs

/-- A look at the stop flag that finds it clear. -/
theorem Site.Step.clear {ok : StepCondition V} {s s' : Site V}
    (h : s.Step ok (.mem .stopIsSet) false s') : s.mem.stop = false ∧ s' = s :=
  ⟨h.1.symm, h.2.1⟩

theorem StopRule.sets {ok : StepCondition V} {o : CopierOp} {s s' : Site V} {x : o.Out}
    (hr : StopRule o x) (h : s.Step ok o x s') : s'.mem.stop = true := by
  cases hr with
  | seen =>
    obtain ⟨hx, rfl, -⟩ := h
    exact hx.symm
  | set u =>
    obtain ⟨-, rfl, -⟩ := h
    rfl
  | overBudget max size reason =>
    obtain ⟨hx, rfl, -⟩ := h
    simp only [Mem.exec] at hx ⊢
    split_ifs with hc
    · rfl
    · rw [if_neg hc] at hx
      cases hx

/-! ## Facts about each token -/

/-- Every token satisfies `P`. -/
def Each (P : Token → Prop) (G : Multiset Token) : Prop := ∀ t ∈ G, P t

section Each

variable {P : Token → Prop} {G G' : Multiset Token}

@[simp] theorem each_zero : Each P 0 := fun t h => absurd h (Multiset.notMem_zero t)

@[simp] theorem each_add : Each P (G + G') ↔ Each P G ∧ Each P G' := by
  simp only [Each, Multiset.mem_add]
  exact ⟨fun h => ⟨fun t ht => h t (.inl ht), fun t ht => h t (.inr ht)⟩,
    fun h t ht => ht.elim (h.1 t) (h.2 t)⟩

@[simp] theorem each_singleton {t : Token} : Each P {t} ↔ P t := by
  simp [Each]

@[simp] theorem each_cons {t : Token} : Each P (t ::ₘ G) ↔ P t ∧ Each P G := by
  simp [Each]

theorem each_map {α : Type} {f : α → Token} {l : Multiset α} :
    Each P (l.map f) ↔ ∀ a ∈ l, P (f a) := by
  simp [Each]

theorem Each.mono {P' : Token → Prop} (h : Each P G) (hP : ∀ t, P t → P' t) : Each P' G :=
  fun t ht => hP t (h t ht)

theorem each_rootTokens {d : Option String} (h : ∀ r, P (.rootAt r)) : Each P (rootTokens d) := by
  unfold rootTokens
  split
  · exact each_singleton.mpr (h _)
  · exact each_zero

end Each

/-- The sum of a weight over all tokens. -/
def total {M : Type} [AddCommMonoid M] (f : Token → M) (G : Multiset Token) : M := (G.map f).sum

section Total

variable {M : Type} [AddCommMonoid M] {f : Token → M} {G G' : Multiset Token}

@[simp] theorem total_zero : total f 0 = 0 := rfl

@[simp] theorem total_add : total f (G + G') = total f G + total f G' := by
  rw [total, Multiset.map_add, Multiset.sum_add, total, total]

@[simp] theorem total_singleton {t : Token} : total f {t} = f t := by
  rw [total, Multiset.map_singleton, Multiset.sum_singleton]

@[simp] theorem total_cons {t : Token} : total f (t ::ₘ G) = f t + total f G := by
  rw [total, Multiset.map_cons, Multiset.sum_cons, total]

theorem total_eq_zero (h : Each (fun t => f t = 0) G) : total f G = 0 := by
  refine Multiset.sum_eq_zero fun x hx => ?_
  obtain ⟨t, ht, rfl⟩ := Multiset.mem_map.mp hx
  exact h t ht

end Total

/-! ## Tokens of the end of a run -/

def Token.final : Token → Bool
  | .stopped | .complete | .returned _ => true
  | _ => false

abbrev Ongoing (G : Multiset Token) : Prop := Each (fun t => t.final = false) G

section Final

variable {cp : Copier} {τ τ' : Multiset Token} {sourceId destParent : String} {o : CopierOp}
  {x : o.Out}

theorem Token.final_entry (l : Level) (index : ℕ) (src : DriveFile) :
    (Token.entry l index src).final = false := by
  unfold Token.entry
  split_ifs <;> rfl

theorem Token.final_target (l : Level) (index : ℕ) (src target : DriveFile) :
    (Token.target l index src target).final = false := by
  unfold Token.target
  split_ifs <;> rfl

theorem FileRule.ongoing (h : FileRule cp o x τ τ') : Ongoing τ' := by
  cases h <;> simp [Token.final]

theorem FolderRule.ongoing (h : FolderRule cp o x τ τ') : Ongoing τ' := by
  cases h <;> simp [Token.final]

theorem ListRule.ongoing (h : ListRule cp o x τ τ') : Ongoing τ' := by
  cases h with
  | multiLast group out tok files => exact each_map.mpr fun _ _ => rfl
  | index l items i => exact each_map.mpr fun _ _ => Token.final_entry _ _ _
  | resolved l index src target data ht => exact each_singleton.mpr (Token.final_target _ _ _ _)
  | _ => simp [Token.final]

theorem StoreRule.ongoing (h : StoreRule cp o x τ τ') : Ongoing τ' := by
  cases h <;> simp [Token.final]

theorem CallRule.ongoing {l : Level} (h : CallRule l τ τ') : Ongoing τ' := by
  cases h
  simp [Token.final]

theorem ongoing_rootTokens (d : Option String) : Ongoing (rootTokens d) :=
  each_rootTokens fun _ => rfl

theorem RunRule.not_stopped (h : RunRule cp sourceId destParent o x τ τ') : .stopped ∉ τ' := by
  cases h with
  | destRoot name d u =>
    intro hm
    have hr : .stopped ∈ rootTokens d := by simpa using hm
    exact nomatch ongoing_rootTokens d _ hr
  | _ => simp

/-- A shift makes no token of the end of a run. -/
theorem CopierShift.ongoing (h : CopierShift cp τ τ') {t : Token} (ht : t.final = true)
    (hm : t ∈ τ') : t ∈ τ := by
  cases t with
  | stopped => cases h <;> simp_all
  | complete => cases h <;> simp_all
  | returned r => cases h <;> simp_all
  | _ => exact nomatch ht

end Final

section Sound

variable {cp : Copier} {ok : StepCondition V} {I J : Invariant V}

/-- What a family of rules has to keep for `StopSeen`: no new `stopped` token. -/
private theorem StopSeen.step {o : CopierOp} {x : o.Out} {s s' : Site V}
    {past : List (Event copierSig)} {G τ τ' : Multiset Token} (hs : s.Step ok o x s')
    (h : StopSeen s past (G + τ)) (hτ : .stopped ∉ τ') :
    StopSeen s' (.did o x :: past) (G + τ') := by
  intro hm
  refine hs.stop_mono (h ?_)
  rcases Multiset.mem_add.mp hm with hG | ht
  · exact Multiset.mem_add.mpr (.inl hG)
  · exact absurd ht hτ

theorem StopSeen.keeps : Keeps cp ok Always StopSeen where
  quiet _ hs _ h := fun hm => hs.stop_mono (h hm)
  stop _ hr hs _ _ := fun _ => hr.sets hs
  file hr hs _ h := StopSeen.step hs h fun hm => nomatch hr.ongoing _ hm
  folder hr hs _ h := StopSeen.step hs h fun hm => nomatch hr.ongoing _ hm
  list hr hs _ h := StopSeen.step hs h fun hm => nomatch hr.ongoing _ hm
  store hr hs _ h := StopSeen.step hs h fun hm => nomatch hr.ongoing _ hm
  run hr hs _ h := StopSeen.step hs h hr.not_stopped
  solo hs _ h := by
    intro hm
    refine hs.stop_mono (h ?_)
    simpa using hm
  call hc _ h := by
    intro hm
    cases hc
    refine h ?_
    simpa using hm
  shift hc _ h := by
    intro hm
    refine h ?_
    rcases Multiset.mem_add.mp hm with hG | ht
    · exact Multiset.mem_add.mpr (.inl hG)
    · exact Multiset.mem_add.mpr (.inr (hc.ongoing rfl ht))
  env _ _ _ := fun _ => rfl

/-- An invariant may be proved with the help of another. -/
theorem Keeps.both (hJ : Keeps cp ok Always J) (hI : Keeps cp ok J I) :
    Keeps cp ok Always fun s past G => J s past G ∧ I s past G where
  quiet hr hs _ h := ⟨hJ.quiet hr hs trivial h.1, hI.quiet hr hs h.1 h.2⟩
  stop τ hr hs _ h := ⟨hJ.stop τ hr hs trivial h.1, hI.stop τ hr hs h.1 h.2⟩
  file hr hs _ h := ⟨hJ.file hr hs trivial h.1, hI.file hr hs h.1 h.2⟩
  folder hr hs _ h := ⟨hJ.folder hr hs trivial h.1, hI.folder hr hs h.1 h.2⟩
  list hr hs _ h := ⟨hJ.list hr hs trivial h.1, hI.list hr hs h.1 h.2⟩
  store hr hs _ h := ⟨hJ.store hr hs trivial h.1, hI.store hr hs h.1 h.2⟩
  run hr hs _ h := ⟨hJ.run hr hs trivial h.1, hI.run hr hs h.1 h.2⟩
  solo hm _ h := ⟨hJ.solo hm trivial h.1, hI.solo hm h.1 h.2⟩
  call hc _ h := ⟨hJ.call hc trivial h.1, hI.call hc h.1 h.2⟩
  shift hc _ h := ⟨hJ.shift hc trivial h.1, hI.shift hc h.1 h.2⟩
  env reason _ h := ⟨hJ.env reason trivial h.1, hI.env reason h.1 h.2⟩

theorem Keeps.weaken {J' : Invariant V} (hI : Keeps cp ok J I)
    (h : ∀ {s past G}, J' s past G → J s past G) : Keeps cp ok J' I where
  quiet hr hs hj := hI.quiet hr hs (h hj)
  stop τ hr hs hj := hI.stop τ hr hs (h hj)
  file hr hs hj := hI.file hr hs (h hj)
  folder hr hs hj := hI.folder hr hs (h hj)
  list hr hs hj := hI.list hr hs (h hj)
  store hr hs hj := hI.store hr hs (h hj)
  run hr hs hj := hI.run hr hs (h hj)
  solo hm hj := hI.solo hm (h hj)
  call hc hj := hI.call hc (h hj)
  shift hc hj := hI.shift hc (h hj)
  env reason hj := hI.env reason (h hj)

/-- The ledger property that an invariant of the engine amounts to. -/
def Invariant.onLedger (I : Invariant V) (cp : Copier) (ok : StepCondition V)
    (L : Protocol.Ledger Token (cp.runs V ok)) : Prop :=
  I L.world.state L.world.trace L.tokens ∧ StopSeen L.world.state L.world.trace L.tokens

theorem Keeps.kept (hI : Keeps cp ok Always I) :
    Protocol.Kept cp.protocol (I.onLedger cp ok) := by
  have hS : Keeps cp ok Always StopSeen := StopSeen.keeps
  rintro ⟨w, G⟩ L ⟨h, hst⟩ hmove
  cases hmove with
  | @act _ G τ τ' o x s hr hp =>
    have hs : Site.Step w.state ok o x s := Site.step_of_perform hp
    cases hr with
    | quiet hr =>
      rw [add_zero] at h hst ⊢
      exact ⟨hI.quiet hr hs trivial h, hS.quiet hr hs trivial hst⟩
    | stop _ hr => exact ⟨hI.stop _ hr hs trivial h, hS.stop _ hr hs trivial hst⟩
    | absurd _ =>
      have hstop : w.state.mem.stop = true := hst (by simp)
      obtain ⟨hx, -, -⟩ := hs
      simp only [Mem.exec] at hx
      rw [hstop] at hx
      cases hx
    | file hr => exact ⟨hI.file hr hs trivial h, hS.file hr hs trivial hst⟩
    | folder hr => exact ⟨hI.folder hr hs trivial h, hS.folder hr hs trivial hst⟩
    | list hr => exact ⟨hI.list hr hs trivial h, hS.list hr hs trivial hst⟩
    | store hr => exact ⟨hI.store hr hs trivial h, hS.store hr hs trivial hst⟩
    | run hr => exact ⟨hI.run hr hs trivial h, hS.run hr hs trivial hst⟩
  | @solo _ τ τ' o x s hr hp =>
    have hs : Site.Step w.state ok o x s := Site.step_of_perform hp
    cases hr with
    | finish root => exact ⟨hI.solo hs trivial h, hS.solo hs trivial hst⟩
  | call hc => exact ⟨hI.call hc trivial h, hS.call hc trivial hst⟩
  | shift hc => exact ⟨hI.shift hc trivial h, hS.shift hc trivial hst⟩
  | env he =>
    obtain ⟨reason, rfl⟩ := he
    exact ⟨hI.env reason trivial h, hS.env reason trivial hst⟩

section Throughout

variable {s : Site V} {past : List (Event copierSig)}
  {c : Config (cp.runs V ok) (Except Exc CopyResult)}

theorem Keeps.starts (hi : I s past {.idle, .begin}) :
    I.onLedger cp ok ⟨⟨s, past⟩, {.idle, .begin}⟩ := ⟨hi, fun hm => by simp at hm⟩

/-- An invariant that holds when a run starts holds in all its configurations. A run that
returned a result holds the token of it. -/
theorem Keeps.throughout (hI : Keeps cp ok Always I) (hi : I s past {.idle, .begin})
    (h : Reach (cp.runs V ok) (start (cp.runs V ok) cp.run s past) c) :
    (∃ G, I c.world.state c.world.trace G) ∧ ∀ r, c.Returned (.ok r) →
      ∃ G, .returned r ∈ G ∧ I c.world.state c.world.trace G := by
  obtain ⟨⟨G, hG⟩, hret⟩ := cp.run_kept (Y := cp.runs V ok) rfl hI.kept (Keeps.starts hi) h
  refine ⟨⟨G, hG.1⟩, fun r hr => ?_⟩
  obtain ⟨G', hG', hm⟩ := hret _ hr.1
  exact ⟨G', hm, hG'.1⟩

/-- A run that raised holds the token of the item whose properties were refused. -/
theorem Keeps.raised (hI : Keeps cp ok Always I) (hi : I s past {.idle, .begin})
    (h : Reach (cp.runs V ok) (start (cp.runs V ok) cp.run s past) c) {e : Exc}
    (he : c.main = .pure (.error e)) : ∃ G, Refuses e G ∧ I c.world.state c.world.trace G := by
  obtain ⟨-, hret⟩ := cp.run_kept (Y := cp.runs V ok) rfl hI.kept (Keeps.starts hi) h
  obtain ⟨G, hG, hm⟩ := hret _ he
  exact ⟨G, hm, hG.1⟩

end Throughout

end Sound

/-- A property of the site and the history alone that every operation keeps. -/
theorem Keeps.of_step {cp : Copier} {ok : StepCondition V} {J : Invariant V}
    {P : Site V → List (Event copierSig) → Prop}
    (hstep : ∀ {o x s s' past}, s.Step ok o x s' → P s past → P s' (.did o x :: past))
    (henter : ∀ {l s past}, P s past → P s (.entered l :: past))
    (henv : ∀ {m d past} (reason : Option String), P ⟨m, d⟩ past → P ⟨m.requestStop reason, d⟩ past) :
    Keeps cp ok J fun s past _ => P s past where
  quiet _ hs _ h := hstep hs h
  stop _ _ hs _ h := hstep hs h
  file _ hs _ h := hstep hs h
  folder _ hs _ h := hstep hs h
  list _ hs _ h := hstep hs h
  store _ hs _ h := hstep hs h
  run _ hs _ h := hstep hs h
  solo hs _ h := hstep hs h
  call _ _ h := henter h
  shift _ _ h := h
  env reason _ h := henv reason h

/-! ## Invariants of each token -/

/-- What keeps a fact about each token an invariant: it outlives every step, and each rule
passes it on. -/
structure KeepsEach (cp : Copier) (ok : StepCondition V) (J : Invariant V)
    (P : Site V → List (Event copierSig) → Token → Prop) : Prop where
  stable : ∀ {o x s s' past G t}, s.Step ok o x s' → J s past G → P s past t →
    P s' (.did o x :: past) t
  enters : ∀ {l s past t}, P s past t → P s (.entered l :: past) t
  requests : ∀ {m d past t} (reason : Option String), P ⟨m, d⟩ past t →
    P ⟨m.requestStop reason, d⟩ past t
  stopped : ∀ {s past}, P s past .stopped
  complete : ∀ {s past}, P s past .complete
  file : ∀ {o x s s' past G τ τ'}, FileRule cp o x τ τ' → s.Step ok o x s' → J s past (G + τ) →
    Each (P s past) τ → Each (P s' (.did o x :: past)) τ'
  folder : ∀ {o x s s' past G τ τ'}, FolderRule cp o x τ τ' → s.Step ok o x s' →
    J s past (G + τ) → Each (P s past) τ → Each (P s' (.did o x :: past)) τ'
  list : ∀ {o x s s' past G τ τ'}, ListRule cp o x τ τ' → s.Step ok o x s' → J s past (G + τ) →
    Each (P s past) τ → Each (P s' (.did o x :: past)) τ'
  store : ∀ {o x s s' past G τ τ'}, StoreRule cp o x τ τ' → s.Step ok o x s' →
    J s past (G + τ) → Each (P s past) τ → Each (P s' (.did o x :: past)) τ'
  run : ∀ {o x s s' past G τ τ'}, RunRule cp cp.sourceId cp.destParent o x τ τ' →
    s.Step ok o x s' → J s past (G + τ) → Each (P s past) τ → Each (P s' (.did o x :: past)) τ'
  call : ∀ {l s past G τ τ'}, CallRule l τ τ' → J s past (G + τ) → Each (P s past) τ →
    Each (P s (.entered l :: past)) τ'
  shift : ∀ {s past G τ τ'}, CopierShift cp τ τ' → J s past (G + τ) → Each (P s past) τ →
    Each (P s past) τ'

theorem KeepsEach.keeps {cp : Copier} {ok : StepCondition V} {J : Invariant V}
    {P : Site V → List (Event copierSig) → Token → Prop} (hP : KeepsEach cp ok J P) :
    Keeps cp ok J fun s past G => Each (P s past) G where
  quiet _ hs hj h := h.mono fun _ => hP.stable hs hj
  stop _ _ hs hj h := by
    rw [each_add] at h ⊢
    exact ⟨h.1.mono fun _ => hP.stable hs hj, each_singleton.mpr hP.stopped⟩
  file hr hs hj h := by
    rw [each_add] at h ⊢
    exact ⟨h.1.mono fun _ => hP.stable hs hj, hP.file hr hs hj h.2⟩
  folder hr hs hj h := by
    rw [each_add] at h ⊢
    exact ⟨h.1.mono fun _ => hP.stable hs hj, hP.folder hr hs hj h.2⟩
  list hr hs hj h := by
    rw [each_add] at h ⊢
    exact ⟨h.1.mono fun _ => hP.stable hs hj, hP.list hr hs hj h.2⟩
  store hr hs hj h := by
    rw [each_add] at h ⊢
    exact ⟨h.1.mono fun _ => hP.stable hs hj, hP.store hr hs hj h.2⟩
  run hr hs hj h := by
    rw [each_add] at h ⊢
    exact ⟨h.1.mono fun _ => hP.stable hs hj, hP.run hr hs hj h.2⟩
  solo hm hj h := by
    rw [each_add] at h ⊢
    exact ⟨each_singleton.mpr hP.complete, h.2.mono fun _ => hP.stable hm hj⟩
  call hc hj h := by
    rw [each_add] at h ⊢
    exact ⟨h.1.mono fun _ => hP.enters, hP.call hc hj h.2⟩
  shift hc hj h := by
    rw [each_add] at h ⊢
    exact ⟨h.1, hP.shift hc hj h.2⟩
  env reason _ h := h.mono fun _ => hP.requests reason

end TurboCopy
