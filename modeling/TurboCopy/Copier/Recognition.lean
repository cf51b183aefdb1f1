import TurboCopy.Copier.Indexes

/-!
# Tagged copies are recognised

A file is copied only after its lookup in the index of its folder failed. When the listing
behind the index holds a file tagged for it, the lookup fails only if the rule of the mode
gave that file to another source before.
-/

namespace TurboCopy

open Threads DestinationIndex

/-- A job past its lookup missed. -/
def Token.Missed (past : List (Event copierSig)) : Token → Prop
  | .file _ .start => True
  | .file _ (.matched _) => True
  | .file _ .settled => True
  | .file j _ => Distinct past → TurboCopy.Missed past j
  | _ => True

/-- The request of a copy. -/
def copyRequest : Event copierSig → Option (String × CopyBody)
  | .did (.ask (.copyFile id body _ _)) _ => some (id, body)
  | _ => none

/-- Every copy was requested after a lookup that missed. -/
def CopiesMissed (cp : Copier) (past : List (Event copierSig)) : Prop :=
  ∀ e earlier id body, (e :: earlier) <:+ past → copyRequest e = some (id, body) →
    Distinct earlier → ∃ j : FileJob, id = j.src.id ∧
      body = cp.copyBody j.dest j.src j.shortcutId ∧ Missed earlier j

section Recognition

variable {V : Service} {ok : StepCondition V} {cp : Copier} {past : List (Event copierSig)}
  {s s' : Site V} {o : CopierOp} {x : o.Out} {G τ τ' : Multiset Token}

theorem Token.Missed.mono {e : Event copierSig} {t : Token} (h : t.Missed past) :
    t.Missed (e :: past) := by
  cases t with
  | file j st =>
    cases st <;> first | trivial | exact fun hd => (h hd.tail).mono
  | _ => trivial

theorem missed_entry (l : Level) (i : ℕ) (src : DriveFile) : (Token.entry l i src).Missed past := by
  unfold Token.entry
  split_ifs <;> trivial

theorem missed_target (l : Level) (i : ℕ) (src target : DriveFile) :
    (Token.target l i src target).Missed past := by
  unfold Token.target
  split_ifs <;> trivial

/-- What is known when an item asks, and that it asks once. -/
def Asks {V : Service} : Invariant V := fun s past G => Asking s past G ∧ AskedOnce s past G

theorem Asks.keeps : Keeps (V := V) cp ok Always Asks := Asking.keeps.both AskedOnce.keeps

/-- A lookup that finds nothing. -/
theorem missed_of_missing {j : FileJob} (hj : Asks s past (G + {.file j .start}))
    (hs : s.Step ok (.mem (.popMatch j.index j.src cp.config.verifyMode cp.config.allowNameOnly
      j.eff)) none s') (hd : Distinct past) : Missed past j := by
  obtain ⟨⟨⟨-, hk⟩, hsh⟩, honce⟩ := hj
  obtain ⟨items, ho⟩ : ∃ items, Opened past j.dest items j.index :=
    each_singleton.mp (each_add.mp hk).2
  refine ⟨items, ho, fun hkey => ?_⟩
  have hne : j.eff ≠ "" := hkey.choose_spec.2.ne_empty
  obtain ⟨hnone, -⟩ := popMatch_none hs.missing.1
  rw [if_neg hne] at hnone
  have hlookup := popByAppProp_none hne hnone
  rcases hsh.held _ _ _ _ ho hkey with hl | ⟨eff, item, ht, hsrc⟩
  · rw [hlookup] at hl
    exact nomatch hl
  · refine ⟨eff, item, ht, fun he => ?_, hsrc⟩
    -- The item has still to ask, so no success can be its own.
    have hle := honce hd j.index j.eff hne
    have hpos := (he ▸ ht : Took past j.index j.eff item).served_pos
    rw [total_add, total_singleton] at hle
    simp only [Token.asks, and_self, if_true] at hle
    omega

theorem missed_keeps : KeepsEach (V := V) cp ok Asks fun _ past => Token.Missed past where
  stable _ _ h := h.mono
  enters h := h.mono
  requests _ h := h
  stopped := trivial
  complete := trivial
  file hr hs hj h := by
    cases hr with
    | missing j =>
      exact each_singleton.mpr fun hd => (missed_of_missing hj hs hd.tail).mono
    | wouldCopy j u hdry => exact each_zero
    | _ =>
      first
      | exact each_zero
      | exact each_singleton.mpr trivial
      | exact each_singleton.mpr fun hd => (each_singleton.mp h (Distinct.tail hd)).mono
  folder hr _ _ _ := by
    cases hr <;> simp [Token.Missed]
  list hr _ _ _ := by
    cases hr with
    | multiLast group out tok files => exact each_map.mpr fun _ _ => trivial
    | resolved l i src target data ht => exact each_singleton.mpr (missed_target _ _ _ _)
    | index l items i => exact each_map.mpr fun src _ => missed_entry _ _ _
    | _ => simp [Token.Missed]
  store hr _ _ _ := by
    cases hr <;> simp [Token.Missed]
  run hr _ _ _ := by
    cases hr with
    | destRoot name d u =>
      exact each_add.mpr ⟨each_singleton.mpr trivial, each_rootTokens fun _ => trivial⟩
    | _ => simp [Token.Missed]
  call hc _ _ := by
    cases hc
    simp [Token.Missed]
  shift hc _ h := by
    cases hc with
    | batch group => exact each_add.mpr ⟨h, each_singleton.mpr trivial⟩
    | anonymous j newId ht => exact each_singleton.mpr fun hd => each_singleton.mp h hd
    | _ => simp [Token.Missed]

theorem CopiesMissed.cons (h : CopiesMissed cp past) {e : Event copierSig}
    (he : ∀ id body, copyRequest e = some (id, body) → Distinct past → ∃ j : FileJob,
      id = j.src.id ∧ body = cp.copyBody j.dest j.src j.shortcutId ∧ Missed past j) :
    CopiesMissed cp (e :: past) := by
  intro e' earlier id body hsuf hreq hd
  rcases List.suffix_cons_iff.mp hsuf with heq | hsuf
  · obtain ⟨rfl, rfl⟩ := List.cons.inj heq
    exact he id body hreq hd
  · exact h e' earlier id body hsuf hreq hd

theorem CopiesMissed.silent (h : CopiesMissed cp past) {e : Event copierSig}
    (he : copyRequest e = none) : CopiesMissed cp (e :: past) :=
  h.cons fun id body hreq => by rw [he] at hreq; exact nomatch hreq

theorem CopiesMissed.keeps : Keeps (V := V) cp ok (fun _ past G => Each (Token.Missed past) G)
    fun _ past _ => CopiesMissed cp past where
  quiet hr _ _ h := h.silent (by cases hr <;> rfl)
  stop _ hr _ _ h := h.silent (by cases hr <;> rfl)
  file hr _ hm h := by
    have hτ := (each_add.mp hm).2
    cases hr with
    | copied j vis rev newId =>
      refine h.cons fun id body hreq hd => ?_
      cases hreq
      exact ⟨j, rfl, rfl, each_singleton.mp hτ hd⟩
    | refused j vis rev e =>
      refine h.cons fun id body hreq hd => ?_
      cases hreq
      exact ⟨j, rfl, rfl, each_singleton.mp hτ hd⟩
    | _ => exact h.silent rfl
  folder hr _ _ h := h.silent (by cases hr <;> rfl)
  list hr _ _ h := h.silent (by cases hr <;> rfl)
  store hr _ _ h := h.silent (by cases hr <;> rfl)
  run hr _ _ h := h.silent (by cases hr <;> rfl)
  solo _ _ h := h.silent rfl
  call _ _ h := h.silent rfl
  shift _ _ h := h
  env _ _ h := h

/-- Whenever a run copies an item although the listing of its folder held a file tagged for
it, the rule of the mode gave that file to another item of the folder before. -/
theorem tagged_copy_recognised (now : String) (d : V.State)
    {c : Config (cp.runs V ok) (Except Exc CopyResult)}
    (h : Reach (cp.runs V ok) (start (cp.runs V ok) cp.run ⟨cp.freshMem now, d⟩ []) c)
    {e : Event copierSig} {earlier : List (Event copierSig)} {id : String} {body : CopyBody}
    (hsuf : (e :: earlier) <:+ c.world.trace) (hreq : copyRequest e = some (id, body))
    (hd : Distinct earlier) :
    ∃ (j : FileJob) (items : List DriveFile), id = j.src.id ∧
      body = cp.copyBody j.dest j.src j.shortcutId ∧ Opened earlier j.dest items j.index ∧
      ((∃ item ∈ items, Keyed item j.eff) → Stolen earlier j.index j.eff) := by
  have hM : Keeps (V := V) cp ok Always fun s past G =>
      Asks s past G ∧ Each (Token.Missed past) G := Asks.keeps.both missed_keeps.keeps
  have hstart : Asks (⟨cp.freshMem now, d⟩ : Site V) [] {.idle, .begin} := by
    refine ⟨⟨⟨by simp [Token.Within], by simp [Token.Indexed]⟩, ?_⟩, ?_⟩
    · constructor
      · intro dest items i ho
        cases ho
      · rintro i eff item ⟨e, he, -⟩
        cases he
      · intro i key item hl
        cases hl
      · intro dest items i key ho
        cases ho
    · intro _ i key _
      simp [Token.asks, served]
  have hnone : CopiesMissed cp [] := by
    intro e earlier id body hsuf
    cases List.suffix_nil.mp hsuf
  obtain ⟨⟨G, -, hcopies⟩, -⟩ := (hM.both (CopiesMissed.keeps.weaken And.right)).throughout
    ⟨⟨hstart, by simp [Token.Missed]⟩, hnone⟩ h
  obtain ⟨j, hid, hbody, items, ho, hst⟩ := hcopies e earlier id body hsuf hreq hd
  exact ⟨j, items, hid, hbody, ho, hst⟩

end Recognition

/-! ## Two equal files -/

/-- No copy was requested for an item that the listing behind its index held. -/
def Recognised (cp : Copier) (past : List (Event copierSig)) : Prop :=
  ∀ e earlier id body, (e :: earlier) <:+ past → copyRequest e = some (id, body) →
    ∃ (j : FileJob) (items : List DriveFile), id = j.src.id ∧
      body = cp.copyBody j.dest j.src j.shortcutId ∧ Opened earlier j.dest items j.index ∧
      ¬∃ item ∈ items, Keyed item j.eff

/-- A listing that was indexed holds a file with the key. -/
def lists (key : String) : Event copierSig → Bool
  | .did (.mem (.newIndex _ items)) _ =>
    items.any fun item => !item.isFolder && decide (item.sourceKey = some key)
  | _ => true

/-- A destination that holds the copy `old` of the second of two files. -/
def oneCopyNodes (name : String) : List Node :=
  [folderNode "sourcefolder" "Source" [], folderNode "targetfolder" "Target" [],
    (folderNode "root" "Source" ["targetfolder"]).tagged [("source_folder_id", "sourcefolder")],
    fileNode "first" "a" ["sourcefolder"] "1" "m", fileNode "second" name ["sourcefolder"] "1" "m",
    (fileNode "old" name ["root"] "1" "m").tagged [("source_file_id", "second")]]

def equalDrive : Drive where
  nodes := oneCopyNodes "a"
  nodup := by decide

def otherDrive : Drive where
  nodes := oneCopyNodes "b"
  nodup := by decide

def oneCopyRun (d : Drive) : Config (openRuns smallCopier) (Except Exc CopyResult) :=
  openRun smallCopier d {} 400

theorem oneCopyRun_reach (d : Drive) :
    Reach (openRuns smallCopier) (openStart smallCopier d) (oneCopyRun d) :=
  openRun_reach (fun _ => rfl) 400

/-- The history up to the first request of a copy. -/
def uptoCopy (past : List (Event copierSig)) : List (Event copierSig) :=
  past.dropWhile fun e => (copyRequest e).isNone

/-- The request at the head of a history, with the shortcut it was made for. -/
def headRequest (past : List (Event copierSig)) : Option (String × Option String) :=
  (past.head?.bind copyRequest).map fun r =>
    (r.1, AList.lookup "source_shortcut_id" r.2.appProperties)

theorem headRequest_eq_some {past : List (Event copierSig)} {id : String} {sc : Option String}
    (h : headRequest past = some (id, sc)) : ∃ e earlier body, past = e :: earlier ∧
      copyRequest e = some (id, body) ∧ AList.lookup "source_shortcut_id" body.appProperties = sc := by
  cases past with
  | nil => exact nomatch h
  | cons e earlier =>
    simp only [headRequest, List.head?_cons, Option.bind_some, Option.map_eq_some_iff,
      Prod.mk.injEq] at h
    obtain ⟨⟨id', body⟩, hreq, rfl, hsc⟩ := h
    exact ⟨e, earlier, body, rfl, hreq, hsc⟩

/-- The levels entered list different items. -/
def distinctLevel : Event copierSig → Bool
  | .entered l => decide (l.children.map DriveFile.id).Nodup && l.children.all fun x => x.id ≠ ""
  | _ => true

theorem distinct_of_all {past : List (Event copierSig)} (h : past.all distinctLevel = true) :
    Distinct past := by
  intro l hl
  have he := List.all_eq_true.mp h _ hl
  simpa [distinctLevel] using he

/-- The first of two equal files takes the copy of the second, which is copied again. -/
theorem equal_copied_again : ∃ c : Config (openRuns smallCopier) (Except Exc CopyResult),
    Reach (openRuns smallCopier) (openStart smallCopier equalDrive) c ∧ Distinct c.world.trace ∧ ¬Recognised smallCopier c.world.trace := by
  refine ⟨oneCopyRun equalDrive, oneCopyRun_reach equalDrive,
    distinct_of_all (by decide +kernel), fun hrec => ?_⟩
  have hhead : headRequest (uptoCopy (oneCopyRun equalDrive).world.trace) =
      some ("second", none) := by decide +kernel
  obtain ⟨e, earlier, body, heq, hreq, hsc⟩ := headRequest_eq_some hhead
  have hsuf : (e :: earlier) <:+ (oneCopyRun equalDrive).world.trace := by
    rw [← heq]
    exact List.dropWhile_suffix _
  obtain ⟨j, items, hid, rfl, ho, hnone⟩ := hrec e earlier "second" body hsuf hreq
  have heff : j.eff = "second" := by
    have hnosc : truthy j.shortcutId = none := by
      rw [← lookup_copyProps_shortcut j.src]
      exact hsc
    rw [FileJob.eff, orElse, hnosc, hid]
    rfl
  have hall : (oneCopyRun equalDrive).world.trace.all (lists "second") = true := by
    decide +kernel
  have hitems := List.all_eq_true.mp hall _ (hsuf.subset (List.mem_cons_of_mem _ ho))
  obtain ⟨item, hm, hk⟩ := List.any_eq_true.mp hitems
  simp only [Bool.and_eq_true, Bool.not_eq_true', decide_eq_true_eq] at hk
  exact hnone ⟨item, hm, by rw [heff]; exact hk⟩

/-- With another name for the second file, the first one is copied, for which nothing was
listed. -/
theorem tagged_copy_recognised_other : ∃ e earlier body,
    (e :: earlier) <:+ (oneCopyRun otherDrive).world.trace ∧
    copyRequest e = some ("first", body) ∧
    ∃ (j : FileJob) (items : List DriveFile), "first" = j.src.id ∧
      body = smallCopier.copyBody j.dest j.src j.shortcutId ∧
      Opened earlier j.dest items j.index ∧
      ((∃ item ∈ items, Keyed item j.eff) → Stolen earlier j.index j.eff) := by
  have hhead : headRequest (uptoCopy (oneCopyRun otherDrive).world.trace) =
      some ("first", none) := by decide +kernel
  obtain ⟨e, earlier, body, heq, hreq, -⟩ := headRequest_eq_some hhead
  have hsuf : (e :: earlier) <:+ (oneCopyRun otherDrive).world.trace := by
    rw [← heq]
    exact List.dropWhile_suffix _
  have hd : Distinct (oneCopyRun otherDrive).world.trace := distinct_of_all (by decide +kernel)
  exact ⟨e, earlier, body, hsuf, hreq, tagged_copy_recognised "" otherDrive
    (oneCopyRun_reach otherDrive) hsuf hreq
    fun l hl => hd l (hsuf.subset (List.mem_cons_of_mem _ hl))⟩

end TurboCopy
