import TurboCopy.Copier.Durability
import TurboCopy.Copier.DryRun

/-!
# One record for each failed item

The records of failures flow from the logs into the memory of a run, and from there into the
failed report and the saved log, which the next run loads. Nothing on this way looks for a
second record of the same item. So an item is reported once exactly as long as no record is
added for an item that has one: by failing again, or from the log of another account.
-/

namespace TurboCopy

open Threads

/-! ## Records of items -/

/-- The effective source item of a record. -/
def FailedItem.item (f : FailedItem) : String := orElse f.effectiveSourceId f.sourceId

/-- The items of some records. -/
def namedItems (l : List FailedItem) : List String := l.map FailedItem.item

@[simp] theorem namedItems_append (l l' : List FailedItem) :
    namedItems (l ++ l') = namedItems l ++ namedItems l' := List.map_append

theorem mem_namedItems {l : List FailedItem} {id : String} :
    id ∈ namedItems l ↔ ∃ f ∈ l, f.item = id := List.mem_map

theorem namedItems_sublist {l l' : List FailedItem} (h : l.Sublist l') :
    (namedItems l).Sublist (namedItems l') := h.map _

/-- Records of distinct items that are the same item are the same record. -/
theorem eq_of_item {l : List FailedItem} (h : (namedItems l).Nodup) {f g : FailedItem} (hf : f ∈ l)
    (hg : g ∈ l) (hfg : f.item = g.item) : f = g :=
  List.inj_on_of_nodup_map h hf hg hfg

/-! ## The lists of a run -/

/-- The records a run would report: the prior ones and its own. -/
def Mem.reported (m : Mem) : List FailedItem := m.result.previousFailedItems ++ m.result.failedItems

/-- The records in the memory are of distinct items of `E`, in the report as in the log. -/
structure RecordsOnce (m : Mem) (E : Set String) : Prop where
  reported : (namedItems m.reported).Nodup
  saved : (namedItems m.state.failedItems).Nodup
  same : ∀ f ∈ m.state.failedItems, ∀ g ∈ m.reported, f.item = g.item → f = g
  known : ∀ f, f ∈ m.reported ∨ f ∈ m.state.failedItems → f.item ∈ E

/-- No record of the item is in the memory. -/
def Mem.Unrecorded (m : Mem) (id : String) : Prop :=
  id ∉ namedItems m.reported ∧ id ∉ namedItems m.state.failedItems

instance (m : Mem) (id : String) : Decidable (m.Unrecorded id) :=
  inferInstanceAs (Decidable (_ ∧ _))

namespace RecordsOnce

variable {m : Mem} {E E' : Set String}

theorem mono (h : RecordsOnce m E) (hE : E ⊆ E') : RecordsOnce m E' :=
  { h with known := fun f hf => hE (h.known f hf) }

/-- An operation that leaves the lists alone. -/
theorem of_lists {m' : Mem} (h : RecordsOnce m E) (hreported : m'.reported = m.reported)
    (hsaved : m'.state.failedItems = m.state.failedItems) : RecordsOnce m' E := by
  constructor
  · rw [hreported]
    exact h.reported
  · rw [hsaved]
    exact h.saved
  · rw [hreported, hsaved]
    exact h.same
  · rw [hreported, hsaved]
    exact h.known

theorem recordFailed (h : RecordsOnce m E) {it : FailedItem} (hnew : m.Unrecorded it.item)
    (hit : it.item ∈ E) : RecordsOnce (m.exec (.recordFailed it)).2 E := by
  obtain ⟨hreported, hsaved⟩ := hnew
  have hrep : (m.exec (.recordFailed it)).2.reported = m.reported ++ [it] :=
    (List.append_assoc ..).symm
  have hsav : (m.exec (.recordFailed it)).2.state.failedItems = m.state.failedItems ++ [it] := rfl
  have happend {l : List FailedItem} (hl : (namedItems l).Nodup) (hni : it.item ∉ namedItems l) :
      (namedItems (l ++ [it])).Nodup := by
    rw [namedItems_append]
    exact List.Nodup.append hl (List.nodup_singleton _) (List.disjoint_singleton.mpr hni)
  constructor
  · rw [hrep]
    exact happend h.reported hreported
  · rw [hsav]
    exact happend h.saved hsaved
  · rw [hrep, hsav]
    intro f hf g hg hfg
    rcases List.mem_append.mp hf with hf | hf <;> rcases List.mem_append.mp hg with hg | hg
    · exact h.same f hf g hg hfg
    · rw [List.mem_singleton.mp hg] at hfg
      exact absurd (mem_namedItems.mpr ⟨f, hf, hfg⟩) hsaved
    · rw [List.mem_singleton.mp hf] at hfg
      exact absurd (mem_namedItems.mpr ⟨g, hg, hfg.symm⟩) hreported
    · rw [List.mem_singleton.mp hf, List.mem_singleton.mp hg]
  · rw [hrep, hsav]
    intro f hf
    rw [List.mem_append, List.mem_append, or_or_or_comm, or_self, List.mem_singleton] at hf
    rcases hf with hf | rfl
    · exact h.known f hf
    · exact hit

theorem reconcile (h : RecordsOnce m E) (keys : List String) :
    RecordsOnce (m.exec (.reconcile keys)).2 E := by
  obtain ⟨previous, hprev, hmem⟩ : ∃ previous : List FailedItem,
      previous.Sublist m.result.previousFailedItems ∧ (m.exec (.reconcile keys)).2 = { m with
        result := { m.result with previousFailedItems := previous }
        state := { m.state with failedItems :=
          previous ++ m.state.failedItems.filter fun f => f ∉ previous } } :=
    ⟨_, List.filter_sublist, rfl⟩
  rw [hmem]
  have hrep : (previous ++ m.result.failedItems).Sublist m.reported := hprev.append_right _
  have hsub : previous.Sublist m.reported := (List.sublist_append_left ..).trans hrep
  constructor
  · exact h.reported.sublist (namedItems_sublist hrep)
  · rw [namedItems_append]
    apply List.Nodup.append (h.reported.sublist (namedItems_sublist hsub))
      (h.saved.sublist (namedItems_sublist List.filter_sublist))
    intro id hid hid'
    obtain ⟨g, hg, rfl⟩ := mem_namedItems.mp hid
    obtain ⟨f, hf, hfg⟩ := mem_namedItems.mp hid'
    obtain ⟨hsaved, hnot⟩ := List.mem_filter.mp hf
    rw [h.same f hsaved g (hsub.subset hg) hfg] at hnot
    exact of_decide_eq_true hnot hg
  · intro f hf g hg hfg
    rcases mem_rebuilt.mp hf with hf | hf
    · exact eq_of_item h.reported (hsub.subset hf) (hrep.subset hg) hfg
    · exact h.same f hf g (hrep.subset hg) hfg
  · rintro f (hf | hf)
    · exact h.known f (.inl (hrep.subset hf))
    · rcases mem_rebuilt.mp hf with hf | hf
      · exact h.known f (.inl (hsub.subset hf))
      · exact h.known f (.inr hf)

theorem mergeResume (h : RecordsOnce m E) {loaded : ResumeState}
    (hloaded : (namedItems loaded.failedItems).Nodup)
    (hnew : ∀ f ∈ loaded.failedItems, f.item ∉ namedItems m.result.failedItems ∧
      f.item ∉ namedItems m.state.failedItems)
    (hknown : ∀ f ∈ loaded.failedItems, f.item ∈ E) :
    RecordsOnce (m.exec (.mergeResume loaded)).2 E := by
  have hrep : (m.exec (.mergeResume loaded)).2.reported =
      loaded.failedItems ++ m.result.failedItems := rfl
  have hsav : (m.exec (.mergeResume loaded)).2.state.failedItems = m.state.failedItems := rfl
  have hown : m.result.failedItems.Sublist m.reported := List.sublist_append_right ..
  constructor
  · rw [hrep, namedItems_append]
    apply List.Nodup.append hloaded (h.reported.sublist (namedItems_sublist hown))
    intro id hid hid'
    obtain ⟨f, hf, rfl⟩ := mem_namedItems.mp hid
    exact (hnew f hf).1 hid'
  · rw [hsav]
    exact h.saved
  · rw [hrep, hsav]
    intro f hf g hg hfg
    rcases List.mem_append.mp hg with hg | hg
    · exact absurd (mem_namedItems.mpr ⟨f, hf, hfg⟩) (hnew g hg).2
    · exact h.same f hf g (hown.subset hg) hfg
  · rw [hrep, hsav]
    rintro f (hf | hf)
    · rcases List.mem_append.mp hf with hf | hf
      · exact hknown f hf
      · exact h.known f (.inl (hown.subset hf))
    · exact h.known f (.inr hf)

end RecordsOnce

/-! ## The records in the logs -/

section Logs

variable {sha256 : Json → String} {E E' : Set String}

/-- A content read as a log, at whatever time, holds these records. -/
def LogHolds (sha256 : Json → String) (raw : Content) (l : List FailedItem) : Prop :=
  ∃ now log, deserialize sha256 now raw = .ok log ∧ log.failedItems = l

/-- The contents hold records of distinct items, each and all together. -/
structure LogsApart (sha256 : Json → String) (raws : List Content) : Prop where
  each : ∀ raw ∈ raws, ∀ l, LogHolds sha256 raw l → (namedItems l).Nodup
  apart : raws.Pairwise fun a b => ∀ l l', LogHolds sha256 a l → LogHolds sha256 b l' →
    (namedItems l).Disjoint (namedItems l')

theorem LogsApart.tail {raw : Content} {raws : List Content} (h : LogsApart sha256 (raw :: raws)) :
    LogsApart sha256 raws :=
  ⟨fun r hr => h.each r (List.mem_cons_of_mem _ hr), (List.pairwise_cons.mp h.apart).2⟩

/-- Records gathered from some of the contents, the last one first. -/
inductive FromLogs (sha256 : Json → String) : List Content → List FailedItem → Prop
  | none : FromLogs sha256 [] []
  | skip {raws : List Content} {l : List FailedItem} (raw : Content)
      (h : FromLogs sha256 raws l) : FromLogs sha256 (raw :: raws) l
  | read {raws : List Content} {l l' : List FailedItem} {raw : Content}
      (h : FromLogs sha256 raws l) (hraw : LogHolds sha256 raw l') :
      FromLogs sha256 (raw :: raws) (l ++ l')

theorem FromLogs.held {raws : List Content} {l : List FailedItem} (h : FromLogs sha256 raws l)
    {id : String} (hid : id ∈ namedItems l) :
    ∃ raw ∈ raws, ∃ l', LogHolds sha256 raw l' ∧ id ∈ namedItems l' := by
  induction h with
  | none => exact nomatch hid
  | skip raw _ ih =>
    obtain ⟨raw', hraw, l', hl⟩ := ih hid
    exact ⟨raw', List.mem_cons_of_mem _ hraw, l', hl⟩
  | @read _ _ l' raw _ hraw ih =>
    rw [namedItems_append] at hid
    rcases List.mem_append.mp hid with hid | hid
    · obtain ⟨raw', hraw', l'', hl⟩ := ih hid
      exact ⟨raw', List.mem_cons_of_mem _ hraw', l'', hl⟩
    · exact ⟨raw, List.mem_cons_self .., l', hraw, hid⟩

theorem FromLogs.nodup {raws : List Content} {l : List FailedItem} (h : FromLogs sha256 raws l)
    (hapart : LogsApart sha256 raws) : (namedItems l).Nodup := by
  induction h with
  | none => exact List.nodup_nil
  | skip raw _ ih => exact ih hapart.tail
  | read h hraw ih =>
    rw [namedItems_append]
    apply List.Nodup.append (ih hapart.tail) (hapart.each _ (List.mem_cons_self ..) _ hraw)
    intro id hid hid'
    obtain ⟨raw', hraw', l'', hl, hmem⟩ := h.held hid
    exact (List.pairwise_cons.mp hapart.apart).1 raw' hraw' _ _ hraw hl hid' hmem

/-- The records in a content are of items of `E`. -/
def LogWithin (sha256 : Json → String) (E : Set String) (raw : Content) : Prop :=
  ∀ l, LogHolds sha256 raw l → ∀ f ∈ l, f.item ∈ E

theorem logHolds_serialize {st : ResumeState} {l : List FailedItem}
    (h : LogHolds sha256 (serialize sha256 st) l) : l = st.failedItems := by
  obtain ⟨now, log, hlog, rfl⟩ := h
  obtain ⟨m, -, hread⟩ := deserialize_serialize_eq sha256 now st
  rw [hread] at hlog
  cases hlog
  rfl

theorem logHolds_reportContent {now : String} {items l : List FailedItem}
    (h : LogHolds sha256 (Copier.reportContent now items) l) : l = [] := by
  obtain ⟨time, log, hlog, rfl⟩ := h
  have hfloor : Rat.floor 0 = 0 := rfl
  have hread : deserialize sha256 time (Copier.reportContent now items) =
      .ok { createdAt := orElse none time, updatedAt := orElse none time } := by
    simp [deserialize, Copier.reportContent, migrate, readState, readOr, Json.field,
      setdefaultField, setField, Json.isTrue, Json.toInt?, Json.toRat?, Json.optString,
      Json.asString, hfloor, bind, Except.bind, pure, Except.pure]
  rw [hread] at hlog
  cases hlog
  rfl

/-- The logs of a Drive hold records of items of `E` only. -/
def Drive.LogsWithin (sha256 : Json → String) (E : Set String) (d : Drive) : Prop :=
  ∀ n ∈ d, LogWithin sha256 E n.content

/-- The content a request writes. -/
def Request.written : Request → Option Content
  | .createJsonFile _ _ data _ => some data
  | .updateFileContent _ data => some data
  | _ => none

theorem Request.written_of_quiet {q : Request} (h : q.mutating = false) : q.written = none := by
  cases q with
  | createJsonFile name p data props => exact nomatch h
  | updateFileContent id data => exact nomatch h
  | _ => rfl

theorem logWithin_text (text : String) : LogWithin sha256 E (.text text) := by
  rintro l ⟨now, log, hlog, -⟩
  exact nomatch hlog

theorem Drive.LogsWithin.add {d : Drive} (h : d.LogsWithin sha256 E) {n : Node}
    {hn : d.Fresh n.id} (hcontent : LogWithin sha256 E n.content) :
    (d.add n hn).LogsWithin sha256 E := by
  intro m hm
  rcases Drive.mem_add.mp hm with rfl | hm
  · exact hcontent
  · exact h m hm

theorem Drive.LogsWithin.edit {d : Drive} (h : d.LogsWithin sha256 E) {id : String}
    {f : Node → Node} {hf : ∀ n, (f n).id = n.id}
    (hcontent : ∀ n ∈ d, LogWithin sha256 E (f n).content) :
    (d.edit id f hf).LogsWithin sha256 E := by
  intro m hm
  obtain ⟨n, hn, rfl⟩ := Drive.mem_edit.mp hm
  split_ifs
  · exact hcontent n hn
  · exact h n hn

theorem Drive.LogsWithin.serves {pf : Profile} (hcopies : ∀ n body f c, pf.copies n body f c →
    c = n.content) {d d' : Drive} (h : d.LogsWithin sha256 E) {q : Request} {x : q.Ret}
    (hs : Drive.Serves pf q d x d') (hwritten : ∀ data ∈ q.written, LogWithin sha256 E data) :
    d'.LogsWithin sha256 E := by
  cases hs with
  | raised e he hx => exact h
  | granted hg =>
    cases hg with
    | copyFile _ n hn body vis rev f c hf hc hp =>
      apply h.add
      rw [hcopies n body f c hc]
      exact h n hn
    | createFolder => exact h.add (logWithin_text "")
    | createJsonFile => exact h.add (hwritten _ rfl)
    | updateFileContent => exact h.edit fun _ _ => hwritten _ rfl
    | trashFile => exact h.edit fun n hn => h n hn
    | _ => exact h

/-- A content that is read. -/
theorem Drive.LogsWithin.read {pf : Profile} {d d' : Drive} (h : d.LogsWithin sha256 E)
    {id : String} {raw : Content} (hs : Drive.Serves pf (.getMedia id) d (.ok raw) d') :
    LogWithin sha256 E raw := by
  cases hs with
  | raised e he hx => exact nomatch hx
  | granted hg =>
    cases hg with
    | getMedia _ n hn => exact h n hn

/-- A call that does not mutate. -/
theorem Drive.Serves.unchanged {pf : Profile} {d d' : Drive} {q : Request} {x : q.Ret}
    (hs : Drive.Serves pf q d x d') (hq : q.mutating = false) : d' = d := by
  cases hs with
  | raised e he hx => rfl
  | granted hg => cases hg <;> first | rfl | exact nomatch hq

end Logs

/-! ## What a run writes -/

/-- The content an event writes. -/
def writtenBy : Event copierSig → Option Content
  | .did (.ask q) _ => q.written
  | _ => none

/-- The contents a run has read, the last one first. -/
def contentsRead : List (Event copierSig) → List Content
  | [] => []
  | .did (.ask (.getMedia _)) (.ok raw) :: past => raw :: contentsRead past
  | _ :: past => contentsRead past

/-- The items of `E` and those whose failure the history records. -/
def everFailed (E : Set String) (past : List (Event copierSig)) : Set String :=
  E ∪ {id | ∃ f, Recorded past f ∧ f.item = id}

/-- A report names distinct items, and a log no more than the items of `E`. -/
structure WritesOnce (sha256 : Json → String) (E : Set String) (data : Content) : Prop where
  report : ∀ now items, data = Copier.reportContent now items → (namedItems items).Nodup
  log : ∀ st, data = serialize sha256 st → (st.failedItems.length : ℕ∞) ≤ E.encard

section Writing

variable {sha256 : Json → String} {E : Set String} {past : List (Event copierSig)}
  {e : Event copierSig}

theorem everFailed_cons : everFailed E past ⊆ everFailed E (e :: past) := by
  rintro id (h | ⟨f, hf, rfl⟩)
  · exact .inl h
  · exact .inr ⟨f, List.mem_cons_of_mem _ hf, rfl⟩

theorem contentsRead_cons (e : Event copierSig) (past : List (Event copierSig)) :
    contentsRead (e :: past) = contentsRead past ∨
    ∃ raw, contentsRead (e :: past) = raw :: contentsRead past := by
  cases e with
  | entered l => exact .inl rfl
  | did o x =>
    cases o with
    | mem o => exact .inl rfl
    | ask q =>
      cases q with
      | getMedia id =>
        cases x with
        | error e => exact .inl rfl
        | ok raw => exact .inr ⟨raw, rfl⟩
      | _ => exact .inl rfl

theorem LogsApart.earlier (h : LogsApart sha256 (contentsRead (e :: past))) :
    LogsApart sha256 (contentsRead past) := by
  rcases contentsRead_cons e past with heq | ⟨raw, heq⟩
  · rwa [heq] at h
  · rw [heq] at h
    exact h.tail

theorem FromLogs.grow {l : List FailedItem} (h : FromLogs sha256 (contentsRead past) l) :
    FromLogs sha256 (contentsRead (e :: past)) l := by
  rcases contentsRead_cons e past with heq | ⟨raw, heq⟩
  · rwa [heq]
  · rw [heq]
    exact h.skip raw

theorem FromLogs.nil (raws : List Content) : FromLogs sha256 raws [] := by
  induction raws with
  | nil => exact .none
  | cons raw _ ih => exact ih.skip raw

theorem reportContent_inj {now now' : String} {items items' : List FailedItem}
    (h : Copier.reportContent now items = Copier.reportContent now' items') : items = items' := by
  simp only [Copier.reportContent, Content.json.injEq, Json.obj.injEq, List.cons.injEq,
    Prod.mk.injEq, Json.arr.injEq, true_and, and_true] at h
  have hread := FailedItem.mapM_fromDict?_toDict now items
  rw [h.2.2, FailedItem.mapM_fromDict?_toDict] at hread
  exact (Option.some.inj hread).symm

theorem serialize_ne_reportContent (st : ResumeState) (now : String) (items : List FailedItem) :
    serialize sha256 st ≠ Copier.reportContent now items := by
  simp [serialize, canonicalPayload, Copier.reportContent]

theorem length_le_encard {l : List FailedItem} (hnodup : (namedItems l).Nodup)
    (hl : ∀ f ∈ l, f.item ∈ E) : (l.length : ℕ∞) ≤ E.encard := by
  have hsub : ((namedItems l).toFinset : Set String) ⊆ E := by
    intro id hid
    obtain ⟨f, hf, rfl⟩ := mem_namedItems.mp (List.mem_toFinset.mp (Finset.mem_coe.mp hid))
    exact hl f hf
  calc (l.length : ℕ∞) = ((namedItems l).toFinset.card : ℕ∞) := by
        rw [List.toFinset_card_of_nodup hnodup, namedItems, List.length_map]
    _ = ((namedItems l).toFinset : Set String).encard := (Set.encard_coe_eq_coe_finsetCard _).symm
    _ ≤ E.encard := Set.encard_le_encard hsub

theorem writesOnce_report {now : String} {items : List FailedItem} (h : (namedItems items).Nodup) :
    WritesOnce sha256 E (Copier.reportContent now items) where
  report now' items' heq := by rwa [← reportContent_inj heq]
  log st heq := absurd heq.symm (serialize_ne_reportContent st now items)

theorem writesOnce_log {st : ResumeState} (hnodup : (namedItems st.failedItems).Nodup)
    (hst : ∀ f ∈ st.failedItems, f.item ∈ E) : WritesOnce sha256 E (serialize sha256 st) where
  report now items heq := absurd heq (serialize_ne_reportContent st now items)
  log st' heq := by
    obtain ⟨m, -, hread⟩ := deserialize_serialize_eq sha256 "" st'
    rw [← heq] at hread
    have hsame : st'.failedItems = st.failedItems :=
      @logHolds_serialize sha256 _ _ ⟨"", _, hread, rfl⟩
    rw [hsame]
    exact length_le_encard hnodup hst

end Writing

/-! ## Runs that add no second record -/

/-- A step that adds no record of an item that has one. Nothing that a dry run records is
reported or saved. -/
def addsOnce {V : Service} (cp : Copier) : StepCondition V
  | .mem (.recordFailed it), s, _, _ => cp.config.dryRun = false → s.mem.Unrecorded it.item
  | .mem (.mergeResume loaded), s, _, _ => cp.config.dryRun = false →
    ∀ f ∈ loaded.failedItems, f.item ∉ namedItems s.mem.result.failedItems ∧
      f.item ∉ namedItems s.mem.state.failedItems
  | _, _, _, _ => True

/-- What the tokens of a step tell of its operation. -/
def Fits (sha256 : Json → String) (E : Set String) : CopierOp → Prop
  | .mem (.mergeResume loaded) =>
    (namedItems loaded.failedItems).Nodup ∧ ∀ f ∈ loaded.failedItems, f.item ∈ E
  | .ask q => ∀ data ∈ q.written, LogWithin sha256 E data ∧ WritesOnce sha256 E data
  | _ => True

/-- What is known of the failures that a thread holds. -/
def Held (sha256 : Json → String) (E : Set String) (past : List (Event copierSig)) : Token → Prop
  | .merging _ merged => FromLogs sha256 (contentsRead past) merged.failedItems ∧
    ∀ f ∈ merged.failedItems, f.item ∈ everFailed E past
  | .reading _ raw _ merged => ∀ l, LogHolds sha256 raw l →
    FromLogs sha256 (contentsRead past) (merged.failedItems ++ l) ∧
      ∀ f ∈ merged.failedItems ++ l, f.item ∈ everFailed E past
  | .saving st =>
    (namedItems st.failedItems).Nodup ∧ ∀ f ∈ st.failedItems, f.item ∈ everFailed E past
  | .writing st _ =>
    (namedItems st.failedItems).Nodup ∧ ∀ f ∈ st.failedItems, f.item ∈ everFailed E past
  | .returned r => (namedItems (r.previousFailedItems ++ r.failedItems)).Nodup
  | _ => True

/-- All a run has written names items at most once. -/
def Told (sha256 : Json → String) (E : Set String) (past : List (Event copierSig)) : Prop :=
  ∀ later e earlier, past = later ++ e :: earlier → ∀ data ∈ writtenBy e,
    WritesOnce sha256 (everFailed E earlier) data

/-- A run over the failures of `E`: its memory, the logs of its Drive and what it wrote. -/
structure OnceEach {pf : Profile} (sha256 : Json → String) (E : Set String)
    (s : Site (Drive.service pf)) (past : List (Event copierSig)) : Prop where
  lists : RecordsOnce s.mem (everFailed E past)
  drive : Drive.LogsWithin sha256 (everFailed E past) s.drive
  told : Told sha256 E past

section Runs

variable {pf : Profile} {sha256 : Json → String} {E : Set String} {cp : Copier}
  {past : List (Event copierSig)} {s s' : Site (Drive.service pf)} {o : CopierOp} {x : o.Out}

theorem LogWithin.mono {E' : Set String} {raw : Content} (h : LogWithin sha256 E raw)
    (hE : E ⊆ E') : LogWithin sha256 E' raw := fun l hl f hf => hE (h l hl f hf)

theorem Drive.LogsWithin.mono {E' : Set String} {d : Drive} (h : d.LogsWithin sha256 E)
    (hE : E ⊆ E') : d.LogsWithin sha256 E' := fun n hn => (h n hn).mono hE

theorem Held.grow {t : Token} (h : Held sha256 E past t) (e : Event copierSig) :
    Held sha256 E (e :: past) t := by
  cases t with
  | merging todo merged => exact ⟨h.1.grow, fun f hf => everFailed_cons (h.2 f hf)⟩
  | reading entry raw todo merged =>
    exact fun l hl => ⟨(h l hl).1.grow, fun f hf => everFailed_cons ((h l hl).2 f hf)⟩
  | saving st => exact ⟨h.1, fun f hf => everFailed_cons (h.2 f hf)⟩
  | writing st own => exact ⟨h.1, fun f hf => everFailed_cons (h.2 f hf)⟩
  | _ => exact h

/-- An operation that leaves the failures of the memory alone. -/
theorem Mem.reported_spares {o : MemOp} (m : Mem) (h : o.sparesFailures = true) :
    (m.exec o).2.reported = m.reported := by
  cases o with
  | trustResume i eff src => simp only [Mem.exec]; split <;> rfl
  | popMatch i src mode allow eff => simp only [Mem.exec]; split <;> rfl
  | reserve max size reason => simp only [Mem.exec]; split_ifs <;> rfl
  | beginSave force => simp only [Mem.exec]; split_ifs <;> rfl
  | mergeResume loaded => cases h
  | reconcile keys => cases h
  | recordFailed item => cases h
  | _ => rfl

theorem RecordsOnce.step (hdry : cp.config.dryRun = false) (hs : s.Step (addsOnce cp) o x s')
    (h : RecordsOnce s.mem (everFailed E past)) (hfits : Fits sha256 (everFailed E past) o) :
    RecordsOnce s'.mem (everFailed E (.did o x :: past)) := by
  have hgrow := h.mono (everFailed_cons (e := .did o x))
  cases o with
  | ask q =>
    rw [hs.2.1]
    exact hgrow
  | mem o =>
    obtain ⟨-, rfl, hok⟩ := hs
    cases o with
    | recordFailed it =>
      exact hgrow.recordFailed (hok hdry) (.inr ⟨it, List.mem_cons_self .., rfl⟩)
    | mergeResume loaded =>
      exact hgrow.mergeResume hfits.1 (hok hdry) fun f hf => everFailed_cons (hfits.2 f hf)
    | reconcile keys => exact hgrow.reconcile keys
    | _ => exact hgrow.of_lists (Mem.reported_spares _ rfl) (Mem.exec_spares _ rfl).2

theorem Drive.LogsWithin.step {ok : StepCondition (Drive.service pf)}
    (hcopies : ∀ n body f c, pf.copies n body f c → c = n.content) (hs : s.Step ok o x s')
    (h : Drive.LogsWithin sha256 (everFailed E past) s.drive)
    (hfits : Fits sha256 (everFailed E past) o) :
    Drive.LogsWithin sha256 (everFailed E (.did o x :: past)) s'.drive := by
  cases o with
  | mem o =>
    obtain ⟨-, rfl, -⟩ := hs
    exact h.mono everFailed_cons
  | ask q => exact (h.serves hcopies hs.1 fun data hd => (hfits data hd).1).mono everFailed_cons

theorem Told.cons {e : Event copierSig} (h : Told sha256 E past)
    (he : ∀ data ∈ writtenBy e, WritesOnce sha256 (everFailed E past) data) :
    Told sha256 E (e :: past) := by
  rintro (_ | ⟨e', later⟩) e'' earlier heq
  · obtain ⟨rfl, rfl⟩ := List.cons.inj heq
    exact he
  · exact h later e'' earlier (List.cons.inj heq).2

theorem OnceEach.step (hdry : cp.config.dryRun = false)
    (hcopies : ∀ n body f c, pf.copies n body f c → c = n.content)
    (hs : s.Step (addsOnce cp) o x s') (h : OnceEach sha256 E s past)
    (hfits : Fits sha256 (everFailed E past) o) : OnceEach sha256 E s' (.did o x :: past) where
  lists := h.lists.step hdry hs hfits
  drive := h.drive.step hcopies hs hfits
  told := by
    refine h.told.cons fun data hd => ?_
    cases o with
    | mem o => exact nomatch hd
    | ask q => exact (hfits data hd).2

theorem OnceEach.entered (h : OnceEach sha256 E s past) (l : Level) :
    OnceEach sha256 E s (.entered l :: past) where
  lists := h.lists.mono everFailed_cons
  drive := h.drive.mono everFailed_cons
  told := h.told.cons fun _ hd => nomatch hd

/-- The invariant of a run whose logs are apart. -/
def OnceWhile (sha256 : Json → String) (E : Set String) : Invariant (Drive.service pf) :=
  fun s past G => LogsApart sha256 (contentsRead past) →
    OnceEach sha256 E s past ∧ Each (Held sha256 E past) G

variable {G τ τ' : Multiset Token}

/-- A step of a thread that holds `τ` before it and `τ'` after it. -/
theorem OnceWhile.did (hdry : cp.config.dryRun = false)
    (hcopies : ∀ n body f c, pf.copies n body f c → c = n.content)
    (hs : s.Step (addsOnce cp) o x s') (h : OnceWhile sha256 E s past (G + τ))
    (hfits : LogsApart sha256 (contentsRead past) → Each (Held sha256 E past) τ →
      Fits sha256 (everFailed E past) o)
    (hheld : OnceEach sha256 E s past → Each (Held sha256 E past) τ →
      Each (Held sha256 E (.did o x :: past)) τ') :
    OnceWhile sha256 E s' (.did o x :: past) (G + τ') := by
  intro hapart
  obtain ⟨honce, hG⟩ := h hapart.earlier
  rw [each_add] at hG ⊢
  exact ⟨honce.step hdry hcopies hs (hfits hapart.earlier hG.2),
    hG.1.mono fun _ ht => ht.grow _, hheld honce hG.2⟩

theorem failuresHeld_entry (l : Level) (index : ℕ) (src : DriveFile) :
    Held sha256 E past (.entry l index src) := by
  unfold Token.entry
  split_ifs <;> trivial

theorem failuresHeld_target (l : Level) (index : ℕ) (src target : DriveFile) :
    Held sha256 E past (.target l index src target) := by
  unfold Token.target
  split_ifs <;> trivial

theorem FileRule.failuresHeld (h : FileRule cp o x τ τ') : Each (Held sha256 E past) τ' := by
  cases h <;> simp [Held]

theorem FolderRule.failuresHeld (h : FolderRule cp o x τ τ') : Each (Held sha256 E past) τ' := by
  cases h <;> simp [Held]

theorem ListRule.failuresHeld (h : ListRule cp o x τ τ') : Each (Held sha256 E past) τ' := by
  cases h with
  | multiLast group out tok files => exact each_map.mpr fun _ _ => trivial
  | index l items i => exact each_map.mpr fun _ _ => failuresHeld_entry _ _ _
  | resolved l index src target data ht => exact each_singleton.mpr (failuresHeld_target _ _ _ _)
  | _ => simp [Held]

theorem FileRule.fits (h : FileRule cp o x τ τ') : Fits sha256 E o := by
  cases h <;> first | trivial | exact fun _ hd => nomatch hd

theorem FolderRule.fits (h : FolderRule cp o x τ τ') : Fits sha256 E o := by
  cases h <;> first | trivial | exact fun _ hd => nomatch hd

theorem ListRule.fits (h : ListRule cp o x τ τ') : Fits sha256 E o := by
  cases h <;> first | trivial | exact fun _ hd => nomatch hd

theorem QuietRule.fits (h : QuietRule o x) : Fits sha256 E o := by
  cases h <;> first | trivial | exact fun _ hd => nomatch hd

theorem StopRule.fits (h : StopRule o x) : Fits sha256 E o := by
  cases h <;> trivial

theorem RunRule.fits {sourceId destParent : String} (h : RunRule cp sourceId destParent o x τ τ') :
    Fits sha256 E o := by
  cases h <;> first | trivial | exact fun _ hd => nomatch hd

theorem StoreRule.fits (h : StoreRule cp o x τ τ')
    (hapart : LogsApart cp.sha256 (contentsRead past)) (hτ : Each (Held cp.sha256 E past) τ) :
    Fits cp.sha256 (everFailed E past) o := by
  have hlog {st : ResumeState} (hst : (namedItems st.failedItems).Nodup ∧
      ∀ f ∈ st.failedItems, f.item ∈ everFailed E past) {q : Request}
      (hq : q.written = some (serialize cp.sha256 st)) :
      ∀ data ∈ q.written, LogWithin cp.sha256 (everFailed E past) data ∧
        WritesOnce cp.sha256 (everFailed E past) data := by
    intro data hd
    rw [hq] at hd
    cases hd
    refine ⟨fun l hl f hf => ?_, writesOnce_log hst.1 hst.2⟩
    rw [logHolds_serialize hl] at hf
    exact hst.2 f hf
  have hreport {now : String} {items : List FailedItem} (hn : (namedItems items).Nodup)
      {q : Request} (hq : q.written = some (Copier.reportContent now items)) :
      ∀ data ∈ q.written, LogWithin cp.sha256 (everFailed E past) data ∧
        WritesOnce cp.sha256 (everFailed E past) data := by
    intro data hd
    rw [hq] at hd
    cases hd
    refine ⟨fun l hl f hf => ?_, writesOnce_report hn⟩
    rw [logHolds_reportContent hl] at hf
    exact nomatch hf
  cases h with
  | merge merged u =>
    obtain ⟨hfrom, hknown⟩ := each_singleton.mp hτ
    exact ⟨hfrom.nodup hapart, hknown⟩
  | update st own id r hid => exact hlog (each_singleton.mp hτ) rfl
  | create st own newId hid => exact hlog (each_singleton.mp hτ) rfl
  | notCreated st own e hid => exact hlog (each_singleton.mp hτ) rfl
  | report d tok files f now res r hf hn ho => exact hreport (each_cons.mp hτ).1 rfl
  | newReport d tok files now res r => exact hreport (each_cons.mp hτ).1 rfl
  | _ => first | trivial | exact fun _ hd => nomatch hd

theorem StoreRule.failuresHeld (hr : StoreRule cp o x τ τ') (hs : s.Step (addsOnce cp) o x s')
    (h : OnceEach cp.sha256 E s past) (hτ : Each (Held cp.sha256 E past) τ) :
    Each (Held cp.sha256 E (.did o x :: past)) τ' := by
  cases hr with
  | read entry todo merged raw =>
    obtain ⟨hfrom, hknown⟩ := each_singleton.mp hτ
    refine each_singleton.mpr fun l hl => ⟨.read hfrom hl, fun f hf => ?_⟩
    rcases List.mem_append.mp hf with hf | hf
    · exact everFailed_cons (hknown f hf)
    · exact everFailed_cons (h.drive.read hs.1 l hl f hf)
  | snapshot now st =>
    obtain ⟨rfl, -, -⟩ := hs
    refine each_singleton.mpr ⟨h.lists.saved, fun f hf => ?_⟩
    exact everFailed_cons (h.lists.known f (.inr hf))
  | ownLog st own => exact each_singleton.mpr ((each_singleton.mp hτ).grow _)
  | _ => simp [Held]

theorem RunRule.failuresHeld {sourceId destParent : String}
    (hr : RunRule cp sourceId destParent o x τ τ') (hs : s.Step (addsOnce cp) o x s')
    (h : OnceEach cp.sha256 E s past) : Each (Held cp.sha256 E (.did o x :: past)) τ' := by
  cases hr with
  | destRoot name d u => exact each_add.mpr ⟨by simp [Held], each_rootTokens fun _ => trivial⟩
  | returned r =>
    obtain ⟨rfl, -, -⟩ := hs
    exact each_singleton.mpr h.lists.reported
  | _ => simp [Held]

theorem CopierShift.failuresHeld (hr : CopierShift cp τ τ') (hτ : Each (Held cp.sha256 E past) τ) :
    Each (Held cp.sha256 E past) τ' := by
  cases hr with
  | batch group => exact each_add.mpr ⟨hτ, each_singleton.mpr trivial⟩
  | merge d tok account created updated files =>
    exact each_singleton.mpr ⟨.nil _, fun _ hf => nomatch hf⟩
  | merged entry raw todo merged account now st hst =>
    have hread := each_singleton.mp hτ st.failedItems ⟨now, st, hst, rfl⟩
    have hfailed : (Copier.mergeLog account merged entry st).failedItems =
        merged.failedItems ++ st.failedItems := by
      unfold Copier.mergeLog
      dsimp only
      split_ifs <;> rfl
    refine each_cons.mpr ⟨?_, each_singleton.mpr trivial⟩
    rw [Held, hfailed]
    exact hread
  | _ => simp_all [Held]

/-- A run in which no record is added for an item that has one names items at most once. -/
theorem OnceWhile.keeps (hdry : cp.config.dryRun = false)
    (hcopies : ∀ n body f c, pf.copies n body f c → c = n.content) :
    Keeps cp (addsOnce cp) Always (@OnceWhile pf cp.sha256 E) where
  quiet {_ _ _ _ past G} hr hs _ h := by
    rw [← add_zero G] at h ⊢
    exact h.did hdry hcopies hs (fun _ _ => hr.fits) fun _ _ => each_zero
  stop τ hr hs _ h :=
    h.did hdry hcopies hs (fun _ _ => hr.fits) fun _ _ => each_singleton.mpr trivial
  file hr hs _ h := h.did hdry hcopies hs (fun _ _ => hr.fits) fun _ _ => hr.failuresHeld
  folder hr hs _ h := h.did hdry hcopies hs (fun _ _ => hr.fits) fun _ _ => hr.failuresHeld
  list hr hs _ h := h.did hdry hcopies hs (fun _ _ => hr.fits) fun _ _ => hr.failuresHeld
  store hr hs _ h := h.did hdry hcopies hs hr.fits (hr.failuresHeld hs)
  run hr hs _ h := h.did hdry hcopies hs (fun _ _ => hr.fits) fun ho _ => hr.failuresHeld hs ho
  solo {_ _ _ root} hs _ h := by
    rw [add_comm] at h ⊢
    refine h.did hdry hcopies hs (fun _ _ => trivial) fun _ _ => each_singleton.mpr trivial
  call hc _ h := by
    intro hapart
    obtain ⟨honce, hG⟩ := h hapart
    rw [each_add] at hG ⊢
    refine ⟨honce.entered _, hG.1.mono fun _ ht => ht.grow _, ?_⟩
    cases hc with
    | enter j dest out => simp [Held]
  shift hc _ h := by
    intro hapart
    obtain ⟨honce, hG⟩ := h hapart
    rw [each_add] at hG ⊢
    exact ⟨honce, hG.1, hc.failuresHeld hG.2⟩
  env reason _ h := by
    intro hapart
    obtain ⟨honce, hG⟩ := h hapart
    exact ⟨⟨honce.lists.of_lists rfl rfl, honce.drive, honce.told⟩, hG⟩

end Runs

/-! ## Sequences of runs -/

section Sequence

variable {sha256 : Json → String} {E : Set String}

theorem everFailed_append (past later : List (Event copierSig)) :
    everFailed (everFailed E past) later = everFailed E (later ++ past) := by
  ext id
  simp only [everFailed, Recorded, Set.mem_union, Set.mem_ofPred_eq, List.mem_append]
  constructor
  · rintro ((h | ⟨f, hf, hid⟩) | ⟨f, hf, hid⟩)
    · exact .inl h
    · exact .inr ⟨f, .inr hf, hid⟩
    · exact .inr ⟨f, .inl hf, hid⟩
  · rintro (h | ⟨f, hf | hf, hid⟩)
    · exact .inl (.inl h)
    · exact .inr ⟨f, hf, hid⟩
    · exact .inl (.inr ⟨f, hf, hid⟩)

/-- A run after a history. -/
theorem Told.append {past later : List (Event copierSig)} (h : Told sha256 E past)
    (hlater : Told sha256 (everFailed E past) later) : Told sha256 E (later ++ past) := by
  intro after e earlier heq
  rcases List.append_eq_append_iff.mp heq with ⟨l, rfl, hl⟩ | ⟨l, hl, hl'⟩
  · exact h l e earlier hl
  · cases l with
    | nil => exact h [] e earlier hl'.symm
    | cons e' l =>
      rw [List.cons_append] at hl'
      obtain ⟨rfl, rfl⟩ := List.cons.inj hl'
      rw [← everFailed_append]
      exact hlater after e l hl

/-- The copies on a Drive have the content of their sources. -/
def Profile.CopiesContent (pf : Profile) : Prop :=
  ∀ n body f c, pf.copies n body f c → c = n.content

/-- Runs, one after the other, from one source folder into one destination, from the Drive `d₀`
to the Drive `d`. Each run starts with an empty memory, and ends or is interrupted. -/
inductive RunSequence (sha256 : Json → String) (source dest : String)
    (ok : ∀ pf : Profile, Copier → StepCondition (Drive.service pf))
    (logs : Copier → List Content → Prop) (d₀ : Drive) : Drive → List (Event copierSig) → Prop
  | none : RunSequence sha256 source dest ok logs d₀ d₀ []
  | run {d : Drive} {past : List (Event copierSig)}
      (h : RunSequence sha256 source dest ok logs d₀ d past) (pf : Profile)
      (hpf : pf.CopiesContent) (cp : Copier) (hsha : cp.sha256 = sha256)
      (hsource : cp.sourceId = source) (hdest : cp.destParent = dest) (now : String)
      {c : Config (cp.runs (Drive.service pf) (ok pf cp)) (Except Exc CopyResult)}
      (hc : Reach (cp.runs (Drive.service pf) (ok pf cp))
        (start (cp.runs (Drive.service pf) (ok pf cp)) cp.run ⟨cp.freshMem now, d⟩ []) c)
      (hlogs : logs cp (contentsRead c.world.trace)) :
      RunSequence sha256 source dest ok logs d₀ c.world.state.drive (c.world.trace ++ past)

/-- A run that adds records reads logs that hold records of distinct items. -/
def logsApart (cp : Copier) (raws : List Content) : Prop :=
  cp.config.dryRun = false → LogsApart cp.sha256 raws

/-- The items whose records the logs of a Drive hold. -/
def loggedItems (sha256 : Json → String) (d : Drive) : Set String :=
  {id | ∃ n ∈ d, ∃ l, LogHolds sha256 n.content l ∧ id ∈ namedItems l}

section OneRun

variable {pf : Profile} {cp : Copier} {d : Drive} {now : String}
  {ok : StepCondition (Drive.service pf)}
  {c : Config (cp.runs (Drive.service pf) ok) (Except Exc CopyResult)}

/-- Calls that do not mutate leave the Drive as it is. -/
theorem drive_unchanged_keeps (d : Drive) : Keeps cp ok Always fun s past _ =>
    (∀ q x, .did (.ask q) x ∈ past → q.mutating = false) → s.drive = d := by
  apply Keeps.of_step
  · intro o x s s' past hs h hq
    have hd := h fun q y hm => hq q y (List.mem_cons_of_mem _ hm)
    cases o with
    | mem o =>
      obtain ⟨-, rfl, -⟩ := hs
      exact hd
    | ask q =>
      have hquiet : q.mutating = false := hq q x (List.mem_cons_self ..)
      rw [← hd]
      exact Drive.Serves.unchanged hs.1 hquiet
  · exact fun h hq => h fun q y hm => hq q y (List.mem_cons_of_mem _ hm)
  · exact fun _ h => h

section Dry

-- The text of `run` must not be unfolded when its guarantee is used.
attribute [local irreducible] Prog.Guarantees

/-- A dry run leaves the Drive as it is and writes nothing. -/
theorem dry_run_tells_nothing (hdry : cp.config.dryRun = true)
    (h : Reach (cp.runs (Drive.service pf) ok)
      (start (cp.runs (Drive.service pf) ok) cp.run ⟨cp.freshMem now, d⟩ []) c) :
    c.world.state.drive = d ∧ Told sha256 E c.world.trace := by
  have hrun : Prog.Guarantees (S := copierSig) dryOutcome Harmless cp.run := Copier.spares_run hdry
  have hquiet (q : Request) (x : q.Ret) (hm : .did (.ask q) x ∈ c.world.trace) :
      q.mutating = false :=
    hrun.reach (cp.admits_dryOutcome _ ok) (Copier.spares_processLevel hdry) hdry h (.ask q) x hm
  obtain ⟨⟨G, hG⟩, -⟩ := (drive_unchanged_keeps d).throughout (s := ⟨cp.freshMem now, d⟩)
    (fun _ => rfl) h
  refine ⟨hG hquiet, ?_⟩
  intro later e earlier heq data hdata
  have hm : e ∈ c.world.trace := by simp [heq]
  cases e with
  | entered l => exact nomatch hdata
  | did o x =>
    cases o with
    | mem o => exact nomatch hdata
    | ask q =>
      rw [writtenBy, Request.written_of_quiet (hquiet q x hm)] at hdata
      exact nomatch hdata

end Dry

theorem OnceEach.start (hd : d.LogsWithin cp.sha256 E) :
    OnceEach cp.sha256 E (⟨cp.freshMem now, d⟩ : Site (Drive.service pf)) [] where
  lists := ⟨List.nodup_nil, List.nodup_nil, by nofun, by nofun⟩
  drive := hd.mono Set.subset_union_left
  told later e earlier heq := by simp at heq

/-- A run over failures of `E` that adds no record of an item that has one. -/
theorem real_run_tells_once (hdry : cp.config.dryRun = false) (hpf : pf.CopiesContent)
    (hd : d.LogsWithin cp.sha256 E)
    {c : Config (cp.runs (Drive.service pf) (addsOnce cp)) (Except Exc CopyResult)}
    (h : Reach (cp.runs (Drive.service pf) (addsOnce cp))
      (start (cp.runs (Drive.service pf) (addsOnce cp)) cp.run ⟨cp.freshMem now, d⟩ []) c)
    (hapart : LogsApart cp.sha256 (contentsRead c.world.trace)) :
    Drive.LogsWithin cp.sha256 (everFailed E c.world.trace) c.world.state.drive ∧
      Told cp.sha256 E c.world.trace := by
  have hstart : OnceWhile cp.sha256 E (⟨cp.freshMem now, d⟩ : Site (Drive.service pf)) []
      {.idle, .begin} := fun _ => ⟨.start hd, by simp [Held]⟩
  obtain ⟨⟨G, hG⟩, -⟩ := (OnceWhile.keeps hdry hpf).throughout hstart h
  obtain ⟨honce, -⟩ := hG hapart
  exact ⟨honce.drive, honce.told⟩

end OneRun

/-- In every sequence of runs that add no record of an item that has one, every report that is
written names distinct items, and every log that is written no more failures than items that
have failed before. -/
theorem failures_reported_once {source dest : String} {d₀ d : Drive}
    {past : List (Event copierSig)}
    (h : RunSequence sha256 source dest (fun _ cp => addsOnce cp) logsApart d₀ d past) :
    Told sha256 (loggedItems sha256 d₀) past := by
  suffices hboth : d.LogsWithin sha256 (everFailed (loggedItems sha256 d₀) past) ∧
      Told sha256 (loggedItems sha256 d₀) past from hboth.2
  induction h with
  | none =>
    constructor
    · intro n hn l hl f hf
      exact .inl ⟨n, hn, l, hl, mem_namedItems.mpr ⟨f, hf, rfl⟩⟩
    · intro later e earlier heq
      simp at heq
  | @run d past _ pf hpf cp hsha _ _ now c hc hlogs ih =>
    obtain ⟨hd, htold⟩ := ih
    cases hdry : cp.config.dryRun with
    | true =>
      obtain ⟨hdrive, hrun⟩ := dry_run_tells_nothing hdry hc
      rw [hdrive]
      refine ⟨hd.mono ?_, htold.append hrun⟩
      rw [← everFailed_append]
      exact Set.subset_union_left
    | false =>
      subst hsha
      obtain ⟨hdrive, hrun⟩ := real_run_tells_once hdry hpf hd hc (hlogs hdry)
      rw [everFailed_append] at hdrive
      exact ⟨hdrive, htold.append hrun⟩

end Sequence

/-! ## A file that fails twice -/

/-- A source with one file. -/
def oneFileDrive : Drive where
  nodes := [folderNode "sourcefolder" "Source" [], folderNode "targetfolder" "Target" [],
    (folderNode "root" "Source" ["targetfolder"]).tagged [("source_folder_id", "sourcefolder")],
    fileNode "file" "a.txt" ["sourcefolder"] "1" "m"]
  nodup := by decide

/-- Every copy is refused. -/
def refusedCopies : Plan where
  raise _ := some { text := "backend error", status := some 500 }

def isCopy : Request → Bool
  | .copyFile _ _ _ _ => true
  | _ => false

theorem refusedCopies_admitted : openProfile.Admits isCopy refusedCopies :=
  ⟨fun _ _ => trivial, fun _ _ _ id => ⟨⟨id, rfl⟩, rfl⟩⟩

theorem openProfile_copiesContent : openProfile.CopiesContent := fun _ _ _ _ h => h.2

/-- A run in which every copy is refused. -/
def refusedCopiesRun (d : Drive) : Config (openRuns smallCopier) (Except Exc CopyResult) :=
  replay (refusedCopies.script smallCopier openProfile anyStep isCopy fun _ _ _ _ => true) 100
    (openStart smallCopier d)

theorem refusedCopiesRun_reach (d : Drive) :
    Reach (openRuns smallCopier) (openStart smallCopier d) (refusedCopiesRun d) :=
  replay_reach (Plan.legal refusedCopies_admitted fun _ _ _ _ _ => trivial) 100 _

/-- A look whether a step adds a second record. -/
def addsOnceCheck {V : Service} : (o : CopierOp) → Site V → o.Out → Site V → Bool
  | .mem (.recordFailed it), s, _, _ => s.mem.Unrecorded it.item
  | .mem (.mergeResume loaded), s, _, _ =>
    loaded.failedItems.all fun f =>
      f.item ∉ namedItems s.mem.result.failedItems ∧ f.item ∉ namedItems s.mem.state.failedItems
  | _, _, _, _ => true

theorem addsOnce_of_check {V : Service} {cp : Copier} {o : CopierOp} {s s' : Site V} {x : o.Out}
    (h : addsOnceCheck o s x s' = true) : addsOnce cp o s x s' := by
  cases o with
  | ask q => trivial
  | mem o =>
    cases o with
    | recordFailed it =>
      exact fun _ => of_decide_eq_true h
    | mergeResume loaded => exact fun _ f hf => of_decide_eq_true (List.all_eq_true.mp h f hf)
    | _ => trivial

/-- A run that adds no second record. -/
def onceRun (plan : Plan) (mayRaise : Request → Bool) (d : Drive) :
    Config (smallCopier.runs (Drive.service openProfile) (addsOnce smallCopier))
      (Except Exc CopyResult) :=
  replay (plan.script smallCopier openProfile (addsOnce smallCopier) mayRaise addsOnceCheck) 120
    (start _ smallCopier.run ⟨smallCopier.freshMem "", d⟩ [])

theorem onceRun_reach {plan : Plan} {mayRaise : Request → Bool}
    (h : openProfile.Admits mayRaise plan) (d : Drive) :
    Reach (smallCopier.runs (Drive.service openProfile) (addsOnce smallCopier))
      (start _ smallCopier.run ⟨smallCopier.freshMem "", d⟩ []) (onceRun plan mayRaise d) :=
  replay_reach (Plan.legal h fun _ _ _ _ h => addsOnce_of_check h) 120 _

/-- The first run adds one record of the file. -/
abbrev onceRefusedRun := onceRun refusedCopies isCopy oneFileDrive

/-- The second run loads that record, and the file is copied. -/
abbrev onceClearedRun := onceRun {} (fun _ => true) onceRefusedRun.world.state.drive

/-- One log of distinct items has no other to clash with. -/
theorem logsApart_of_same {sha256 : Json → String} {st : ResumeState} {raws : List Content}
    (hitems : (namedItems st.failedItems).Nodup) (hlen : raws.length = 1)
    (hsame : raws.all (fun raw => raw.same (serialize sha256 st)) = true) :
    LogsApart sha256 raws := by
  obtain ⟨raw, rfl⟩ := List.length_eq_one_iff.mp hlen
  obtain rfl : raw = serialize sha256 st := Content.eq_of_same (by simpa using hsame)
  refine ⟨fun r hr l hl => ?_, List.pairwise_singleton _ _⟩
  rw [List.mem_singleton.mp hr] at hl
  rwa [logHolds_serialize hl]

/-- The first run reports the file once, the second takes its record from the log. -/
theorem failures_reported_once_refused :
    (∃ r, onceRefusedRun.Returned (.ok r) ∧ namedItems r.failedItems = ["file"]) ∧
      (contentsRead onceClearedRun.world.trace).length = 1 ∧
      (∃ r, onceClearedRun.Returned (.ok r) ∧ r.copiedCount = 1 ∧ r.failedItems = []) ∧
      Told smallCopier.sha256 (loggedItems smallCopier.sha256 oneFileDrive)
        (onceClearedRun.world.trace ++ (onceRefusedRun.world.trace ++ [])) := by
  have hfirst : (onceRefusedRun.result?.any fun r => namedItems r.failedItems = ["file"]) = true ∧
      (contentsRead onceRefusedRun.world.trace).isEmpty = true ∧
      namedItems onceRefusedRun.world.state.mem.state.failedItems = ["file"] := by
    decide +kernel
  have hsecond : (onceClearedRun.result?.any fun r =>
        decide (r.copiedCount = 1) && r.failedItems.isEmpty) = true ∧
      (contentsRead onceClearedRun.world.trace).length = 1 ∧
      (contentsRead onceClearedRun.world.trace).all (fun raw => raw.same
        (serialize smallCopier.sha256 onceRefusedRun.world.state.mem.state)) = true := by
    decide +kernel
  obtain ⟨hfailed, hread, hitems⟩ := hfirst
  obtain ⟨hcleared, hlen, hsame⟩ := hsecond
  have hnone : LogsApart smallCopier.sha256 (contentsRead onceRefusedRun.world.trace) := by
    rw [List.isEmpty_iff.mp hread]
    exact ⟨fun _ hr => (nomatch hr), List.Pairwise.nil⟩
  have hone : LogsApart smallCopier.sha256 (contentsRead onceClearedRun.world.trace) :=
    logsApart_of_same (by rw [hitems]; decide) hlen hsame
  refine ⟨?_, hlen, ?_, ?_⟩
  · obtain ⟨r, hr, hnamed⟩ := Config.returned_of_any hfailed
    exact ⟨r, hr, of_decide_eq_true hnamed⟩
  · obtain ⟨r, hr, hcopied⟩ := Config.returned_of_any hcleared
    rw [Bool.and_eq_true, decide_eq_true_eq, List.isEmpty_iff] at hcopied
    exact ⟨r, hr, hcopied⟩
  · exact failures_reported_once
      (.run (.run .none openProfile openProfile_copiesContent smallCopier rfl rfl rfl ""
        (onceRun_reach refusedCopies_admitted _) fun _ => hnone)
      openProfile openProfile_copiesContent smallCopier rfl rfl rfl ""
      (onceRun_reach (openProfile_admits fun _ => rfl) _) fun _ => hone)

/-- The run after a run. -/
def secondRefusedRun : Config (openRuns smallCopier) (Except Exc CopyResult) :=
  refusedCopiesRun (refusedCopiesRun oneFileDrive).world.state.drive

theorem mem_of_any_same {past : List (Event copierSig)} {data : Content}
    (h : (past.any fun e => (writtenBy e).any data.same) = true) :
    ∃ later e earlier, past = later ++ e :: earlier ∧ data ∈ writtenBy e := by
  obtain ⟨e, he, hdata⟩ := List.any_eq_true.mp h
  obtain ⟨later, earlier, heq⟩ := List.append_of_mem he
  cases hwritten : writtenBy e with
  | none =>
    rw [hwritten] at hdata
    exact nomatch hdata
  | some data' =>
    rw [hwritten] at hdata
    rw [Content.eq_of_same hdata]
    exact ⟨later, e, earlier, heq, hwritten⟩

/-- The second of two runs in which the one file is refused reports it twice. -/
theorem failure_reported_twice : ¬∀ (sha256 : Json → String) (source dest : String) (d₀ d : Drive)
    (past : List (Event copierSig)),
    RunSequence sha256 source dest (fun _ _ => anyStep) (fun _ _ => True) d₀ d past →
      Told sha256 (loggedItems sha256 d₀) past := by
  intro hall
  have hfirst : RunSequence smallCopier.sha256 "sourcefolder" "targetfolder" (fun _ _ => anyStep)
      (fun _ _ => True) oneFileDrive _ _ :=
    .run .none openProfile openProfile_copiesContent smallCopier rfl rfl rfl ""
      (refusedCopiesRun_reach oneFileDrive) trivial
  have htold := hall _ _ _ _ _ _ (hfirst.run openProfile openProfile_copiesContent smallCopier rfl
    rfl rfl "" (refusedCopiesRun_reach _) trivial)
  have hreport : (secondRefusedRun.world.trace.any fun e => (writtenBy e).any
      (Copier.reportContent "2024-01-01T00:00:00Z"
        secondRefusedRun.world.state.mem.reported).same) = true ∧
      namedItems secondRefusedRun.world.state.mem.reported = ["file", "file"] := by
    decide +kernel
  obtain ⟨later, e, earlier, heq, hdata⟩ := mem_of_any_same hreport.1
  have hsplit (rest : List (Event copierSig)) :
      secondRefusedRun.world.trace ++ rest = later ++ e :: (earlier ++ rest) := by
    rw [heq, List.append_assoc, List.cons_append]
  have honce := (htold later e _ (hsplit _) _ hdata).report _ _ rfl
  rw [hreport.2] at honce
  simp at honce

end TurboCopy
