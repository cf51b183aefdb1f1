import TurboCopy.Copier.Footprint

/-!
# What a run has delivered

The count of copied files and their bytes are those of new files in the destination, each made
for one job, in the folder of the job, and found to be a good copy by the check of `_verify_copy`.
-/

namespace TurboCopy

open Threads

/-! ## Copies -/

/-- A later Drive has every node of an earlier one, and unchanged if it has no name of the store. -/
def Drive.Upholds (d d' : Drive) : Prop :=
  ∀ n ∈ d, ∃ m ∈ d', m.core = n.core ∧ (isStoreName n.file.name = false → m = n)

/-- A file in the folder of a job. -/
def Node.MadeFor (n : Node) (j : FileJob) : Prop := ∃ p, j.dest = some p ∧ n.file.parents = [p]

/-- A file that has passed the check. It is still the same if it has no name of the store. -/
def Node.Verified (n : Node) (j : FileJob) : Prop :=
  ∃ m : Node, m.core = n.core ∧ (isStoreName n.file.name = false → m = n) ∧
    checkCopy j.src j.shortcutId (DriveFile.fromApi (m.file.view verifyFields)) = none

/-- A job and the id of the copy made for it. -/
structure Delivery where
  job : FileJob
  id : String

/-- The run has asked for the copy and been answered with its id. -/
def Delivery.Asked (x : Delivery) (cp : Copier) (past : List (Event copierSig)) : Prop :=
  ∃ vis rev, Event.did (S := copierSig) (.ask (.copyFile x.job.src.id
    (cp.copyBody x.job.dest x.job.src x.job.shortcutId) vis rev)) (.ok (some x.id)) ∈ past

/-- The copy is on the Drive, was not at first, and is in its place. -/
def Delivery.Made (x : Delivery) (d₀ d : Drive) : Prop :=
  ∃ n ∈ d, n.id = x.id ∧ d₀.Fresh n.id ∧ n.MadeFor x.job

/-- It is also a good copy. -/
def Delivery.Done (x : Delivery) (d₀ d : Drive) : Prop :=
  ∃ n ∈ d, n.id = x.id ∧ d₀.Fresh n.id ∧ n.MadeFor x.job ∧ n.Verified x.job

/-- The copies that a result counts, apart from those that are under way. -/
structure Counts (cp : Copier) (past : List (Event copierSig)) (d₀ d : Drive) (r : CopyResult)
    (pending : Multiset String) (xs : List Delivery) : Prop where
  asked : ∀ x ∈ xs, x.Asked cp past
  done : ∀ x ∈ xs, x.Done d₀ d
  nodup : (↑(xs.map Delivery.id) + pending : Multiset String).Nodup
  pending : ∀ id ∈ pending, d.has id
  count : r.copiedCount = xs.length
  bytes : r.copiedBytes = (xs.map fun x => x.job.src.bytes).sum

/-- The copies under way that a thread answers for. -/
def Token.newIds : Token → Multiset String
  | .file _ (.created newId) => newId.toList
  | .file _ (.verified id) => {id}
  | _ => 0

/-- What a thread knows of the copies. -/
def Token.Vouches (cp : Copier) (past : List (Event copierSig)) (d₀ d : Drive) : Token → Prop
  | .file j (.created newId) => ∀ id, newId = some id →
    (Delivery.mk j id).Asked cp past ∧ (Delivery.mk j id).Made d₀ d
  | .file j (.verified id) => (Delivery.mk j id).Asked cp past ∧ (Delivery.mk j id).Done d₀ d
  | .returned r => ∃ xs, Counts cp past d₀ d r 0 xs
  | _ => True

/-- A token that says nothing of copies. -/
def Token.Mute : Token → Prop
  | .file _ (.created _) => False
  | .file _ (.verified _) => False
  | .returned _ => False
  | _ => True

/-- The copies that are made, counted and under way, in a run that started on the Drive `d₀`. -/
structure Delivering {pf : Profile} (cp : Copier) (d₀ : Drive) (s : Site (Drive.service pf))
    (past : List (Event copierSig)) (G : Multiset Token) : Prop where
  counted : ∃ xs, Counts cp past d₀ s.drive s.mem.result (total Token.newIds G) xs
  vouched : Each (Token.Vouches cp past d₀ s.drive) G

section Later

variable {cp : Copier} {past past' : List (Event copierSig)} {d₀ d d' : Drive} {n m : Node}
  {j : FileJob}

theorem Node.MadeFor.of_core (h : n.MadeFor j) (hcore : m.core = n.core) : m.MadeFor j := by
  unfold Node.MadeFor
  rwa [Node.parents_of_core hcore]

theorem Node.Verified.later (h : n.Verified j) (hcore : m.core = n.core)
    (hsame : isStoreName n.file.name = false → m = n) : m.Verified j := by
  obtain ⟨k, hk, hkn, hcheck⟩ := h
  refine ⟨k, hk.trans hcore.symm, fun hname => ?_, hcheck⟩
  rw [Node.name_of_core hcore] at hname
  rw [hkn hname, hsame hname]

theorem Delivery.Made.later {x : Delivery} (h : x.Made d₀ d) (hd : d.Upholds d') :
    x.Made d₀ d' := by
  obtain ⟨n, hn, hid, hfresh, hplace⟩ := h
  obtain ⟨m, hm, hcore, -⟩ := hd n hn
  rw [← Node.id_of_core hcore] at hid hfresh
  exact ⟨m, hm, hid, hfresh, hplace.of_core hcore⟩

theorem Delivery.Done.later {x : Delivery} (h : x.Done d₀ d) (hd : d.Upholds d') :
    x.Done d₀ d' := by
  obtain ⟨n, hn, hid, hfresh, hplace, hverified⟩ := h
  obtain ⟨m, hm, hcore, hsame⟩ := hd n hn
  rw [← Node.id_of_core hcore] at hid hfresh
  exact ⟨m, hm, hid, hfresh, hplace.of_core hcore, hverified.later hcore hsame⟩

theorem Drive.Upholds.refl (d : Drive) : d.Upholds d := fun n hn => ⟨n, hn, rfl, fun _ => rfl⟩

theorem Drive.Upholds.has (hd : d.Upholds d') {id : String} (h : d.has id) : d'.has id := by
  obtain ⟨n, hn, hid⟩ := h
  obtain ⟨m, hm, hcore, -⟩ := hd n hn
  exact ⟨m, hm, (Node.id_of_core hcore).trans hid⟩

theorem Delivery.Asked.later {x : Delivery} (h : x.Asked cp past) (hpast : past ⊆ past') :
    x.Asked cp past' := by
  obtain ⟨vis, rev, hasked⟩ := h
  exact ⟨vis, rev, hpast hasked⟩

/-- The Drive goes on, a thread may lose sight of its copy, and the result counts the same. -/
theorem Counts.later {r r' : CopyResult} {pending pending' : Multiset String} {xs : List Delivery}
    (h : Counts cp past d₀ d r pending xs) (hpast : past ⊆ past') (hd : d.Upholds d')
    (hle : pending' ≤ pending) (hcount : r'.copiedCount = r.copiedCount)
    (hbytes : r'.copiedBytes = r.copiedBytes) : Counts cp past' d₀ d' r' pending' xs where
  asked x hx := (h.asked x hx).later hpast
  done x hx := (h.done x hx).later hd
  nodup := Multiset.nodup_of_le (add_le_add_right hle _) h.nodup
  pending id hid := hd.has (h.pending id (Multiset.mem_of_le hle hid))
  count := hcount.trans h.count
  bytes := hbytes.trans h.bytes

theorem Token.Vouches.later {t : Token} (h : t.Vouches cp past d₀ d) (hpast : past ⊆ past')
    (hd : d.Upholds d') : t.Vouches cp past' d₀ d' := by
  unfold Token.Vouches at h ⊢
  split at h
  · exact fun id hid => ⟨(h id hid).1.later hpast, (h id hid).2.later hd⟩
  · exact ⟨h.1.later hpast, h.2.later hd⟩
  · obtain ⟨xs, hxs⟩ := h
    exact ⟨xs, hxs.later hpast hd le_rfl rfl rfl⟩
  · trivial

theorem Token.Mute.vouches {t : Token} (h : t.Mute) : t.Vouches cp past d₀ d := by
  unfold Token.Mute at h
  split at h
  · exact h.elim
  · exact h.elim
  · exact h.elim
  · unfold Token.Vouches
    split <;> simp_all

theorem Token.Mute.newIds {t : Token} (h : t.Mute) : t.newIds = 0 := by
  unfold Token.Mute at h
  split at h
  · exact h.elim
  · exact h.elim
  · exact h.elim
  · unfold Token.newIds
    split <;> simp_all

end Later

/-! ## Steps -/

namespace Drive

variable {pf : Profile} {d₀ d d' : Drive}

/-- A request for a file of the store, or one that changes no file. -/
theorem Serves.upholds {q : Request} {x : q.Ret} {source : String} (h : Serves pf q d x d')
    (hq : ∀ id, q.target = some id → StoreId source d₀ d id) : d.Upholds d' := by
  intro n hn
  obtain ⟨m, hm, hcore⟩ := h.survives hn
  refine ⟨m, hm, hcore, fun hname => ?_⟩
  have hkept : n ∈ d' := by
    apply h.kept hn
    intro htarget
    obtain ⟨k, hk, hid, hstore, -⟩ := hq _ htarget
    rw [eq_of_id hk hn hid, hname] at hstore
    cases hstore
  exact eq_of_id hm hkept (Node.id_of_core hcore)

/-- The copy that `files.copy` has answered with. -/
theorem Serves.copied {id : String} {body : CopyBody} {vis rev : Bool} {newId : Option String}
    (hpf : pf.PlacesCopies) (h : Serves pf (.copyFile id body vis rev) d (.ok newId) d') :
    ∃ n ∈ d', newId = some n.id ∧ d.Fresh n.id ∧
      ∀ p, body.parent = some p → n.file.parents = [p] := by
  cases h with
  | raised e he hx => exact nomatch hx
  | granted hg =>
    cases hg with
    | copyFile _ src hsrc body vis rev f c hf hc hp =>
      exact ⟨_, mem_add.mpr (.inl rfl), rfl, hf, fun p hbody => hpf _ _ _ _ p hc hbody⟩

/-- The metadata of a copy. -/
theorem Serves.metadata {id : String} {data : ApiFile}
    (h : Serves pf (.getMetadata id verifyFields) d (.ok data) d') :
    ∃ n ∈ d, n.id = id ∧ data = n.file.view verifyFields := by
  generalize hfields : verifyFields = fields at h
  cases h with
  | raised e he hx => exact nomatch hx
  | granted hg =>
    cases hg with
    | getId => exact nomatch hfields
    | getMetadata _ n hn => exact ⟨n, hn, rfl, rfl⟩

end Drive

/-- Only `_mark_copied` counts a copy. -/
theorem Mem.exec_copied (m : Mem) {o : MemOp} (h : ∀ eff size, o ≠ .markCopied eff size) :
    (m.exec o).2.result.copiedCount = m.result.copiedCount ∧
      (m.exec o).2.result.copiedBytes = m.result.copiedBytes := by
  cases o with
  | trustResume i eff src => simp only [exec]; split <;> exact ⟨rfl, rfl⟩
  | popMatch i src mode allow eff => simp only [exec]; split <;> exact ⟨rfl, rfl⟩
  | reserve max size reason => simp only [exec]; split_ifs <;> exact ⟨rfl, rfl⟩
  | beginSave force => simp only [exec]; split_ifs <;> exact ⟨rfl, rfl⟩
  | markCopied eff size => exact absurd rfl (h eff size)
  | _ => exact ⟨rfl, rfl⟩

section Runs

variable {pf : Profile} {cp : Copier} {d₀ d d' : Drive} {past : List (Event copierSig)}
  {s s' : Site (Drive.service pf)} {o : CopierOp} {x : o.Out} {G τ τ' : Multiset Token}
  {source destParent : String} {ok : StepCondition (Drive.service pf)}

theorem Site.Step.upholds (hs : s.Step ok o x s') (ho : Touches source destParent d₀ s.drive o) :
    Drive.Upholds s.drive s'.drive := by
  cases o with
  | mem o =>
    obtain ⟨-, rfl, -⟩ := hs
    exact fun n hn => ⟨n, hn, rfl, fun _ => rfl⟩
  | ask q => exact Drive.Serves.upholds hs.1 ho.1

theorem QuietRule.upholds (hr : QuietRule o x) (hs : s.Step ok o x s') :
    Drive.Upholds s.drive s'.drive := by
  have ho : Touches "" "" s.drive s.drive o := hr.touches
  exact hs.upholds ho

theorem StopRule.upholds (hr : StopRule o x) (hs : s.Step ok o x s') :
    Drive.Upholds s.drive s'.drive := by
  have ho : Touches "" "" s.drive s.drive o := hr.touches
  exact hs.upholds ho

theorem ListRule.upholds (hr : ListRule cp o x τ τ') (hs : s.Step ok o x s') :
    Drive.Upholds s.drive s'.drive := by
  have ho : Touches "" "" s.drive s.drive o := hr.touches
  exact hs.upholds ho

/-- The counts after an operation that counts no copy. -/
theorem Site.Step.counts (hs : s.Step ok o x s') (ho : ∀ eff size, o ≠ .mem (.markCopied eff size)) :
    s'.mem.result.copiedCount = s.mem.result.copiedCount ∧
      s'.mem.result.copiedBytes = s.mem.result.copiedBytes := by
  cases o with
  | mem o =>
    obtain ⟨-, rfl, -⟩ := hs
    exact s.mem.exec_copied fun eff size hmark => ho eff size (by rw [hmark])
  | ask q => rw [hs.2.1]; exact ⟨rfl, rfl⟩

/-- A step that makes no copy and counts none. -/
theorem Delivering.did (h : Delivering cp d₀ s past (G + τ)) (hs : s.Step ok o x s')
    (hd : Drive.Upholds s.drive s'.drive) (hmark : ∀ eff size, o ≠ .mem (.markCopied eff size))
    (hle : total Token.newIds τ' ≤ total Token.newIds τ)
    (hvouch : Each (Token.Vouches cp (.did o x :: past) d₀ s'.drive) τ') :
    Delivering cp d₀ s' (.did o x :: past) (G + τ') := by
  obtain ⟨⟨xs, hcounted⟩, hvouched⟩ := h
  obtain ⟨hcount, hbytes⟩ := hs.counts hmark
  rw [total_add] at hcounted
  rw [each_add] at hvouched
  constructor
  · refine ⟨xs, ?_⟩
    rw [total_add]
    exact hcounted.later (List.subset_cons_self _ _) hd (add_le_add_right hle _) hcount hbytes
  · exact each_add.mpr
      ⟨hvouched.1.mono fun _ ht => ht.later (List.subset_cons_self _ _) hd, hvouch⟩

theorem total_newIds_of_mute (h : Each Token.Mute τ) : total Token.newIds τ = 0 :=
  total_eq_zero (h.mono fun _ => Token.Mute.newIds)

/-- A step after which a thread holds nothing that speaks of copies. -/
theorem Delivering.mute (h : Delivering cp d₀ s past (G + τ)) (hs : s.Step ok o x s')
    (hd : Drive.Upholds s.drive s'.drive) (hmark : ∀ eff size, o ≠ .mem (.markCopied eff size))
    (hmute : Each Token.Mute τ') : Delivering cp d₀ s' (.did o x :: past) (G + τ') := by
  refine h.did hs hd hmark ?_ (hmute.mono fun _ => Token.Mute.vouches)
  rw [total_newIds_of_mute hmute]
  exact Multiset.zero_le _

theorem mute_entry (l : Level) (index : ℕ) (src : DriveFile) : (Token.entry l index src).Mute := by
  unfold Token.entry
  split_ifs <;> trivial

theorem mute_target (l : Level) (index : ℕ) (src target : DriveFile) :
    (Token.target l index src target).Mute := by
  unfold Token.target
  split_ifs <;> trivial

theorem FolderRule.mute (h : FolderRule cp o x τ τ') : Each Token.Mute τ' := by
  cases h <;> simp [Token.Mute]

theorem ListRule.mute (h : ListRule cp o x τ τ') : Each Token.Mute τ' := by
  cases h with
  | multiLast group out tok files => exact each_map.mpr fun _ _ => trivial
  | index l items i => exact each_map.mpr fun _ _ => mute_entry _ _ _
  | resolved l index src target data ht => exact each_singleton.mpr (mute_target _ _ _ _)
  | _ => simp [Token.Mute]

theorem StoreRule.mute (h : StoreRule cp o x τ τ') : Each Token.Mute τ' := by
  cases h <;> simp [Token.Mute]

theorem mute_rootTokens (d : Option String) : Each Token.Mute (rootTokens d) :=
  each_rootTokens fun _ => trivial

/-- The copy is made. -/
theorem Delivering.copied {j : FileJob} {vis rev : Bool} {newId : Option String} (hpf : pf.PlacesCopies)
    (hdrive : Spared source destParent d₀ s.drive) (hj : ∃ p, j.dest = some p)
    (h : Delivering cp d₀ s past (G + {.file j .reserved}))
    (hs : s.Step ok (.ask (.copyFile j.src.id (cp.copyBody j.dest j.src j.shortcutId) vis rev))
      (.ok newId) s') (hd : Drive.Upholds s.drive s'.drive) :
    Delivering cp d₀ s' (.did (.ask (.copyFile j.src.id (cp.copyBody j.dest j.src j.shortcutId) vis rev))
      (.ok newId) :: past) (G + {.file j (.created newId)}) := by
  obtain ⟨⟨xs, hcounted⟩, hvouched⟩ := h
  obtain ⟨n, hn, rfl, hfresh, hplace⟩ := Drive.Serves.copied hpf hs.1
  obtain ⟨p, hp⟩ := hj
  have hold {id : String} (hid : id ∈ (↑(xs.map Delivery.id) : Multiset String) +
      total Token.newIds G) : id ≠ n.id := by
    rintro rfl
    apply Spared.fresh_has hfresh
    rcases Multiset.mem_add.mp hid with hid | hid
    · obtain ⟨x, hx, hxid⟩ := List.mem_map.mp (Multiset.mem_coe.mp hid)
      obtain ⟨m, hm, hmid, -⟩ := hcounted.done x hx
      exact ⟨m, hm, hmid.trans hxid⟩
    · exact hcounted.pending _ (by rw [total_add]; exact Multiset.mem_add.mpr (.inl hid))
  constructor
  · refine ⟨xs, ?_⟩
    have hkept := hcounted.later (List.subset_cons_self
      (Event.did (S := copierSig) (.ask (.copyFile j.src.id (cp.copyBody j.dest j.src j.shortcutId)
        vis rev)) (.ok (some n.id))) past) hd le_rfl (congrArg _ (congrArg _ hs.2.1))
      (congrArg _ (congrArg _ hs.2.1))
    simp only [total_add, total_singleton, Token.newIds, add_zero] at hkept ⊢
    refine ⟨hkept.asked, hkept.done, ?_, ?_, hkept.count, hkept.bytes⟩
    · rw [← add_assoc]
      refine Multiset.nodup_add.mpr ⟨hkept.nodup, by simp, ?_⟩
      rw [Multiset.disjoint_left]
      intro id hid hnew
      exact hold hid (by simpa using hnew)
    · intro id hid
      rcases Multiset.mem_add.mp hid with hid | hid
      · exact hkept.pending id hid
      · exact ⟨n, hn, by simpa [eq_comm] using hid⟩
  · rw [each_add] at hvouched ⊢
    refine ⟨hvouched.1.mono fun _ ht => ht.later (List.subset_cons_self _ _) hd,
      each_singleton.mpr ?_⟩
    intro id hid
    obtain rfl := Option.some.inj hid
    exact ⟨⟨vis, rev, List.mem_cons_self⟩, n, hn, rfl, hdrive.fresh hfresh, p, hp, hplace p hp⟩

/-- The copy has passed the check. -/
theorem Delivering.verified {j : FileJob} {id : String} {data : ApiFile}
    (h : Delivering cp d₀ s past (G + {.file j (.created (some id))}))
    (hs : s.Step ok (.ask (.getMetadata id verifyFields)) (.ok data) s')
    (hd : Drive.Upholds s.drive s'.drive)
    (hcheck : checkCopy j.src j.shortcutId (DriveFile.fromApi data) = none) :
    Delivering cp d₀ s' (.did (.ask (.getMetadata id verifyFields)) (.ok data) :: past)
      (G + {.file j (.verified id)}) := by
  obtain ⟨hasked, hmade⟩ := (each_singleton.mp (each_add.mp h.vouched).2) id rfl
  refine h.did hs hd (fun _ _ => by simp) ?_ (each_singleton.mpr ?_)
  · simp [Token.newIds]
  · obtain ⟨n, hn, hid, hfresh, hplace⟩ := hmade
    obtain ⟨m, hm, hmid, rfl⟩ := Drive.Serves.metadata hs.1
    obtain rfl := Drive.eq_of_id hm hn (hmid.trans hid.symm)
    have hdone : (Delivery.mk j id).Done d₀ s.drive :=
      ⟨m, hm, hid, hfresh, hplace, m, rfl, fun _ => rfl, hcheck⟩
    exact ⟨hasked.later (List.subset_cons_self _ _), hdone.later hd⟩

/-- The copy is counted. -/
theorem Delivering.marked {j : FileJob} {id : String} {u : Unit}
    (h : Delivering cp d₀ s past (G + {.file j (.verified id)}))
    (hs : s.Step ok (.mem (.markCopied j.eff j.src.bytes)) u s') :
    Delivering cp d₀ s' (.did (.mem (.markCopied j.eff j.src.bytes)) u :: past)
      (G + {.file j .settled}) := by
  obtain ⟨⟨xs, hcounted⟩, hvouched⟩ := h
  obtain ⟨-, rfl, -⟩ := hs
  rw [each_add] at hvouched
  simp only [total_add, total_singleton, Token.newIds] at hcounted
  constructor
  · refine ⟨⟨j, id⟩ :: xs, ?_⟩
    simp only [total_add, total_singleton, Token.newIds, add_zero]
    obtain ⟨hasked, hdone⟩ := each_singleton.mp hvouched.2
    constructor
    · intro x hx
      rcases List.mem_cons.mp hx with rfl | hx
      · exact hasked.later (List.subset_cons_self _ _)
      · exact (hcounted.asked x hx).later (List.subset_cons_self _ _)
    · intro x hx
      rcases List.mem_cons.mp hx with rfl | hx
      · exact hdone
      · exact hcounted.done x hx
    · have hperm : (↑(xs.map Delivery.id) + (total Token.newIds G + {id}) : Multiset String) =
          ↑((⟨j, id⟩ :: xs : List Delivery).map Delivery.id) + total Token.newIds G := by
        rw [List.map_cons, ← Multiset.cons_coe, Multiset.cons_add, ← add_assoc, add_comm,
          Multiset.singleton_add]
      rw [← hperm]
      exact hcounted.nodup
    · exact fun id' hid => hcounted.pending id' (Multiset.mem_add.mpr (.inl hid))
    · simp [Mem.exec, hcounted.count]
    · simp [Mem.exec, hcounted.bytes, add_comm]
  · refine each_add.mpr ⟨hvouched.1.mono fun _ ht => ?_, each_singleton.mpr trivial⟩
    exact ht.later (List.subset_cons_self _ _) (.refl _)

theorem FileRule.delivers (hpf : pf.PlacesCopies)
    (hJ : Trodden source destParent d₀ s past (G + τ)) (hr : FileRule cp o x τ τ')
    (hs : s.Step ok o x s') (h : Delivering cp d₀ s past (G + τ)) :
    Delivering cp d₀ s' (.did o x :: past) (G + τ') := by
  have hτ := (each_add.mp hJ.tokens).2
  have hd := hs.upholds (hr.touches hτ)
  cases hr with
  | copied j vis rev newId =>
    obtain ⟨p, hp, -⟩ := each_singleton.mp hτ
    exact h.copied hpf hJ.drive ⟨p, hp⟩ hs hd
  | verified j id data hid hcheck => exact h.verified hs hd hcheck
  | marked j id u => exact h.marked hs
  | _ => exact h.mute hs hd (fun _ _ => by simp) (by simp [Token.Mute])

theorem RunRule.delivers (hJ : Trodden source destParent d₀ s past (G + τ))
    (hr : RunRule cp source destParent o x τ τ') (hs : s.Step ok o x s')
    (h : Delivering cp d₀ s past (G + τ)) : Delivering cp d₀ s' (.did o x :: past) (G + τ') := by
  have hd := hs.upholds (hr.touches (each_add.mp hJ.tokens).2)
  cases hr with
  | begin data => exact h.mute hs hd (fun _ _ => by simp) (by simp [Token.Mute])
  | destRoot name r u =>
    exact h.mute hs hd (fun _ _ => by simp) (by simp [Token.Mute, mute_rootTokens])
  | completed u => exact h.mute hs hd (fun _ _ => by simp) each_zero
  | returned r =>
    refine h.did hs hd (fun _ _ => by simp) (by simp [Token.newIds]) (each_singleton.mpr ?_)
    obtain ⟨xs, hcounted⟩ := h.counted
    obtain ⟨rfl, rfl, -⟩ := hs
    exact ⟨xs, hcounted.later (List.subset_cons_self _ _) (.refl _) (Multiset.zero_le _) rfl rfl⟩

theorem CopierShift.vouches (h : CopierShift cp τ τ') (hτ : Each (Token.Vouches cp past d₀ d) τ) :
    Each (Token.Vouches cp past d₀ d) τ' := by
  cases h with
  | batch group => exact each_add.mpr ⟨hτ, each_singleton.mpr trivial⟩
  | _ => simp_all [Token.Vouches]

theorem CopierShift.newIds_le (h : CopierShift cp τ τ') :
    total Token.newIds τ' ≤ total Token.newIds τ := by
  cases h with
  | batch group => simp [Token.newIds]
  | _ => simp [Token.newIds]

/-- Other tokens for the same copies. -/
theorem Delivering.turned {past' : List (Event copierSig)} (h : Delivering cp d₀ s past (G + τ))
    (hpast : past ⊆ past') (hle : total Token.newIds τ' ≤ total Token.newIds τ)
    (hvouch : Each (Token.Vouches cp past' d₀ s.drive) τ') : Delivering cp d₀ s past' (G + τ') := by
  obtain ⟨⟨xs, hcounted⟩, hvouched⟩ := h
  rw [total_add] at hcounted
  rw [each_add] at hvouched
  refine ⟨⟨xs, ?_⟩, each_add.mpr ⟨hvouched.1.mono fun _ ht => ht.later hpast (.refl _), hvouch⟩⟩
  rw [total_add]
  exact hcounted.later hpast (.refl _) (add_le_add_right hle _) rfl rfl

theorem Delivering.keeps (hpf : pf.PlacesCopies) (hd : ¬d₀.has "") :
    Keeps cp ok (@Trodden pf cp.sourceId cp.destParent d₀) (Delivering cp d₀) where
  quiet {_ _ _ _ past G} hr hs hJ h := by
    rw [← add_zero G] at h ⊢
    exact h.mute hs (hr.upholds hs) (fun _ _ => by cases hr <;> simp) each_zero
  stop τ hr hs hJ h :=
    h.mute hs (hr.upholds hs) (fun _ _ => by cases hr <;> simp) (each_singleton.mpr trivial)
  file hr hs hJ h := hr.delivers hpf hJ hs h
  folder hr hs hJ h := by
    have ho := hr.touches (each_add.mp hJ.tokens).2
    exact h.mute hs (hs.upholds ho) (fun _ _ => by cases hr <;> simp) hr.mute
  list hr hs hJ h :=
    h.mute hs (hr.upholds hs) (fun _ _ => by cases hr <;> simp) hr.mute
  store hr hs hJ h := by
    have ho := hr.touches hd (each_add.mp hJ.tokens).2
    exact h.mute hs (hs.upholds ho) (fun _ _ => by cases hr <;> simp) hr.mute
  run hr hs hJ h := hr.delivers hJ hs h
  solo {_ _ _ root} hs hJ h := by
    have hr : QuietRule (.mem .stopIsSet) false := .stopIsSet false
    rw [add_comm] at h ⊢
    exact h.mute hs (hr.upholds hs) (fun _ _ => by simp) (each_singleton.mpr trivial)
  call hc _ h := by
    cases hc with
    | enter j dest out =>
      exact h.turned (List.subset_cons_self _ _) (by simp [Token.newIds]) (by simp [Token.Vouches])
  shift hc _ h := h.turned (List.Subset.refl _) hc.newIds_le (hc.vouches (each_add.mp h.vouched).2)
  env reason _ h := by
    obtain ⟨⟨xs, hcounted⟩, hvouched⟩ := h
    exact ⟨⟨xs, hcounted.later (List.Subset.refl _) (.refl _) le_rfl rfl rfl⟩, hvouched⟩

theorem Delivering.start (cp : Copier) (d : Drive) (now : String) :
    @Delivering pf cp d ⟨cp.freshMem now, d⟩ [] {.idle, .begin} where
  counted := ⟨[], by simp, by simp, by simp [Token.newIds], by simp [Token.newIds], rfl, rfl⟩
  vouched := each_cons.mpr ⟨trivial, each_singleton.mpr trivial⟩

/-- At every moment of a real run, and in its result, the copied files are as many different new
files in their places, each a good copy for one job, and the copied bytes are those of the jobs. -/
theorem copied_files_delivered (hpf : pf.PlacesCopies) (hd : ¬d.has "")
    (hdry : cp.config.dryRun = false) (now : String)
    {c : Config (cp.runs (Drive.service pf) ok) (Except Exc CopyResult)}
    (h : Reach (cp.runs (Drive.service pf) ok)
      (start (cp.runs (Drive.service pf) ok) cp.run ⟨cp.freshMem now, d⟩ []) c) :
    (∃ xs, Counts cp c.world.trace d c.world.state.drive c.world.state.mem.result 0 xs) ∧
      ∀ r, c.Returned (.ok r) → ∃ xs, Counts cp c.world.trace d c.world.state.drive r 0 xs := by
  obtain ⟨⟨G, -, hG⟩, hret⟩ := ((Trodden.keeps hdry hpf hd).both
    (Delivering.keeps hpf hd)).throughout ⟨Trodden.start cp d now, Delivering.start cp d now⟩ h
  constructor
  · obtain ⟨xs, hxs⟩ := hG.counted
    exact ⟨xs, hxs.later (List.Subset.refl _) (.refl _) (Multiset.zero_le _) rfl rfl⟩
  · intro r hr
    obtain ⟨G', hm, -, hG'⟩ := hret r hr
    exact hG'.vouched _ hm

end Runs

theorem copied_files_delivered_one : ∃ r, oneFileRun.Returned (.ok r) ∧ r.copiedCount = 1 ∧
    ∃ xs, Counts smallCopier oneFileRun.world.trace oneFileDrive oneFileCopied r 0 xs := by
  obtain ⟨r, hr, hcopied⟩ := oneFileRun_copies
  exact ⟨r, hr, hcopied, (copied_files_delivered openProfile_placesCopies oneFileDrive_nameless rfl ""
    (openRun_reach (fun _ => rfl) 150)).2 r hr⟩

end TurboCopy
