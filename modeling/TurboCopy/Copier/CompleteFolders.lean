import TurboCopy.Copier.Memory
import TurboCopy.Search.Grounded

/-!
# Completed folders

The memoised search for completed folders computes the recorded members of a least set. A
folder that is met again below itself waits for itself, hence is not in the set, and what is
stored for it and for the folders between holds for good.
-/

namespace TurboCopy

open Grounding Relation

/-! ## The search -/

section Search

variable {known : Finset String} {tree : Dict FolderNode} {fileOk : String → Bool}

/-- The folder's listing was clean, it is eligible, and its files are done. -/
def Ready (tree : Dict FolderNode) (fileOk : String → Bool) (fid : String) : Prop :=
  ∃ node, AList.lookup fid tree = some node ∧ node.listingOk = true ∧ node.eligible = true ∧
    node.fileEffIds.all fileOk = true

/-- The recorded sub-folders. -/
def subfolders (tree : Dict FolderNode) (fid : String) : List String :=
  match AList.lookup fid tree with
  | some node => node.subfolderIds
  | none => []

/-- The completed folders of the graph. -/
def Complete (known : Finset String) (tree : Dict FolderNode) (fileOk : String → Bool) :
    String → Prop :=
  Grounded (fun fid => fid ∈ known) (Ready tree fileOk) (subfolders tree)

/-- What the memo table says of a folder holds. -/
def MemoOk (known : Finset String) (tree : Dict FolderNode) (fileOk : String → Bool)
    (memo : Dict Bool) : Prop :=
  ∀ fid ok, AList.lookup fid memo = some ok → (ok = true ↔ Complete known tree fileOk fid)

theorem MemoOk.insert {memo : Dict Bool} {fid : String} {ok : Bool}
    (h : MemoOk known tree fileOk memo) (hok : ok = true ↔ Complete known tree fileOk fid) :
    MemoOk known tree fileOk (AList.insert fid ok memo) := by
  intro k b hb
  by_cases hk : k = fid
  · subst hk
    rw [AList.lookup_insert] at hb
    obtain rfl := Option.some.inj hb
    exact hok
  · rw [AList.lookup_insert_ne hk] at hb
    exact h k b hb

/-- A step of the search answers for one folder and keeps the memo table right. -/
def Answers (known : Finset String) (tree : Dict FolderNode) (fileOk : String → Bool)
    (fid : String) (f : Dict Bool → Bool × Dict Bool) : Prop :=
  ∀ memo, MemoOk known tree fileOk memo →
    ((f memo).1 = true ↔ Complete known tree fileOk fid) ∧ MemoOk known tree fileOk (f memo).2

theorem allMemo_answers {f : String → Dict Bool → Bool × Dict Bool} (fids : List String)
    (h : ∀ fid ∈ fids, Answers known tree fileOk fid (f fid)) {memo : Dict Bool}
    (hmemo : MemoOk known tree fileOk memo) :
    ((allMemo f fids memo).1 = true ↔ ∀ fid ∈ fids, Complete known tree fileOk fid) ∧
      MemoOk known tree fileOk (allMemo f fids memo).2 := by
  induction fids generalizing memo with
  | nil => simpa [allMemo] using hmemo
  | cons x xs ih =>
    obtain ⟨hx, hmemo'⟩ := h x List.mem_cons_self memo hmemo
    unfold allMemo
    dsimp only
    split_ifs with hfirst
    · obtain ⟨hxs, hend⟩ := ih (fun fid hfid => h fid (List.mem_cons_of_mem x hfid)) hmemo'
      refine ⟨?_, hend⟩
      rw [hxs, List.forall_mem_cons]
      simp [hx.mp hfirst]
    · refine ⟨?_, hmemo'⟩
      rw [hx] at hfirst
      simp [hfirst]

theorem completeAmong_answers {f : String → Dict Bool → Bool × Dict Bool} (fids : List String)
    (h : ∀ fid ∈ fids, Answers known tree fileOk fid (f fid)) {memo : Dict Bool}
    (hmemo : MemoOk known tree fileOk memo) (fid : String) :
    fid ∈ completeAmong f fids memo ↔ fid ∈ fids ∧ Complete known tree fileOk fid := by
  induction fids generalizing memo with
  | nil => simp [completeAmong]
  | cons x xs ih =>
    obtain ⟨hx, hmemo'⟩ := h x List.mem_cons_self memo hmemo
    have htail := ih (fun fid hfid => h fid (List.mem_cons_of_mem x hfid)) hmemo'
    unfold completeAmong
    dsimp only
    split_ifs with hfirst
    · have hcomplete := hx.mp hfirst
      rw [List.mem_cons, List.mem_cons, htail]
      constructor
      · rintro (rfl | ⟨hfid, hfolder⟩)
        · exact ⟨.inl rfl, hcomplete⟩
        · exact ⟨.inr hfid, hfolder⟩
      · rintro ⟨rfl | hfid, hfolder⟩
        · exact .inl rfl
        · exact .inr ⟨hfid, hfolder⟩
    · rw [hx] at hfirst
      rw [List.mem_cons, htail]
      constructor
      · rintro ⟨hfid, hfolder⟩
        exact ⟨.inr hfid, hfolder⟩
      · rintro ⟨rfl | hfid, hfolder⟩
        · exact absurd hfolder hfirst
        · exact ⟨hfid, hfolder⟩

/-- The folders of the branch are recorded ones, each once, and wait for the one at its end. -/
structure Branch (known : Finset String) (tree : Dict FolderNode) (stack : List String)
    (fid : String) : Prop where
  nodup : stack.Nodup
  recorded : stack ⊆ tree.keys
  waits : ∀ s ∈ stack, TransGen (Waits (fun f => f ∈ known) (subfolders tree)) s fid

theorem Branch.below {stack : List String} {fid sub : String} {node : FolderNode}
    (h : Branch known tree stack fid) (hknown : fid ∉ known) (hfresh : fid ∉ stack)
    (hnode : AList.lookup fid tree = some node) (hsub : sub ∈ node.subfolderIds) :
    Branch known tree (fid :: stack) sub := by
  have hwait : Waits (fun f => f ∈ known) (subfolders tree) fid sub := by
    refine ⟨hknown, ?_⟩
    rwa [subfolders, hnode]
  have hkey : fid ∈ tree.keys := AList.mem_keys.mp (AList.lookup_isSome.mp (by rw [hnode]; rfl))
  constructor
  · exact List.nodup_cons.mpr ⟨hfresh, h.nodup⟩
  · exact List.cons_subset.mpr ⟨hkey, h.recorded⟩
  · intro s hs
    rcases List.mem_cons.mp hs with rfl | hs
    · exact .single hwait
    · exact (h.waits s hs).tail hwait

/-- A folder that is not known is complete if and only if it is ready and its recorded
sub-folders are complete. -/
theorem complete_iff {fid : String} (hknown : fid ∉ known) :
    Complete known tree fileOk fid ↔
      ∃ node, AList.lookup fid tree = some node ∧
        (node.listingOk = true ∧ node.eligible = true ∧ node.fileEffIds.all fileOk = true) ∧
        ∀ sub ∈ node.subfolderIds, Complete known tree fileOk sub := by
  unfold Complete
  rw [grounded_iff_of_not_base hknown]
  constructor
  · rintro ⟨⟨node, hnode, hready⟩, hnext⟩
    rw [subfolders, hnode] at hnext
    exact ⟨node, hnode, hready, hnext⟩
  · rintro ⟨node, hnode, hready, hnext⟩
    refine ⟨⟨node, hnode, hready⟩, ?_⟩
    rwa [subfolders, hnode]

/-- The search decides completeness at the end of every branch. With fuel for the recorded
folders that are not on the branch it does not run out. -/
theorem isComplete_answers (fuel : ℕ) :
    ∀ {stack : List String} {fid : String}, tree.keys.length < stack.length + fuel →
      Branch known tree stack fid →
      Answers known tree fileOk fid (isComplete known tree fileOk fuel stack fid) := by
  induction fuel with
  | zero =>
    intro stack fid hfuel hbranch
    have hle := (hbranch.nodup.subperm hbranch.recorded).length_le
    omega
  | succ fuel ih =>
    intro stack fid hfuel hbranch memo hmemo
    have hfalse : ¬Complete known tree fileOk fid →
        ((false : Bool) = true ↔ Complete known tree fileOk fid) :=
      iff_of_false Bool.false_ne_true
    unfold isComplete
    by_cases hknown : fid ∈ known
    · rw [if_pos hknown]
      exact ⟨iff_of_true rfl (.base hknown), hmemo⟩
    rw [if_neg hknown]
    cases hlookup : AList.lookup fid memo with
    | some ok => exact ⟨hmemo fid ok hlookup, hmemo⟩
    | none =>
      dsimp only
      by_cases hstack : fid ∈ stack
      · rw [if_pos hstack]
        have hcycle : ¬Complete known tree fileOk fid := fun hcomplete =>
          hcomplete.not_waits_self (hbranch.waits fid hstack)
        exact ⟨hfalse hcycle, hmemo⟩
      rw [if_neg hstack]
      cases hnode : AList.lookup fid tree with
      | none =>
        have hmissing : ¬Complete known tree fileOk fid := by
          rw [complete_iff hknown, hnode]
          rintro ⟨node, hnode, -⟩
          exact nomatch hnode
        exact ⟨hfalse hmissing, hmemo.insert (hfalse hmissing)⟩
      | some node =>
        have hiff := @complete_iff known tree fileOk fid hknown
        simp only [hnode, Option.some.injEq, exists_eq_left'] at hiff
        dsimp only
        by_cases hclean : (!node.listingOk || !node.eligible) = true
        · rw [if_pos hclean]
          have hbad : ¬Complete known tree fileOk fid := by
            intro hcomplete
            obtain ⟨⟨hlisting, heligible, -⟩, -⟩ := hiff.mp hcomplete
            simp [hlisting, heligible] at hclean
          exact ⟨hfalse hbad, hmemo.insert (hfalse hbad)⟩
        rw [if_neg hclean]
        by_cases hfiles : node.fileEffIds.all fileOk = true
        · rw [if_pos hfiles]
          have hdeeper : tree.keys.length < (fid :: stack).length + fuel := by
            rw [List.length_cons]
            omega
          obtain ⟨hall, hmemo'⟩ := allMemo_answers node.subfolderIds
            (fun sub hsub => ih hdeeper (hbranch.below hknown hstack hnode hsub)) hmemo
          have hflags : node.listingOk = true ∧ node.eligible = true := by simpa using hclean
          have hanswer := hall.trans ((and_iff_right ⟨hflags.1, hflags.2, hfiles⟩).symm.trans
            hiff.symm)
          exact ⟨hanswer, hmemo'.insert hanswer⟩
        · rw [if_neg hfiles]
          have hbad : ¬Complete known tree fileOk fid := fun hcomplete =>
            hfiles (hiff.mp hcomplete).1.2.2
          exact ⟨hfalse hbad, hmemo.insert (hfalse hbad)⟩

theorem allMemo_congr {f g : String → Dict Bool → Bool × Dict Bool} (fids : List String)
    (h : ∀ fid ∈ fids, ∀ memo, f fid memo = g fid memo) (memo : Dict Bool) :
    allMemo f fids memo = allMemo g fids memo := by
  induction fids generalizing memo with
  | nil => rfl
  | cons x xs ih =>
    unfold allMemo
    rw [h x List.mem_cons_self memo]
    simp only [ih fun fid hfid => h fid (List.mem_cons_of_mem x hfid)]

/-- More fuel than that changes neither the answer nor the memo table: the search has ended. -/
theorem isComplete_succ (fuel : ℕ) :
    ∀ {stack : List String} (fid : String), tree.keys.length < stack.length + fuel →
      stack.Nodup → stack ⊆ tree.keys → ∀ memo,
      isComplete known tree fileOk (fuel + 1) stack fid memo =
        isComplete known tree fileOk fuel stack fid memo := by
  induction fuel with
  | zero =>
    intro stack fid hfuel hnodup hrecorded
    have hle := (hnodup.subperm hrecorded).length_le
    omega
  | succ fuel ih =>
    intro stack fid hfuel hnodup hrecorded memo
    rw [isComplete, isComplete]
    by_cases hknown : fid ∈ known
    · rw [if_pos hknown, if_pos hknown]
    rw [if_neg hknown, if_neg hknown]
    cases AList.lookup fid memo with
    | some ok => rfl
    | none =>
      dsimp only
      by_cases hstack : fid ∈ stack
      · rw [if_pos hstack, if_pos hstack]
      rw [if_neg hstack, if_neg hstack]
      cases hnode : AList.lookup fid tree with
      | none => rfl
      | some node =>
        have hkey : fid ∈ tree.keys :=
          AList.mem_keys.mp (AList.lookup_isSome.mp (by rw [hnode]; rfl))
        have hdeeper : tree.keys.length < (fid :: stack).length + fuel := by
          rw [List.length_cons]
          omega
        have hbelow := allMemo_congr node.subfolderIds
          (fun sub _ => ih sub hdeeper (List.nodup_cons.mpr ⟨hstack, hnodup⟩)
            (List.cons_subset.mpr ⟨hkey, hrecorded⟩)) memo
        simp only [hbelow]

/-- With fuel for all recorded folders the search finds the complete ones among any folders, in
any order. -/
theorem mem_completeAmong {fuel : ℕ} (hfuel : tree.keys.length < fuel) (fids : List String)
    (fid : String) :
    fid ∈ completeAmong (isComplete known tree fileOk fuel []) fids ∅ ↔
      fid ∈ fids ∧ Complete known tree fileOk fid := by
  have hroot : ∀ f, Branch known tree [] f := fun f =>
    ⟨List.nodup_nil, List.nil_subset _, fun s hs => nomatch hs⟩
  apply completeAmong_answers fids
  · intro f _
    exact isComplete_answers fuel (by simpa using hfuel) (hroot f)
  · intro f ok hmemo
    exact nomatch hmemo

end Search

/-! ## The folders of a run -/

namespace Mem

/-- The ids are those of copied files, none of which has failed. -/
def Done (m : Mem) (ids : List String) : Prop :=
  ∀ eid ∈ ids, eid ∈ m.state.copiedIds ∧
    ∀ r ∈ m.result.failedItems ++ m.result.previousFailedItems, eid ∉ r.keys

/-- A set of folders that contains the known ones and every recorded folder that is listed
without an error, eligible, and done with its files and its sub-folders. -/
structure ClosedUnder (m : Mem) (C : Set String) : Prop where
  known : ∀ fid ∈ m.state.completedFolders, fid ∈ C
  folder : ∀ fid node, AList.lookup fid m.tree = some node → node.listingOk = true →
    node.eligible = true → m.Done node.fileEffIds → (∀ sub ∈ node.subfolderIds, sub ∈ C) →
    fid ∈ C

/-- The least such set. -/
def leastComplete (m : Mem) : Set String := {fid | ∀ C, m.ClosedUnder C → fid ∈ C}

/-- The test of a file in `computeCompletedFolders`. -/
def fileOk (m : Mem) (eid : String) : Bool :=
  decide (eid ∈ m.state.copiedIds) &&
    !decide (eid ∈ (m.result.failedItems ++ m.result.previousFailedItems).flatMap FailedItem.keys)

theorem all_fileOk_iff (m : Mem) (ids : List String) : ids.all m.fileOk = true ↔ m.Done ids := by
  simp [fileOk, Done, List.all_eq_true, List.mem_flatMap, or_imp, forall_and]

theorem closedUnder_iff (m : Mem) (C : Set String) :
    m.ClosedUnder C ↔ Closed (fun fid => fid ∈ m.state.completedFolders) (Ready m.tree m.fileOk)
      (subfolders m.tree) C := by
  constructor
  · intro h
    constructor
    · exact h.known
    · rintro fid ⟨node, hnode, hlisting, heligible, hfiles⟩ hnext
      rw [subfolders, hnode] at hnext
      exact h.folder fid node hnode hlisting heligible ((m.all_fileOk_iff _).mp hfiles) hnext
  · intro h
    constructor
    · exact h.base
    · intro fid node hnode hlisting heligible hfiles hnext
      apply h.node fid ⟨node, hnode, hlisting, heligible, (m.all_fileOk_iff _).mpr hfiles⟩
      rwa [subfolders, hnode]

theorem mem_leastComplete (m : Mem) (fid : String) :
    fid ∈ m.leastComplete ↔ Complete m.state.completedFolders m.tree m.fileOk fid := by
  constructor
  · intro h
    exact h _ ((m.closedUnder_iff _).mpr closed_grounded)
  · intro h C hC
    exact h.mem ((m.closedUnder_iff C).mp hC)

/-- `computeCompletedFolders` returns the recorded members of the least set, in any order of the
folders, and its search ends: a larger bound on the depth changes nothing. -/
theorem completed_folders_least (m : Mem) :
    m.ClosedUnder m.leastComplete ∧
    (∀ C, m.ClosedUnder C → m.leastComplete ⊆ C) ∧
    (∀ fid, fid ∈ m.computeCompletedFolders ↔ fid ∈ m.tree.keys ∧ fid ∈ m.leastComplete) ∧
    (∀ fuel, m.tree.keys.length < fuel → ∀ fids : List String, ∀ fid,
      fid ∈ completeAmong (isComplete m.state.completedFolders m.tree m.fileOk fuel []) fids ∅ ↔
        fid ∈ fids ∧ fid ∈ m.leastComplete) ∧
    ∀ fuel, m.tree.keys.length < fuel → ∀ fid memo,
      isComplete m.state.completedFolders m.tree m.fileOk fuel [] fid memo =
        isComplete m.state.completedFolders m.tree m.fileOk (m.tree.keys.length + 1) [] fid
          memo := by
  have hleast : m.leastComplete =
      {fid | Complete m.state.completedFolders m.tree m.fileOk fid} :=
    Set.ext m.mem_leastComplete
  have hamong : ∀ fuel, m.tree.keys.length < fuel → ∀ fids : List String, ∀ fid,
      fid ∈ completeAmong (isComplete m.state.completedFolders m.tree m.fileOk fuel []) fids ∅ ↔
        fid ∈ fids ∧ fid ∈ m.leastComplete := by
    intro fuel hfuel fids fid
    rw [mem_completeAmong hfuel, m.mem_leastComplete]
  refine ⟨?_, fun C hC fid hfid => hfid C hC, ?_, hamong, ?_⟩
  · rw [hleast]
    exact (m.closedUnder_iff _).mpr closed_grounded
  · intro fid
    have hcompute : m.computeCompletedFolders =
        (completeAmong (isComplete m.state.completedFolders m.tree m.fileOk
          (m.tree.keys.length + 1) []) m.tree.keys ∅).toFinset := rfl
    rw [hcompute, List.mem_toFinset]
    exact hamong _ (Nat.lt_succ_self _) m.tree.keys fid
  · intro fuel hfuel
    induction fuel, hfuel using Nat.le_induction with
    | base => exact fun _ _ => rfl
    | succ fuel hfuel ih =>
      intro fid memo
      rw [isComplete_succ fuel fid (by simpa using hfuel) List.nodup_nil (List.nil_subset _), ih]

end Mem
end TurboCopy
