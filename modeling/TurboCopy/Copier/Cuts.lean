import TurboCopy.Threads.Guarantee
import TurboCopy.Copier.Branches
import TurboCopy.Copier.Solo
import TurboCopy.Copier.Refusals
import TurboCopy.Copier.Replay

/-!
# Where the branches are cut

Over a finite set of source folders every level ends: each call puts a folder of the source on
its branch, and each page of a listing leaves fewer pages. When a level has ended without a
stop, each folder in it was descended into or cut for a reason that the history shows.
-/

namespace TurboCopy

open Threads CopierM

/-! ## A finite source -/

section Source

variable (cp : Copier) (F : Finset String)

/-- The tags of the copy of a file fit. -/
def FileFits (x : DriveFile) : Prop :=
  TagFits "source_file_id" x.id ∧ TagFits "source_md5" (x.md5.getD "")

instance (x : DriveFile) : Decidable (FileFits x) := inferInstanceAs (Decidable (_ ∧ _))

/-- A listed item of a source with the folders `F`. In a real run the tags that the main thread
would write for it fit. -/
structure InSource (x : DriveFile) : Prop where
  inside : x.isFolder → x.id ∈ F
  folder : ¬cp.config.dryRun → x.isFolder → TagFits "source_folder_id" x.id
  shortcut : ¬cp.config.dryRun → x.isShortcut → TagFits "source_shortcut_id" x.id
  file : ¬cp.config.dryRun → ¬cp.pooled → ¬x.isFolder → ¬x.isShortcut → FileFits x

/-- The target of a shortcut of such a source. -/
structure IsTarget (x : DriveFile) : Prop where
  inside : x.isFolder → x.id ∈ F
  folder : ¬cp.config.dryRun → x.isFolder → TagFits "shortcut_target_id" x.id
  file : ¬cp.config.dryRun → ¬x.isFolder → FileFits x

/-- The next page token leaves fewer pages. -/
def Shrinks (tok next : Option PageToken) : Prop :=
  ∀ t t', tok = some t → next = some t' → t'.left < t.left

/-- An answer of a Drive whose source has the folders `F`. -/
def Admitted : (o : CopierOp) → o.Out → Prop
  | .ask (.listChildren _ excludes tok), .ok page =>
    Shrinks tok page.2 ∧ (excludes.isSome → ∀ f ∈ page.1, InSource cp F (DriveFile.fromApi f))
  | .ask (.listChildrenMulti _ _ tok), .ok page =>
    Shrinks tok page.2 ∧ ∀ f ∈ page.1, InSource cp F (DriveFile.fromApi f)
  | .ask (.getMetadata _ fields), .ok data =>
    fields = shortcutFields → IsTarget cp F (DriveFile.fromApi data)
  | .ask (.createFolder _ _ _), .ok id => (truthy id).isSome
  | _, _ => True

variable {cp F}

end Source

theorem Shrinks.left {tok : Option PageToken} {t : PageToken} (h : Shrinks tok (some t)) :
    Completes.pagesLeft (some t) < Completes.pagesLeft tok := by
  cases tok with
  | none => exact WithTop.coe_lt_top _
  | some t' => exact WithTop.coe_lt_coe.mpr (h t' t rfl rfl)

/-! ## What the history of a level shows -/

/-- The thread or another one saw the stop flag. -/
def SawStop (t : List (Event copierSig)) : Prop := .did (.mem .stopIsSet) true ∈ t

/-- `QuotaStopped`, after the stop it stands for. -/
inductive StopExc : Exc → List (Event copierSig) → Prop
  | quotaStopped (reason : Option String) (t : List (Event copierSig)) (h : StopMet t) :
      StopExc (.quotaStopped reason) t

theorem StopExc.grow {e : Exc} {t t' : List (Event copierSig)} (h : StopExc e t) (hsub : t ⊆ t') :
    StopExc e t' := by
  obtain ⟨reason, t, h⟩ := h
  exact .quotaStopped reason t' (h.grow hsub)

/-- From a page token on, a listing of a folder delivered nothing. -/
inductive ListedEmpty (excludes : List String) (folderId : String) (t : List (Event copierSig)) :
    Option PageToken → Prop
  | last {tok : Option PageToken}
      (h : .did (.ask (.listChildren folderId (some excludes) tok)) (.ok ([], none)) ∈ t) :
      ListedEmpty excludes folderId t tok
  | next {tok : Option PageToken} {tok' : PageToken}
      (h : .did (.ask (.listChildren folderId (some excludes) tok)) (.ok ([], some tok')) ∈ t)
      (rest : ListedEmpty excludes folderId t (some tok')) : ListedEmpty excludes folderId t tok

theorem ListedEmpty.grow {excludes : List String} {folderId : String}
    {t t' : List (Event copierSig)} {tok : Option PageToken}
    (h : ListedEmpty excludes folderId t tok) (hsub : t ⊆ t') :
    ListedEmpty excludes folderId t' tok := by
  induction h with
  | last h => exact .last (hsub h)
  | next h _ ih => exact .next (hsub h) ih

theorem RecordedFailed.grow {t t' : List (Event copierSig)} {id : String}
    (h : RecordedFailed t id) (hsub : t ⊆ t') : RecordedFailed t' id :=
  let ⟨item, hm, hid⟩ := h
  ⟨item, hsub hm, hid⟩

theorem ReadTarget.grow {t t' : List (Event copierSig)} {src target : DriveFile}
    (h : ReadTarget t src target) (hsub : t ⊆ t') : ReadTarget t' src target :=
  let ⟨id, data, hid, hm, htarget⟩ := h
  ⟨id, data, hid, hsub hm, htarget⟩

namespace Copier

variable (cp : Copier)

/-- A folder of a level was descended into, or the branch is cut at it. -/
inductive Pursued (l : Level) (folderId : String) (shortcutId : Option String)
    (t : List (Event copierSig)) : Prop
  | descended (dest : Option String) (children : List DriveFile)
      (h : .entered (Level.below l folderId dest children) ∈ t)
  | onBranch (h : folderId ∈ l.visited)
  | failed (h : RecordedFailed t folderId)
  | empty (h : ListedEmpty cp.config.excludeSubstrings folderId t none)
  | completed (hplain : shortcutId = none)
      (h : .did (.mem (.isCompleted l.dest folderId)) true ∈ t)

/-- The folder or the shortcut `src` was dealt with: `P` holds of the folder it stands for. -/
def Treated (P : String → Option String → Prop) (t : List (Event copierSig)) (src : DriveFile) :
    Prop :=
  if src.isShortcut then
    RecordedFailed t src.id ∨
      ∃ target, ReadTarget t src target ∧ (target.isFolder → P target.id (some src.id))
  else src.isFolder → P src.id none

/-- All children of a level were dealt with. -/
def Covered (l : Level) (t : List (Event copierSig)) : Prop :=
  ∀ src ∈ l.children, Treated (fun id shortcutId => cp.Pursued l id shortcutId t) t src

/-- What the call for a level keeps: it traverses the level or meets a stop, whether it sees the
flag or `QuotaStopped` passes through it. No other exception leaves it. -/
def Contract (l : Level) (r : Except Exc Unit) (t : List (Event copierSig)) : Prop :=
  match r with
  | .ok () => SawStop t ∨ cp.Covered l t
  | .error e => StopExc e t

end Copier

/-! ## Procedures that finish -/

section Finishes

variable {α β : Type} {cp : Copier} {F : Finset String}
  {E : Exc → List (Event copierSig) → Prop}
  {t : List (Event copierSig)} {Q R : α → List (Event copierSig) → Prop}

/-- A level for one of the folders `F`. -/
def OfSource (F : Finset String) (l : Level) : Prop := l.parentSourceId ∈ F

instance (F : Finset String) (l : Level) : Decidable (OfSource F l) :=
  inferInstanceAs (Decidable (_ ∈ _))

/-- Over a source with the folders `F` the procedure ends, among other threads, in `Q` when it
returns and in `E` when it raises; the levels it enters are for folders of the source and keep
their contract. -/
def CopierM.Finishes (cp : Copier) (F : Finset String)
    (E : Exc → List (Event copierSig) → Prop) (t : List (Event copierSig)) (x : CopierM α)
    (Q : α → List (Event copierSig) → Prop) : Prop :=
  Halts cp.processLevel (Admitted cp F) (OfSource F) cp.Contract x t fun r t' => match r with
    | .ok a => Q a t'
    | .error e => E e t'

namespace CopierM.Finishes

theorem pure {a : α} (h : Q a t) : Finishes cp F E t (pure a : CopierM α) Q := Halts.pure h

theorem throw {e : Exc} (h : E e t) : Finishes cp F E t (throw e : CopierM α) Q := Halts.pure h

theorem bind {x : CopierM α} {f : α → CopierM β} {Q : β → List (Event copierSig) → Prop}
    (hx : Finishes cp F E t x R)
    (hf : ∀ a t', R a t' → t ⊆ t' → Finishes cp F E t' (f a) Q) :
    Finishes cp F E t (x >>= f) Q := by
  apply Halts.bind (Halts.grows hx (List.Subset.refl t))
  rintro (e | a) t' ⟨h, hsub⟩
  · exact throw h
  · exact hf a t' h hsub

theorem mono {x : CopierM α} (h : Finishes cp F E t x R) (hR : ∀ a t', R a t' → t ⊆ t' → Q a t') :
    Finishes cp F E t x Q := by
  apply Halts.mono (Halts.grows h (List.Subset.refl t))
  rintro (e | a) t' ⟨h, hsub⟩
  · exact h
  · exact hR a t' h hsub

/-- A procedure whose exceptions are caught. -/
theorem attempt {E' : Exc → List (Event copierSig) → Prop} {x : CopierM α}
    {f : Except Exc α → CopierM β} {Q : β → List (Event copierSig) → Prop} (hx : Finishes cp F E' t x R)
    (hok : ∀ a t', R a t' → Finishes cp F E t' (f (.ok a)) Q)
    (herror : ∀ e t', E' e t' → Finishes cp F E t' (f (.error e)) Q) :
    Finishes cp F E t (attempt x >>= f) Q := by
  have hattempt : Halts cp.processLevel (Admitted cp F) (OfSource F) cp.Contract
      (CopierM.attempt x) t fun r t' => ∃ r', r = .ok r' ∧ match r' with
        | .ok a => R a t'
        | .error e => E' e t' :=
    Halts.bind hx fun r _ h => .pure ⟨r, rfl, h⟩
  apply Halts.bind hattempt
  rintro _ t' ⟨e | a, rfl, h⟩
  · exact herror e t' h
  · exact hok a t' h

theorem ite {x y : CopierM α} {p : Prop} [hp : Decidable p] (hx : p → Finishes cp F E t x Q)
    (hy : ¬p → Finishes cp F E t y Q) : Finishes cp F E t (if p then x else y) Q := by
  cases hp with
  | isTrue h => exact hx h
  | isFalse h => exact hy h

/-- A straight procedure, with what it notes of its own operations. -/
theorem notes {x : CopierM α} (h : Notes StopExc [] x R)
    (hR : ∀ a own t', R a own → (∀ o x, .did o x ∈ own → Admitted cp F o x) → own ⊆ t' → Q a t') :
    Finishes cp F StopExc t x Q := by
  apply Halts.mono (Halts.of_tracks h (fun _ _ hm => nomatch hm) (List.nil_subset t))
  rintro (e | a) t' ⟨own, h, hadmitted, hsub⟩
  · exact h.grow hsub
  · exact hR a own t' h hadmitted hsub

theorem straight {x : CopierM α} (h : Straight (fun _ => False) x) :
    Finishes cp F StopExc t x fun _ _ => True :=
  notes (Notes.straight h) fun _ _ _ _ _ _ => trivial

theorem mem {o : MemOp} {Q : o.Out → List (Event copierSig) → Prop}
    (h : ∀ x t', .did (.mem o) x ∈ t' → Q x t') : Finishes cp F E t (mem o) Q :=
  .act fun _ x _ _ => .pure (h x _ (List.mem_cons_self ..))

theorem ask {q : Request} {Q : q.Ret → List (Event copierSig) → Prop}
    (h : ∀ x t', Admitted cp F (.ask q) x → .did (.ask q) x ∈ t' → Q x t') :
    Finishes cp F E t (ask q) Q :=
  .act fun _ x _ hx => .pure (h x _ hx (List.mem_cons_self ..))

/-- A loop whose state decreases with every round. -/
theorem iterate {ι : Type} [Preorder ι] [WellFoundedLT ι] {body : β → CopierM (β ⊕ α)}
    (size : β → ι) (J : β → List (Event copierSig) → Prop)
    (hJ : ∀ b t t', t ⊆ t' → J b t → J b t')
    (hround : ∀ b t, J b t → Finishes cp F E t (body b) fun y t' =>
      Sum.elim (fun b' => J b' t' ∧ size b' < size b) (fun a => Q a t') y)
    {b : β} (hb : J b t) : Finishes cp F E t (iterate body b) Q := by
  apply Halts.loop_decreasing (γ := Except Exc α) size J (fun r t' => match r with
    | .ok a => Q a t'
    | .error e => E e t') hJ ?_ (fun _ _ h => Halts.pure h) hb
  intro b t hJb
  apply Halts.bind (hround b t hJb)
  rintro (e | b' | a) t' h
  · exact .pure h
  · exact .pure h
  · exact .pure h

theorem enter {l : Level} (hsource : OfSource F l)
    (hl : Halts cp.processLevel (Admitted cp F) (OfSource F) cp.Contract (cp.processLevel l) []
      (cp.Contract l)) :
    Finishes cp F StopExc t (enter l) fun _ t' => .entered l ∈ t' := by
  apply Halts.recur hsource hl
  rintro t' (e | ⟨⟩) during hsub hduring h
  · exact .pure (StopExc.grow h hduring)
  · exact .pure (hsub (List.mem_cons_self ..))

end CopierM.Finishes
end Finishes

namespace Copier

variable {cp : Copier} {F : Finset String} {l : Level} {t : List (Event copierSig)}

/-! ## Listings -/

/-- What the listing of a folder for its level found. -/
def Found (cp : Copier) (F : Finset String) (folderId : String) (children : List DriveFile)
    (t : List (Event copierSig)) : Prop :=
  (∀ x ∈ children, InSource cp F x) ∧ (children = [] →
    RecordedFailed t folderId ∨ ListedEmpty cp.config.excludeSubstrings folderId t none)

theorem Found.grow {folderId : String} {children : List DriveFile} {t' : List (Event copierSig)}
    (h : cp.Found F folderId children t) (hsub : t ⊆ t') : cp.Found F folderId children t' :=
  ⟨h.1, fun hempty => (h.2 hempty).imp (·.grow hsub) (·.grow hsub)⟩

/-- A destination that files can be copied into. -/
def Usable (cp : Copier) (dest : Option String) : Prop := (truthy dest).isSome ∨ cp.config.dryRun

/-- A level of the source with a usable destination. -/
structure Ready (cp : Copier) (F : Finset String) (l : Level) : Prop where
  source : OfSource F l
  children : ∀ x ∈ l.children, InSource cp F x
  dest : cp.Usable l.dest

theorem Treated.mono {P P' : String → Option String → Prop} {t' : List (Event copierSig)}
    {src : DriveFile} (h : Treated P t src) (hP : ∀ id shortcutId, P id shortcutId →
      P' id shortcutId) (hsub : t ⊆ t') : Treated P' t' src := by
  unfold Treated at *
  split_ifs at h ⊢
  · rcases h with h | ⟨target, hread, hfolder⟩
    · exact .inl (h.grow hsub)
    · exact .inr ⟨target, hread.grow hsub, fun hf => hP _ _ (hfolder hf)⟩
  · exact fun hf => hP _ _ (h hf)

theorem Pursued.grow {folderId : String} {shortcutId : Option String}
    {t' : List (Event copierSig)} (h : cp.Pursued l folderId shortcutId t) (hsub : t ⊆ t') :
    cp.Pursued l folderId shortcutId t' := by
  cases h with
  | descended dest children h => exact .descended dest children (hsub h)
  | onBranch h => exact .onBranch h
  | failed h => exact .failed (h.grow hsub)
  | empty h => exact .empty (h.grow hsub)
  | completed hplain h => exact .completed hplain (hsub h)

/-- A folder that is pending, or pursued already. -/
def Queued (cp : Copier) (l : Level) (pending : List Pending) (t : List (Event copierSig))
    (folderId : String) (shortcutId : Option String) : Prop :=
  cp.Pursued l folderId shortcutId t ∨ ∃ p ∈ pending, p.1.id = folderId

theorem Queued.grow {pending pending' : List Pending} {t' : List (Event copierSig)}
    {folderId : String} {shortcutId : Option String} (h : cp.Queued l pending t folderId shortcutId)
    (hsub : t ⊆ t') (hpending : pending ⊆ pending') :
    cp.Queued l pending' t' folderId shortcutId :=
  h.imp (·.grow hsub) fun ⟨p, hp, hid⟩ => ⟨p, hpending hp, hid⟩

/-- The children of the folders listed so far. -/
def AllFound (cp : Copier) (F : Finset String) (childMap : ChildMap)
    (t : List (Event copierSig)) : Prop :=
  ∀ folderId children, AList.lookup folderId childMap = some children →
    cp.Found F folderId children t

theorem AllFound.insert {childMap : ChildMap} {folderId : String} {children : List DriveFile}
    (h : cp.AllFound F childMap t) (hfound : cp.Found F folderId children t) :
    cp.AllFound F (AList.insert folderId children childMap) t := by
  intro id kids hlookup
  by_cases hid : id = folderId
  · subst hid
    rw [AList.lookup_insert] at hlookup
    cases hlookup
    exact hfound
  · rw [AList.lookup_insert_ne hid] at hlookup
    exact h id kids hlookup

theorem AllFound.grow {childMap : ChildMap} {t' : List (Event copierSig)}
    (h : cp.AllFound F childMap t) (hsub : t ⊆ t') : cp.AllFound F childMap t' :=
  fun id kids hlookup => (h id kids hlookup).grow hsub

end Copier

/-! ## Runs -/

end TurboCopy
