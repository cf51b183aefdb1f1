import TurboCopy.Copier.Solo
import TurboCopy.Copier.Replay
import TurboCopy.Search.DepthFirst

/-!
# The destination and the source tree

Before it creates anything, a run walks from the destination up the parent links and refuses
when it meets the source. The walk reads the metadata of a folder once, takes a folder it
cannot read for one without parents, and visits 200 folders at most. It finds the source
exactly when a depth-first walk of that length does.
-/

namespace TurboCopy

open Threads CopierM DepthFirst

/-- What reading the metadata of each folder gives: its parents, or an error. -/
abbrev ParentReads : Type := String → Except ApiError (List String)

/-- The parents of a folder as far as they can be read. -/
def ParentReads.above (reads : ParentReads) (id : String) : List String :=
  match reads id with
  | .ok parents => parents
  | .error _ => []

/-- Every call is answered, and the metadata with the parents of a folder as `reads` says. -/
structure Service.ReadsAs (V : Service) (reads : ParentReads) : Prop where
  answers : ∀ q d, ∃ x d', V.serves q d x d'
  error : ∀ {id d x d' e}, reads id = .error e →
    V.serves (.getMetadata id [.id, .parents]) d x d' → x = .error e
  ok : ∀ {id d x d' parents}, reads id = .ok parents →
    V.serves (.getMetadata id [.id, .parents]) d x d' → ∃ data, x = .ok data ∧ data.parents = parents

/-- A history without a mutating call. -/
def Untouched (past : List (Event copierSig)) : Prop :=
  ∀ q x, .did (.ask q) x ∈ past → q.mutating = false

theorem Untouched.mem {past : List (Event copierSig)} (h : Untouched past) (o : MemOp) (x : o.Out) :
    Untouched (.did (.mem o) x :: past) := by
  intro q y hm
  rcases List.mem_cons.mp hm with heq | hm
  · exact nomatch heq
  · exact h q y hm

theorem Untouched.ask {past : List (Event copierSig)} (h : Untouched past) {q : Request}
    (hq : q.mutating = false) (x : q.Ret) : Untouched (.did (.ask q) x :: past) := by
  intro q' y hm
  rcases List.mem_cons.mp hm with heq | hm
  · cases heq
    exact hq
  · exact h q' y hm

/-! ## The walk -/

section Walk

variable {cp : Copier} {V : Service} {reads : ParentReads} {w : Scene cp V}

/-- From one world to the other, the memory stays and no mutating call is made. -/
structure Quietly (w w' : Scene cp V) : Prop where
  mem : w'.state.mem = w.state.mem
  untouched : Untouched w.trace → Untouched w'.trace

theorem Quietly.rfl : Quietly w w := ⟨Eq.refl _, id⟩

theorem Quietly.trans {w₁ w₂ w₃ : Scene cp V} (h : Quietly w₁ w₂) (h' : Quietly w₂ w₃) :
    Quietly w₁ w₃ := ⟨h'.mem.trans h.mem, h'.untouched ∘ h.untouched⟩

/-- A call that changes nothing. -/
theorem completes_ask (hV : V.ReadsAs reads) {q : Request} (hq : q.mutating = false)
    (w : Scene cp V) : Completes w (ask q)
      (fun x w' => (∃ d d', V.serves q d x d') ∧ Quietly w w') fun _ _ => False := by
  apply Completes.ask (hV.answers q _)
  exact fun x d hs => ⟨⟨_, _, hs⟩, rfl, fun h => h.ask hq x⟩

/-- The metadata of a folder with its parents. -/
theorem completes_read (hV : V.ReadsAs reads) (id : String) (w : Scene cp V) :
    Completes w (ask (.getMetadata id [.id, .parents])) (fun x w' => (match reads id with
      | .ok parents => ∃ data, x = .ok data ∧ data.parents = parents
      | .error e => x = .error e) ∧ Quietly w w') fun _ _ => False := by
  apply (completes_ask hV rfl w).mono _ fun _ _ h => h
  rintro x w' ⟨⟨d, d', hs⟩, hw⟩
  refine ⟨?_, hw⟩
  split
  · rename_i parents hread
    exact hV.ok hread hs
  · rename_i e hread
    exact hV.error hread hs

/-- What `_is_descendant_of` does in a world: it says whether its walk meets the ancestor. -/
def Meets (reads : ParentReads) (ancestor : String) (n : ℕ) (seen stack : List String)
    (w : Scene cp V) (b : Bool) (w' : Scene cp V) : Prop :=
  (b = true ↔ ancestor ∈ walk reads.above n seen stack) ∧ Quietly w w'

theorem completes_climb (hV : V.ReadsAs reads) (ancestor : String) (n : ℕ) :
    ∀ seen : List String, n + seen.length = 200 → ancestor ∉ seen → ∀ stack (w : Scene cp V),
      Completes w (CopierM.iterate (Copier.climb ancestor 200) (stack, seen))
        (Meets reads ancestor n seen stack w) fun _ _ => False := by
  induction n with
  | zero =>
    intro seen hlen hancestor stack w
    apply Completes.iterate_step
    unfold Copier.climb
    cases stack with
    | nil => exact Completes.pure ⟨by simp [walk], Quietly.rfl⟩
    | cons cur stack =>
      dsimp only
      rw [if_pos (by omega)]
      exact Completes.pure ⟨by simp [walk], Quietly.rfl⟩
  | succ n ih =>
    intro seen hlen hancestor stack
    induction stack with
    | nil =>
      intro w
      apply Completes.iterate_step
      exact Completes.pure ⟨by simp [walk_nil], Quietly.rfl⟩
    | cons cur stack ihs =>
      intro w
      apply Completes.iterate_step
      unfold Copier.climb
      dsimp only
      rw [if_neg (by omega)]
      by_cases hfound : cur = ancestor
      · rw [if_pos hfound]
        refine Completes.pure ⟨?_, Quietly.rfl⟩
        rw [hfound, walk_fresh hancestor]
        simp
      · rw [if_neg hfound]
        by_cases hcur : cur ∈ seen
        · rw [if_pos hcur]
          apply Completes.pure
          unfold Meets
          rw [walk_seen hcur]
          exact ihs w
        · rw [if_neg hcur]
          have hlen' : n + (cur :: seen).length = 200 := by
            rw [List.length_cons]
            omega
          have hnot : ancestor ∉ cur :: seen := by
            rw [List.mem_cons, not_or]
            exact ⟨Ne.symm hfound, hancestor⟩
          -- One folder is read, and the walk goes on from its parents.
          have hrest (w' : Scene cp V) (hw : Quietly w w') :
              Completes w' (CopierM.iterate (Copier.climb ancestor 200)
                (((reads.above cur).filter fun p => p ∉ cur :: seen).reverse ++ stack, cur :: seen))
                (Meets reads ancestor (n + 1) seen (cur :: stack) w) fun _ _ => False := by
            apply (ih (cur :: seen) hlen' hnot _ w').mono _ fun _ _ h => h
            rintro b w'' ⟨hb, hquiet⟩
            refine ⟨?_, hw.trans hquiet⟩
            rw [hb, walk_fresh hcur, List.mem_cons, or_iff_right (Ne.symm hfound)]
          apply Completes.bind (completes_read hV cur w)
          rintro x w' ⟨hx, hw⟩
          have hgo := hrest w' hw
          unfold ParentReads.above at hgo
          cases hread : reads cur with
          | error e =>
            rw [hread] at hx hgo
            obtain rfl : x = .error e := hx
            exact Completes.pure hgo
          | ok parents =>
            rw [hread] at hx hgo
            obtain ⟨data, rfl, rfl⟩ := hx
            exact Completes.pure hgo

theorem completes_isDescendantOf (hV : V.ReadsAs reads) {candidate ancestor : String}
    (hcandidate : candidate ≠ "") (hancestor : ancestor ≠ "") (w : Scene cp V) :
    Completes w (Copier.isDescendantOf candidate ancestor)
      (Meets reads ancestor 200 [] [candidate] w) fun _ _ => False := by
  unfold Copier.isDescendantOf
  rw [if_neg (by simp [hcandidate, hancestor])]
  exact completes_climb hV ancestor 200 [] rfl List.not_mem_nil [candidate] w

/-! ## The run -/

theorem completes_rootAccount (hV : V.ReadsAs reads) {w w' : Scene cp V} (hw : Quietly w w') :
    Completes w' (do
      match ← ask (.getMetadata "root" [.id]) with
      | .error _ => pure none
      | .ok data => pure (some s!"root-{data.id}")) (fun _ w' => Quietly w w')
      fun _ _ => False := by
  apply Completes.bind (completes_ask hV rfl w')
  rintro (e | data) w'' ⟨-, hw'⟩
  · exact Completes.pure (hw.trans hw')
  · exact Completes.pure (hw.trans hw')

theorem completes_accountId (hV : V.ReadsAs reads) (w : Scene cp V) :
    Completes w Copier.accountId (fun _ w' => Quietly w w') fun _ _ => False := by
  apply Completes.bind (completes_ask hV rfl w)
  rintro (e | email) w' ⟨-, hw⟩
  · exact completes_rootAccount hV hw
  · dsimp only
    split
    · exact Completes.pure hw
    · exact completes_rootAccount hV hw

theorem completes_stopWith (reason : String) (w : Scene cp V) :
    Completes w (Copier.stopWith reason) (fun r w' => r.stopReason = some reason ∧
      (Untouched w.trace → Untouched w'.trace)) fun _ _ => False := by
  apply Completes.bind (R := fun _ w' => w'.state.mem.result.stopReason = some reason ∧
    (Untouched w.trace → Untouched w'.trace))
  · exact Completes.mem ⟨rfl, fun h => h.mem _ _⟩
  · rintro _ w' ⟨hreason, hw⟩
    exact Completes.mem ⟨hreason, fun h => (hw h).mem _ _⟩

/-- A run refuses its destination: it ends with the text that says so and without a mutating
call. -/
def Copier.Refuses (cp : Copier) (V : Service) (s : Site V) : Prop :=
  Yields (cp.undisturbed V) cp.run s fun r w => Untouched w.trace ∧
    ∃ result, r = .ok result ∧ result.stopReason = some Copier.unsafeDestination

end Walk

section Run

variable {cp : Copier} {V : Service} {reads : ParentReads} {sourceId destParent : String}

/-- The folders of a run whose configuration passes the checks. -/
structure Copier.Between (cp : Copier) (sourceId destParent : String) : Prop where
  valid : cp.config.validate cp.showFloat = []
  source : extractFolderId cp.config.sourceLink = some sourceId
  dest : extractFolderId cp.config.destLink = some destParent

theorem searchId_ne_empty {front : List Char} {least : ℕ} (hleast : 0 < least) {cs : List Char}
    {id : String} (h : searchId front least cs = some id) : id ≠ "" := by
  induction cs with
  | nil => exact nomatch h
  | cons c cs ih =>
    unfold searchId at h
    dsimp only at h
    split_ifs at h with hrun
    · rintro rfl
      have hlength := (Bool.and_eq_true_iff.mp hrun).2
      have hempty : ((c :: cs).drop front.length).takeWhile isIdChar = [] := by
        simpa using Option.some.inj h
      rw [hempty] at hlength
      simp at hlength
      omega
    · exact ih h

theorem extractFolderId_ne_empty {url id : String} (h : extractFolderId url = some id) :
    id ≠ "" := by
  unfold extractFolderId at h
  simp only [Option.orElse_eq_or, Option.or_eq_some_iff] at h
  rcases h with h | ⟨-, h | ⟨-, h | ⟨-, h⟩⟩⟩
  · exact searchId_ne_empty (by decide) h
  · exact searchId_ne_empty (by decide) h
  · exact searchId_ne_empty (by decide) h
  · exact searchId_ne_empty (by decide) h

/-- Whether the check finds the source. -/
def Found (reads : ParentReads) (sourceId destParent : String) : Prop :=
  sourceId ∈ walk reads.above 200 [] [destParent]

/-- What follows the check of the destination. -/
def Copier.afterCheck (cp : Copier) (sourceId destParent : String) (account : Option String)
    (inside : Bool) : CopierM CopyResult := do
  if inside then Copier.stopWith Copier.unsafeDestination
  else
    match ← Copier.preflight destParent with
    | some error => Copier.stopWith error
    | none => cp.copyTree sourceId destParent account

/-- A run comes to its check without a mutating call, and the check says whether the walk
finds the source. -/
theorem completes_run (hV : V.ReadsAs reads) (hb : cp.Between sourceId destParent)
    {w : Scene cp V} {Q : CopyResult → Scene cp V → Prop} {E : Exc → Scene cp V → Prop}
    (h : ∀ account inside w', (inside = true ↔ Found reads sourceId destParent) →
      (Untouched w.trace → Untouched w'.trace) →
        Completes w' (cp.afterCheck sourceId destParent account inside) Q E) :
    Completes w cp.run Q E := by
  unfold Copier.run
  rw [hb.valid]
  simp only [hb.source, hb.dest]
  apply Completes.bind ((completes_accountId hV w).mono (fun _ _ h => h) fun _ _ h => h.elim)
  intro account w₁ hw₁
  apply Completes.bind (R := fun _ w₂ => Untouched w.trace → Untouched w₂.trace)
  · exact Completes.mem fun hw => (hw₁.untouched hw).mem _ _
  intro _ w₂ hw₂
  dsimp only
  split_ifs with heq
  · apply h account true w₂ _ hw₂
    refine iff_of_true rfl ?_
    rw [Found, heq, walk_fresh List.not_mem_nil]
    exact List.mem_cons_self ..
  · have hcheck := completes_isDescendantOf hV (extractFolderId_ne_empty hb.dest)
      (extractFolderId_ne_empty hb.source) w₂
    apply Completes.bind (hcheck.mono (fun _ _ h => h) fun _ _ h => h.elim)
    rintro inside w₃ ⟨hfound, hquiet⟩
    exact h account inside w₃ hfound (hquiet.untouched ∘ hw₂)

/-- A run whose check finds the source refuses its destination. -/
theorem refuses_of_found (hV : V.ReadsAs reads) (hb : cp.Between sourceId destParent)
    (hfound : Found reads sourceId destParent) (s : Site V) : cp.Refuses V s := by
  have hstart : Untouched ([] : List (Event copierSig)) := fun _ _ h => absurd h List.not_mem_nil
  have hrun : Completes (⟨s, []⟩ : Scene cp V) cp.run (fun result w => Untouched w.trace ∧
      result.stopReason = some Copier.unsafeDestination) fun _ _ => False := by
    apply completes_run hV hb
    intro account inside w' hinside hw'
    obtain rfl : inside = true := hinside.mpr hfound
    apply (completes_stopWith Copier.unsafeDestination w').mono _ fun _ _ h => h
    rintro result w'' ⟨hreason, hw''⟩
    exact ⟨hw'' (hw' hstart), hreason⟩
  apply Alone.yields (cp.undisturbed_env V)
  apply Alone.mono hrun
  rintro (e | result) w h
  · exact h.elim
  · exact ⟨h.1, result, rfl, h.2⟩

/-- What the walk meets can be reached. -/
theorem reaches_of_found {parents : String → List String}
    (hreads : ∀ id ps, reads id = .ok ps → ps = parents id)
    (hfound : Found reads sourceId destParent) : Reaches parents destParent sourceId := by
  obtain ⟨a, ha, hreach⟩ := reaches_of_mem_walk hfound
  rw [List.mem_singleton.mp ha] at hreach
  have habove : ∀ b c, c ∈ reads.above b → c ∈ parents b := by
    intro b c hc
    unfold ParentReads.above at hc
    split at hc
    · rename_i ps hps
      exact hreads b ps hps ▸ hc
    · exact nomatch hc
  exact Relation.ReflTransGen.mono habove _ _ hreach

/-- When all folders can be read and no more than 200 can be reached, the check finds a source
that can be reached. -/
theorem found_of_few {parents : String → List String} (hreads : ∀ id, reads id = .ok (parents id))
    {s : Finset String} (hs : ∀ id, Reaches parents destParent id → id ∈ s) (hcard : s.card ≤ 200)
    (hreach : Reaches parents destParent sourceId) : Found reads sourceId destParent := by
  have habove : reads.above = parents := by
    funext id
    rw [ParentReads.above, hreads]
  rw [Found, habove]
  exact mem_walk_of_few hs hcard hreach

/-- A Drive of which only the parents of folders can be read. -/
def deaf (reads : ParentReads) : Service where
  State := Unit
  serves
    | .getMetadata id fields, _, x, _ =>
      x = if fields = [.id, .parents] then
          (reads id).map fun parents => { id := id, parents := parents }
        else .error Drive.notFound
    | q, _, x, _ => x = q.raised Drive.notFound

theorem deaf_readsAs (reads : ParentReads) : (deaf reads).ReadsAs reads where
  answers q d := by
    cases q <;> exact ⟨_, (), rfl⟩
  error {id d x d' e} hread hs := by
    obtain rfl : x = (reads id).map fun parents => { id := id, parents := parents } := hs
    rw [hread]
    rfl
  ok {id d x d' parents} hread hs := by
    obtain rfl : x = (reads id).map fun parents => { id := id, parents := parents } := hs
    rw [hread]
    exact ⟨_, rfl, rfl⟩

/-- On such a Drive, a run whose check does not find the source goes on and stops at its
destination. -/
theorem not_refuses_deaf (hb : cp.Between sourceId destParent)
    (hfound : ¬Found reads sourceId destParent) (s : Site (deaf reads)) :
    ¬cp.Refuses (deaf reads) s := by
  intro hrefuses
  have hrun : Completes (⟨s, []⟩ : Scene cp (deaf reads)) cp.run (fun result _ =>
      result.stopReason ≠ some Copier.unsafeDestination) fun _ _ => False := by
    apply completes_run (deaf_readsAs reads) hb
    intro account inside w' hinside _
    cases inside with
    | true => exact absurd (hinside.mp rfl) hfound
    | false =>
      unfold Copier.afterCheck Copier.preflight
      rw [if_neg Bool.false_ne_true]
      apply Completes.bind (R := fun error _ => ∃ text, error = some text ∧
        text ≠ Copier.unsafeDestination)
      · apply Completes.bind (R := fun x _ => x = .error Drive.notFound)
        · apply Completes.ask ((deaf_readsAs reads).answers _ _)
          exact fun x d hs => hs
        · rintro _ _ rfl
          refine Completes.pure ⟨_, rfl, ?_⟩
          decide +kernel
      · rintro _ w'' ⟨text, rfl, htext⟩
        apply (completes_stopWith text w'').mono _ fun _ _ h => h
        rintro result _ ⟨hreason, -⟩
        rw [hreason]
        exact fun h => htext (Option.some.inj h)
  have hyields := Alone.yields (cp.undisturbed_env (deaf reads)) hrun
  obtain ⟨c, a, hreach, hreturned⟩ := hrefuses.completes _ .refl
  obtain ⟨-, result, rfl, hreason⟩ := hrefuses.returned c a hreach hreturned
  exact hyields.returned c (.ok result) hreach hreturned hreason

/-- The check of the destination does what it should, in every run and as a procedure, if and
only if it finds a source that can be reached at all. -/
theorem destination_check_iff (hb : cp.Between sourceId destParent)
    {parents : String → List String} (hreads : ∀ id ps, reads id = .ok ps → ps = parents id) :
    ((Reaches parents destParent sourceId → ∀ V : Service, V.ReadsAs reads →
        ∀ now d, cp.Refuses V ⟨cp.freshMem now, d⟩) ∧
      ((∀ id, ∃ ps, reads id = .ok ps) → ∀ V : Service, V.ReadsAs reads → ∀ w : Scene cp V,
        Completes w (Copier.isDescendantOf destParent sourceId)
          (fun inside _ => inside = true ↔ Reaches parents destParent sourceId) fun _ _ => False)) ↔
    (Reaches parents destParent sourceId → Found reads sourceId destParent) := by
  constructor
  · rintro ⟨hrefuses, -⟩ hreach
    by_contra hfound
    exact not_refuses_deaf hb hfound _ (hrefuses hreach (deaf reads) (deaf_readsAs reads) "" ())
  · intro h
    refine ⟨fun hreach V hV now d => refuses_of_found hV hb (h hreach) _, fun _ V hV w => ?_⟩
    apply (completes_isDescendantOf hV (extractFolderId_ne_empty hb.dest)
      (extractFolderId_ne_empty hb.source) w).mono _ fun _ _ h => h
    rintro inside w' ⟨hinside, -⟩
    exact hinside.trans ⟨reaches_of_found hreads, h⟩

end Run

/-! ## A destination in the source folder -/

def enclosedDrive : Drive where
  nodes := [folderNode "sourcefolder" "Source" [], folderNode "targetfolder" "Target" ["sourcefolder"]]
  nodup := by decide

def Drive.parentsOf (d : Drive) (id : String) : List String :=
  match d.nodes.find? fun n => n.file.id = id with
  | some n => n.file.parents
  | none => []

theorem smallCopier_between : smallCopier.Between "sourcefolder" "targetfolder" :=
  ⟨by decide +kernel, by decide +kernel, by decide +kernel⟩

/-- All folders can be read, and every run refuses. -/
theorem destination_check_iff_nested :
    Reaches enclosedDrive.parentsOf "targetfolder" "sourcefolder" ∧
      ∀ V : Service, (V.ReadsAs fun id => .ok (enclosedDrive.parentsOf id)) →
        ∀ now d, smallCopier.Refuses V ⟨smallCopier.freshMem now, d⟩ := by
  have hreach : Reaches enclosedDrive.parentsOf "targetfolder" "sourcefolder" :=
    Relation.ReflTransGen.single (by decide)
  have hfound : Found (fun id => .ok (enclosedDrive.parentsOf id)) "sourcefolder" "targetfolder" := by
    unfold Found
    decide +kernel
  have hreads : ∀ id ps, (Except.ok (enclosedDrive.parentsOf id) : Except ApiError _) = .ok ps →
      ps = enclosedDrive.parentsOf id := fun id ps h => (Except.ok.inj h).symm
  have hcheck := (destination_check_iff smallCopier_between hreads).mpr fun _ => hfound
  exact ⟨hreach, hcheck.1 hreach⟩

/-- The destination cannot be read when it is checked, and the run copies the source folder
into it. -/
def unread : Plan := { raise := fun n => if n = 2 then some Drive.notFound else none }

theorem destination_inside_accepted :
    Reaches enclosedDrive.parentsOf "targetfolder" "sourcefolder" ∧
      Reach (openRuns smallCopier) (openStart smallCopier enclosedDrive)
        (openRun smallCopier enclosedDrive unread 20) ∧
      (openRun smallCopier enclosedDrive unread 20).world.state.drive.nodes.map
          (fun n => (n.file.name, n.file.parents)) =
        [("Source", ["targetfolder"]), ("Source", []), ("Target", ["sourcefolder"])] :=
  ⟨Relation.ReflTransGen.single (by decide), openRun_reach (fun _ => rfl) 20, by decide +kernel⟩

end TurboCopy
