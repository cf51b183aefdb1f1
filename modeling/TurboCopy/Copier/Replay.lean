import TurboCopy.Copier.Ledger
import TurboCopy.Drive

/-!
# Replaying a run

A run of one thread against a Drive that answers, with a plan of what goes wrong: which
call raises, how a copy differs from its source and when a stop is requested, by the
number of actions performed before.
-/

namespace TurboCopy

open Threads

structure Plan where
  raise : ℕ → Option ApiError := fun _ => none
  make : ℕ → Node → CopyBody → ApiFile := fun _ => Drive.exactCopy
  stop : ℕ → Bool := fun _ => false

/-- A Drive whose calls may raise as a test says. -/
def Profile.Admits (pf : Profile) (mayRaise : Request → Bool) (plan : Plan) : Prop :=
  (∀ q, mayRaise q = true → pf.raises q) ∧
    ∀ k n body id, pf.copies n body (Drive.named (plan.make k) n body id) n.content

section Replay

variable (cp : Copier) (pf : Profile) (ok : StepCondition (Drive.service pf))
  (mayRaise : Request → Bool) (plan : Plan)
  (check : (o : CopierOp) → Site (Drive.service pf) → o.Out → Site (Drive.service pf) → Bool)

/-- The outcome the plan has for the action number `k`. -/
def planned (k : ℕ) : (o : CopierOp) → Site (Drive.service pf) → o.Out × Site (Drive.service pf)
  | .mem o, s => ((s.mem.exec o).1, ⟨(s.mem.exec o).2, s.drive⟩)
  | .ask q, s =>
    match plan.raise k with
    | some e =>
      if mayRaise q then (q.raised e, s)
      else
        let r := Drive.reply pf.hides (plan.make k) q s.drive
        (r.1, ⟨s.mem, r.2⟩)
    | none =>
      let r := Drive.reply pf.hides (plan.make k) q s.drive
      (r.1, ⟨s.mem, r.2⟩)

def Plan.script : Script (cp.runs (Drive.service pf) ok) where
  outcome := planned pf mayRaise plan
  check := check
  poke k s := if plan.stop k then some ⟨s.mem.requestStop none, s.drive⟩ else none

variable {cp pf ok mayRaise plan check}

theorem planned_performs (ha : pf.Admits mayRaise plan) (k : ℕ) (o : CopierOp)
    (s : Site (Drive.service pf)) : (cp.system (Drive.service pf)).perform o s
      (planned pf mayRaise plan k o s).1 (planned pf mayRaise plan k o s).2 := by
  have hreply (q : Request) : (Drive.service pf).serves q s.drive
      (Drive.reply pf.hides (plan.make k) q s.drive).1
      (Drive.reply pf.hides (plan.make k) q s.drive).2 := Drive.reply_serves (ha.2 k) q s.drive
  cases o with
  | mem o => exact ⟨rfl, rfl⟩
  | ask q =>
    unfold planned
    dsimp only
    split
    · rename_i e he
      split_ifs with hq
      · exact ⟨.raised e (.inl (ha.1 q hq)) rfl, rfl⟩
      · exact ⟨hreply q, rfl⟩
    · exact ⟨hreply q, rfl⟩

theorem Plan.legal (ha : pf.Admits mayRaise plan)
    (hcheck : ∀ o s x s', check o s x s' = true → ok o s x s') :
    (plan.script cp pf ok mayRaise check).Legal where
  outcome k o s hc := ⟨planned_performs ha k o s, hcheck _ _ _ _ hc⟩
  poke k s s' h := by
    simp only [Plan.script] at h
    split_ifs at h
    cases h
    exact ⟨none, rfl⟩

end Replay
/-! ## Small Drives -/

/-- A Drive that may refuse any call and makes exact copies. -/
def openProfile : Profile where
  raises _ := True
  copies n body f c := (∃ id, f = Drive.named Drive.exactCopy n body id) ∧ c = n.content
  prompt := True
  hides _ _ := false

theorem openProfile_admits {plan : Plan} (h : ∀ k, plan.make k = Drive.exactCopy) :
    openProfile.Admits (fun _ => true) plan :=
  ⟨fun _ _ => trivial, fun k n body id => ⟨⟨id, by rw [h k]⟩, rfl⟩⟩

def folderNode (id name : String) (parents : List String) : Node :=
  ⟨{ id := id, name := name, mimeType := folderMime, parents := parents }, .text ""⟩

def fileNode (id name : String) (parents : List String) (size md5 : String) : Node :=
  ⟨{ id := id, name := name, mimeType := "application/octet-stream", size := some size
     md5Checksum := some md5, parents := parents }, .text ""⟩

/-- The same folder or file with app properties. -/
def Node.tagged (n : Node) (props : List (String × String)) : Node :=
  ⟨{ n.file with appProperties := props.foldl (fun d e => AList.insert e.1 e.2 d) ∅ }, n.content⟩

def linkNode (id name : String) (parents : List String) (target : String) : Node :=
  ⟨{ id := id, name := name, mimeType := shortcutMime, shortcutTarget := some target
     parents := parents }, .text ""⟩

/-- A copier of one thread from the folder `sourcefolder` into `targetfolder`. -/
def smallCopier : Copier where
  config := { sourceLink := "folders/sourcefolder", destLink := "folders/targetfolder", workers := 1 }
  runId := "run"
  sha256 _ := ""
  showFloat _ := ""

/-- The runs of a copier on such a Drive. -/
abbrev openRuns (cp : Copier) : System copierSig := cp.runs (Drive.service openProfile) anyStep

abbrev openStart (cp : Copier) (d : Drive) : Config (openRuns cp) (Except Exc CopyResult) :=
  start (openRuns cp) cp.run ⟨cp.freshMem "", d⟩ []

/-- A run with a plan. -/
def openRun (cp : Copier) (d : Drive) (plan : Plan) (fuel : ℕ) :
    Config (openRuns cp) (Except Exc CopyResult) :=
  replay (plan.script cp openProfile anyStep (fun _ => true) fun _ _ _ _ => true) fuel
    (openStart cp d)

theorem openRun_reach {cp : Copier} {d : Drive} {plan : Plan}
    (h : ∀ k, plan.make k = Drive.exactCopy) (fuel : ℕ) :
    Reach (openRuns cp) (openStart cp d) (openRun cp d plan fuel) :=
  replay_reach (Plan.legal (openProfile_admits h) fun _ _ _ _ _ => trivial) fuel _

end TurboCopy
