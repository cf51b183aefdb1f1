import TurboCopy.Copier.Origin
import TurboCopy.Copier.Replay
import TurboCopy.Copier.Straight

/-!
# What a run raises

A procedure of the engine lets a stop or the refusal of app properties out, and `run` catches the
stops. The exception of a run is therefore a refusal, of the properties of a folder or a file that
the answers so far delivered.
-/

namespace TurboCopy

open Threads

/-- An answer of the history listed `src` in a source folder. -/
inductive ListedIn (past : List (Event copierSig)) (folder : String) (src : DriveFile) : Prop
  | alone (excludes : List String) (token : Option PageToken) (page : Page) (g : ApiFile)
      (h : .did (.ask (.listChildren folder (some excludes) token)) (.ok page) ∈ past)
      (hg : g ∈ page.1) (hsrc : src = DriveFile.fromApi g)
  | batch (group excludes : List String) (token : Option PageToken) (page : Page) (g : ApiFile)
      (h : .did (.ask (.listChildrenMulti group excludes token)) (.ok page) ∈ past)
      (hg : g ∈ page.1) (hp : folder ∈ g.parents) (hsrc : src = DriveFile.fromApi g)

/-- What the answers of a history tell of the items of a run. -/
def Copier.told (cp : Copier) (past : List (Event copierSig)) : Origin where
  root := cp.sourceId
  listed := ListedIn past
  target := ReadTarget past

section Told

variable {cp : Copier} {past : List (Event copierSig)}

theorem ListedIn.later {folder : String} {src : DriveFile} (h : ListedIn past folder src)
    (e : Event copierSig) : ListedIn (e :: past) folder src := by
  cases h with
  | alone excludes token page g h hg hsrc =>
    exact .alone excludes token page g (List.mem_cons_of_mem e h) hg hsrc
  | batch group excludes token page g h hg hp hsrc =>
    exact .batch group excludes token page g (List.mem_cons_of_mem e h) hg hp hsrc

end Told

end TurboCopy
