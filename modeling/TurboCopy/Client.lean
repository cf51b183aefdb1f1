import TurboCopy.ResumeState

/-!
# Requests to the Drive client

The calls of `DriveClientProtocol` the engine makes, with the type of their answer.
Every call may raise, so an answer is an `Except`; reading the clock may not. Page
tokens are opaque to the engine. A token is represented by what the server still
has to deliver under it and in how many pages at most, which only the server looks at.
-/

namespace TurboCopy

structure PageToken where
  rest : List ApiFile
  left : ℕ
deriving DecidableEq

/-- The files a page token still has to deliver. -/
def restOf : Option PageToken → List ApiFile
  | some t => t.rest
  | none => []

abbrev Page := List ApiFile × Option PageToken

/-- The body of `files.copy`. -/
structure CopyBody where
  name : String
  parent : Option String
  appProperties : Dict String
  modifiedTime : Option String := none
  createdTime : Option String := none
  description : Option String := none
deriving DecidableEq

/-- The query of `_find_dest_folder` by its conjuncts: live folders under `parent`
whose app property `key` is `value`. -/
structure FolderQuery where
  parent : String
  key : String
  value : String
deriving DecidableEq

inductive Request
  | nowIso
  | aboutUser
  | getMetadata (fileId : String) (fields : List ApiField)
  | listChildren (folderId : String) (excludeSubstrings : Option (List String))
      (pageToken : Option PageToken)
  | listChildrenMulti (parentIds : List String) (excludeSubstrings : List String)
      (pageToken : Option PageToken)
  | copyFile (fileId : String) (body : CopyBody)
      (ignoreDefaultVisibility keepRevisionForever : Bool)
  | createFolder (name parentId : String) (appProperties : Dict String)
  | search (query : FolderQuery) (pageSize : ℕ)
  | getMedia (fileId : String)
  | createJsonFile (name parentId : String) (data : Content) (appProperties : Dict String)
  | updateFileContent (fileId : String) (data : Content)
  | trashFile (fileId : String)

/-- The answer to a request. A created file is known by the id in the response. -/
@[reducible] def Request.Ret : Request → Type
  | nowIso => String
  | aboutUser => Except ApiError (Option String)
  | getMetadata _ _ => Except ApiError ApiFile
  | listChildren _ _ _ => Except ApiError Page
  | listChildrenMulti _ _ _ => Except ApiError Page
  | copyFile _ _ _ _ => Except ApiError (Option String)
  | createFolder _ _ _ => Except ApiError (Option String)
  | search _ _ => Except ApiError Page
  | getMedia _ => Except ApiError Content
  | createJsonFile _ _ _ _ => Except ApiError (Option String)
  | updateFileContent _ _ => Except ApiError Unit
  | trashFile _ => Except ApiError Unit

/-- The answer that the call raised `e`; the clock does not raise. -/
def Request.raised (e : ApiError) : (q : Request) → q.Ret
  | nowIso => ""
  | aboutUser => .error e
  | getMetadata _ _ => .error e
  | listChildren _ _ _ => .error e
  | listChildrenMulti _ _ _ => .error e
  | copyFile _ _ _ _ => .error e
  | createFolder _ _ _ => .error e
  | search _ _ => .error e
  | getMedia _ => .error e
  | createJsonFile _ _ _ _ => .error e
  | updateFileContent _ _ => .error e
  | trashFile _ => .error e

/-- The calls that change the Drive. -/
def Request.mutating : Request → Bool
  | copyFile _ _ _ _ => true
  | createFolder _ _ _ => true
  | createJsonFile _ _ _ _ => true
  | updateFileContent _ _ => true
  | trashFile _ => true
  | _ => false

/-- A Drive as the engine sees it: what each request may answer and do. -/
structure Service where
  State : Type
  serves : (q : Request) → State → q.Ret → State → Prop

end TurboCopy
