import TurboCopy.Models

/-!
# Classification of client errors

`parse_http_error` and `classify_error` of `retry.py`, which decide whether the
engine stops the run on an error or records the item and goes on.
-/

namespace TurboCopy

def retryableStatus : List ℤ := [429, 500, 502, 503, 504]

def rateLimitReasons : List String := ["ratelimitexceeded", "userratelimitexceeded"]

def fatalQuotaReasons : List String :=
  ["storagequotaexceeded", "dailylimitexceeded", "teamdrivefilelimitexceeded",
    "numchildreninnonrootlimitexceeded", "activeitemcreationlimitexceeded"]

def fatalQuotaSubstrings : List String :=
  ["storagequotaexceeded", "dailylimitexceeded", "upload limit", "creation limit",
    "the number of children"]

def fatalPermissionReasons : List String := ["insufficientfilepermissions"]

def fatalSkipReasons : List String :=
  ["cannotcopyfile", "filenotexportable", "downloadrestrictedforrevision",
    "cannotmodifyinheritedteamdrivepermission"]

/-- `parse_http_error`: the reason, the message and the status of an error. -/
def parseHttpError (e : ApiError) : String × String × Option ℤ :=
  match e.content with
  | none => ("", e.text, e.status)
  | some body =>
    match body.errors with
    | (reason, message) :: _ =>
      (orElse reason "", orElse (some (message.getD e.text)) e.text, e.status)
    | [] => (orElse body.status "", orElse (some (body.message.getD e.text)) e.text, e.status)

def classifyError (e : ApiError) : ErrorClass :=
  let (reason, message, status) := parseHttpError e
  let reasonL := reason.toLower
  let blob := (message ++ " " ++ e.text).toLower
  if reasonL ∈ fatalQuotaReasons || fatalQuotaSubstrings.any (contains blob) then .fatalQuota
  else if reasonL ∈ rateLimitReasons then .transient
  else if status.any (· ∈ retryableStatus) then .transient
  else if reasonL ∈ fatalSkipReasons then .fatalPermission
  else if reasonL ∈ fatalPermissionReasons || status.any (· ∈ [401, 403, 404]) then
    .fatalPermission
  else .fatalOther

def ApiError.isFatalQuota (e : ApiError) : Bool := classifyError e = .fatalQuota

/-- The test of `_handle_copy_exception` for a rate-limit failure. -/
def ApiError.isRate (e : ApiError) : Bool :=
  let (reason, _, status) := parseHttpError e
  status = some 429 || reason.toLower ∈ rateLimitReasons

end TurboCopy
