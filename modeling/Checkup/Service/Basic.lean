import Checkup.Report.Json
import Checkup.Service.Locks
import Checkup.Service.Payload
import Checkup.Service.Target

/-!
# The diagnosis service

The service answers two kinds of requests: whether it is well, and what a check of a project comes
to. A fixing request holds the lock of its root over the checks and the fixes.

* `tree_of_not_fixing`: a request that does not fix leaves the tree as it is.
-/

namespace Checkup.Service

/-- A request. -/
structure Request where
  method : String
  target : String
  contentType : String
  body : String
  deriving DecidableEq, Repr, Inhabited

/-- An answer to a request. -/
structure Response where
  status : Nat
  body : Json
  deriving Inhabited

/-- A response that consists of a remark. -/
def Response.remark (status : Nat) (detail : String) : Response :=
  ⟨status, .obj [("detail", .str detail)]⟩

/-- The status for a fault of a file operation. -/
def faultStatus : Fault → Nat
  | .missing => 404
  | .notFolder | .nulByte | .outsideRoot _ | .notText => 400
  | .notEncodable => 400
  | .isFolder | .alreadyThere | .nameTooLong | .tooManyLinks | .linkLoop _ | .tooDeep => 500

/-- The status for a value that does not exist. -/
def valueStatus : Yaml.Error → Nat
  | .noSuchValue => 400
  | _ => 500

/-- The status for a run that comes to no result. -/
def runStatus : RunFault → Nat
  | .unknownCategory _ => 400
  | .detection (.notFound _) => 404
  | .detection (.notDirectory _) => 400
  | .detection (.access fault) => faultStatus fault
  | .detection (.listing fault) => valueStatus fault
  | .detection .outsideProject => 400
  | .settings .notText => 400
  | .settings (.badValue fault) => valueStatus fault
  | .settings (.access fault) => faultStatus fault
  | .settings _ => 500
  | .access fault => faultStatus fault

/-- The response to a refused body. -/
def refusal : Refused → Response
  | .unreadable => .remark 400 "There was an error parsing the body"
  | .invalid => .remark 422 "The body is not a valid request"
  | .unshowable => .remark 400 "The fault of the body cannot be shown"

/-- The response to what a run comes to. A result can only be sent in UTF-8, and half of a UTF-16 pair
cannot be. -/
def responseOf : Except RunFault Diagnosis → Response
  | .ok d =>
    if isShowable d.toJson then ⟨200, d.toJson⟩
    else .remark (faultStatus .notEncodable) Fault.notEncodable.message
  | .error fault => .remark (runStatus fault) fault.message

/-- The request changes files, so it needs a lock. -/
def Payload.isFixing (p : Payload) : Bool := p.options.fix && !p.options.dryRun

/-- The root whose lock a payload needs. -/
def Payload.lockRoot (p : Payload) (t : Tree) (current : List String) :
    Except Fault (Option Location) :=
  if p.isFixing then (t.resolve current p.path).map some else .ok none

/-- Answers a request for a diagnosis. -/
def diagnose (p : Payload) (t : Tree) (current : List String) : Response × Tree :=
  match p.lockRoot t current with
  | .error fault => (.remark (faultStatus fault) fault.message, t)
  | .ok _ =>
    let (result, t) := run none t current p.path p.options
    (responseOf result, t)

/-- The route that a path takes: slashes at its end mean nothing, nor does a line break there. -/
def routeOf (path : String) : String :=
  let route := Text.dropTrailing (· == '/') path.toList
  String.ofList (if Text.endsWith route ['\n'] then route.dropLast else route)

/-- Answers a request. -/
def answer (r : Request) (t : Tree) (current : List String) : Response × Tree :=
  match routeOf (Target.path r.target) with
  | "/health" =>
    if r.method = "GET" then (⟨200, .obj [("status", .str "ok")]⟩, t)
    else (.remark 405 "Method Not Allowed", t)
  | "/diagnose" =>
    if r.method = "POST" then
      match Payload.ofBody r.contentType r.body with
      | .error refused => (refusal refused, t)
      | .ok payload => diagnose payload t current
    else (.remark 405 "Method Not Allowed", t)
  | _ => (.remark 404 "Not Found", t)

theorem tree_of_not_fixing {p : Payload} (h : p.isFixing = false) (t : Tree)
    (current : List String) : (diagnose p t current).2 = t := by
  have hr : (run none t current p.path p.options).2 = t := by
    have hv : (Run.visit none t current p.path p.options).2 = t := Run.tree_of_not_fixing h
    simp only [run]
    split
    · rename_i v t' hx
      rw [hx] at hv
      exact hv
    · rename_i fault t' hx
      rw [hx] at hv
      exact hv
  simp only [diagnose, Payload.lockRoot, h]
  exact hr

end Checkup.Service
