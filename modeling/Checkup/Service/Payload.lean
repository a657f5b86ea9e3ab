import Checkup.Json.Encoding
import Checkup.Json.Parser
import Checkup.Run.Basic

/-!
# Payloads of requests

The body of a request for a diagnosis is a JSON object. Its flags may also be given as numbers and
words; members of other names mean nothing.

* `truthOf?_bool`: a flag that is a truth value stands for itself.
-/

namespace Checkup.Service

/-- What a request asks for. -/
structure Payload where
  path : String
  options : Options
  deriving DecidableEq, Repr, Inhabited

/-- Why a body is refused. -/
inductive Refused
  /-- It is no text, or one with an integer that is too long or with values nested too deep. -/
  | unreadable
  /-- It is no JSON text, or not the object that is asked for. -/
  | invalid
  /-- It is not the object that is asked for, and the part at fault cannot be shown. -/
  | unshowable
  deriving DecidableEq, Repr, Inhabited

/-- The words for true. -/
def trueWords : List String := ["1", "on", "t", "true", "y", "yes"]

/-- The words for false. -/
def falseWords : List String := ["0", "off", "f", "false", "n", "no"]

/-- The truth value that a value stands for, without regard to case in words. -/
def truthOf? : Json → Option Bool
  | .bool b => some b
  | .int n => if n = 0 then some false else if n = 1 then some true else none
  | .float x =>
    if x.isZero then some false
    else if x == Number.Binary64.ofInt 1 then some true
    else none
  | .str s =>
    let word := String.ofList (s.toList.map Char.toLower)
    if trueWords.contains word then some true
    else if falseWords.contains word then some false
    else none
  | _ => none

mutual

/-- A value can be shown: all its numbers are finite and all its strings are texts. -/
def isShowable : Json → Bool
  | .float x => x.isFinite
  | .loose .. => false
  | .arr items => areShowable items
  | .obj members => membersAreShowable members
  | _ => true

/-- All values can be shown. -/
def areShowable : List Json → Bool
  | [] => true
  | value :: rest => isShowable value && areShowable rest

/-- All members can be shown. -/
def membersAreShowable : List (Label × Json) → Bool
  | [] => true
  | (name, value) :: rest => name.isText && isShowable value && membersAreShowable rest

end

/-- Why a body is refused for some parts of it. -/
def Refused.forParts (parts : List Json) : Refused :=
  if areShowable parts then .invalid else .unshowable

/-- A member that is a text and must be there, or what is at fault. -/
def requiredText (members : Json.Members) (name : String) : Except Json String :=
  match members.get? name with
  | some (.str s) => .ok s
  | some other => .error other
  | none => .error (.obj members)

/-- A member that is a text, null or missing. -/
def optionalText (members : Json.Members) (name : String) : Except Json (Option String) :=
  match members.get? name with
  | some (.str s) => .ok (some s)
  | some .null => .ok none
  | none => .ok none
  | some other => .error other

/-- A flag; one that is missing is not set. -/
def flag (members : Json.Members) (name : String) : Except Json Bool :=
  match members.get? name with
  | none => .ok false
  | some value =>
    match truthOf? value with
    | some b => .ok b
    | none => .error value

/-- What is at fault, if anything is. -/
def fault? {α : Type} : Except Json α → Option Json
  | .ok _ => none
  | .error part => some part

/-- The payload in an object. All members are looked at before any of them is refused. -/
def Payload.ofMembers (members : Json.Members) : Except Refused Payload :=
  let path := requiredText members "path"
  let category := optionalText members "category"
  let project := optionalText members "project"
  let fix := flag members "fix"
  let dryRun := flag members "dry_run"
  match path, category, project, fix, dryRun with
  | .ok path, .ok category, .ok project, .ok fix, .ok dryRun =>
    .ok ⟨path, ⟨fix, dryRun, category, project.getD ""⟩⟩
  | _, _, _, _, _ =>
    .error (.forParts ([fault? path, fault? category, fault? project, fault? fix,
      fault? dryRun].filterMap id))

/-- The content type says that the body is JSON. -/
def isJsonType (contentType : String) : Bool :=
  if contentType = "" then true
  else
    let kind := String.ofList
      ((Text.trimBlank (((Text.pieces ';' contentType).head?).getD "")).toList.map Char.toLower)
    match Text.pieces '/' kind with
    | [main, part] =>
      main = "application" && (part = "json" || Text.endsWith part.toList "+json".toList)
    | _ => false

/-- The text of a body without the mark of its byte order. -/
def withoutMark : List Char → List Char
  | c :: rest => if c == '\ufeff' then rest else c :: rest
  | [] => []

/-- The payload in a body. -/
def Payload.ofBody (contentType body : String) : Except Refused Payload :=
  if body = "" || !isJsonType contentType then .error .invalid
  else
    match (Json.Encoding.ofBytes body.toUTF8.toList).decode? body.toUTF8 with
    | none => .error .unreadable
    | some text =>
      match Json.parse (withoutMark text) with
      | .error .malformed => .error .invalid
      | .error .longInteger => .error .unreadable
      | .error .tooDeep => .error .unreadable
      | .ok .null => .error .invalid
      | .ok (.obj members) => Payload.ofMembers members
      | .ok other => .error (.forParts [other])

theorem truthOf?_bool (b : Bool) : truthOf? (.bool b) = some b := rfl

end Checkup.Service
