import Checkup.Finding
import Checkup.Scan.Walk

/-!
# Rules

A rule is its description, a check of a scan root, and for some rules a fix of one finding. A check
reads the tree; a fix may change it, and reports a fault together with the tree as it was left.

* `remark_rule`: a finding carries the id and the severity of its rule.
* `id_nodup_firstOfEach`: the first rule of every id, no two of which share one.
-/

namespace Checkup

/-- Why a check or a fix comes to no result. -/
inductive RuleFault
  | file (fault : Fault)
  | failed (message : String)
  deriving DecidableEq, Repr, Inhabited

/-- The text of a fault. -/
def RuleFault.message : RuleFault → String
  | file fault => fault.message
  | failed message => message

/-- The description of a rule. -/
structure RuleInfo where
  id : String
  name : String
  category : Category
  severity : Severity
  description : String
  help : String
  appliesTo : List Kind
  /-- What the rule is known to miss or to report wrongly. -/
  bias : String := ""
  deriving DecidableEq, Repr, Inhabited

/-- What a fix comes to: whether it changed a file, and the tree after it. -/
abbrev Repair := Except RuleFault Bool × Tree

/-- A rule. -/
structure Rule where
  info : RuleInfo
  check : Context → Tree → Except RuleFault (List Finding)
  fix? : Option (Context → Tree → Finding → Repair) := none
  deriving Inhabited

namespace RuleInfo

/-- A finding of a rule about a file. -/
def remark (info : RuleInfo) (file : String) (message : Label) : Finding where
  rule := info.id
  file := file
  severity := info.severity
  message := message
  help := .text info.help
  line := none
  fixable := false

/-- A finding of a rule about a file whose message is a text. -/
def finding (info : RuleInfo) (file message : String) : Finding := info.remark file (.text message)

/-- The rule looks at roots of a kind. -/
def applies (info : RuleInfo) (kind : Kind) : Bool := info.appliesTo.contains kind

theorem remark_rule (info : RuleInfo) (file : String) (message : Label) :
    (info.remark file message).rule = info.id ∧
      (info.remark file message).severity = info.severity := ⟨rfl, rfl⟩

end RuleInfo

namespace Finding

/-- The finding at a line. -/
def atLine (f : Finding) (line : Nat) : Finding := { f with line := some line }

/-- The finding, which its rule can repair. -/
def asFixable (f : Finding) : Finding := { f with fixable := true }

/-- The finding with a help text of its own; an empty one changes nothing. -/
def withHelp (f : Finding) (help : Label) : Finding :=
  if help = .text "" then f else { f with help := help }

end Finding

namespace Rule

/-- The rule can repair findings. -/
def canFix (r : Rule) : Bool := r.fix?.isSome

/-- Repairs a finding; a rule without a fix changes nothing. -/
def repair (r : Rule) (c : Context) (t : Tree) (f : Finding) : Repair :=
  match r.fix? with
  | some fix => fix c t f
  | none => (.ok false, t)

/-- A rule whose check always comes to a result. -/
def ofCheck (info : RuleInfo) (check : Context → Tree → List Finding) : Rule where
  info := info
  check c t := .ok (check c t)

/-- The members of the JSON object in a file, as a rule reads them. -/
def members (c : Context) (t : Tree) (path : String) : Except RuleFault (Option Json.Members) :=
  (c.readMembers t path).mapError .file

/-- What is found in the members of the JSON object in a file; nothing if there is no object. -/
def findingsIn (c : Context) (t : Tree) (path : String)
    (found : Json.Members → List Finding) : Except RuleFault (List Finding) :=
  (members c t path).map fun members => (members.map found).getD []

/-- The first rule of every id. -/
def firstOfEach : List Rule → List Rule
  | [] => []
  | r :: rest => r :: (firstOfEach rest).filter fun other => other.info.id != r.info.id

/-- The rule with a fix. -/
def withFix (r : Rule) (fix : Context → Tree → Finding → Repair) : Rule :=
  { r with fix? := some fix }

theorem firstOfEach_sublist (rules : List Rule) : (firstOfEach rules).Sublist rules := by
  induction rules with
  | nil => exact List.Sublist.refl _
  | cons r rest ih => exact (List.filter_sublist.trans ih).cons_cons r

theorem id_nodup_firstOfEach (rules : List Rule) :
    ((firstOfEach rules).map fun r => r.info.id).Nodup := by
  induction rules with
  | nil => exact List.nodup_nil
  | cons r rest ih =>
    simp only [firstOfEach, List.map_cons, List.nodup_cons]
    refine ⟨?_, (List.filter_sublist.map _).nodup ih⟩
    simp

end Rule

namespace Repair

/-- Nothing was changed. -/
def unchanged (t : Tree) : Repair := (.ok false, t)

/-- A repair that goes by the members of the JSON object in a file; without an object nothing is
changed. -/
def byMembers (c : Context) (t : Tree) (path : String) (repair : Json.Members → Repair) : Repair :=
  match Rule.members c t path with
  | .error fault => (.error fault, t)
  | .ok none => .unchanged t
  | .ok (some members) => repair members

/-- What a write comes to: a changed file, or its fault. -/
def ofWrite : Except Fault Unit × Tree → Repair
  | (.ok (), t) => (.ok true, t)
  | (.error fault, t) => (.error (.file fault), t)

end Repair

/-- The first five of some names, and dots if there are more. -/
def firstFive (names : List Label) : Label :=
  Label.joinWith ", " (names.take 5) ++ .text (if 5 < names.length then "..." else "")

/-- The kinds of roots that hold an application or a library. -/
def applicationKinds : List Kind := [.generic, .frameworkApp]

end Checkup
