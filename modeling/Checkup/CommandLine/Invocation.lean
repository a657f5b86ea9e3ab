import Checkup.CommandLine.Reading
import Checkup.Number.Integer
import Checkup.Run.Basic

/-!
# Invocations

What a command line asks for: one of three commands, with what all commands have in common.

* `parse_nil`: a command line without a command is refused.
-/

namespace Checkup.CommandLine

/-- How the result of a check is written. -/
structure Style where
  json : Bool
  scoreOnly : Bool
  deriving DecidableEq, Repr, Inhabited

/-- A command. -/
inductive Command
  | check (path : String) (options : Options) (style : Style)
  | rules (category : Option String) (json : Bool)
  | serve (host : String) (port : Int)
  deriving DecidableEq, Repr, Inhabited

/-- What a command line asks for. -/
structure Invocation where
  verbose : Bool
  logFile : Option String
  command : Command
  deriving DecidableEq, Repr, Inhabited

/-! ## Switches -/

def helpSwitch : Switch := { long := "--help", short := "-h" }

def verboseSwitch : Switch := { long := "--verbose", short := "-v" }

def logFileSwitch : Switch := { long := "--log-file", takesValue := true }

def categorySwitch : Switch :=
  { long := "--category", takesValue := true, admits := Category.isKnownName }

def projectSwitch : Switch := { long := "--project", takesValue := true }

def jsonSwitch : Switch := { long := "--json" }

def scoreSwitch : Switch := { long := "--score" }

def fixSwitch : Switch := { long := "--fix" }

def dryRunSwitch : Switch := { long := "--dry-run" }

/-- The text is an integer. -/
def isInteger (text : String) : Bool := (Number.parseInt? 10 text.toList).isSome

/-- The number of workers. Checks do not depend on one another, so it has no influence on a
result. -/
def workersSwitch : Switch := { long := "--workers", takesValue := true, admits := isInteger }

def hostSwitch : Switch := { long := "--host", takesValue := true }

def portSwitch : Switch := { long := "--port", takesValue := true, admits := isInteger }

/-- The switches before a command. -/
def commonSwitches : List Switch := [helpSwitch, verboseSwitch, logFileSwitch]

/-- The switches of a check. -/
def checkSwitches : List Switch :=
  [helpSwitch, verboseSwitch, categorySwitch, projectSwitch, jsonSwitch, scoreSwitch, fixSwitch,
    dryRunSwitch, workersSwitch]

/-- The switches of the list of rules. -/
def rulesSwitches : List Switch := [helpSwitch, verboseSwitch, categorySwitch, jsonSwitch]

/-- The switches of the service. -/
def serveSwitches : List Switch := [helpSwitch, verboseSwitch, hostSwitch, portSwitch]

/-! ## Commands -/

/-- Reads the words behind a command. -/
def readCommand (switches : List Switch) (hasPlace : Bool) (args : List String) :
    Except Refusal Reading := do
  readAll switches { isFilled := !hasPlace } (← words switches args)

/-- The options of a check. -/
def optionsOf (r : Reading) : Options where
  fix := r.flag fixSwitch.long
  dryRun := r.flag dryRunSwitch.long
  category := r.value? categorySwitch.long
  filter := (r.value? projectSwitch.long).getD ""

/-- The command that a check's words state. -/
def checkOf (r : Reading) : Command :=
  .check (r.place.getD ".") (optionsOf r) ⟨r.flag jsonSwitch.long, r.flag scoreSwitch.long⟩

/-- The command that the words of a list of rules state. -/
def rulesOf (r : Reading) : Command :=
  .rules (r.value? categorySwitch.long) (r.flag jsonSwitch.long)

/-- The command that the words of the service state. -/
def serveOf (r : Reading) : Command :=
  .serve ((r.value? hostSwitch.long).getD "127.0.0.1")
    (((r.value? portSwitch.long).bind fun text => Number.parseInt? 10 text.toList).getD 8000)

/-- A command by its name, from the words behind it. -/
def commandOf (name : String) (args : List String) : Except Refusal (Reading × Command) :=
  match name with
  | "check" => (readCommand checkSwitches true args).map fun r => (r, checkOf r)
  | "rules" => (readCommand rulesSwitches false args).map fun r => (r, rulesOf r)
  | "serve" => (readCommand serveSwitches false args).map fun r => (r, serveOf r)
  | _ => .error .misuse

/-- What a command line asks for. -/
def parse (args : List String) : Except Refusal Invocation := do
  let (common, name, rest) ← readToCommand commonSwitches {} (← words commonSwitches args)
  let (own, command) ← commandOf name rest
  let common ← accepted common
  let own ← accepted own
  pure ⟨common.flag verboseSwitch.long || own.flag verboseSwitch.long,
    common.value? logFileSwitch.long, command⟩

theorem parse_nil : parse [] = .error .misuse := rfl

end Checkup.CommandLine
