import Checkup.CommandLine.Invocation
import Checkup.Log.Handlers
import Checkup.Report.Text
import Checkup.Run.Records

/-!
# Carrying out command lines

Reports go to the standard output and nothing else does; log records and faults go to the standard
error. A check exits with 1 if there is no project to check, or if only the score was asked for and
it is a failing one.

* `tree_of_rules`: listing the rules without a log file leaves the tree as it is.
-/

namespace Checkup.CommandLine

/-- What a command comes to. -/
structure Ending where
  exitCode : Nat
  output : Label
  errors : String
  deriving DecidableEq, Repr, Inhabited

/-- Scores below this one are failing. -/
def failingBelow : Int := 50

/-- The code for a command line that is not understood. -/
def misuseCode : Nat := 2

/-- What is said to a command line that is not understood. -/
def usage : String :=
  "usage: repodoctor [-h] [-v] [--log-file LOG_FILE] \x7bcheck,rules,serve\x7d ...\n"

/-! ## Log files -/

/-- The steps of a log file's path; `..` takes a name away whatever it leads to. -/
def logSteps (current : List String) (path : String) : List String :=
  Path.normalSteps true (Path.stepsFrom current path)

/-- Opens a log file for writing at its end; it is made if it is not there. -/
def openLog (t : Tree) (current : List String) (path : String) : Except Fault Tree :=
  if '\x00' ∈ path.toList then .error .nulByte
  else
    match t.find (logSteps current path) with
    | .ok (.present _ (.file _)) => .ok t
    | .ok (.vacant location) => .ok (t.put location (.file ByteArray.empty))
    | .ok (.present _ .folder) => .error .isFolder
    | .ok (.present _ (.link _)) => .error .tooManyLinks
    | .error fault => .error fault

/-- Writes lines at the end of a log file, each behind the time. -/
def appendLog (t : Tree) (current : List String) (path time : String) (lines : List String) :
    Tree :=
  match t.access (logSteps current path) with
  | .ok (location, .file bytes) =>
    t.put location (.file (bytes ++ (String.join (lines.map (time ++ " " ++ ·))).toUTF8))
  | _ => t

/-- Opens the log file of an invocation, if it has one. -/
def openLogOf (i : Invocation) (t : Tree) (current : List String) : Except Fault Tree :=
  match i.logFile with
  | some path => openLog t current path
  | none => .ok t

/-- Writes records to the log file of an invocation, if it has one. -/
def appendLogOf (i : Invocation) (t : Tree) (current : List String) (time : String)
    (lines : List String) : Tree :=
  match i.logFile with
  | some path => if lines.isEmpty then t else appendLog t current path time lines
  | none => t

/-- How an invocation whose log file could be opened sets up logging. -/
def Invocation.logging (i : Invocation) : Log.Setup := ⟨i.verbose, i.logFile.map (⟨·, true⟩)⟩

/-! ## Commands -/

/-- There is no directory where one was looked for. -/
def isAbsence : RunFault → Bool
  | .detection (.notFound _) | .detection (.notDirectory _) => true
  | .access fault | .detection (.access fault) | .settings (.access fault) =>
    fault = .missing || fault = .notFolder
  | _ => false

/-- What is said of a run that came to no result. -/
def faultText (fault : RunFault) : String :=
  if isAbsence fault then fault.message ++ "\n"
  else "repodoctor check failed: " ++ fault.message ++ "\nRun with --verbose for more details.\n"

/-- The report of a result in a style. -/
def report (style : Style) (verbose dryRun : Bool) (d : Diagnosis) : Label :=
  if style.scoreOnly then .text (Report.score d style.json)
  else if style.json then .text (Report.json d)
  else Report.text verbose dryRun d

/-- What a check comes to, given what the console shows of its records. -/
def endingOf (style : Style) (verbose dryRun : Bool) (console : String) :
    Except RunFault Diagnosis → Ending
  | .error fault => ⟨1, .text "", console ++ faultText fault⟩
  | .ok d =>
    ⟨if style.scoreOnly && decide (d.score < failingBelow) then 1 else 0,
      report style verbose dryRun d, console⟩

/-- Checks the project at a path. -/
def check (i : Invocation) (t : Tree) (current : List String) (time path : String) (o : Options)
    (style : Style) : Ending × Tree :=
  let setup := i.logging
  let records := Run.records setup.isDebugging none t current path o
  let (result, t) := run none t current path o
  (endingOf style i.verbose o.dryRun (setup.console records) result,
    appendLogOf i t current time (setup.fileLines records))

/-- The list of the rules of a category, or of all rules. -/
def listRules (category : Option String) (json : Bool) : Ending :=
  ⟨0, .text (Report.rules json (Registry.chosen ⟨category.toList, []⟩)), ""⟩

/-- Carries out an invocation. The service is not part of this library's program. -/
def Invocation.execute (i : Invocation) (t : Tree) (current : List String) (time : String) :
    Except Fault Ending × Tree :=
  match openLogOf i t current with
  | .error fault => (.error fault, t)
  | .ok t =>
    match i.command with
    | .check path o style =>
      let (ending, t) := check i t current time path o style
      (.ok ending, t)
    | .rules category json => (.ok (listRules category json), t)
    | .serve .. => (.ok ⟨1, .text "", "repodoctor serve: listening is not available\n"⟩, t)

/-- Carries out a command line. -/
def execute (args : List String) (t : Tree) (current : List String) (time : String) :
    Except Fault Ending × Tree :=
  match parse args with
  | .error .misuse => (.ok ⟨misuseCode, .text "", usage⟩, t)
  | .error .help => (.ok ⟨0, .text usage, ""⟩, t)
  | .ok i => i.execute t current time

theorem tree_of_rules {i : Invocation} {category : Option String} {json : Bool}
    (hc : i.command = .rules category json) (hl : i.logFile = none) (t : Tree)
    (current : List String) (time : String) : (i.execute t current time).2 = t := by
  simp [Invocation.execute, openLogOf, hc, hl]

end Checkup.CommandLine
