import Checkup.Report.Json

/-!
# Reports for readers

The report of a result has one group of lines per known category, with a line for every passed rule
and for every finding. A list of rules has one line per rule.
-/

namespace Checkup.Report

/-- The width of the column with rule ids. -/
def idWidth : Nat := 35

/-- The line under the heading of a group. -/
def underline : String := String.ofList (List.replicate 50 '-')

/-- What kind of project it is, in words. -/
def describe (p : Project) : Label :=
  match p.kind with
  | .monorepo => .text "Turborepo monorepo"
  | .frameworkApp => (.text "Next.js " ++ p.frameworkVersion.getD (.text "")).trimBlank
  | _ => .text "Node.js"

/-- The lines at the top of a report. -/
def header (p : Project) : List Label :=
  [.text "repodoctor", .text "", .text "Project:    " ++ p.name, .text "Type:       " ++ describe p] ++
  (match p.workspaces with
    | some ws =>
      if p.isMonorepo then [.text ("Workspaces: " ++ toString ws.length ++ " detected")] else []
    | none => []) ++
  [.text ""]

/-- The mark of a finding by its severity. -/
def mark : Severity → String
  | .error => "FAIL"
  | _ => "warn"

/-- Where a finding is: its file, and its line if it has one. -/
def place (f : Finding) : String :=
  match f.line with
  | some n => if n = 0 then f.file else f.file ++ ":" ++ Number.intText n
  | none => f.file

/-- The item for a finding. -/
def findingLine (f : Finding) : Label :=
  .text ("  " ++ mark f.severity ++ " " ++ Text.padRight idWidth f.rule ++ " ") ++ f.message

/-- The lines with the details of a finding. -/
def details (f : Finding) : List Label :=
  [.text ("       -> " ++ place f)] ++
    (if f.help = .text "" then [] else [.text "       hint: " ++ f.help])

/-- The lines for what a rule comes to. -/
def resultLines (verbose : Bool) (r : RuleResult) : List Label :=
  if r.passed then [.text ("  ok   " ++ Text.padRight idWidth r.rule ++ " pass")]
  else r.findings.flatMap fun f => findingLine f :: (if verbose then details f else [])

/-- The lines of a category; a category without rules has none. -/
def group (verbose : Bool) (results : List RuleResult) (c : Category) : List Label :=
  match results.filter fun r => r.category = c with
  | [] => []
  | rs => [.text c.title, .text underline] ++ rs.flatMap (resultLines verbose) ++ [.text ""]

/-- The number of findings of a severity. -/
def count (severity : Severity) (fs : List Finding) : Nat :=
  (fs.filter fun f => f.severity = severity).length

/-- The lines with the score and the numbers of findings. -/
def summary (d : Diagnosis) : List String :=
  ["Score: " ++ Number.intText d.score ++ "/100 (" ++ d.grade ++ ")",
    "Errors: " ++ toString (count .error d.findings) ++ " | Warnings: " ++
      toString (count .warning d.findings) ++ " | Passed: " ++
      toString (d.results.filter (·.passed)).length ++ "/" ++ toString d.results.length,
    "Completed in " ++ Number.intText d.duration ++ "ms"]

/-- The lines on what was fixed, would be fixed or could be fixed. -/
def fixes (dryRun : Bool) (d : Diagnosis) : List String :=
  let fixable := (d.findings.filter (·.fixable)).length
  match d.fixedCount with
  | some fixed =>
    if dryRun then
      ["", "Dry-run: " ++ toString fixable ++ " issues would be fixed, no files were changed"]
    else ["", "Fixed " ++ Number.intText fixed ++ " issues"]
  | none =>
    if fixable = 0 then []
    else ["", "Run \x60repodoctor check --fix\x60 to auto-fix " ++ toString fixable ++ " issues"]

/-- The lines of a report. -/
def lines (verbose dryRun : Bool) (d : Diagnosis) : List Label :=
  header d.project ++ Category.known.flatMap (group verbose d.results) ++
    (summary d ++ fixes dryRun d).map .text

/-- The report of a result. -/
def text (verbose dryRun : Bool) (d : Diagnosis) : Label :=
  .concat ((lines verbose dryRun d).map (· ++ .text "\n"))

/-- The line for a rule in a list. -/
def ruleLine (r : Rule) : String :=
  Text.padRight idWidth r.info.id ++ " [" ++ r.info.severity.word ++
    (if r.canFix then ", fixable" else "") ++ "] " ++ r.info.description

/-- A list of rules, a line for each or as JSON text. -/
def rules (asJson : Bool) (rs : List Rule) : String :=
  if asJson then (Json.arr (rs.map Rule.toJson)).pretty ++ "\n"
  else String.join (rs.map fun r => ruleLine r ++ "\n")

end Checkup.Report
