import Checkup.Log.Record

/-!
# Where log records go

Reports are all that goes to the standard output. Records go to the console and, if it is asked for,
to a file; each of the two has a level, below which it shows nothing.

* `console_of_quiet`: a console that was not asked for details shows warnings and worse only.
-/

namespace Checkup.Log

/-! ## Handlers -/

/-- The name of the only thread. -/
def threadName : String := "MainThread"

/-- How a record is written. -/
inductive Layout
  | brief
  /-- With the name of the thread. -/
  | detailed
  /-- For a file, where the time stands before it. -/
  | trail
  | bare
  deriving DecidableEq, Repr, Inhabited

/-- The line for a record. -/
def Layout.line (layout : Layout) (r : Record) : String :=
  (match layout with
    | brief => "[repodoctor] " ++ r.level.name ++ " " ++ r.message
    | detailed => "[repodoctor] " ++ r.level.name ++ " [" ++ threadName ++ "] " ++ r.message
    | trail => r.level.name ++ " " ++ r.loggerName ++ " [" ++ threadName ++ "]: " ++ r.message
    | bare => r.message) ++ "\n"

/-- What records are written to. -/
inductive Sink
  /-- The stream of a set-up, by the number of set-ups before it. -/
  | stream (number : Nat)
  | file (path : String)
  /-- Where a record is shown that nobody has asked for. -/
  | fallback
  deriving DecidableEq, Repr, Inhabited

/-- A line, and what it is written to. -/
abbrev Write := Sink × String

/-- Takes records from a level on; without a sink it drops them. -/
structure Handler where
  sink? : Option Sink
  level : Level
  layout : Layout
  deriving DecidableEq, Repr, Inhabited

namespace Handler

/-- The handler that drops everything. -/
def nothing : Handler := ⟨none, .notSet, .bare⟩

/-- The handler of records for which there is no other. -/
def lastResort : Handler := ⟨some .fallback, .warning, .bare⟩

/-- What a handler writes for a record. -/
def write? (h : Handler) (r : Record) : Option Write :=
  if r.reaches h.level then h.sink?.map fun sink => (sink, h.layout.line r) else none

end Handler

/-! ## Set-ups -/

/-- A file for records, which might not be there to be opened. -/
structure LogFile where
  path : String
  opens : Bool
  deriving DecidableEq, Repr, Inhabited

/-- How logging is set up. -/
structure Setup where
  verbose : Bool
  file? : Option LogFile
  deriving DecidableEq, Repr, Inhabited

namespace Setup

/-- The least level that the console shows. -/
def consoleLevel (s : Setup) : Level := if s.verbose then .debug else .warning

/-- How the console shows records. -/
def consoleLayout (s : Setup) : Layout := if s.verbose then .detailed else .brief

/-- The least level that a file receives. -/
def fileLevel : Level := .debug

/-- The least level of records that are looked at at all. -/
def level (s : Setup) : Level := if s.file?.isSome then .debug else s.consoleLevel

/-- The file that records go to. -/
def path? (s : Setup) : Option String := (s.file?.filter (·.opens)).map (·.path)

/-- The handlers with a stream for the console. The one for the file comes last: if the file cannot be
opened, the others are in place by then. -/
def handlers (s : Setup) (stream : Nat) : List Handler :=
  ⟨some (.stream stream), s.consoleLevel, s.consoleLayout⟩ ::
    s.path?.toList.map fun path => ⟨some (.file path), fileLevel, .trail⟩

/-- Records for debugging are looked at. -/
def isDebugging (s : Setup) : Bool := s.level = .debug

/-- What the console shows of some records. -/
def console (s : Setup) (records : List Record) : String :=
  String.join ((records.filter (·.reaches s.consoleLevel)).map s.consoleLayout.line)

/-- The lines that a file receives of some records. -/
def fileLines (s : Setup) (records : List Record) : List String :=
  if s.path?.isSome then (records.filter (·.reaches fileLevel)).map Layout.trail.line else []

theorem console_of_quiet {s : Setup} {r : Record} (h : s.verbose = false)
    (hr : r.level = .debug ∨ r.level = .info) : s.console [r] = "" := by
  have hlow : r.reaches s.consoleLevel = false := by
    unfold Record.reaches consoleLevel
    rw [h]
    rcases hr with hr | hr <;> rw [hr] <;> decide
  simp [console, hlow]

end Setup

end Checkup.Log
