import Checkup.Log.Handlers
import Checkup.Log.Template

/-!
# Logging over time

Logging is set up any number of times, and records come up in between. A record goes from the logger it
was given to upwards, to the handlers of the logger that all share and, unless that one keeps it, to
those above.

* `State.after`, `State.writes`: what an event changes, and what it writes.
-/

namespace Checkup.Log

/-! ## Loggers -/

/-- The loggers above one of some name, the nearest first. A logger hangs below one whose name comes
before a dot of its own; in the search from the right, the character before a dot that was found is
passed over. Names stand backwards, in the list of `loggers` too. -/
def above (loggers : List (List Char)) : Bool → List Char → List (List Char)
  | _, [] => []
  | passes, c :: rest =>
    if c = '.' ∧ passes = false then
      if rest ∈ loggers then rest :: above loggers false rest else above loggers true rest
    else above loggers false rest

/-- A name from its end to its start. -/
def backwards (name : String) : List Char := name.toList.reverse

/-! ## Events -/

/-- The text of a record: the template itself, unless there are values to fill it with. -/
def message? (template : String) (values : List Json) : Option String :=
  if values.isEmpty then some template else Template.fill template values

/-- What a part of the program says is to be recorded. -/
structure Call where
  level : Level
  source : String
  template : String
  values : List Json
  deriving Inhabited

/-- The record, if the template fits the values. -/
def Call.record? (c : Call) : Option Record :=
  (message? c.template c.values).map fun message => ⟨c.level, c.source, message⟩

/-- A record that is to be recorded as it is. -/
def Record.call (r : Record) : Call := ⟨r.level, r.source, r.message, []⟩

/-- What happens to logging. A set-up has a stream of its own. -/
inductive Event
  | setUp (setup : Setup)
  | log (call : Call)
  deriving Inhabited

/-! ## States -/

/-- The state of logging. -/
structure State where
  /-- The parts of the program that have a logger. -/
  sources : List String
  /-- The level of the shared logger. -/
  level : Level
  /-- The handlers of the shared logger. -/
  handlers : List Handler
  /-- The shared logger passes records on. -/
  propagates : Bool
  /-- The handlers above all of these loggers. -/
  outer : List Handler
  /-- The number of set-ups so far. -/
  streams : Nat
  deriving DecidableEq, Repr, Inhabited

namespace State

/-- Logging has not been set up. -/
def start : State := ⟨[], .notSet, [.nothing], true, [], 0⟩

/-- The names of the loggers. -/
def loggers (s : State) : List (List Char) := (rootLogger :: s.sources.map fullName).map backwards

/-- What the logger of a part of the program is given comes to the shared logger. -/
def hears (s : State) (source : String) : Bool :=
  decide (backwards rootLogger ∈
    backwards (fullName source) :: above s.loggers false (backwards (fullName source)))

/-- The least level that the logger of a part of the program looks at: no logger has a level but the
shared one and the one above all. -/
def levelFor (s : State) (source : String) : Level :=
  if s.hears source && s.level != .notSet then s.level else .warning

/-- The handlers of a record from a part of the program. -/
def handlersFor (s : State) (source : String) : List Handler :=
  if s.hears source then s.handlers ++ (if s.propagates then s.outer else []) else s.outer

/-- What is written of a record. -/
def deliver (s : State) (r : Record) : List Write :=
  if r.reaches (s.levelFor r.source) then
    let handlers := s.handlersFor r.source
    (if handlers.isEmpty then [.lastResort] else handlers).filterMap (·.write? r)
  else []

/-- The state after an event. -/
def after (s : State) : Event → State
  | .setUp setup =>
    { s with
      level := setup.level
      handlers := setup.handlers s.streams
      propagates := false
      streams := s.streams + 1 }
  | .log call => { s with sources := call.source :: s.sources }

/-- What an event writes. -/
def writes (s : State) : Event → List Write
  | .setUp _ => []
  | .log call => call.record?.elim [] s.deliver

/-- The states after events, each with what the event writes. -/
def run (s : State) : List Event → List (State × List Write)
  | [] => []
  | event :: rest => (s.after event, s.writes event) :: run (s.after event) rest

end State

/-- The lines that are written to a sink. -/
def linesTo (sink : Sink) (writes : List Write) : List String :=
  (writes.filter fun write => write.1 = sink).map (·.2)

end Checkup.Log
