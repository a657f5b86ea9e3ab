import Checkup.Number.Integer

/-!
# Log records

* `Level.rank_injective`: two levels of the same rank are equal.
-/

namespace Checkup.Log

/-- How important a record is. Some of the levels have names. -/
structure Level where
  /-- The place of the level in the order of importance. -/
  rank : Int
  deriving DecidableEq, Repr, Inhabited

namespace Level

/-- The level of what has none. -/
def notSet : Level := ⟨0⟩

def debug : Level := ⟨10⟩

def info : Level := ⟨20⟩

def warning : Level := ⟨30⟩

def error : Level := ⟨40⟩

def critical : Level := ⟨50⟩

/-- The levels with names, the least important one first. -/
def named : List (String × Level) :=
  [("NOTSET", notSet), ("DEBUG", debug), ("INFO", info), ("WARNING", warning), ("ERROR", error),
    ("CRITICAL", critical)]

/-- The name of a level; one without a name goes by its rank. -/
def name (l : Level) : String :=
  match named.find? fun entry => entry.2 = l with
  | some (name, _) => name
  | none => "Level " ++ Number.intText l.rank

/-- The level that a name names. -/
def ofName? (n : String) : Option Level := named.lookup n

theorem rank_injective {a b : Level} (h : a.rank = b.rank) : a = b := by
  cases a
  cases b
  exact congrArg _ h

end Level

/-- A record: its level, the part of the program it comes from, and its text. -/
structure Record where
  level : Level
  source : String
  message : String
  deriving DecidableEq, Repr, Inhabited

/-- A record is important enough for a level. -/
def Record.reaches (r : Record) (least : Level) : Bool := decide (least.rank ≤ r.level.rank)

/-- The name that all loggers share. -/
def rootLogger : String := "repodoctor"

/-- The full name of the logger for a part of the program. -/
def fullName (source : String) : String :=
  if source = "" then rootLogger else rootLogger ++ "." ++ source

/-- The full name of the logger that a record comes from. -/
def Record.loggerName (r : Record) : String := fullName r.source

end Checkup.Log
