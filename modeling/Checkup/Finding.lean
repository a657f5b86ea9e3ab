import Checkup.Text.Label

/-!
# Findings

What a rule reports about one file, and the words that sort findings: their severity, and the
category of the rule.

* `Category.ofName_name`: a known category is the one its name names.
-/

namespace Checkup

/-- How serious a finding is. Rules from elsewhere may use words of their own. -/
inductive Severity
  | error
  | warning
  | other (word : String)
  deriving DecidableEq, Repr, Inhabited

namespace Severity

/-- The word for a severity. -/
def word : Severity → String
  | error => "error"
  | warning => "warning"
  | other w => w

/-- The severity that a word names. -/
def ofWord (w : String) : Severity :=
  if w = "error" then error else if w = "warning" then warning else other w

end Severity

/-- The subject of a rule. Rules from elsewhere may use subjects of their own. -/
inductive Category
  | nextjs
  | turbo
  | node
  | dead
  | other (name : String)
  deriving DecidableEq, Repr, Inhabited

namespace Category

/-- The name of a category. -/
def name : Category → String
  | nextjs => "nextjs"
  | turbo => "turbo"
  | node => "node"
  | dead => "dead"
  | other n => n

/-- The categories that have a place of their own in reports, in its order. -/
def known : List Category := [nextjs, turbo, node, dead]

/-- The category that a name names. -/
def ofName (n : String) : Category := (known.find? fun c => c.name = n).getD (other n)

/-- The name is that of a known category. -/
def isKnownName (n : String) : Bool := known.any fun c => c.name = n

/-- The heading of a known category in reports. -/
def title : Category → String
  | nextjs => "Next.js"
  | turbo => "Turborepo"
  | node => "Node.js / Structure"
  | dead => "Dead Code"
  | other n => n

theorem ofName_name {c : Category} (h : c ∈ known) : ofName c.name = c := by
  simp only [known, List.mem_cons, List.not_mem_nil, or_false] at h
  rcases h with rfl | rfl | rfl | rfl <;> rfl

end Category

/-- A finding: a rule's remark about one file. -/
structure Finding where
  rule : String
  file : String
  severity : Severity
  message : Label
  help : Label
  line : Option Int
  fixable : Bool
  deriving DecidableEq, Repr, Inhabited

end Checkup
