import Checkup.Finding

/-!
# Scores and grades

A clean project scores 100. Every error costs five points, every warning two, and no score is below
zero. Findings of other severities cost nothing.

* `ofFindings_add_cost`: until it is used up, the score and the cost of the findings make 100.
* `grade_of_full`: a full score has the best grade.
-/

namespace Checkup.Score

/-- The score of a project without findings. -/
def full : Nat := 100

/-- What a finding of some severity costs. -/
def cost : Severity → Nat
  | .error => 5
  | .warning => 2
  | .other _ => 0

/-- What findings of some severities cost together. -/
def totalCost (severities : List Severity) : Nat :=
  severities.foldr (fun severity total => cost severity + total) 0

/-- The score for findings of some severities. -/
def ofSeverities (severities : List Severity) : Nat := full - totalCost severities

/-- The score for some findings. -/
def ofFindings (findings : List Finding) : Nat := ofSeverities (findings.map (·.severity))

/-- The grades with the least score of each, the best one first. -/
def bands : List (Int × String) :=
  [(95, "A+"), (90, "A"), (85, "A-"), (80, "B+"), (75, "B"), (70, "B-"), (65, "C+"), (60, "C"),
    (55, "C-"), (50, "D")]

/-- The grade below all bands. -/
def failing : String := "F"

/-- The grade of a score, known by the least scores that it reaches. -/
def gradeReaching (reaches : Int → Bool) : String :=
  match bands.find? fun band => reaches band.1 with
  | some (_, grade) => grade
  | none => failing

/-- The grade of a score. -/
def grade (score : Int) : String := gradeReaching fun least => decide (least ≤ score)

theorem ofFindings_add_cost {findings : List Finding}
    (h : totalCost (findings.map (·.severity)) ≤ full) :
    ofFindings findings + totalCost (findings.map (·.severity)) = full := by
  simp only [ofFindings, ofSeverities]
  omega

theorem grade_of_full : grade full = "A+" := rfl

end Checkup.Score
