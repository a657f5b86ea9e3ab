import Checkup.Proofs.Number.Shortest
import Checkup.Proofs.Run.Idempotence
import Checkup.Proofs.Run.Stages
import Checkup.Report.Text
import Mathlib.Data.Rat.Cast.Order
import Mathlib.Order.WithBot

/-!
# How findings are scored

A score depends on the numbers of errors and warnings alone, and every further finding can only lower
it. A grade is the first band that a number reaches, so a greater number has no lower grade. What a
run scores are all its findings, also those that it repairs.

* `Score.ofFindings_eq`: the score by the numbers of errors and warnings.
* `Score.rank_le_rank`: the grade of a greater number.
* `Run.scoring`: the laws of scores and grades, and the score of a run.
-/

namespace Checkup

open Number (Binary64)

namespace Score

/-! ## Scores -/

theorem totalCost_eq (severities : List Severity) :
    totalCost severities = 5 * severities.count .error + 2 * severities.count .warning := by
  induction severities with
  | nil => rfl
  | cons severity rest ih =>
    have hcons : totalCost (severity :: rest) = cost severity + totalCost rest := rfl
    rw [hcons, ih, List.count_cons, List.count_cons]
    cases severity with
    | error => simp [cost]; omega
    | warning => simp [cost]; omega
    | other word => simp [cost]

theorem count_severities (severity : Severity) (fs : List Finding) :
    (fs.map (·.severity)).count severity = Report.count severity fs := by
  unfold Report.count
  rw [List.count, List.countP_map, List.countP_eq_length_filter]
  rfl

/-- What findings cost by the numbers that a report tells of them. -/
theorem totalCost_findings (fs : List Finding) :
    totalCost (fs.map (·.severity)) = 5 * Report.count .error fs + 2 * Report.count .warning fs := by
  rw [totalCost_eq, count_severities, count_severities]

theorem ofFindings_eq (fs : List Finding) : (ofFindings fs : Int) =
    max 0 (min 100 (100 - 5 * Report.count .error fs - 2 * Report.count .warning fs)) := by
  have hcost := totalCost_findings fs
  unfold ofFindings ofSeverities full
  omega

theorem ofFindings_perm {fs gs : List Finding} (h : fs.Perm gs) : ofFindings fs = ofFindings gs := by
  unfold ofFindings ofSeverities
  have hseverities := h.map (·.severity)
  rw [totalCost_eq, totalCost_eq, hseverities.count_eq, hseverities.count_eq]

theorem ofFindings_append_le (fs gs : List Finding) : ofFindings (fs ++ gs) ≤ ofFindings fs := by
  unfold ofFindings ofSeverities
  rw [totalCost_eq, totalCost_eq, List.map_append, List.count_append, List.count_append]
  omega

/-! ## Grades -/

/-- The grades, the best one first. -/
def gradeOrder : List String := bands.map Prod.snd ++ [failing]

/-- The place of a grade among all of them; the best one has the least. -/
def rank (grade : String) : Nat := gradeOrder.idxOf grade

theorem nodup_gradeOrder : gradeOrder.Nodup := by decide

theorem gradeReaching_eq (reaches : Int → Bool) : gradeReaching reaches =
    ((bands.find? fun band => reaches band.1).map Prod.snd).getD failing := by
  unfold gradeReaching
  cases bands.find? fun band => reaches band.1 with
  | none => rfl
  | some band => rfl

theorem mem_of_find? {bands : List (Int × String)} {p : Int × String → Bool} {last : String} :
    ((bands.find? p).map Prod.snd).getD last ∈ bands.map Prod.snd ++ [last] := by
  cases hfound : bands.find? p with
  | none => exact List.mem_append_right _ (List.mem_singleton_self last)
  | some band => exact List.mem_append_left _ (List.mem_map_of_mem (List.mem_of_find?_eq_some hfound))

/-- The first band that fits stands at its own place among the grades. -/
theorem idxOf_find? {bands : List (Int × String)} {p : Int × String → Bool} {last : String}
    (h : (bands.map Prod.snd ++ [last]).Nodup) :
    (bands.map Prod.snd ++ [last]).idxOf (((bands.find? p).map Prod.snd).getD last) =
      bands.findIdx p := by
  induction bands with
  | nil => simp
  | cons band rest ih =>
    rw [List.map_cons, List.cons_append] at h ⊢
    obtain ⟨hband, hrest⟩ := List.nodup_cons.mp h
    rw [List.find?_cons, List.findIdx_cons]
    cases hp : p band with
    | true => exact List.idxOf_cons_self
    | false =>
      have hne : band.2 ≠ ((rest.find? p).map Prod.snd).getD last := fun heq =>
        hband (heq ▸ mem_of_find?)
      rw [List.idxOf_cons_ne _ hne, ih hrest]
      rfl

theorem rank_gradeReaching (reaches : Int → Bool) :
    rank (gradeReaching reaches) = bands.findIdx fun band => reaches band.1 := by
  rw [gradeReaching_eq]
  exact idxOf_find? nodup_gradeOrder

theorem gradeReaching_mem (reaches : Int → Bool) : gradeReaching reaches ∈ gradeOrder := by
  rw [gradeReaching_eq]
  exact mem_of_find?

/-- What reaches more has no lower grade. -/
theorem rank_le_of_reaches {reaches reaches' : Int → Bool}
    (h : ∀ least, reaches least = true → reaches' least = true) :
    rank (gradeReaching reaches') ≤ rank (gradeReaching reaches) := by
  rw [rank_gradeReaching, rank_gradeReaching]
  exact List.findIdx_le_findIdx fun band _ => h band.1

/-! ## All numbers -/

/-- The rational numbers between the infinities. -/
abbrev Extended : Type := WithBot (WithTop ℚ)

/-- A number that has a grade. -/
inductive Points
  | whole (n : Int)
  | float (x : Binary64)

namespace Points

/-- The number is at least an integer. -/
def reaches : Points → Int → Bool
  | whole n, least => decide (least ≤ n)
  | float x, least => x.atLeast least

/-- The grade of a number. -/
def grade (p : Points) : String := gradeReaching p.reaches

/-- The value of a finite number. -/
def finiteValue (negative : Bool) (mantissa : Nat) (exponent : Int) : ℚ :=
  if negative then -(mantissa * 2 ^ exponent) else mantissa * 2 ^ exponent

/-- The value of a number; what is no number at all has none. -/
def value? : Points → Option Extended
  | whole n => some ((n : ℚ) : WithTop ℚ)
  | float (.finite negative m e) => some (finiteValue negative m e : WithTop ℚ)
  | float (.infinite negative) => some (if negative then ⊥ else ⊤)
  | float .notANumber => none

theorem reaches_finite (negative : Bool) (m : Nat) (e : Int) (least : Int) :
    (float (.finite negative m e)).reaches least = true ↔
      (least : ℚ) ≤ finiteValue negative m e := by
  obtain ⟨num, den, hquotient, hden, hvalue⟩ := Binary64.toQuotient_value negative m e
  have hpos : (0 : ℚ) < den := by exact_mod_cast hden
  unfold reaches Binary64.atLeast
  dsimp only
  rw [hquotient, decide_eq_true_iff]
  unfold Number.signed finiteValue
  rw [← hvalue]
  cases negative with
  | true =>
    rw [if_pos rfl, if_pos rfl, ← neg_div, le_div_iff₀ hpos]
    exact_mod_cast Iff.rfl
  | false =>
    rw [if_neg Bool.false_ne_true, if_neg Bool.false_ne_true, le_div_iff₀ hpos]
    exact_mod_cast Iff.rfl

/-- A number reaches the integers up to its value. -/
theorem reaches_iff {p : Points} {least : Int} : p.reaches least = true ↔
    ∃ v, p.value? = some v ∧ (((least : ℚ) : WithTop ℚ) : Extended) ≤ v := by
  cases p with
  | whole n =>
    unfold reaches value?
    simp
  | float x =>
    cases x with
    | finite negative m e =>
      rw [reaches_finite]
      unfold value?
      simp
    | infinite negative =>
      unfold reaches value? Binary64.atLeast
      cases negative <;> simp
    | notANumber =>
      unfold reaches value? Binary64.atLeast
      simp

theorem reaches_mono {p q : Points} {v w : Extended} (hp : p.value? = some v)
    (hq : q.value? = some w) (h : v ≤ w) {least : Int} (hreaches : p.reaches least = true) :
    q.reaches least = true := by
  obtain ⟨v', hv', hle⟩ := reaches_iff.mp hreaches
  obtain rfl := Option.some.inj (hp.symm.trans hv')
  exact reaches_iff.mpr ⟨w, hq, hle.trans h⟩

end Points

/-- A greater number has no lower grade. -/
theorem rank_le_rank {p q : Points} {v w : Extended} (hp : p.value? = some v)
    (hq : q.value? = some w) (h : v ≤ w) : rank q.grade ≤ rank p.grade :=
  rank_le_of_reaches fun _ => Points.reaches_mono hp hq h

/-- What is no number at all fails. -/
theorem grade_of_no_value {p : Points} (h : p.value? = none) : p.grade = failing := by
  have hnone : bands.find? (fun band => p.reaches band.1) = none := by
    rw [List.find?_eq_none]
    intro band _ hreaches
    obtain ⟨v, hv, -⟩ := Points.reaches_iff.mp hreaches
    rw [h] at hv
    cases hv
  unfold Points.grade
  rw [gradeReaching_eq, hnone]
  rfl

end Score

namespace Run

/-- The score counts errors and warnings, in whatever order, and no finding raises it. Grades follow
the order of the bands over all numbers. A run with any rules scores all that its checks found in the
tree, whatever it repairs afterwards. -/
theorem scoring :
    (∀ fs : List Finding, (Score.ofFindings fs : Int) =
      max 0 (min 100 (100 - 5 * Report.count .error fs - 2 * Report.count .warning fs))) ∧
    (∀ fs gs : List Finding, fs.Perm gs → Score.ofFindings fs = Score.ofFindings gs) ∧
    (∀ fs gs : List Finding, Score.ofFindings (fs ++ gs) ≤ Score.ofFindings fs) ∧
    (Score.gradeOrder.Nodup ∧ ∀ p : Score.Points, p.grade ∈ Score.gradeOrder) ∧
    (∀ (p q : Score.Points) (v w : Score.Extended), p.value? = some v → q.value? = some w → v ≤ w →
      Score.rank q.grade ≤ Score.rank p.grade) ∧
    (∀ p : Score.Points, p.value? = none → p.grade = Score.failing) ∧
    ∀ (given : Option (List Rule)) (t : Tree) (current : List String) (path : String) (o : Options)
      (d : Diagnosis) (t' : Tree), run given t current path o = (.ok d, t') →
      d.score = Score.ofFindings d.findings ∧ d.grade = (Score.Points.whole d.score).grade ∧
      ∃ p, plan given t current path o = .ok p ∧ d.findings = findings (outcomes p t) := by
  refine ⟨Score.ofFindings_eq, fun fs gs => Score.ofFindings_perm, Score.ofFindings_append_le,
    ⟨Score.nodup_gradeOrder, fun p => Score.gradeReaching_mem _⟩,
    fun p q v w => Score.rank_le_rank, fun p => Score.grade_of_no_value, ?_⟩
  intro given t current path o d t' hrun
  obtain ⟨p, hplan, rfl, -⟩ := run_eq_ok.mp hrun
  exact ⟨rfl, rfl, p, hplan, rfl⟩

/-- A run that repairs scores what it found before: an error and two warnings, one of them about the
file that it writes. -/
theorem scoring_bareTree : ∃ d t', run none bareTree [] "/r" bareOptions = (.ok d, t') ∧
    d.fixedCount = some 2 ∧ d.score = Score.ofFindings d.findings ∧
    d.grade = (Score.Points.whole d.score).grade ∧ d.score = 91 ∧ d.grade = "A" := by
  have hrun := run_of_plan (o := bareOptions) plan_bareTree
  have hcount : (Visit.diagnosis ⟨barePlan, outcomes barePlan bareTree,
      (barePlan.repairs bareTree bareOptions).1⟩ bareOptions).fixedCount = some 2 := by decide +kernel
  have hscore : Score.ofFindings (findings (outcomes barePlan bareTree)) = 91 := by decide +kernel
  obtain ⟨hd, hgrade, p, hplan, hfindings⟩ := scoring.2.2.2.2.2.2 _ _ _ _ _ _ _ hrun
  cases plan_bareTree.symm.trans hplan
  rw [hfindings, hscore] at hd
  exact ⟨_, _, hrun, hcount, by rw [hd, hfindings, hscore], hgrade, hd, by rw [hgrade, hd]; decide⟩

end Run

end Checkup
