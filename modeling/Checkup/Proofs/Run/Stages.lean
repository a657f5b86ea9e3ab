import Checkup.Proofs.Run.WriteSet

/-!
# The stages of a run

A run makes a plan, then all its checks, and then the repairs if the options ask for them. So two runs
with the same plan whose checks come to the same tell the same.

* `plan_eq`: trees with the same project, settings and scan roots have the same plan.
* `run_of_plan`, `visit_eq_ok`: what a run does by its plan.
* `outcomes_eq`: the checks, root by root.
* `diagnosis_congr`: what the result of a run depends on.
-/

namespace Checkup.Run

variable {t t' : Tree} {current : List String} {path : String} {o : Options} {p : Plan}

/-! ## The plan -/

/-- The directory of a project that a path leads to. -/
def rootAt (current : List String) (path : String) : Location :=
  Tree.lexical [] (Path.stepsFrom current path)

theorem eq_rootAt (ht : t.Ordinary) {root : Location}
    (hroot : Project.rootOf t current path = .ok root) : root = rootAt current path := by
  obtain ⟨hresolve, -⟩ := Project.rootOf_eq_ok.mp hroot
  rw [Tree.resolve_eq ht] at hresolve
  split at hresolve
  · cases hresolve
  · cases hresolve
    rfl

/-- Trees with the same project, settings and scan roots have the same plan. -/
theorem plan_eq (hdetect : Project.detect t' current path = Project.detect t current path)
    (hsettings : ∀ project, Project.detect t current path = .ok project →
      settingsOf t' project = settingsOf t project)
    (hroots : ∀ project, Project.detect t current path = .ok project →
      ScanRoot.ofProject t' project o.filter = ScanRoot.ofProject t project o.filter) :
    plan none t' current path o = plan none t current path o := by
  unfold plan
  rw [hdetect]
  cases hproject : Project.detect t current path with
  | error fault => dsimp only [Except.mapError, bind, Except.bind]
  | ok project =>
    dsimp only [Except.mapError, bind, Except.bind]
    rw [hsettings project hproject, hroots project hproject]

/-! ## What follows the plan -/

/-- The repairs of a plan, if the options ask for them, and the tree after them. -/
def Plan.repairs (p : Plan) (t : Tree) (o : Options) : List Attempt × Tree :=
  if o.fix && !o.dryRun then performAll p.ignoreRules (tasks p t) t else ([], t)

/-- A run makes the checks of its plan, and then the repairs. -/
theorem run_of_plan {given : Option (List Rule)} (h : plan given t current path o = .ok p) :
    run given t current path o =
      (.ok ((Visit.mk p (outcomes p t) (p.repairs t o).1).diagnosis o), (p.repairs t o).2) := by
  refine run_eq_ok.mpr ⟨p, h, ?_, ?_⟩
  · rw [Plan.repairs, apply_ite Prod.fst]
  · rw [Plan.repairs, apply_ite Prod.snd]

/-- A visit that does not repair makes the checks of its plan. -/
theorem visit_eq_ok {v : Visit} (ho : (o.fix && !o.dryRun) = false) :
    visit none t current path o = (.ok v, t) ↔
      plan none t current path o = .ok v.plan ∧ v = ⟨v.plan, outcomes v.plan t, []⟩ := by
  unfold visit
  rw [ho]
  cases plan none t current path o with
  | error fault => exact iff_of_false (fun h => by cases h) fun h => by cases h.1
  | ok p =>
    constructor
    · intro h
      cases h
      exact ⟨rfl, rfl⟩
    · rintro ⟨h, hv⟩
      cases h
      rw [hv]
      rfl

theorem run_of_no_plan {given : Option (List Rule)} {fault : RunFault}
    (h : plan given t current path o = .error fault) :
    run given t current path o = (.error fault, t) := by
  unfold run visit
  rw [h]

/-- A run that does not repair makes no attempts. -/
theorem Plan.repairs_of_not_fixing (h : (o.fix && !o.dryRun) = false) (p : Plan) (t : Tree) :
    p.repairs t o = ([], t) := by
  rw [Plan.repairs, h]
  rfl

/-- The outcomes of the checks of one root. -/
def outcomesAt (ignoreRules : List IgnoreRule) (t : Tree) (rules : List Rule) (root : ScanRoot) :
    List Outcome :=
  (rules.filter fun rule => rule.info.applies root.kind).map fun rule =>
    ⟨root, rule, rule.check (root.context ignoreRules) t⟩

theorem outcomes_eq (p : Plan) (t : Tree) :
    outcomes p t = p.roots.flatMap (outcomesAt p.ignoreRules t p.rules) := by
  simp only [outcomes, Plan.pairs, List.map_flatMap, List.map_map]
  rfl

/-- Visits of one project with the same findings and as many repairs differ by their results. -/
theorem diagnosis_congr {v v' : Visit} (hproject : v'.plan.project = v.plan.project)
    (hfindings : v'.findings = v.findings) (hcount : v'.fixedCount = v.fixedCount) :
    v'.diagnosis o = { v.diagnosis o with results := results v'.outcomes } := by
  unfold Visit.diagnosis Visit.grade Visit.score
  rw [hproject, hfindings, hcount]

theorem diagnosis_eq {v v' : Visit} (hproject : v'.plan.project = v.plan.project)
    (hfindings : v'.findings = v.findings) (hcount : v'.fixedCount = v.fixedCount)
    (hresults : results v'.outcomes = results v.outcomes) : v'.diagnosis o = v.diagnosis o := by
  rw [diagnosis_congr hproject hfindings hcount, hresults]
  rfl

end Checkup.Run
