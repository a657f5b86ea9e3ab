import Checkup.Proofs.Run.Results
import Checkup.Proofs.Run.Stages
import Checkup.Proofs.Scan.Alike
import Mathlib.Data.List.Forall2

/-!
# Faulty rules

A check or a repair of a rule from elsewhere may fail, in some scan roots or in all of them. A failed
check counts as one that found nothing, and a failed repair as one that changed no file: the run goes
on, and the other rules find and repair what they would find and repair without the faulty one.

* `Rule.Spared`: a rule whose faults are replaced.
* `performAll_spared`, `results_spared`: repairs and results do not see the replacement.
* `outcomes_kept`: the outcomes without some of the rules.
* `run_fault_isolation`: the runs with the faults, without them, and without the faulty rules.
-/

namespace Checkup

namespace Rule

/-- A rule in place of another one: some checks that fail find nothing instead, and some repairs that
fail say instead that no file changed. -/
structure Spared (rule spared : Rule) : Prop where
  info : spared.info = rule.info
  canFix : spared.canFix = rule.canFix
  check (c : Context) (t : Tree) : spared.check c t = rule.check c t ∨
    (∃ fault, rule.check c t = .error fault) ∧ spared.check c t = .ok []
  repair (c : Context) (t : Tree) (f : Finding) : spared.repair c t f = rule.repair c t f ∨
    ∃ fault t', rule.repair c t f = (.error fault, t') ∧ spared.repair c t f = (.ok false, t')

/-- The check of a tree comes to no result in any scan root. -/
def FailsOn (rule : Rule) (t : Tree) : Prop := ∀ c, ∃ fault, rule.check c t = .error fault

end Rule

/-- A diagnosis that differs from another one by rules that found nothing. -/
structure Diagnosis.Extends (d d' : Diagnosis) : Prop where
  rest : d = { d' with results := d.results }
  kept : ∀ r' ∈ d'.results, ∃ r ∈ d.results,
    r.rule = r'.rule ∧ r.passed = r'.passed ∧ r.findings = r'.findings

namespace Run

variable {t : Tree} {current : List String} {path : String} {o : Options} {p : Plan}
  {rules rules' : List Rule}

/-! ## Runs with other rules -/

/-- The plan with other rules. -/
def Plan.withRules (p : Plan) (rules : List Rule) : Plan := { p with rules := rules }

/-- The given rules have no part in the plan but their own. -/
theorem plan_given (rules rules' : List Rule) :
    plan (some rules') t current path o =
      (fun p => p.withRules (rules'.filter (choice o p.settings).admits)) <$>
        plan (some rules) t current path o := by
  unfold plan
  cases o.category with
  | none =>
    simp only [map_bind, map_pure]
    rfl
  | some name =>
    cases hname : Category.isKnownName name with
    | false =>
      simp only [hname, Bool.not_false, if_true]
      rfl
    | true =>
      simp only [hname, Bool.not_true, Bool.false_eq_true, if_false, map_bind, map_pure]
      rfl

theorem plan_withRules (h : plan (some rules) t current path o = .ok p) (rules' : List Rule) :
    plan (some rules') t current path o =
      .ok (p.withRules (rules'.filter (choice o p.settings).admits)) := by
  rw [plan_given rules rules', h]
  rfl

theorem plan_error {fault : RunFault} (h : plan (some rules) t current path o = .error fault)
    (rules' : List Rule) : plan (some rules') t current path o = .error fault := by
  rw [plan_given rules rules', h]
  rfl

/-! ## Checks whose faults are replaced -/

/-- The outcomes of checks that find the same. -/
structure Outcome.Spared (a b : Outcome) : Prop where
  root : b.root = a.root
  rule : a.rule.Spared b.rule
  findings : b.findings = a.findings

theorem Outcome.Spared.reported {a b : Outcome} (h : a.Spared b) : b.reported = a.reported := by
  rw [Outcome.reported, Outcome.reported, h.findings, h.root]

theorem outcome_spared {rule spared : Rule} (h : rule.Spared spared) (root : ScanRoot)
    (ignoreRules : List IgnoreRule) (t : Tree) :
    Outcome.Spared ⟨root, rule, rule.check (root.context ignoreRules) t⟩
      ⟨root, spared, spared.check (root.context ignoreRules) t⟩ := by
  refine ⟨rfl, h, ?_⟩
  unfold Outcome.findings
  rcases h.check (root.context ignoreRules) t with heq | ⟨⟨fault, hfault⟩, hnone⟩
  · rw [heq]
  · rw [hfault, hnone]
    rfl

theorem outcomes_spared (h : List.Forall₂ Rule.Spared rules rules') (p : Plan) (t : Tree) :
    List.Forall₂ Outcome.Spared (outcomes (p.withRules rules) t)
      (outcomes (p.withRules rules') t) := by
  rw [outcomes_eq, outcomes_eq]
  refine List.rel_flatMap (List.forall₂_same.mpr fun root _ => rfl) ?_
  rintro root _ rfl
  unfold outcomesAt
  refine List.rel_map (R := Rule.Spared) ?_ (List.rel_filter ?_ h)
  · intro rule spared h
    exact outcome_spared h root p.ignoreRules t
  · intro rule spared h
    simp [h.info]

theorem findings_spared {os os' : List Outcome} (h : List.Forall₂ Outcome.Spared os os') :
    findings os' = findings os := by
  unfold findings
  induction h with
  | nil => rfl
  | cons ho _ ih => rw [List.flatMap_cons, List.flatMap_cons, ho.reported, ih]

theorem addOutcome_spared {a b : Outcome} (h : a.Spared b) (entries : List (String × RuleResult)) :
    addOutcome entries b = addOutcome entries a := by
  unfold addOutcome
  rw [h.reported, h.rule.info]

theorem results_spared {os os' : List Outcome} (h : List.Forall₂ Outcome.Spared os os') :
    results os' = results os := by
  unfold results
  -- The steps agree from any results so far, not from none only.
  generalize ([] : List (String × RuleResult)) = entries
  induction h generalizing entries with
  | nil => rfl
  | cons ho _ ih => rw [List.foldl_cons, List.foldl_cons, addOutcome_spared ho, ih]

/-! ## Repairs whose faults are replaced -/

/-- Tasks that differ by the faults of their rules. -/
structure Task.Spared (a b : Task) : Prop where
  root : b.root = a.root
  rule : a.rule.Spared b.rule
  finding : b.finding = a.finding

theorem tasksOf_spared {a b : Outcome} (h : a.Spared b) :
    List.Forall₂ Task.Spared (tasksOf a) (tasksOf b) := by
  unfold tasksOf
  rw [h.rule.canFix, h.findings, h.root]
  split
  · rw [List.forall₂_map_left_iff, List.forall₂_map_right_iff, List.forall₂_same]
    exact fun f _ => ⟨rfl, h.rule, rfl⟩
  · exact .nil

/-- A failed repair leaves the tree that one without a change leaves, and counts as little. -/
theorem perform_spared {a b : Task} (h : a.Spared b) (ignoreRules : List IgnoreRule) (t : Tree) :
    (b.perform ignoreRules t).2 = (a.perform ignoreRules t).2 ∧
      Attempt.succeeded ⟨b, (b.perform ignoreRules t).1⟩ =
        Attempt.succeeded ⟨a, (a.perform ignoreRules t).1⟩ := by
  unfold Task.perform
  rw [h.root, h.finding]
  rcases h.rule.repair (a.root.context ignoreRules) t a.finding with heq | ⟨fault, t', hfault, hno⟩
  · rw [heq]
    exact ⟨rfl, rfl⟩
  · rw [hfault, hno]
    exact ⟨rfl, rfl⟩

theorem performAll_spared {tasks tasks' : List Task} (h : List.Forall₂ Task.Spared tasks tasks')
    (ignoreRules : List IgnoreRule) (t : Tree) :
    (performAll ignoreRules tasks' t).2 = (performAll ignoreRules tasks t).2 ∧
      (performAll ignoreRules tasks' t).1.map Attempt.succeeded =
        (performAll ignoreRules tasks t).1.map Attempt.succeeded := by
  induction h generalizing t with
  | nil => exact ⟨rfl, rfl⟩
  | @cons a b _ _ htask _ ih =>
    obtain ⟨htree, hsucceeded⟩ := perform_spared htask ignoreRules t
    obtain ⟨hlast, hlater⟩ := ih (a.perform ignoreRules t).2
    simp only [performAll, List.map_cons, htree]
    exact ⟨hlast, by rw [hsucceeded, hlater]⟩

theorem repairs_spared {p' : Plan} (h : List.Forall₂ Task.Spared (tasks p t) (tasks p' t))
    (hignore : p'.ignoreRules = p.ignoreRules) (o : Options) :
    (p'.repairs t o).2 = (p.repairs t o).2 ∧
      (p'.repairs t o).1.map Attempt.succeeded = (p.repairs t o).1.map Attempt.succeeded := by
  unfold Plan.repairs
  rw [hignore]
  split
  · exact performAll_spared h p.ignoreRules t
  · exact ⟨rfl, rfl⟩

theorem fixedCount_eq_count (v : Visit) :
    v.fixedCount = (v.attempts.map Attempt.succeeded).count true := by
  rw [Visit.fixedCount, List.count_eq_length_filter, List.filter_map, List.length_map]
  simp [Function.comp_def]

/-- A run with the faults and a run without them come to the same, and leave the same tree. -/
theorem run_spared (h : List.Forall₂ Rule.Spared rules rules') :
    run (some rules') t current path o = run (some rules) t current path o := by
  cases hplan : plan (some rules) t current path o with
  | error fault => rw [run_of_no_plan hplan, run_of_no_plan (plan_error hplan rules')]
  | ok p =>
    have hadmitted : List.Forall₂ Rule.Spared (rules.filter (choice o p.settings).admits)
        (rules'.filter (choice o p.settings).admits) := by
      refine List.rel_filter ?_ h
      intro rule spared h
      simp [Registry.Choice.admits, h.info]
    have houtcomes := outcomes_spared hadmitted p t
    have htasks : List.Forall₂ Task.Spared (tasks _ t) (tasks _ t) :=
      List.rel_flatMap houtcomes fun _ _ h => tasksOf_spared h
    obtain ⟨htree, hsucceeded⟩ := repairs_spared htasks rfl o
    rw [run_of_plan (plan_withRules hplan rules), run_of_plan (plan_withRules hplan rules')]
    refine Prod.ext (congrArg Except.ok (diagnosis_eq rfl (findings_spared houtcomes) ?_
      (results_spared houtcomes))) htree
    rw [fixedCount_eq_count, fixedCount_eq_count, hsucceeded]

/-! ## Rules left out -/

/-- The rules of a plan that are not kept fail on a tree. -/
def Plan.KeepsWorking (p : Plan) (t : Tree) (keep : Rule → Bool) : Prop :=
  ∀ rule ∈ p.rules, keep rule = false → rule.FailsOn t

/-- The plan with some of its rules. -/
def Plan.keeping (p : Plan) (keep : Rule → Bool) : Plan := p.withRules (p.rules.filter keep)

section
variable {keep : Rule → Bool}

theorem outcomes_keeping (p : Plan) (t : Tree) (keep : Rule → Bool) :
    outcomes (p.keeping keep) t = (outcomes p t).filter fun outcome => keep outcome.rule := by
  rw [outcomes_eq, outcomes_eq, List.filter_flatMap]
  refine List.flatMap_congr fun root _ => ?_
  simp only [outcomesAt, Plan.keeping, Plan.withRules, List.filter_map, List.filter_filter,
    Function.comp_def, Bool.and_comm]
  rfl

/-- The outcomes of the other rules have no findings. -/
theorem findings_of_not_kept (h : p.KeepsWorking t keep) {outcome : Outcome}
    (hmem : outcome ∈ outcomes p t) (hkeep : keep outcome.rule = false) : outcome.findings = [] := by
  obtain ⟨⟨root, rule⟩, hpair, rfl⟩ := List.mem_map.mp hmem
  obtain ⟨-, hrule, -⟩ := mem_pairs_iff.mp hpair
  obtain ⟨fault, hfault⟩ := h rule hrule hkeep (root.context p.ignoreRules)
  dsimp only [Outcome.findings]
  rw [hfault]
  rfl

theorem findings_keeping (h : p.KeepsWorking t keep) :
    findings (outcomes (p.keeping keep) t) = findings (outcomes p t) := by
  rw [outcomes_keeping]
  refine flatMap_filter_of_nil fun outcome hmem hkeep => ?_
  rw [Outcome.reported, findings_of_not_kept h hmem hkeep, List.map_nil]

theorem tasks_keeping (h : p.KeepsWorking t keep) : tasks (p.keeping keep) t = tasks p t := by
  rw [tasks, outcomes_keeping]
  refine flatMap_filter_of_nil fun outcome hmem hkeep => ?_
  simp [tasksOf, findings_of_not_kept h hmem hkeep]

theorem repairs_keeping (h : p.KeepsWorking t keep) (o : Options) :
    (p.keeping keep).repairs t o = p.repairs t o := by
  rw [Plan.repairs, tasks_keeping h]
  rfl

/-- Every result of some of the outcomes is one of all outcomes, if the others found nothing. -/
theorem exists_result_of_kept {os : List Outcome} {keep : Outcome → Bool}
    (h : ∀ outcome ∈ os, keep outcome = false → outcome.reported = []) {r' : RuleResult}
    (hr' : r' ∈ results (os.filter keep)) : ∃ r ∈ results os,
      r.rule = r'.rule ∧ r.passed = r'.passed ∧ r.findings = r'.findings := by
  have hresult' := mem_results hr'
  -- Its id has come up among all outcomes, so that it has a result there too.
  have hrule : r'.rule ∈ (results os).map (·.rule) := by
    obtain ⟨first, hfirst, -⟩ := hresult'.described
    obtain ⟨hmem, hid⟩ := List.mem_filter.mp (List.mem_of_head? hfirst)
    rw [rules_results, List.mem_eraseDups]
    exact List.mem_map.mpr ⟨first, (List.mem_filter.mp hmem).1, by simpa using hid⟩
  obtain ⟨r, hr, heq⟩ := List.mem_map.mp hrule
  have hresult := mem_results hr
  have hid : ofId (os.filter keep) r'.rule = (ofId os r'.rule).filter keep := by
    simp only [ofId, List.filter_filter, Bool.and_comm]
  have hfindings : r.findings = r'.findings := by
    rw [hresult.findings, hresult'.findings, heq, hid]
    exact (flatMap_filter_of_nil fun outcome houtcome hkeep =>
      h outcome (List.mem_of_mem_filter houtcome) hkeep).symm
  refine ⟨r, hr, heq, ?_, hfindings⟩
  rw [Bool.eq_iff_iff, hresult.passed, hresult'.passed, hfindings]

theorem diagnosis_keeping (h : p.KeepsWorking t keep) (attempts : List Attempt) :
    ((Visit.mk p (outcomes p t) attempts).diagnosis o).Extends
      ((Visit.mk (p.keeping keep) (outcomes (p.keeping keep) t) attempts).diagnosis o) := by
  refine ⟨diagnosis_congr rfl (findings_keeping h).symm rfl, fun r' hr' => ?_⟩
  dsimp only [Visit.diagnosis] at hr' ⊢
  rw [outcomes_keeping] at hr'
  refine exists_result_of_kept (fun outcome hmem hkeep => ?_) hr'
  rw [Outcome.reported, findings_of_not_kept h hmem hkeep, List.map_nil]

end

/-- A faulty rule has no part in a run. The run comes to the same result and leaves the same tree if
checks that fail find nothing instead and repairs that fail change no file; and if rules that fail in
every scan root are left out, then the tree, the findings, the score and the number of repairs are the
same, and each other rule has the same findings in its result. -/
theorem run_fault_isolation (rules : List Rule) (t : Tree) (current : List String) (path : String)
    (o : Options) :
    (∀ rules', List.Forall₂ Rule.Spared rules rules' →
      run (some rules') t current path o = run (some rules) t current path o) ∧
    ∀ keep : Rule → Bool, (∀ rule ∈ rules, keep rule = false → rule.FailsOn t) →
      (run (some (rules.filter keep)) t current path o).2 =
        (run (some rules) t current path o).2 ∧
      ((∃ fault, (run (some rules) t current path o).1 = .error fault ∧
        (run (some (rules.filter keep)) t current path o).1 = .error fault) ∨
      ∃ d d', (run (some rules) t current path o).1 = .ok d ∧
        (run (some (rules.filter keep)) t current path o).1 = .ok d' ∧ d.Extends d') := by
  refine ⟨fun rules' h => run_spared h, fun keep hfails => ?_⟩
  cases hplan : plan (some rules) t current path o with
  | error fault =>
    rw [run_of_no_plan hplan, run_of_no_plan (plan_error hplan _)]
    exact ⟨rfl, .inl ⟨fault, rfl, rfl⟩⟩
  | ok p =>
    have hall := plan_withRules hplan rules
    have hkept := plan_withRules hplan (rules.filter keep)
    rw [List.filter_comm] at hkept
    have hworking : (p.withRules (rules.filter (choice o p.settings).admits)).KeepsWorking t keep :=
      fun rule hrule hkeep => hfails rule (List.mem_of_mem_filter hrule) hkeep
    have hrepairs : (p.withRules ((rules.filter (choice o p.settings).admits).filter keep)).repairs
        t o = (p.withRules (rules.filter (choice o p.settings).admits)).repairs t o :=
      repairs_keeping hworking o
    rw [run_of_plan hall, run_of_plan hkept, hrepairs]
    exact ⟨rfl, .inr ⟨_, _, rfl, rfl, diagnosis_keeping hworking _⟩⟩

/-! ## Two faulty rules and one that works -/

/-- A rule whose check fails, one whose repair fails, and one that works. -/
def brokenRules : List Rule :=
  [remarkRule "a" none, (remarkRule "b" (some "short")).withFix fun _ t _ => (.error (.failed ""), t),
    (remarkRule "c" (some "long")).withFix fun _ t _ => (.ok true, t)]

/-- The same rules without the faults. -/
def mendedRules : List Rule :=
  [.ofCheck (remarkRule "a" none).info fun _ _ => [],
    (remarkRule "b" (some "short")).withFix fun _ t _ => (.ok false, t),
    (remarkRule "c" (some "long")).withFix fun _ t _ => (.ok true, t)]

theorem brokenRules_spared : List.Forall₂ Rule.Spared brokenRules mendedRules := by
  refine .cons ?_ (.cons ?_ (.cons ?_ .nil))
  · exact ⟨rfl, rfl, fun _ _ => .inr ⟨⟨_, rfl⟩, rfl⟩, fun _ _ _ => .inl rfl⟩
  · exact ⟨rfl, rfl, fun _ _ => .inl rfl, fun _ _ _ => .inr ⟨_, _, rfl, rfl⟩⟩
  · exact ⟨rfl, rfl, fun _ _ => .inl rfl, fun _ _ _ => .inl rfl⟩

/-- A directory with nothing in it. -/
def emptyTree : Tree := ⟨[(["r"], .folder)]⟩

/-- The rules that work report and repair as they do on their own. -/
theorem run_fault_isolation_brokenRules :
    List.Forall₂ Rule.Spared brokenRules mendedRules ∧
    run (some mendedRules) emptyTree [] "/r" { fix := true } =
      run (some brokenRules) emptyTree [] "/r" { fix := true } ∧
    (∀ rule ∈ brokenRules, (rule.info.id != "a") = false → rule.FailsOn emptyTree) ∧
    (run (some (brokenRules.filter fun rule => rule.info.id != "a")) emptyTree [] "/r"
      { fix := true }).2 = (run (some brokenRules) emptyTree [] "/r" { fix := true }).2 ∧
    ((run (some brokenRules) emptyTree [] "/r" { fix := true }).1.toOption.map fun d =>
      (d.findings.map (·.rule), d.fixedCount)) = some (["b", "c"], some 1) := by
  have hfails : ∀ rule ∈ brokenRules, (rule.info.id != "a") = false → rule.FailsOn emptyTree := by
    intro rule hrule hid c
    simp only [brokenRules, List.mem_cons, List.not_mem_nil, or_false] at hrule
    rcases hrule with rfl | rfl | rfl
    · exact ⟨_, rfl⟩
    all_goals exact absurd hid (by decide)
  obtain ⟨hmended, hkept⟩ := run_fault_isolation brokenRules emptyTree [] "/r" { fix := true }
  exact ⟨brokenRules_spared, hmended _ brokenRules_spared, hfails, (hkept _ hfails).1,
    by decide +kernel⟩

end Run

end Checkup
