import Checkup.Proofs.Repair.Promises
import Checkup.Proofs.Run.WriteSet
import Checkup.Report.Text

/-!
# Looking, a dry run and the real run

A run makes its plan and all its checks before the first repair, and neither the plan nor a check
asks whether repairs are wanted. So the three kinds of run on one tree tell the same about it, and
only the real run may leave another tree. A dry run counts the findings that say they can be
repaired; the real run counts its repairs. The two numbers differ by the repairs that come to nothing
and by the findings about too many lock files, for which there is no repair at all.

* `run_modes`: what the three kinds of run come to.
* `promised_tasks`: the findings that say they can be repaired, but for those on lock files, are the
  tasks.
* `dryRun_foretells`: the number that a dry run prints, by what becomes of the real run.
-/

namespace Checkup

variable {t : Tree} {current : List String} {path : String} {o : Options}

/-- The options of a dry run. -/
def Options.dry (o : Options) : Options := { o with fix := true, dryRun := true }

/-- The options of a run that repairs. -/
def Options.repairing (o : Options) : Options := { o with fix := true, dryRun := false }

/-- The same options with other wishes for repairs. -/
def Options.wishing (o : Options) (fix dryRun : Bool) : Options :=
  { o with fix := fix, dryRun := dryRun }

/-- What a run found, with another number of repairs. -/
def Diagnosis.counting (d : Diagnosis) (n : Option Int) : Diagnosis := { d with fixedCount := n }

/-- The findings that say they can be repaired. -/
def promised (fs : List Finding) : List Finding := fs.filter (·.fixable)

/-- The finding is one about lock files. -/
def Finding.isOnLocks (f : Finding) : Bool := f.rule = "node/single-lock-file"

/-- The findings about lock files that say they can be repaired. -/
def promisedLocks (fs : List Finding) : List Finding := (promised fs).filter (·.isOnLocks)

theorem promised_append (fs gs : List Finding) : promised (fs ++ gs) = promised fs ++ promised gs :=
  List.filter_append ..

namespace Run

/-! ## The three kinds of run -/

theorem plan_wishing (fix dryRun : Bool) :
    plan none t current path (o.wishing fix dryRun) = plan none t current path o := rfl

/-- A run without repairs: its plan, and all that the checks of the plan find. -/
theorem run_of_not_repairing {p : Plan} (hplan : plan none t current path o = .ok p)
    {fix dryRun : Bool} (hno : (fix && !dryRun) = false) :
    run none t current path (o.wishing fix dryRun) =
      (.ok (((Visit.mk p (outcomes p t) []).diagnosis o).counting (if fix then some 0 else none)),
        t) := by
  have hplan' : plan none t current path (o.wishing fix dryRun) = .ok p :=
    (plan_wishing fix dryRun).trans hplan
  refine run_eq_ok.mpr ⟨p, hplan', ?_, ?_⟩
  · show _ = (Visit.mk p (outcomes p t) (if (fix && !dryRun) = true then _ else _)).diagnosis _
    rw [hno]
    rfl
  · show t = if (fix && !dryRun) = true then _ else t
    rw [hno]
    rfl

/-- On one tree, all runs fail alike and leave it as it is, or they come to the same findings,
results, score and grade of the same project, from checks of that tree. A run that only looks and a
dry run leave the tree as it is; they count nothing, and no repairs. What the real run does to the
tree it does after these checks, by the repairs that it counts.

That a check writes nothing is a fact of this embedding, in which it is a function from a tree to
findings. -/
theorem run_modes (t : Tree) (current : List String) (path : String) (o : Options) :
    (∃ fault, ∀ fix dryRun,
      run none t current path (o.wishing fix dryRun) = (.error fault, t)) ∨
    ∃ (p : Plan) (d : Diagnosis) (attempts : List Attempt) (t' : Tree),
      plan none t current path o = .ok p ∧
      d.findings = findings (outcomes p t) ∧
      performAll p.ignoreRules (tasks p t) t = (attempts, t') ∧
      (∀ dryRun, run none t current path (o.wishing false dryRun) = (.ok (d.counting none), t)) ∧
      run none t current path (o.wishing true true) = (.ok (d.counting (some 0)), t) ∧
      run none t current path (o.wishing true false) =
        (.ok (d.counting (some ((attempts.filter Attempt.succeeded).length : Int))), t') := by
  cases hplan : plan none t current path o with
  | error fault =>
    refine .inl ⟨fault, fun fix dryRun => ?_⟩
    unfold run visit
    rw [plan_wishing, hplan]
  | ok p =>
    refine .inr ⟨p, (Visit.mk p (outcomes p t) []).diagnosis o, _, _, rfl, rfl, rfl,
      fun dryRun => ?_, ?_, ?_⟩
    · exact run_of_not_repairing hplan rfl
    · exact run_of_not_repairing hplan rfl
    · exact run_eq_ok.mpr ⟨p, hplan, rfl, rfl⟩

/-! ## Promises -/

/-- The number of tasks that came to nothing. -/
def Visit.failedCount (v : Visit) : Nat := (v.attempts.filter fun a => !a.succeeded).length

theorem length_performAll (rules : List IgnoreRule) (tasks : List Task) (t : Tree) :
    (performAll rules tasks t).1.length = tasks.length := by
  induction tasks generalizing t with
  | nil => rfl
  | cons task rest ih =>
    rw [performAll_cons, List.length_cons, List.length_cons, ih]

/-- Every task is repaired or comes to nothing. -/
theorem fixedCount_add_failedCount (v : Visit) :
    v.fixedCount + v.failedCount = v.attempts.length :=
  (List.length_eq_length_filter_add Attempt.succeeded).symm

/-! ## Findings and tasks -/

theorem promised_reported (outcome : Outcome) :
    promised outcome.reported = (promised outcome.findings).map outcome.root.report := by
  unfold promised Outcome.reported
  rw [List.filter_map]
  rfl

theorem not_isOnLocks_of_canFix {rule : Rule} (hrule : rule ∈ Registry.builtIn)
    (hfix : rule.canFix = true) : rule.info.id ≠ "node/single-lock-file" := by
  have hall : ∀ r ∈ Registry.fixing, r.info.id ≠ "node/single-lock-file" := by decide
  exact hall rule (mem_fixing hrule hfix)

/-- Of the findings of one outcome, the tasks are those that say they can be repaired and are not on
lock files. -/
theorem promised_outcome {root : ScanRoot} {rule : Rule} (hrule : rule ∈ Registry.builtIn)
    (c : Context) (t : Tree) (outcome : Outcome) (houtcome : outcome = ⟨root, rule, rule.check c t⟩) :
    (promised outcome.reported).filter (!·.isOnLocks) = (tasksOf outcome).map Task.reported := by
  subst houtcome
  rw [promised_reported, List.filter_map]
  unfold Outcome.findings tasksOf
  dsimp only
  cases hcheck : rule.check c t with
  | error fault =>
    show [] = (if rule.canFix then [] else []).map Task.reported
    split <;> rfl
  | ok found =>
    show ((promised found).filter (!·.isOnLocks)).map root.report =
      (if rule.canFix = true then (promised found).map fun f => Task.mk root rule f else []).map
        Task.reported
    rcases Registry.finds_builtIn hrule with rfl | hfinds
    · -- no task, and all findings are about lock files
      cases hcheck
      rw [List.filter_eq_nil_iff.mpr fun f hf => ?_]
      · rfl
      · have hlocks : f.isOnLocks = true :=
          decide_eq_true (Hygiene.mem_lockFile (List.mem_filter.mp hf).1).1
        rw [hlocks]
        exact Bool.false_ne_true
    · cases hfix : rule.canFix with
      | true =>
        have hall : (promised found).filter (!·.isOnLocks) = promised found := by
          refine List.filter_eq_self.mpr fun f hf => ?_
          have hid := (hfinds c t found hcheck f (List.mem_filter.mp hf).1).rule
          unfold Finding.isOnLocks
          rw [hid, Bool.not_eq_true', decide_eq_false_iff_not]
          exact not_isOnLocks_of_canFix hrule hfix
        rw [hall, if_pos rfl, List.map_map]
        rfl
      | false =>
        have hnone : promised found = [] := by
          refine List.filter_eq_nil_iff.mpr fun f hf => ?_
          rw [(hfinds c t found hcheck f hf).fixable, hfix]
          exact Bool.false_ne_true
        rw [hnone]
        rfl

/-- Of the findings of a plan, the tasks are those that say they can be repaired and are not on lock
files. -/
theorem promised_tasks {p : Plan} (hp : ∀ rule ∈ p.rules, rule ∈ Registry.builtIn) (t : Tree) :
    (promised (findings (outcomes p t))).filter (!·.isOnLocks) = (tasks p t).map Task.reported := by
  have houtcome : ∀ outcome ∈ outcomes p t,
      (promised outcome.reported).filter (!·.isOnLocks) = (tasksOf outcome).map Task.reported := by
    intro outcome houtcome
    unfold outcomes Plan.pairs at houtcome
    obtain ⟨⟨root, rule⟩, hpair, rfl⟩ := List.mem_map.mp houtcome
    obtain ⟨_, -, hpair⟩ := List.mem_flatMap.mp hpair
    obtain ⟨_, hmem, heq⟩ := List.mem_map.mp hpair
    cases heq
    exact promised_outcome (hp _ (List.mem_filter.mp hmem).1) _ _ _ rfl
  unfold tasks findings
  generalize outcomes p t = os at houtcome ⊢
  induction os with
  | nil => rfl
  | cons outcome rest ih =>
    obtain ⟨hfirst, hrest⟩ := List.forall_mem_cons.mp houtcome
    rw [List.flatMap_cons, List.flatMap_cons, promised_append, List.filter_append, hfirst, ih hrest,
      List.map_append]

/-- The findings of a plan that say they can be repaired are the tasks, and some about lock files. -/
theorem count_tasks {p : Plan} (hp : ∀ rule ∈ p.rules, rule ∈ Registry.builtIn) (t : Tree) :
    (promised (findings (outcomes p t))).length =
      (tasks p t).length + (promisedLocks (findings (outcomes p t))).length := by
  have hsplit := List.length_eq_length_filter_add (l := promised (findings (outcomes p t)))
    (·.isOnLocks)
  rw [promised_tasks hp, List.length_map] at hsplit
  unfold promisedLocks
  omega

/-! ## The two runs -/

theorem plan_dry : plan none t current path o.dry = plan none t current path o := rfl

theorem plan_repairing : plan none t current path o.repairing = plan none t current path o := rfl

/-- A dry run and the real one fail alike, or both come to a result with the same findings. The dry
run then prints the number of repairs of the real one, the repairs that come to nothing and the
findings about lock files; it prints the number of repairs if and only if there are none of those. -/
theorem dryRun_foretells (t : Tree) (current : List String) (path : String) (o : Options) :
    (∃ fault, run none t current path o.dry = (.error fault, t) ∧
      run none t current path o.repairing = (.error fault, t)) ∨
    ∃ d d' t' v n, run none t current path o.dry = (.ok d, t) ∧
      run none t current path o.repairing = (.ok d', t') ∧
      visit none t current path o.repairing = (.ok v, t') ∧
      d'.findings = d.findings ∧ d'.fixedCount = some (v.fixedCount : Int) ∧
      Report.fixes true d =
        ["", "Dry-run: " ++ toString n ++ " issues would be fixed, no files were changed"] ∧
      n = v.fixedCount + v.failedCount + (promisedLocks d.findings).length ∧
      (n = v.fixedCount ↔
        (∀ a ∈ v.attempts, a.succeeded = true) ∧ promisedLocks d.findings = []) := by
  cases hplan : plan none t current path o with
  | error fault =>
    refine .inl ⟨fault, ?_, ?_⟩
    · unfold run visit
      rw [plan_dry, hplan]
    · unfold run visit
      rw [plan_repairing, hplan]
  | ok p =>
    refine .inr ?_
    have hrules : ∀ rule ∈ p.rules, rule ∈ Registry.builtIn := by
      obtain ⟨-, root, -, -, -, -, hrules⟩ := plan_eq_ok.mp hplan
      intro rule hrule
      rw [hrules] at hrule
      exact (Registry.mem_of_mem_choose hrule).1
    let v : Visit := ⟨p, outcomes p t, (performAll p.ignoreRules (tasks p t) t).1⟩
    have hcount : (promised v.findings).length =
        v.fixedCount + v.failedCount + (promisedLocks v.findings).length := by
      rw [fixedCount_add_failedCount, length_performAll]
      exact count_tasks hrules t
    refine ⟨(Visit.mk p (outcomes p t) []).diagnosis o.dry, v.diagnosis o.repairing,
      (performAll p.ignoreRules (tasks p t) t).2, v, (promised v.findings).length, ?_, ?_, ?_, rfl,
      rfl, rfl, hcount, ?_⟩
    · exact run_eq_ok.mpr ⟨p, hplan, rfl, rfl⟩
    · exact run_eq_ok.mpr ⟨p, hplan, rfl, rfl⟩
    · unfold visit
      rw [plan_repairing, hplan]
      rfl
    · have hfailed : v.failedCount = 0 ↔ ∀ a ∈ v.attempts, a.succeeded = true := by
        unfold Visit.failedCount
        rw [List.length_eq_zero_iff, List.filter_eq_nil_iff]
        simp
      rw [← hfailed, ← List.length_eq_zero_iff]
      show (promised v.findings).length = v.fixedCount ↔
        v.failedCount = 0 ∧ (promisedLocks v.findings).length = 0
      omega

/-! ## Two lock files -/

/-- A project with two lock files, and nothing else that is wrong. -/
def lockTree : Tree := ⟨[(["r"], .folder), (["r", ".gitignore"], .file "node_modules\n.env\n".toUTF8),
  (["r", "package-lock.json"], .file "\x7b\x7d".toUTF8), (["r", "yarn.lock"], .file "".toUTF8)]⟩

/-- The options of a run of the rules on hygiene. -/
def lockOptions : Options := { category := some "node" }

/-- The project, as it is described. -/
def lockProject : Project :=
  ⟨.generic, "r", "/r", .yarn, false, false, none, none, none, none, none⟩

/-- The plan of the run. -/
def lockPlan : Plan :=
  ⟨lockProject, .unset ["r"], none, [.whole lockProject .generic], Hygiene.rules⟩

theorem plan_lockTree : plan none lockTree [] "/r" lockOptions = .ok lockPlan := by
  refine plan_eq_ok.mpr ⟨fun name h => ?_, ["r"], ?_⟩
  · cases h
    decide
  · refine ⟨by decide +kernel, by decide +kernel, by decide +kernel, by decide +kernel, rfl⟩

/-- The dry run says that a finding would be repaired, and the run repairs none. -/
theorem dryRun_promises_lock : ∃ d d' t', run none lockTree [] "/r" lockOptions.dry = (.ok d, lockTree) ∧
    run none lockTree [] "/r" lockOptions.repairing = (.ok d', t') ∧
    Report.fixes true d = ["", "Dry-run: 1 issues would be fixed, no files were changed"] ∧
    d'.fixedCount = some 0 := by
  refine ⟨_, _, _, run_eq_ok.mpr ⟨lockPlan, plan_lockTree, rfl, rfl⟩,
    run_eq_ok.mpr ⟨lockPlan, plan_lockTree, rfl, rfl⟩, ?_, ?_⟩
  · decide +kernel
  · decide +kernel

end Run

end Checkup
