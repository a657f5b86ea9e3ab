import Checkup.Proofs.Run.Containment
import Checkup.Proofs.Service.Interleaving
import Checkup.Service.Basic

/-!
# Fixing requests side by side

A fixing request holds the lock of the root to which its path comes. Requests for one root are worked
on one after the other. A run however also writes in the workspaces of its project, and a request for
a workspace has a lock of its own.

* `Locks.number_eq_iff`: two paths have one lock if and only if they come to one root.
* `Service.fixing_requests`: what the locks of two requests keep apart, and where two requests may
  write one file.
* `Service.locks_apart_on_one_file`: two requests that write one file under different locks.
-/

namespace Checkup

variable {t : Tree} {current : List String}

namespace Locks

variable {locks after between later : Locks} {root : Location} {n m : Nat}

theorem idxOf_forRoot (locks : Locks) (root : Location) :
    (locks.forRoot root).2.roots.idxOf root = (locks.forRoot root).1 := by
  unfold forRoot
  dsimp only
  split
  · rfl
  · rename_i hnew
    have hmem : root ∉ locks.roots := fun hmem => hnew (List.contains_iff_mem.mpr hmem)
    rw [List.idxOf_append_of_notMem hmem, List.idxOf_cons_self, List.idxOf_eq_length hmem]
    rfl

/-- A lock that has been given out is given out again. -/
theorem number_of_prefix (hroots : (locks.forRoot root).2.roots <+: between.roots) :
    (between.forRoot root).1 = (locks.forRoot root).1 := by
  have hmem : root ∈ (locks.forRoot root).2.roots :=
    List.mem_of_getElem? (getElem?_forRoot locks root)
  obtain ⟨more, hmore⟩ := hroots
  show between.roots.idxOf root = _
  rw [← hmore, List.idxOf_append_of_mem hmem, idxOf_forRoot]

/-- Two paths have one lock if and only if they come to one root, whatever locks are given out in
between. -/
theorem number_eq_iff {p q : String} (hp : locks.forPath t current p = .ok (n, after))
    (hbetween : after.roots <+: between.roots)
    (hq : between.forPath t current q = .ok (m, later)) :
    n = m ↔ t.resolve current p = t.resolve current q := by
  obtain ⟨root, hroot, hn⟩ := number_of_forPath hp
  obtain ⟨root', hroot', hm⟩ := number_of_forPath hq
  constructor
  · rintro rfl
    obtain ⟨more, hmore⟩ := hbetween.trans (prefix_of_forPath hq)
    have hlt : n < after.roots.length := (List.getElem?_eq_some_iff.mp hn).1
    rw [← hmore, List.getElem?_append_left hlt, hn] at hm
    rw [hroot, hroot', Option.some.inj hm]
  · intro hsame
    rw [hroot, hroot'] at hsame
    cases hsame
    unfold forPath at hp hq
    rw [hroot] at hp
    rw [hroot'] at hq
    have hfirst : locks.forRoot root = (n, after) := Except.ok.inj hp
    have hsecond : between.forRoot root = (m, later) := Except.ok.inj hq
    have hnumber : (between.forRoot root).1 = (locks.forRoot root).1 :=
      number_of_prefix (by rw [hfirst]; exact hbetween)
    rw [hfirst, hsecond] at hnumber
    exact hnumber.symm

end Locks

namespace Service

/-- A run for the payload checks the directory at a location, links followed to their ends. -/
def Payload.Scans (p : Payload) (t : Tree) (current : List String) (base : Location) : Prop :=
  ∃ root project, Project.rootOf t current p.path = .ok root ∧
    Project.describe t root = .ok project ∧ project.IsBase t p.options.filter base

/-- The tree after a run for the payload. -/
def Payload.after (p : Payload) (t : Tree) (current : List String) : Tree :=
  (run none t current p.path p.options).2

/-- Undisturbed, the work is the run for a payload. -/
def Work.IsRun (w : Work (Except RunFault Diagnosis)) (p : Payload) (current : List String) : Prop :=
  ∀ t, w.play t = run none t current p.path p.options

/-- Two requests. -/
def both {α : Type} (first second : Job α) (isFirst : Bool) : Job α :=
  if isFirst then first else second

theorem both_lock {α : Type} {first second : Job α} (hlock : first.lock = second.lock) (i j : Bool) :
    (both first second i).lock = (both first second j).lock := by
  cases i <;> cases j
  · rfl
  · exact hlock.symm
  · exact hlock
  · rfl

/-- Two requests that share a lock come to what they come to one after the other. -/
theorem both_answered {α : Type} {first second : Job α} (hlock : first.lock = second.lock)
    {s : Scene Bool α} (h : Reaches (both first second) t s) {a b : α}
    (ha : s.stage true = .finished a) (hb : s.stage false = .finished b) :
    (∃ u, first.work.play t = (a, u) ∧ second.work.play u = (b, s.tree)) ∨
      ∃ u, second.work.play t = (b, u) ∧ first.work.play u = (a, s.tree) := by
  have hall : ∀ i, s.stage i = .finished (bif i then a else b) := by
    intro i
    cases i
    · exact hb
    · exact ha
  obtain ⟨order, hnodup, hmem, hplay⟩ := answered_one_by_one (both_lock hlock) h hall
  have hperm : order.Perm [true, false] :=
    (List.perm_ext_iff_of_nodup hnodup (by simp)).mpr fun i => by cases i <;> simp [hmem]
  obtain ⟨x, y, rfl⟩ := List.length_eq_two.mp hperm.length_eq
  have hne : x ≠ y := by simpa using hnodup
  simp only [oneByOne, List.map_cons, List.map_nil, Prod.mk.injEq, List.cons.injEq, true_and,
    and_true] at hplay
  obtain ⟨⟨hx, hy⟩, htree⟩ := hplay
  cases x with
  | true =>
    obtain rfl : y = false := by simpa using hne.symm
    exact .inl ⟨_, Prod.ext hx rfl, Prod.ext hy htree⟩
  | false =>
    obtain rfl : y = true := by simpa using hne.symm
    exact .inr ⟨_, Prod.ext hx rfl, Prod.ext hy htree⟩

/-- A run for a payload changes only what lies in the directories that it checks. -/
theorem Payload.scans_of_changes (hn : t.Named) (hf : t.Founded) (hl : t.Loopless) {p : Payload}
    {l : Location} (h : Changes t (p.after t current) l) :
    ∃ base, p.Scans t current base ∧ base <+: l := by
  unfold Payload.after at h
  cases hrun : run none t current p.path p.options with
  | mk result t' =>
    cases result with
    | error fault =>
      rw [hrun, Run.tree_of_error hrun] at h
      exact absurd rfl h
    | ok d =>
      obtain ⟨plan, hplan, -, -⟩ := Run.run_eq_ok.mp hrun
      obtain ⟨-, root, hroot, -⟩ := Run.plan_eq_ok.mp hplan
      obtain ⟨project, hdescribe, base, hbase, hbelow⟩ :=
        (Run.run_contained hn hf hl hroot p.options).1 l h
      exact ⟨base, ⟨root, project, hroot, hdescribe, hbase⟩, hbelow⟩

/-- Two requests have one lock if and only if their paths come to one root. Then they are never
worked on at a time, and they come to what the two runs come to one after the other. Two runs change
one file only if it lies in a directory that the one checks and in a directory that the other
checks. -/
theorem fixing_requests (hn : t.Named) (hf : t.Founded) (hl : t.Loopless) {p q : Payload}
    {locks after between later : Locks} {n m : Nat}
    (hp : locks.forPath t current p.path = .ok (n, after))
    (hbetween : after.roots <+: between.roots)
    (hq : between.forPath t current q.path = .ok (m, later)) :
    (n = m ↔ t.resolve current p.path = t.resolve current q.path) ∧
    (n = m → ∀ {first second}, first.IsRun p current → second.IsRun q current →
      ∀ {s}, Reaches (both ⟨n, first⟩ ⟨m, second⟩) t s →
        ¬ (s.Busy true ∧ s.Busy false) ∧
        ∀ {a b}, s.stage true = .finished a → s.stage false = .finished b →
          (∃ u, run none t current p.path p.options = (a, u) ∧
            run none u current q.path q.options = (b, s.tree)) ∨
          ∃ u, run none t current q.path q.options = (b, u) ∧
            run none u current p.path p.options = (a, s.tree)) ∧
    ∀ l, Changes t (p.after t current) l → Changes t (q.after t current) l →
      ∃ base base', p.Scans t current base ∧ q.Scans t current base' ∧ base <+: l ∧ base' <+: l := by
  refine ⟨Locks.number_eq_iff hp hbetween hq, fun hlock first second hfirst hsecond s hreach => ?_,
    fun l hchange hchange' => ?_⟩
  · refine ⟨fun ⟨hbusy, hbusy'⟩ => ?_, fun {a b} ha hb => ?_⟩
    · cases alone hreach true false hbusy hbusy' hlock
    · have hserial := both_answered hlock hreach ha hb
      simp only [hfirst _, hsecond _] at hserial
      exact hserial
  · obtain ⟨base, hscans, hbelow⟩ := Payload.scans_of_changes hn hf hl hchange
    obtain ⟨base', hscans', hbelow'⟩ := Payload.scans_of_changes hn hf hl hchange'
    exact ⟨base, base', hscans, hscans', hbelow, hbelow'⟩

/-! ## A project and its workspace -/

/-- A request for a project. -/
def projectRequest : Payload := ⟨"/w/r", Run.memberOptions⟩

/-- The same request with another spelling. -/
def spelledRequest : Payload := ⟨"/w/r/in/..", Run.memberOptions⟩

/-- A request for the workspace of the project. -/
def workspaceRequest : Payload := ⟨"/w/r/in", Run.memberOptions⟩

theorem fixing_requests_inTree : ∃ after later,
    Locks.empty.forPath Run.inTree [] projectRequest.path = .ok (0, after) ∧
    after.forPath Run.inTree [] spelledRequest.path = .ok (0, later) ∧
    ∀ {first second}, first.IsRun projectRequest [] → second.IsRun spelledRequest [] →
      ∀ {s}, Reaches (both ⟨0, first⟩ ⟨0, second⟩) Run.inTree s →
        ¬ (s.Busy true ∧ s.Busy false) := by
  have hp : Locks.empty.forPath Run.inTree [] projectRequest.path = .ok (0, ⟨[["w", "r"]]⟩) := rfl
  have hq : (Locks.mk [["w", "r"]]).forPath Run.inTree [] spelledRequest.path =
      .ok (0, ⟨[["w", "r"]]⟩) := rfl
  have ht := Run.ordinary_inTree
  refine ⟨_, _, hp, hq, fun hfirst hsecond s hreach => ?_⟩
  exact ((fixing_requests ht.named ht.founded ht.loopless hp (List.prefix_refl _) hq).2.1 rfl hfirst
    hsecond hreach).1

/-- The scan root of the workspace in a run for the project. -/
def memberRoot : ScanRoot := ⟨["w", "r", "in"], { Run.memberProject Run.inWorkspace with
  name := "in", root := "/w/r/in", isMonorepo := false, workspaces := none }, .generic, true, "in"⟩

/-- What a run for the project is going to do. -/
def projectPlan : Run.Plan := ⟨Run.memberProject Run.inWorkspace, .unset ["w", "r"], none,
  [.whole (Run.memberProject Run.inWorkspace) .monorepo, memberRoot], Hygiene.rules⟩

/-- The workspace as a project of its own. -/
def memberAlone : Project :=
  ⟨.generic, "in", "/w/r/in", .unknown, false, false, none, none, none, none, none⟩

/-- What a run for the workspace is going to do. -/
def workspacePlan : Run.Plan :=
  ⟨memberAlone, .unset ["w", "r", "in"], none, [.whole memberAlone .generic], Hygiene.rules⟩

theorem plan_projectRequest :
    Run.plan none Run.inTree [] "/w/r" Run.memberOptions = .ok projectPlan := by
  refine Run.plan_eq_ok.mpr ⟨fun name h => ?_, ["w", "r"], ?_⟩
  · cases h
    decide
  · refine ⟨by decide +kernel, by decide +kernel, by decide +kernel, by decide +kernel, rfl⟩

theorem plan_workspaceRequest :
    Run.plan none Run.inTree [] "/w/r/in" Run.memberOptions = .ok workspacePlan := by
  refine Run.plan_eq_ok.mpr ⟨fun name h => ?_, ["w", "r", "in"], ?_⟩
  · cases h
    decide
  · refine ⟨by decide +kernel, by decide +kernel, by decide +kernel, by decide +kernel, rfl⟩

/-- The manifest of the workspace does not state its engine. -/
def engineTask (root : ScanRoot) : Run.Task := ⟨root, Hygiene.EngineVersion.rule,
  (Hygiene.EngineVersion.info.finding "package.json" "Missing engines.node field").asFixable⟩

/-- A plan has the task if its root has a manifest that does not state the engine. -/
theorem mem_engineTask {plan : Run.Plan} {root : ScanRoot} (hroot : root ∈ plan.roots)
    (hrule : Hygiene.EngineVersion.rule ∈ plan.rules)
    (happlies : Hygiene.EngineVersion.info.applies root.kind = true)
    (hmanifest : ((root.context plan.ignoreRules).readMembers? Run.inTree "package.json").map
      Hygiene.EngineVersion.isStated = some false) : engineTask root ∈ Run.tasks plan Run.inTree := by
  have hfound : (engineTask root).finding ∈ Hygiene.EngineVersion.check
      (root.context plan.ignoreRules) Run.inTree :=
    mem_engine_iff.mpr ⟨Option.map_eq_some_iff.mp hmanifest, rfl⟩
  refine Run.mem_tasks_iff.mpr ⟨hroot, hrule, happlies, rfl, rfl, ?_⟩
  dsimp only [engineTask, Hygiene.EngineVersion.rule]
  exact hfound

/-- A run that has the task changes the manifest of the workspace. -/
theorem changes_manifest {path : String} {plan : Run.Plan} (root : ScanRoot)
    (hplan : Run.plan none Run.inTree [] path Run.memberOptions = .ok plan)
    (htask : engineTask root ∈ Run.tasks plan Run.inTree)
    (hedit : (engineTask root).IsEdit plan.ignoreRules ["w", "r", "in", "package.json"] .stateEngine) :
    Changes Run.inTree (run none Run.inTree [] path Run.memberOptions).2
      ["w", "r", "in", "package.json"] := by
  have hwritable : Run.inTree.Writable ["w", "r", "in", "package.json"] :=
    ⟨⟨by decide, by decide⟩, .inl ⟨_, rfl⟩⟩
  have hcontent : Run.inTree.content ["w", "r", "in", "package.json"] = some "\x7b\x7d" := by
    decide
  obtain ⟨d, t', hrun, hchange⟩ := Run.run_changes_of_task Run.ordinary_inTree hplan rfl htask hedit
    (not_settled hwritable hcontent (by decide))
  rw [hrun]
  exact hchange

/-- A run for a project and a run for its workspace change one file, and their locks differ. -/
theorem locks_apart_on_one_file : ∃ after later,
    Locks.empty.forPath Run.inTree [] projectRequest.path = .ok (0, after) ∧
    after.forPath Run.inTree [] workspaceRequest.path = .ok (1, later) ∧
    Changes Run.inTree (projectRequest.after Run.inTree []) ["w", "r", "in", "package.json"] ∧
    Changes Run.inTree (workspaceRequest.after Run.inTree []) ["w", "r", "in", "package.json"] := by
  have hmember : engineTask memberRoot ∈ Run.tasks projectPlan Run.inTree :=
    mem_engineTask (List.mem_of_getElem? (i := 1) rfl) (List.mem_of_getElem? (i := 3) rfl)
      (by decide) (by decide +kernel)
  have halone : engineTask (.whole memberAlone .generic) ∈ Run.tasks workspacePlan Run.inTree :=
    mem_engineTask (List.mem_of_getElem? (i := 0) rfl) (List.mem_of_getElem? (i := 3) rfl)
      (by decide) (by decide +kernel)
  exact ⟨⟨[["w", "r"]]⟩, ⟨[["w", "r"], ["w", "r", "in"]]⟩, by decide +kernel, by decide +kernel,
    changes_manifest memberRoot plan_projectRequest hmember ⟨"package.json", .engine, by decide +kernel⟩,
    changes_manifest (.whole memberAlone .generic) plan_workspaceRequest halone
      ⟨"package.json", .engine, by decide +kernel⟩⟩

end Service

end Checkup
