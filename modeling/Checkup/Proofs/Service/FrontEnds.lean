import Checkup.CommandLine.Execute
import Checkup.Proofs.CommandLine.Arguments
import Checkup.Proofs.Report.Json
import Checkup.Proofs.Run.Idempotence
import Checkup.Proofs.Run.Stages
import Checkup.Proofs.Service.Bodies

/-!
# Two ways to ask for a run

The command line and the service read their flags in ways of their own and tell results and faults in
ways of their own. Both come to what the run comes to, but the service can only send a result that is all
text.

* `Service.ofMembers_of_stated`, `Service.answer_eq`: the answer to a request that states the flags.
* `CommandLine.execute_check`: what the command line with the flags comes to.
* `Score.grade_eq_failing`: the failing grade is that of the failing scores.
* `front_ends_agree`: a run, its two command lines and its request side by side.
* `front_ends_apart`: a result that only the command line tells.
-/

namespace Checkup

/-! ## Sorts of faults -/

/-- The sorts of faults that are told apart: something is not there, something is no folder, a value is
not as it should be, and the rest. -/
inductive FaultSort
  | missing
  | notFolder
  | value
  | other
  deriving DecidableEq, Repr

def Fault.sort : Fault → FaultSort
  | .missing => .missing
  | .notFolder => .notFolder
  | .nulByte | .outsideRoot _ | .notText | .notEncodable => .value
  | .isFolder | .alreadyThere | .nameTooLong | .tooManyLinks | .linkLoop _ | .tooDeep => .other

def Yaml.Error.sort : Yaml.Error → FaultSort
  | .noSuchValue => .value
  | _ => .other

def DetectFault.sort : DetectFault → FaultSort
  | .notFound _ => .missing
  | .notDirectory _ => .notFolder
  | .access fault => fault.sort
  | .listing fault => fault.sort
  | .outsideProject => .value

def SettingsFault.sort : SettingsFault → FaultSort
  | .notText => .value
  | .badValue fault => fault.sort
  | .access fault => fault.sort
  | .unreadable .. | .malformed _ | .notMapping => .other

def RunFault.sort : RunFault → FaultSort
  | .unknownCategory _ => .value
  | .detection fault => fault.sort
  | .settings fault => fault.sort
  | .access fault => fault.sort

/-- The status of the answer about a fault of some sort. -/
def FaultSort.status : FaultSort → Nat
  | .missing => 404
  | .notFolder | .value => 400
  | .other => 500

theorem Service.runStatus_eq (fault : RunFault) : runStatus fault = fault.sort.status := by
  cases fault with
  | unknownCategory name => rfl
  | detection fault =>
    cases fault with
    | access fault => cases fault <;> rfl
    | listing fault => cases fault <;> rfl
    | _ => rfl
  | settings fault =>
    cases fault with
    | access fault => cases fault <;> rfl
    | badValue fault => cases fault <;> rfl
    | _ => rfl
  | access fault => cases fault <;> rfl

/-- The failing grade is that of the scores with which the command line fails. -/
theorem Score.grade_eq_failing {score : Int} :
    Score.grade score = Score.failing ↔ score < CommandLine.failingBelow := by
  have hleast : ∀ band ∈ bands, CommandLine.failingBelow ≤ band.1 ∧ band.2 ≠ failing := by decide
  unfold grade gradeReaching
  constructor
  · intro h
    by_contra hscore
    have hfind : (bands.find? fun band => decide (band.1 ≤ score)).isSome = true := by
      rw [List.find?_isSome]
      exact ⟨(50, "D"), by decide, decide_eq_true (Int.not_lt.mp hscore)⟩
    obtain ⟨band, hband⟩ := Option.isSome_iff_exists.mp hfind
    rw [hband] at h
    exact (hleast band (List.mem_of_find?_eq_some hband)).2 h
  · intro hscore
    have hnone : (bands.find? fun band => decide (band.1 ≤ score)) = none := by
      rw [List.find?_eq_none]
      intro band hband hreached
      have := (hleast band hband).1
      have := of_decide_eq_true hreached
      omega
    rw [hnone]

/-! ## The command line -/

namespace CommandLine

variable {f : Flags} {path : String} {style : Style} {s : Switch} {args : List Argument}

/-- What the command line with the flags comes to. -/
theorem execute_check (hf : f.Accepted path) (hs : style.AskedBy s)
    (hargs : args.Perm (.flag s :: f.arguments path)) (t : Tree) (current : List String)
    (time : String) : ∃ console, execute ("check" :: args.flatMap Argument.words) t current time =
      (.ok (endingOf style false f.dryRun console (run none t current path f.options).1),
        (run none t current path f.options).2) := by
  rw [execute, parse_check hf hs hargs]
  exact ⟨_, rfl⟩

end CommandLine

open CommandLine (Flags)

/-! ## The service -/

/-- The members of a request state a path and flags; those that are not set may be left out. -/
structure CommandLine.Flags.Stated (f : Flags) (path : String) (ms : Json.Members) : Prop where
  path : ms.get? "path" = some (.str path)
  category : (ms.get? "category").getD .null = .ofLabel? (f.category.map .text)
  project : (ms.get? "project").getD .null = .ofLabel? (f.project.map .text)
  fix : (ms.get? "fix").getD (.bool false) = .bool f.fix
  dryRun : (ms.get? "dry_run").getD (.bool false) = .bool f.dryRun

namespace Service

variable {f : Flags} {path : String} {ms : Json.Members}

theorem optionalText_eq {name : String} {text? : Option String}
    (h : (ms.get? name).getD .null = .ofLabel? (text?.map .text)) : optionalText ms name = .ok text? := by
  unfold optionalText
  cases hget : ms.get? name with
  | none =>
    rw [hget] at h
    cases text? with
    | none => rfl
    | some text => cases h
  | some value =>
    rw [hget, Option.getD_some] at h
    subst h
    cases text? <;> rfl

theorem flag_eq {name : String} {b : Bool}
    (h : (ms.get? name).getD (.bool false) = .bool b) : flag ms name = .ok b := by
  unfold flag
  cases hget : ms.get? name with
  | none =>
    rw [hget] at h
    cases h
    rfl
  | some value =>
    rw [hget, Option.getD_some] at h
    subst h
    rfl

theorem ofMembers_of_stated (h : f.Stated path ms) :
    Payload.ofMembers ms = .ok ⟨path, f.options⟩ := by
  have hpath : requiredText ms "path" = .ok path := by
    unfold requiredText
    rw [h.path]
  unfold Payload.ofMembers
  rw [hpath, optionalText_eq h.category, optionalText_eq h.project, flag_eq h.fix, flag_eq h.dryRun]
  rfl

/-- A request for a diagnosis with some body. -/
def request (body : String) : Request := ⟨"POST", "/diagnose", "application/json", body⟩

theorem run_of_no_root {o : Options} (hknown : Run.KnownCategory o) {t : Tree}
    {current : List String} {fault : Fault} (h : t.resolve current path = .error fault) :
    run none t current path o = (.error (.detection (.access fault)), t) := by
  have hdetect : Project.detect t current path = .error (.access fault) := by
    rw [Project.detect, Project.rootOf, h]
    rfl
  have hplan : Run.plan none t current path o = .error (.detection (.access fault)) := by
    unfold Run.plan
    rw [hdetect]
    cases hcategory : o.category with
    | none => rfl
    | some name =>
      dsimp only
      rw [hknown name hcategory]
      rfl
  exact Run.run_of_no_plan hplan

/-- If there is no root to be locked, the run fails for the same reason. -/
theorem diagnose_eq {p : Payload} (hknown : Run.KnownCategory p.options) (t : Tree)
    (current : List String) : diagnose p t current =
      (responseOf (run none t current p.path p.options).1,
        (run none t current p.path p.options).2) := by
  unfold diagnose
  split
  · rename_i fault hlock
    have hresolve : t.resolve current p.path = .error fault := by
      unfold Payload.lockRoot at hlock
      split at hlock
      · cases hroot : t.resolve current p.path with
        | error fault' =>
          rw [hroot] at hlock
          cases hlock
          rfl
        | ok root =>
          rw [hroot] at hlock
          cases hlock
      · cases hlock
    rw [run_of_no_root hknown hresolve]
    rfl
  · rfl

/-- The answer to a request that states the flags. -/
theorem answer_eq (hf : f.Accepted path) (hms : f.Stated path ms) {body : String}
    (hbody : Json.parse body.toList = .ok (.obj ms)) (t : Tree) (current : List String) :
    answer (request body) t current = (responseOf (run none t current path f.options).1,
      (run none t current path f.options).2) := by
  have hroute : routeOf (Target.path "/diagnose") = "/diagnose" := by decide
  have hpayload : Payload.ofBody "application/json" body = .ok ⟨path, f.options⟩ := by
    rw [Payload.ofBody_of_parse (by decide) hbody, ofMembers_of_stated hms]
  unfold answer request
  dsimp only
  rw [hroute]
  refine (if_pos rfl).trans ?_
  rw [hpayload]
  exact diagnose_eq (p := ⟨path, f.options⟩) hf.category t current

end Service

open CommandLine (Argument execute jsonSwitch scoreSwitch fixSwitch categorySwitch)

/-! ## Asking for the bare project -/

/-- The flags with which the bare project is repaired. -/
def bareFlags : Flags := ⟨some "node", none, true, false⟩

/-- The command line for a place, with its switches in some order. -/
def bareArguments (s : CommandLine.Switch) (path : String) : List Argument :=
  [.flag fixSwitch, .flag s, .place path, .value categorySwitch "node"]

/-- The members of a request for a place. -/
def bareMembers (path : String) : Json.Members :=
  [("fix", .bool true), ("category", .str "node"), ("path", .str path)]

theorem accepted_bareFlags {path : String} (h : Text.startsWith path "-" = false) :
    bareFlags.Accepted path :=
  ⟨h, fun _ hname => Option.some.inj hname ▸ by decide, nofun⟩

theorem perm_bareArguments (s : CommandLine.Switch) (path : String) :
    (bareArguments s path).Perm (.flag s :: bareFlags.arguments path) :=
  @List.perm_append_comm _ [Argument.flag fixSwitch] _

theorem parse_bareMembers (path : String) :
    Json.parse (Json.obj (bareMembers path)).pretty.toList = .ok (.obj (bareMembers path)) := by
  have hfits : Json.FitsIn (989 + 1) (.obj (bareMembers path)) := by
    refine Json.fitsIn_obj (by simp [bareMembers, Json.Members.keys]) rfl ?_
    simp only [bareMembers, List.forall_mem_cons]
    exact ⟨Json.fitsIn_bool _, Json.fitsIn_str _, Json.fitsIn_str _, List.forall_mem_nil _⟩
  rw [Json.pretty, String.toList_ofList, ← List.append_nil (Json.write _ _ _)]
  exact Json.parse_write Json.isBlank_indented hfits.readable hfits.shallow (List.forall_mem_nil _)

/-- The result of the run. -/
def bareDiagnosis : Diagnosis :=
  (Run.Visit.mk Run.barePlan (Run.outcomes Run.barePlan Run.bareTree)
    (Run.barePlan.repairs Run.bareTree bareFlags.options).1).diagnosis bareFlags.options

theorem told_bareDiagnosis : bareDiagnosis.score = 91 ∧ bareDiagnosis.grade = "A" ∧
    bareDiagnosis.fixedCount = some 2 ∧ bareDiagnosis.labels.all Label.isText = true ∧
      ∀ f ∈ bareDiagnosis.findings, f.line = none := by
  decide +kernel

theorem fits_bareDiagnosis : bareDiagnosis.Fits := by
  obtain ⟨-, -, hcount, -, hlines⟩ := told_bareDiagnosis
  constructor
  · intro f hf n hn
    rw [hlines f hf] at hn
    cases hn
  · intro n hn
    rw [hcount] at hn
    cases hn
    exact (by decide : 2 < 10 ^ 1).trans_le (Nat.pow_le_pow_right (by decide) (by decide))

/-! ## Side by side -/

/-- A command line for a check, with its switches in any order, and a request with the same flags come to
what the run comes to. As JSON the command line writes one text, which is read as the result; as a
score it fails if and only if the grade is the failing one; the answer is the result if all that it
says is text, and otherwise that the request is wrong. If the run comes to no result, nothing is
written to the standard output, the command fails, and the status of the answer is that of the sort of
fault. All leave the tree of the run. -/
theorem front_ends_agree {f : Flags} {path : String} (hf : f.Accepted path)
    {forJson forScore : List Argument} (hjson : forJson.Perm (.flag jsonSwitch :: f.arguments path))
    (hscore : forScore.Perm (.flag scoreSwitch :: f.arguments path)) {ms : Json.Members}
    (hms : f.Stated path ms) {body : String} (hbody : Json.parse body.toList = .ok (.obj ms))
    (t : Tree) (current : List String) (time : String) :
    match run none t current path f.options with
    | (.ok d, after) =>
      (∃ ending, execute ("check" :: forJson.flatMap Argument.words) t current time =
          (.ok ending, after) ∧ ending.exitCode = 0 ∧ ∃ text, ending.output = .text text ∧
          (d.Fits → Json.parse text.toList = .ok d.toJson)) ∧
        (∃ ending, execute ("check" :: forScore.flatMap Argument.words) t current time =
          (.ok ending, after) ∧ ending.output = .text (Number.intText d.score ++ "\n") ∧
          ending.exitCode = if d.grade = "F" then 1 else 0) ∧
        ∃ response, Service.answer (Service.request body) t current = (response, after) ∧
          (d.IsText → response = ⟨200, d.toJson⟩) ∧ (¬ d.IsText → response.status = 400)
    | (.error fault, after) =>
      (∀ args ∈ [forJson, forScore], ∃ ending,
          execute ("check" :: args.flatMap Argument.words) t current time = (.ok ending, after) ∧
          ending.exitCode = 1 ∧ ending.output = .text "") ∧
        ∃ detail, Service.answer (Service.request body) t current =
          (⟨fault.sort.status, detail⟩, after) := by
  obtain ⟨shown, hjson⟩ := CommandLine.execute_check hf .json hjson t current time
  obtain ⟨shown', hscore⟩ := CommandLine.execute_check hf .score hscore t current time
  rw [Service.answer_eq hf hms hbody]
  cases hrun : run none t current path f.options with
  | mk result after =>
    rw [hrun] at hjson hscore
    cases result with
    | ok d =>
      obtain ⟨p, -, hd, -⟩ := Run.run_eq_ok.mp hrun
      have hgrade : d.grade = Score.grade d.score := by rw [hd]; rfl
      refine ⟨⟨_, hjson, rfl, _, rfl, Run.parse_report hrun⟩, ⟨_, hscore, rfl, ?_⟩,
        _, rfl, Service.responseOf_run hrun⟩
      refine if_congr (decide_eq_true_iff.trans ?_) rfl rfl
      rw [hgrade]
      exact Score.grade_eq_failing.symm
    | error fault =>
      refine ⟨fun args hargs => ?_, .obj [("detail", .str fault.message)], ?_⟩
      · rcases List.mem_pair.mp hargs with rfl | rfl
        · exact ⟨_, hjson, rfl, rfl⟩
        · exact ⟨_, hscore, rfl, rfl⟩
      · rw [← Service.runStatus_eq]
        rfl

/-- The bare project is repaired on request and gets its score; a place that is not there is not found. -/
theorem front_ends_agree_bareTree :
    bareFlags.Accepted "/r" ∧ bareFlags.Accepted "/s" ∧
    (∃ after, run none Run.bareTree [] "/r" bareFlags.options = (.ok bareDiagnosis, after) ∧
      (∃ ending, execute ["check", "--fix", "--json", "/r", "--category", "node"] Run.bareTree [] "" =
          (.ok ending, after) ∧ ending.exitCode = 0 ∧ ∃ text, ending.output = .text text ∧
          Json.parse text.toList = .ok bareDiagnosis.toJson) ∧
      (∃ ending, execute ["check", "--fix", "--score", "/r", "--category", "node"] Run.bareTree [] "" =
          (.ok ending, after) ∧ ending.output = .text "91\n" ∧ ending.exitCode = 0) ∧
      Service.answer (Service.request (Json.obj (bareMembers "/r")).pretty) Run.bareTree [] =
          (⟨200, bareDiagnosis.toJson⟩, after)) ∧
    (∃ ending, execute ["check", "--fix", "--json", "/s", "--category", "node"] Run.bareTree [] "" =
      (.ok ending, Run.bareTree) ∧ ending.exitCode = 1 ∧ ending.output = .text "") ∧
    ∃ detail, Service.answer (Service.request (Json.obj (bareMembers "/s")).pretty) Run.bareTree [] =
      (⟨404, detail⟩, Run.bareTree) := by
  obtain ⟨hscore, hgrade, -, hall, -⟩ := told_bareDiagnosis
  have htext : bareDiagnosis.IsText := List.all_eq_true.mp hall
  have hrun := Run.run_of_plan (o := bareFlags.options) Run.plan_bareTree
  have hnoplan : Run.plan none Run.bareTree [] "/s" bareFlags.options =
    .error (.detection (.notFound "/s")) := rfl
  have hnone := Run.run_of_no_plan hnoplan
  -- The tree gets a name, or else the run is evaluated to see what is claimed of it.
  obtain ⟨t, ht⟩ : ∃ t, t = Run.bareTree := ⟨_, rfl⟩
  obtain ⟨after, hafter⟩ : ∃ after, run none Run.bareTree [] "/r" bareFlags.options =
    (.ok bareDiagnosis, after) := ⟨_, hrun⟩
  rw [← ht] at hafter hnone ⊢
  have hagree := front_ends_agree (accepted_bareFlags (by decide)) (perm_bareArguments jsonSwitch "/r")
    (perm_bareArguments scoreSwitch "/r") ⟨rfl, rfl, rfl, rfl, rfl⟩ (parse_bareMembers "/r") t [] ""
  have hrefused := front_ends_agree (accepted_bareFlags (by decide)) (perm_bareArguments jsonSwitch "/s")
    (perm_bareArguments scoreSwitch "/s") ⟨rfl, rfl, rfl, rfl, rfl⟩ (parse_bareMembers "/s") t [] ""
  rw [hafter] at hagree
  rw [hnone] at hrefused
  obtain ⟨⟨shown, hjson, hcode, text, houtput, hread⟩, ⟨scored, hexec, hout, hfails⟩,
    response, hanswer, hsent, -⟩ := hagree
  rw [hscore] at hout
  rw [hgrade] at hfails
  rw [hsent htext] at hanswer
  refine ⟨accepted_bareFlags (by decide), accepted_bareFlags (by decide), ⟨after, hafter,
    ⟨shown, hjson, hcode, text, houtput, hread fits_bareDiagnosis⟩, ⟨scored, hexec, hout, hfails⟩,
    hanswer⟩, ?_, ?_⟩
  · obtain ⟨ending, hexec, hcode, hout⟩ := hrefused.1 _ (List.mem_cons_self ..)
    exact ⟨ending, hexec, hcode, hout⟩
  · exact hrefused.2

/-! ## A name that cannot be sent -/

/-- A project whose name is half of a UTF-16 pair. -/
def halfTree : Tree :=
  ⟨[(["r"], .folder), (["r", "package.json"], .file "\x7b\"name\": \"\\ud800\"\x7d".toUTF8)]⟩

/-- The project, as it is described. -/
def halfProject : Project :=
  { Run.bareProject with name := .ofPoints [0xd800] }

/-- The plan of a run in it. -/
def halfPlan : Run.Plan :=
  { Run.barePlan with project := halfProject, roots := [.whole halfProject .generic] }

theorem plan_halfTree : Run.plan none halfTree [] "/r" bareFlags.options = .ok halfPlan := by
  refine Run.plan_eq_ok.mpr ⟨fun name h => ?_, ["r"], ?_⟩
  · cases h
    decide
  · refine ⟨by decide +kernel, by decide +kernel, by decide +kernel, by decide +kernel, rfl⟩

/-- The command line tells what the run comes to, and to the same request the answer is that it is wrong. -/
theorem front_ends_apart : ∃ d after, run none halfTree [] "/r" bareFlags.options = (.ok d, after) ∧
    (∃ ending, execute ["check", "--fix", "--json", "/r", "--category", "node"] halfTree [] "" =
      (.ok ending, after) ∧ ending.exitCode = 0 ∧ ending.output = .text (Report.json d)) ∧
    ∃ detail, Service.answer (Service.request (Json.obj (bareMembers "/r")).pretty) halfTree [] =
      (⟨400, detail⟩, after) := by
  obtain ⟨d, hproject, hrun⟩ : ∃ d, d.project = halfProject ∧ ∃ after,
      run none halfTree [] "/r" bareFlags.options = (.ok d, after) :=
    ⟨_, rfl, _, Run.run_of_plan (o := bareFlags.options) plan_halfTree⟩
  obtain ⟨after, hrun⟩ := hrun
  have hhalf : ¬ d.IsText := fun htext => by
    have hname := htext d.project.name (List.mem_append_left _ (List.mem_cons_self ..))
    rw [hproject] at hname
    cases hname
  obtain ⟨t, ht⟩ : ∃ t, t = halfTree := ⟨_, rfl⟩
  rw [← ht] at hrun ⊢
  obtain ⟨console, hexec⟩ := CommandLine.execute_check (accepted_bareFlags (by decide)) .json
    (perm_bareArguments jsonSwitch "/r") t [] ""
  have hanswer := Service.answer_eq (accepted_bareFlags (by decide)) ⟨rfl, rfl, rfl, rfl, rfl⟩
    (parse_bareMembers "/r") t []
  rw [hrun] at hexec hanswer
  have hstatus := (Service.responseOf_run hrun).2 hhalf
  refine ⟨d, after, hrun, ⟨_, hexec, rfl, rfl⟩, (Service.responseOf (.ok d)).body, ?_⟩
  rw [hanswer, ← hstatus]

end Checkup
