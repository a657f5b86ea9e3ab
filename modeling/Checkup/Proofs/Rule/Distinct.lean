import Checkup.Proofs.Project.Listing
import Checkup.Proofs.Repair.Dependencies
import Checkup.Proofs.Rule.Exports
import Checkup.Proofs.Scan.Files
import Checkup.Rule.Registry

/-!
# Findings of one rule

A report tells two findings apart by the rule, the file, the line and the message. A rule that goes
through files, lines, workspaces or entries says of each of them only once what is wrong with it.

* `Told`: findings of which something is known, no two of them alike.
* `told_builtIn`: what the built-in rules find in a root is told apart.
* `told_protocol`: the rule on versions of workspaces needs names from which its message can be read.
-/

namespace Checkup

/-- What a report tells of a finding. -/
structure Finding.Key where
  rule : String
  file : String
  line : Option Int
  message : Label
  deriving DecidableEq

/-- What a report tells of the finding. -/
def Finding.key (f : Finding) : Finding.Key := ⟨f.rule, f.file, f.line, f.message⟩

namespace Finding

variable {f g : Finding}

theorem rule_eq_of_key (h : f.key = g.key) : f.rule = g.rule := congrArg Key.rule h

theorem file_eq_of_key (h : f.key = g.key) : f.file = g.file := congrArg Key.file h

theorem line_eq_of_key (h : f.key = g.key) : f.line = g.line := congrArg Key.line h

theorem message_eq_of_key (h : f.key = g.key) : f.message = g.message := congrArg Key.message h

end Finding

/-- Findings of which something is known, no two of them alike. -/
structure Told (P : Finding → Prop) (fs : List Finding) : Prop where
  each : ∀ f ∈ fs, P f
  apart : fs.Pairwise fun f g => f.key ≠ g.key

namespace Told

variable {P Q : Finding → Prop} {fs : List Finding} {f : Finding} {α : Type} {l : List α}

theorem none : Told P [] := ⟨fun _ hf => absurd hf List.not_mem_nil, .nil⟩

theorem one (h : P f) : Told P [f] :=
  ⟨fun g hg => by rwa [List.mem_singleton.mp hg], List.pairwise_singleton _ f⟩

theorem mono (h : Told P fs) (himp : ∀ f, P f → Q f) : Told Q fs :=
  ⟨fun f hf => himp f (h.each f hf), h.apart⟩

theorem flatMap {P : α → Finding → Prop} {g : α → List Finding} (h : ∀ a ∈ l, Told (P a) (g a))
    (hl : l.Pairwise fun a b => ∀ f f', P a f → P b f' → f.key ≠ f'.key) :
    Told (fun f => ∃ a ∈ l, P a f) (l.flatMap g) := by
  constructor
  · intro f hf
    obtain ⟨a, ha, hf⟩ := List.mem_flatMap.mp hf
    exact ⟨a, ha, (h a ha).each f hf⟩
  · refine List.pairwise_flatMap.mpr ⟨fun a ha => (h a ha).apart, hl.imp_of_mem ?_⟩
    intro a b ha hb hab f hf f' hf'
    exact hab f f' ((h a ha).each f hf) ((h b hb).each f' hf')

theorem map {g : α → Finding} (h : ∀ a ∈ l, P (g a))
    (hl : l.Pairwise fun a b => (g a).key ≠ (g b).key) : Told P (l.map g) := by
  refine ⟨fun f hf => ?_, List.pairwise_map.mpr hl⟩
  obtain ⟨a, ha, rfl⟩ := List.mem_map.mp hf
  exact h a ha

/-- Findings about different files. -/
theorem files (file : α → String) {g : α → List Finding}
    (h : ∀ a ∈ l, Told (fun f => f.file = file a) (g a))
    (hl : l.Pairwise fun a b => file a ≠ file b) :
    Told (fun f => ∃ a ∈ l, f.file = file a) (l.flatMap g) := by
  refine flatMap h (hl.imp fun {a b} hne f f' hf hf' heq => hne ?_)
  rw [← hf, ← hf', Finding.file_eq_of_key heq]

end Told

theorem Path.Inside.of_plain {path : String} (h : Path.isAbsolute path = false ∧
    (∀ name ∈ Path.steps path, name ≠ "." ∧ name ≠ "..") ∧
      Text.joinWith "/" (Path.steps path) = path) : Path.Inside path := ⟨h.1, h.2.1, h.2.2⟩

/-- The rule finds nothing twice, and only in files below the root. -/
def Rule.TellsInside (r : Rule) : Prop := ∀ c t found, t.Named → r.check c t = .ok found →
  Told (fun f => Path.Inside f.file) found

theorem Rule.tells_ofCheck {info : RuleInfo} {check : Context → Tree → List Finding}
    (h : ∀ c t, t.Named → Told (fun f => Path.Inside f.file) (check c t)) :
    (Rule.ofCheck info check).TellsInside := by
  intro c t found ht hfound
  cases hfound
  exact h c t ht

theorem Rule.TellsInside.withFix {r : Rule} (h : r.TellsInside)
    (fix : Context → Tree → Finding → Repair) : (r.withFix fix).TellsInside := h

/-- What is found in a file is told apart if what is found in its members is. -/
theorem Rule.told_findingsIn {P : Finding → Prop} {report : Json.Members → List Finding}
    (h : ∀ members, Told P (report members)) {c : Context} {t : Tree} {path : String}
    {found : List Finding} (hfound : Rule.findingsIn c t path report = .ok found) : Told P found := by
  rw [Rule.findingsIn_eq] at hfound
  split at hfound
  · cases hfound
  · cases hfound
    cases c.readMembers? t path with
    | none => exact .none
    | some members => exact h members

/-! ## Applications -/

namespace Application

variable {t : Tree}

/-- Findings about files that a walk finds. -/
theorem told_files (ht : t.Named) (c : Context) {p : Pattern} {report : String → List Finding}
    (h : ∀ path, Told (fun f => f.file = path) (report path)) :
    Told (fun f => Path.Inside f.file) ((c.findFiles t p).flatMap report) := by
  refine (Told.files id (fun path _ => h path) (Context.nodup_findFiles ht c p)).mono ?_
  rintro f ⟨path, hpath, hfile⟩
  rw [hfile]
  exact Context.inside_of_mem_findFiles ht hpath

theorem told_forFiles {p : Pattern} {report : String → String → List Finding}
    (h : ∀ path text, Told (fun f => f.file = path) (report path text)) (c : Context)
    (ht : t.Named) : Told (fun f => Path.Inside f.file) (forFiles p report c t) := by
  refine told_files ht c fun path => ?_
  split
  · exact .none
  · exact h path _

theorem told_forLines {text path : String} {report : Nat → List Char → List Finding}
    (h : ∀ (number : Nat) (line : List Char),
      Told (fun f => f.file = path ∧ f.line = some (number : Int)) (report number line)) : Told (fun f => f.file = path) (forLines text report) := by
  have hlines := Text.numbers_apart text.toList
  refine (Told.flatMap (fun line _ => h line.1 line.2) (hlines.imp ?_)).mono ?_
  · rintro line line' hne f f' ⟨-, hf⟩ ⟨-, hf'⟩ heq
    have hsame := Finding.line_eq_of_key heq
    rw [hf, hf'] at hsame
    exact hne (by simpa using hsame)
  · rintro f ⟨_, -, hf, -⟩
    exact hf

theorem inside_rootLayouts : ∀ path ∈ rootLayouts, Path.Inside path := by
  have hall : ∀ path ∈ rootLayouts, Path.isAbsolute path = false ∧
      (∀ name ∈ Path.steps path, name ≠ "." ∧ name ≠ "..") ∧
        Text.joinWith "/" (Path.steps path) = path := by decide
  exact fun path hpath => .of_plain (hall path hpath)

theorem tells_rootLayout : RootLayout.rule.TellsInside := by
  refine Rule.tells_ofCheck fun c t _ => ?_
  unfold RootLayout.check
  split
  · exact .none
  · exact .one (inside_rootLayouts "app/layout.tsx" (by decide))

theorem tells_layoutTags : LayoutTags.rule.TellsInside := by
  refine Rule.tells_ofCheck fun c t _ => ?_
  unfold LayoutTags.check
  split
  · exact .none
  · rename_i path text hfound
    obtain ⟨path', hmem, hread⟩ := List.exists_of_findSome?_eq_some hfound
    obtain ⟨_, -, heq⟩ := Option.map_eq_some_iff.mp hread
    cases heq
    have hinside := inside_rootLayouts path hmem
    constructor
    · intro f hf
      have hfile : f.file = path := by
        split at hf <;> split at hf <;> simp at hf
        all_goals rcases hf with rfl | rfl <;> rfl
      rwa [hfile]
    · split <;> split <;> simp [Finding.key, RuleInfo.finding, RuleInfo.remark]

theorem tells_pageExport : PageExport.rule.TellsInside := by
  refine Rule.tells_ofCheck fun c t ht => told_forFiles (fun path text => ?_) c ht
  split
  · exact .none
  · exact .one rfl

theorem tells_pageMetadata : PageMetadata.rule.TellsInside := by
  refine Rule.tells_ofCheck fun c t ht => told_forFiles (fun path text => ?_) c ht
  split
  · exact .none
  · exact .one rfl

theorem tells_loadingState : LoadingState.rule.TellsInside := by
  refine Rule.tells_ofCheck fun c t ht => told_forFiles (fun path text => ?_) c ht
  split
  · exact .one rfl
  · exact .none

theorem tells_clientDirective : ClientDirective.rule.TellsInside := by
  refine (Rule.tells_ofCheck fun c t ht => told_files ht c fun path => ?_).withFix _
  split
  · exact .none
  split
  · exact .none
  split
  · exact .none
  split
  · exact .none
  · exact .one rfl

theorem tells_serverHooks : ServerHooks.rule.TellsInside := by
  refine Rule.tells_ofCheck fun c t ht => told_forFiles (fun path text => ?_) c ht
  split
  · exact .none
  refine told_forLines fun number line => ?_
  split
  · exact .none
  · exact .one ⟨rfl, rfl⟩

theorem tells_imageComponent : ImageComponent.rule.TellsInside := by
  refine Rule.tells_ofCheck fun c t ht =>
    told_forFiles (fun path text => told_forLines fun number line => ?_) c ht
  split
  · exact .one ⟨rfl, rfl⟩
  · exact .none

theorem tells_linkComponent : LinkComponent.rule.TellsInside := by
  refine Rule.tells_ofCheck fun c t ht =>
    told_forFiles (fun path text => told_forLines fun number line => ?_) c ht
  split
  · exact .none
  split
  · exact .none
  · exact .one ⟨rfl, rfl⟩

theorem tells_routeHandler : RouteHandler.rule.TellsInside := by
  refine Rule.tells_ofCheck fun c t ht => told_forFiles (fun path text => ?_) c ht
  split
  · exact .none
  · exact .one rfl

end Application

/-! ## Hygiene -/

namespace Hygiene

theorem tells_lockFile : SingleLockFile.rule.TellsInside := by
  refine Rule.tells_ofCheck fun c t _ => ?_
  have hfiles : ∀ file ∈ Manifest.fileName :: SingleLockFile.lockFiles,
      Path.isAbsolute file = false ∧ (∀ name ∈ Path.steps file, name ≠ "." ∧ name ≠ "..") ∧
        Text.joinWith "/" (Path.steps file) = file := by decide
  have hinside := fun file hfile => Path.Inside.of_plain (hfiles file hfile)
  unfold SingleLockFile.check
  split
  · exact .none
  split
  · exact .one (hinside _ (List.mem_cons_self ..))
  · exact .none
  · rename_i first others _ heq
    refine .one (hinside first (List.mem_cons_of_mem _ ?_))
    exact (List.mem_filter.mp (heq ▸ List.mem_cons_self ..)).1

theorem tells_nestedModules : NestedModules.rule.TellsInside := by
  refine Rule.tells_ofCheck fun c t _ => .map (fun folder hfolder => ?_) ?_
  · have hfolders : ∀ folder ∈ NestedModules.folders, Path.isAbsolute folder = false ∧
        (∀ name ∈ Path.steps folder, name ≠ "." ∧ name ≠ "..") ∧
          Text.joinWith "/" (Path.steps folder) = folder := by decide
    exact .of_plain (hfolders folder (List.mem_filter.mp hfolder).1)
  · have hnodup : NestedModules.folders.Nodup := by decide
    exact (hnodup.filter _).imp fun hne heq => hne (Finding.file_eq_of_key heq)

theorem inside_manifest : Path.Inside "package.json" :=
  Path.Inside.of_name (by constructor <;> decide)

theorem inside_settings : Path.Inside "tsconfig.json" :=
  Path.Inside.of_name (by constructor <;> decide)

theorem tells_strictTyping : StrictTyping.rule.TellsInside := by
  intro c t found _ hfound
  have hcheck : StrictTyping.check c t = .ok found := hfound
  unfold StrictTyping.check at hcheck
  split at hcheck
  · cases hcheck
    exact .none
  · refine Rule.told_findingsIn (fun settings => ?_) hcheck
    unfold StrictTyping.findings
    split
    · exact .none
    · exact .one inside_settings

theorem tells_engineVersion : EngineVersion.rule.TellsInside := by
  intro c t found _ hfound
  refine Rule.told_findingsIn (fun manifest => ?_) hfound
  unfold EngineVersion.findings
  split
  · exact .none
  · exact .one inside_manifest

theorem complaints_apart (p : Project) : (GitIgnore.required p).Pairwise fun e e' =>
    GitIgnore.complaint e ++ " in .gitignore" ≠ GitIgnore.complaint e' ++ " in .gitignore" := by
  have hall : ∀ entries ∈ [[⟨"node_modules", "node_modules"⟩, ⟨".env", ".env files"⟩],
      [⟨"node_modules", "node_modules"⟩, ⟨".env", ".env files"⟩, ⟨".next", ".next build dir"⟩]],
      (entries : List GitIgnore.Entry).Pairwise fun e e' =>
        GitIgnore.complaint e ++ " in .gitignore" ≠ GitIgnore.complaint e' ++ " in .gitignore" := by
    decide
  unfold GitIgnore.required
  split
  · exact hall _ (by simp)
  · exact hall _ (by simp)

theorem tells_gitIgnore : GitIgnore.rule.TellsInside := by
  have hinside : Path.Inside ".gitignore" := Path.Inside.of_name (by constructor <;> decide)
  refine (Rule.tells_ofCheck fun c t _ => ?_).withFix _
  unfold GitIgnore.check
  split
  · exact .none
  split
  · exact .one hinside
  · refine .map (fun _ _ => hinside) (((complaints_apart c.project).filter _).imp ?_)
    exact fun hne heq => hne (Label.text.inj (Finding.message_eq_of_key heq))

theorem tells_environmentExample : EnvironmentExample.rule.TellsInside := by
  refine Rule.tells_ofCheck fun c t _ => ?_
  unfold EnvironmentExample.check
  split
  · exact .one (.of_name (by constructor <;> decide))
  · exact .none

theorem file_withHelp (f : Finding) (help : Label) : (f.withHelp help).file = f.file := by
  unfold Finding.withHelp
  split <;> rfl

theorem tells_unusedDependencies : UnusedDependencies.rule.TellsInside := by
  intro c t found _ hfound
  refine Rule.told_findingsIn (fun manifest => ?_) hfound
  unfold UnusedDependencies.findings
  split
  · exact .none
  split
  · exact .none
  · refine .one ?_
    rw [file_withHelp]
    exact inside_manifest

end Hygiene

/-! ## Dead code -/

namespace DeadCode

/-- Findings about different files that a walk finds. -/
theorem told_found {t : Tree} (ht : t.Named) (c : Context) {p : Pattern} {found : List String}
    (hfound : found.Sublist (c.findFiles t p)) {report : String → Finding}
    (hfile : ∀ path, (report path).file = path) :
    Told (fun f => Path.Inside f.file) (found.map report) := by
  refine .map (fun path hpath => ?_) ?_
  · rw [hfile]
    exact Context.inside_of_mem_findFiles ht (hfound.subset hpath)
  · refine (hfound.nodup (Context.nodup_findFiles ht c p)).imp fun {path path'} hne heq => hne ?_
    rw [← hfile path, ← hfile path', Finding.file_eq_of_key heq]

theorem tells_orphanFiles : OrphanFiles.rule.TellsInside := by
  refine Rule.tells_ofCheck fun c t ht => ?_
  unfold OrphanFiles.check
  dsimp only
  split
  · exact .none
  · refine told_found (p := .sourceFiles) ht c ((List.take_sublist _ _).trans ?_) fun _ => rfl
    exact List.filter_sublist

theorem tells_unusedComponents : UnusedComponents.rule.TellsInside := by
  refine Rule.tells_ofCheck fun c t ht => ?_
  unfold UnusedComponents.check
  dsimp only
  split
  · exact .none
  · exact told_found ht c (List.filter_sublist.trans List.filter_sublist) fun _ => rfl

theorem message_inj {name name' : List Char}
    (h : UnusedExports.message name = UnusedExports.message name') : name = name' := by
  unfold UnusedExports.message at h
  have hlists := congrArg String.toList h
  simpa using hlists

theorem textsOf_sublist (c : Context) (t : Tree) (files : List String) :
    ((UnusedExports.textsOf c t files).map Prod.fst).Sublist files := by
  unfold UnusedExports.textsOf
  induction files with
  | nil => exact .refl _
  | cons path rest ih =>
    cases hread : c.readNonempty? t path with
    | none =>
      rw [List.filterMap_cons_none (by rw [hread]; rfl)]
      exact ih.cons path
    | some text =>
      rw [List.filterMap_cons_some (by rw [hread]; rfl)]
      exact ih.cons_cons path

theorem told_unusedExports {t : Tree} (ht : t.Named) (c : Context) :
    Told (fun f => Path.Inside f.file) (UnusedExports.findings c t) := by
  unfold UnusedExports.findings
  dsimp only
  split
  · exact .none
  have hsub := textsOf_sublist c t (c.findFiles t .sourceFiles)
  refine .map (fun e he => ?_) ?_
  · have hmem := (List.mem_filter.mp ((List.take_sublist _ _).subset he)).1
    obtain ⟨file, hfile, hexport⟩ := List.mem_flatMap.mp hmem
    obtain ⟨line, hstands⟩ := UnusedExports.stands_of_mem hexport
    have hpath : e.file ∈ c.findFiles t .sourceFiles := by
      rw [hstands.in_file]
      exact hsub.subset (List.mem_map_of_mem hfile)
    exact Context.inside_of_mem_findFiles ht hpath
  · have hnodup := UnusedExports.nodup_unused (UnusedExports.textsOf c t (c.findFiles t .sourceFiles))
    refine (hnodup.sublist (List.take_sublist _ _)).imp fun {e e'} hne heq => hne ?_
    have hline := Finding.line_eq_of_key heq
    obtain ⟨name, file, line⟩ := e
    obtain ⟨name', file', line'⟩ := e'
    obtain rfl : name = name' := message_inj (Label.text.inj (Finding.message_eq_of_key heq))
    obtain rfl : file = file' := Finding.file_eq_of_key heq
    obtain rfl : line = line' := by simpa [Finding.atLine] using hline
    rfl

theorem tells_unusedExports : UnusedExports.rule.TellsInside := by
  intro c t found ht hfound
  have hcheck : UnusedExports.check c t = .ok found := hfound
  unfold UnusedExports.check at hcheck
  cases hmanifest : Rule.members c t Manifest.fileName with
  | error fault =>
    rw [hmanifest] at hcheck
    cases hcheck
  | ok manifest =>
    rw [hmanifest] at hcheck
    cases hcheck
    dsimp only
    split
    · exact .none
    · exact told_unusedExports ht c

end DeadCode

/-! ## Monorepos -/

/-- What a message on the version of a workspace says behind the workspace's name. -/
def advice : String := " should use \"workspace:*\" instead of \""

/-- The names of the workspaces can be told from what a message says of them. -/
def Project.Clear (p : Project) : Prop := ∀ w ∈ p.workspaceList, w.name.contains advice = false

namespace Monorepo

variable {c : Context} {t : Tree}

theorem fileIn_ne {w w' : Workspace} (hne : Path.steps w.path ≠ Path.steps w'.path) (name : String)
    (hname : Path.isAbsolute name = false) : fileIn w name ≠ fileIn w' name := by
  intro heq
  have hsteps := congrArg Path.steps heq
  unfold fileIn at hsteps
  rw [Path.steps_join hname, Path.steps_join hname] at hsteps
  exact hne (List.append_cancel_right hsteps)

/-- Findings about a file of each workspace. -/
theorem told_workspaces (hlisted : c.project.Listed) (name : String)
    (hname : Path.isAbsolute name = false) {report : Workspace → List Finding}
    (h : ∀ w ∈ workspaces c, Told (fun f => f.file = fileIn w name) (report w)) :
    Told (fun _ => True) ((workspaces c).flatMap report) :=
  (Told.files (fileIn · name) h (hlisted.imp fun hne => fileIn_ne hne name hname)).mono fun _ _ => trivial

/-- Findings about a file of each workspace, which may not be readable. -/
theorem told_flatten (hlisted : c.project.Listed) (name : String) (hname : Path.isAbsolute name = false)
    {report : Workspace → Except RuleFault (List Finding)}
    (h : ∀ w ∈ workspaces c, ∀ found, report w = .ok found →
      Told (fun f => f.file = fileIn w name) found) {found : List Finding}
    (hfound : ((workspaces c).mapM report).map List.flatten = .ok found) :
    Told (fun _ => True) found := by
  rw [Except.eq_flatMap_of_flatten hfound]
  refine told_workspaces hlisted name hname fun w hw => ?_
  cases hreport : report w with
  | error fault => exact .none
  | ok found => exact h w hw found hreport

variable {found : List Finding}

theorem told_runnerConfig (hfound : RunnerConfig.check c t = .ok found) :
    Told (fun _ => True) found := by
  unfold RunnerConfig.check at hfound
  split at hfound
  · cases hfound
    exact .none
  · refine Rule.told_findingsIn (fun manifest => ?_) hfound
    unfold RunnerConfig.findings
    split
    · exact .one trivial
    · exact .none

theorem told_sharedCompilerConfig (hlisted : c.project.Listed) :
    Told (fun _ => True) (SharedCompilerConfig.check c t) := by
  unfold SharedCompilerConfig.check
  split
  · refine told_workspaces hlisted "tsconfig.json" (by decide) fun w _ => ?_
    dsimp only
    split
    · exact .none
    split
    · exact .none
    · exact .one rfl
  · exact .none

theorem told_rootDependencies (hfound : RootDependencies.check c t = .ok found) :
    Told (fun _ => True) found := by
  refine Rule.told_findingsIn (fun manifest => ?_) hfound
  unfold RootDependencies.findings
  split
  · exact .none
  dsimp only
  split
  · exact .none
  · exact .one trivial

theorem told_taskCoverage (hfound : TaskCoverage.check c t = .ok found) :
    Told (fun _ => True) found := by
  have hscripts : TaskCoverage.importantScripts.Pairwise fun s s' =>
      "Script \"" ++ s ++ "\" exists in workspaces but not in turbo pipeline" ≠
        "Script \"" ++ s' ++ "\" exists in workspaces but not in turbo pipeline" := by decide
  obtain ⟨config, -, hfound⟩ := Except.bind_eq_ok.mp hfound
  cases config with
  | none =>
    cases hfound
    exact .none
  | some config =>
    obtain ⟨declared, -, hfound⟩ := Except.bind_eq_ok.mp hfound
    cases hfound
    refine .map (fun _ _ => trivial) ((hscripts.filter _).imp ?_)
    exact fun hne heq => hne (Label.text.inj (Finding.message_eq_of_key heq))

theorem told_workspaceNames (hlisted : c.project.Listed) :
    Told (fun _ => True) (WorkspaceNames.check c t) := by
  unfold WorkspaceNames.check
  split
  · refine .map (fun _ _ => trivial) ((hlisted.filter _).imp fun hne heq => ?_)
    exact fileIn_ne hne "package.json" (by decide) (Finding.file_eq_of_key heq)
  · exact .none

/-! ### Versions of workspaces -/

theorem advice_unbordered : Text.Unbordered (Label.pointsOf advice) := by
  unfold advice
  decide

/-- A label that is followed by the advice is read off it, if the advice is not in it. -/
theorem eq_of_advice {name name' rest rest' mid : List Nat}
    (hname' : ¬ Label.pointsOf advice <:+: name') (hmid : name' = name ++ mid)
    (heq : Label.pointsOf advice ++ rest = mid ++ (Label.pointsOf advice ++ rest')) : mid = [] := by
  refine (advice_unbordered.eq_nil_or_prefix heq).resolve_right fun hbegin => ?_
  rw [hmid] at hname'
  exact hname' (hbegin.isInfix.trans (List.suffix_append name mid).isInfix)

theorem points_message (dependency version : Label) :
    (WorkspaceProtocol.message dependency version).points =
      dependency.points ++ (Label.pointsOf advice ++ (version.points ++ Label.pointsOf "\"")) := by
  unfold WorkspaceProtocol.message advice
  rw [Label.points_append, Label.points_append, Label.points_append]
  simp only [Label.points, List.append_assoc]

theorem dependency_of_message {d d' v v' : Label} (hd : d.contains advice = false)
    (hd' : d'.contains advice = false)
    (h : WorkspaceProtocol.message d v = WorkspaceProtocol.message d' v') : d = d' := by
  have hnot : ∀ {d : Label}, d.contains advice = false → ¬ Label.pointsOf advice <:+: d.points := by
    intro d hd hinfix
    rw [Label.contains_iff.mpr hinfix] at hd
    cases hd
  have hpoints := congrArg Label.points h
  rw [points_message, points_message] at hpoints
  refine Label.points_inj ?_
  rcases List.append_eq_append_iff.mp hpoints with ⟨mid, hmid, hrest⟩ | ⟨mid, hmid, hrest⟩
  · rw [hmid, eq_of_advice (hnot hd') hmid hrest, List.append_nil]
  · rw [hmid, eq_of_advice (hnot hd) hmid hrest, List.append_nil]

example : WorkspaceProtocol.message "a" "b should use \"workspace:*\" instead of \"c" =
    WorkspaceProtocol.message "a should use \"workspace:*\" instead of \"b" "c" := by decide

theorem told_protocol (hlisted : c.project.Listed) (hclear : c.project.Clear)
    (hfound : WorkspaceProtocol.check c t = .ok found) : Told (fun _ => True) found := by
  have hnames : ∀ name ∈ WorkspaceProtocol.names c, name.contains advice = false := by
    intro name hname
    obtain ⟨w, hw, rfl⟩ := List.mem_map.mp hname
    exact hclear w hw
  refine told_flatten hlisted "package.json" (by decide) (fun w _ found hw => ?_) hfound
  refine Rule.told_findingsIn (fun manifest => ?_) hw
  -- a finding names a dependency, which is the key of its entry
  have hentries := List.pairwise_map.mp (nodup_dependencies manifest)
  refine (Told.flatMap (P := fun entry f => f.file = fileIn w "package.json" ∧
    ∃ version, entry.1 ∈ WorkspaceProtocol.names c ∧
      f.message = WorkspaceProtocol.message entry.1 version) (fun entry _ => ?_)
    (hentries.imp ?_)).mono ?_
  · obtain ⟨dependency, value⟩ := entry
    dsimp only
    split
    · rename_i version _
      split
      · rename_i hmem
        exact .one ⟨rfl, version, List.contains_iff_mem.mp hmem, rfl⟩
      · exact .none
    · exact .none
  · rintro entry entry' hne f f' ⟨-, v, hmem, hf⟩ ⟨-, v', hmem', hf'⟩ heq
    have hmessage := Finding.message_eq_of_key heq
    rw [hf, hf'] at hmessage
    exact hne (dependency_of_message (hnames _ hmem) (hnames _ hmem') hmessage)
  · rintro f ⟨_, -, hfile, -⟩
    exact hfile

end Monorepo

/-! ## All rules -/

/-- No two built-in rules share an id. -/
theorem Registry.id_nodup_builtIn : (builtIn.map fun r => r.info.id).Nodup := by decide

theorem Registry.eq_of_id {r r' : Rule} (hr : r ∈ builtIn) (hr' : r' ∈ builtIn)
    (h : r.info.id = r'.info.id) : r = r' :=
  List.inj_on_of_nodup_map id_nodup_builtIn hr hr' h

/-- The rules that look at a workspace. -/
def Registry.local : List Rule := Application.rules ++ Hygiene.rules ++ DeadCode.rules

/-- A rule that looks at a workspace finds nothing twice, and only in files below the root. -/
theorem tells_local : ∀ r ∈ Registry.local, r.TellsInside := by
  unfold Registry.local Application.rules Hygiene.rules DeadCode.rules
  simp only [List.forall_mem_append, List.forall_mem_cons]
  refine ⟨⟨⟨Application.tells_rootLayout, Application.tells_layoutTags, Application.tells_pageExport,
    Application.tells_clientDirective, Application.tells_serverHooks, Application.tells_pageMetadata,
    Application.tells_imageComponent, Application.tells_linkComponent,
    Application.tells_routeHandler, Application.tells_loadingState, by simp⟩, Hygiene.tells_lockFile,
    Hygiene.tells_nestedModules, Hygiene.tells_strictTyping, Hygiene.tells_engineVersion,
    Hygiene.tells_gitIgnore, Hygiene.tells_environmentExample, Hygiene.tells_unusedDependencies,
    by simp⟩, DeadCode.tells_orphanFiles, DeadCode.tells_unusedExports,
    DeadCode.tells_unusedComponents, by simp⟩

/-- A rule for monorepos finds nothing twice; the rule on versions needs clear names. -/
theorem told_monorepo {c : Context} {t : Tree} (hlisted : c.project.Listed) {r : Rule}
    (hr : r ∈ Monorepo.rules)
    (hclear : r.info.id = Monorepo.WorkspaceProtocol.info.id → c.project.Clear) {found : List Finding}
    (hfound : r.check c t = .ok found) : Told (fun _ => True) found := by
  simp only [Monorepo.rules, List.mem_cons, List.not_mem_nil, or_false] at hr
  rcases hr with rfl | rfl | rfl | rfl | rfl | rfl
  · exact Monorepo.told_runnerConfig hfound
  · exact Monorepo.told_protocol hlisted (hclear rfl) hfound
  · cases hfound
    exact Monorepo.told_sharedCompilerConfig hlisted
  · exact Monorepo.told_rootDependencies hfound
  · exact Monorepo.told_taskCoverage hfound
  · cases hfound
    exact Monorepo.told_workspaceNames hlisted

/-- What a built-in rule finds in a root is told apart. -/
theorem told_builtIn {c : Context} {t : Tree} (ht : t.Named) (hlisted : c.project.Listed) {r : Rule}
    (hr : r ∈ Registry.builtIn)
    (hclear : r.info.id = Monorepo.WorkspaceProtocol.info.id → c.project.Clear) {found : List Finding}
    (hfound : r.check c t = .ok found) : Told (fun _ => True) found := by
  have hcases : r ∈ Registry.local ∨ r ∈ Monorepo.rules := by
    unfold Registry.builtIn at hr
    unfold Registry.local
    simp only [List.mem_append] at hr ⊢
    tauto
  rcases hcases with hlocal | hmonorepo
  · exact (tells_local r hlocal c t found ht hfound).mono fun _ _ => trivial
  · exact told_monorepo hlisted hmonorepo hclear hfound

end Checkup
