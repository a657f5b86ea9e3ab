import Checkup.Proofs.Run.Targets
import Checkup.Proofs.Scan.Files

/-!
# The files that a run writes

A run of the built-in rules on a tree without links makes no folder and removes nothing. It rewrites
manifests and compiler settings that are there, files with markup that its findings name, and the
file of ignored paths of the project, which it may also make.

* `run_tree`: the tree after a run.
* `run_writes`: the files that a run changes.
-/

namespace Checkup

variable {t t' : Tree} {current : List String} {path : String} {o : Options} {d : Diagnosis}

/-- The directories of a project and of its workspaces. -/
def Project.directories (p : Project) : List Location :=
  Path.steps p.root ::
    p.workspaceList.map fun w => Path.normalSteps true (Path.steps w.absolutePath)

/-- The place of the file that a finding names. -/
def Diagnosis.placeOf (d : Diagnosis) (f : Finding) : Location :=
  Path.normalSteps true (Path.steps d.project.root ++ Path.steps f.file)

/-- There is a file at a location. -/
def Tree.HasFile (t : Tree) (l : Location) : Prop := ∃ bytes, t.node? l = some (.file bytes)

/-- The name has one of some endings. -/
def EndsIn (endings : List String) (name : String) : Prop :=
  ∃ ending ∈ endings, ending.toList <:+ name.toList

/-- The files that a run may write, by what it comes to; `endings` are those of files with markup. -/
inductive MayWrite (endings : List String) (t : Tree) (d : Diagnosis) : Location → Prop
  | manifest {directory : Location} (hd : directory ∈ d.project.directories) {name : String}
    (hname : name = "package.json" ∨ name = "tsconfig.json") (h : t.HasFile (directory ++ [name])) :
    MayWrite endings t d (directory ++ [name])
  | ignored : MayWrite endings t d (Path.steps d.project.root ++ [".gitignore"])
  | markup {f : Finding} (hf : f ∈ d.findings) (hrule : f.rule = "nextjs/client-directive")
    (hfixable : f.fixable = true) {name : String} (hlast : (d.placeOf f).getLast? = some name)
    (hname : EndsIn endings name) (h : t.HasFile (d.placeOf f)) : MayWrite endings t d (d.placeOf f)

/-- A run changes what stands at a location. -/
def Changes (t t' : Tree) (l : Location) : Prop := t'.node? l ≠ t.node? l

/-- The last name of a location ends in a newline. -/
def EndsInNewline (l : Location) : Prop := ∃ name ∈ l.getLast?, EndsIn ["\n"] name

theorem MayWrite.of_no_newline {l : Location} (h : MayWrite markupEndings t d l)
    (hl : ¬ EndsInNewline l) : MayWrite [".tsx", ".jsx"] t d l := by
  cases h with
  | manifest hd hname h => exact .manifest hd hname h
  | ignored => exact .ignored
  | @markup f hf hrule hfixable name hlast hname h =>
    refine .markup hf hrule hfixable hlast ?_ h
    have hnewline : ∀ ending ∈ markupEndings, ending ∈ [".tsx", ".jsx"] ∨
        "\n".toList <:+ ending.toList := by decide
    obtain ⟨ending, hending, hsuffix⟩ := hname
    rcases hnewline ending hending with hproper | hn
    · exact ⟨ending, hproper, hsuffix⟩
    · exact absurd ⟨name, hlast, "\n", List.mem_singleton_self _, hn.trans hsuffix⟩ hl

theorem getLast?_of_suffix {s text : List Char} (hne : s ≠ []) (h : s <:+ text) :
    text.getLast? = s.getLast? := by
  obtain ⟨front, rfl⟩ := h
  rw [List.getLast?_append, Option.or_of_isSome]
  rwa [List.getLast?_isSome]

theorem not_endsIn_newline {name ending : String}
    (hending : ending ∈ ["package.json", "tsconfig.json", ".gitignore", ".tsx", ".jsx"])
    (hsuffix : ending.toList <:+ name.toList) : ¬ EndsIn ["\n"] name := by
  have hends : ∀ e ∈ ["package.json", "tsconfig.json", ".gitignore", ".tsx", ".jsx"],
      e.toList.getLast? ≠ some '\n' ∧ e.toList ≠ [] := by decide
  rintro ⟨newline, hmem, hnewline⟩
  obtain rfl := List.mem_singleton.mp hmem
  have hlast := getLast?_of_suffix (by decide) hnewline
  rw [getLast?_of_suffix (hends ending hending).2 hsuffix] at hlast
  exact (hends ending hending).1 hlast

theorem MayWrite.no_newline {l : Location} (h : MayWrite [".tsx", ".jsx"] t d l) :
    ¬ EndsInNewline l := by
  rintro ⟨last, hlast', hnewline⟩
  cases h with
  | manifest _ hname =>
    rw [List.getLast?_concat] at hlast'
    obtain rfl := Option.some.inj hlast'
    rcases hname with rfl | rfl
    · exact not_endsIn_newline (by decide) (List.suffix_refl _) hnewline
    · exact not_endsIn_newline (by decide) (List.suffix_refl _) hnewline
  | ignored =>
    rw [List.getLast?_concat] at hlast'
    obtain rfl := Option.some.inj hlast'
    exact not_endsIn_newline (by decide) (List.suffix_refl _) hnewline
  | markup _ _ _ hlast hname =>
    rw [hlast] at hlast'
    obtain rfl := Option.some.inj hlast'
    obtain ⟨ending, hending, hsuffix⟩ := hname
    have hproper : ∀ e ∈ [".tsx", ".jsx"],
        e ∈ ["package.json", "tsconfig.json", ".gitignore", ".tsx", ".jsx"] := by decide
    exact not_endsIn_newline (hproper ending hending) hsuffix hnewline

namespace Run

/-- What a run comes to, by its plan. -/
theorem run_eq_ok {given : Option (List Rule)} : run given t current path o = (.ok d, t') ↔
    ∃ p, plan given t current path o = .ok p ∧
      d = (Visit.mk p (outcomes p t) (if o.fix && !o.dryRun then
        (performAll p.ignoreRules (tasks p t) t).1 else [])).diagnosis o ∧
      t' = if o.fix && !o.dryRun then (performAll p.ignoreRules (tasks p t) t).2 else t := by
  unfold run visit
  cases plan given t current path o with
  | error fault =>
    exact iff_of_false (fun h => by cases h) fun ⟨_, h, _⟩ => by cases h
  | ok p =>
    simp only [Except.ok.injEq, exists_eq_left']
    unfold tasks
    cases o.fix && !o.dryRun with
    | false =>
      constructor
      · intro h
        cases h
        exact ⟨rfl, rfl⟩
      · rintro ⟨rfl, rfl⟩
        rfl
    | true =>
      constructor
      · intro h
        cases h
        exact ⟨rfl, rfl⟩
      · rintro ⟨rfl, rfl⟩
        rfl

theorem tree_of_error {given : Option (List Rule)} {fault : RunFault}
    (h : run given t current path o = (.error fault, t')) : t' = t := by
  unfold run visit at h
  cases hplan : plan given t current path o with
  | error fault' =>
    rw [hplan] at h
    cases h
    rfl
  | ok p =>
    rw [hplan] at h
    cases hfix : o.fix && !o.dryRun with
    | false =>
      rw [hfix] at h
      cases h
    | true =>
      rw [hfix] at h
      cases h

theorem rules_of_tasks {root : Location} {p : Plan} (hp : Planned t root p) :
    ∀ task ∈ tasks p t, task.rule ∈ Registry.fixing := by
  intro task htask
  obtain ⟨-, hrule, -, hfix, -⟩ := mem_tasks_iff.mp htask
  exact mem_fixing (hp.rules task.rule hrule) hfix

/-- The tree after the tasks of a plan is amended by edits that a run can make, and every edit of a
task is settled in it. -/
theorem tasks_amended {root : Location} {p : Plan} (hp : Planned t root p) :
    Amended (Target root p.project (findings (outcomes p t))) t
        (performAll p.ignoreRules (tasks p t) t).2 ∧
      ∀ task ∈ tasks p t, ∀ l a, task.IsEdit p.ignoreRules l a →
        Settled (performAll p.ignoreRules (tasks p t) t).2 l a :=
  performAll_amended (aimed_target hp _) hp.ordinary (rules_of_tasks hp)
    fun _ htask _ _ hedit => target_of_task hp htask hedit

/-- The tree after a run is amended by edits that the run can make. -/
theorem run_tree (ht : t.Ordinary) (h : run none t current path o = (.ok d, t')) :
    ∃ root p, Planned t root p ∧ d.project = p.project ∧ d.findings = findings (outcomes p t) ∧
      Amended (Target root p.project (findings (outcomes p t))) t t' := by
  obtain ⟨p, hplan, rfl, rfl⟩ := run_eq_ok.mp h
  obtain ⟨root, -, hp⟩ := planned_of_plan ht hplan
  refine ⟨root, p, hp, rfl, rfl, ?_⟩
  split
  · exact (tasks_amended hp).1
  · exact .refl

/-- A fixing run changes the file for which a task has something to do. -/
theorem run_changes_of_task (ht : t.Ordinary) {p : Plan} (hplan : plan none t current path o = .ok p)
    (hfix : (o.fix && !o.dryRun) = true) {task : Task} (htask : task ∈ tasks p t) {l : Location}
    {a : Amendment} (hedit : task.IsEdit p.ignoreRules l a) (hs : ¬ Settled t l a) :
    ∃ d t', run none t current path o = (.ok d, t') ∧ Changes t t' l := by
  obtain ⟨root, -, hp⟩ := planned_of_plan ht hplan
  obtain ⟨hamended, hsettled⟩ := tasks_amended hp
  have haimed := aimed_target hp (findings (outcomes p t))
  have hgrown := hamended.grown haimed ht
  have hplain := haimed.plain (target_of_task hp htask hedit)
  refine ⟨_, _, run_eq_ok.mpr ⟨p, hplan, rfl, (if_pos hfix).symm⟩, fun hsame => hs fun s ha hw => ?_⟩
  rw [← Tree.content_congr hgrown.old hgrown.new hplain hsame] at ha
  exact hsettled task htask l a hedit s ha ((hgrown.writable_iff l).mpr hw)

/-- The place of the file that a finding names, from the directory of the project. -/
theorem Planned.placeOf_eq {root : Location} {p : Plan} (hp : Planned t root p)
    (hproject : d.project = p.project) (f : Finding) :
    d.placeOf f = Tree.lexical root (Path.steps f.file) := by
  have hhere : "." ∉ root ++ Path.steps f.file := by
    intro hmem
    rcases List.mem_append.mp hmem with hmem | hmem
    · exact (hp.plain "." hmem).1 rfl
    · exact Path.not_here_steps _ hmem
  unfold Diagnosis.placeOf
  rw [hproject, hp.steps, Path.normalSteps_eq hhere, Tree.lexical_append,
    Tree.lexical_of_plain hp.plain, List.nil_append]

/-- What the edits of a run amend may be written by it. -/
theorem mayWrite_of_target {root : Location} {p : Plan} (hp : Planned t root p)
    (hproject : d.project = p.project) (hfindings : d.findings = findings (outcomes p t))
    {l : Location} {a : Amendment} (h : Target root p.project (findings (outcomes p t)) l a)
    (hl : t.HasFile l ∨ l.getLast? = some ".gitignore") : MayWrite markupEndings t d l := by
  have hroot : Path.steps d.project.root = root := by rw [hproject, hp.steps]
  have hdirectory : ∀ {directory}, IsScanned root p.project directory →
      directory ∈ d.project.directories := by
    unfold Project.directories
    rw [hroot, hproject]
    rintro _ (rfl | ⟨w, hw, rfl⟩)
    · exact List.mem_cons_self ..
    · refine List.mem_cons_of_mem _ (List.mem_map.mpr ⟨w, hw, ?_⟩)
      exact Path.normalSteps_eq (Path.not_here_steps _)
  have hfile : ∀ {name}, l.getLast? = some name → name ≠ ".gitignore" → t.HasFile l := by
    intro name hlast hne
    refine hl.resolve_right fun hignored => hne ?_
    rw [hlast] at hignored
    exact Option.some.inj hignored
  cases h with
  | settings hs =>
    exact .manifest (hdirectory hs) (.inr rfl) (hfile List.getLast?_concat (by decide))
  | manifest hs =>
    exact .manifest (hdirectory hs) (.inl rfl) (hfile List.getLast?_concat (by decide))
  | ignored =>
    rw [← hroot]
    exact .ignored
  | @markup f hf hw name hlast hname =>
    have hplace := hp.placeOf_eq hproject f
    have hne : name ≠ ".gitignore" := by
      rintro rfl
      exact Amendment.not_isMarkup _ (by decide) hname
    have hthere := hfile hlast hne
    rw [← hplace] at hlast hthere ⊢
    exact .markup (hfindings ▸ hf) hw.1 hw.2 hlast hname hthere

theorem run_changes (ht : t.Ordinary) {result : Except RunFault Diagnosis}
    (h : run none t current path o = (result, t')) :
    (∀ l, t.node? l ≠ none → t'.node? l ≠ none) ∧
      (∀ l, t'.node? l = some .folder ↔ t.node? l = some .folder) ∧
      ∀ l, Changes t t' l → ∃ d, result = .ok d ∧ t'.HasFile l ∧ MayWrite markupEndings t d l := by
  cases result with
  | error fault =>
    obtain rfl := tree_of_error h
    exact ⟨fun _ h => h, fun _ => Iff.rfl, fun _ h => absurd rfl h⟩
  | ok d =>
    obtain ⟨root, p, hp, hproject, hfindings, hamended⟩ := run_tree ht h
    have haimed := aimed_target hp (findings (outcomes p t))
    have hgrown := hamended.grown haimed ht
    refine ⟨fun l hl hnone => ?_, fun _ => hgrown.folder, fun l hl => ⟨d, rfl, ?_⟩⟩
    · cases hn : t.node? l with
      | none => exact hl hn
      | some node =>
        cases node with
        | file bytes =>
          obtain ⟨bytes', hb⟩ := hgrown.file hn
          rw [hnone] at hb
          cases hb
        | folder =>
          rw [hgrown.folder.mpr hn] at hnone
          cases hnone
        | link target => exact ht.no_link hn
    · have hfiles : t'.HasFile l ∧ (t.HasFile l ∨ l.getLast? = some ".gitignore") := by
        cases hn : t.node? l with
        | none =>
          rcases hgrown.none_or_file hn with hnone | ⟨bytes, hb, hlast⟩
          · exact absurd (hnone.trans hn.symm) hl
          · exact ⟨⟨bytes, hb⟩, .inr hlast⟩
        | some node =>
          cases node with
          | file bytes => exact ⟨hgrown.file hn, .inl ⟨bytes, hn⟩⟩
          | folder => exact absurd ((hgrown.folder.mpr hn).trans hn.symm) hl
          | link target => exact absurd hn ht.no_link
      obtain ⟨a, htarget⟩ : ∃ a, Target root p.project (findings (outcomes p t)) l a := by
        by_contra hnone
        push Not at hnone
        exact hl (hamended.node?_eq haimed hnone)
      exact ⟨hfiles.1, mayWrite_of_target hp hproject hfindings htarget hfiles.2⟩

/-- A run removes nothing and makes no folder. It changes only files that it may write, where a
newline at the end of a name goes unnoticed; without such names it keeps to files with markup. -/
theorem run_writes (ht : t.Ordinary) (current : List String) (path : String) (o : Options) :
    (∀ l, t.node? l ≠ none → (run none t current path o).2.node? l ≠ none) ∧
      (∀ l, (run none t current path o).2.node? l = some .folder ↔ t.node? l = some .folder) ∧
      (∀ l, Changes t (run none t current path o).2 l → ∃ d, (run none t current path o).1 = .ok d ∧
        (run none t current path o).2.HasFile l ∧ MayWrite markupEndings t d l) ∧
      ((∀ l, Changes t (run none t current path o).2 l →
          ∃ d, (run none t current path o).1 = .ok d ∧ MayWrite [".tsx", ".jsx"] t d l) ↔
        ∀ l, Changes t (run none t current path o).2 l → ¬ EndsInNewline l) := by
  obtain ⟨hthere, hfolder, hwrite⟩ := run_changes ht (Prod.eta (run none t current path o)).symm
  refine ⟨hthere, hfolder, hwrite, fun h l hl => ?_, fun h l hl => ?_⟩
  · obtain ⟨d, -, hd⟩ := h l hl
    exact hd.no_newline
  · obtain ⟨d, hd, -, hw⟩ := hwrite l hl
    exact ⟨d, hd, hw.of_no_newline (h l hl)⟩

/-! ## A name that ends in a newline -/

/-- An application with a file with markup, but for the newline at the end of its name. -/
def newlineTree : Tree := ⟨[(["r"], .folder), (["r", "a.tsx\n"], .file "useState".toUTF8),
  (["r", "package.json"], .file "\x7b\"dependencies\":\x7b\"next\":\"1\"\x7d\x7d".toUTF8)]⟩

/-- A fixing run of the rules on applications. -/
def newlineOptions : Options := { fix := true, category := some "nextjs" }

/-- The application, as it is described. -/
def newlineProject : Project :=
  ⟨.frameworkApp, "r", "/r", .unknown, false, false, none, none, some "1", none, none⟩

/-- The plan of the run. -/
def newlinePlan : Plan :=
  ⟨newlineProject, .unset ["r"], none, [.whole newlineProject .frameworkApp], Application.rules⟩

theorem ordinary_newlineTree : newlineTree.Ordinary := Tree.ordinary_of_entries (by decide)

theorem run_writes_newlineTree : newlineTree.Ordinary ∧
    ∀ l, Changes newlineTree (run none newlineTree [] "/r" newlineOptions).2 l →
      ∃ d, (run none newlineTree [] "/r" newlineOptions).1 = .ok d ∧
        (run none newlineTree [] "/r" newlineOptions).2.HasFile l ∧
        MayWrite markupEndings newlineTree d l :=
  ⟨ordinary_newlineTree, (run_writes ordinary_newlineTree [] "/r" newlineOptions).2.2.1⟩

theorem plan_newlineTree : plan none newlineTree [] "/r" newlineOptions = .ok newlinePlan := by
  refine plan_eq_ok.mpr ⟨fun name h => ?_, ["r"], ?_⟩
  · cases h
    decide
  · refine ⟨by decide +kernel, by decide +kernel, by decide +kernel, by decide +kernel, rfl⟩

theorem namesIn_newlineTree : Context.namesIn newlineTree ["r"] = ["a.tsx\n", "package.json"] := by
  rw [Context.namesIn_of_sorted (l := ["r"]) (by decide) (by decide)]
  decide

/-- The view that rules get of the application. -/
def newlineContext : Context :=
  (ScanRoot.whole newlineProject .frameworkApp).context newlinePlan.ignoreRules

theorem findFiles_newlineTree : newlineContext.findFiles newlineTree .markupFiles = ["a.tsx\n"] := by
  have hroot : newlineContext.root = ["r"] := by decide
  rw [Context.findFiles_eq_flatMap, hroot, namesIn_newlineTree]
  decide

/-- What the run finds wrong with the file. -/
def newlineFinding : Finding :=
  (Application.ClientDirective.info.finding "a.tsx\n"
    ("Uses " ++ "useState" ++ " but missing \"use client\" directive")).asFixable

/-- What is to be done about it. -/
def newlineTask : Task :=
  ⟨.whole newlineProject .frameworkApp, Application.ClientDirective.rule, newlineFinding⟩

theorem mem_newlineTask : newlineTask ∈ tasks newlinePlan newlineTree := by
  refine mem_tasks_iff.mpr ⟨List.mem_cons_self .., ?_, by decide, rfl, rfl, _, rfl, ?_⟩
  · exact List.mem_of_getElem? (i := 3) rfl
  · refine mem_directive_iff.mpr ⟨"a.tsx\n", ?_, by decide, "useState", by decide,
      by decide, "useState", by decide, rfl⟩
    exact findFiles_newlineTree ▸ List.mem_singleton_self _

theorem isEdit_newlineTask :
    newlineTask.IsEdit newlinePlan.ignoreRules ["r", "a.tsx\n"] .direct :=
  ⟨"a.tsx\n", .directive, by decide⟩

/-- The run changes a file that is neither of the files it should keep to. -/
theorem run_writes_beside_markup : ∃ d, (run none newlineTree [] "/r" newlineOptions).1 = .ok d ∧
    Changes newlineTree (run none newlineTree [] "/r" newlineOptions).2 ["r", "a.tsx\n"] ∧
      ¬ MayWrite [".tsx", ".jsx"] newlineTree d ["r", "a.tsx\n"] := by
  have hwritable : newlineTree.Writable ["r", "a.tsx\n"] :=
    ⟨⟨by decide, by decide⟩, .inl ⟨_, rfl⟩⟩
  have hcontent : newlineTree.content ["r", "a.tsx\n"] = some "useState" := by decide
  have hs : ¬ Settled newlineTree ["r", "a.tsx\n"] .direct :=
    not_settled hwritable hcontent (by decide)
  obtain ⟨d, t', hrun, hchange⟩ := run_changes_of_task ordinary_newlineTree plan_newlineTree rfl
    mem_newlineTask isEdit_newlineTask hs
  rw [hrun]
  refine ⟨d, rfl, hchange, fun h => ?_⟩
  exact h.no_newline ⟨"a.tsx\n", rfl, "\n", List.mem_singleton_self _, by decide⟩

end Run

end Checkup
