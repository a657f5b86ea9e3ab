import Checkup.Proofs.Run.Replanning
import Checkup.Proofs.Run.WriteSet

/-!
# Running once more

What a second run has to do was to be done in the first run already, and was done there or could not
be written. So the second run changes nothing.

* `Planned.found_before`: a finding of the second run was one of the first.
* `task_again`: an edit of the second run was one of the first.
* `run_idempotent`: the second run repairs nothing and leaves the tree as it is.
-/

namespace Checkup

variable {E : Edits} {t t' : Tree} {c c' : Context}

/-! ## Contexts -/

/-- The context is that of the same directory of a project that was described again. -/
structure Context.Alike (c c' : Context) : Prop where
  root : c'.root = c.root
  isWorkspace : c'.isWorkspace = c.isWorkspace
  relativeRoot : c'.relativeRoot = c.relativeRoot
  ignoreRules : c'.ignoreRules = c.ignoreRules
  projectKind : c'.project.kind = c.project.kind
  usesStaticTyping : c'.project.usesStaticTyping = c.project.usesStaticTyping
  workspaces : ∀ w ∈ Monorepo.workspaces c', w ∈ Monorepo.workspaces c

theorem ScanRoot.Alike.context {r r' : ScanRoot} (h : r.Alike r') (rules : List IgnoreRule) :
    Context.Alike (r.context rules) (r'.context rules) where
  root := h.steps
  isWorkspace := h.isWorkspace
  relativeRoot := congrArg (Text.trim (· == '/')) h.relativePath
  ignoreRules := rfl
  projectKind := h.projectKind
  usesStaticTyping := h.usesStaticTyping
  workspaces := h.workspaces

namespace Context.Alike

theorem refl (c : Context) : Alike c c := ⟨rfl, rfl, rfl, rfl, rfl, rfl, fun _ hw => hw⟩

theorem place_eq (h : Alike c c') (path : String) : c'.place path = c.place path := by
  unfold place base
  rw [h.root]

theorem walk_eq (h : Alike c c') (t : Tree) (accepts : String → Bool) (left : Nat)
    (steps : List String) (folder : String) :
    c'.walk t accepts left steps folder = c.walk t accepts left steps folder := by
  have hignored : ∀ path isFolder, c'.isIgnored path isFolder = c.isIgnored path isFolder := by
    intro path isFolder
    unfold isIgnored projectPath
    rw [h.ignoreRules, h.relativeRoot]
  induction left generalizing steps folder with
  | zero => rfl
  | succ left ih =>
    rw [walk, walk]
    simp only [hignored, ih]

theorem findFiles_eq (h : Alike c c') (t : Tree) (p : Pattern) :
    c'.findFiles t p = c.findFiles t p := by
  unfold findFiles findFilesTo
  rw [h.root, h.walk_eq]

theorem mem_names (h : Alike c c') {name : Label}
    (hn : (Monorepo.WorkspaceProtocol.names c').contains name = true) :
    (Monorepo.WorkspaceProtocol.names c).contains name = true := by
  rw [List.contains_iff_mem] at hn ⊢
  unfold Monorepo.WorkspaceProtocol.names at hn ⊢
  obtain ⟨w, hw, rfl⟩ := List.mem_map.mp hn
  exact List.mem_map_of_mem (h.workspaces w hw)

/-- A repair is the same one again. -/
theorem repairs (h : Alike c c') {f : Finding} {rule : Rule} {file : String} {a : Amendment}
    (hr : Repairs c' f rule file a) : Repairs c f rule file a := by
  cases hr with
  | strict => exact .strict
  | engine => exact .engine
  | ignore =>
    rw [h.projectKind]
    exact .ignore
  | protocol hd =>
    refine .protocol ?_
    unfold dependencyOf at hd ⊢
    obtain ⟨hmessage, hname⟩ := Option.filter_eq_some_iff.mp hd
    exact Option.filter_eq_some_iff.mpr ⟨hmessage, h.mem_names hname⟩
  | directive => exact .directive

end Context.Alike

/-! ## Findings of the rules -/

/-- A plain version of a dependency was there before. -/
theorem Localized.mem_plain {members members' : Json.Members} (h : Localized members members')
    {key : Label} {value : Json} {version : Label} (hmem : (key, value) ∈ members')
    (hversion : Monorepo.WorkspaceProtocol.plainVersion? value = some version) :
    (key, value) ∈ members := by
  unfold Localized at h
  induction h with
  | nil => cases hmem
  | @cons member member' rest rest' hm _ ih =>
    rcases List.mem_cons.mp hmem with rfl | hmem
    · obtain ⟨k, v⟩ := member
      obtain ⟨rfl, rfl | rfl⟩ := hm
      · exact List.mem_cons_self ..
      · cases hversion
    · exact List.mem_cons_of_mem _ (ih hmem)

section

variable {f : Finding} {l : Location}

theorem strict_amended (hc : c.Alike c') (hE : Aimed E t) (ht : t.Ordinary) (h : Amended E t t')
    (hf : f ∈ Hygiene.StrictTyping.check c' t') : f ∈ Hygiene.StrictTyping.check c t := by
  obtain ⟨htyped, ⟨settings, hread, hsilent⟩, hfinding⟩ := mem_strict_iff.mp hf
  have hplace := Context.place_name Run.isName_tsconfig (by decide) c
  rw [Context.readMembers?_of_place (h.grown hE ht).new ((hc.place_eq _).trans hplace)] at hread
  refine mem_strict_iff.mpr ⟨hc.usesStaticTyping ▸ htyped, ⟨settings, ?_, hsilent⟩, hfinding⟩
  rw [Context.readMembers?_of_place ht hplace]
  have hrewritten := h.content hE ht (Context.plain_place hplace)
  rcases hrewritten.settings fun _ => hE.suits_last List.getLast?_concat with
    heq | ⟨settings', hread', hstrict⟩
  · rw [← heq, hread]
  · rw [hread] at hread'
    cases hread'
    rw [saysStrict_of_isStrict hstrict] at hsilent
    cases hsilent

theorem exists_kept {before : Option Json.Members} {manifest' : Json.Members}
    (h : Option.Rel Kept before (some manifest')) :
    ∃ manifest, before = some manifest ∧ Kept manifest manifest' := by
  cases h with
  | some hkept => exact ⟨_, rfl, hkept⟩

theorem engine_amended (hc : c.Alike c') (hE : Aimed E t) (ht : t.Ordinary) (h : Amended E t t')
    (hf : f ∈ Hygiene.EngineVersion.check c' t') : f ∈ Hygiene.EngineVersion.check c t := by
  obtain ⟨⟨manifest', hread, hstated⟩, hfinding⟩ := mem_engine_iff.mp hf
  have hplace := Context.place_name Run.isName_package (by decide) c
  rw [Context.readMembers?_of_place (h.grown hE ht).new ((hc.place_eq _).trans hplace)] at hread
  have hkept := (h.content hE ht (Context.plain_place hplace)).manifest fun _ =>
    hE.suits_last List.getLast?_concat
  rw [hread, ← Context.readMembers?_of_place ht hplace] at hkept
  obtain ⟨manifest, hbefore, hkept⟩ := exists_kept hkept
  refine mem_engine_iff.mpr ⟨⟨manifest, hbefore, ?_⟩, hfinding⟩
  rw [Bool.eq_false_iff] at hstated ⊢
  exact fun hs => hstated (hkept.stated hs)

theorem ignore_amended (hc : c.Alike c') (hE : Aimed E t) (ht : t.Ordinary) (h : Amended E t t')
    (hkind : c.isWorkspace = false → ∀ {kind message},
      E (c.base ++ [".gitignore"]) (.ignore kind message) → kind = c.project.kind)
    (hf : f ∈ Hygiene.GitIgnore.check c' t') : f ∈ Hygiene.GitIgnore.check c t := by
  obtain ⟨hworkspace, hfinding⟩ := mem_ignore_iff.mp hf
  have hplace := Context.place_name Aimed.isName_gitignore (by decide) c
  rw [Context.readNonempty?_of_place (h.grown hE ht).new ((hc.place_eq _).trans hplace),
    hc.projectKind] at hfinding
  rw [hc.isWorkspace] at hworkspace
  refine mem_ignore_iff.mpr ⟨hworkspace, ?_⟩
  rw [Context.readNonempty?_of_place ht hplace]
  have hedits : ∀ a, E (c.base ++ [".gitignore"]) a → ∃ message, a = .ignore c.project.kind message := by
    intro a ha
    obtain ⟨kind, message, rfl⟩ := Amendment.suits_ignored (hE.suits_last List.getLast?_concat ha)
    exact ⟨message, by rw [hkind hworkspace ha]⟩
  rcases (h.content hE ht (Context.plain_place hplace)).ignored hedits with
    heq | ⟨s, hs, hne, hlacks⟩
  · rw [← heq]
    exact hfinding
  · have hfilter := Amendment.filter_eq_some.mpr ⟨hs, hne⟩
    rw [hfilter] at hfinding
    rcases hfinding with ⟨hnone, -⟩ | ⟨text, htext, e, he, hfinding⟩
    · cases hnone
    · cases htext
      obtain ⟨old, hold, he⟩ := hlacks e he
      exact .inr ⟨old, hold, e, he, hfinding⟩

theorem protocol_amended (hc : c.Alike c') (hE : Aimed E t) (ht : t.Ordinary) (h : Amended E t t')
    (hshallow : ∀ w ∈ Monorepo.workspaces c, ¬ c.IsTooDeep t (Monorepo.fileIn w "package.json"))
    (hplace : c.place f.file = .ok l) (hlast : l.getLast? = some "package.json")
    (hf : f ∈ Monorepo.WorkspaceProtocol.check c' t') :
    f ∈ Monorepo.WorkspaceProtocol.check c t := by
  obtain ⟨-, w, hw, manifest', hread, dependency, value, version, hmem, hversion, hname, hfinding⟩ :=
    mem_protocol_iff.mp hf
  have hfile : f.file = Monorepo.fileIn w "package.json" := congrArg Finding.file hfinding
  rw [hfile] at hplace
  rw [Context.readMembers?_of_place (h.grown hE ht).new ((hc.place_eq _).trans hplace)] at hread
  have hkept := (h.content hE ht (Context.plain_place hplace)).manifest fun _ => hE.suits_last hlast
  rw [hread, ← Context.readMembers?_of_place ht hplace] at hkept
  obtain ⟨manifest, hbefore, hkept⟩ := exists_kept hkept
  exact mem_protocol_iff.mpr ⟨hshallow, w, hc.workspaces w hw, manifest, hbefore, dependency, value,
    version, (dependencies_kept hkept).mem_plain hmem hversion, hversion, hc.mem_names hname, hfinding⟩

theorem directive_amended (hc : c.Alike c') (hE : Aimed E t) (ht : t.Ordinary) (h : Amended E t t')
    (hplace : c.place f.file = .ok l) (hf : f ∈ Application.ClientDirective.check c' t') :
    f ∈ Application.ClientDirective.check c t := by
  have hgrown := h.grown hE ht
  obtain ⟨path, hpath, hlayout, text, hread, hmark, name, htrigger, hfinding⟩ :=
    mem_directive_iff.mp hf
  have hfile : f.file = path := congrArg Finding.file hfinding
  rw [hfile] at hplace
  rw [hc.findFiles_eq] at hpath
  have hpath := Context.mem_findFiles_of_grown hgrown hpath
  obtain ⟨folder, last, hentry, hfolder, hlastName, hmarkup⟩ := Context.exists_of_mem_markupFiles ht hpath
  have hlast : l.getLast? = some last := by
    rw [hentry] at hplace
    exact Context.getLast?_place (Context.isAbsolute_entryPath hfolder hlastName) hplace
      (Context.steps_entryPath folder hlastName) hlastName.ne_up
  rw [Context.readNonempty?_of_place hgrown.new ((hc.place_eq _).trans hplace)] at hread
  refine mem_directive_iff.mpr ⟨path, hpath, hlayout, text, ?_, hmark, name, htrigger, hfinding⟩
  rw [Context.readNonempty?_of_place ht hplace]
  have hrewritten := h.content hE ht (Context.plain_place hplace)
  rcases hrewritten.marked hmarkup fun _ => hE.suits_last hlast with heq | ⟨s, hs, hmarked⟩
  · rw [← heq, hread]
  · rw [(Amendment.filter_eq_some.mp hread).1] at hs
    cases hs
    rw [hmarked] at hmark
    cases hmark

end

namespace Run

variable {root : Location} {p p' : Plan} {task : Task} {l : Location} {a : Amendment}

/-- The plan of the second run has the rules on ignored paths of the first. -/
theorem Plan.Alike.ignoreRules_eq (h : p.Alike p') : p'.ignoreRules = p.ignoreRules := by
  unfold Plan.ignoreRules
  rw [h.settings]

theorem kind_of_target {project : Project} {found : List Finding} {kind : Kind} {message : Label}
    (h : Target root project found l (.ignore kind message)) : kind = project.kind := by
  cases h with
  | manifest _ ha => exact absurd ha (by decide : "package.json" ≠ ".gitignore")
  | ignored => rfl

/-- What a rule with a repair finds after amendments was found before. -/
theorem Planned.found_before (hp : Planned t root p) {r : ScanRoot} (hr : IsRoot t p.project r)
    (hc : (r.context p.ignoreRules).Alike c') {fs : List Finding}
    (h : Amended (Target root p.project fs) t t') {rule : Rule} (hrule : rule ∈ Registry.fixing)
    {found' : List Finding} (hcheck : rule.check c' t' = .ok found') {f : Finding} (hf : f ∈ found') :
    ∃ found, rule.check (r.context p.ignoreRules) t = .ok found ∧ f ∈ found := by
  have hE := aimed_target hp fs
  have ht := hp.ordinary
  have ht' := (h.grown hE ht).new
  unfold Registry.fixing at hrule
  simp only [List.mem_cons, List.not_mem_nil, or_false] at hrule
  have hf := (Except.mem_of_mem_ok hcheck).mp hf
  rcases hrule with rfl | rfl | rfl | rfl | rfl
  · have hf := Except.mem_ok_iff.mp hf
    obtain ⟨path, -, -, text, hread, -, name, -, hfinding⟩ := mem_directive_iff.mp hf
    obtain ⟨htext, -⟩ := Option.filter_eq_some_iff.mp hread
    obtain ⟨l, hplace, -⟩ := Context.exists_place ht' htext
    have hfile : f.file = path := congrArg Finding.file hfinding
    rw [hc.place_eq, ← hfile] at hplace
    exact ⟨_, rfl, directive_amended hc hE ht h hplace hf⟩
  · obtain ⟨-, w, hw, manifest, hread, _, _, _, -, -, -, hfinding⟩ := mem_protocol_iff.mp hf
    obtain ⟨l, hplace, -⟩ := Context.exists_place_members ht' hread
    rw [hc.place_eq] at hplace
    have hlast : l.getLast? = some "package.json" := by
      obtain ⟨hw, kind, rfl⟩ := hr.whole_of_mem (hc.workspaces w hw)
      rw [place_manifest (hp.located w hw) (hp.base_whole kind p.ignoreRules) hplace,
        List.getLast?_concat]
    have hfile : f.file = Monorepo.fileIn w "package.json" := congrArg Finding.file hfinding
    rw [← hfile] at hplace
    exact protocol_amended hc hE ht h (fun _ => hp.shallow_fileIn hr p.ignoreRules) hplace hlast hf
  · exact strict_amended hc hE ht h hf
  · exact engine_amended hc hE ht h hf
  · refine ⟨_, rfl, ignore_amended hc hE ht h (fun hworkspace _ _ hl => ?_) (Except.mem_ok_iff.mp hf)⟩
    obtain ⟨kind, rfl⟩ := hr.whole_of_not_workspace hworkspace
    exact kind_of_target hl

/-- What the second run has to do was to be done in the first. -/
theorem task_again (hp : Planned t root p) (halike : p.Alike p')
    (h : Amended (Target root p.project (findings (outcomes p t))) t t')
    (htask : task ∈ tasks p' t') (hedit : task.IsEdit p'.ignoreRules l a) :
    ∃ task' ∈ tasks p t, task'.IsEdit p.ignoreRules l a := by
  obtain ⟨hroot', hrule, happlies, hfix, hfixable, found', hcheck', hfound⟩ := mem_tasks_iff.mp htask
  obtain ⟨r', rule, f⟩ := task
  dsimp only at hroot' hrule happlies hfix hfixable hcheck' hfound
  obtain ⟨r, hr, hroots⟩ := halike.roots r' hroot'
  have hc := hroots.context p.ignoreRules
  obtain ⟨file, hrepairs, hplace⟩ := hedit
  rw [halike.ignoreRules_eq] at hrepairs hplace hcheck'
  rw [halike.rules] at hrule
  dsimp only at hrepairs hplace
  rw [hc.place_eq] at hplace
  have hfixing := mem_fixing (hp.rules rule hrule) hfix
  have hbefore := hp.found_before (hp.roots r hr) hc h hfixing hcheck' hfound
  exact ⟨⟨r, rule, f⟩, mem_tasks_iff.mpr ⟨hr, hrule, hroots.kind ▸ happlies, hfix, hfixable, hbefore⟩,
    file, hc.repairs hrepairs, hplace⟩

/-- A second run repairs nothing and leaves the tree as the first one left it. -/
theorem run_idempotent (ht : t.Ordinary) {current : List String} {path : String} {o : Options}
    (hfix : o.fix = true) (hdry : o.dryRun = false) {d : Diagnosis}
    (h : run none t current path o = (.ok d, t')) :
    ∃ d', run none t' current path o = (.ok d', t') ∧ d'.fixedCount = some 0 := by
  obtain ⟨p, hplan, -, htree⟩ := run_eq_ok.mp h
  have hrepair : (o.fix && !o.dryRun) = true := by rw [hfix, hdry]; rfl
  rw [hrepair, if_pos rfl] at htree
  obtain ⟨root, -, hp⟩ := planned_of_plan ht hplan
  obtain ⟨hamended, hsettled⟩ := tasks_amended hp
  rw [← htree] at hamended hsettled
  have hE := aimed_target hp (findings (outcomes p t))
  have hgrown := hamended.grown hE ht
  obtain ⟨p', hplan', halike⟩ := plan_amended hE ht hamended hplan
  obtain ⟨root', -, hp'⟩ := planned_of_plan hgrown.new hplan'
  obtain ⟨hsame, hnothing⟩ := performAll_settled (hE.of_grown hgrown) hgrown.new
    (rules_of_tasks hp') fun task htask l a hedit => by
      obtain ⟨task', htask', hedit'⟩ := task_again hp halike hamended htask hedit
      exact ⟨target_of_task hp htask' hedit', hsettled task' htask' l a hedit'⟩
  refine ⟨_, run_eq_ok.mpr ⟨p', hplan', rfl, ?_⟩, ?_⟩
  · rw [hrepair, if_pos rfl, hsame]
  · unfold Visit.diagnosis Visit.fixedCount
    rw [hrepair, hfix, if_pos rfl]
    dsimp only
    rw [if_pos rfl, List.filter_eq_nil_iff.mpr fun attempt hattempt => ?_]
    · rfl
    · rw [hnothing attempt hattempt]
      exact Bool.false_ne_true

/-! ## A project with nothing but an empty manifest -/

/-- A project with nothing but an empty manifest. -/
def bareTree : Tree :=
  ⟨[(["r"], .folder), (["r", "package.json"], .file "\x7b\x7d".toUTF8)]⟩

/-- A run that repairs the files of the project. -/
def bareOptions : Options := { fix := true, category := some "node" }

/-- The project, as it is described. -/
def bareProject : Project :=
  ⟨.generic, "r", "/r", .unknown, false, false, none, none, none, none, none⟩

/-- The plan of the run. -/
def barePlan : Plan :=
  ⟨bareProject, .unset ["r"], none, [.whole bareProject .generic], Hygiene.rules⟩

theorem ordinary_bareTree : bareTree.Ordinary := Tree.ordinary_of_entries (by decide)

theorem plan_bareTree : plan none bareTree [] "/r" bareOptions = .ok barePlan := by
  refine plan_eq_ok.mpr ⟨fun name h => ?_, ["r"], ?_⟩
  · cases h
    decide
  · refine ⟨by decide +kernel, by decide +kernel, by decide +kernel, by decide +kernel, rfl⟩

/-- What is to be done about the missing file of ignored paths. -/
def bareTask : Task := ⟨.whole bareProject .generic, Hygiene.GitIgnore.rule, absent⟩

theorem mem_bareTask : bareTask ∈ tasks barePlan bareTree := by
  refine mem_tasks_iff.mpr ⟨List.mem_cons_self .., ?_, by decide, rfl, rfl, _, rfl, ?_⟩
  · exact List.mem_of_getElem? (i := 4) rfl
  · exact mem_ignore_iff.mpr ⟨rfl, .inl ⟨by decide +kernel, rfl⟩⟩

theorem isEdit_bareTask : bareTask.IsEdit barePlan.ignoreRules ["r", ".gitignore"]
    (.ignore .generic absent.message) := ⟨".gitignore", .ignore, by decide⟩

/-- The first run makes a file of ignored paths, the second one nothing. -/
theorem run_idempotent_bareTree : ∃ d t', run none bareTree [] "/r" bareOptions = (.ok d, t') ∧
    Changes bareTree t' ["r", ".gitignore"] ∧
    ∃ d', run none t' [] "/r" bareOptions = (.ok d', t') ∧ d'.fixedCount = some 0 := by
  have hwritable : bareTree.Writable ["r", ".gitignore"] :=
    ⟨⟨by decide, by decide⟩, .inr (by decide)⟩
  have hcontent : bareTree.content ["r", ".gitignore"] = none := by decide
  have hs : ¬ Settled bareTree ["r", ".gitignore"] (.ignore .generic absent.message) :=
    not_settled hwritable hcontent rfl
  obtain ⟨d, t', hrun, hchange⟩ := run_changes_of_task ordinary_bareTree plan_bareTree rfl
    mem_bareTask isEdit_bareTask hs
  exact ⟨d, t', hrun, hchange, run_idempotent ordinary_bareTree rfl rfl hrun⟩

end Run

end Checkup
