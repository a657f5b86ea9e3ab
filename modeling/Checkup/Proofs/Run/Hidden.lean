import Checkup.Proofs.Rule.Places
import Checkup.Proofs.Run.Replanning
import Checkup.Proofs.Run.Stages
import Checkup.Proofs.Tree.Agreement

/-!
# Folders that are never entered

The folders of other tools and hidden folders of a project are not entered, neither by the walks of the
rules nor on the way to the files that are asked for by name. So what lies in them has no influence on
a run of a project that is no monorepo.

* `Hidden`: the locations below such folders.
* `Project.detect_shown`, `Run.settingsOf_shown`: the project and its settings.
* `Context.showsSame_shown`: what the rules are shown.
* `Run.run_hidden`: the runs of two trees that differ in hidden locations only.
-/

namespace Checkup

/-- The location lies below a folder of the project that a walk skips by its name. -/
def Hidden (root l : Location) : Prop :=
  ∃ above name below, below ≠ [] ∧ Context.isSkippedName name = true ∧
    l = root ++ above ++ name :: below

/-- Two trees without links that differ in hidden locations only. -/
def SameShown (root : Location) (t t' : Tree) : Prop := Tree.Agree (fun l => ¬ Hidden root l) t t'

variable {root l above : Location} {t t' : Tree}

theorem Hidden.concat (h : Hidden root l) (name : String) : Hidden root (l ++ [name]) := by
  obtain ⟨above, skipped, below, hne, hskip, rfl⟩ := h
  exact ⟨above, skipped, below ++ [name], by simp, hskip, by simp⟩

theorem Hidden.length_lt (h : Hidden root l) : root.length + 1 < l.length := by
  obtain ⟨above, skipped, below, hne, -, rfl⟩ := h
  have := List.length_pos_iff.mpr hne
  simp only [List.length_append, List.length_cons]
  omega

/-- An entry of a folder that is entered is not hidden. -/
theorem not_hidden_concat (hopen : ∀ n ∈ above, Context.isSkippedName n = false) (name : String) :
    ¬ Hidden root (root ++ above ++ [name]) := by
  rintro ⟨above', skipped, below, hne, hskip, heq⟩
  -- The last step belongs to `below`, so the skipped folder is one of the folders above the entry.
  obtain ⟨below, last, rfl⟩ := (List.eq_nil_or_concat' below).resolve_left hne
  rw [List.append_assoc, List.append_assoc, List.append_cancel_left_eq, ← List.cons_append,
    ← List.append_assoc] at heq
  obtain ⟨rfl, -⟩ := List.append_inj' heq rfl
  rw [hopen skipped (by simp)] at hskip
  cases hskip

theorem not_hidden (hopen : ∀ n ∈ above, Context.isSkippedName n = false) :
    ¬ Hidden root (root ++ above) := fun h => not_hidden_concat hopen "" (h.concat "")

theorem not_hidden_entry (root : Location) (name : String) : ¬ Hidden root (root ++ [name]) := by
  have hopen : ∀ n ∈ ([] : Location), Context.isSkippedName n = false := fun n hn => by cases hn
  have h : ¬ Hidden root (root ++ [] ++ [name]) := not_hidden_concat hopen name
  rwa [List.append_nil] at h

theorem not_hidden_root (root : Location) : ¬ Hidden root root :=
  fun h => not_hidden_entry root "" (h.concat "")

theorem plain_of_open {n : String} (h : Context.isSkippedName n = false) : n ≠ "." ∧ n ≠ ".." := by
  constructor <;> rintro rfl <;> exact absurd h (by decide)

namespace SameShown

theorem of_node? (ht : t.Ordinary) (ht' : t'.Ordinary)
    (h : ∀ l, ¬ Hidden root l → t'.node? l = t.node? l) : SameShown root t t' :=
  ⟨ht, ht', fun hshown hhidden => hshown (hhidden.concat _), fun hshown => h _ hshown⟩

theorem exists?_entry (h : SameShown root t t') (hroot : Tree.Plain root) {name : String}
    (h1 : name ≠ ".") (h2 : name ≠ "..") :
    t'.exists? (root ++ [name]) = t.exists? (root ++ [name]) :=
  Tree.exists?_agree h (hroot.concat h1 h2) (not_hidden_entry root name)

theorem readText_entry (h : SameShown root t t') (hroot : Tree.Plain root) {name : String}
    (h1 : name ≠ ".") (h2 : name ≠ "..") :
    t'.readText (root ++ [name]) = t.readText (root ++ [name]) :=
  Tree.readText_agree h (hroot.concat h1 h2) (not_hidden_entry root name)

end SameShown

/-! ## The project -/

theorem Manifest.load_shown (h : SameShown root t t') (hroot : Tree.Plain root) :
    load t' root = load t root := by
  unfold load
  rw [h.readText_entry hroot (by decide) (by decide)]

namespace Project

/-- A project that is no monorepo is described in the same way. -/
theorem describe_shown (h : SameShown root t t') (hroot : Tree.Plain root)
    (hmonorepo : declaresMonorepo t root (Manifest.read t root) ≠ .ok true) :
    describe t' root = describe t root := by
  have hnames : ∀ name ∈ lookedAt, name ≠ "." ∧ name ≠ ".." := by decide
  exact describe_congr (Manifest.load_shown h hroot)
    (fun name hname => h.exists?_entry hroot (hnames name hname).1 (hnames name hname).2)
    fun hdeclares => absurd hdeclares hmonorepo

theorem rootOf_shown {current : List String} {path : String}
    (h : SameShown (Tree.lexical [] (Path.stepsFrom current path)) t t') :
    rootOf t' current path = rootOf t current path := by
  have hplain : Tree.Plain (Tree.lexical [] (Path.stepsFrom current path)) :=
    Tree.plain_lexical Tree.plain_nil _
  unfold rootOf
  rw [Tree.resolve_eq h.new, Tree.resolve_eq h.old]
  split
  · rfl
  · dsimp only [Except.mapError, bind, Except.bind]
    rw [Tree.exists?_agree h hplain (not_hidden_root _),
      Tree.isFolder?_agree h hplain (not_hidden_root _)]

theorem detect_shown {current : List String} {path : String}
    (h : SameShown (Tree.lexical [] (Path.stepsFrom current path)) t t')
    (hmonorepo : declaresMonorepo t (Tree.lexical [] (Path.stepsFrom current path))
      (Manifest.read t (Tree.lexical [] (Path.stepsFrom current path))) ≠ .ok true) :
    detect t' current path = detect t current path := by
  unfold detect
  rw [rootOf_shown h]
  cases hroot : rootOf t current path with
  | error fault => rfl
  | ok root =>
    obtain ⟨hresolve, -⟩ := rootOf_eq_ok.mp hroot
    rw [Tree.resolve_eq h.old] at hresolve
    split at hresolve
    · cases hresolve
    · cases hresolve
      exact describe_shown h (plain_of_rootOf h.old hroot) hmonorepo

end Project

/-! ## The settings -/

theorem Settings.length_fileSteps_le (steps : List String) (isFolder : Bool) :
    (fileSteps steps isFolder).length ≤ steps.length + 1 := by
  unfold fileSteps
  split
  · simp
  · split
    · omega
    · simp

theorem Settings.plain_fileSteps (hroot : Tree.Plain root) (isFolder : Bool) :
    Tree.Plain (fileSteps root isFolder) := by
  unfold fileSteps
  split
  · exact hroot.concat (by decide) (by decide)
  · split
    · exact hroot
    · exact hroot.dropLast.concat (by decide) (by decide)

/-- The settings are looked for in the project or above it, and not below a skipped folder. -/
theorem Settings.load_shown (h : SameShown root t t') (hroot : Tree.Plain root) {path : String}
    (hpath : Path.stepsFrom [] path = root) : load t' [] path = load t [] path := by
  -- The file is at most one step below the project, and a hidden location at least two.
  have hshown : ∀ isFolder, ¬ Hidden root (fileSteps root isFolder) := fun isFolder hhidden => by
    have := length_fileSteps_le root isFolder
    have := hhidden.length_lt
    omega
  unfold load
  rw [filePath_eq, filePath_eq, hpath, Tree.isFolder?_agree h hroot (not_hidden_root root)]
  cases (if '\x00' ∈ path.toList then Except.ok false else t.isFolder? root) with
  | error fault => rfl
  | ok isFolder =>
    have hplain := plain_fileSteps hroot isFolder
    dsimp only [Except.map, Except.mapError, bind, Except.bind]
    rw [Tree.resolveSteps_eq h.old, Tree.resolveSteps_eq h.new, Tree.lexical_of_plain hplain,
      List.nil_append]
    dsimp only
    rw [Tree.exists?_agree h hplain (hshown isFolder)]
    unfold ofFile
    rw [Tree.readText_agree h hplain (hshown isFolder)]

theorem Run.settingsOf_shown (h : SameShown root t t') (hroot : Tree.Plain root) {project : Project}
    (hproject : Path.steps project.root = root) (habs : Path.isAbsolute project.root = true) :
    settingsOf t' project = settingsOf t project := by
  unfold settingsOf
  rw [Settings.load_shown h hroot (by rw [Path.stepsFrom, if_pos habs, hproject])]

/-! ## What the rules are shown -/

namespace Context

variable {c : Context}

theorem plain_open (hroot : Tree.Plain root) (hopen : ∀ n ∈ above, isSkippedName n = false) :
    Tree.Plain (root ++ above) := hroot.append fun n hn => plain_of_open (hopen n hn)

/-- The folders that a walk of a project enters. -/
def Entered (root : Location) (steps : List String) : Prop :=
  ∃ above, steps = root ++ above ∧ ∀ n ∈ above, isSkippedName n = false

theorem access_entered (h : SameShown root t t') (hroot : Tree.Plain root) {steps : List String}
    (hsteps : Entered root steps) : t'.access steps = t.access steps := by
  obtain ⟨above, rfl, hopen⟩ := hsteps
  exact Tree.access_agree h (plain_open hroot hopen) (not_hidden hopen)

theorem walked_shown (h : SameShown root t t') (hroot : Tree.Plain root) :
    Walked (Entered root) Settings.fileName t t' where
  skipped := by decide
  names {steps} hsteps := by
    have haccess := access_entered h hroot hsteps
    obtain ⟨above, rfl, hopen⟩ := hsteps
    unfold namesIn
    rw [haccess]
    split
    · rename_i l hl
      obtain ⟨rfl, -⟩ := Tree.find_present h.old (Tree.find_of_access hl)
      rw [Tree.lexical_of_plain (plain_open hroot hopen), List.nil_append]
      refine Tree.filter_children_eq fun name _ => ?_
      rw [h.node (not_hidden_concat hopen name)]
    · rfl
  kind {steps name} hsteps hname _ := by
    have hn := isName_of_mem_namesIn h.old.named hname
    obtain ⟨l, haccess, -⟩ := access_of_mem_namesIn hname
    have haccess' := (access_entered h hroot hsteps).trans haccess
    obtain ⟨above, rfl, hopen⟩ := hsteps
    obtain ⟨rfl, -⟩ := Tree.find_present h.old (Tree.find_of_access haccess)
    have hnode := h.node (not_hidden_concat hopen name)
    rw [Tree.lexical_of_plain (plain_open hroot hopen), List.nil_append] at haccess haccess'
    unfold entryKind
    rw [Tree.access_agree h ((plain_open hroot hopen).concat hn.ne_here hn.ne_up)
      (not_hidden_concat hopen name), isListedFile_eq haccess, isListedFile_eq haccess', hnode]
  below {steps name} hsteps hskip := by
    obtain ⟨above, rfl, hopen⟩ := hsteps
    refine ⟨above ++ [name], (List.append_assoc ..), fun n hn => ?_⟩
    rcases List.mem_append.mp hn with hn | hn
    · exact hopen n hn
    · rwa [List.mem_singleton.mp hn]

/-- The rules are shown the same in a project without workspaces. -/
theorem showsSame_shown (h : SameShown root t t') (hroot : Tree.Plain root) (hc : c.root = root)
    (hnone : c.project.workspaceList = []) : c.ShowsSame t t' := by
  have hbase : c.base = root := by
    rw [base, hc, Tree.lexical_of_plain hroot, List.nil_append]
  -- Without workspaces a rule asks only for files whose folders a walk enters.
  have hplace : ∀ {path l}, c.LooksAt t path → c.place path = .ok l →
      Tree.Plain l ∧ ¬ Hidden root l := by
    intro path l hlooks hl
    obtain ⟨above, name, hends, -, hopen⟩ := ends_of_looksAt h.old.named (by simp [hnone]) hlooks
    have hopen := hopen hnone
    have hhere : name ≠ "." := fun heq => Path.not_here_steps path (heq ▸ hends.steps ▸ by simp)
    have habove : Tree.Plain above := fun n hn => plain_of_open (hopen n hn)
    have hplain := plain_place hl
    rw [place_relative hends.relative hl, hends.steps, hbase,
      Tree.lexical_of_plain (habove.concat hhere hends.not_up), ← List.append_assoc] at hplain ⊢
    exact ⟨hplain, not_hidden_concat hopen name⟩
  refine showsSame_of_places h.old h.new (fun {path l} hlooks hl => ?_) fun p hp => ?_
  · obtain ⟨hplain, hshown⟩ := hplace hlooks hl
    unfold Tree.content
    rw [Tree.exists?_agree h hplain hshown, Tree.readText_agree h hplain hshown]
    exact ⟨rfl, rfl⟩
  · refine walk_eq (walked_shown h hroot) (not_accepts_settings hp) _ ⟨[], ?_, ?_⟩ ""
    · rw [hc, List.append_nil]
    · intro n hn
      cases hn

end Context

/-! ## Runs -/

namespace Run

variable {current : List String} {path : String} {o : Options}

/-- A project that is no monorepo, in its directory. -/
structure Single (root : Location) (project : Project) : Prop where
  plain : Tree.Plain root
  steps : Path.steps project.root = root
  absolute : Path.isAbsolute project.root = true
  isMonorepo : project.isMonorepo = false
  workspaces : project.workspaceList = []

theorem single_of_detect (ht : t.Ordinary) {project : Project}
    (hdetect : Project.detect t current path = .ok project)
    (hmonorepo : Project.declaresMonorepo t (rootAt current path)
      (Manifest.read t (rootAt current path)) ≠ .ok true) :
    Single (rootAt current path) project := by
  obtain ⟨root, hroot, hdescribe⟩ := Except.bind_eq_ok.mp hdetect
  have hfolder := Project.folder_of_rootOf ht hroot
  obtain rfl := eq_rootAt ht hroot
  have hsteps := Project.steps_root (Project.steps_of_folder ht hfolder) hdescribe
  obtain ⟨-, _, isMonorepo, workspaces, _, _, -, hdeclares, hworkspaces, -, -, rfl⟩ :=
    Project.describe_eq_ok.mp hdescribe
  cases isMonorepo with
  | true => exact absurd hdeclares hmonorepo
  | false =>
    cases hworkspaces
    refine ⟨ht.plain hfolder, hsteps, ?_, rfl, rfl⟩
    exact List.isPrefixOf_iff_prefix.mpr ⟨_, (String.toList_append ..).symm⟩

theorem plan_shown (h : SameShown (rootAt current path) t t')
    (hmonorepo : Project.declaresMonorepo t (rootAt current path)
      (Manifest.read t (rootAt current path)) ≠ .ok true) :
    plan none t' current path o = plan none t current path o := by
  refine plan_eq (Project.detect_shown h hmonorepo) (fun project hdetect => ?_)
    fun project hdetect => ?_
  · obtain ⟨hplain, hsteps, habs, -⟩ := single_of_detect h.old hdetect hmonorepo
    exact settingsOf_shown h hplain hsteps habs
  · have hsingle := (single_of_detect h.old hdetect hmonorepo).isMonorepo
    rw [ScanRoot.ofProject_of_not_monorepo hsingle, ScanRoot.ofProject_of_not_monorepo hsingle]

theorem outcomes_shown (h : SameShown (rootAt current path) t t')
    (hmonorepo : Project.declaresMonorepo t (rootAt current path)
      (Manifest.read t (rootAt current path)) ≠ .ok true) {p : Plan}
    (hplan : plan none t current path o = .ok p) : outcomes p t' = outcomes p t := by
  obtain ⟨-, root, hroot, hdescribe, -, hroots, -⟩ := plan_eq_ok.mp hplan
  have hdetect : Project.detect t current path = .ok p.project :=
    Except.bind_eq_ok.mpr ⟨root, hroot, hdescribe⟩
  have hsingle := single_of_detect h.old hdetect hmonorepo
  rw [ScanRoot.ofProject_of_not_monorepo hsingle.isMonorepo, Except.ok.injEq] at hroots
  have hshows : ∀ kind, ((ScanRoot.whole p.project kind).context p.ignoreRules).ShowsSame t t' :=
    fun kind => Context.showsSame_shown h hsingle.plain hsingle.steps hsingle.workspaces
  rw [outcomes_eq, outcomes_eq, ← hroots, List.flatMap_singleton, List.flatMap_singleton]
  refine List.map_congr_left fun rule hrule => ?_
  have hbuiltIn : rule ∈ Registry.builtIn :=
    mem_rules_of_plan hplan rule (List.mem_of_mem_filter hrule)
  rw [Registry.check_eq (hshows _) hbuiltIn]

/-- What lies below skipped folders has no influence on a run without repairs of a project that is no
monorepo: it comes to the same result, or fails for the same cause. -/
theorem run_hidden (ht : t.Ordinary) (ht' : t'.Ordinary)
    (h : ∀ l, ¬ Hidden (rootAt current path) l → t'.node? l = t.node? l)
    (hmonorepo : Project.declaresMonorepo t (rootAt current path)
      (Manifest.read t (rootAt current path)) ≠ .ok true)
    (ho : (o.fix && !o.dryRun) = false) :
    (run none t' current path o).1 = (run none t current path o).1 := by
  have hshown : SameShown (rootAt current path) t t' := .of_node? ht ht' h
  have hsame := plan_shown (o := o) hshown hmonorepo
  cases hplan : plan none t current path o with
  | error fault =>
    rw [hplan] at hsame
    rw [run_of_no_plan hplan, run_of_no_plan hsame]
  | ok p =>
    rw [hplan] at hsame
    rw [run_of_plan hplan, run_of_plan hsame, Plan.repairs_of_not_fixing ho,
      Plan.repairs_of_not_fixing ho, outcomes_shown hshown hmonorepo hplan]

/-! ## A use in an installed package -/

/-- A project with a dependency that it does not use. -/
def unusedTree : Tree :=
  ⟨[(["r"], .folder),
    (["r", "package.json"], .file "\x7b\"dependencies\":\x7b\"a\":\"1\"\x7d\x7d".toUTF8),
    (["r", "node_modules"], .folder)]⟩

/-- The same project with a use of the dependency in an installed package. -/
def installedTree : Tree := unusedTree.put ["r", "node_modules", "b.ts"] (.file "import \"a\"".toUTF8)

theorem ordinary_unusedTree : unusedTree.Ordinary := Tree.ordinary_of_entries (by decide)

theorem ordinary_installedTree : installedTree.Ordinary :=
  ordinary_unusedTree.put_file (by decide) (by decide) (by decide) (by decide) _

/-- The project, as it is described. -/
def unusedProject : Project :=
  ⟨.generic, "r", "/r", .unknown, false, false, none, none, none, none, none⟩

theorem plan_unusedTree : plan none unusedTree [] "/r" { category := some "node" } =
    .ok ⟨unusedProject, .unset ["r"], none, [.whole unusedProject .generic], Hygiene.rules⟩ := by
  refine plan_eq_ok.mpr ⟨fun name h => ?_, ["r"], ?_⟩
  · cases h
    decide
  · exact ⟨by decide +kernel, by decide +kernel, by decide +kernel, by decide +kernel, rfl⟩

/-- The run comes to a result, and does not see the use. -/
theorem run_hidden_installedTree : unusedTree.Ordinary ∧ installedTree.Ordinary ∧
    (∀ l, ¬ Hidden (rootAt [] "/r") l → installedTree.node? l = unusedTree.node? l) ∧
    (run none unusedTree [] "/r" { category := some "node" }).1.Returns ∧
    (run none installedTree [] "/r" { category := some "node" }).1 =
      (run none unusedTree [] "/r" { category := some "node" }).1 := by
  have hsame : ∀ l, ¬ Hidden (rootAt [] "/r") l → installedTree.node? l = unusedTree.node? l := by
    intro l hshown
    rw [installedTree, Tree.node?_put _ (by decide), if_neg]
    rintro rfl
    exact hshown ⟨[], "node_modules", ["b.ts"], by decide, by decide, by decide⟩
  refine ⟨ordinary_unusedTree, ordinary_installedTree, hsame, ?_, ?_⟩
  · exact ⟨_, congrArg Prod.fst (run_of_plan plan_unusedTree)⟩
  · exact run_hidden ordinary_unusedTree ordinary_installedTree hsame (by decide +kernel) rfl

end Run

end Checkup
