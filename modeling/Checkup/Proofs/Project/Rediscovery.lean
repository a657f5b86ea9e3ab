import Checkup.Proofs.Project.Description
import Checkup.Proofs.Run.Rereading

/-!
# Describing a project again

After repairs a project is described as before, but for versions of dependencies, and with no
workspace that was not found before.

* `select_grown`: what a pattern selects.
* `describe_amended`: the description of a workspace.
* `discover_amended`: the workspaces that are found.
* `Project.describe_amended`: the description of the project.
-/

namespace Checkup

variable {E : Edits} {t t' : Tree} {root : List String}

namespace Workspaces

/-! ## Directories of a pattern -/

/-- A wildcard stands for no further directories, if it still stands for any. -/
theorem directoriesIn_grown (h : Tree.Grown ".gitignore" t t') {base : List String}
    {directories' : List (List String)} (hd : directoriesIn t' base = .ok directories') :
    ∃ directories, directoriesIn t base = .ok directories ∧
      ∀ d ∈ directories', d ∈ directories := by
  have hmem' := fun {d} => mem_directoriesIn (d := d) hd
  obtain ⟨directories, hdirectories⟩ : ∃ directories, directoriesIn t base = .ok directories := by
    unfold directoriesIn at hd ⊢
    obtain ⟨⟨l, node⟩, haccess', hd⟩ := Except.bind_eq_ok.mp hd
    cases node with
    | folder =>
      obtain ⟨found', hfound', -⟩ := Except.bind_eq_ok.mp hd
      obtain ⟨found, hfound⟩ : ∃ found, ((t.children l).mapM fun name => do
          pure (name, ← t.isFolder? (base ++ [name]))) = Except.ok found := by
        refine Except.exists_mapM fun name hname => ?_
        obtain ⟨pair, -, hpair⟩ := Except.mem_mapM hfound' (Tree.mem_children_of_mem h hname)
        obtain ⟨isFolder, hcheck, -⟩ := Except.bind_eq_ok.mp hpair
        rw [Tree.isFolder?_grown h] at hcheck
        exact ⟨_, Except.bind_eq_ok.mpr ⟨isFolder, hcheck, rfl⟩⟩
      exact ⟨_, Except.bind_eq_ok.mpr ⟨_, (Tree.access_folder_grown h).mp haccess',
        Except.bind_eq_ok.mpr ⟨found, hfound, rfl⟩⟩⟩
    | file bytes => cases hd
    | link target => cases hd
  refine ⟨directories, hdirectories, fun d hd' => ?_⟩
  obtain ⟨l, hl, name, hname, hopen, hcheck, rfl⟩ := hmem'.mp hd'
  rw [Tree.isFolder?_grown h] at hcheck
  refine (mem_directoriesIn hdirectories).mpr ⟨l, (Tree.access_folder_grown h).mp hl, name, ?_, hopen, hcheck,
    rfl⟩
  rcases Tree.mem_children_grown h hname with hname | rfl
  · exact hname
  · cases (by decide : isOpenName ".gitignore" = false).symm.trans hopen

/-- A pattern stands for no further directories, and fails no more than before. -/
theorem matching_grown (h : Tree.Grown ".gitignore" t t') {s : Selection}
    {directories : List (List String)} (hs : matching t root s = .ok directories) :
    ∃ directories', matching t' root s = .ok directories' ∧ ∀ d ∈ directories', d ∈ directories := by
  unfold matching at hs ⊢
  dsimp only at hs ⊢
  by_cases hwildcard : s.wildcard = true
  · rw [if_pos hwildcard] at hs ⊢
    by_cases hnul : '\x00' ∈ s.base.toList
    · rw [if_pos hnul] at hs
      cases hs
    · rw [if_neg hnul] at hs ⊢
      cases hd' : directoriesIn t' (Path.stepsFrom root s.base) with
      | error fault => exact ⟨[], rfl, fun _ hd => by cases hd⟩
      | ok directories' =>
        obtain ⟨found, hfound, hsub⟩ := directoriesIn_grown h hd'
        rw [hfound] at hs
        cases hs
        exact ⟨directories', rfl, hsub⟩
  · rw [if_neg hwildcard] at hs ⊢
    rw [Tree.isFolder?_grown h]
    exact ⟨directories, hs, fun _ hd => hd⟩

/-- A pattern selects no further directories, and fails no more than before. -/
theorem select_grown (h : Tree.Grown ".gitignore" t t') {s : Selection}
    {directories : List (List String)} (hs : select t root s = .ok directories) :
    ∃ directories', select t' root s = .ok directories' ∧ ∀ d ∈ directories', d ∈ directories := by
  obtain ⟨hmatching, hown⟩ := select_eq_ok.mp hs
  obtain ⟨directories', hmatching', hsub⟩ := matching_grown h hmatching
  refine ⟨directories', select_eq_ok.mpr ⟨hmatching', fun h => ?_⟩, hsub⟩
  rw [hown h] at hsub
  exact List.eq_nil_iff_forall_not_mem.mpr fun d hd => List.not_mem_nil (hsub d hd)

/-- A pattern stands for no further directories, and fails no more than before. -/
theorem directoriesOf_grown (h : Tree.Grown ".gitignore" t t') {pattern : Label}
    {directories : List (List String)} (hd : directoriesOf t root pattern = .ok directories) :
    ∃ directories', directoriesOf t' root pattern = .ok directories' ∧
      ∀ d ∈ directories', d ∈ directories := by
  cases pattern with
  | text pattern =>
    rw [directoriesOf] at hd ⊢
    cases hs : selection? pattern with
    | none => exact ⟨[], rfl, fun _ hd => by cases hd⟩
    | some s =>
      rw [hs] at hd
      exact select_grown h hd
  | loose points hloose => exact ⟨directories, hd, fun _ hd => hd⟩

/-! ## Workspaces -/

/-- A workspace is described as before. -/
theorem describe_amended (hE : Aimed E t) (ht : t.Ordinary) (h : Amended E t t')
    (directory : List String) (path : String) :
    describe t' root directory path = describe t root directory path := by
  have hkept := h.manifest hE ht directory
  unfold describe
  rw [Tree.exists?_grown (h.grown hE ht) directory (by decide) (by decide) (by decide)]
  cases t.exists? (directory ++ [Manifest.fileName]) with
  | error fault => rfl
  | ok hasManifest =>
    cases hasManifest with
    | false => rfl
    | true =>
      by_cases hdeep : Manifest.IsTooDeep t directory
      · have hdeep' := (h.isTooDeep_manifest hE ht directory).mpr hdeep
        rw [Manifest.load_eq, Manifest.load_eq, if_pos hdeep, if_pos hdeep']
      · have hdeep' := mt (h.isTooDeep_manifest hE ht directory).mp hdeep
        rw [Manifest.load_eq, Manifest.load_eq, if_neg hdeep, if_neg hdeep']
        dsimp only [Except.mapError, bind, Except.bind]
        unfold packageKind
        rw [if_pos rfl, if_pos rfl, hkept.label?_eq (by decide) (by decide), hkept.has_dependency]

theorem declaredPatterns?_kept {manifest manifest' : Json.Members} (h : Kept manifest manifest') :
    declaredPatterns? manifest' = declaredPatterns? manifest := by
  unfold declaredPatterns?
  rw [h.other (by decide) (by decide)]

theorem unamended_listing : Unamended listingName := by
  refine unamended_of_ne (by decide) (by decide) (by decide) ?_
  unfold IsMarkup
  decide

theorem listing?_eq (t : Tree) (root : List String) : listing? t root =
    (t.content (root ++ [listingName])).map fun text => Yaml.Document.ofText text.toList := by
  unfold listing? Tree.content
  cases t.readText (root ++ [listingName]) with
  | error fault => rfl
  | ok text => rfl

/-- The patterns of a project are those of before. -/
theorem patterns_amended (hE : Aimed E t) (ht : t.Ordinary) (h : Amended E t t') (root : List String) :
    patterns t' root (Manifest.read t' root) = patterns t root (Manifest.read t root) := by
  unfold patterns
  rw [declaredPatterns?_kept (h.manifest hE ht root), listing?_eq, listing?_eq,
    h.content_eq hE ht root (by decide) (by decide) (by decide) unamended_listing]

/-- The workspaces of a project are found again, but for some that a pattern does not select any
more. -/
theorem discover_amended (hE : Aimed E t) (ht : t.Ordinary) (h : Amended E t t') (hroot : Steps root)
    {found : List Workspace} (hd : discover t root (Manifest.read t root) = .ok found) :
    ∃ found', discover t' root (Manifest.read t' root) = .ok found' ∧ ∀ w ∈ found', w ∈ found := by
  unfold discover at hd ⊢
  rw [patterns_amended hE ht h]
  obtain ⟨patterns, hpatterns, hd⟩ := Except.bind_eq_ok.mp hd
  obtain ⟨-, hcover, -⟩ := addPatterns_spec ht.named hroot (fun _ h => by cases h) hd
  obtain ⟨found', hadd, hsub⟩ : ∃ found', addPatterns t' root [] patterns = .ok found' ∧
      ∀ w ∈ found', w ∈ found := by
    refine exists_addPatterns (fun pattern hp => ?_) fun _ h => by cases h
    obtain ⟨directories, hdirectories, hcovered⟩ := hcover pattern hp
    obtain ⟨directories', hdirectories', hsub⟩ := directoriesOf_grown (h.grown hE ht) hdirectories
    refine ⟨directories', hdirectories', fun d hd' => ?_⟩
    obtain ⟨path, hpath, hw⟩ := hcovered d (hsub d hd')
    refine ⟨path, hpath, hw.imp_right ?_⟩
    rintro ⟨w, hmem, hwpath, hdescribe⟩
    exact ⟨w, hmem, hwpath, (describe_amended hE ht h d path).trans hdescribe⟩
  exact ⟨found', Except.bind_eq_ok.mpr ⟨patterns, hpatterns, hadd⟩, hsub⟩

end Workspaces

/-! ## Projects -/

/-- The description is that of the same project: it has no further workspaces, and the versions of
its dependencies may be others. -/
structure Project.Alike (p p' : Project) : Prop where
  kind : p'.kind = p.kind
  name : p'.name = p.name
  root : p'.root = p.root
  packageManager : p'.packageManager = p.packageManager
  isMonorepo : p'.isMonorepo = p.isMonorepo
  usesStaticTyping : p'.usesStaticTyping = p.usesStaticTyping
  workspaces : ∀ w ∈ p'.workspaceList, w ∈ p.workspaceList

namespace Project

/-- The directory of a project stays where it is. -/
theorem rootOf_grown {fresh : String} (h : Tree.Grown fresh t t') {current : List String}
    {path : String} (hroot : rootOf t current path = .ok root) :
    rootOf t' current path = .ok root := by
  obtain ⟨hresolve, -, hfolder⟩ := rootOf_eq_ok.mp hroot
  have hfolder' := (Tree.isFolder?_grown h root).trans hfolder
  refine rootOf_eq_ok.mpr ⟨?_, ?_, hfolder'⟩
  · rw [Tree.resolve_eq h.new, ← Tree.resolve_eq h.old, hresolve]
  · unfold Tree.isFolder? Tree.holdsAt at hfolder'
    unfold Tree.exists? Tree.holdsAt
    cases haccess : t'.access root with
    | ok found => rfl
    | error fault =>
      rw [haccess] at hfolder'
      dsimp only at hfolder'
      split at hfolder' <;> cases hfolder'

theorem declaresMonorepo_amended (hE : Aimed E t) (ht : t.Ordinary) (h : Amended E t t')
    (root : List String) : declaresMonorepo t' root (Manifest.read t' root) =
      declaresMonorepo t root (Manifest.read t root) := by
  have hgrown := h.grown hE ht
  unfold declaresMonorepo
  rw [Tree.exists?_grown hgrown root (by decide) (by decide) (by decide),
    Tree.exists?_grown hgrown root (by decide) (by decide) (by decide),
    (h.manifest hE ht root).other (by decide) (by decide)]

theorem workspacesOf_amended (hE : Aimed E t) (ht : t.Ordinary) (h : Amended E t t')
    (hroot : Workspaces.Steps root) {isMonorepo : Bool} {found : Option (List Workspace)}
    (hw : workspacesOf t root (Manifest.read t root) isMonorepo = .ok found) :
    ∃ found', workspacesOf t' root (Manifest.read t' root) isMonorepo = .ok found' ∧
      ∀ w ∈ found'.getD [], w ∈ found.getD [] := by
  unfold workspacesOf at hw ⊢
  cases isMonorepo with
  | false => exact ⟨none, rfl, fun _ hw => by cases hw⟩
  | true =>
    cases hd : Workspaces.discover t root (Manifest.read t root) with
    | error fault =>
      rw [hd] at hw
      cases hw
    | ok workspaces =>
      rw [hd] at hw
      cases hw
      obtain ⟨found', hd', hsub⟩ := Workspaces.discover_amended hE ht h hroot hd
      exact ⟨some found', by rw [if_pos rfl, hd']; rfl, hsub⟩

/-- The project is described again. -/
theorem describe_amended (hE : Aimed E t) (ht : t.Ordinary) (h : Amended E t t')
    (hroot : Workspaces.Steps root) {project : Project} (hd : describe t root = .ok project) :
    ∃ project', describe t' root = .ok project' ∧ Alike project project' := by
  have hgrown := h.grown hE ht
  have hkept := h.manifest hE ht root
  obtain ⟨hdeep, hasOrchestrator, isMonorepo, workspaces, manager, typed, horchestrator, hmonorepo,
    hworkspaces, hmanager, htyped, rfl⟩ := describe_eq_ok.mp hd
  have hdeep' := mt (h.isTooDeep_manifest hE ht root).mp hdeep
  obtain ⟨workspaces', hworkspaces', hsub⟩ := workspacesOf_amended hE ht h hroot hworkspaces
  have hlocks : ∀ file ∈ lockFiles, file.1 ≠ "." ∧ file.1 ≠ ".." ∧ file.1 ≠ ".gitignore" := by decide
  refine ⟨_, describe_eq_ok.mpr ⟨hdeep', hasOrchestrator, isMonorepo, workspaces', manager, typed, ?_,
    ?_, hworkspaces', ?_, ?_, rfl⟩, ?_⟩
  · rw [Tree.exists?_grown hgrown root (by decide) (by decide) (by decide), horchestrator]
  · rw [declaresMonorepo_amended hE ht h, hmonorepo]
  · rw [detectPackageManager_congr fun file hfile => ?_, hmanager]
    obtain ⟨h1, h2, h3⟩ := hlocks file hfile
    exact Tree.exists?_grown hgrown root h1 h2 h3
  · rw [Tree.exists?_grown hgrown root (by decide) (by decide) (by decide), htyped]
  · refine ⟨?_, ?_, rfl, rfl, rfl, rfl, hsub⟩
    · unfold described
      dsimp only
      rw [hkept.has_dependency]
    · unfold described
      dsimp only
      rw [hkept.label?_eq (by decide) (by decide)]

end Project

end Checkup
