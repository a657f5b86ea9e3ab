import Checkup.Project.Detect
import Checkup.Proofs.Project.Workspaces
import Checkup.Proofs.Scan.Reading
import Checkup.Proofs.Tree.Links

/-!
# The description of a project

A project is described by its directory, its manifest, and what is found beside it.

* `describe_eq_ok`, `describe_congr`: what the description of a project is made of.
* `rootOf_eq_ok`: the directory of the project that a path leads to.
* `workspaces_found`: its workspaces are the descriptions of directories.
-/

namespace Checkup.Project

variable {t : Tree} {root : Location}

/-! ## The directory of a project -/

theorem rootOf_eq_ok {current : List String} {path : String} : rootOf t current path = .ok root ↔
    t.resolve current path = .ok root ∧ t.exists? root = .ok true ∧ t.isFolder? root = .ok true := by
  unfold rootOf
  cases t.resolve current path with
  | error fault => exact iff_of_false (fun h => by cases h) fun h => by cases h.1
  | ok found =>
    rw [Except.bind_eq_ok]
    simp only [Except.mapError_eq_ok, Except.ok.injEq, exists_eq_left']
    constructor
    · intro h
      obtain ⟨exists?, hexists, h⟩ := Except.bind_eq_ok.mp h
      rw [Except.mapError_eq_ok] at hexists
      cases exists? with
      | false => cases h
      | true =>
        obtain ⟨isFolder, hfolder, h⟩ := Except.bind_eq_ok.mp h
        rw [Except.mapError_eq_ok] at hfolder
        cases isFolder with
        | false => cases h
        | true =>
          cases h
          exact ⟨rfl, hexists, hfolder⟩
    · rintro ⟨rfl, hexists, hfolder⟩
      rw [hexists, hfolder]
      rfl

theorem plain_of_rootOf (ht : t.Ordinary) {current : List String} {path : String}
    (h : rootOf t current path = .ok root) : Tree.Plain root := by
  have hresolve := (rootOf_eq_ok.mp h).1
  rw [Tree.resolve_eq ht] at hresolve
  split at hresolve
  · cases hresolve
  · cases hresolve
    exact Tree.plain_lexical Tree.plain_nil _

/-- The directory of a project is a folder. -/
theorem folder_of_rootOf (ht : t.Ordinary) {current : List String} {path : String}
    (h : rootOf t current path = .ok root) : t.node? root = some .folder := by
  obtain ⟨l, haccess⟩ := Tree.access_of_isFolder (rootOf_eq_ok.mp h).2.2
  obtain ⟨rfl, hnode⟩ := Tree.find_present ht (Tree.find_of_access haccess)
  rwa [Tree.lexical_of_plain (plain_of_rootOf ht h), List.nil_append] at hnode

/-! ## The description -/

/-- The workspaces of a project, if it is a monorepo. -/
def workspacesOf (t : Tree) (root : Location) (manifest : Json.Members) (isMonorepo : Bool) :
    Except DetectFault (Option (List Workspace)) :=
  if isMonorepo then (Workspaces.discover t root manifest).map some else .ok none

/-- The description of a project from what was found beside its manifest. -/
def described (manifest : Json.Members) (root : Location) (hasOrchestrator isMonorepo : Bool)
    (workspaces : Option (List Workspace)) (manager : PackageManager) (typed : Bool) : Project :=
  let dependencies := Manifest.dependencies manifest
  { kind :=
      if hasOrchestrator then .monorepo
      else if dependencies.has Workspaces.frameworkDependency then .frameworkApp
      else .generic
    name := (Manifest.label? manifest "name").getD (.text (root.getLast?.getD ""))
    root := Path.absolute root
    packageManager := manager
    isMonorepo := isMonorepo
    usesStaticTyping := typed
    version := Manifest.label? manifest "version"
    workspaces := workspaces
    frameworkVersion := Manifest.label? dependencies "next"
    uiLibraryVersion := Manifest.label? dependencies "react"
    orchestratorVersion := Manifest.label? dependencies "turbo" }

/-- What the description of a project is made of. -/
theorem describe_eq_ok {project : Project} : describe t root = .ok project ↔
    ¬ Manifest.IsTooDeep t root ∧ ∃ hasOrchestrator isMonorepo workspaces manager typed,
      t.exists? (root ++ [orchestratorConfig]) = .ok hasOrchestrator ∧
      declaresMonorepo t root (Manifest.read t root) = .ok isMonorepo ∧
      workspacesOf t root (Manifest.read t root) isMonorepo = .ok workspaces ∧
      detectPackageManager t root lockFiles = .ok manager ∧
      t.exists? (root ++ ["tsconfig.json"]) = .ok typed ∧
      project = described (Manifest.read t root) root hasOrchestrator isMonorepo workspaces
        manager typed := by
  unfold describe
  constructor
  · intro h
    obtain ⟨manifest, hmanifest, h⟩ := Except.bind_eq_ok.mp h
    rw [Except.mapError_eq_ok] at hmanifest
    obtain ⟨hdeep, rfl⟩ := Manifest.load_eq_ok_iff.mp hmanifest
    obtain ⟨hasOrchestrator, horchestrator, h⟩ := Except.bind_eq_ok.mp h
    obtain ⟨isMonorepo, hmonorepo, h⟩ := Except.bind_eq_ok.mp h
    rw [Except.mapError_eq_ok] at horchestrator hmonorepo
    obtain ⟨workspaces, hworkspaces, h⟩ : ∃ workspaces,
        workspacesOf t root (Manifest.read t root) isMonorepo = .ok workspaces ∧
        (do
          let manager ← (detectPackageManager t root lockFiles).mapError DetectFault.access
          let typed ← (t.exists? (root ++ ["tsconfig.json"])).mapError DetectFault.access
          pure (described (Manifest.read t root) root hasOrchestrator isMonorepo workspaces
            manager typed)) = Except.ok project := by
      cases isMonorepo with
      | false => exact ⟨none, rfl, h⟩
      | true =>
        obtain ⟨found, hfound, h⟩ := Except.bind_eq_ok.mp h
        exact ⟨some found, by unfold workspacesOf; rw [hfound]; rfl, h⟩
    obtain ⟨manager, hmanager, h⟩ := Except.bind_eq_ok.mp h
    obtain ⟨typed, htyped, h⟩ := Except.bind_eq_ok.mp h
    rw [Except.mapError_eq_ok] at hmanager htyped
    cases h
    exact ⟨hdeep, _, _, _, _, _, horchestrator, hmonorepo, hworkspaces, hmanager, htyped, rfl⟩
  · rintro ⟨hdeep, hasOrchestrator, isMonorepo, workspaces, manager, typed, horchestrator, hmonorepo,
      hworkspaces, hmanager, htyped, rfl⟩
    rw [Manifest.load_eq_ok_iff.mpr ⟨hdeep, rfl⟩, horchestrator]
    dsimp only [Except.mapError, bind, Except.bind]
    rw [hmonorepo]
    unfold workspacesOf at hworkspaces
    cases isMonorepo with
    | false =>
      cases hworkspaces
      rw [hmanager, htyped]
      rfl
    | true =>
      cases hfound : Workspaces.discover t root (Manifest.read t root) with
      | error fault =>
        rw [hfound] at hworkspaces
        cases hworkspaces
      | ok found =>
        rw [hfound] at hworkspaces
        cases hworkspaces
        rw [hmanager, htyped]
        rfl

/-- The names that a description asks for beside those of its workspaces. -/
def lookedAt : List String :=
  [orchestratorConfig, Workspaces.listingName, "tsconfig.json"] ++ lockFiles.map Prod.fst

section

variable {t' : Tree}

theorem detectPackageManager_congr {files : List (String × PackageManager)}
    (h : ∀ file ∈ files, t'.exists? (root ++ [file.1]) = t.exists? (root ++ [file.1])) :
    detectPackageManager t' root files = detectPackageManager t root files := by
  induction files with
  | nil => rfl
  | cons file rest ih =>
    obtain ⟨hfile, hrest⟩ := List.forall_mem_cons.mp h
    rw [detectPackageManager, detectPackageManager, hfile, ih hrest]

/-- The description depends on the manifest, on the files beside it, and on the workspaces if there are
any. -/
theorem describe_congr (hmanifest : Manifest.load t' root = Manifest.load t root)
    (hbeside : ∀ name ∈ lookedAt, t'.exists? (root ++ [name]) = t.exists? (root ++ [name]))
    (hdiscover : declaresMonorepo t root (Manifest.read t root) = .ok true →
      Workspaces.discover t' root (Manifest.read t root) =
        Workspaces.discover t root (Manifest.read t root)) : describe t' root = describe t root := by
  have hconfig := hbeside orchestratorConfig (by decide)
  have hdeclares : declaresMonorepo t' root (Manifest.read t root) =
      declaresMonorepo t root (Manifest.read t root) := by
    unfold declaresMonorepo
    rw [hconfig, hbeside Workspaces.listingName (by decide)]
  have hmanager : detectPackageManager t' root lockFiles = detectPackageManager t root lockFiles :=
    detectPackageManager_congr fun file hfile =>
      hbeside file.1 (List.mem_append_right _ (List.mem_map_of_mem hfile))
  unfold describe
  rw [hmanifest, hconfig, hbeside "tsconfig.json" (by decide), hmanager]
  cases hload : Manifest.load t root with
  | error fault =>
    -- compared with one another both sides would be unfolded to the end
    exact Eq.trans (b := .error (.access fault)) rfl rfl
  | ok manifest =>
    obtain ⟨-, rfl⟩ := Manifest.load_eq_ok_iff.mp hload
    dsimp only [Except.mapError, bind, Except.bind]
    rw [hdeclares]
    cases hmonorepo : declaresMonorepo t root (Manifest.read t root) with
    | error fault => rfl
    | ok isMonorepo =>
      cases isMonorepo with
      | true => rw [hdiscover hmonorepo]
      | false => simp only [Bool.false_eq_true, if_false]

end

theorem steps_of_folder (ht : t.Ordinary) (hroot : t.node? root = some .folder) :
    Workspaces.Steps root := fun name hn => .of_name (ht.names hroot name hn)

theorem steps_root (hroot : Workspaces.Steps root) {project : Project}
    (h : describe t root = .ok project) : Path.steps project.root = root := by
  obtain ⟨-, _, _, _, _, _, -, -, -, -, -, rfl⟩ := describe_eq_ok.mp h
  exact Path.steps_absolute hroot

/-- The workspaces of a project are those that are discovered. -/
theorem discover_of_mem {project : Project} (h : describe t root = .ok project) {w : Workspace}
    (hw : w ∈ project.workspaceList) : ∃ patterns,
      Workspaces.addPatterns t root [] patterns = .ok project.workspaceList := by
  obtain ⟨-, _, isMonorepo, workspaces, _, _, -, -, hworkspaces, -, -, rfl⟩ := describe_eq_ok.mp h
  unfold workspacesOf at hworkspaces
  cases isMonorepo with
  | false =>
    cases hworkspaces
    cases hw
  | true =>
    cases hfound : Workspaces.discover t root (Manifest.read t root) with
    | error fault =>
      rw [hfound] at hworkspaces
      cases hworkspaces
    | ok found =>
      rw [hfound] at hworkspaces
      cases hworkspaces
      unfold Workspaces.discover at hfound
      obtain ⟨patterns, -, hfound⟩ := Except.bind_eq_ok.mp hfound
      exact ⟨patterns, hfound⟩

/-- The workspaces of a project are the descriptions of directories. -/
theorem workspaces_found (ht : t.Named) (hroot : Workspaces.Steps root) {project : Project}
    (h : describe t root = .ok project) {w : Workspace} (hw : w ∈ project.workspaceList) :
    Workspaces.IsFound t root w := by
  obtain ⟨patterns, hfound⟩ := discover_of_mem h hw
  exact (Workspaces.addPatterns_spec ht hroot (fun _ h => by cases h) hfound).2.2 w hw

end Checkup.Project
