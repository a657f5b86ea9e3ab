import Checkup.Proofs.Project.Description
import Checkup.Proofs.Rule.Labels
import Checkup.Proofs.Run.WriteSet

/-!
# What results say

A result tells the names and versions of a project and its workspaces, and what its findings say.
Whatever the manifests hold, each of these labels is read again as it is written.

* `Diagnosis.labels`: the labels of a result.
* `Project.sound_of_describe`: the names and versions of a project.
* `Run.sound_of_run`: the labels of a run's result.
-/

namespace Checkup

/-- The names and versions in a description. -/
def Project.labels (p : Project) : List Label :=
  p.name :: (p.version.toList ++ p.frameworkVersion.toList ++ p.uiLibraryVersion.toList ++
    p.orchestratorVersion.toList ++ p.workspaceList.map (·.name))

/-- What a result says, but for fixed words and paths. -/
def Diagnosis.labels (d : Diagnosis) : List Label :=
  d.project.labels ++ d.findings.flatMap Finding.labels

/-- What a result says is read again as it is written. -/
def Diagnosis.IsSound (d : Diagnosis) : Prop := ∀ l ∈ d.labels, Json.IsSound l

/-! ## Projects -/

variable {t : Tree} {root : Location}

theorem Manifest.readable_read (t : Tree) (directory : List String) :
    Json.Readable (.obj (read t directory)) := by
  unfold read
  split
  · exact Json.fits_empty.readable
  · rename_i text _
    have hread : (Json.parse? text).bind Json.members? = Amendment.membersOf text := rfl
    rw [hread]
    cases hmembers : Amendment.membersOf text with
    | none => exact Json.fits_empty.readable
    | some members => exact (Amendment.fits_membersOf hmembers).readable

namespace Workspaces

/-- What holds of all descriptions holds of all workspaces that are added. -/
theorem forall_addAll {P : Workspace → Prop}
    (hP : ∀ {directory path w}, describe t root directory path = .ok w → P w)
    {directories : List (List String)} {found all : List Workspace} (hfound : ∀ w ∈ found, P w)
    (h : addAll t root found directories = .ok all) : ∀ w ∈ all, P w := by
  induction directories generalizing found with
  | nil =>
    cases h
    exact hfound
  | cons directory rest ih =>
    rw [addAll] at h
    obtain ⟨path, -, h⟩ := Except.bind_eq_ok.mp h
    split at h
    · exact ih hfound h
    · obtain ⟨w, hw, h⟩ := Except.bind_eq_ok.mp h
      exact ih (List.forall_mem_append.mpr ⟨hfound, List.forall_mem_singleton.mpr (hP hw)⟩) h

theorem forall_addPatterns {P : Workspace → Prop}
    (hP : ∀ {directory path w}, describe t root directory path = .ok w → P w)
    {patterns : List Label} {found all : List Workspace} (hfound : ∀ w ∈ found, P w)
    (h : addPatterns t root found patterns = .ok all) : ∀ w ∈ all, P w := by
  induction patterns generalizing found with
  | nil =>
    cases h
    exact hfound
  | cons pattern rest ih =>
    obtain ⟨directories, -, found', hadd, h⟩ := addPatterns_cons.mp h
    exact ih (forall_addAll hP hfound hadd) h

theorem sound_of_describe {directory : List String} {path : String} {w : Workspace}
    (h : describe t root directory path = .ok w) : Json.IsSound w.name := by
  obtain ⟨hasManifest, manifest, -, hmanifest, rfl⟩ := describe_eq_ok.mp h
  have hread : Json.Readable (.obj manifest) := by
    cases hasManifest with
    | true => exact (Manifest.load_eq_ok_iff.mp hmanifest).2 ▸ Manifest.readable_read t directory
    | false =>
      cases hmanifest
      exact Json.fits_empty.readable
  dsimp only
  cases hname : Manifest.label? manifest "name" with
  | none => exact Json.isSound_text _
  | some name =>
    exact Manifest.isSound_label? (fun m hm => (Manifest.readable_members hread m hm).2) hname

end Workspaces

namespace Project

/-- The names and versions of a project come from manifests, or from the names of folders. -/
theorem sound_of_describe {project : Project} (h : describe t root = .ok project) :
    ∀ l ∈ project.labels, Json.IsSound l := by
  have hworkspaces : ∀ w ∈ project.workspaceList, Json.IsSound w.name := by
    intro w hw
    obtain ⟨patterns, hfound⟩ := discover_of_mem h hw
    exact Workspaces.forall_addPatterns Workspaces.sound_of_describe
      (fun _ h => absurd h List.not_mem_nil) hfound w hw
  obtain ⟨-, _, _, workspaces, _, _, -, -, -, -, -, rfl⟩ := describe_eq_ok.mp h
  have hread := Manifest.readable_read t root
  generalize Manifest.read t root = manifest at hread hworkspaces ⊢
  have hmembers := fun m hm => (Manifest.readable_members hread m hm).2
  have hdependencies := fun m hm => (Manifest.readable_dependencies hread m hm).2
  have hname : Json.IsSound ((Manifest.label? manifest "name").getD (.text (root.getLast?.getD ""))) := by
    cases hname : Manifest.label? manifest "name" with
    | none => exact Json.isSound_text _
    | some name => exact Manifest.isSound_label? hmembers hname
  unfold labels
  simp only [List.forall_mem_cons, List.forall_mem_append, Option.mem_toList]
  exact ⟨hname, ⟨⟨⟨fun _ h => Manifest.isSound_label? hmembers h,
    fun _ h => Manifest.isSound_label? hdependencies h⟩,
    fun _ h => Manifest.isSound_label? hdependencies h⟩,
    fun _ h => Manifest.isSound_label? hdependencies h⟩, List.forall_mem_map.mpr hworkspaces⟩

end Project

/-! ## Runs -/

namespace Run

variable {current : List String} {path : String} {o : Options}

/-- What a plan's rules find is sound. -/
theorem sound_of_plan {p : Plan} (h : plan none t current path o = .ok p) :
    ∀ f ∈ findings (outcomes p t), f.IsSound := by
  intro f hf
  obtain ⟨r, hr, rule, hrule, -, found, hfound, g, hg, rfl⟩ := mem_findings_iff.mp hf
  obtain ⟨-, root, -, hdescribe, -, hroots, -⟩ := plan_eq_ok.mp h
  have hlabels := Project.sound_of_describe hdescribe
  have hnames : ∀ w ∈ r.project.workspaceList, Json.IsSound w.name := by
    intro w hw
    rcases mem_ofProject hroots hr with ⟨kind, rfl⟩ | ⟨_, -, -, hof⟩
    · exact hlabels w.name (List.mem_cons_of_mem _ (List.mem_append_right _ (List.mem_map_of_mem hw)))
    · obtain ⟨-, _, -, rfl⟩ := ofWorkspace_eq_ok.mp hof
      cases hw
  have hsound := Registry.sound_builtIn rule (mem_rules_of_plan h rule hrule)
  exact hsound (r.context p.ignoreRules) t hnames g ((Except.mem_of_mem_ok hfound).mp hg)

/-- The result of a run says nothing that would be read in another way than it is written. -/
theorem sound_of_run {d : Diagnosis} {t' : Tree} (h : run none t current path o = (.ok d, t')) :
    d.IsSound := by
  obtain ⟨p, hplan, rfl, -⟩ := run_eq_ok.mp h
  obtain ⟨-, root, -, hdescribe, -⟩ := plan_eq_ok.mp hplan
  refine List.forall_mem_append.mpr ⟨Project.sound_of_describe hdescribe, ?_⟩
  exact List.forall_mem_flatMap.mpr (sound_of_plan hplan)

end Run

end Checkup
