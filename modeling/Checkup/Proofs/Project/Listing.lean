import Checkup.Proofs.Project.Description

/-!
# The list of the workspaces

A path is taken once, and a path tells its directory, so the list names no directory twice in one
spelling. A workspace is an application of the framework or a plain package.

* `Project.listed`: the workspaces lie under different paths.
* `Project.kind_workspace`: what a workspace can be.
-/

namespace Checkup

/-- The workspaces of a project lie under different paths. -/
def Project.Listed (p : Project) : Prop :=
  p.workspaceList.Pairwise fun w w' => Path.steps w.path ≠ Path.steps w'.path

namespace Workspaces

variable {t : Tree} {root : List String} {found all : List Workspace}

theorem nodup_addAll {directories : List (List String)} (hfound : (found.map (·.path)).Nodup)
    (h : addAll t root found directories = .ok all) : (all.map (·.path)).Nodup := by
  induction directories generalizing found with
  | nil =>
    cases h
    exact hfound
  | cons directory rest ih =>
    rw [addAll] at h
    obtain ⟨path, hpath, h⟩ := Except.bind_eq_ok.mp h
    split at h
    · exact ih hfound h
    · rename_i hnew
      obtain ⟨w, hdescribe, h⟩ := Except.bind_eq_ok.mp h
      refine ih ?_ h
      rw [List.map_append, List.map_singleton, path_describe hdescribe]
      refine List.nodup_append.mpr ⟨hfound, List.pairwise_singleton _ path, ?_⟩
      rintro other hother path' hpath' rfl
      obtain rfl := List.mem_singleton.mp hpath'
      obtain ⟨w', hw', heq⟩ := List.mem_map.mp hother
      simp only [Bool.or_eq_true, decide_eq_true_eq, List.any_eq_true, not_or, not_exists, not_and,
        beq_iff_eq] at hnew
      exact hnew.2 w' hw' heq

theorem nodup_addPatterns {patterns : List Label} (hfound : (found.map (·.path)).Nodup)
    (h : addPatterns t root found patterns = .ok all) : (all.map (·.path)).Nodup := by
  induction patterns generalizing found with
  | nil =>
    cases h
    exact hfound
  | cons pattern rest ih =>
    obtain ⟨directories, -, found', hadd, h⟩ := addPatterns_cons.mp h
    exact ih (nodup_addAll hfound hadd) h

/-- The path of a workspace is spelled in one way. -/
theorem IsFound.spelled {w : Workspace} (h : IsFound t root w) :
    Path.relative (Path.steps w.path) = w.path := by
  obtain ⟨d, hd, ⟨hpath, -, -⟩, -⟩ := h
  obtain ⟨rest, rfl, hrest⟩ := relativePath_eq_ok hpath
  rw [hrest, Path.steps_relative fun name hn => hd name (List.mem_append_right root hn)]

/-- A workspace without a name of its own goes by the name of its directory. -/
theorem IsFound.name_ne_empty {w : Workspace} (h : IsFound t root w) : w.name ≠ .text "" := by
  obtain ⟨d, hd, ⟨hpath, hdescribe, hself⟩, -⟩ := h
  obtain ⟨rest, rfl, hrest⟩ := relativePath_eq_ok hpath
  have hne : root ++ rest ≠ [] := by
    intro hnil
    obtain ⟨-, rfl⟩ := List.append_eq_nil_iff.mp hnil
    exact hself hrest
  have hlast : ((root ++ rest).getLast?).getD "" ≠ "" := by
    rw [List.getLast?_eq_some_getLast hne]
    exact (hd _ (List.getLast_mem hne)).ne_empty
  obtain ⟨_, manifest, -, -, hw⟩ := describe_eq_ok.mp hdescribe
  rw [hw]
  dsimp only
  cases hlabel : Manifest.label? manifest "name" with
  | none => exact fun heq => hlast (Label.text.inj heq)
  | some label =>
    obtain ⟨value, -, hvalue⟩ := Option.bind_eq_some_iff.mp hlabel
    obtain ⟨-, hne⟩ := Option.filter_eq_some_iff.mp hvalue
    exact of_decide_eq_true hne

theorem packageKind_cases (manifest : Json.Members) :
    packageKind manifest = .frameworkApp ∨ packageKind manifest = .generic := by
  unfold packageKind
  split
  · exact .inl rfl
  · exact .inr rfl

theorem IsFound.kind {w : Workspace} (h : IsFound t root w) :
    w.kind = .frameworkApp ∨ w.kind = .generic := by
  obtain ⟨d, -, ⟨-, hdescribe, -⟩, -⟩ := h
  obtain ⟨_, manifest, -, -, hw⟩ := describe_eq_ok.mp hdescribe
  rw [hw]
  exact packageKind_cases manifest

end Workspaces

namespace Project

variable {t : Tree} {root : Location} {project : Project}

/-- The workspaces lie under different paths. -/
theorem listed (ht : t.Named) (hroot : Workspaces.Steps root)
    (h : describe t root = .ok project) : project.Listed := by
  unfold Listed
  cases hlist : project.workspaceList with
  | nil => exact .nil
  | cons first rest =>
    have hfirst : first ∈ project.workspaceList := hlist ▸ List.mem_cons_self ..
    rw [← hlist]
    obtain ⟨patterns, hpatterns⟩ := discover_of_mem h hfirst
    have hnodup := Workspaces.nodup_addPatterns (by simp) hpatterns
    refine (List.pairwise_map.mp hnodup).imp_of_mem fun {w w'} hw hw' hne heq => hne ?_
    rw [← (workspaces_found ht hroot h hw).spelled, ← (workspaces_found ht hroot h hw').spelled, heq]

/-- What a workspace can be. -/
theorem kind_workspace (ht : t.Named) (hroot : Workspaces.Steps root)
    (h : describe t root = .ok project) {w : Workspace} (hw : w ∈ project.workspaceList) :
    w.kind = .frameworkApp ∨ w.kind = .generic :=
  (workspaces_found ht hroot h hw).kind

end Project

end Checkup
