import Checkup.Proofs.Repair.Apart
import Checkup.Proofs.Repair.Dependencies

/-!
# Versions of workspaces that are reported

The rule on the workspace protocol looks at all dependencies of a manifest together, where an entry for
development stands for one of the same name for runtime. Its repair goes through the sections one by
one. So it would rewrite an entry that no finding tells of: a plain version for runtime behind another
entry for development.

* `check_eq`: the findings are about the versions that are shown.
* `versionIn_localize`: which entries a repair rewrites.
* `check_reports_shown`: a version is reported if it is to be rewritten and not shadowed.
* `unreported_shadowedTree`: a shadowed version.
-/

namespace Checkup

open Json (Members)
open Monorepo (workspaces fileIn)
open Monorepo.WorkspaceProtocol (names plainVersion? anyVersion localize findings check fix)

/-- A dependency of a workspace on a workspace, by a plain version. -/
structure Versioned where
  workspace : Workspace
  dependency : Label
  version : Label
  deriving DecidableEq

namespace Versioned

/-- What is said of it. -/
def finding (v : Versioned) : Finding := plainDependency v.workspace v.dependency v.version

/-- The dependency of an entry, if it is one on a workspace by a plain version. -/
def ofMember? (names : List Label) (w : Workspace) (entry : Label × Json) : Option Versioned :=
  match plainVersion? entry.2 with
  | some version => if names.contains entry.1 then some ⟨w, entry.1, version⟩ else none
  | none => none

/-- The dependencies of a workspace on workspaces, by plain versions, as its manifest shows them. -/
def ofWorkspace (c : Context) (t : Tree) (w : Workspace) : List Versioned :=
  match c.readMembers? t (fileIn w Manifest.fileName) with
  | none => []
  | some manifest => (Manifest.dependencies manifest).filterMap (ofMember? (names c) w)

/-- The dependencies of all workspaces on workspaces, by plain versions. -/
def all (c : Context) (t : Tree) : List Versioned := (workspaces c).flatMap (ofWorkspace c t)

end Versioned

variable {c : Context} {t : Tree}

theorem findings_eq (c : Context) (w : Workspace) (manifest : Members) :
    findings c (fileIn w Manifest.fileName) manifest =
      ((Manifest.dependencies manifest).filterMap (Versioned.ofMember? (names c) w)).map
        Versioned.finding := by
  rw [List.map_filterMap, List.filterMap_eq_flatMap_toList]
  refine congrArg (List.flatMap · _) (funext fun entry => ?_)
  obtain ⟨key, value⟩ := entry
  unfold Versioned.ofMember?
  dsimp only
  cases plainVersion? value with
  | none => rfl
  | some version =>
    dsimp only
    split
    · rfl
    · rfl

/-- The findings are about these dependencies, if all manifests can be read. -/
theorem check_eq (c : Context) (t : Tree) : check c t =
    if ∃ w ∈ workspaces c, c.IsTooDeep t (fileIn w "package.json") then .error (.file .tooDeep)
    else .ok ((Versioned.all c t).map Versioned.finding) := by
  have hfindings : ∀ w, ((c.readMembers? t (fileIn w Manifest.fileName)).map
      (findings c (fileIn w Manifest.fileName))).getD [] =
        (Versioned.ofWorkspace c t w).map Versioned.finding := by
    intro w
    unfold Versioned.ofWorkspace
    cases c.readMembers? t (fileIn w Manifest.fileName) with
    | none => rfl
    | some manifest => exact findings_eq c w manifest
  unfold check
  dsimp only
  rw [Except.mapM_of_ite fun w => Rule.findingsIn_eq]
  simp only [hfindings]
  unfold Versioned.all
  rw [List.map_flatMap, List.flatMap_def]
  by_cases hdeep : ∃ w ∈ workspaces c, c.IsTooDeep t (fileIn w "package.json")
  · rw [if_pos hdeep]
    exact congrArg (Except.map List.flatten) (if_pos hdeep)
  · rw [if_neg hdeep]
    exact congrArg (Except.map List.flatten) (if_neg hdeep)

theorem ofMember?_eq_some {ws : List Label} {w : Workspace} {entry : Label × Json} {v : Versioned} :
    Versioned.ofMember? ws w entry = some v ↔ v.workspace = w ∧ entry.1 = v.dependency ∧
      plainVersion? entry.2 = some v.version ∧ v.dependency ∈ ws := by
  obtain ⟨key, value⟩ := entry
  obtain ⟨w', dependency, version⟩ := v
  unfold Versioned.ofMember?
  dsimp only
  split
  · rename_i found hversion
    rw [hversion]
    simp only [List.contains_iff_mem, Option.ite_none_right_eq_some, Option.some.injEq,
      Versioned.mk.injEq]
    constructor
    · rintro ⟨hmem, rfl, rfl, rfl⟩
      exact ⟨rfl, rfl, rfl, hmem⟩
    · rintro ⟨rfl, rfl, rfl, hmem⟩
      exact ⟨hmem, rfl, rfl, rfl⟩
  · rename_i hnone
    rw [hnone]
    exact iff_of_false (by rintro ⟨⟩) fun h => by cases h.2.2.1

/-! ## Versions in the sections of a manifest -/

/-- The version of a dependency in a section of a manifest. -/
def versionIn (manifest : Members) (name : String) (dependency : Label) : Option Json :=
  (Manifest.section? manifest name).bind (·.get? dependency)

/-- A plain version of a dependency for runtime stands behind a version for development that is none. -/
def Shadowed (dependency : Label) (manifest : Members) : Prop :=
  plainUnder dependency manifest "dependencies" = true ∧
    ∃ value, versionIn manifest "devDependencies" dependency = some value ∧ plainVersion? value = none

theorem plainUnder_iff {dependency : Label} {manifest : Members} {name : String} :
    plainUnder dependency manifest name = true ↔ ∃ value version,
      versionIn manifest name dependency = some value ∧ plainVersion? value = some version := by
  have hplain : plainUnder dependency manifest name =
      ((versionIn manifest name dependency).bind plainVersion?).isSome := by
    unfold plainUnder versionIn plainIn
    cases Manifest.section? manifest name with
    | none => rfl
    | some members => rfl
  rw [hplain, Option.isSome_iff_exists, exists_comm]
  simp only [Option.bind_eq_some_iff]

/-- The version that all dependencies of a manifest together show is that for development, or else
that for runtime. -/
theorem get?_dependencies_eq {manifest : Members} (hread : Json.Fits (.obj manifest))
    (dependency : Label) : (Manifest.dependencies manifest).get? dependency =
      (versionIn manifest "devDependencies" dependency).or
        (versionIn manifest "dependencies" dependency) := by
  have hsection : ∀ name, ((Manifest.section? manifest name).getD []).keys.Nodup := by
    intro name
    cases readable_section hread.readable name with
    | obj _ hnodup _ => exact hnodup
  have hversion : ∀ name, ((Manifest.section? manifest name).getD []).get? dependency =
      versionIn manifest name dependency := by
    intro name
    unfold versionIn
    cases Manifest.section? manifest name with
    | none => rfl
    | some members => rfl
  rw [dependencies_eq, Members.get?_merge _ (hsection _), Members.get?_merge _ (hsection _),
    hversion, hversion, Members.get?_nil, Option.or_none]

/-- The entries show a plain version of a dependency if a section has one that is not shadowed. -/
theorem shows_plain_iff {manifest : Members} (hread : Json.Fits (.obj manifest))
    (dependency : Label) :
    (∃ value version, (dependency, value) ∈ Manifest.dependencies manifest ∧
      plainVersion? value = some version) ↔
      (∃ name ∈ Manifest.dependencySections, plainUnder dependency manifest name = true) ∧
        ¬ Shadowed dependency manifest := by
  have hentry : ∀ value, (dependency, value) ∈ Manifest.dependencies manifest ↔
      (versionIn manifest "devDependencies" dependency).or
        (versionIn manifest "dependencies" dependency) = some value := by
    intro value
    rw [← get?_dependencies_eq hread]
    exact ⟨get?_of_mem (nodup_dependencies manifest), Association.mem_of_lookup⟩
  have hsections : (∃ name ∈ Manifest.dependencySections, plainUnder dependency manifest name = true) ↔
      plainUnder dependency manifest "devDependencies" = true ∨
        plainUnder dependency manifest "dependencies" = true := by
    unfold Manifest.dependencySections
    simp [or_comm]
  have hdev : plainUnder dependency manifest "devDependencies" = true ↔ _ := plainUnder_iff
  unfold Shadowed
  simp only [hentry, hsections]
  rw [hdev]
  cases versionIn manifest "devDependencies" dependency with
  | none => simp [plainUnder_iff]
  | some value =>
    cases hversion : plainVersion? value with
    | none => simp [hversion]
    | some version => simp [hversion]

/-! ## Entries that are rewritten -/

theorem localizeStep_eq (dependency : Label) (state : Members × Bool) (name : String) :
    localizeStep dependency state name =
      if plainUnder dependency state.1 name then
        (state.1.put name (.obj
          (((Manifest.section? state.1 name).getD []).put dependency (.str anyVersion))), true)
      else state := by
  unfold localizeStep
  rw [localizeIn_eq]
  cases plainUnder dependency state.1 name with
  | true => rfl
  | false => rfl

theorem versionIn_localizeStep (dependency : Label) (state : Members × Bool) (changed name : String) (other : Label) :
    versionIn (localizeStep dependency state changed).1 name other =
      if other = dependency ∧ name = changed ∧ plainUnder dependency state.1 changed = true then
        some (.str anyVersion)
      else versionIn state.1 name other := by
  rw [localizeStep_eq]
  cases hplain : plainUnder dependency state.1 changed with
  | false => simp
  | true =>
    unfold versionIn
    rw [if_pos rfl, section?_put]
    by_cases hname : name = changed
    · subst hname
      obtain ⟨members, hmembers⟩ : ∃ members, Manifest.section? state.1 name = some members := by
        unfold plainUnder at hplain
        cases hs : Manifest.section? state.1 name with
        | none =>
          rw [hs] at hplain
          cases hplain
        | some members => exact ⟨members, rfl⟩
      rw [if_pos rfl, hmembers, Option.bind_some, Option.getD_some, Option.bind_some, Members.get?_put]
      by_cases hother : other = dependency
      · rw [if_pos hother, if_pos ⟨hother, rfl, rfl⟩]
      · rw [if_neg hother, if_neg (fun h => hother h.1)]
    · rw [if_neg hname, if_neg (fun h => hname h.2.1)]

/-- A repair rewrites the plain versions of its dependency and no other entry. -/
theorem versionIn_localize (dependency : Label) (manifest : Members) {name : String}
    (hname : name ∈ Manifest.dependencySections) (other : Label) :
    versionIn (localize dependency manifest).1 name other =
      if other = dependency ∧ plainUnder dependency manifest name = true then some (.str anyVersion)
      else versionIn manifest name other := by
  rw [localize_eq]
  unfold Manifest.dependencySections at hname ⊢
  simp only [List.mem_cons, List.not_mem_nil, or_false] at hname
  have hlater : plainUnder dependency (localizeStep dependency (manifest, false) "dependencies").1
      "devDependencies" = plainUnder dependency manifest "devDependencies" := by
    have hne : "devDependencies" ≠ "dependencies" := by decide
    rw [Bool.eq_iff_iff, plainUnder_iff, plainUnder_iff, versionIn_localizeStep,
      if_neg fun h => hne h.2.1]
  rw [List.foldl_cons, List.foldl_cons, List.foldl_nil, versionIn_localizeStep, hlater,
    versionIn_localizeStep]
  rcases hname with rfl | rfl
  · simp
  · simp

/-- There is something to rewrite if a section has a plain version. -/
theorem changed_localize {manifest : Members} (hread : Json.Fits (.obj manifest)) (dependency : Label) :
    (localize dependency manifest).2 = true ↔
      ∃ name ∈ Manifest.dependencySections, plainUnder dependency manifest name = true := by
  have hidle : Amendment.localMembers dependency manifest = none ↔ _ := localMembers_eq_none hread
  rw [localMembers_eq] at hidle
  cases hchanged : (localize dependency manifest).2 with
  | false =>
    rw [hchanged, if_neg Bool.false_ne_true] at hidle
    refine iff_of_false Bool.false_ne_true ?_
    rintro ⟨name, hmem, hplain⟩
    rw [hidle.mp rfl name hmem] at hplain
    cases hplain
  | true =>
    rw [hchanged, if_pos rfl] at hidle
    refine iff_of_true rfl (by_contra fun hnot => ?_)
    cases hidle.mpr fun name hmem => Bool.eq_false_iff.mpr fun hplain => hnot ⟨name, hmem, hplain⟩

/-- The repair of a dependency of a workspace rewrites its manifest if a section has a plain version,
shadowed or not. -/
theorem fix_eq {w : Workspace} {f : Finding} (hfile : f.file = fileIn w "package.json")
    {dependency : Label} (hname : dependencyOf c f = some dependency) {manifest : Members}
    (hread : c.readMembers? t (fileIn w "package.json") = some manifest) :
    fix c t f =
      if ∃ name ∈ Manifest.dependencySections, plainUnder dependency manifest name = true then
        .ofWrite (c.writeJson t f.file (.obj (localize dependency manifest).1))
      else .unchanged t := by
  simp only [← changed_localize (Amendment.fits_membersOf hread)]
  rw [fix_protocol, hname]
  dsimp only
  rw [rewrite_localize, hfile, Repair.byMembers_eq,
    if_neg (Context.not_isTooDeep_of_readMembers? hread), hread]
  dsimp only
  rw [localMembers_eq]
  cases (localize dependency manifest).2 with
  | false => rfl
  | true => rfl

/-! ## What is reported -/

theorem mem_all_iff {v : Versioned} : v ∈ Versioned.all c t ↔ v.workspace ∈ workspaces c ∧
    v.dependency ∈ names c ∧ ∃ manifest,
      c.readMembers? t (fileIn v.workspace "package.json") = some manifest ∧ ∃ value,
        (v.dependency, value) ∈ Manifest.dependencies manifest ∧
        plainVersion? value = some v.version := by
  unfold Versioned.all
  rw [List.mem_flatMap]
  constructor
  · rintro ⟨w, hw, hv⟩
    unfold Versioned.ofWorkspace at hv
    split at hv
    · cases hv
    · rename_i manifest hread
      obtain ⟨⟨key, value⟩, hmem, hentry⟩ := List.mem_filterMap.mp hv
      obtain ⟨rfl, hkey, hversion, hname⟩ := ofMember?_eq_some.mp hentry
      dsimp only at hkey hversion
      exact ⟨hw, hname, manifest, hread, value, hkey ▸ hmem, hversion⟩
  · rintro ⟨hw, hname, manifest, hread, value, hmem, hversion⟩
    refine ⟨v.workspace, hw, ?_⟩
    have hread' : c.readMembers? t (fileIn v.workspace Manifest.fileName) = some manifest := hread
    unfold Versioned.ofWorkspace
    rw [hread']
    exact List.mem_filterMap.mpr ⟨_, hmem, ofMember?_eq_some.mpr ⟨rfl, rfl, hversion, hname⟩⟩

/-- The rule reports the plain versions of workspaces that a repair would rewrite, section by section,
but for those that are shadowed behind another version for development. It fails on a manifest that is
nested too deep, and on nothing else. -/
theorem check_reports_shown (c : Context) (t : Tree) :
    check c t =
      (if ∃ w ∈ workspaces c, c.IsTooDeep t (fileIn w "package.json") then .error (.file .tooDeep)
      else .ok ((Versioned.all c t).map Versioned.finding)) ∧
    (∀ w dependency, (∃ version, ⟨w, dependency, version⟩ ∈ Versioned.all c t) ↔
      w ∈ workspaces c ∧ dependency ∈ names c ∧ ∃ manifest,
        c.readMembers? t (fileIn w "package.json") = some manifest ∧
        (∃ name ∈ Manifest.dependencySections, plainUnder dependency manifest name = true) ∧
        ¬ Shadowed dependency manifest) ∧
    ∀ w manifest, c.readMembers? t (fileIn w "package.json") = some manifest →
      ∀ f dependency, f.file = fileIn w "package.json" → dependencyOf c f = some dependency →
        (fix c t f =
          if ∃ name ∈ Manifest.dependencySections, plainUnder dependency manifest name = true then
            .ofWrite (c.writeJson t f.file (.obj (localize dependency manifest).1))
          else .unchanged t) ∧
        ∀ name ∈ Manifest.dependencySections, ∀ other,
          versionIn (localize dependency manifest).1 name other =
            if other = dependency ∧ plainUnder dependency manifest name = true then
              some (.str anyVersion)
            else versionIn manifest name other := by
  refine ⟨check_eq c t, fun w dependency => ?_, fun w manifest hread f dependency hfile hname =>
    ⟨fix_eq hfile hname hread, fun name hmem other => versionIn_localize dependency manifest hmem other⟩⟩
  simp only [mem_all_iff]
  constructor
  · rintro ⟨version, hw, hname, manifest, hread, value, hmem, hversion⟩
    exact ⟨hw, hname, manifest, hread,
      (shows_plain_iff (Amendment.fits_membersOf hread) dependency).mp ⟨value, version, hmem, hversion⟩⟩
  · rintro ⟨hw, hname, manifest, hread, hshown⟩
    obtain ⟨value, version, hmem, hversion⟩ :=
      (shows_plain_iff (Amendment.fits_membersOf hread) dependency).mpr hshown
    exact ⟨version, hw, hname, manifest, hread, value, hmem, hversion⟩

/-! ## A version that is shadowed -/

/-- A project with a workspace that another one depends on in both sections. -/
def shadowedTree : Tree :=
  ⟨[(["r"], .folder), (["r", "a"], .folder), (["r", "b"], .folder),
    (["r", "a", "package.json"], .file "\x7b\"name\": \"a\"\x7d".toUTF8),
    (["r", "b", "package.json"], .file
      "\x7b\"dependencies\": \x7b\"a\": \"1\"\x7d, \"devDependencies\": \x7b\"a\": \"workspace:*\"\x7d\x7d".toUTF8)]⟩

/-- The workspaces of the project. -/
def shadowedWorkspaces : List Workspace :=
  [⟨"a", "a", "/r/a", .generic, true⟩, ⟨"b", "b", "/r/b", .generic, true⟩]

/-- The context of the project as a whole. -/
def shadowedContext : Context :=
  .forRoot ["r"] ⟨.monorepo, "r", "/r", .unknown, true, false, none, some shadowedWorkspaces, none, none, none⟩
    false "" []

/-- The plain version for runtime is not reported, although a repair would rewrite it. -/
theorem unreported_shadowedTree : check shadowedContext shadowedTree = .ok [] ∧
    .text "a" ∈ names shadowedContext ∧
    (shadowedContext.readMembers? shadowedTree "b/package.json").any
      (plainUnder "a" · "dependencies") = true ∧
    (fix shadowedContext shadowedTree (plainDependency ⟨"b", "b", "/r/b", .generic, true⟩ "a" "1")).1.toOption =
      some true := by
  refine ⟨?_, ?_, ?_, ?_⟩ <;> decide +kernel

end Checkup
