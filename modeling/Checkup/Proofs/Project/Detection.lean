import Checkup.Proofs.Project.Description
import Checkup.Proofs.Tree.Resolution

/-!
# When a project can be described

The description of a project in a directory comes to a result unless its manifest is nested too deep or
its workspaces stand in the way: the listing may hold a value that does not exist, and a pattern may be
one that cannot be followed, that leads out of the project, or that selects a manifest nested too deep.

* `Workspaces.Harmless`, `Workspaces.IsHarmless`: a pattern that does not stand in the way.
* `Workspaces.discover_returns`: when the workspaces of a project are found.
* `Project.detect_returns`: when the project at a path is described.
-/

namespace Checkup

namespace Workspaces

variable {t : Tree} {root : List String} {s : Selection}

/-! ## Patterns -/

/-- The pattern can be followed, and what it selects lies in the project and can be looked into. -/
structure Harmless (t : Tree) (root : List String) (s : Selection) : Prop where
  /-- There is no null character below a wildcard. -/
  nul : s.wildcard = true → '\x00' ∉ s.base.toList
  /-- A directory that is meant itself can be looked at. -/
  seen : s.wildcard = false → '\x00' ∉ s.base.toList →
    (t.isFolder? (Path.stepsFrom root s.base)).Returns
  inside : ∀ {found}, matching t root s = .ok found → ∀ d ∈ found,
    Path.hasOwnRoot s.base = false ∧ root <+: d
  manifest : ∀ {found}, matching t root s = .ok found → ∀ d ∈ found, d ≠ root →
    (t.exists? (d ++ [Manifest.fileName])).Returns ∧ ¬ Manifest.IsTooDeep t d

/-- A pattern does not stand in the way. One that is no text selects nothing; but a wildcard is looked
for in a directory, and the name of that must be one that a directory can be asked for by. -/
def IsHarmless (t : Tree) (root : List String) : Label → Prop
  | .text pattern => ∀ s, selection? pattern = some s → Harmless t root s
  | .loose points _ => ∀ s, selection? (String.ofList (Text.nearestText points)) = some s →
    s.wildcard = true → (∀ n ∈ points, Text.isHalf n = true → Text.isByteHalf n = true) ∧ 0 ∉ points

theorem matching_returns : (matching t root s).Returns ↔
    (s.wildcard = true → '\x00' ∉ s.base.toList) ∧ (s.wildcard = false → '\x00' ∉ s.base.toList →
      (t.isFolder? (Path.stepsFrom root s.base)).Returns) := by
  unfold matching
  dsimp only
  cases s.wildcard with
  | true =>
    rw [if_pos rfl]
    by_cases hnul : '\x00' ∈ s.base.toList
    · rw [if_pos hnul]
      exact iff_of_false (fun ⟨_, h⟩ => by cases h) fun h => h.1 rfl hnul
    · rw [if_neg hnul]
      refine iff_of_true ?_ ⟨fun _ => hnul, fun h => by cases h⟩
      cases directoriesIn t (Path.stepsFrom root s.base) with
      | ok found => exact ⟨found, rfl⟩
      | error fault => exact ⟨[], rfl⟩
  | false =>
    rw [if_neg Bool.false_ne_true]
    by_cases hnul : '\x00' ∈ s.base.toList
    · rw [if_pos hnul]
      exact iff_of_true ⟨[], rfl⟩ ⟨fun h => (by cases h), fun _ hn => absurd hnul hn⟩
    · rw [if_neg hnul]
      cases t.isFolder? (Path.stepsFrom root s.base) with
      | ok isFolder =>
        refine iff_of_true ?_ ⟨fun h => (by cases h), fun _ _ => ⟨isFolder, rfl⟩⟩
        cases isFolder with
        | true => exact ⟨_, rfl⟩
        | false => exact ⟨_, rfl⟩
      | error fault =>
        refine iff_of_false (fun ⟨_, h⟩ => by cases h) fun h => ?_
        obtain ⟨_, h⟩ := h.2 rfl hnul
        cases h

/-! ## Directories -/

theorem isTooDeep_of_missing {directory : List String}
    (h : t.exists? (directory ++ [Manifest.fileName]) = .ok false) :
    ¬ Manifest.IsTooDeep t directory := by
  have hread : (t.readText (directory ++ [Manifest.fileName])).toOption = none := by
    unfold Tree.exists? Tree.holdsAt at h
    unfold Tree.readText Tree.readBytes
    cases haccess : t.access (directory ++ [Manifest.fileName]) with
    | error fault => rfl
    | ok found =>
      rw [haccess] at h
      cases h
  rintro ⟨text, htext, -⟩
  rw [hread] at htext
  cases htext

/-- A workspace is described if its manifest can be looked at and is not nested too deep. -/
theorem describe_returns {directory : List String} {path : String} :
    (describe t root directory path).Returns ↔
      (t.exists? (directory ++ [Manifest.fileName])).Returns ∧ ¬ Manifest.IsTooDeep t directory := by
  constructor
  · rintro ⟨w, hw⟩
    obtain ⟨hasManifest, manifest, hexists, hmanifest, -⟩ := describe_eq_ok.mp hw
    refine ⟨⟨hasManifest, hexists⟩, ?_⟩
    cases hasManifest with
    | false => exact isTooDeep_of_missing hexists
    | true => exact (Manifest.load_eq_ok_iff.mp hmanifest).1
  · rintro ⟨⟨hasManifest, hexists⟩, hdeep⟩
    cases hasManifest with
    | false => exact ⟨_, describe_eq_ok.mpr ⟨false, [], hexists, rfl, rfl⟩⟩
    | true =>
      have hload := Manifest.load_eq_ok_iff.mpr ⟨hdeep, rfl⟩
      exact ⟨_, describe_eq_ok.mpr ⟨true, _, hexists, hload, rfl⟩⟩

/-- The project itself has the path of no other directory. -/
theorem relativePath_eq_here {directory : List String} (hd : Steps directory)
    (h : relativePath root directory = .ok ".") : directory = root := by
  obtain ⟨rest, rfl, hrest⟩ := relativePath_eq_ok h
  have hsteps := Path.steps_relative fun name hn => hd name (List.mem_append_right root hn)
  rw [← hrest] at hsteps
  rw [← hsteps]
  exact List.append_nil root

theorem relativePath_of_prefix {directory : List String} (h : root <+: directory) :
    relativePath root directory = .ok (Path.relative (directory.drop root.length)) :=
  if_pos (List.isPrefixOf_iff_prefix.mpr h)

/-- Directories in the project that can be looked into are added. -/
theorem addAll_returns {directories : List (List String)} (hd : ∀ d ∈ directories, root <+: d ∧
      (d ≠ root → (t.exists? (d ++ [Manifest.fileName])).Returns ∧ ¬ Manifest.IsTooDeep t d)) (found : List Workspace) :
    (addAll t root found directories).Returns := by
  induction directories generalizing found with
  | nil => exact ⟨found, rfl⟩
  | cons directory rest ih =>
    obtain ⟨⟨hinside, hmanifest⟩, hrest⟩ := List.forall_mem_cons.mp hd
    rw [addAll, relativePath_of_prefix hinside]
    show (if _ then _ else _ : Except DetectFault (List Workspace)).Returns
    split
    · exact ih hrest found
    · rename_i hnew
      have hother : directory ≠ root := by
        rintro rfl
        refine hnew ?_
        rw [List.drop_length]
        rfl
      obtain ⟨w, hw⟩ := describe_returns.mpr (hmanifest hother)
      exact Except.returns_bind.mpr ⟨w, hw, ih hrest _⟩

/-- Directories that are covered can be looked into. -/
theorem of_covered {directory : List String} (hd : Steps directory) {all : List Workspace}
    (h : Covered t root all directory) : root <+: directory ∧
      (directory ≠ root → (t.exists? (directory ++ [Manifest.fileName])).Returns ∧
        ¬ Manifest.IsTooDeep t directory) := by
  obtain ⟨path, hpath, hcovered⟩ := h
  constructor
  · obtain ⟨rest, rfl, -⟩ := relativePath_eq_ok hpath
    exact List.prefix_append _ _
  · intro hne
    rcases hcovered with rfl | ⟨w, -, -, hdescribe⟩
    · exact absurd (relativePath_eq_here hd hpath) hne
    · exact describe_returns.mp ⟨w, hdescribe⟩

/-! ## Discovery -/

theorem select_returns_of_harmless (h : Harmless t root s) : (select t root s).Returns := by
  obtain ⟨found, hfound⟩ := matching_returns.mpr ⟨h.nul, h.seen⟩
  refine ⟨found, select_eq_ok.mpr ⟨hfound, fun hown => ?_⟩⟩
  refine List.eq_nil_iff_forall_not_mem.mpr fun d hd => ?_
  have hfalse := (h.inside hfound d hd).1
  rw [hown] at hfalse
  cases hfalse

theorem selectLoose_returns {points : List Nat} {hloose : Text.areLoose points = true} :
    (selectLoose points).Returns ↔ IsHarmless t root (.loose points hloose) := by
  have hbad : (points.any fun n => Text.isHalf n && !Text.isByteHalf n) = true ↔
      ¬ ∀ n ∈ points, Text.isHalf n = true → Text.isByteHalf n = true := by
    simp only [List.any_eq_true, Bool.and_eq_true, Bool.not_eq_true', not_forall, Bool.not_eq_true,
      exists_prop]
  rw [selectLoose, IsHarmless]
  generalize selection? (String.ofList (Text.nearestText points)) = selected
  rcases selected with _ | ⟨base, wildcard⟩
  · exact iff_of_true ⟨[], rfl⟩ fun _ h => by cases h
  cases wildcard with
  | false =>
    refine iff_of_true ⟨[], rfl⟩ fun s hs hwildcard => ?_
    cases hs
    cases hwildcard
  | true =>
    dsimp only
    by_cases hhalves : (points.any fun n => Text.isHalf n && !Text.isByteHalf n) = true
    · rw [if_pos hhalves]
      refine iff_of_false ?_ fun h => hbad.mp hhalves (h _ rfl rfl).1
      rintro ⟨_, h⟩
      cases h
    · rw [if_neg hhalves]
      by_cases hnul : 0 ∈ points
      · rw [if_pos hnul]
        refine iff_of_false ?_ fun h => (h _ rfl rfl).2 hnul
        rintro ⟨_, h⟩
        cases h
      · rw [if_neg hnul]
        exact iff_of_true ⟨[], rfl⟩ fun _ _ _ => ⟨not_not.mp (mt hbad.mpr hhalves), hnul⟩

/-- A harmless pattern stands for directories that are added. -/
theorem directoriesOf_returns_of_harmless {pattern : Label} (h : IsHarmless t root pattern) :
    ∃ directories, directoriesOf t root pattern = .ok directories ∧ ∀ d ∈ directories, root <+: d ∧
      (d ≠ root → (t.exists? (d ++ [Manifest.fileName])).Returns ∧ ¬ Manifest.IsTooDeep t d) := by
  cases pattern with
  | text pattern =>
    cases hs : selection? pattern with
    | none =>
      refine ⟨[], ?_, fun _ hd => by cases hd⟩
      rw [directoriesOf, hs]
    | some s =>
      have hharmless := h s hs
      obtain ⟨directories, hselect⟩ := select_returns_of_harmless hharmless
      obtain ⟨hmatching, -⟩ := select_eq_ok.mp hselect
      refine ⟨directories, (directoriesOf_text hs).trans hselect, fun d hd => ?_⟩
      exact ⟨(hharmless.inside hmatching d hd).2, hharmless.manifest hmatching d hd⟩
  | loose points hloose =>
    obtain ⟨directories, hselect⟩ := selectLoose_returns.mpr h
    refine ⟨directories, hselect, fun d hd => ?_⟩
    rw [selectLoose_eq_ok hselect] at hd
    cases hd

theorem addPatterns_returns_of_harmless {patterns : List Label}
    (h : ∀ pattern ∈ patterns, IsHarmless t root pattern) (found : List Workspace) :
    (addPatterns t root found patterns).Returns := by
  induction patterns generalizing found with
  | nil => exact ⟨found, rfl⟩
  | cons pattern rest ih =>
    obtain ⟨hfirst, hrest⟩ := List.forall_mem_cons.mp h
    obtain ⟨directories, hdirectories, hd⟩ := directoriesOf_returns_of_harmless hfirst
    obtain ⟨found', hadd⟩ := addAll_returns hd found
    obtain ⟨all, hall⟩ := ih hrest found'
    exact ⟨all, addPatterns_cons.mpr ⟨directories, hdirectories, found', hadd, hall⟩⟩

theorem harmless_of_select (ht : t.Named) (hroot : Steps root) {all : List Workspace}
    {directories : List (List String)} (hselect : select t root s = .ok directories)
    (hcovered : ∀ d ∈ directories, Covered t root all d) : Harmless t root s := by
  obtain ⟨hmatching, hown⟩ := select_eq_ok.mp hselect
  obtain ⟨hnul, hseen⟩ := matching_returns.mp ⟨directories, hmatching⟩
  have hsame : ∀ {found}, matching t root s = .ok found → found = directories := by
    intro found hfound
    rw [hmatching] at hfound
    exact (Except.ok.inj hfound).symm
  have hlooked : ∀ d ∈ directories, root <+: d ∧ (d ≠ root →
      (t.exists? (d ++ [Manifest.fileName])).Returns ∧ ¬ Manifest.IsTooDeep t d) := fun d hd =>
    of_covered (steps_select ht hroot hselect d hd) (hcovered d hd)
  refine ⟨hnul, hseen, fun hfound d hd => ?_, fun hfound d hd => ?_⟩
  · obtain rfl := hsame hfound
    refine ⟨Bool.eq_false_iff.mpr fun htrue => ?_, (hlooked d hd).1⟩
    rw [hown htrue] at hd
    cases hd
  · obtain rfl := hsame hfound
    exact (hlooked d hd).2

/-- The workspaces of some patterns are found if and only if all patterns are harmless. -/
theorem addPatterns_returns (ht : t.Named) (hroot : Steps root) {patterns : List Label} :
    (addPatterns t root [] patterns).Returns ↔ ∀ pattern ∈ patterns, IsHarmless t root pattern := by
  refine ⟨fun ⟨all, h⟩ pattern hpattern => ?_, fun h => addPatterns_returns_of_harmless h []⟩
  obtain ⟨-, hcover, -⟩ := addPatterns_spec ht hroot (fun _ hw => by cases hw) h
  obtain ⟨directories, hdirectories, hcovered⟩ := hcover pattern hpattern
  cases pattern with
  | text pattern =>
    intro s hs
    rw [directoriesOf_text hs] at hdirectories
    exact harmless_of_select ht hroot hdirectories hcovered
  | loose points hloose => exact selectLoose_returns.mp ⟨directories, hdirectories⟩

/-- The workspaces of a project are found if and only if its patterns can be read and are
harmless. -/
theorem discover_returns (ht : t.Named) (hroot : Steps root) {manifest : Json.Members} :
    (discover t root manifest).Returns ↔ ∃ listed, patterns t root manifest = .ok listed ∧
      ∀ pattern ∈ listed, IsHarmless t root pattern := by
  unfold discover
  rw [Except.returns_bind]
  refine exists_congr fun listed => ?_
  rw [Except.mapError_eq_ok, addPatterns_returns ht hroot]

end Workspaces

namespace Project

variable {t : Tree} {root : Location} {current : List String} {path : String}

/-! ## The files beside the manifest -/

/-- It can be told which of the files are there. -/
def SeesBeside (t : Tree) (root : Location) : Prop :=
  ∀ name ∈ lookedAt, (t.exists? (root ++ [name])).Returns

theorem detectPackageManager_returns {files : List (String × PackageManager)}
    (h : ∀ file ∈ files, (t.exists? (root ++ [file.1])).Returns) :
    (detectPackageManager t root files).Returns := by
  induction files with
  | nil => exact ⟨.unknown, rfl⟩
  | cons file rest ih =>
    obtain ⟨⟨there, hthere⟩, hrest⟩ := List.forall_mem_cons.mp h
    rw [detectPackageManager, Except.returns_bind]
    refine ⟨there, hthere, ?_⟩
    cases there with
    | true => exact ⟨file.2, rfl⟩
    | false => exact ih hrest

theorem declaresMonorepo_returns (h : SeesBeside t root) (manifest : Json.Members) :
    (declaresMonorepo t root manifest).Returns := by
  obtain ⟨there, hthere⟩ := h orchestratorConfig (by decide)
  unfold declaresMonorepo
  rw [Except.returns_bind]
  refine ⟨there, hthere, ?_⟩
  cases there with
  | true => exact ⟨true, rfl⟩
  | false =>
    rw [if_neg Bool.false_ne_true]
    split
    · exact ⟨true, rfl⟩
    · exact h Workspaces.listingName (by decide)

/-- A project is described unless its manifest is nested too deep, or it is a monorepo whose workspaces
cannot be found. -/
theorem describe_returns (h : SeesBeside t root) : (describe t root).Returns ↔
    ¬ Manifest.IsTooDeep t root ∧ (declaresMonorepo t root (Manifest.read t root) = .ok true →
      (Workspaces.discover t root (Manifest.read t root)).Returns) := by
  constructor
  · rintro ⟨project, hproject⟩
    obtain ⟨hdeep, _, isMonorepo, workspaces, _, _, -, hdeclared, hworkspaces, -⟩ :=
      describe_eq_ok.mp hproject
    refine ⟨hdeep, fun hmonorepo => ?_⟩
    rw [hmonorepo] at hdeclared
    cases hdeclared
    unfold workspacesOf at hworkspaces
    cases hfound : Workspaces.discover t root (Manifest.read t root) with
    | ok found => exact ⟨found, rfl⟩
    | error fault =>
      rw [hfound] at hworkspaces
      cases hworkspaces
  · rintro ⟨hdeep, hdiscover⟩
    obtain ⟨hasOrchestrator, horchestrator⟩ := h orchestratorConfig (by decide)
    obtain ⟨isMonorepo, hmonorepo⟩ := declaresMonorepo_returns h (Manifest.read t root)
    obtain ⟨typed, htyped⟩ := h "tsconfig.json" (by decide)
    obtain ⟨manager, hmanager⟩ : (detectPackageManager t root lockFiles).Returns :=
      detectPackageManager_returns fun file hfile =>
        h file.1 (List.mem_append_right _ (List.mem_map_of_mem hfile))
    obtain ⟨workspaces, hworkspaces⟩ :
        (workspacesOf t root (Manifest.read t root) isMonorepo).Returns := by
      unfold workspacesOf
      cases isMonorepo with
      | false => exact ⟨none, rfl⟩
      | true =>
        obtain ⟨found, hfound⟩ := hdiscover hmonorepo
        rw [hfound]
        exact ⟨some found, rfl⟩
    exact ⟨_, describe_eq_ok.mpr ⟨hdeep, hasOrchestrator, isMonorepo, workspaces, manager, typed,
      horchestrator, hmonorepo, hworkspaces, hmanager, htyped, rfl⟩⟩

/-- In a tree without links the files can be seen if the path of the project leaves room for their
names. -/
theorem seesBeside_of_short (ht : t.Ordinary) (hroot : t.node? root = some .folder)
    (hfits : Tree.Fits root) (hshort : Tree.pathBytes root + 32 ≤ Tree.maxPathBytes) :
    SeesBeside t root := by
  have hnames : ∀ name ∈ lookedAt, Tree.IsName name ∧ name.utf8ByteSize < 31 := by decide
  intro name hname
  obtain ⟨hproper, hlength⟩ := hnames name hname
  have hchild : Tree.Fits (root ++ [name]) := by
    constructor
    · have hbytes : Tree.pathBytes [name] = name.utf8ByteSize + 1 + 0 := rfl
      rw [Tree.pathBytes_append, hbytes]
      omega
    · intro n hn
      rcases List.mem_append.mp hn with hn | hn
      · exact hfits.name n hn
      · rw [List.mem_singleton.mp hn]
        have hmax : Tree.maxNameBytes = 255 := rfl
        omega
  unfold Tree.exists? Tree.holdsAt Tree.access
  cases hnode : t.node? (root ++ [name]) with
  | some node =>
    rw [Tree.find_existing ht hnode hchild]
    exact ⟨true, rfl⟩
  | none =>
    rw [Tree.find_free ht hproper.ne_here hproper.ne_up hroot hnode hchild]
    exact ⟨false, rfl⟩

/-! ## The project at a path -/

theorem steps_of_rootOf (ht : t.Named) (h : rootOf t current path = .ok root) :
    Workspaces.Steps root := by
  obtain ⟨hresolve, hexists, -⟩ := rootOf_eq_ok.mp h
  unfold Tree.resolve at hresolve
  split at hresolve
  · cases hresolve
  obtain ⟨l, node, haccess⟩ := Tree.access_of_exists (by rw [hexists]; rfl)
  intro name hname
  exact .of_name (Tree.isName_of_access ht (Tree.resolveSteps_cases hresolve).1 haccess name hname)

/-- The directory of a project lies where its path is written. -/
theorem access_of_rootOf (hl : t.Loopless) (hroot : rootOf t current path = .ok root) :
    t.access root = .ok (root, .folder) := by
  obtain ⟨hresolve, -, hfolder⟩ := rootOf_eq_ok.mp hroot
  unfold Tree.resolve at hresolve
  split at hresolve
  · cases hresolve
  · obtain ⟨l, haccess⟩ := Tree.access_of_isFolder hfolder
    have hplain := (Tree.resolveSteps_cases hresolve).1
    obtain rfl : l = root :=
      Tree.location_of_find (hl.linkless hresolve) hplain (Tree.find_of_access haccess)
    exact haccess

theorem detect_eq (h : rootOf t current path = .ok root) :
    detect t current path = describe t root := by
  unfold detect
  rw [h]
  rfl

/-- The project in a directory is described unless its manifest is nested too deep, or it is a monorepo,
and either its listing holds a value that does not exist, or one of its patterns is not harmless. -/
theorem detect_returns (ht : t.Named) (hroot : rootOf t current path = .ok root)
    (hsees : SeesBeside t root) : (∃ project, detect t current path = .ok project) ↔
      ¬ Manifest.IsTooDeep t root ∧ (declaresMonorepo t root (Manifest.read t root) = .ok true →
        ∃ listed, Workspaces.patterns t root (Manifest.read t root) = .ok listed ∧
          ∀ pattern ∈ listed, Workspaces.IsHarmless t root pattern) := by
  rw [detect_eq hroot]
  refine (describe_returns hsees).trans (and_congr_right fun _ => imp_congr_right fun _ => ?_)
  exact Workspaces.discover_returns ht (steps_of_rootOf ht hroot)

/-! ## A pattern that cannot be followed -/

/-- A manifest that declares workspaces by one pattern, as it is written in JSON. -/
def patternManifest (pattern : String) : Node :=
  .file ("\x7b\"workspaces\":[\"" ++ pattern ++ "\"]\x7d").toUTF8

/-- A project with the manifest and a directory. -/
def patternTree (pattern : String) : Tree := ⟨[(["r"], .folder),
  (["r", "package.json"], patternManifest pattern), (["r", "x"], .folder)]⟩

theorem ordinary_patternTree (pattern : String) : (patternTree pattern).Ordinary := by
  have hname : ∀ name ∈ ["r", "package.json", "x"], Tree.IsName name := by decide
  refine Tree.ordinary_of_entries fun entry hentry => ?_
  have hcases : entry = (["r"], .folder) ∨ entry = (["r", "package.json"], patternManifest pattern) ∨
      entry = (["r", "x"], .folder) := by
    simpa only [patternTree, List.mem_cons, List.not_mem_nil, or_false] using hentry
  rcases hcases with rfl | rfl | rfl
  · exact ⟨rfl, rfl, fun name h => hname name (by cases h; decide)⟩
  · exact ⟨rfl, rfl, fun name h => hname name (by cases h; decide)⟩
  · exact ⟨rfl, rfl, fun name h => hname name (by cases h; decide)⟩

theorem detect_returns_directory : ∃ project, detect (patternTree "./x") [] "/r" = .ok project := by
  have ht := ordinary_patternTree "./x"
  have hroot : rootOf (patternTree "./x") [] "/r" = .ok ["r"] := by decide +kernel
  have hsees : SeesBeside (patternTree "./x") ["r"] :=
    seesBeside_of_short ht rfl ⟨by decide, by decide⟩ (by decide)
  have hmatching : Workspaces.matching (patternTree "./x") ["r"] ⟨"x", false⟩ = .ok [["r", "x"]] := by
    decide +kernel
  refine (detect_returns ht.named hroot hsees).mpr
    ⟨by decide +kernel, fun _ => ⟨[.text "./x"], by decide +kernel, ?_⟩⟩
  intro pattern hpattern
  obtain rfl := List.mem_singleton.mp hpattern
  intro s hs
  have hselection : Workspaces.selection? "./x" = some ⟨"x", false⟩ := by decide +kernel
  rw [hselection] at hs
  cases hs
  refine ⟨fun h => (by cases h), fun _ _ => ⟨true, by decide +kernel⟩, fun hfound d hd => ?_,
    fun hfound d hd _ => ?_⟩
  · rw [hmatching] at hfound
    cases hfound
    obtain rfl := List.mem_singleton.mp hd
    exact ⟨by decide, by decide⟩
  · rw [hmatching] at hfound
    cases hfound
    obtain rfl := List.mem_singleton.mp hd
    exact ⟨⟨false, by decide +kernel⟩, by decide +kernel⟩

/-- A wildcard below a name with a null character is no harmless pattern. -/
theorem detect_fails_on_nul :
    rootOf (patternTree "\\u0000/*") [] "/r" = .ok ["r"] ∧
      detect (patternTree "\\u0000/*") [] "/r" = .error (.access .nulByte) := by
  decide +kernel

end Project

end Checkup
