import Checkup.Project.Workspaces
import Checkup.Proofs.Outcome
import Checkup.Proofs.Scan.Walk
import Checkup.Proofs.Tree.Steps

/-!
# The workspaces that are found

Every workspace is described at a directory that a pattern selects, under the path of the directory
in the project. The path tells the directory.

* `relativePath_inj`: different directories have different paths.
* `addPatterns_spec`: what adding the workspaces of patterns comes to.
* `exists_addPatterns`: when it comes to a result.
-/

namespace Checkup.Workspaces

variable {t : Tree} {root : List String}

/-- Every step of a directory can be written. -/
def Steps (directory : List String) : Prop := ∀ name ∈ directory, Path.IsStep name

/-- A workspace is the description of a directory. -/
def DescribedAt (t : Tree) (root directory : List String) (w : Workspace) : Prop :=
  relativePath root directory = .ok w.path ∧ describe t root directory w.path = .ok w ∧
    w.path ≠ "."

/-- A directory is taken care of by some workspaces: it is one of them, or the project. -/
def Covered (t : Tree) (root : List String) (found : List Workspace) (directory : List String) : Prop :=
  ∃ path, relativePath root directory = .ok path ∧
    (path = "." ∨ ∃ w ∈ found, w.path = path ∧ describe t root directory path = .ok w)

/-! ## Paths of directories -/

theorem relativePath_eq_ok {directory : List String} {path : String}
    (h : relativePath root directory = .ok path) :
    ∃ rest, directory = root ++ rest ∧ path = Path.relative rest := by
  unfold relativePath at h
  split at h
  · rename_i hp
    obtain ⟨rest, rfl⟩ := List.isPrefixOf_iff_prefix.mp hp
    rw [List.drop_left] at h
    exact ⟨rest, rfl, (Except.ok.inj h).symm⟩
  · cases h

/-- Different directories have different paths. -/
theorem relativePath_inj {first second : List String} (h1 : Steps first) (h2 : Steps second)
    {path : String} (hf : relativePath root first = .ok path)
    (hs : relativePath root second = .ok path) : first = second := by
  obtain ⟨rest, rfl, hrest⟩ := relativePath_eq_ok hf
  obtain ⟨rest', rfl, hrest'⟩ := relativePath_eq_ok hs
  have hsteps := Path.steps_relative fun name hn => h1 name (List.mem_append_right root hn)
  have hsteps' := Path.steps_relative fun name hn => h2 name (List.mem_append_right root hn)
  rw [← hsteps, ← hsteps', ← hrest, ← hrest']

/-- What the description of a workspace is made of. -/
theorem describe_eq_ok {directory : List String} {path : String} {w : Workspace} :
    describe t root directory path = .ok w ↔ ∃ hasManifest manifest,
      t.exists? (directory ++ [Manifest.fileName]) = .ok hasManifest ∧
      (if hasManifest then Manifest.load t directory else .ok []) = .ok manifest ∧
      w = {
        name := (Manifest.label? manifest "name").getD (.text (directory.getLast?.getD ""))
        path := path
        absolutePath := Path.absolute (root ++ Path.steps path)
        kind := packageKind manifest
        hasManifest := hasManifest } := by
  unfold describe
  rw [Except.bind_eq_ok]
  refine exists_congr fun hasManifest => ?_
  rw [Except.mapError_eq_ok, exists_and_left]
  refine and_congr_right fun _ => ?_
  cases hasManifest with
  | false =>
    constructor
    · intro h
      exact ⟨[], rfl, (Except.ok.inj h).symm⟩
    · rintro ⟨_, hmanifest, rfl⟩
      cases hmanifest
      rfl
  | true =>
    refine Except.bind_eq_ok.trans (exists_congr fun manifest => and_congr Except.mapError_eq_ok ?_)
    exact ⟨fun h => (Except.ok.inj h).symm, fun h => congrArg Except.ok h.symm⟩

theorem path_describe {directory : List String} {path : String} {w : Workspace}
    (h : describe t root directory path = .ok w) : w.path = path := by
  obtain ⟨hasManifest, manifest, -, -, rfl⟩ := describe_eq_ok.mp h
  rfl

theorem absolutePath_describe {directory : List String} {path : String} {w : Workspace}
    (h : describe t root directory path = .ok w) :
    w.absolutePath = Path.absolute (root ++ Path.steps path) := by
  obtain ⟨hasManifest, manifest, -, -, rfl⟩ := describe_eq_ok.mp h
  rfl

/-- The absolute path of a workspace leads to its directory. -/
theorem steps_absolutePath {directory : List String} (hd : Steps directory) {w : Workspace}
    (h : DescribedAt t root directory w) : Path.steps w.absolutePath = directory := by
  obtain ⟨hpath, hdescribe, -⟩ := h
  obtain ⟨rest, rfl, hrest⟩ := relativePath_eq_ok hpath
  have hread : Path.steps w.path = rest := by
    rw [hrest, Path.steps_relative fun name hn => hd name (List.mem_append_right root hn)]
  rw [absolutePath_describe hdescribe, hread, Path.steps_absolute hd]

/-- What the paths of a workspace say. -/
structure Located (root : List String) (w : Workspace) : Prop where
  steps : Path.steps w.absolutePath = root ++ Path.steps w.path
  relative : Path.isAbsolute w.path = false
  ne_empty : w.path ≠ ""

theorem located_of_describedAt {directory : List String} (hd : Steps directory)
    {w : Workspace} (h : DescribedAt t root directory w) : Located root w := by
  have habsolute := steps_absolutePath hd h
  obtain ⟨hpath, -, -⟩ := h
  obtain ⟨rest, rfl, hrest⟩ := relativePath_eq_ok hpath
  have hsteps : Steps rest := fun name hn => hd name (List.mem_append_right root hn)
  have hread : Path.steps w.path = rest := by rw [hrest, Path.steps_relative hsteps]
  refine ⟨?_, ?_, fun hempty => ?_⟩
  · rw [habsolute, hread]
  · rw [hrest]
    exact Path.isAbsolute_relative hsteps
  · rw [hempty, Path.steps_empty] at hread
    rw [← hread, hempty] at hrest
    revert hrest
    decide

/-! ## Adding workspaces -/

/-- What adding the workspaces in some directories comes to. -/
theorem addAll_spec {directories : List (List String)} (hd : ∀ d ∈ directories, Steps d)
    {found all : List Workspace}
    (hfound : ∀ w ∈ found, ∃ d, Steps d ∧ DescribedAt t root d w)
    (h : addAll t root found directories = .ok all) :
    (∀ w ∈ found, w ∈ all) ∧ (∀ d ∈ directories, Covered t root all d) ∧
      ∀ w ∈ all, w ∈ found ∨ ∃ d ∈ directories, DescribedAt t root d w := by
  induction directories generalizing found with
  | nil =>
    cases h
    exact ⟨fun _ hw => hw, fun _ hd => (by cases hd), fun _ hw => .inl hw⟩
  | cons directory rest ih =>
    obtain ⟨hfirst, hrest⟩ := List.forall_mem_cons.mp hd
    rw [addAll] at h
    obtain ⟨path, hpath, h⟩ := Except.bind_eq_ok.mp h
    split at h
    · rename_i hknown
      obtain ⟨hkeep, hcover, hcases⟩ := ih hrest hfound h
      refine ⟨hkeep, List.forall_mem_cons.mpr ⟨⟨path, hpath, ?_⟩, hcover⟩, fun w hw => ?_⟩
      · rw [Bool.or_eq_true, decide_eq_true_eq, List.any_eq_true] at hknown
        rcases hknown with hself | ⟨w, hw, heq⟩
        · exact .inl hself
        · obtain ⟨d, hsteps, hrel, hdescribe, -⟩ := hfound w hw
          obtain rfl := beq_iff_eq.mp heq
          obtain rfl := relativePath_inj hsteps hfirst hrel hpath
          exact .inr ⟨w, hkeep w hw, rfl, hdescribe⟩
      · rcases hcases w hw with hw | ⟨d, hd, hw⟩
        · exact .inl hw
        · exact .inr ⟨d, List.mem_cons_of_mem _ hd, hw⟩
    · rename_i hnew
      obtain ⟨w, hdescribe, h⟩ := Except.bind_eq_ok.mp h
      have hself : path ≠ "." := by
        rintro rfl
        exact hnew rfl
      have hat : DescribedAt t root directory w := by
        unfold DescribedAt
        rw [path_describe hdescribe]
        exact ⟨hpath, hdescribe, hself⟩
      have hfound' : ∀ w' ∈ found ++ [w], ∃ d, Steps d ∧ DescribedAt t root d w' := by
        intro w' hw'
        rcases List.mem_append.mp hw' with hw' | hw'
        · exact hfound w' hw'
        · rw [List.mem_singleton.mp hw']
          exact ⟨directory, hfirst, hat⟩
      obtain ⟨hkeep, hcover, hcases⟩ := ih hrest hfound' h
      refine ⟨fun w' hw' => hkeep w' (List.mem_append_left _ hw'),
        List.forall_mem_cons.mpr ⟨⟨path, hpath, .inr ⟨w, ?_, path_describe hdescribe, hdescribe⟩⟩,
          hcover⟩, fun w' hw' => ?_⟩
      · exact hkeep w (List.mem_append_right _ (List.mem_singleton_self w))
      · rcases hcases w' hw' with hw' | ⟨d, hd, hw'⟩
        · rcases List.mem_append.mp hw' with hw' | hw'
          · exact .inl hw'
          · rw [List.mem_singleton.mp hw']
            exact .inr ⟨directory, List.mem_cons_self .., hat⟩
        · exact .inr ⟨d, List.mem_cons_of_mem _ hd, hw'⟩

/-- Adding directories that some workspaces cover adds only such workspaces. -/
theorem exists_addAll {directories : List (List String)} {found all : List Workspace}
    (hd : ∀ d ∈ directories, Covered t root all d) (hfound : ∀ w ∈ found, w ∈ all) :
    ∃ found', addAll t root found directories = .ok found' ∧ ∀ w ∈ found', w ∈ all := by
  induction directories generalizing found with
  | nil => exact ⟨found, rfl, hfound⟩
  | cons directory rest ih =>
    obtain ⟨⟨path, hpath, hcovered⟩, hrest⟩ := List.forall_mem_cons.mp hd
    rw [addAll, hpath]
    dsimp only [bind, Except.bind]
    split
    · exact ih hrest hfound
    · rename_i hnew
      rcases hcovered with rfl | ⟨w, hw, -, hdescribe⟩
      · exact absurd rfl hnew
      · rw [hdescribe]
        refine ih hrest fun w' hw' => ?_
        rcases List.mem_append.mp hw' with hw' | hw'
        · exact hfound w' hw'
        · rw [List.mem_singleton.mp hw']
          exact hw

/-! ## Directories of a pattern -/

theorem steps_stepsFrom (hroot : Steps root) (path : String) : Steps (Path.stepsFrom root path) := by
  unfold Path.stepsFrom
  intro name hn
  split at hn
  · exact Path.isStep_of_mem_steps hn
  · rcases List.mem_append.mp hn with hn | hn
    · exact hroot name hn
    · exact Path.isStep_of_mem_steps hn

theorem mem_directoriesIn {base : List String} {directories : List (List String)}
    (h : directoriesIn t base = .ok directories) {d : List String} : d ∈ directories ↔
      ∃ location, t.access base = .ok (location, .folder) ∧ ∃ name ∈ t.children location,
        isOpenName name = true ∧ t.isFolder? (base ++ [name]) = .ok true ∧ d = base ++ [name] := by
  unfold directoriesIn at h
  obtain ⟨⟨location, node⟩, haccess, h⟩ := Except.bind_eq_ok.mp h
  cases node with
  | folder =>
    obtain ⟨found, hfound, h⟩ := Except.bind_eq_ok.mp h
    cases h
    constructor
    · intro hd
      obtain ⟨⟨name, isFolder⟩, hmem, rfl⟩ := List.mem_map.mp hd
      obtain ⟨hmem, hkeep⟩ := List.mem_filter.mp hmem
      rw [Bool.and_eq_true] at hkeep
      obtain ⟨hfolder, hopen⟩ := hkeep
      subst hfolder
      obtain ⟨name', hname', hpair⟩ := Except.mem_of_mapM hfound hmem
      obtain ⟨isFolder', hcheck, hpair⟩ := Except.bind_eq_ok.mp hpair
      cases hpair
      exact ⟨location, haccess, name, hname', hopen, hcheck, rfl⟩
    · rintro ⟨location', haccess', name, hname, hopen, hcheck, rfl⟩
      rw [haccess] at haccess'
      cases haccess'
      obtain ⟨pair, hmem, hpair⟩ := Except.mem_mapM hfound hname
      obtain ⟨isFolder', hcheck', hpair⟩ := Except.bind_eq_ok.mp hpair
      rw [hcheck] at hcheck'
      cases hcheck'
      cases hpair
      exact List.mem_map.mpr ⟨(name, true), List.mem_filter.mpr ⟨hmem, hopen⟩, rfl⟩
  | file bytes => cases h
  | link target => cases h

/-- What a pattern stands for is what it selects, unless that has a root directory of its own. -/
theorem select_eq_ok {s : Selection} {directories : List (List String)} :
    select t root s = .ok directories ↔ matching t root s = .ok directories ∧
      (Path.hasOwnRoot s.base = true → directories = []) := by
  unfold select
  cases matching t root s with
  | error fault => exact iff_of_false (fun h => by cases h) fun h => by cases h.1
  | ok found =>
    dsimp only [bind, Except.bind, pure, Except.pure]
    by_cases hown : (Path.hasOwnRoot s.base && !found.isEmpty) = true
    · rw [if_pos hown]
      rw [Bool.and_eq_true, Bool.not_eq_true', List.isEmpty_eq_false_iff] at hown
      refine iff_of_false (fun h => by cases h) ?_
      rintro ⟨h, hempty⟩
      cases h
      exact hown.2 (hempty hown.1)
    · rw [if_neg hown]
      rw [Bool.and_eq_true, Bool.not_eq_true', List.isEmpty_eq_false_iff, not_and, not_not] at hown
      constructor
      · intro h
        cases h
        exact ⟨rfl, hown⟩
      · rintro ⟨h, -⟩
        exact h

/-- A directory for which a pattern stands: the one at its base, or for a wildcard an open one in
there. -/
inductive Matched (t : Tree) (root : List String) (s : Selection) (d : List String) : Prop
  | base (hwildcard : s.wildcard = false) (hd : d = Path.stepsFrom root s.base)
    (hfolder : t.isFolder? d = .ok true)
  | below {l : Location} {name : String} (hwildcard : s.wildcard = true)
    (haccess : t.access (Path.stepsFrom root s.base) = .ok (l, .folder))
    (hname : name ∈ t.children l) (hopen : isOpenName name = true)
    (hd : d = Path.stepsFrom root s.base ++ [name]) (hfolder : t.isFolder? d = .ok true)

theorem matched_of_select {s : Selection} {directories : List (List String)}
    (h : select t root s = .ok directories) {d : List String} (hd : d ∈ directories) :
    Matched t root s d := by
  obtain ⟨h, -⟩ := select_eq_ok.mp h
  unfold matching at h
  dsimp only at h
  cases hwildcard : s.wildcard with
  | true =>
    rw [hwildcard, if_pos rfl] at h
    split at h
    · cases h
    · split at h
      · rename_i found hfound
        cases h
        obtain ⟨l, haccess, name, hname, hopen, hfolder, rfl⟩ := (mem_directoriesIn hfound).mp hd
        exact .below hwildcard haccess hname hopen rfl hfolder
      · cases h
        cases hd
  | false =>
    rw [hwildcard, if_neg Bool.false_ne_true] at h
    split at h
    · cases h
      cases hd
    · split at h
      · rename_i hfolder
        cases h
        obtain rfl := List.mem_singleton.mp hd
        exact .base hwildcard rfl hfolder
      · cases h
        cases hd
      · cases h

/-- The directories that a pattern selects can be written. -/
theorem steps_select (ht : t.Named) (hroot : Steps root) {s : Selection}
    {directories : List (List String)} (h : select t root s = .ok directories) :
    ∀ d ∈ directories, Steps d := by
  have hbase := steps_stepsFrom hroot s.base
  intro d hd
  cases matched_of_select h hd with
  | base _ hd => exact hd ▸ hbase
  | below _ _ hname _ hd =>
    obtain ⟨node, hnode⟩ := Option.ne_none_iff_exists'.mp (Tree.mem_children_iff.mp hname)
    rw [hd]
    intro n hn
    rcases List.mem_append.mp hn with hn | hn
    · exact hbase n hn
    · rw [List.mem_singleton.mp hn]
      exact .of_name (ht hnode)

/-- What a pattern selects are directories. -/
theorem isFolder_of_select {s : Selection} {directories : List (List String)}
    (h : select t root s = .ok directories) : ∀ d ∈ directories, t.isFolder? d = .ok true := by
  intro d hd
  cases matched_of_select h hd with
  | base _ _ hfolder => exact hfolder
  | below _ _ _ _ _ hfolder => exact hfolder

/-! ## Discovery -/

/-- The workspace is the description of a directory that is there. -/
def IsFound (t : Tree) (root : List String) (w : Workspace) : Prop :=
  ∃ d, Steps d ∧ DescribedAt t root d w ∧ t.isFolder? d = .ok true

namespace IsFound

variable {w : Workspace}

theorem located (h : IsFound t root w) : Located root w := by
  obtain ⟨d, hd, hat, -⟩ := h
  exact located_of_describedAt hd hat

theorem isFolder (h : IsFound t root w) : t.isFolder? (Path.steps w.absolutePath) = .ok true := by
  obtain ⟨d, hd, hat, hfolder⟩ := h
  rwa [steps_absolutePath hd hat]

end IsFound

section

variable {pattern : Label} {directories : List (List String)}

/-- A pattern that is no text stands for no directories. -/
theorem selectLoose_eq_ok {points : List Nat} (h : selectLoose points = .ok directories) :
    directories = [] := by
  unfold selectLoose at h
  split at h
  · split at h
    · cases h
    · split at h
      · cases h
      · exact (Except.ok.inj h).symm
  · exact (Except.ok.inj h).symm

/-- Every directory is one that a text selects. -/
theorem exists_selection (h : directoriesOf t root pattern = .ok directories) {d : List String}
    (hd : d ∈ directories) : ∃ text s, pattern = .text text ∧ selection? text = some s ∧
      select t root s = .ok directories := by
  cases pattern with
  | text text =>
    rw [directoriesOf] at h
    cases hs : selection? text with
    | none =>
      rw [hs] at h
      cases h
      cases hd
    | some s =>
      rw [hs] at h
      exact ⟨text, s, rfl, hs, h⟩
  | loose points hloose =>
    rw [directoriesOf] at h
    rw [selectLoose_eq_ok h] at hd
    cases hd

theorem directoriesOf_text {text : String} {s : Selection} (hs : selection? text = some s) :
    directoriesOf t root (.text text) = select t root s := by
  unfold directoriesOf
  dsimp only
  rw [hs]

/-- The directories of a pattern can be written. -/
theorem steps_directoriesOf (ht : t.Named) (hroot : Steps root)
    (h : directoriesOf t root pattern = .ok directories) : ∀ d ∈ directories, Steps d := by
  intro d hd
  obtain ⟨_, _, -, -, hselect⟩ := exists_selection h hd
  exact steps_select ht hroot hselect d hd

/-- The directories of a pattern are directories. -/
theorem isFolder_of_directoriesOf (h : directoriesOf t root pattern = .ok directories) :
    ∀ d ∈ directories, t.isFolder? d = .ok true := by
  intro d hd
  obtain ⟨_, _, -, -, hselect⟩ := exists_selection h hd
  exact isFolder_of_select hselect d hd

theorem addPatterns_cons {rest : List Label} {found all : List Workspace} :
    addPatterns t root found (pattern :: rest) = .ok all ↔ ∃ directories,
      directoriesOf t root pattern = .ok directories ∧
      ∃ found', addAll t root found directories = .ok found' ∧
        addPatterns t root found' rest = .ok all := by
  rw [addPatterns, Except.bind_eq_ok]
  refine exists_congr fun directories => and_congr_right fun _ => ?_
  rw [Except.bind_eq_ok]

end

/-- What adding the workspaces of some patterns comes to. -/
theorem addPatterns_spec (ht : t.Named) (hroot : Steps root) {patterns : List Label}
    {found all : List Workspace} (hfound : ∀ w ∈ found, IsFound t root w)
    (h : addPatterns t root found patterns = .ok all) :
    (∀ w ∈ found, w ∈ all) ∧
      (∀ pattern ∈ patterns, ∃ directories,
        directoriesOf t root pattern = .ok directories ∧ ∀ d ∈ directories, Covered t root all d) ∧
      ∀ w ∈ all, IsFound t root w := by
  induction patterns generalizing found with
  | nil =>
    cases h
    exact ⟨fun _ hw => hw, fun _ hp => (by cases hp), hfound⟩
  | cons pattern rest ih =>
    obtain ⟨directories, hdirectories, found', hadd, h⟩ := addPatterns_cons.mp h
    have hsteps := steps_directoriesOf ht hroot hdirectories
    have hdescribed : ∀ w ∈ found, ∃ d, Steps d ∧ DescribedAt t root d w := by
      intro w hw
      obtain ⟨d, hd, hat, -⟩ := hfound w hw
      exact ⟨d, hd, hat⟩
    obtain ⟨hkeep, hcover, hcases⟩ := addAll_spec hsteps hdescribed hadd
    have hfound' : ∀ w ∈ found', IsFound t root w := by
      intro w hw
      rcases hcases w hw with hw | ⟨d, hd, hat⟩
      · exact hfound w hw
      · exact ⟨d, hsteps d hd, hat, isFolder_of_directoriesOf hdirectories d hd⟩
    obtain ⟨hkeep', hcover', hall⟩ := ih hfound' h
    refine ⟨fun w hw => hkeep' w (hkeep w hw),
      List.forall_mem_cons.mpr ⟨⟨directories, hdirectories, fun d hd => ?_⟩, hcover'⟩, hall⟩
    obtain ⟨path, hpath, hcovered⟩ := hcover d hd
    refine ⟨path, hpath, hcovered.imp_right ?_⟩
    rintro ⟨w, hw, hdescribed⟩
    exact ⟨w, hkeep' w hw, hdescribed⟩

/-- Patterns whose directories some workspaces cover lead to such workspaces only. -/
theorem exists_addPatterns {patterns : List Label} {found all : List Workspace}
    (hp : ∀ pattern ∈ patterns, ∃ directories,
      directoriesOf t root pattern = .ok directories ∧ ∀ d ∈ directories, Covered t root all d)
    (hfound : ∀ w ∈ found, w ∈ all) :
    ∃ found', addPatterns t root found patterns = .ok found' ∧ ∀ w ∈ found', w ∈ all := by
  induction patterns generalizing found with
  | nil => exact ⟨found, rfl, hfound⟩
  | cons pattern rest ih =>
    obtain ⟨⟨directories, hdirectories, hcover⟩, hrest⟩ := List.forall_mem_cons.mp hp
    obtain ⟨found', hadd, hfound'⟩ := exists_addAll hcover hfound
    obtain ⟨found'', hmore, hfound''⟩ := ih hrest hfound'
    exact ⟨found'', addPatterns_cons.mpr ⟨directories, hdirectories, found', hadd, hmore⟩, hfound''⟩

end Checkup.Workspaces
