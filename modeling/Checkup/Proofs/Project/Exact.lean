import Checkup.Proofs.Project.Detection
import Checkup.Proofs.Project.Manifests
import Checkup.Proofs.Project.Patterns
import Checkup.Proofs.Scan.Exact

/-!
# Exact discovery of workspaces

In a tree without links it can be told which workspaces are discovered, as long as no path that is
looked at is too long, no manifest is nested too deep, and every directory can be asked for: pattern by
pattern the directories that are meant, each at its first occurrence, and for each of them what its
manifest says.

* `IsAbout`: what a pattern means, be it text or not.
* `StandsFor`: the directories that a pattern stands for; `Looks`: where is looked for them.
* `addAll_exact`: a run over directories; `addPatterns_exact`: a run over patterns.
* `discover_exact`: what is discovered.
-/

namespace Checkup.Workspaces

variable {t : Tree} {root : List String}

/-! ## What a pattern stands for -/

/-- A pattern is about the directory at some names below the root. -/
inductive Selects (t : Tree) (root : List String) : Meaning → List String → Prop
  | directory {names : List String} (h : t.node? (root ++ names) = some .folder) :
    Selects t root (.directory names) names
  | inside {names : List String} {name : String} (h : t.node? (root ++ names) = some .folder)
    (hname : t.node? (root ++ names ++ [name]) = some .folder) (hopen : isOpenName name = true) :
    Selects t root (.inside names) (names ++ [name])

/-- The directories that a pattern is about, in the order of their last names. -/
structure StandsFor (t : Tree) (root : List String) (m : Meaning) (ds : List (List String)) : Prop where
  mem : ∀ d, d ∈ ds ↔ Selects t root m d
  sorted : ds.Pairwise fun d d' => d.getLastD "" < d'.getLastD ""

/-- The places that are looked at for a pattern: the directory, or what is in it, and the manifests of
those that it is about. -/
inductive Looks (t : Tree) (root : List String) : Meaning → Location → Prop
  | directory (names : List String) : Looks t root (.directory names) (root ++ names)
  | entry {names : List String} {name : String} (h : t.node? (root ++ names) = some .folder)
    (hname : t.node? (root ++ names ++ [name]) ≠ none) :
    Looks t root (.inside names) (root ++ names ++ [name])
  | manifest {m : Meaning} {d : List String} (h : Selects t root m d) :
    Looks t root m (root ++ d ++ [Manifest.fileName])

/-- What a pattern is about. No directory of a tree has a name that is no text, so a pattern that is
none is about nothing. -/
inductive IsAbout : Label → Meaning → Prop
  | text {pattern : String} {m : Meaning} (h : Means (trimmed pattern) m) : IsAbout (.text pattern) m
  | loose (points : List Nat) (h : Text.areLoose points = true) : IsAbout (.loose points h) .nothing

/-! ## Adding directories -/

theorem eraseDups_concat (ds : List (List String)) (d : List String) :
    (ds ++ [d]).eraseDups = if d ∈ ds then ds.eraseDups else ds.eraseDups ++ [d] := by
  rw [List.eraseDups_append]
  split
  · rename_i hmem
    simp [List.removeAll, hmem]
  · rename_i hmem
    simp [List.removeAll, hmem, List.eraseDups_cons]

theorem any_path_iff {ds : List (List String)} {found : List Workspace} (hds : ∀ d ∈ ds, Steps d)
    (h : List.Forall₂ (Describes t root) ds found) {d : List String} (hd : Steps d) :
    found.any (·.path == Text.joinWith "/" d) = true ↔ d ∈ ds := by
  induction h with
  | nil => exact iff_of_false Bool.false_ne_true List.not_mem_nil
  | @cons d' w ds found hw _ ih =>
    obtain ⟨hd', hrest⟩ := List.forall_mem_cons.mp hds
    have hhead : (w.path == Text.joinWith "/" d) = true ↔ d = d' := by
      rw [beq_iff_eq, hw.path]
      refine ⟨fun heq => ?_, fun heq => by rw [heq]⟩
      rw [← Path.steps_joinWith hd, ← heq, Path.steps_joinWith hd']
    rw [List.any_cons, Bool.or_eq_true, hhead, ih hrest, List.mem_cons]

/-- A directory below the root that can be described. -/
structure Describable (t : Tree) (root d : List String) : Prop where
  steps : Steps d
  ne_root : d ≠ []
  folder : t.node? (root ++ d) = some .folder
  fits : Tree.Fits (root ++ d ++ [Manifest.fileName])
  shallow : ¬ Manifest.IsTooDeep t (root ++ d)

/-- Directories are added after those that were found, each once. -/
theorem addAll_exact (ht : t.Ordinary) {ds : List (List String)} (hds : ∀ d ∈ ds, Describable t root d)
    {done : List (List String)} (hdone : ∀ d ∈ done, Steps d) {found : List Workspace}
    (hfound : List.Forall₂ (Describes t root) done.eraseDups found) :
    ∃ all, addAll t root found (ds.map (root ++ ·)) = .ok all ∧
      List.Forall₂ (Describes t root) (done ++ ds).eraseDups all := by
  induction ds generalizing done found with
  | nil =>
    rw [List.append_nil]
    exact ⟨found, rfl, hfound⟩
  | cons d rest ih =>
    obtain ⟨hd, hrest⟩ := List.forall_mem_cons.mp hds
    have hpath : relativePath root (root ++ d) = .ok (Text.joinWith "/" d) := by
      rw [ relativePath_of_prefix (List.prefix_append root d), List.drop_left, Path.relative_eq hd.ne_root]
    have hother : Text.joinWith "/" d ≠ "." := by
      intro heq
      have hsteps := Path.steps_joinWith hd.steps
      rw [heq] at hsteps
      exact hd.ne_root hsteps.symm
    have hknown := any_path_iff (fun d' hd' => hdone d' (List.mem_eraseDups.mp hd')) hfound hd.steps
    have hdone' : ∀ d' ∈ done ++ [d], Steps d' := by
      intro d' hd'
      rcases List.mem_append.mp hd' with hd' | hd'
      · exact hdone d' hd'
      · rw [List.mem_singleton.mp hd']
        exact hd.steps
    rw [List.map_cons, addAll, hpath]
    dsimp only [bind, Except.bind]
    rw [List.append_cons]
    by_cases hmem : d ∈ done
    · rw [if_pos (by simp [hother, hknown.mpr (List.mem_eraseDups.mpr hmem)])]
      refine ih hrest hdone' ?_
      rwa [eraseDups_concat, if_pos hmem]
    · have hnew := mt hknown.mp (mt List.mem_eraseDups.mp hmem)
      rw [if_neg (by simp [hother, hnew])]
      obtain ⟨w, hw, hdescribes⟩ := exists_describe ht hd.steps hd.ne_root hd.folder hd.fits
        hd.shallow
      rw [hw]
      refine ih hrest hdone' ?_
      rw [eraseDups_concat, if_neg hmem]
      exact List.rel_append hfound (.cons hdescribes .nil)

/-! ## Directories of a pattern -/

theorem directoriesIn_eq {base l : Location} (haccess : t.access base = .ok (l, .folder))
    {folders : String → Bool}
    (h : ∀ name ∈ t.children l, t.isFolder? (base ++ [name]) = .ok (folders name)) :
    directoriesIn t base = .ok (((t.children l).filter fun name => folders name && isOpenName name).map
      fun name => base ++ [name]) := by
  have hlook : (t.children l).mapM (fun name => do pure (name, ← t.isFolder? (base ++ [name]))) =
      .ok ((t.children l).map fun name => (name, folders name)) := by
    rw [Except.mapM_eq_ok, List.forall₂_map_right_iff, List.forall₂_same]
    intro name hname
    rw [h name hname]
    rfl
  unfold directoriesIn
  rw [haccess]
  dsimp only [bind, Except.bind] at hlook ⊢
  rw [hlook]
  dsimp only [pure, Except.pure]
  rw [List.filter_map, List.map_map]
  rfl

/-- Where there is no directory there are none in it. -/
theorem matching_inside_of_absent (ht : t.Ordinary) {base : Location} (hplain : Tree.Plain base)
    (h : t.node? base = some .folder → ¬ Tree.Fits base) : ∃ fault, directoriesIn t base = .error fault := by
  unfold directoriesIn
  cases haccess : t.access base with
  | error fault => exact ⟨fault, rfl⟩
  | ok found =>
    obtain ⟨l, node⟩ := found
    obtain ⟨rfl, hnode⟩ := Tree.find_present ht (Tree.find_of_access haccess)
    rw [Tree.lexical_of_plain hplain, List.nil_append] at hnode
    cases node with
    | file bytes => exact ⟨.notFolder, rfl⟩
    | link target => exact ⟨.notFolder, rfl⟩
    | folder =>
      unfold Tree.access at haccess
      rw [Tree.find_existing_long ht hnode (h hnode)] at haccess
      cases haccess

theorem isPlain_segments {names : List String} (h : ∀ name ∈ names, IsSegment name) :
    Tree.Plain names := fun name hname => ⟨(h name hname).step.ne_here, (h name hname).ne_up⟩

theorem stepsFrom_joinWith {names : List String} (h : ∀ name ∈ names, Path.IsStep name) :
    Path.stepsFrom root (Text.joinWith "/" names) = root ++ names := by
  rw [Path.stepsFrom_relative (Path.isAbsolute_joinWith h), Path.steps_joinWith h]

theorem hasOwnRoot_joinWith {names : List String} (h : ∀ name ∈ names, Path.IsStep name) :
    Path.hasOwnRoot (Text.joinWith "/" names) = false := by
  unfold Path.hasOwnRoot
  rw [Path.leadingSlashes_relative (Path.isAbsolute_joinWith h)]
  rfl

theorem no_nul_joinWith {names : List String} (h : ∀ name ∈ names, IsSegment name) :
    '\x00' ∉ (Text.joinWith "/" names).toList := by
  intro hnul
  obtain ⟨name, hname, hmem⟩ := mem_joinWith (by decide) hnul
  exact (h name hname).no_nul hmem

/-- What is selected below the root. -/
theorem select_eq {names : List String} (h : ∀ name ∈ names, Path.IsStep name) (wildcard : Bool) :
    select t root ⟨Text.joinWith "/" names, wildcard⟩ =
      matching t root ⟨Text.joinWith "/" names, wildcard⟩ := by
  unfold select
  dsimp only
  rw [hasOwnRoot_joinWith h]
  cases matching t root ⟨Text.joinWith "/" names, wildcard⟩ with
  | error fault => rfl
  | ok found => rfl

/-- The directories that are found below the root for a pattern. -/
def Finds (t : Tree) (root : List String) (m : Meaning) (found : List (List String)) : Prop :=
  ∃ ds, found = ds.map (root ++ ·) ∧ StandsFor t root m ds ∧ ∀ d ∈ ds, Describable t root d

theorem finds_nil {m : Meaning} (h : ∀ d, ¬ Selects t root m d) : Finds t root m [] :=
  ⟨[], rfl, ⟨fun d => iff_of_false List.not_mem_nil (h d), List.Pairwise.nil⟩, List.forall_mem_nil _⟩

theorem exists_select_directory (ht : t.Ordinary) (hroot : t.node? root = some .folder)
    {names : List String} (hnames : ∀ name ∈ names, IsSegment name) (hne : names ≠ [])
    (hfits : ∀ l, Looks t root (.directory names) l → Tree.Fits l)
    (hshallow : ∀ d, Selects t root (.directory names) d → ¬ Manifest.IsTooDeep t (root ++ d)) :
    ∃ found, select t root ⟨Text.joinWith "/" names, false⟩ = .ok found ∧
      Finds t root (.directory names) found := by
  have hsteps := fun name hname => (hnames name hname).step
  have hplain := (ht.plain hroot).append (isPlain_segments hnames)
  have hseen := Tree.isFolder?_eq ht hplain (hfits _ (.directory names))
  rw [select_eq hsteps]
  unfold matching
  dsimp only
  rw [stepsFrom_joinWith hsteps, if_neg Bool.false_ne_true, if_neg (no_nul_joinWith hnames), hseen]
  by_cases hfolder : t.node? (root ++ names) = some .folder
  · rw [decide_eq_true hfolder]
    have hselects : Selects t root (.directory names) names := .directory hfolder
    refine ⟨[root ++ names], rfl, [names], rfl, ⟨fun d => ?_, List.pairwise_singleton _ _⟩, ?_⟩
    · rw [List.mem_singleton]
      refine ⟨fun heq => heq ▸ hselects, fun h => ?_⟩
      cases h
      rfl
    · rw [List.forall_mem_singleton]
      exact ⟨hsteps, hne, hfolder, hfits _ (.manifest hselects), hshallow _ hselects⟩
  · rw [decide_eq_false hfolder]
    refine ⟨[], rfl, finds_nil fun d h => ?_⟩
    cases h with
    | directory h => exact hfolder h

/-- The names in a directory that stand for workspaces. -/
def openFolders (t : Tree) (l : Location) : List String :=
  (t.children l).filter fun name => decide (t.node? (l ++ [name]) = some .folder) && isOpenName name

theorem mem_openFolders {l : Location} {name : String} : name ∈ openFolders t l ↔
    t.node? (l ++ [name]) = some .folder ∧ isOpenName name = true := by
  rw [openFolders, List.mem_filter, Bool.and_eq_true, decide_eq_true_eq, Tree.mem_children_iff]
  refine and_iff_right_of_imp fun h => ?_
  rw [h.1]
  exact Option.some_ne_none _

theorem standsFor_inside {names : List String} (hfolder : t.node? (root ++ names) = some .folder)
    (haccess : t.access (root ++ names) = .ok (root ++ names, .folder)) :
    StandsFor t root (.inside names) ((openFolders t (root ++ names)).map (names ++ [·])) := by
  constructor
  · intro d
    rw [List.mem_map]
    constructor
    · rintro ⟨name, hname, rfl⟩
      obtain ⟨hnode, hopen⟩ := mem_openFolders.mp hname
      exact .inside hfolder hnode hopen
    · intro h
      cases h with
      | inside _ hname hopen => exact ⟨_, mem_openFolders.mpr ⟨hname, hopen⟩, rfl⟩
  · have hlisted : Context.namesIn t (root ++ names) = t.children (root ++ names) := by
      unfold Context.namesIn
      rw [haccess]
    have hsorted := Context.sorted_namesIn t (root ++ names)
    rw [hlisted] at hsorted
    have hkept : (openFolders t (root ++ names)).Pairwise (· < ·) :=
      hsorted.sublist List.filter_sublist
    rw [List.pairwise_map]
    simpa only [List.getLastD_concat] using hkept

theorem exists_select_inside (ht : t.Ordinary) (hroot : t.node? root = some .folder)
    {names : List String} (hnames : ∀ name ∈ names, IsSegment name)
    (hfits : ∀ l, Looks t root (.inside names) l → Tree.Fits l)
    (hshallow : ∀ d, Selects t root (.inside names) d → ¬ Manifest.IsTooDeep t (root ++ d)) :
    ∃ found, select t root ⟨Text.joinWith "/" names, true⟩ = .ok found ∧
      Finds t root (.inside names) found := by
  have hsteps := fun name hname => (hnames name hname).step
  have hplain := (ht.plain hroot).append (isPlain_segments hnames)
  rw [select_eq hsteps]
  unfold matching
  dsimp only
  rw [stepsFrom_joinWith hsteps, if_pos rfl, if_neg (no_nul_joinWith hnames)]
  by_cases hbase : t.node? (root ++ names) = some .folder ∧ Tree.Fits (root ++ names)
  · obtain ⟨hfolder, hlength⟩ := hbase
    have haccess := Tree.access_existing ht hfolder hlength
    have hlook : ∀ name ∈ t.children (root ++ names), t.isFolder? (root ++ names ++ [name]) =
        .ok (decide (t.node? (root ++ names ++ [name]) = some .folder)) := by
      intro name hname
      have hnode := Tree.mem_children_iff.mp hname
      obtain ⟨node, hsome⟩ := Option.ne_none_iff_exists'.mp hnode
      exact Tree.isFolder?_eq ht (ht.plain hsome) (hfits _ (.entry hfolder hnode))
    have hstands := standsFor_inside hfolder haccess
    rw [directoriesIn_eq haccess hlook]
    refine ⟨_, rfl, (openFolders t (root ++ names)).map (names ++ [·]), ?_, hstands, fun d hd => ?_⟩
    · rw [List.map_map]
      refine List.map_congr_left fun name _ => ?_
      exact List.append_assoc ..
    · have hselects := (hstands.mem d).mp hd
      obtain ⟨name, hname, rfl⟩ := List.mem_map.mp hd
      have hnode := (mem_openFolders.mp hname).1
      refine ⟨?_, List.concat_ne_nil _ _, ?_, hfits _ (.manifest hselects), hshallow _ hselects⟩
      · exact List.forall_mem_append.mpr ⟨hsteps, List.forall_mem_singleton.mpr
          (.of_name (ht.isName hnode))⟩
      · rwa [List.append_assoc] at hnode
  · obtain ⟨fault, hfault⟩ := matching_inside_of_absent ht hplain fun hfolder hlength =>
      hbase ⟨hfolder, hlength⟩
    rw [hfault]
    refine ⟨[], rfl, finds_nil fun d h => ?_⟩
    cases h with
    | inside h hname _ =>
      have hentry := hfits _ (.entry h (by rw [hname]; exact Option.some_ne_none _))
      exact hbase ⟨h, by simpa using hentry.dropLast⟩

/-! ## Discovery -/

/-- What a pattern stands for is found. -/
theorem exists_directoriesOf (ht : t.Ordinary) (hroot : t.node? root = some .folder) {pattern : Label}
    {m : Meaning} (hm : IsAbout pattern m) (hfits : ∀ l, Looks t root m l → Tree.Fits l)
    (hshallow : ∀ d, Selects t root m d → ¬ Manifest.IsTooDeep t (root ++ d))
    (hasked : pattern.isText = false → IsHarmless t root pattern) :
    ∃ found, directoriesOf t root pattern = .ok found ∧ Finds t root m found := by
  have hnothing : Finds t root .nothing [] := finds_nil fun d h => by cases h
  cases hm with
  | loose points hloose =>
    obtain ⟨found, hfound⟩ := selectLoose_returns.mpr (hasked rfl)
    obtain rfl := selectLoose_eq_ok hfound
    exact ⟨[], hfound, hnothing⟩
  | @text pattern m hm =>
    have hread := selection?_of_means hm
    rw [directoriesOf, hread]
    generalize trimmed pattern = text at hm
    cases hm with
    | empty => exact ⟨[], rfl, hnothing⟩
    | negated _ => exact ⟨[], rfl, hnothing⟩
    | directory _ hne hnames _ => exact exists_select_directory ht hroot hnames hne hfits hshallow
    | inside _ _ hnames _ => exact exists_select_inside ht hroot hnames hfits hshallow

/-- Workspaces are added pattern by pattern. -/
theorem addPatterns_exact (ht : t.Ordinary) (hroot : t.node? root = some .folder)
    {listed : List Label} {meanings : List Meaning} (hm : List.Forall₂ IsAbout listed meanings)
    (hfits : ∀ m ∈ meanings, ∀ l, Looks t root m l → Tree.Fits l)
    (hshallow : ∀ m ∈ meanings, ∀ d, Selects t root m d → ¬ Manifest.IsTooDeep t (root ++ d))
    (hasked : ∀ pattern ∈ listed, pattern.isText = false → IsHarmless t root pattern)
    {done : List (List String)} (hdone : ∀ d ∈ done, Steps d) {found : List Workspace}
    (hfound : List.Forall₂ (Describes t root) done.eraseDups found) :
    ∃ all lists, addPatterns t root found listed = .ok all ∧
      List.Forall₂ (StandsFor t root) meanings lists ∧
      List.Forall₂ (Describes t root) (done ++ lists.flatten).eraseDups all := by
  induction hm generalizing done found with
  | nil => exact ⟨found, [], rfl, .nil, by simpa using hfound⟩
  | @cons pattern m listed meanings hm _ ih =>
    obtain ⟨hfits, hfits'⟩ := List.forall_mem_cons.mp hfits
    obtain ⟨hshallow, hshallow'⟩ := List.forall_mem_cons.mp hshallow
    obtain ⟨hasked, hasked'⟩ := List.forall_mem_cons.mp hasked
    obtain ⟨_, hdirectories, ds, rfl, hstands, hds⟩ :=
      exists_directoriesOf ht hroot hm hfits hshallow hasked
    obtain ⟨more, hmore, hdescribed⟩ := addAll_exact ht hds hdone hfound
    have hdone' : ∀ d ∈ done ++ ds, Steps d :=
      List.forall_mem_append.mpr ⟨hdone, fun d hd => (hds d hd).steps⟩
    obtain ⟨all, lists, hadd, hlists, hall⟩ := ih hfits' hshallow' hasked' hdone' hdescribed
    refine ⟨all, ds :: lists, addPatterns_cons.mpr ⟨_, hdirectories, more, hmore, hadd⟩,
      .cons hstands hlists, ?_⟩
    rwa [List.flatten_cons, ← List.append_assoc]

theorem discover_eq {manifest : Json.Members} {listed : List Label}
    (h : patterns t root manifest = .ok listed) :
    discover t root manifest = addPatterns t root [] listed := by
  unfold discover
  rw [h]
  rfl

/-- In a tree without links patterns that are spelled as they should be lead to the directories that
they stand for, pattern by pattern, each at its first occurrence, unless a path that is looked at for
them is too long, the manifest of one of them is nested too deep, or a wildcard is for a directory that
cannot be asked for. -/
theorem discover_exact (ht : t.Ordinary) (hroot : t.node? root = some .folder)
    {manifest : Json.Members} {listed : List Label} {meanings : List Meaning}
    (hlisted : patterns t root manifest = .ok listed) (hm : List.Forall₂ IsAbout listed meanings)
    (hfits : ∀ m ∈ meanings, ∀ l, Looks t root m l → Tree.Fits l)
    (hshallow : ∀ m ∈ meanings, ∀ d, Selects t root m d → ¬ Manifest.IsTooDeep t (root ++ d))
    (hasked : ∀ pattern ∈ listed, pattern.isText = false → IsHarmless t root pattern) :
    ∃ all lists, discover t root manifest = .ok all ∧
      List.Forall₂ (StandsFor t root) meanings lists ∧
      List.Forall₂ (Describes t root) lists.flatten.eraseDups all := by
  obtain ⟨all, lists, hadd, hlists, hall⟩ :=
    addPatterns_exact ht hroot hm hfits hshallow hasked (List.forall_mem_nil _) .nil
  exact ⟨all, lists, (discover_eq hlisted).trans hadd, hlists, hall⟩

/-! ## A project with a package -/

/-- The manifest of a project whose workspaces are given by one pattern. -/
def declaring (pattern : String) : Json.Members := [("workspaces", .arr [.str pattern])]

theorem patterns_declaring (t : Tree) (root : List String) (pattern : String) :
    patterns t root (declaring pattern) = .ok [.text pattern] := rfl

/-- A project with a package of the framework, a hidden folder and one of modules. -/
def packageTree : Tree := ⟨[(["r"], .folder), (["r", "p"], .folder), (["r", "p", "b"], .folder),
  (["r", "p", ".a"], .folder), (["r", "p", "node_modules"], .folder),
  (["r", "p", "b", "package.json"],
    .file "\x7b\"name\":\"ui\",\"dependencies\":\x7b\"next\":\"1\"\x7d\x7d".toUTF8)]⟩

theorem ordinary_packageTree : packageTree.Ordinary :=
  Tree.ordinary_of_entries (by decide)

theorem means_wildcard : Means (trimmed " ./p/* ") (.inside ["p"]) := by
  have htrimmed : trimmed " ./p/* " = "./" ++ Text.joinWith "/" (["p"] ++ ["*"]) := by decide
  have hsegment : IsSegment "p" :=
    ⟨⟨by decide, by decide, by decide⟩, by decide, by decide, by decide, by decide⟩
  rw [htrimmed]
  exact .inside (by simp) (by simp [stars]) (List.forall_mem_singleton.mpr hsegment) (by decide)

/-- Whatever is in the tree leaves room for a manifest below it. -/
theorem fits_packageTree {l below : Location} {node : Node} (hnode : packageTree.node? l = some node)
    (hne : l ≠ []) (hbelow : below ∈ [[], [Manifest.fileName]]) : Tree.Fits (l ++ below) := by
  have hroom : ∀ entry ∈ packageTree.entries, ∀ below ∈ [[], [Manifest.fileName]],
      Tree.pathBytes (entry.1 ++ below) ≤ Tree.maxPathBytes ∧
        ∀ name ∈ entry.1 ++ below, name.utf8ByteSize ≤ Tree.maxNameBytes := by decide
  obtain ⟨hpath, hname⟩ := hroom _ (Tree.mem_entries hne hnode) below hbelow
  exact ⟨hpath, hname⟩

/-- No manifest in the tree is nested too deep. -/
theorem shallow_packageTree {directory : Location}
    (hnode : packageTree.node? directory = some .folder) :
    ¬ Manifest.IsTooDeep packageTree directory := by
  have hall : ∀ entry ∈ packageTree.entries, ¬ Manifest.IsTooDeep packageTree entry.1 := by
    decide +kernel
  by_cases hne : directory = []
  · subst hne
    decide +kernel
  · exact hall _ (Tree.mem_entries hne hnode)

theorem discover_exact_packageTree : ∃ all lists,
    discover packageTree ["r"] (declaring " ./p/* ") = .ok all ∧
      List.Forall₂ (StandsFor packageTree ["r"]) [.inside ["p"]] lists ∧
      List.Forall₂ (Describes packageTree ["r"]) lists.flatten.eraseDups all := by
  refine discover_exact ordinary_packageTree rfl (patterns_declaring _ _ _)
    (.cons (.text means_wildcard) .nil) ?_ ?_ ?_
  · rw [List.forall_mem_singleton]
    intro l hl
    cases hl with
    | @entry _ name _ hname =>
      obtain ⟨node, hnode⟩ := Option.ne_none_iff_exists'.mp hname
      have hfits := fits_packageTree hnode (by simp) (List.mem_pair.mpr (.inl rfl))
      rwa [List.append_nil] at hfits
    | manifest h =>
      cases h with
      | inside _ hname _ => exact fits_packageTree hname (by simp) (by simp)
  · rw [List.forall_mem_singleton]
    intro d hd
    cases hd with
    | @inside _ name _ hname _ => exact shallow_packageTree hname
  · rw [List.forall_mem_singleton]
    exact fun h => by cases h

/-! ## A path that is too long -/

/-- A directory that cannot be looked at because its path is too long is a fault. -/
theorem addPatterns_of_long {pattern : String} {names : List String}
    (hm : Means (trimmed pattern) (.directory names))
    (hlong : Tree.maxPathBytes < Tree.pathBytes (root ++ names)) (found : List Workspace)
    (rest : List Label) :
    addPatterns t root found (.text pattern :: rest) = .error (.access .nameTooLong) := by
  have hread := selection?_of_means hm
  have hnames : ∀ name ∈ names, IsSegment name := by
    generalize trimmed pattern = text at hm
    cases hm with
    | directory _ _ hnames _ => exact hnames
  have hsteps := fun name hname => (hnames name hname).step
  have hfind : t.find (root ++ names) = .error .nameTooLong := if_pos hlong
  have hseen : t.isFolder? (root ++ names) = .error .nameTooLong := by
    unfold Tree.isFolder? Tree.holdsAt Tree.access
    rw [hfind]
    rfl
  have hselect : select t root ⟨Text.joinWith "/" names, false⟩ = .error (.access .nameTooLong) := by
    rw [select_eq hsteps]
    unfold matching
    dsimp only
    rw [stepsFrom_joinWith hsteps, if_neg Bool.false_ne_true, if_neg (no_nul_joinWith hnames), hseen]
  rw [addPatterns, directoriesOf, hread]
  dsimp only [Meaning.selection?]
  rw [hselect]
  rfl

/-- The names on the way to a directory below as many others. -/
def deepNames (n : Nat) : List String := "a" :: List.replicate n "a"

theorem eq_of_mem_deepNames {n : Nat} {name : String} (h : name ∈ deepNames n) : name = "a" := by
  rcases List.mem_cons.mp h with h | h
  · exact h
  · exact List.eq_of_mem_replicate h

theorem length_deepNames (n : Nat) : (deepNames n).length = n + 1 := by simp [deepNames]

theorem pathBytes_deepNames (n : Nat) : Tree.pathBytes (deepNames n) = 2 * n + 2 := by
  have ha : "a".utf8ByteSize = 1 := by decide
  have hcons (names : List String) :
      Tree.pathBytes ("a" :: names) = "a".utf8ByteSize + 1 + Tree.pathBytes names := rfl
  unfold deepNames
  rw [hcons]
  induction n with
  | zero => rfl
  | succ n ih =>
    rw [List.replicate_succ, hcons]
    omega

theorem means_deepNames (n : Nat) :
    Means (trimmed (Text.joinWith "/" (deepNames n))) (.directory (deepNames n)) := by
  have hsegment : IsSegment "a" :=
    ⟨⟨by decide, by decide, by decide⟩, by decide, by decide, by decide, by decide⟩
  have hne : deepNames n ≠ [] := List.cons_ne_nil _ _
  have htrim {p : Char → Bool} (hp : p 'a' = false) :
      Text.trim p (Text.joinWith "/" (deepNames n)) = Text.joinWith "/" (deepNames n) := by
    refine Path.trim_joinWith hne (fun name hname => ?_) fun name hname c hc => ?_
    · rw [eq_of_mem_deepNames hname]
      decide
    · rw [eq_of_mem_deepNames hname] at hc
      rwa [List.mem_singleton.mp hc]
  have htrimmed : trimmed (Text.joinWith "/" (deepNames n)) =
      "" ++ Text.joinWith "/" (deepNames n) := by
    unfold trimmed Text.trimBlank
    rw [htrim (by decide), htrim (by decide), String.empty_append]
  rw [htrimmed]
  refine .directory (by simp) hne (fun name hname => ?_) ?_
  · rw [eq_of_mem_deepNames hname]
    exact hsegment
  · obtain ⟨rest, hrest⟩ := Text.prefix_joinWith "/" "a" (List.replicate n "a")
    unfold Text.startsWith
    rw [String.empty_append, deepNames, ← hrest]
    rfl

/-- A directory that is too deep is not there, so its pattern stands for nothing, but it keeps all
workspaces from being discovered. -/
theorem discover_fails_on_depth :
    Means (trimmed (Text.joinWith "/" (deepNames 2047))) (.directory (deepNames 2047)) ∧
      StandsFor packageTree ["r"] (.directory (deepNames 2047)) [] ∧
      discover packageTree ["r"] (declaring (Text.joinWith "/" (deepNames 2047))) =
        .error (.access .nameTooLong) := by
  have hmeans := means_deepNames 2047
  have hdeep : Tree.maxPathBytes < Tree.pathBytes (["r"] ++ deepNames 2047) := by
    have hroot : Tree.pathBytes ["r"] = 2 := by decide
    rw [Tree.pathBytes_append, hroot, pathBytes_deepNames]
    decide
  refine ⟨hmeans, ⟨fun d => ?_, List.Pairwise.nil⟩, ?_⟩
  · refine iff_of_false List.not_mem_nil fun h => ?_
    cases h with
    | directory hfolder =>
      have hshort : ∀ entry ∈ packageTree.entries, entry.1.length < 5 := by decide
      have hmem := Tree.mem_entries (by simp) hfolder
      have hlength : (["r"] ++ deepNames 2047).length < 5 := hshort _ hmem
      rw [List.length_append, length_deepNames] at hlength
      omega
  · rw [discover_eq (patterns_declaring _ _ _)]
    exact addPatterns_of_long hmeans hdeep [] []

end Checkup.Workspaces
