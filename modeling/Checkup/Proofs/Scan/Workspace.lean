import Checkup.Proofs.Ignore.Inherited
import Checkup.Proofs.Scan.Walk
import Checkup.Proofs.Tree.LinkedWriting
import Checkup.Proofs.Tree.Spelling

/-!
# Walking a workspace and walking the project

A walk of a workspace starts in its folder and tells ignored paths with the path of the workspace
before them. A walk of the project enters the folder of the workspace from above. Both find the same
files in it, unless an ignore rule keeps the second one from entering a folder on the way.

* `walk_below`: a walk that starts in a folder finds what a walk from above finds in it.
* `mem_walk_below`: a walk from above enters the folders that are not ignored.
* `exclusion_by_root`: the files found in a workspace, by where the walk starts.
-/

namespace Checkup

namespace Context

variable {c : Context} {t : Tree} {accepts : String → Bool} {left : Nat} {steps : List String}
  {folder name : String}

/-! ## Paths of entries -/

theorem entryPath_append (folder name rest : String) :
    entryPath folder name ++ rest = entryPath folder (name ++ rest) := by
  unfold entryPath
  split
  · rfl
  · rw [String.append_assoc, String.append_assoc]

theorem entryPath_inj {folder first second : String}
    (h : entryPath folder first = entryPath folder second) : first = second := by
  unfold entryPath at h
  split at h
  · exact h
  · exact String.append_right_inj _ |>.mp h

theorem entryPath_ne_empty (hn : name ≠ "") : entryPath folder name ≠ "" := by
  unfold entryPath
  split
  · exact hn
  · exact Path.append_slash_ne_empty folder name

/-- The path of the folder to which names lead from a folder. -/
def folderPath (folder : String) (names : List String) : String := names.foldl entryPath folder

theorem exists_folderPath (hfolder : folder ≠ "") {names : List String}
    (hn : ∀ name ∈ names, Tree.IsName name) (rest : String) :
    ∃ rest', folderPath folder names ++ "/" ++ rest = folder ++ "/" ++ rest' := by
  induction names generalizing folder with
  | nil => exact ⟨rest, rfl⟩
  | cons name names ih =>
    obtain ⟨hname, hnames⟩ := List.forall_mem_cons.mp hn
    obtain ⟨rest', heq⟩ := ih (entryPath_ne_empty hname.ne_empty) hnames
    refine ⟨name ++ "/" ++ rest', heq.trans ?_⟩
    have hpath : entryPath folder name = folder ++ "/" ++ name := if_neg hfolder
    rw [hpath]
    simp only [String.append_assoc]

/-- The path of a folder below another one. -/
def below (root folder : String) : String := if folder = "" then root else root ++ "/" ++ folder

theorem entryPath_below {root : String} (hroot : root ≠ "") (hname : name ≠ "") :
    entryPath (below root folder) name = below root (entryPath folder name) := by
  unfold below
  rw [if_neg (entryPath_ne_empty hname)]
  unfold entryPath
  split
  · rfl
  · rw [if_neg (Path.append_slash_ne_empty root folder)]
    simp only [String.append_assoc]

/-! ## Entering folders -/

/-- What a walk finds lies below the folder it starts in. -/
theorem exists_of_mem_walk_folder (hfolder : folder ≠ "") {path : String}
    (h : path ∈ c.walk t accepts left steps folder) : ∃ rest, path = folder ++ "/" ++ rest := by
  have hpath : ∀ {folder name}, folder ≠ "" → entryPath folder name = folder ++ "/" ++ name :=
    fun hfolder => if_neg hfolder
  have hcomes := mem_walk_iff_comesTo.mp h
  clear h
  induction hcomes with
  | take => exact ⟨_, hpath hfolder⟩
  | @enter left steps folder name path _ _ _ _ _ ih =>
    rw [hpath hfolder] at ih
    obtain ⟨rest, rfl⟩ := ih (Path.append_slash_ne_empty folder name)
    exact ⟨name ++ "/" ++ rest, by simp only [String.append_assoc]⟩

/-- What an access comes to by a name is an entry of the folder above it. -/
theorem mem_namesIn_of_access (h1 : name ≠ ".") (h2 : name ≠ "..") {l : Location} {node : Node}
    (haccess : t.access (steps ++ [name]) = .ok (l, node)) : name ∈ namesIn t steps := by
  obtain ⟨parent, links, hparent, hfollow⟩ := Tree.access_dropLast (Tree.find_of_access haccess)
  unfold namesIn
  rw [hparent]
  refine Tree.mem_children_iff.mpr fun hnone => ?_
  cases (hfollow.last h1 h2).2 hnone

/-- A folder that is walked stands in the folder above it. -/
theorem mem_namesIn_of_walk (hname : Tree.IsName name) {path : String}
    (h : path ∈ c.walk t accepts left (steps ++ [name]) folder) :
    name ∈ namesIn t steps ∧ entryKind t (steps ++ [name]) = .folder := by
  obtain ⟨below, hbelow⟩ : ∃ below, below ∈ namesIn t (steps ++ [name]) := by
    cases mem_walk_iff_comesTo.mp h with
    | take hbelow => exact ⟨_, hbelow⟩
    | enter hbelow => exact ⟨_, hbelow⟩
  obtain ⟨l, haccess, -⟩ := access_of_mem_namesIn hbelow
  refine ⟨mem_namesIn_of_access hname.ne_here hname.ne_up haccess, ?_⟩
  unfold entryKind
  rw [haccess]

variable (c accepts left steps folder)

/-- A walk finds what lies in a folder that it enters, unless the folder is ignored. -/
theorem mem_walk_name (ht : t.Named) (hname : Tree.IsName name)
    (hskip : isSkippedName name = false) (rest : String) :
    entryPath folder name ++ "/" ++ rest ∈ c.walk t accepts (left + 1) steps folder ↔
      c.isIgnored (entryPath folder name) true = false ∧ entryPath folder name ++ "/" ++ rest ∈
        c.walk t accepts left (steps ++ [name]) (entryPath folder name) := by
  constructor
  · intro h
    generalize hpath : entryPath folder name ++ "/" ++ rest = path at h ⊢
    cases mem_walk_iff_comesTo.mp h with
    | @take _ _ _ other hother =>
      -- a name has no slash
      have ho := isName_of_mem_namesIn ht hother
      rw [String.append_assoc, entryPath_append, ← String.append_assoc] at hpath
      exact absurd (entryPath_inj hpath).symm (Path.ne_append_slash ho.no_slash name rest)
    | @enter _ _ _ other _ hother _ _ hignored hcomes =>
      -- the path goes through one entry of the folder only
      have ho := isName_of_mem_namesIn ht hother
      have hbelow := mem_walk_iff_comesTo.mpr hcomes
      obtain ⟨rest', rfl⟩ := exists_of_mem_walk_folder (entryPath_ne_empty ho.ne_empty) hbelow
      have hsame : name = other := by
        rw [String.append_assoc, String.append_assoc, entryPath_append, entryPath_append] at hpath
        have hpath := entryPath_inj hpath
        rw [← String.append_assoc, ← String.append_assoc] at hpath
        exact Path.eq_of_append_slash hname.no_slash ho.no_slash hpath
      subst hsame
      exact ⟨hignored, hbelow⟩
  · rintro ⟨hignored, h⟩
    obtain ⟨hmem, hkind⟩ := mem_namesIn_of_walk hname h
    exact mem_walk_iff_comesTo.mpr (.enter hmem hkind hskip hignored (mem_walk_iff_comesTo.mp h))

/-- A walk finds what lies below a folder if it ignores no folder on the way there. -/
theorem mem_walk_below (ht : t.Named) {names : List String}
    (hn : ∀ name ∈ names, Tree.IsName name ∧ isSkippedName name = false) (rest : String) :
    folderPath folder names ++ "/" ++ rest ∈ c.walk t accepts left steps folder ↔
      (∀ q, q ≠ [] → q <+: names → c.isIgnored (folderPath folder q) true = false) ∧
      folderPath folder names ++ "/" ++ rest ∈
        c.walk t accepts (left - names.length) (steps ++ names) (folderPath folder names) := by
  induction names generalizing left steps folder with
  | nil =>
    rw [List.append_nil]
    exact iff_and_self.mpr fun _ q hq hprefix => absurd (List.prefix_nil.mp hprefix) hq
  | cons name names ih =>
    obtain ⟨⟨hname, hskip⟩, hnames⟩ := List.forall_mem_cons.mp hn
    have hfolder : folderPath folder (name :: names) = folderPath (entryPath folder name) names := rfl
    cases left with
    | zero =>
      rw [Nat.zero_sub]
      exact iff_of_false List.not_mem_nil fun h => List.not_mem_nil h.2
    | succ left =>
      have hentry : entryPath folder name ≠ "" := entryPath_ne_empty hname.ne_empty
      obtain ⟨rest', hrest⟩ := exists_folderPath hentry (fun n hmem => (hnames n hmem).1) rest
      have hstep := mem_walk_name c accepts left steps folder ht hname hskip rest'
      rw [← hrest] at hstep
      have hbelow := ih left (steps ++ [name]) (entryPath folder name) hnames
      rw [hfolder, hstep, hbelow, List.length_cons, Nat.add_sub_add_right, List.append_assoc,
        List.singleton_append, ← and_assoc]
      refine and_congr_left fun _ => ?_
      constructor
      · rintro ⟨hfirst, hlater⟩ q hq hprefix
        cases q with
        | nil => exact absurd rfl hq
        | cons other q =>
          obtain ⟨rfl, hlast⟩ := List.cons_prefix_cons.mp hprefix
          by_cases hempty : q = []
          · rw [hempty]
            exact hfirst
          · exact hlater q hempty hlast
      · intro hall
        refine ⟨hall [name] (List.cons_ne_nil _ _) ⟨names, rfl⟩, fun q _ hprefix => ?_⟩
        exact hall (name :: q) (List.cons_ne_nil _ _) (List.cons_prefix_cons.mpr ⟨rfl, hprefix⟩)

/-! ## Starting in a folder -/

/-- A walk of the project from a folder on finds what a walk of the scan root in the folder finds. -/
theorem walk_below (ht : t.Named) {c' : Context} {root : String} (hroot : root ≠ "")
    (hrelative : c.relativeRoot = "") (hrelative' : c'.relativeRoot = root)
    (hrules : c'.ignoreRules = c.ignoreRules) :
    c.walk t accepts left steps (below root folder) =
      (c'.walk t (fun path => accepts (root ++ "/" ++ path)) left steps folder).map
        (root ++ "/" ++ ·) := by
  have hignored : ∀ path b, c.isIgnored (root ++ "/" ++ path) b = c'.isIgnored path b := by
    intro path b
    unfold isIgnored projectPath
    rw [if_pos hrelative, hrelative', if_neg hroot, hrules]
  induction left generalizing folder steps with
  | zero => rfl
  | succ left ih =>
    rw [walk, walk, List.map_flatMap]
    refine List.flatMap_congr fun name hmem => ?_
    have hname := (isName_of_mem_namesIn ht hmem).ne_empty
    have hbelow : below root (entryPath folder name) = root ++ "/" ++ entryPath folder name :=
      if_neg (entryPath_ne_empty hname)
    dsimp only
    rw [entryPath_below hroot hname]
    cases entryKind t (steps ++ [name]) with
    | unknown => rfl
    | folder =>
      dsimp only
      rw [ih, hbelow, hignored]
      split <;> rfl
    | file =>
      dsimp only
      rw [hbelow, hignored]
      split <;> rfl

end Context

/-! ## The path of a workspace -/

namespace Path

variable {names : List String}

theorem folderPath_eq (hne : names ≠ []) (hn : ∀ name ∈ names, IsStep name) (folder : String) :
    Context.folderPath folder names = Context.entryPath folder (Text.joinWith "/" names) := by
  induction names generalizing folder with
  | nil => exact absurd rfl hne
  | cons name rest ih =>
    obtain ⟨hname, hrest⟩ := List.forall_mem_cons.mp hn
    cases rest with
    | nil => rfl
    | cons next rest =>
      have hstep := ih (List.cons_ne_nil _ _) hrest (Context.entryPath folder name)
      have hfolder : Context.entryPath (Context.entryPath folder name)
          (Text.joinWith "/" (next :: rest)) =
          Context.entryPath folder name ++ "/" ++ Text.joinWith "/" (next :: rest) :=
        if_neg (Context.entryPath_ne_empty hname.ne_empty)
      rw [Text.joinWith]
      show Context.folderPath (Context.entryPath folder name) (next :: rest) = _
      rw [hstep, hfolder, String.append_assoc, String.append_assoc, Context.entryPath_append]

/-- Names lead from the root to the folder with their path. -/
theorem folderPath_empty (hne : names ≠ []) (hn : ∀ name ∈ names, IsStep name) :
    Context.folderPath "" names = relative names := by
  rw [folderPath_eq hne hn, relative_eq hne]
  rfl

end Path

/-! ## The files in a workspace -/

namespace Context

/-- The files that a walk finds, whatever they are. -/
def filesTo (c : Context) (t : Tree) (depth : Int) : List String :=
  c.findFilesTo t (fun _ => true) depth

theorem mem_filesTo_project {t : Tree} (ht : t.Named) (root : List String) {names : List String}
    (hne : names ≠ [])
    (hn : ∀ name ∈ names, Tree.IsName name ∧ isSkippedName name = false) (rules : List IgnoreRule)
    (p p' : Project) (file : String) (depth : Int) :
    Path.relative names ++ "/" ++ file ∈
        (forRoot root p false "" rules).filesTo t (depth + names.length) ↔
      file ∈ (forRoot (root ++ names) p' true (Path.relative names) rules).filesTo t depth ∧
        ∀ q, q ≠ [] → q <+: names → ignoredBy rules (Path.relative q) true = false := by
  have hnames : ∀ name ∈ names, Tree.IsName name := fun name hmem => (hn name hmem).1
  have hstep : ∀ name ∈ names, Path.IsStep name := fun name hmem => .of_name (hnames name hmem)
  have hpath := Path.folderPath_empty hne hstep
  have hempty : Path.relative names ≠ "" := by
    rw [Path.relative_eq hne]
    exact Path.joinWith_ne_empty hne hstep
  have hrelative : (forRoot (root ++ names) p' true (Path.relative names) rules).relativeRoot =
      Path.relative names := Path.trim_relative hne hstep
  have hbelow := mem_walk_below (forRoot root p false "" rules) (fun _ => true)
    (depth + names.length + 1).toNat root "" ht hn file
  have hwalk := walk_below (forRoot root p false "" rules) (fun _ => true) (depth + 1).toNat
    (root ++ names) "" ht hempty rfl hrelative rfl
  have hleft : (depth + names.length + 1).toNat - names.length = (depth + 1).toNat := by omega
  have hroot : below (Path.relative names) "" = Path.relative names := rfl
  rw [hpath, hleft] at hbelow
  rw [hroot] at hwalk
  rw [hwalk] at hbelow
  unfold filesTo findFilesTo
  refine hbelow.trans ?_
  have hmem : Path.relative names ++ "/" ++ file ∈
      ((forRoot (root ++ names) p' true (Path.relative names) rules).walk t (fun _ => true)
        (depth + 1).toNat (root ++ names) "").map (Path.relative names ++ "/" ++ ·) ↔
      file ∈ (forRoot (root ++ names) p' true (Path.relative names) rules).walk t (fun _ => true)
        (depth + 1).toNat (root ++ names) "" := by
    refine List.mem_map_of_injective fun first second h => ?_
    exact String.append_right_inj _ |>.mp h
  rw [hmem, and_comm]
  refine and_congr_right fun _ => forall_congr' fun q => forall_congr' fun hq =>
    forall_congr' fun habove => ?_
  rw [Path.folderPath_empty hq fun name hmem => hstep name (habove.subset hmem)]
  rfl

/-- What a walk finds is not ignored. -/
theorem not_ignored_of_mem_walk {c : Context} {t : Tree} {accepts : String → Bool} {left : Nat}
    {steps : List String} {folder path : String} (h : path ∈ c.walk t accepts left steps folder) :
    c.isIgnored path false = false := (mem_walk_iff_comesTo.mp h).accepted.2

/-- A file of a workspace is found from the project if and only if it is found from the workspace
and no folder on the way to the workspace is ignored. With rules that are inherited, it does not
matter from where the file is looked for. -/
theorem exclusion_by_root {t : Tree} (ht : t.Named) {root names : List String} (hne : names ≠ [])
    (hn : ∀ name ∈ names, Tree.IsName name ∧ isSkippedName name = false) (rules : List IgnoreRule)
    (p p' : Project) (file : String) (depth : Int) :
    (Path.relative names ++ "/" ++ file ∈
        (forRoot root p false "" rules).filesTo t (depth + names.length) ↔
      file ∈ (forRoot (root ++ names) p' true (Path.relative names) rules).filesTo t depth ∧
        ∀ q, q ≠ [] → q <+: names → ignoredBy rules (Path.relative q) true = false) ∧
    ((∀ rule ∈ rules, rule.IsInherited) → (Path.relative names ++ "/" ++ file ∈
        (forRoot root p false "" rules).filesTo t (depth + names.length) ↔
      file ∈ (forRoot (root ++ names) p' true (Path.relative names) rules).filesTo t depth)) := by
  have hiff := mem_filesTo_project ht root hne hn rules p p' file depth
  refine ⟨hiff, fun hinherited => hiff.trans (and_iff_left_of_imp fun hfile q hq hprefix => ?_)⟩
  have hstep : ∀ name ∈ names, Path.IsStep name := fun name hmem => .of_name (hn name hmem).1
  have hignored := not_ignored_of_mem_walk hfile
  unfold isIgnored projectPath at hignored
  have hrelative : (forRoot (root ++ names) p' true (Path.relative names) rules).relativeRoot =
      Path.relative names := Path.trim_relative hne hstep
  have hempty : Path.relative names ≠ "" := by
    rw [Path.relative_eq hne]
    exact Path.joinWith_ne_empty hne hstep
  rw [hrelative, if_neg hempty] at hignored
  obtain ⟨more, rfl⟩ := hprefix
  by_cases hmore : more = []
  · rw [hmore, List.append_nil] at hignored
    exact IgnoreRule.not_ignored_above hinherited hignored
  · have hpath : Path.relative q ++ "/" ++ Path.relative more ++ "/" ++ file =
        Path.relative q ++ "/" ++ (Path.relative more ++ "/" ++ file) := by
      simp only [String.append_assoc]
    rw [Path.relative_append hq hmore, hpath] at hignored
    exact IgnoreRule.not_ignored_above hinherited hignored

/-! ## A rule that is restricted to folders -/

/-- A project with a file in a workspace. -/
def packagesTree : Tree := ⟨[(["r"], .folder), (["r", "packages"], .folder),
  (["r", "packages", "a"], .folder), (["r", "packages", "a", "f.ts"], .file "".toUTF8)]⟩

theorem ordinary_packagesTree : packagesTree.Ordinary := Tree.ordinary_of_entries (by decide)

/-- The workspace as it is scanned. -/
def packageContext (rules : List IgnoreRule) : Context :=
  forRoot ["r", "packages", "a"] default true "packages/a" rules

theorem mem_packagesTree {rules : List IgnoreRule}
    (h : ignoredBy rules "packages/a/f.ts" false = false) :
    "f.ts" ∈ (packageContext rules).filesTo packagesTree 6 := by
  have haccess : packagesTree.access ["r", "packages", "a"] =
      .ok (["r", "packages", "a"], .folder) := by decide +kernel
  have hkind : entryKind packagesTree (["r", "packages", "a"] ++ ["f.ts"]) = .file := by decide +kernel
  have hmem : "f.ts" ∈ namesIn packagesTree ["r", "packages", "a"] := by
    unfold namesIn
    rw [haccess]
    exact Tree.mem_children_iff.mpr (by decide)
  have hignored : (packageContext rules).isIgnored "f.ts" false = false := h
  have hpath : entryPath "" "f.ts" = "f.ts" := rfl
  show "f.ts" ∈ (packageContext rules).walk packagesTree (fun _ => true) 7 ["r", "packages", "a"] ""
  rw [walk, List.mem_flatMap]
  refine ⟨"f.ts", hmem, ?_⟩
  dsimp only
  rw [hkind, hpath, hignored]
  exact List.mem_singleton_self _

/-- Rules on names and rules on what lies below a folder are inherited. -/
theorem isInherited_ofLines {rule : IgnoreRule} (h : rule ∈ IgnoreRule.ofLines ["*.md", "docs/*"]) :
    rule.IsInherited := by
  have hsorts : ∀ rule ∈ IgnoreRule.ofLines ["*.md", "docs/*"], rule.directoryOnly = false ∧
      ((rule.anchored || rule.hasSlash) = true →
        (Glob.parse rule.pattern.toList).getLast? = some .star) := by decide
  obtain ⟨hdirectory, hstar⟩ := hsorts rule h
  cases htied : rule.anchored || rule.hasSlash with
  | false => exact IgnoreRule.isInherited_of_name hdirectory htied
  | true => exact IgnoreRule.isInherited_of_tied hdirectory htied (.inr (hstar htied))

theorem exclusion_by_root_packages :
    "packages/a/f.ts" ∈ (forRoot ["r"] default false "" (IgnoreRule.ofLines ["*.md"])).filesTo
      packagesTree 8 ∧
    "packages/a/f.ts" ∈ (forRoot ["r"] default false ""
      (IgnoreRule.ofLines ["*.md", "docs/*"])).filesTo packagesTree 8 := by
  have hn : ∀ name ∈ ["packages", "a"], Tree.IsName name ∧ isSkippedName name = false := by decide
  have hiff : "packages/a/f.ts" ∈ (forRoot ["r"] default false ""
      (IgnoreRule.ofLines ["*.md"])).filesTo packagesTree 8 ↔ _ :=
    (exclusion_by_root ordinary_packagesTree.named (List.cons_ne_nil _ _) hn
      (IgnoreRule.ofLines ["*.md"]) default default "f.ts" 6).1
  have hagree : "packages/a/f.ts" ∈ (forRoot ["r"] default false ""
      (IgnoreRule.ofLines ["*.md", "docs/*"])).filesTo packagesTree 8 ↔ _ :=
    (exclusion_by_root ordinary_packagesTree.named (List.cons_ne_nil _ _) hn
      (IgnoreRule.ofLines ["*.md", "docs/*"]) default default "f.ts" 6).2 fun _ => isInherited_ofLines
  refine ⟨hiff.mpr ⟨mem_packagesTree (by decide), fun q hq hprefix => ?_⟩,
    hagree.mpr (mem_packagesTree (by decide))⟩
  have hcases : q ∈ ["packages", "a"].inits := (List.mem_inits _ _).mpr hprefix
  have hall : ∀ q ∈ ["packages", "a"].inits, q ≠ [] →
      ignoredBy (IgnoreRule.ofLines ["*.md"]) (Path.relative q) true = false := by decide
  exact hall q hcases hq

/-- A rule on a folder keeps the walk of the project out of a workspace, but not the walk of the
workspace. -/
theorem exclusion_of_packages :
    "f.ts" ∈ (forRoot ["r", "packages", "a"] default true "packages/a"
      (IgnoreRule.ofLines ["packages/"])).filesTo packagesTree 6 ∧
    "packages/a/f.ts" ∉ (forRoot ["r"] default false ""
      (IgnoreRule.ofLines ["packages/"])).filesTo packagesTree 8 := by
  have hn : ∀ name ∈ ["packages", "a"], Tree.IsName name ∧ isSkippedName name = false := by decide
  refine ⟨mem_packagesTree (by decide), fun h => ?_⟩
  have hnone := ((mem_filesTo_project ordinary_packagesTree.named ["r"] (List.cons_ne_nil _ _) hn
    (IgnoreRule.ofLines ["packages/"]) default default "f.ts" 6).mp h).2
    ["packages"] (List.cons_ne_nil _ _) ⟨["a"], rfl⟩
  have hignored : ignoredBy (IgnoreRule.ofLines ["packages/"]) "packages" true = true := by decide
  exact Bool.false_ne_true (hnone.symm.trans hignored)

end Context

end Checkup
