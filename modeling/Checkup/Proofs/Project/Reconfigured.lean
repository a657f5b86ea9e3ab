import Checkup.Proofs.Project.Rediscovery
import Checkup.Proofs.Rule.Places
import Checkup.Proofs.Tree.Replaced
import Checkup.Run.Root

/-!
# Projects with other settings

The settings of a project are read from one file in its directory. Nothing else of a project comes
from that file: with other settings the project is described as before, and the rules are shown the
same. Only a new settings file can be in the way, where its path is too long to look at.

* `Reconfigured`: a tree and the same tree with other settings of a project.
* `Project.describe_reconfigured`: the description of the project.
* `ScanRoot.ofWorkspace_same`: the scan roots of its workspaces.
* `Context.showsSame_same`: what the rules are shown.
-/

namespace Checkup

variable {fresh name : String} {t t' : Tree} {root : List String}

/-! ## Workspaces -/

theorem Manifest.read_same (h : Tree.SameBut fresh t t') (hname : fileName ≠ fresh)
    (directory : List String) : read t' directory = read t directory := by
  rw [read_eq, read_eq, Tree.content_same h directory (by decide) (by decide) hname]

theorem Manifest.load_same (h : Tree.SameBut fresh t t') (hname : fileName ≠ fresh)
    (directory : List String) : load t' directory = load t directory := by
  have hdeep : IsTooDeep t' directory ↔ IsTooDeep t directory := by
    have hcontent := Tree.content_same h directory (by decide) (by decide) hname
    exact iff_of_eq (congrArg Json.TooDeepIn hcontent)
  rw [load_eq, load_eq, read_same h hname]
  exact if_congr hdeep rfl rfl

/-- Every element of a list with what a computation says of it. -/
theorem Except.mapM_tag {ε α : Type} {f : α → Except ε Bool} {l : List α} {tagged : List (α × Bool)} :
    (l.mapM fun a => do pure (a, ← f a)) = .ok tagged ↔
      (∀ a ∈ l, (f a).Returns) ∧ tagged = l.map fun a => (a, (f a).toOption.getD false) := by
  induction l generalizing tagged with
  | nil =>
    rw [List.mapM_nil]
    exact ⟨fun h => by cases h; simp, fun ⟨_, h⟩ => h ▸ rfl⟩
  | cons a rest ih =>
    rw [List.mapM_cons, Except.bind_eq_ok, List.forall_mem_cons, List.map_cons]
    constructor
    · rintro ⟨pair, hpair, h⟩
      obtain ⟨b, hb, hpair⟩ := Except.bind_eq_ok.mp hpair
      obtain ⟨more, hmore, h⟩ := Except.bind_eq_ok.mp h
      obtain ⟨hreturns, hmore⟩ := ih.mp hmore
      cases hpair
      cases h
      exact ⟨⟨⟨b, hb⟩, hreturns⟩, by rw [hb, hmore]; rfl⟩
    · rintro ⟨⟨⟨b, hb⟩, hreturns⟩, rfl⟩
      refine ⟨(a, b), Except.bind_eq_ok.mpr ⟨b, hb, rfl⟩, ?_⟩
      exact Except.bind_eq_ok.mpr ⟨_, ih.mpr ⟨hreturns, rfl⟩, by rw [hb]; rfl⟩

namespace Workspaces

/-- A name in a directory may be that of a workspace. -/
def isOpenFolder (t : Tree) (base : List String) (name : String) : Bool :=
  (t.isFolder? (base ++ [name])).toOption.getD false && isOpenName name

/-- The directories that a wildcard stands for, if all entries can be looked at. -/
theorem directoriesIn_eq_ok {base : List String} {l : Location} {found : List (List String)}
    (haccess : t.access base = .ok (l, .folder)) : directoriesIn t base = .ok found ↔
      (∀ name ∈ t.children l, (t.isFolder? (base ++ [name])).Returns) ∧
        found = ((t.children l).filter (isOpenFolder t base)).map fun name => base ++ [name] := by
  unfold directoriesIn
  rw [haccess, Except.bind_eq_ok]
  simp only [Except.ok.injEq, exists_eq_left']
  rw [Except.bind_eq_ok]
  constructor
  · rintro ⟨tagged, htagged, h⟩
    obtain ⟨hreturns, rfl⟩ := Except.mapM_tag.mp htagged
    cases h
    refine ⟨hreturns, ?_⟩
    rw [List.filter_map, List.map_map]
    rfl
  · rintro ⟨hreturns, rfl⟩
    refine ⟨_, Except.mapM_tag.mpr ⟨hreturns, rfl⟩, ?_⟩
    rw [List.filter_map, List.map_map]
    rfl

/-- A wildcard stands for the same directories. A new file among them is none, but it must be
possible to look at it. -/
theorem directoriesIn_same (h : Tree.SameBut fresh t t') (hfresh : Tree.IsName fresh)
    (hopen : isOpenName fresh = false) (hlength : fresh.utf8ByteSize ≤ Tree.maxNameBytes)
    {base : List String} (hroom : ∀ l, t.access base = .ok (l, .folder) →
      t.node? (l ++ [fresh]) = none → t'.node? (l ++ [fresh]) ≠ none →
        Tree.pathBytes (base ++ [fresh]) ≤ Tree.maxPathBytes) {found : List (List String)} :
    directoriesIn t' base = .ok found ↔ directoriesIn t base = .ok found := by
  by_cases hfolder : ∃ l, t.access base = .ok (l, .folder)
  · obtain ⟨l, haccess⟩ := hfolder
    have hisFolder : isOpenFolder t' base = isOpenFolder t base := by
      funext name
      unfold isOpenFolder
      rw [Tree.isFolder?_grown h.grown]
    have hchildren : (t'.children l).filter (isOpenFolder t base) =
        (t.children l).filter (isOpenFolder t base) := by
      refine Tree.filter_children_eq fun name hname => ?_
      have hne : name ≠ fresh := by
        rintro rfl
        rw [isOpenFolder, hopen, Bool.and_false] at hname
        cases hname
      rw [h.node_entry hne]
    have hreturns : (∀ name ∈ t'.children l, (t'.isFolder? (base ++ [name])).Returns) ↔
        ∀ name ∈ t.children l, (t.isFolder? (base ++ [name])).Returns := by
      simp only [Tree.isFolder?_grown h.grown]
      refine ⟨fun hall name hname => hall name (Tree.mem_children_of_mem h.grown hname),
        fun hall name hname => ?_⟩
      by_cases hold : name ∈ t.children l
      · exact hall name hold
      · rw [Tree.mem_children_iff] at hname hold
        rw [not_not] at hold
        obtain rfl : name = fresh := by
          by_contra hne
          rw [h.node_entry hne, hold] at hname
          exact hname rfl
        exact Tree.isFolder?_returns h.grown.old haccess hfresh.ne_here hfresh.ne_up
          (hroom l haccess hold hname) hlength
    rw [directoriesIn_eq_ok haccess, directoriesIn_eq_ok ((Tree.access_folder_grown h.grown).mpr haccess),
      hreturns, hisFolder, hchildren]
  · have hnone : ∀ {t : Tree}, (¬ ∃ l, t.access base = .ok (l, .folder)) →
        directoriesIn t base ≠ .ok found := by
      intro t hfolder hfound
      obtain ⟨⟨l, node⟩, haccess, hfound⟩ := Except.bind_eq_ok.mp hfound
      cases node with
      | folder => exact hfolder ⟨l, haccess⟩
      | file bytes => cases hfound
      | link target => cases hfound
    refine iff_of_false (hnone ?_) (hnone hfolder)
    rintro ⟨l, haccess⟩
    exact hfolder ⟨l, (Tree.access_folder_grown h.grown).mp haccess⟩

/-- A pattern stands for the same directories. -/
theorem matching_same (h : Tree.SameBut fresh t t') {s : Selection}
    (hsame : s.wildcard = true → ∀ {found}, directoriesIn t' (Path.stepsFrom root s.base) = .ok found ↔
      directoriesIn t (Path.stepsFrom root s.base) = .ok found) :
    matching t' root s = matching t root s := by
  unfold matching
  dsimp only
  rw [Tree.isFolder?_grown h.grown]
  split
  · rename_i hwildcard
    split
    · rfl
    · cases hfound : directoriesIn t (Path.stepsFrom root s.base) with
      | ok found => rw [(hsame hwildcard).mpr hfound]
      | error fault =>
        cases hfound' : directoriesIn t' (Path.stepsFrom root s.base) with
        | ok found =>
          rw [(hsame hwildcard).mp hfound'] at hfound
          cases hfound
        | error fault' => rfl
  · rfl

/-- A workspace is described as before. -/
theorem describe_same (h : Tree.SameBut fresh t t') (hname : Manifest.fileName ≠ fresh)
    (directory : List String) (path : String) :
    describe t' root directory path = describe t root directory path := by
  unfold describe
  rw [Tree.exists?_grown h.grown directory (by decide) (by decide) hname, Manifest.load_same h hname]

theorem addAll_congr (hdescribe : ∀ directory path,
    describe t' root directory path = describe t root directory path)
    (directories : List (List String)) (found : List Workspace) :
    addAll t' root found directories = addAll t root found directories := by
  induction directories generalizing found with
  | nil => rfl
  | cons directory rest ih =>
    rw [addAll.eq_def, addAll.eq_def t]
    simp only [hdescribe, ih]

theorem directoriesOf_congr {pattern : Label} (hmatching : ∀ text, pattern = .text text → ∀ s,
    selection? text = some s → matching t' root s = matching t root s) :
    directoriesOf t' root pattern = directoriesOf t root pattern := by
  cases pattern with
  | text text =>
    rw [directoriesOf, directoriesOf]
    cases hs : selection? text with
    | none => rfl
    | some s => simp only [select, hmatching text rfl s hs]
  | loose points h => rfl

theorem addPatterns_congr (hdescribe : ∀ directory path,
    describe t' root directory path = describe t root directory path) {patterns : List Label}
    (hmatching : ∀ text, .text text ∈ patterns → ∀ s, selection? text = some s →
      matching t' root s = matching t root s) (found : List Workspace) :
    addPatterns t' root found patterns = addPatterns t root found patterns := by
  induction patterns generalizing found with
  | nil => rfl
  | cons pattern rest ih =>
    have hfirst : directoriesOf t' root pattern = directoriesOf t root pattern :=
      directoriesOf_congr fun text htext => hmatching text (htext ▸ List.mem_cons_self ..)
    have hrest := ih fun text htext => hmatching text (List.mem_cons_of_mem pattern htext)
    rw [addPatterns, addPatterns, hfirst]
    simp only [addAll_congr hdescribe, hrest]

theorem patterns_same (h : Tree.SameBut fresh t t') (hname : listingName ≠ fresh)
    (manifest : Json.Members) : patterns t' root manifest = patterns t root manifest := by
  unfold patterns
  rw [listing?_eq, listing?_eq, Tree.content_same h root (by decide) (by decide) hname]

/-- There is room for a file of some name in all directories in which workspaces are looked for. Without
it a wildcard would stand for nothing any more, since not all entries could be looked at. -/
def Roomy (t : Tree) (root : List String) (name : String) : Prop :=
  ∀ found, patterns t root (Manifest.read t root) = .ok found → ∀ pattern, .text pattern ∈ found → ∀ s,
    selection? pattern = some s → s.wildcard = true →
      Tree.pathBytes (Path.stepsFrom root s.base ++ [name]) ≤ Tree.maxPathBytes

end Workspaces

/-! ## The project -/

/-- The place of the settings of a project. -/
def Settings.location (root : Location) : Location := root ++ [fileName]

/-- A tree, and the same tree with other settings of the project in a directory. The settings file is
written again, or it is new and there is room for it. -/
structure Reconfigured (root : Location) (t t' : Tree) : Prop where
  old : t.Ordinary
  new : t'.Ordinary
  same : ∀ {l}, l ≠ Settings.location root → t'.node? l = t.node? l
  file : t'.node? (Settings.location root) ≠ t.node? (Settings.location root) →
    t.node? (Settings.location root) ≠ some .folder ∧
      ∃ bytes, t'.node? (Settings.location root) = some (.file bytes)
  room : t.node? (Settings.location root) = none → t'.node? (Settings.location root) ≠ none →
    Workspaces.Roomy t root Settings.fileName

namespace Reconfigured

theorem getLast?_location (root : Location) :
    (Settings.location root).getLast? = some Settings.fileName := List.getLast?_concat

theorem sameBut (h : Reconfigured root t t') : Tree.SameBut Settings.fileName t t' where
  grown := by
    have hcases : ∀ l, t'.node? l = t.node? l ∨ (l = Settings.location root ∧
        t.node? l ≠ some .folder ∧ ∃ bytes, t'.node? l = some (.file bytes)) := by
      intro l
      by_cases hsame : t'.node? l = t.node? l
      · exact .inl hsame
      · obtain rfl : l = Settings.location root := by
          by_contra hne
          exact hsame (h.same hne)
        exact .inr ⟨rfl, h.file hsame⟩
    refine ⟨h.old, h.new, fun {l} => ?_, fun {l bytes} hl => ?_, fun {l bytes'} hl hnone => ?_⟩
    · rcases hcases l with hsame | ⟨-, hfolder, bytes, hfile⟩
      · rw [hsame]
      · rw [hfile]
        exact iff_of_false (fun h => by cases h) hfolder
    · rcases hcases l with hsame | ⟨-, -, hfile⟩
      · exact ⟨bytes, hsame.trans hl⟩
      · exact hfile
    · rcases hcases l with hsame | ⟨rfl, -⟩
      · rw [hsame, hnone] at hl
        cases hl
      · exact getLast?_location root
  node hl := h.same fun heq => hl (heq ▸ getLast?_location root)

/-- The workspaces of the project are found as before. -/
theorem discover (h : Reconfigured root t t') :
    Workspaces.discover t' root (Manifest.read t' root) =
      Workspaces.discover t root (Manifest.read t root) := by
  have hsame := h.sameBut
  have hmanifest : Manifest.read t' root = Manifest.read t root :=
    Manifest.read_same hsame (by decide) root
  have hpatterns : Workspaces.patterns t' root (Manifest.read t root) =
      Workspaces.patterns t root (Manifest.read t root) :=
    Workspaces.patterns_same hsame (by decide) _
  have hadd : ∀ {found}, Workspaces.patterns t root (Manifest.read t root) = .ok found →
      Workspaces.addPatterns t' root [] found = Workspaces.addPatterns t root [] found := by
    intro found hfound
    refine Workspaces.addPatterns_congr (fun directory path =>
      Workspaces.describe_same hsame (by decide) directory path) (fun pattern hpattern s hs => ?_) []
    refine Workspaces.matching_same hsame fun hwildcard => Workspaces.directoriesIn_same hsame
      (by decide) (by decide) (by decide) fun l haccess hold hnew => ?_
    -- the only new file is that of the settings
    have hl : l ++ [Settings.fileName] = Settings.location root := by
      by_contra hne
      exact hnew ((h.same hne).trans hold)
    rw [hl] at hold hnew
    exact h.room hold hnew found hfound pattern hpattern s hs hwildcard
  unfold Workspaces.discover
  rw [hmanifest, hpatterns]
  cases hfound : Workspaces.patterns t root (Manifest.read t root) with
  | error fault => dsimp only [Except.mapError, bind, Except.bind]
  | ok found =>
    dsimp only [Except.mapError, bind, Except.bind]
    rw [hadd hfound]

end Reconfigured

namespace Project

/-- The project is described as before. -/
theorem describe_reconfigured (h : Reconfigured root t t') : describe t' root = describe t root := by
  have hnames : ∀ name ∈ lookedAt, name ≠ "." ∧ name ≠ ".." ∧ name ≠ Settings.fileName := by decide
  have hmanifest : Manifest.read t' root = Manifest.read t root :=
    Manifest.read_same h.sameBut (by decide) root
  refine describe_congr (Manifest.load_same h.sameBut (by decide) root) (fun name hname => ?_)
    fun _ => ?_
  · obtain ⟨h1, h2, h3⟩ := hnames name hname
    exact Tree.exists?_grown h.sameBut.grown root h1 h2 h3
  · rw [← hmanifest, h.discover, hmanifest]

end Project

/-! ## What the rules are shown -/

theorem ScanRoot.ofWorkspace_same (h : Tree.SameBut Settings.fileName t t') (project : Project)
    (w : Workspace) : ofWorkspace t' project w = ofWorkspace t project w := by
  have hmanifest := Manifest.load_same h (by decide) (Path.steps w.absolutePath)
  unfold ofWorkspace
  dsimp only
  rw [hmanifest, Tree.exists?_grown h.grown _ (by decide) (by decide) (by decide)]

namespace Context

variable {c : Context}

/-- A walk is shown the same. -/
theorem walked_same (h : Tree.SameBut fresh t t') (hskip : isSkippedName fresh = true) :
    Walked (fun _ => True) fresh t t' where
  skipped := hskip
  names {steps} _ := by
    by_cases hfolder : ∃ l, t.access steps = .ok (l, .folder)
    · obtain ⟨l, haccess⟩ := hfolder
      unfold namesIn
      rw [haccess, (Tree.access_folder_grown h.grown).mpr haccess]
      refine Tree.filter_children_eq fun name hname => ?_
      rw [h.node_entry (by simpa using hname)]
    · have hnone : ∀ {t : Tree}, (¬ ∃ l, t.access steps = .ok (l, .folder)) → namesIn t steps = [] := by
        intro t hfolder
        unfold namesIn
        split
        · rename_i l haccess
          exact absurd ⟨l, haccess⟩ hfolder
        · rfl
      rw [hnone hfolder, hnone]
      rintro ⟨l, haccess⟩
      exact hfolder ⟨l, (Tree.access_folder_grown h.grown).mp haccess⟩
  kind {steps name} _ hname hne := by
    have hn := isName_of_mem_namesIn h.grown.old.named hname
    obtain ⟨l, haccess, -⟩ := access_of_mem_namesIn hname
    unfold entryKind
    rw [Tree.access_entry_same h haccess hn.ne_here hn.ne_up hne, isListedFile_grown h.grown hname]
  below _ _ := trivial

/-- The rules are shown the same by trees that differ in settings only. -/
theorem showsSame_same (h : Tree.SameBut Settings.fileName t t')
    (hpaths : ∀ w ∈ c.project.workspaceList, Path.isAbsolute w.path = false) : c.ShowsSame t t' := by
  have hold := h.grown.old
  have hplace : ∀ {path l}, c.LooksAt t path → c.place path = .ok l → ∃ above name,
      l = above ++ [name] ∧ name ≠ "." ∧ name ≠ ".." ∧ name ≠ Settings.fileName := by
    intro path l hlooks hl
    obtain ⟨above, name, hends, hname, -⟩ := ends_of_looksAt hold.named hpaths hlooks
    have hlast := getLast?_place hends.relative hl hends.steps hends.not_up
    obtain ⟨h1, h2⟩ := plain_place hl name (List.mem_of_getLast? hlast)
    exact ⟨l.dropLast, name, (List.dropLast_append_getLast? name hlast).symm, h1, h2, hname⟩
  refine showsSame_of_places hold h.grown.new (fun {path l} hlooks hl => ?_) fun p hp => ?_
  · obtain ⟨above, name, rfl, h1, h2, hname⟩ := hplace hlooks hl
    exact ⟨Tree.exists?_grown h.grown above h1 h2 hname, Tree.content_same h above h1 h2 hname⟩
  · exact walk_eq (walked_same h (by decide)) (not_accepts_settings hp) _ trivial ""

end Context

end Checkup
