import Checkup.Proofs.Rule.Looking
import Checkup.Proofs.Scan.Alike
import Checkup.Settings
import Mathlib.Data.List.TakeWhile

/-!
# Where the files are that rules look at

A path that a rule looks at ends in the name of a file, and this is never the settings file. Outside
of workspaces, no folder on its way is one that a walk skips.

* `Path.Ends`: a relative path with its last name.
* `Context.ends_of_looksAt`: the paths that rules look at.
* `Context.showsSame_of_places`: two trees that have the same at their places.
-/

namespace Checkup

namespace Path

/-- A relative path with the names on its way and its last name. -/
structure Ends (path : String) (above : List String) (name : String) : Prop where
  relative : isAbsolute path = false
  steps : steps path = above ++ [name]
  not_up : name ≠ ".."

/-! ## The folder of a file -/

theorem steps_dropTrailing (text : List Char) :
    steps (String.ofList (Text.dropTrailing (· == '/') text)) = steps (String.ofList text) := by
  induction text using List.reverseRecOn with
  | nil => rfl
  | append_singleton text c ih =>
    unfold Text.dropTrailing at ih ⊢
    rw [List.reverse_append, List.reverse_singleton, List.singleton_append, List.dropWhile_cons]
    split
    · rename_i hc
      obtain rfl := beq_iff_eq.mp hc
      have hslash := steps_append_slash (String.ofList text) ""
      rw [String.append_empty, steps_empty, List.append_nil] at hslash
      rw [ih, String.ofList_append, ← hslash]
    · rw [List.reverse_cons, List.reverse_reverse]

/-- A relative path that is not empty begins with another character than a slash. -/
theorem exists_first_of_relative {path : String} (h : isAbsolute path = false) (hne : path ≠ "") :
    ∃ c rest, path.toList = c :: rest ∧ c ≠ '/' := by
  cases hp : path.toList with
  | nil => exact absurd (String.toList_eq_nil_iff.mp hp) hne
  | cons c rest =>
    refine ⟨c, rest, rfl, ?_⟩
    rintro rfl
    unfold isAbsolute Text.startsWith at h
    rw [hp] at h
    cases h

theorem dropWhile_no_slash {name : String} (h : '/' ∉ name.toList) :
    name.toList.reverse.dropWhile (· != '/') = [] := by
  rw [List.dropWhile_eq_nil_iff]
  intro c hc
  rw [bne_iff_ne]
  rintro rfl
  exact h (List.mem_reverse.mp hc)

theorem dirName_of_no_slash {name : String} (h : '/' ∉ name.toList) : dirName name = "" := by
  unfold dirName
  rw [dropWhile_no_slash h]
  rfl

theorem dirName_append_slash {folder name : String} (hname : '/' ∉ name.toList)
    (hfolder : isAbsolute folder = false) (hne : folder ≠ "") :
    dirName (folder ++ "/" ++ name) =
      String.ofList (Text.dropTrailing (· == '/') (folder.toList ++ ['/'])) := by
  have hhead : ((folder ++ "/" ++ name).toList.reverse.dropWhile (· != '/')).reverse =
      folder.toList ++ ['/'] := by
    rw [String.toList_append, String.toList_append, List.reverse_append, List.dropWhile_append,
      dropWhile_no_slash hname]
    simp
  have hslashes : (folder.toList ++ ['/']).all (· == '/') = false := by
    obtain ⟨c, rest, hfirst, hc⟩ := exists_first_of_relative hfolder hne
    rw [hfirst]
    simp [hc]
  unfold dirName
  dsimp only
  rw [hhead, hslashes, if_neg Bool.false_ne_true]

variable {folder name : String}

/-- The folder of a file leads to where the file was found. -/
theorem steps_dirName_entryPath (hname : '/' ∉ name.toList) (hfolder : isAbsolute folder = false) :
    steps (dirName (Context.entryPath folder name)) = steps folder := by
  unfold Context.entryPath
  split
  · rename_i hempty
    rw [dirName_of_no_slash hname, hempty]
  · rename_i hne
    rw [dirName_append_slash hname hfolder hne, steps_dropTrailing, String.ofList_append,
      String.ofList_toList]
    have hslash := steps_append_slash folder ""
    rwa [String.append_empty, steps_empty, List.append_nil] at hslash

theorem isAbsolute_dirName_entryPath (hname : '/' ∉ name.toList) (hfolder : isAbsolute folder = false) :
    isAbsolute (dirName (Context.entryPath folder name)) = false := by
  unfold Context.entryPath
  split
  · rw [dirName_of_no_slash hname]
    rfl
  · rename_i hne
    rw [dirName_append_slash hname hfolder hne]
    obtain ⟨c, rest, hfirst, hc⟩ := exists_first_of_relative hfolder hne
    generalize hlist : Text.dropTrailing (· == '/') (folder.toList ++ ['/']) = text
    have hprefix : text <+: folder.toList ++ ['/'] := by
      rw [← hlist, ← List.reverse_suffix, Text.dropTrailing, List.reverse_reverse]
      exact List.dropWhile_suffix _
    rw [Bool.eq_false_iff]
    intro habs
    have hslash : ['/'] <+: (String.ofList text).toList := List.isPrefixOf_iff_prefix.mp habs
    rw [String.toList_ofList] at hslash
    have hfolder := hslash.trans hprefix
    rw [hfirst, List.cons_append, List.cons_prefix_cons] at hfolder
    exact hc hfolder.1.symm

theorem isAbsolute_join_relative {first second : String} (hfirst : isAbsolute first = false)
    (hsecond : isAbsolute second = false) : isAbsolute (join first second) = false := by
  rcases eq_or_ne first "" with rfl | hne
  · unfold join
    rw [hsecond]
    simpa using hsecond
  · rw [isAbsolute_join hne hsecond, hfirst]

end Path

namespace Context

variable {c : Context} {t : Tree} {accepts : String → Bool}

/-- No pattern of the rules finds the settings file. -/
theorem not_accepts_settings {p : Pattern} (hp : p ∈ Registry.walked) (folder : String) :
    p.accepts (entryPath folder Settings.fileName) = false := by
  simp only [Registry.walked, List.mem_cons, List.not_mem_nil, or_false] at hp
  rcases hp with rfl | rfl | rfl | rfl | rfl | rfl | rfl
  · exact not_accepts_entryPath (.named ["page"]) (by decide) (by decide) folder
  · exact not_accepts_entryPath (.named ["page"]) (by decide) (by decide) folder
  · exact not_accepts_entryPath .any (by decide) (by decide) folder
  · exact not_accepts_entryPath (.named ["page", "layout"]) (by decide) (by decide) folder
  · exact not_accepts_entryPath (.named ["route"]) (by decide) (by decide) folder
  · exact not_accepts_entryPath .any (by decide) (by decide) folder
  · exact not_accepts_entryPath .any (by decide) (by decide) folder

/-- A path that a rule looks at ends in the name of a file other than the settings file, and a folder
that a walk skips is not on its way, unless it is one of a workspace. -/
theorem ends_of_looksAt (ht : t.Named) (hpaths : ∀ w ∈ c.project.workspaceList,
    Path.isAbsolute w.path = false) {path : String} (h : c.LooksAt t path) :
    ∃ above name, Path.Ends path above name ∧ name ≠ Settings.fileName ∧
      (c.project.workspaceList = [] → ∀ n ∈ above, isSkippedName n = false) := by
  cases h with
  | named h =>
    have hnamed : ∀ path ∈ Registry.named, Path.isAbsolute path = false ∧
        (∀ n ∈ (Path.steps path).dropLast, isSkippedName n = false) ∧
        (Path.steps path).getLast? ≠ none ∧ (Path.steps path).getLast? ≠ some ".." ∧
        (Path.steps path).getLast? ≠ some Settings.fileName := by decide +kernel
    obtain ⟨hrelative, hopen, hsome, hup, hne⟩ := hnamed path h
    obtain ⟨name, hlast⟩ := Option.ne_none_iff_exists'.mp hsome
    rw [hlast] at hup hne
    refine ⟨(Path.steps path).dropLast, name, ⟨hrelative, ?_, fun heq => hup (heq ▸ rfl)⟩,
      fun heq => hne (heq ▸ rfl), fun _ => hopen⟩
    exact (List.dropLast_append_getLast? name hlast).symm
  | found hp h =>
    obtain ⟨haccepts, folder, name, rfl, hfolder, hname, hopen⟩ := exists_of_mem_findFiles ht h
    refine ⟨Path.steps folder, name, ⟨isAbsolute_entryPath hfolder hname, steps_entryPath _ hname,
      hname.ne_up⟩, ?_, fun _ => hopen⟩
    rintro rfl
    rw [not_accepts_settings hp folder] at haccepts
    cases haccepts
  | @loading path loading h hn =>
    obtain ⟨-, folder, name, rfl, hfolder, hname, hopen⟩ := exists_of_mem_findFiles ht h
    have hloading : ∀ name ∈ Application.LoadingState.loadingFiles, Path.isAbsolute name = false ∧
        Path.steps name = [name] ∧ name ≠ ".." ∧ name ≠ Settings.fileName := by decide
    obtain ⟨hrelative, hsteps, hup, hne⟩ := hloading loading hn
    refine ⟨Path.steps folder, loading, ⟨?_, ?_, hup⟩, hne, fun _ => hopen⟩
    · exact Path.isAbsolute_join_relative (Path.isAbsolute_dirName_entryPath hname.no_slash hfolder) hrelative
    · rw [Path.steps_join hrelative, Path.steps_dirName_entryPath hname.no_slash hfolder, hsteps]
  | @workspace w name hw hn =>
    have hnames : ∀ name ∈ Registry.namedInWorkspaces, Path.isAbsolute name = false ∧
        Path.steps name = [name] ∧ name ≠ ".." ∧ name ≠ Settings.fileName := by decide
    obtain ⟨hrelative, hsteps, hup, hne⟩ := hnames name hn
    refine ⟨Path.steps w.path, name, ⟨?_, ?_, hup⟩, hne, fun hnone => ?_⟩
    · exact Path.isAbsolute_join_relative (hpaths w hw) hrelative
    · rw [Monorepo.fileIn, Path.steps_join hrelative, hsteps]
    · rw [hnone] at hw
      cases hw

/-- Two trees show the rules the same if they have the same at the places of the paths, and walks find
the same. -/
theorem showsSame_of_places {t' : Tree} (ht : t.Ordinary) (ht' : t'.Ordinary)
    (hplaces : ∀ {path l}, c.LooksAt t path → c.place path = .ok l →
      t'.exists? l = t.exists? l ∧ t'.content l = t.content l)
    (hfind : ∀ p ∈ Registry.walked, c.findFiles t' p = c.findFiles t p) : c.ShowsSame t t' where
  fileExists {path} hlooks := by
    unfold fileExists
    rw [locate_eq ht, locate_eq ht']
    cases hl : c.place path with
    | error fault => rfl
    | ok l =>
      dsimp only
      rw [(hplaces hlooks hl).1]
  readText? {path} hlooks := by
    rw [readText?_eq ht, readText?_eq ht']
    cases hl : c.place path with
    | error fault => rfl
    | ok l => exact (hplaces hlooks hl).2
  findFiles {p} hp := hfind p hp

end Context

end Checkup
