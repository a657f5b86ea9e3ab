import Checkup.Proofs.Rule.Orphans
import Checkup.Proofs.Rule.Places
import Checkup.Proofs.Scan.Exact
import Checkup.Proofs.Tree.NormalForm

/-!
# What a relative import may mean

A relative import names a place: the folder of the importing file and the specifier, without `.` and
`..`. Its candidates are the place itself, the place with an extension and the index files in it, and
the same for the place without its extension, spelled as a walk spells the files that it finds. There is
one exception: the root is spelled `.`, so its index files are sought under `./index.ts`, where no walk
finds them.

* `NamesPlace`: the place that an import names.
* `Completes`, `MayMean`: the files that it may mean.
* `mem_candidates_iff`: the candidates of an import.
* `index_not_candidate`: the index files of the root are none.
-/

namespace Checkup

/-! ## The folder of a normal path -/

namespace Path

variable {path : String}

/-- A relative path in normal form is written with its steps, or is the folder itself. -/
theorem eq_joinWith_of_normal (hrelative : isAbsolute path = false) (hnormal : normal path = path) :
    path = "." ∨ (steps path ≠ [] ∧ path = Text.joinWith "/" (steps path)) := by
  have hsteps : ∀ n ∈ normalSteps false (steps path), IsStep n :=
    fun n hn => isStep_of_mem_steps (mem_normalSteps hn)
  have hspelled : path = if Text.joinWith "/" (normalSteps false (steps path)) = "" then "."
      else Text.joinWith "/" (normalSteps false (steps path)) := by
    unfold normal at hnormal
    dsimp only at hnormal
    rw [leadingSlashes_relative hrelative, hrelative, String.empty_append] at hnormal
    exact hnormal.symm
  have hsame := steps_normal hrelative
  rw [hnormal] at hsame
  rw [← hsame] at hspelled hsteps
  by_cases hempty : Text.joinWith "/" (steps path) = ""
  · rw [if_pos hempty] at hspelled
    exact .inl hspelled
  · rw [if_neg hempty] at hspelled
    refine .inr ⟨?_, hspelled⟩
    intro hnil
    rw [hnil] at hempty
    exact hempty rfl

/-- The folder of a relative path in normal form has its steps but for the last. -/
theorem steps_dirName_normal (hrelative : isAbsolute path = false) (hnormal : normal path = path) :
    isAbsolute (dirName path) = false ∧ steps (dirName path) = (steps path).dropLast := by
  rcases eq_joinWith_of_normal hrelative hnormal with rfl | ⟨hne, hpath⟩
  · decide
  · have hstep : ∀ n ∈ steps path, IsStep n := fun n => isStep_of_mem_steps
    generalize steps path = names at *
    obtain ⟨above, name, rfl⟩ := List.eq_nil_or_concat names |>.resolve_left hne
    rw [List.concat_eq_append] at *
    have hname : '/' ∉ name.toList := (hstep name (by simp)).no_slash
    have habove : ∀ n ∈ above, IsStep n := fun n hn => hstep n (by simp [hn])
    have hfolder : isAbsolute (Text.joinWith "/" above) = false := isAbsolute_joinWith habove
    have hentry : path = Context.entryPath (Text.joinWith "/" above) name := by
      unfold Context.entryPath
      by_cases hnil : above = []
      · subst hnil
        exact hpath.trans (if_pos rfl).symm
      · rw [if_neg (joinWith_ne_empty hnil habove), hpath, joinWith_concat hnil]
    rw [hentry, List.dropLast_concat]
    exact ⟨isAbsolute_dirName_entryPath hname hfolder,
      (steps_dirName_entryPath hname hfolder).trans (steps_joinWith habove)⟩

end Path

namespace Imports

variable {importer specifier file : String} {place names : List String}

/-! ## The place that an import names -/

/-- The place that an import names, as steps from the root: they lead up and then down, and from
everywhere to where the folder of the importing file and the specifier lead. -/
structure NamesPlace (importer specifier : String) (place : List String) : Prop where
  normal : Path.Normal place
  leads : ∀ here, Tree.lexical here place =
    Tree.lexical here ((Path.steps importer).dropLast ++ Path.steps specifier)

theorem NamesPlace.unique {place' : List String} (h : NamesPlace importer specifier place)
    (h' : NamesPlace importer specifier place') : place = place' :=
  h.normal.unique h'.normal fun here => (h.leads here).trans (h'.leads here).symm

/-- The steps by which a place is spelled: the root is written as a step of its own. -/
def spelled (place : List String) : List String := if place = [] then ["."] else place

theorem not_absolute_of_relative (h : isRelative specifier = true) :
    Path.isAbsolute specifier = false := by
  rw [Bool.eq_false_iff]
  intro habsolute
  have hdot : ['.'] <+: specifier.toList := List.isPrefixOf_iff_prefix.mp h
  have hslash : ['/'] <+: specifier.toList := List.isPrefixOf_iff_prefix.mp habsolute
  have hsame := List.prefix_of_prefix_length_le hdot hslash (Nat.le_refl _)
  simp at hsame

/-- The path that an import names is that of a place. -/
theorem named_eq (hrelative : Path.isAbsolute importer = false)
    (hnormal : Path.normal importer = importer) (hspecifier : isRelative specifier = true) :
    ∃ place, NamesPlace importer specifier place ∧
      named importer specifier = Text.joinWith "/" (spelled place) := by
  obtain ⟨hfolder, hsteps⟩ := Path.steps_dirName_normal hrelative hnormal
  have hspec := not_absolute_of_relative hspecifier
  have hjoin : Path.isAbsolute (Path.join (Path.dirName importer) specifier) = false :=
    Path.isAbsolute_join_relative hfolder hspec
  have hall : Path.steps (Path.join (Path.dirName importer) specifier) =
      (Path.steps importer).dropLast ++ Path.steps specifier := by
    rw [Path.steps_join hspec, hsteps]
  refine ⟨Path.steps (named importer specifier), ⟨?_, fun here => ?_⟩, ?_⟩
  · rw [named, Path.steps_normal hjoin]
    exact Path.normal_normalSteps fun n => Path.isStep_of_mem_steps
  · rw [named, Path.lexical_steps_normal hjoin, hall]
  · have hstep : ∀ n ∈ Path.normalSteps false (Path.steps (Path.join (Path.dirName importer) specifier)),
        Path.IsStep n := fun n hn => Path.isStep_of_mem_steps (Path.mem_normalSteps hn)
    rw [named, Path.steps_normal hjoin]
    unfold Path.normal spelled
    dsimp only
    rw [Path.leadingSlashes_relative hjoin, hjoin, String.empty_append]
    split
    · rename_i hempty
      rw [if_pos, Text.joinWith]
      by_contra hne
      exact Path.joinWith_ne_empty hne hstep hempty
    · rename_i hne
      rw [if_neg]
      intro hnil
      rw [hnil] at hne
      exact hne rfl

/-! ## The files that it may mean -/

/-- The files that complete a place, by their names: the place itself, with an extension at its last
name, and the index files in it. -/
inductive Completes : List String → List String → Prop
  | itself (place : List String) : Completes place place
  | source {above : List String} {name extension : String} (h : extension ∈ extensions) :
    Completes (above ++ [name]) (above ++ [name ++ extension])
  | index {place : List String} {extension : String} (h : extension ∈ extensions) :
    Completes place (place ++ ["index" ++ extension])

/-- The files that a place may mean: those that complete it, or complete it without the extension of
its last name. -/
inductive MayMean : List String → List String → Prop
  | asWritten {place names : List String} (h : Completes place names) : MayMean place names
  | stripped {above names : List String} {name extension : String} (h : extension ∈ extensions)
    (hnames : Completes (above ++ [name]) names) : MayMean (above ++ [name ++ extension]) names

theorem no_slash_extension : ∀ e ∈ extensions, '/' ∉ e.toList := by decide

theorem mem_suffixes_iff {suffix : String} : suffix ∈ suffixes ↔
    suffix = "" ∨ suffix ∈ extensions ∨ ∃ e ∈ extensions, suffix = "/index" ++ e := by
  simp [suffixes, eq_comm]

/-- What can stand behind a place makes the files that complete it. -/
theorem completes_iff (hne : place ≠ []) (hplace : ∀ n ∈ place, '/' ∉ n.toList) :
    (∃ suffix ∈ suffixes, Text.joinWith "/" place ++ suffix = file) ↔
      Completes place (Text.pieces '/' file) := by
  obtain ⟨above, name, hconcat⟩ := (List.eq_nil_or_concat place).resolve_left hne
  rw [List.concat_eq_append] at hconcat
  have hsource : ∀ e ∈ extensions, (∀ n ∈ above ++ [name ++ e], '/' ∉ n.toList) := by
    intro e he n hn
    rw [hconcat] at hplace
    rcases List.mem_append.mp hn with hn | hn
    · exact hplace n (List.mem_append_left _ hn)
    · rw [List.mem_singleton.mp hn, String.toList_append, List.mem_append, not_or]
      exact ⟨hplace name (by simp), no_slash_extension e he⟩
  have hindexed : ∀ e, Text.joinWith "/" place ++ ("/index" ++ e) =
      Text.joinWith "/" (place ++ ["index" ++ e]) := by
    intro e
    rw [Path.joinWith_concat hne]
    have hslash : "/index" = "/" ++ "index" := by decide
    simp only [hslash, String.append_assoc]
  have hindex : ∀ e ∈ extensions, (∀ n ∈ place ++ ["index" ++ e], '/' ∉ n.toList) := by
    intro e he n hn
    rcases List.mem_append.mp hn with hn | hn
    · exact hplace n hn
    · rw [List.mem_singleton.mp hn, String.toList_append, List.mem_append, not_or]
      exact ⟨by decide, no_slash_extension e he⟩
  constructor
  · rintro ⟨suffix, hsuffix, rfl⟩
    rcases mem_suffixes_iff.mp hsuffix with rfl | he | ⟨e, he, rfl⟩
    · rw [String.append_empty, Path.pieces_joinWith hne hplace]
      exact .itself place
    · rw [hconcat, Path.joinWith_append, Path.pieces_joinWith (by simp) (hsource suffix he)]
      exact .source he
    · rw [hindexed, Path.pieces_joinWith (by simp) (hindex e he)]
      exact .index he
  · intro h
    generalize hpieces : Text.pieces '/' file = names at h
    have hfile := Path.joinWith_pieces file
    rw [hpieces] at hfile
    cases h with
    | itself => exact ⟨"", mem_suffixes_iff.mpr (.inl rfl), by rw [String.append_empty, hfile]⟩
    | @source above' name' e he =>
      exact ⟨e, mem_suffixes_iff.mpr (.inr (.inl he)), by rw [Path.joinWith_append, hfile]⟩
    | @index _ e he =>
      exact ⟨"/index" ++ e, mem_suffixes_iff.mpr (.inr (.inr ⟨e, he, rfl⟩)), by rw [hindexed, hfile]⟩

theorem endsWith_iff (path ending : String) :
    Text.endsWith path.toList ending.toList = true ↔ ending.toList <:+ path.toList := by
  rw [Text.endsWith, List.isPrefixOf_iff_prefix, List.reverse_prefix]

theorem mem_of_ends {path e : String} (h : e.toList <:+ path.toList) : ∃ base, path = base ++ e := by
  obtain ⟨front, hfront⟩ := h
  exact ⟨String.ofList front, by rw [← String.toList_inj]; simp [hfront]⟩

/-- Either a path has none of the extensions, or it is a base with one of them, which is cut off. -/
theorem withoutExtension_cases (path : String) :
    (withoutExtension path = path ∧ ∀ e ∈ extensions, ∀ base, path ≠ base ++ e) ∨
      ∃ base, ∃ e ∈ extensions, path = base ++ e ∧ withoutExtension path = base := by
  by_cases h : ∃ e ∈ extensions, e.toList <:+ path.toList
  · obtain ⟨e, he, hends⟩ := h
    obtain ⟨base, rfl⟩ := mem_of_ends hends
    exact .inr ⟨base, e, he, rfl, withoutExtension_append base he⟩
  · refine .inl ⟨?_, fun e he base hbase => h ⟨e, he, by simp [hbase]⟩⟩
    unfold withoutExtension
    rw [List.find?_eq_none.mpr fun e he hends => h ⟨e, he, (endsWith_iff path e).mp hends⟩]

/-- An extension is one of the last name. -/
theorem withoutExtension_joinWith (above : List String) (name : String) :
    withoutExtension (Text.joinWith "/" (above ++ [name])) =
      Text.joinWith "/" (above ++ [withoutExtension name]) := by
  rcases withoutExtension_cases name with ⟨hname, hnone⟩ | ⟨base, e, he, rfl, hname⟩
  · rw [hname]
    rcases withoutExtension_cases (Text.joinWith "/" (above ++ [name])) with
      ⟨hpath, -⟩ | ⟨base, e, he, hpath, -⟩
    · exact hpath
    · exfalso
      by_cases hnil : above = []
      · subst hnil
        exact hnone e he base hpath
      · -- the extension has no slash, so it does not reach beyond the last name
        rw [Path.joinWith_concat hnil] at hpath
        have hends : e.toList <:+ (Text.joinWith "/" above ++ "/" ++ name).toList := by simp [hpath]
        have hlast : '/' :: name.toList <:+ (Text.joinWith "/" above ++ "/" ++ name).toList :=
          ⟨(Text.joinWith "/" above).toList, by simp⟩
        rcases List.suffix_or_suffix_of_suffix hends hlast with hin | hout
        · rcases List.suffix_cons_iff.mp hin with heq | hin
          · exact no_slash_extension e he (by simp [heq])
          · obtain ⟨base', hbase'⟩ := mem_of_ends hin
            exact hnone e he base' hbase'
        · exact no_slash_extension e he (hout.subset (List.mem_cons_self ..))
  · rw [hname, ← Path.joinWith_append, withoutExtension_append _ he]

theorem no_slash_withoutExtension {name : String} (h : '/' ∉ name.toList) :
    '/' ∉ (withoutExtension name).toList := by
  rcases withoutExtension_cases name with ⟨hname, -⟩ | ⟨base, e, -, rfl, hname⟩
  · rwa [hname]
  · rw [hname]
    rw [String.toList_append, List.mem_append, not_or] at h
    exact h.1

theorem mayMean_iff {above : List String} {name : String} : MayMean (above ++ [name]) names ↔
    Completes (above ++ [name]) names ∨ Completes (above ++ [withoutExtension name]) names := by
  constructor
  · intro h
    generalize hplace : above ++ [name] = place at h
    cases h with
    | asWritten h => exact .inl h
    | @stripped above' _ stem e he h =>
      obtain ⟨rfl, hlast⟩ := List.append_inj' hplace rfl
      obtain rfl : name = stem ++ e := by simpa using hlast
      rw [withoutExtension_append stem he]
      exact .inr h
  · rintro (h | h)
    · exact .asWritten h
    · rcases withoutExtension_cases name with ⟨hname, -⟩ | ⟨base, e, he, rfl, hname⟩
      · rw [hname] at h
        exact .asWritten h
      · rw [hname] at h
        exact .stripped he h

/-- The candidates of an import are the files that its place may mean, as the place is spelled. -/
theorem mem_candidates_spelled (hne : place ≠ []) (hplace : ∀ n ∈ place, '/' ∉ n.toList)
    (hnamed : named importer specifier = Text.joinWith "/" place) :
    file ∈ candidates importer specifier ↔ MayMean place (Text.pieces '/' file) := by
  obtain ⟨above, name, hconcat⟩ := (List.eq_nil_or_concat place).resolve_left hne
  rw [List.concat_eq_append] at hconcat
  subst hconcat
  have hstripped : ∀ n ∈ above ++ [withoutExtension name], '/' ∉ n.toList := by
    intro n hn
    rcases List.mem_append.mp hn with hn | hn
    · exact hplace n (List.mem_append_left _ hn)
    · rw [List.mem_singleton.mp hn]
      exact no_slash_withoutExtension (hplace name (by simp))
  rw [mayMean_iff, ← completes_iff hne hplace, ← completes_iff (by simp) hstripped,
    ← withoutExtension_joinWith, ← hnamed]
  simp [candidates]

/-! ## The candidates of an import -/

/-- The paths that a walk finds are written with their steps. -/
theorem pieces_of_found {c : Context} {t : Tree} {accepts : String → Bool} {depth : Int}
    (ht : t.Named) {path : String} (h : path ∈ c.findFilesTo t accepts depth) :
    Text.pieces '/' path = Path.steps path := by
  obtain ⟨folders, name, rfl, hfinds⟩ := (Context.mem_findFilesTo_iff ht).mp h
  have hstep : ∀ n ∈ folders ++ [name], Path.IsStep n := fun n hn => .of_name (hfinds.isName ht n hn)
  rw [Path.steps_relative hstep, Path.relative_eq (by simp)]
  exact Path.pieces_joinWith (by simp) fun n hn => (hstep n hn).no_slash

/-- An import names one place. If this is not the root, the candidates are just the files that it may
mean, spelled as a walk spells the files that it finds. The candidates of an import that names the root
are those of a folder with the name `.` instead. -/
theorem mem_candidates_iff {importer specifier : String} (hrelative : Path.isAbsolute importer = false)
    (hnormal : Path.normal importer = importer) (hspecifier : isRelative specifier = true) :
    (∃ place, (∀ p, NamesPlace importer specifier p ↔ p = place) ∧
      (place ≠ [] → ∀ file, file ∈ candidates importer specifier ↔
        MayMean place (Text.pieces '/' file)) ∧
      (place = [] → ∀ file, file ∈ candidates importer specifier ↔
        MayMean ["."] (Text.pieces '/' file))) ∧
    ∀ (c : Context) (t : Tree) (accepts : String → Bool) (depth : Int), t.Named →
      ∀ path ∈ c.findFilesTo t accepts depth, Text.pieces '/' path = Path.steps path := by
  refine ⟨?_, fun c t accepts depth ht path => pieces_of_found ht⟩
  obtain ⟨place, hplace, hnamed⟩ := named_eq hrelative hnormal hspecifier
  have hstep : ∀ n ∈ place, '/' ∉ n.toList := fun n hn => (hplace.normal.isStep n hn).no_slash
  refine ⟨place, fun p => ⟨fun hp => hp.unique hplace, fun hp => hp ▸ hplace⟩, fun hne file => ?_,
    fun hroot file => ?_⟩
  · rw [spelled, if_neg hne] at hnamed
    exact mem_candidates_spelled hne hstep hnamed
  · rw [spelled, if_pos hroot] at hnamed
    exact mem_candidates_spelled (by simp) (by decide) hnamed

/-- A file in a folder imports one from a folder beside it, with the extension that it gets later on. -/
theorem mem_candidates_beside : Path.isAbsolute "src/pages/home.ts" = false ∧
    Path.normal "src/pages/home.ts" = "src/pages/home.ts" ∧ isRelative "../lib/api.js" = true ∧
    NamesPlace "src/pages/home.ts" "../lib/api.js" ["src", "lib", "api.js"] ∧
    "src/lib/api.ts" ∈ candidates "src/pages/home.ts" "../lib/api.js" ∧
    "src/lib/api/index.tsx" ∈ candidates "src/pages/home.ts" "../lib/api.js" := by
  have hrelative : Path.isAbsolute "src/pages/home.ts" = false := by decide
  have hnormal : Path.normal "src/pages/home.ts" = "src/pages/home.ts" := by decide
  have hspecifier : isRelative "../lib/api.js" = true := by decide
  have himporter : Path.steps "src/pages/home.ts" = ["src", "pages", "home.ts"] := by decide
  have hsteps : Path.steps "../lib/api.js" = ["..", "lib", "api.js"] := by decide
  have hplace : NamesPlace "src/pages/home.ts" "../lib/api.js" ["src", "lib", "api.js"] := by
    refine ⟨⟨[], _, rfl, by simp, ?_⟩, fun here => ?_⟩
    · simp only [List.forall_mem_cons]
      exact ⟨by decide, by decide, by decide, nofun⟩
    · simp [himporter, hsteps, Tree.lexical]
  obtain ⟨⟨place, hunique, hcandidates, -⟩, -⟩ := mem_candidates_iff hrelative hnormal hspecifier
  obtain rfl := (hunique _).mp hplace
  have hbare : ∀ {names}, Completes (["src", "lib"] ++ ["api"]) names →
      MayMean (["src", "lib"] ++ ["api" ++ ".js"]) names := fun h => .stripped (by decide) h
  have hsource : Completes (["src", "lib"] ++ ["api"]) (["src", "lib"] ++ ["api" ++ ".ts"]) :=
    .source (by decide)
  have hindex : Completes (["src", "lib"] ++ ["api"]) (["src", "lib", "api"] ++ ["index" ++ ".tsx"]) :=
    .index (by decide)
  exact ⟨hrelative, hnormal, hspecifier, hplace, (hcandidates (by simp) _).mpr (hbare hsource),
    (hcandidates (by simp) _).mpr (hbare hindex)⟩

/-- A file beside the index file of the root imports the folder that they are in, which may mean the
index file; but that is no candidate. -/
theorem index_not_candidate : Path.isAbsolute "a.ts" = false ∧ Path.normal "a.ts" = "a.ts" ∧
    isRelative "." = true ∧ NamesPlace "a.ts" "." [] ∧ MayMean [] (Text.pieces '/' "index.ts") ∧
    "index.ts" ∉ candidates "a.ts" "." := by
  have himporter : Path.steps "a.ts" = ["a.ts"] := by decide
  have hsteps : Path.steps "." = [] := by decide
  have hindex : Completes [] ([] ++ ["index" ++ ".ts"]) := .index (by decide)
  refine ⟨by decide, by decide, by decide, ⟨⟨[], [], rfl, by simp, by simp⟩, fun here => ?_⟩, ?_, ?_⟩
  · simp [himporter, hsteps]
  · exact .asWritten hindex
  · decide +kernel

end Imports

end Checkup
