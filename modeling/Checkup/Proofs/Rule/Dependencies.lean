import Checkup.Imports
import Checkup.Proofs.Pattern.Specifier
import Checkup.Proofs.Pattern.Stepping
import Checkup.Proofs.Scan.Files
import Checkup.Proofs.Scan.Reading
import Checkup.Rule.Hygiene

/-!
# Dependencies that are imported

A dependency counts as used if one of six texts occurs in the sources: its package between quotation
marks of either kind, or the beginning of an import from it. The pattern for imports takes more than
that. A path below a package shows the package only behind `from` and one blank, or behind `require` and
its parenthesis at once; all other imports show it only if they name nothing but the package.

* `Imports.Import`: what the pattern for imports takes.
* `isUsedIn_of_shows`: the imports that show a package.
* `isUsedIn_text_iff`: no other import shows it by itself.
* `check_spares_shown`: what is said of dependencies that are imported.
-/

namespace Checkup

namespace Imports

open Pattern (ImportWord isQuote isSpecifier)

/-- An import as the pattern takes it: a word, and a specifier between two quotation marks. -/
structure Import where
  word : List Char
  mark : Char
  specifier : List Char
  closing : Char
  isWord : ImportWord word
  isMark : isQuote mark = true
  isClosing : isQuote closing = true
  isSpecifier : ∀ c ∈ specifier, isSpecifier c = true

/-- The text of an import. -/
def Import.text (i : Import) : List Char := i.word ++ i.mark :: (i.specifier ++ [i.closing])

variable {i : Import}

theorem Import.unquoted (i : Import) : ∀ c ∈ i.specifier, isQuote c = false :=
  fun c hc => (Pattern.isSpecifier_iff.mp (i.isSpecifier c hc)).1

/-- The specifiers that are found are those of imports in the text. -/
theorem exists_import {text specifier : String} (h : specifier ∈ specifiersIn text) :
    ∃ i : Import, i.text <:+: text.toList ∧ i.specifier = specifier.toList := by
  obtain ⟨found, hfound, hkept⟩ := List.mem_filterMap.mp h
  rw [Pattern.all_eq_allAt] at hfound
  obtain ⟨place, hplace, hmatch⟩ := Pattern.exists_of_mem_allAt Pattern.takes_importSpecifier hfound
  obtain ⟨word, mark, name, closing, hrest, hword, hmark, hclosing, hname, hkeeps⟩ :=
    Pattern.matches_importSpecifier hmatch
  rw [hkeeps, List.head?_cons, Option.map_some, Option.some_inj] at hkept
  refine ⟨⟨word, mark, name, closing, hword, hmark, hclosing, hname⟩, ?_, ?_⟩
  · refine List.IsInfix.trans (List.IsPrefix.isInfix ⟨found.after.rest, ?_⟩) hplace.isInfix
    rw [hrest]
    simp [Import.text]
  · rw [← hkept, String.toList_ofList]

/-- A quotation mark in the text of an import, but for its last character, is the one before the
specifier. -/
theorem Import.eq_of_mark {front rest : List Char} {c : Char} (hc : isQuote c = true) (hrest : rest ≠ [])
    (h : i.text = front ++ c :: rest) :
    i.word = front ∧ i.mark = c ∧ i.specifier ++ [i.closing] = rest := by
  rcases List.append_eq_append_iff.mp h with ⟨part, rfl, hpart⟩ | ⟨part, hword, hpart⟩
  · rcases List.cons_eq_append_iff.mp hpart with ⟨rfl, hcons⟩ | ⟨part, rfl, hspecifier⟩
    · obtain ⟨rfl, rfl⟩ := List.cons.inj hcons
      exact ⟨(List.append_nil _).symm, rfl, rfl⟩
    · -- the mark would be in the specifier, as something stands behind it
      obtain ⟨init, last, rfl⟩ := (List.eq_nil_or_concat' rest).resolve_left hrest
      rw [← List.cons_append, ← List.append_assoc] at hspecifier
      have hinit := List.append_inj_left' hspecifier rfl
      rw [i.unquoted c (by rw [hinit]; simp)] at hc
      cases hc
  · rcases List.cons_eq_append_iff.mp hpart with ⟨rfl, hcons⟩ | ⟨part, rfl, -⟩
    · obtain ⟨rfl, rfl⟩ := List.cons.inj hcons
      exact ⟨by rw [hword, List.append_nil], rfl, rfl⟩
    · rw [i.isWord.unquoted c (by rw [hword]; simp)] at hc
      cases hc

end Imports

namespace Hygiene.UnusedDependencies

open Imports (Import)
open Pattern (isQuote ImportWord)
open Text (isBlank)

variable {c : Context} {t : Tree} {i : Import} {dependency : String} {word text : List Char}

/-! ## Traces -/

/-- The package of a dependency that is a text. -/
def packageIn (dependency : String) : String :=
  if Text.startsWith dependency "@" then dependency
  else ((Text.pieces '/' dependency).head?).getD ""

theorem packageOf_text (dependency : String) :
    packageOf (.text dependency) = .text (packageIn dependency) := (apply_ite Label.text _ _ _).symm

/-- What stands before the quotation mark in the traces that show a package at once. -/
def openings : List (List Char) := ["from ".toList, "require(".toList]

theorem isUsedIn_iff {text dependency : String} : isUsedIn text (.text dependency) = true ↔
    ∃ mark, isQuote mark = true ∧
      (mark :: ((packageIn dependency).toList ++ [mark]) <:+: text.toList ∨
        ∃ opening ∈ openings, opening ++ mark :: (packageIn dependency).toList <:+: text.toList) := by
  have hquotes : ∀ p : Char → Prop, (∃ mark, isQuote mark = true ∧ p mark) ↔ p '"' ∨ p '\x27' := by
    simp [isQuote]
  rw [hquotes, isUsedIn, packageOf_text]
  simp only [traces, List.any_cons, List.any_nil, Bool.or_false, Bool.or_eq_true,
    Text.contains_iff]
  simp [openings]
  tauto

/-! ## Imports of a package -/

/-- The import names a dependency, or a path below it. -/
def Names (i : Import) (dependency : String) : Prop :=
  i.specifier = dependency.toList ∨ ∃ below, i.specifier = dependency.toList ++ '/' :: below

/-- The import shows the use of a package that it names: it names nothing else, between like marks, or
its word is one of those before the traces. -/
def Shows (i : Import) (package : String) : Prop :=
  (i.specifier = package.toList ∧ i.closing = i.mark) ∨ i.word ∈ openings

theorem prefix_packageIn (dependency : String) : (packageIn dependency).toList <+: dependency.toList := by
  unfold packageIn
  split
  · exact List.prefix_refl _
  · have hglue := Text.glue_splitOn '/' dependency.toList
    unfold Text.pieces
    cases hpieces : Text.splitOn '/' dependency.toList with
    | nil => exact List.nil_prefix
    | cons first rest =>
      rw [hpieces] at hglue
      simp only [List.map_cons, List.head?_cons, Option.getD_some, String.toList_ofList]
      cases rest with
      | nil => exact hglue ▸ List.prefix_refl _
      | cons second rest => exact hglue ▸ List.prefix_append _ _

theorem Names.prefix_package (h : Names i dependency) : (packageIn dependency).toList <+: i.specifier := by
  refine (prefix_packageIn dependency).trans ?_
  rcases h with h | ⟨below, h⟩
  · exact h ▸ List.prefix_refl _
  · exact h ▸ List.prefix_append _ _

/-- An import in a text shows the package that it names. -/
theorem isUsedIn_of_shows {text : String} (hnames : Names i dependency)
    (hshows : Shows i (packageIn dependency)) (h : i.text <:+: text.toList) :
    isUsedIn text (.text dependency) = true := by
  refine isUsedIn_iff.mpr ⟨i.mark, i.isMark, hshows.imp ?_ ?_⟩
  · rintro ⟨hspecifier, hclosing⟩
    refine List.IsInfix.trans (List.IsSuffix.isInfix ⟨i.word, ?_⟩) h
    rw [Import.text, hspecifier, hclosing]
  · intro hword
    obtain ⟨below, hbelow⟩ := hnames.prefix_package
    refine ⟨i.word, hword, List.IsInfix.trans (List.IsPrefix.isInfix ⟨below ++ [i.closing], ?_⟩) h⟩
    rw [Import.text, ← hbelow]
    simp

/-! ## Words of imports -/

/-- A text is cut before its last blanks in one way, also where the part before them ends in a given one. -/
theorem eq_of_blanks {first last front space space' : List Char}
    (hfirst : ∀ c ∈ first.getLast?, isBlank c = false) (hlast : ∀ c ∈ last.getLast?, isBlank c = false)
    (hne : last ≠ []) (hspace : ∀ c ∈ space, isBlank c = true) (hspace' : ∀ c ∈ space', isBlank c = true)
    (h : first ++ space = front ++ last ++ space') : first = front ++ last ∧ space = space' := by
  rw [← List.getLast?_append_of_ne_nil front hne] at hlast
  exact Text.append_blanks_unique hfirst hlast hspace hspace' h

section Openings

variable {front part space : List Char}

theorem isBlank_space : ∀ c ∈ [' '], isBlank c = true := List.forall_mem_singleton.mpr (by decide)

theorem getLast?_paren : ∀ c ∈ (part ++ ['(']).getLast?, isBlank c = false := by
  simp only [List.getLast?_concat, Option.mem_some_iff, forall_eq']
  decide

theorem unblank_keyword : ∀ keyword ∈ ["from", "import", "require", "require("],
    keyword.toList ≠ [] ∧ ∀ c ∈ keyword.toList.getLast?, isBlank c = false := by
  have hall : ∀ k ∈ ["from", "import", "require", "require("],
      k.toList ≠ [] ∧ k.toList.getLast?.all (!isBlank ·) = true := by decide
  intro keyword hkeyword
  obtain ⟨hne, hlast⟩ := hall keyword hkeyword
  exact ⟨hne, fun c hc => by simpa using (Option.all_eq_true _ _).mp hlast c hc⟩

/-- What ends in a parenthesis and blanks does not end in the first opening. -/
theorem ne_from_of_paren (hspace : ∀ c ∈ space, isBlank c = true) :
    part ++ ['('] ++ space ≠ front ++ "from ".toList := by
  intro h
  have hopening : front ++ "from ".toList = front ++ "from".toList ++ [' '] := by simp
  obtain ⟨hne, hlast⟩ := unblank_keyword "from" (by simp)
  obtain ⟨hbody, -⟩ := eq_of_blanks getLast?_paren hlast hne hspace isBlank_space (h.trans hopening)
  have hends := congrArg List.getLast? hbody
  rw [List.getLast?_concat, List.getLast?_append_of_ne_nil _ hne] at hends
  exact absurd hends (by decide)

/-- If it ends in the second one, the parenthesis is the same. -/
theorem eq_require_of_paren (hspace : ∀ c ∈ space, isBlank c = true)
    (h : part ++ ['('] ++ space = front ++ "require(".toList) :
    part = front ++ "require".toList ∧ space = [] := by
  have hopening : front ++ "require(".toList = front ++ "require(".toList ++ [] := by simp
  obtain ⟨hne, hlast⟩ := unblank_keyword "require(" (by simp)
  obtain ⟨hbody, rfl⟩ := eq_of_blanks getLast?_paren hlast hne hspace (by simp) (h.trans hopening)
  have hparen : front ++ "require(".toList = front ++ "require".toList ++ ['('] := by simp
  exact ⟨List.append_cancel_right (hbody.trans hparen), rfl⟩

/-- A keyword is told from the blanks behind it. -/
theorem eq_of_keyword (keyword ending : String) {space' : List Char}
    (hkeyword : keyword ∈ ["from", "import", "require"])
    (hending : ending ∈ ["from", "import", "require", "require("]) (hspace : ∀ c ∈ space, isBlank c = true)
    (hspace' : ∀ c ∈ space', isBlank c = true)
    (h : keyword.toList ++ space = front ++ ending.toList ++ space') : keyword = ending ∧ space = space' := by
  have hsuffix : ∀ k ∈ ["from", "import", "require"], ∀ e ∈ ["from", "import", "require", "require("],
      e.toList <:+ k.toList → k = e := by decide
  obtain ⟨-, hkeyword'⟩ := unblank_keyword keyword (List.mem_append_left ["require("] hkeyword)
  obtain ⟨hne, hending'⟩ := unblank_keyword ending hending
  obtain ⟨hbody, hblanks⟩ := eq_of_blanks hkeyword' hending' hne hspace hspace' h
  exact ⟨hsuffix keyword hkeyword ending hending ⟨front, hbody.symm⟩, hblanks⟩

/-- The word of an import is a keyword with blanks, and a parenthesis with blanks may stand behind it. -/
theorem exists_keyword (h : ImportWord word) : ∃ keyword ∈ ["from", "import", "require"], ∃ space,
    (∀ c ∈ space, isBlank c = true) ∧ (word = keyword.toList ++ space ∨
      ∃ space', (∀ c ∈ space', isBlank c = true) ∧ word = keyword.toList ++ space ++ ['('] ++ space') := by
  cases h with
  | @source space h => exact ⟨"from", by simp, space, h, .inl rfl⟩
  | @statement space paren space' h hoptional h' =>
    rcases hoptional with rfl | rfl
    · refine ⟨"import", by simp, space ++ space', fun c hc => ?_, .inl rfl⟩
      exact (List.mem_append.mp hc).elim (h c) (h' c)
    · exact ⟨"import", by simp, space, h, .inr ⟨space', h', by simp⟩⟩
  | @call space space' h h' => exact ⟨"require", by simp, space, h, .inr ⟨space', h', by simp⟩⟩

/-- The words of imports end in no opening but themselves. -/
theorem eq_of_opening (h : ImportWord word) {opening : List Char} (hopening : opening ∈ openings)
    (hword : word = front ++ opening) : word = opening := by
  obtain ⟨keyword, hkeyword, space, hspace, rfl | ⟨space', hspace', rfl⟩⟩ := exists_keyword h
  · rcases List.mem_pair.mp hopening with rfl | rfl
    · have hfrom : front ++ "from ".toList = front ++ "from".toList ++ [' '] := by simp
      obtain ⟨rfl, rfl⟩ := eq_of_keyword keyword "from" hkeyword (by simp) hspace isBlank_space
        (hword.trans hfrom)
      rfl
    · have hrequire : front ++ "require(".toList = front ++ "require(".toList ++ [] := by simp
      obtain ⟨rfl, -⟩ := eq_of_keyword keyword "require(" hkeyword (by simp) hspace (by simp)
        (hword.trans hrequire)
      exact absurd hkeyword (by decide)
  · rcases List.mem_pair.mp hopening with rfl | rfl
    · exact absurd hword (ne_from_of_paren hspace')
    · obtain ⟨hpart, rfl⟩ := eq_require_of_paren hspace' hword
      have hcall : front ++ "require".toList = front ++ "require".toList ++ [] := by simp
      obtain ⟨rfl, rfl⟩ := eq_of_keyword keyword "require" hkeyword (by simp) hspace (by simp)
        (hpart.trans hcall)
      rfl

end Openings

/-! ## Imports by themselves -/

/-- An import that shows the package that it names in no other way does not show it at all. -/
theorem isUsedIn_text_iff (hnames : Names i dependency) (hne : packageIn dependency ≠ "") :
    isUsedIn (String.ofList i.text) (.text dependency) = true ↔ Shows i (packageIn dependency) := by
  have hpackage : (packageIn dependency).toList ≠ [] := fun h => hne (String.toList_eq_nil_iff.mp h)
  refine ⟨fun h => ?_, fun h => isUsedIn_of_shows hnames h (by rw [String.toList_ofList])⟩
  obtain ⟨mark, hmark, htrace⟩ := isUsedIn_iff.mp h
  rw [String.toList_ofList] at htrace
  rcases htrace with ⟨front, rest, htext⟩ | ⟨opening, hopening, front, rest, htext⟩
  · have hsplit : i.text = front ++ mark :: ((packageIn dependency).toList ++ mark :: rest) := by
      rw [← htext]
      simp
    obtain ⟨-, rfl, hspecifier⟩ := Import.eq_of_mark hmark (by simp) hsplit
    have hfree : ∀ c ∈ (packageIn dependency).toList, isQuote c = false :=
      fun c hc => i.unquoted c (hnames.prefix_package.subset hc)
    obtain ⟨hname, hclosing, -⟩ :=
      Text.append_cons_unique i.unquoted i.isClosing hfree hmark hspecifier
    exact .inl ⟨hname, hclosing⟩
  · have hsplit : i.text = front ++ opening ++ mark :: ((packageIn dependency).toList ++ rest) := by
      rw [← htext]
      simp
    obtain ⟨hword, -⟩ := Import.eq_of_mark hmark (by simp [hpackage]) hsplit
    exact .inr (eq_of_opening i.isWord hopening hword ▸ hopening)

/-! ## What the check lists -/

/-- The source files that are searched. -/
def searched (c : Context) (t : Tree) : List String :=
  (c.findFiles t .extendedSourceFiles).take maxFiles

/-- The dependencies that are listed as unused. -/
def listed (c : Context) (t : Tree) : List Label :=
  (((c.readMembers? t Manifest.fileName).bind (Manifest.section? · "dependencies")).map
    (unused c t)).getD []

/-- What is said of the listed dependencies. -/
def told (names : List Label) : List Finding :=
  if names = [] then []
  else
    [(info.remark Manifest.fileName
      (.text (toString names.length ++ " potentially unused deps: ") ++ firstFive names)).withHelp
      (.text "Check: " ++ Label.joinWith ", " names)]

/-- A manifest that is nested too deep is a fault of the check. -/
theorem check_eq_told (c : Context) (t : Tree) : check c t =
    if c.IsTooDeep t Manifest.fileName then .error (.file .tooDeep) else .ok (told (listed c t)) := by
  have hfound : ((c.readMembers? t Manifest.fileName).map (findings c t)).getD [] =
      told (listed c t) := by
    unfold listed
    cases c.readMembers? t Manifest.fileName with
    | none => rfl
    | some manifest =>
      simp only [Option.map_some, Option.getD_some, Option.bind_some]
      unfold findings
      cases Manifest.section? manifest "dependencies" with
      | none => rfl
      | some dependencies =>
        simp only [Option.map_some, Option.getD_some]
        cases unused c t dependencies with
        | nil => rfl
        | cons first rest => rfl
  unfold check
  rw [Rule.findingsIn_eq, hfound]

theorem mem_listed_iff {dependency : Label} : dependency ∈ listed c t ↔ ∃ dependencies,
    (c.readMembers? t Manifest.fileName).bind (Manifest.section? · "dependencies") = some dependencies ∧
      dependency ∈ dependencies.keys ∧ dependency ∉ implicit.map Label.text ∧
      isUsedIn (c.readAll t (searched c t)) dependency = false := by
  unfold listed
  cases (c.readMembers? t Manifest.fileName).bind (Manifest.section? · "dependencies") with
  | none => simp
  | some dependencies =>
    simp only [Option.map_some, Option.getD_some, Option.some.injEq, exists_eq_left', unused, searched,
      List.mem_filter, Bool.and_eq_true, Bool.not_eq_true', List.contains_iff_mem,
      ← Bool.not_eq_true]

theorem readAll_of_mem {paths : List String} {path text : String} (hpath : path ∈ paths)
    (htext : c.readNonempty? t path = some text) : text.toList <:+: (c.readAll t paths).toList := by
  obtain ⟨before, behind, hsplit⟩ := List.append_of_mem (List.mem_filterMap.mpr ⟨path, hpath, htext⟩)
  refine ⟨(String.join (before.map (· ++ "\n"))).toList,
    '\n' :: (String.join (behind.map (· ++ "\n"))).toList, ?_⟩
  rw [Context.readAll, hsplit]
  simp [String.toList_join]

/-- What is said of dependencies that are imported. The check tells the dependencies that it lists. In
every searched file that can be read, the specifiers that are found are those of imports in the text. The
dependencies that such an import names and shows are not listed; by itself no other one keeps a
dependency off the list. -/
theorem check_spares_shown (c : Context) (t : Tree) :
    (check c t =
      if c.IsTooDeep t Manifest.fileName then .error (.file .tooDeep) else .ok (told (listed c t))) ∧
    (∀ path ∈ searched c t, ∀ text, c.readNonempty? t path = some text →
      (∀ specifier ∈ Imports.specifiersIn text,
        ∃ i : Import, i.text <:+: text.toList ∧ i.specifier = specifier.toList) ∧
      ∀ i : Import, i.text <:+: text.toList → ∀ d, Names i d → Shows i (packageIn d) →
        .text d ∉ listed c t) ∧
    ∀ (i : Import) (d : String), Names i d → packageIn d ≠ "" →
      (isUsedIn (String.ofList i.text) (.text d) = true ↔ Shows i (packageIn d)) := by
  refine ⟨check_eq_told c t, fun path hpath text htext => ⟨fun specifier => Imports.exists_import, ?_⟩,
    fun i d => isUsedIn_text_iff⟩
  intro i hi d hnames hshows hlisted
  have hused := isUsedIn_of_shows hnames hshows (hi.trans (readAll_of_mem hpath htext))
  obtain ⟨-, -, -, -, hunused⟩ := mem_listed_iff.mp hlisted
  rw [hused] at hunused
  cases hunused

/-! ## A path below a package -/

/-- A project with one source file, which imports the styles of its only dependency. -/
def stylesTree : Tree := ⟨[(["r"], .folder),
  (["r", "a.ts"], .file "import \"swiper/css\";\n".toUTF8),
  (["r", "package.json"], .file "\x7b\"dependencies\":\x7b\"swiper\":\"1\"\x7d\x7d".toUTF8)]⟩

/-- The root, seen as a scan root. -/
def stylesContext : Context := .forRoot ["r"] default false "" []

theorem findFiles_stylesTree :
    stylesContext.findFiles stylesTree .extendedSourceFiles = ["a.ts"] := by
  have hroot : stylesContext.root = ["r"] := by decide +kernel
  have hnames : Context.namesIn stylesTree ["r"] = ["a.ts", "package.json"] := by
    rw [Context.namesIn_of_sorted (l := ["r"]) (by decide +kernel) (by decide +kernel)]
    decide +kernel
  rw [Context.findFiles_eq_flatMap, hroot, hnames]
  decide +kernel

/-- An import for its effects of a path below a dependency does not show the dependency, which is
listed. -/
theorem listed_stylesTree : "swiper/css" ∈ Imports.specifiersIn "import \"swiper/css\";\n" ∧
    (stylesContext.findFiles stylesTree .extendedSourceFiles).length ≤ 200 ∧
    "a.ts" ∈ stylesContext.findFiles stylesTree .extendedSourceFiles ∧
    stylesContext.readNonempty? stylesTree "a.ts" = some "import \"swiper/css\";\n" ∧
    .text "swiper" ∈ listed stylesContext stylesTree := by
  have hfound := findFiles_stylesTree
  have hsearched : searched stylesContext stylesTree = ["a.ts"] := by
    rw [searched, hfound]
    rfl
  have hnames : ((stylesContext.readMembers? stylesTree Manifest.fileName).bind
      (Manifest.section? · "dependencies")).map Json.Members.keys = some [.text "swiper"] := by
    decide +kernel
  obtain ⟨dependencies, hsection, hnames⟩ := Option.map_eq_some_iff.mp hnames
  refine ⟨by decide +kernel, by simp [hfound], by simp [hfound], by decide +kernel, ?_⟩
  refine mem_listed_iff.mpr ⟨dependencies, hsection, by simp [hnames], by decide, ?_⟩
  rw [hsearched]
  decide +kernel

end Hygiene.UnusedDependencies

end Checkup
