import Checkup.Proofs.Pattern.ComponentUse
import Checkup.Proofs.Scan.Alike
import Checkup.Proofs.Tree.Steps
import Checkup.Rule.DeadCode

/-!
# Components that are used

A component is reported if the pattern for its uses is found once at most in all sources together. The
uses are counted line by line, so an import and a tag on lines of their own keep a component from being
reported. An import over several lines does not count, nor does a tag with a dot or type arguments behind
the name, nor what stands on a line behind an import of the component.

* `Path.baseName_eq`, `Path.stem_eq`: the last name of a path, and without its extension.
* `exists_name`: the name of a component.
* `uses_readAll`: the uses in all sources are those on their lines.
* `check_counts_lines`: what is said of components.
-/

namespace Checkup

/-! ## Last names of paths -/

namespace Path

variable {path : String} {folder name ending : List Char}

theorem baseName_eq (hpath : path.toList = folder ++ name) (hfolder : ∀ ch ∈ folder.getLast?, ch = '/')
    (hname : '/' ∉ name) : baseName path = String.ofList name := by
  unfold baseName Text.pieces
  rw [hpath]
  rcases List.eq_nil_or_concat' folder with rfl | ⟨init, last, rfl⟩
  · rw [List.nil_append, Text.splitOn_of_not_mem hname]
    rfl
  · obtain rfl : last = '/' := hfolder last (by simp)
    rw [List.append_assoc, List.singleton_append, Text.splitOn_append_cons, Text.splitOn_of_not_mem hname]
    simp

theorem stem_eq (hname : ∃ ch ∈ name, ch ≠ '.') (hending : '.' ∉ ending) :
    stem (String.ofList (name ++ '.' :: ending)) = String.ofList name := by
  have hdotted : (name ++ '.' :: ending).reverse.dropWhile (· != '.') = '.' :: name.reverse := by
    have hsplit : (name ++ '.' :: ending).reverse = ending.reverse ++ '.' :: name.reverse := by simp
    have hno : ∀ ch ∈ ending.reverse, (ch != '.') = true := by
      intro ch hch
      rw [bne_iff_ne]
      rintro rfl
      exact hending (List.mem_reverse.mp hch)
    rw [hsplit, List.dropWhile_append_of_pos hno]
    rfl
  have hnot : name.reverse.all (· == '.') = false := by simpa using hname
  unfold stem
  dsimp only
  rw [String.toList_ofList, hdotted]
  simp [hnot]

end Path

namespace DeadCode.UnusedComponents

open Pattern (Matches Cursor isLetter usesOn usesOnLine endsTagName)

variable {c : Context} {t : Tree} {path : String} {name : List Char}

/-! ## Names of components -/

/-- The path of a file that is named like a component. -/
structure HoldsComponent (path : String) (name : List Char) : Prop where
  ne : name ≠ []
  letters : ∀ ch ∈ name, isLetter ch = true
  spelled : ∃ folder ending, path.toList = folder ++ (name ++ '.' :: ending) ∧
    (∀ ch ∈ folder.getLast?, ch = '/') ∧ '.' ∉ ending ∧ '/' ∉ ending

theorem HoldsComponent.not_mem (h : HoldsComponent path name) {ch : Char} (hch : isLetter ch = false) :
    ch ∉ name := by
  intro hmem
  rw [h.letters ch hmem] at hch
  cases hch

/-- A name starts at the start of the path or behind a slash. -/
theorem matches_nameStart {folder rest : List Char} {found : Pattern.Found}
    (h : Matches Pattern.nameStart (.skip none folder rest) found) :
    (folder = [] ∧ rest = found.after.rest) ∨ rest = '/' :: found.after.rest := by
  generalize hplace : Cursor.skip none folder rest = place at h
  have hrest : place.rest = rest := congrArg Cursor.rest hplace.symm
  cases h with
  | eitherLeft h =>
    cases h with
    | start text =>
      have hnone : folder.getLast?.or none = none := congrArg Cursor.before hplace
      rw [Option.or_none, List.getLast?_eq_none_iff] at hnone
      exact .inl ⟨hnone, hrest.symm⟩
  | eitherRight h =>
    rw [Pattern.matches_char h] at hrest
    exact .inr hrest.symm

theorem holdsComponent_of_matches {folder rest : List Char} {found : Pattern.Found}
    (hpath : path.toList = folder ++ rest)
    (h : Matches Pattern.componentFiles (.skip none folder rest) found) : ∃ name, HoldsComponent path name := by
  have hendings : ∀ e ∈ Pattern.endings ["tsx", "jsx"], ∃ ending, e = '.' :: ending ∧ '.' ∉ ending ∧
      '/' ∉ ending := by
    simp [Pattern.endings]
  cases h with
  | seq hstart h =>
    cases h with
    | seq hcapital h =>
      cases h with
      | seq hletters hextension =>
        obtain ⟨first, hfirst, hrest, -⟩ := Pattern.matches_one hcapital
        obtain ⟨more, -, hmore, hall⟩ := Pattern.matches_run1 hletters
        obtain ⟨ending, hending, hdot, hslash⟩ := hendings _ (Pattern.mem_endings_of_matches hextension)
        rw [hmore, hending] at hrest
        have hname : ∀ ch ∈ first :: more, isLetter ch = true := by
          refine List.forall_mem_cons.mpr ⟨?_, hall⟩
          rw [isLetter, hfirst, Bool.true_or]
        refine ⟨first :: more, by simp, hname, ?_⟩
        rcases matches_nameStart hstart with ⟨rfl, hbehind⟩ | hbehind
        · exact ⟨[], ending, by rw [hpath, hbehind, hrest]; rfl, nofun, hdot, hslash⟩
        · refine ⟨folder ++ ['/'], ending, by rw [hpath, hbehind, hrest]; simp, ?_, hdot, hslash⟩
          simp

theorem exists_name (h : Pattern.componentFiles.accepts path = true) : ∃ name, HoldsComponent path name := by
  unfold Pattern.accepts Pattern.foundIn Pattern.search? at h
  obtain ⟨found, hfound⟩ := Option.isSome_iff_exists.mp h
  obtain ⟨front, rest, hpath, hm⟩ := Pattern.exists_skip_of_searchFrom? hfound
  exact holdsComponent_of_matches hpath hm

theorem componentOf_eq (h : HoldsComponent path name) : componentOf path = String.ofList name := by
  obtain ⟨folder, ending, hpath, hfolder, hdot, hslash⟩ := h.spelled
  have hslash' : '/' ∉ name ++ '.' :: ending := by
    have hletter : isLetter '/' = false := by decide
    simp [h.not_mem hletter, hslash]
  have hname : ∃ ch ∈ name, ch ≠ '.' := by
    obtain ⟨ch, hch⟩ := List.exists_mem_of_ne_nil name h.ne
    have hletter : isLetter '.' = false := by decide
    exact ⟨ch, hch, fun heq => h.not_mem hletter (heq ▸ hch)⟩
  rw [componentOf, Path.baseName_eq hpath hfolder hslash', Path.stem_eq hname hdot]

/-! ## Uses in the sources -/

/-- The lines of the texts of the source files. -/
def sourceLines (c : Context) (t : Tree) : List (List Char) :=
  ((c.findFiles t .sourceFiles).filterMap (c.readNonempty? t)).flatMap fun text =>
    Text.splitOn '\n' text.toList

/-- The uses in all sources are those on their lines. -/
theorem uses_readAll (c : Context) (t : Tree) (h : Pattern.componentFiles.accepts path = true) :
    uses (c.readAll t (c.findFiles t .sourceFiles)).toList (componentOf path) =
      usesOn (componentOf path).toList (sourceLines c t) := by
  obtain ⟨name, hname⟩ := exists_name h
  have hletter : isLetter '\n' = false := by decide
  have hne : componentOf path ≠ "" := by
    rw [componentOf_eq hname, Ne, String.ofList_eq_empty_iff]
    exact hname.ne
  have hnewline : '\n' ∉ (componentOf path).toList := by
    rw [componentOf_eq hname, String.toList_ofList]
    exact hname.not_mem hletter
  exact Pattern.length_all_texts hne hnewline _

theorem exists_finding_iff : (∃ f ∈ check c t, f.file = path) ↔
    (c.findFiles t .sourceFiles).length ≤ maxFiles ∧ path ∈ c.findFiles t .markupFiles ∧
      Pattern.componentFiles.accepts path = true ∧
      usesOn (componentOf path).toList (sourceLines c t) ≤ 1 := by
  unfold check
  dsimp only
  split
  · rename_i hmany
    refine iff_of_false (by simp) fun h => absurd h.1 (Nat.not_le_of_lt hmany)
  · rename_i hfew
    simp only [List.mem_map, List.mem_filter, decide_eq_true_eq]
    constructor
    · rintro ⟨f, ⟨found, ⟨⟨hfound, haccepts⟩, huses⟩, rfl⟩, rfl⟩
      rw [uses_readAll c t haccepts] at huses
      exact ⟨Nat.le_of_not_lt hfew, hfound, haccepts, huses⟩
    · rintro ⟨-, hfound, haccepts, huses⟩
      rw [← uses_readAll c t haccepts] at huses
      exact ⟨_, ⟨path, ⟨⟨hfound, haccepts⟩, huses⟩, rfl⟩, rfl⟩

/-! ## Lines that use a component -/

/-- A line has an import, and names the component behind it. -/
def ImportsOn (name line : List Char) : Prop :=
  ∃ front middle rest, line = front ++ ("import".toList ++ (middle ++ (name ++ rest)))

/-- A line has an opening tag of the component: white space, a slash, the end of the tag or of the line
stands behind the name. -/
def TagOn (name line : List Char) : Prop :=
  ∃ front rest, line = front ++ '<' :: (name ++ rest) ∧ ∀ ch ∈ rest.head?, endsTagName ch = true

theorem ImportsOn.pos {line : List Char} (h : ImportsOn name line) : 0 < usesOnLine name line := by
  obtain ⟨front, middle, rest, rfl⟩ := h
  exact Pattern.usesOnLine_pos_of_import front middle rest

theorem TagOn.pos {line : List Char} (h : TagOn name line) : 0 < usesOnLine name line := by
  obtain ⟨front, rest, rfl, hrest⟩ := h
  exact Pattern.usesOnLine_pos_of_tag front hrest

/-- Two lines of a text count both. -/
theorem add_le_usesOn {lines : List (List Char)} {i j : Nat} {line line' : List Char} (hij : i ≠ j)
    (hi : lines[i]? = some line) (hj : lines[j]? = some line') :
    usesOnLine name line + usesOnLine name line' ≤ usesOn name lines := by
  have hmem : ∀ {lines : List (List Char)} {i : Nat} {line : List Char}, lines[i]? = some line →
      usesOnLine name line ≤ usesOn name lines := by
    intro lines i line h
    exact List.single_le_sum (fun _ _ => Nat.zero_le _) _
      (List.mem_map_of_mem (List.mem_of_getElem? h))
  induction lines generalizing i j with
  | nil => cases hi
  | cons first rest ih =>
    have hcons : usesOn name (first :: rest) = usesOnLine name first + usesOn name rest := by
      simp [usesOn]
    cases i with
    | zero =>
      obtain ⟨j, rfl⟩ := Nat.exists_eq_succ_of_ne_zero (Ne.symm hij)
      obtain rfl : first = line := Option.some.inj hi
      have hle := hmem (List.getElem?_cons_succ.symm.trans hj)
      omega
    | succ i =>
      have hi' := List.getElem?_cons_succ.symm.trans hi
      cases j with
      | zero =>
        obtain rfl : first = line' := Option.some.inj hj
        have hle := hmem hi'
        omega
      | succ j =>
        have hle := ih (fun h => hij (congrArg Nat.succ h)) hi' (List.getElem?_cons_succ.symm.trans hj)
        omega

theorem usesOn_le_sourceLines {file text : String} (hfile : file ∈ c.findFiles t .sourceFiles)
    (htext : c.readNonempty? t file = some text) :
    usesOn name (Text.splitOn '\n' text.toList) ≤ usesOn name (sourceLines c t) := by
  obtain ⟨before, behind, hsplit⟩ := List.append_of_mem (List.mem_filterMap.mpr ⟨file, hfile, htext⟩)
  rw [sourceLines, hsplit, List.flatMap_append, List.flatMap_cons, Pattern.usesOn_append,
    Pattern.usesOn_append]
  omega

/-- What is said of components. A file is reported if it is named like a component, and on all lines of
the sources together there is one use of the component at most. So a component is not reported if a
source file imports it on one line and has a tag of it on another one. -/
theorem check_counts_lines (c : Context) (t : Tree) (path : String) :
    ((∃ f ∈ check c t, f.file = path) ↔
      (c.findFiles t .sourceFiles).length ≤ 300 ∧ path ∈ c.findFiles t .markupFiles ∧
        Pattern.componentFiles.accepts path = true ∧
        usesOn (componentOf path).toList (sourceLines c t) ≤ 1) ∧
    ∀ file ∈ c.findFiles t .sourceFiles, ∀ text, c.readNonempty? t file = some text →
      ∀ (i j : Nat) (line line' : List Char), i ≠ j → (Text.splitOn '\n' text.toList)[i]? = some line →
        (Text.splitOn '\n' text.toList)[j]? = some line' →
        ImportsOn (componentOf path).toList line → TagOn (componentOf path).toList line' →
        ∀ f ∈ check c t, f.file ≠ path := by
  refine ⟨exists_finding_iff, ?_⟩
  rintro file hfile text htext i j line line' hij hline hline' himport htag f hf rfl
  obtain ⟨-, -, -, huses⟩ := exists_finding_iff.mp ⟨f, hf, rfl⟩
  have hboth : usesOnLine (componentOf f.file).toList line + usesOnLine (componentOf f.file).toList line' ≤
      usesOn (componentOf f.file).toList (Text.splitOn '\n' text.toList) := add_le_usesOn hij hline hline'
  have hall : _ ≤ usesOn (componentOf f.file).toList (sourceLines c t) := usesOn_le_sourceLines hfile htext
  have hfirst := himport.pos
  have hsecond := htag.pos
  omega

/-! ## An import over several lines -/

/-- The text of a page that imports a component, with a line for each name in the braces, and shows it. -/
def pageText : String :=
  "import \x7b\n  Button,\n\x7d from './Button';" ++ "\n\nexport default () => " ++ "<Button />" ++ ";\n"

/-- An application with a component and a page. -/
def buttonTree : Tree := ⟨[(["r"], .folder),
  (["r", "Button.tsx"], .file "export const Button = () => null;\n".toUTF8),
  (["r", "package.json"], .file "\x7b\"dependencies\":\x7b\"next\":\"1\"\x7d\x7d".toUTF8),
  (["r", "page.tsx"], .file pageText.toUTF8)]⟩

/-- The root, seen as a scan root. -/
def buttonContext : Context :=
  .forRoot ["r"] { (default : Project) with kind := .frameworkApp } false "" []

theorem findFiles_buttonTree : buttonContext.findFiles buttonTree .sourceFiles = ["Button.tsx", "page.tsx"] ∧
    buttonContext.findFiles buttonTree .markupFiles = ["Button.tsx", "page.tsx"] := by
  have hroot : buttonContext.root = ["r"] := by decide +kernel
  have hnames : Context.namesIn buttonTree ["r"] = ["Button.tsx", "package.json", "page.tsx"] := by
    rw [Context.namesIn_of_sorted (l := ["r"]) (by decide +kernel) (by decide +kernel)]
    decide +kernel
  rw [Context.findFiles_eq_flatMap, Context.findFiles_eq_flatMap, hroot, hnames]
  decide +kernel

/-- The import does not count, and the tag alone is not enough: the component is reported. -/
theorem reported_buttonTree : buttonContext.readNonempty? buttonTree "page.tsx" = some pageText ∧
    "page.tsx" ∈ buttonContext.findFiles buttonTree .sourceFiles ∧
    "import \x7b\n  Button,\n\x7d from './Button';".toList <:+: pageText.toList ∧
    "<Button />".toList <:+: pageText.toList ∧
    ∃ f ∈ check buttonContext buttonTree, f.file = "Button.tsx" := by
  obtain ⟨hsource, hmarkup⟩ := findFiles_buttonTree
  have haccepts : Pattern.componentFiles.accepts "Button.tsx" = true := by decide +kernel
  have hparts : ∀ first second third fourth : String,
      first.toList <:+: (first ++ second ++ third ++ fourth).toList ∧
        third.toList <:+: (first ++ second ++ third ++ fourth).toList := by
    intro first second third fourth
    simp only [String.toList_append]
    refine ⟨?_, List.infix_append _ _ _⟩
    rw [List.append_assoc, List.append_assoc]
    exact (List.prefix_append _ _).isInfix
  obtain ⟨himport, htag⟩ := hparts _ _ _ _
  refine ⟨by decide +kernel, by simp [hsource], himport, htag,
    exists_finding_iff.mpr ⟨?_, ?_, haccepts, ?_⟩⟩
  · simp [hsource, maxFiles]
  · simp [hmarkup]
  · rw [← uses_readAll _ _ haccepts, hsource]
    decide +kernel

end DeadCode.UnusedComponents

end Checkup
