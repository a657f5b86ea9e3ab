import Checkup.Proofs.Number.Share
import Checkup.Proofs.Pattern.Specifier
import Checkup.Rule.DeadCode
import Mathlib.Data.List.Find

/-!
# Files that are imported are no orphans

A file is called an orphan only if no source file has a line that imports it in one of the plain forms:
`import C from`, `export C from`, `import` and `const C = require`, each with a relative specifier in
quotation marks. A line ends at a newline here; other characters at which texts may be cut into lines
do not end the search for a quotation mark.

* `Imports.ImportLine`: the lines that import from a specifier.
* `Imports.specifier_mem`: their specifiers are found.
* `Imports.mem_candidates_of_means`: every file that a specifier may mean counts as imported.
* `DeadCode.OrphanFiles.areTooMany_eq`: the share of orphans in double precision.
* `DeadCode.OrphanFiles.check_sound`: what is said of orphans.
-/

namespace Checkup

open Text (isBlank isWord)

namespace Imports

/-! ## Lines with imports -/

/-- A statement that imports from a file, up to the quotation mark before the specifier. -/
inductive Statement : List Char → Prop
  | importFrom {clause : List Char} (h : ∀ c ∈ clause, Pattern.isQuote c = false) :
    Statement ("import ".toList ++ clause ++ " from ".toList)
  | exportFrom {clause : List Char} (h : ∀ c ∈ clause, Pattern.isQuote c = false) :
    Statement ("export ".toList ++ clause ++ " from ".toList)
  | importOnly : Statement "import ".toList
  | require {clause : List Char} (h : ∀ c ∈ clause, Pattern.isQuote c = false) :
    Statement ("const ".toList ++ clause ++ " = require(".toList)

/-- A line, indented or not, is a statement that imports from a relative specifier. -/
structure ImportLine (line specifier : List Char) : Prop where
  quoted : ∃ indent statement mark rest,
    line = indent ++ (statement ++ mark :: (specifier ++ mark :: rest)) ∧
      (∀ c ∈ indent, isBlank c = true) ∧ Statement statement ∧ Pattern.isQuote mark = true
  unquoted : ∀ c ∈ specifier, Pattern.isQuote c = false
  relative : ['.'] <+: specifier

example : ImportLine "  export * from './b';".toList "./b".toList where
  quoted := ⟨"  ".toList, "export ".toList ++ "*".toList ++ " from ".toList, '\x27', ";".toList,
    by decide, List.all_eq_true.mp (by decide), .exportFrom (Pattern.unquoted_of_all (by decide)), by decide⟩
  unquoted := Pattern.unquoted_of_all (by decide)
  relative := by decide

/-- A statement ends in the word of an import, which begins there. -/
theorem Statement.split {statement : List Char} (h : Statement statement) :
    ∃ opening word, statement = opening ++ word ∧ word ∈ Pattern.importWords ∧
      (∀ c ∈ opening, Pattern.isQuote c = false) ∧ ∀ c ∈ opening.getLast?, isWord c = false := by
  have hclause : ∀ {first clause last : List Char}, first.all (!Pattern.isQuote ·) = true →
      (∀ c ∈ clause, Pattern.isQuote c = false) → last.all (!Pattern.isQuote ·) = true →
      ∀ c ∈ first ++ clause ++ last, Pattern.isQuote c = false := by
    intro first clause last hfirst hclause hlast c hc
    rcases List.mem_append.mp hc with hc | hc
    · exact (List.mem_append.mp hc).elim (Pattern.unquoted_of_all hfirst c) (hclause c)
    · exact Pattern.unquoted_of_all hlast c hc
  have hspace : ∀ {s : List Char}, ∀ c ∈ (s ++ [' ']).getLast?, isWord c = false := by
    intro s c hc
    rw [List.getLast?_concat] at hc
    cases hc
    rfl
  cases h with
  | @importFrom clause h =>
    exact ⟨"import ".toList ++ clause ++ [' '], "from ".toList, by simp, by decide,
      hclause (by decide) h (by decide), hspace⟩
  | @exportFrom clause h =>
    exact ⟨"export ".toList ++ clause ++ [' '], "from ".toList, by simp, by decide,
      hclause (by decide) h (by decide), hspace⟩
  | importOnly =>
    exact ⟨[], "import ".toList, rfl, by decide, List.forall_mem_nil _, nofun⟩
  | @require clause h =>
    refine ⟨"const ".toList ++ clause ++ " = ".toList, "require(".toList, by simp, by decide,
      hclause (by decide) h (by decide), ?_⟩
    have hlast : " = ".toList = " =".toList ++ [' '] := by decide
    rw [hlast, ← List.append_assoc]
    exact hspace

/-- The specifier of an import on a line of a text is found. -/
theorem specifier_mem {text : String} {line specifier : List Char}
    (hline : line ∈ Text.splitOn '\n' text.toList) (h : ImportLine line specifier) :
    String.ofList specifier ∈ specifiersIn text := by
  obtain ⟨above, below, htext, habove⟩ := Text.exists_of_mem_splitWhere hline
  obtain ⟨indent, statement, mark, rest, rfl, hindent, hstatement, hmark⟩ := h.quoted
  obtain ⟨opening, word, rfl, hword, hopening, hlast⟩ := hstatement.split
  have hnewline : ∀ c ∈ indent ++ (opening ++ word ++ mark :: (specifier ++ mark :: rest)), c ≠ '\n' :=
    fun c hc => by simpa using Text.not_stop_of_mem_splitWhere hline c hc
  have hspecifier : ∀ c ∈ specifier, Pattern.isSpecifier c = true := fun c hc =>
    Pattern.isSpecifier_iff.mpr ⟨h.unquoted c hc, hnewline c (by simp [hc])⟩
  have hne : specifier ≠ [] := by
    rintro rfl
    exact absurd h.relative (by decide)
  have hfree : ∀ c ∈ indent ++ opening, Pattern.isQuote c = false := fun c hc =>
    (List.mem_append.mp hc).elim (fun hc => Pattern.isQuote_of_isBlank (hindent c hc)) (hopening c)
  have hend : ∀ c ∈ (indent ++ opening).getLast?, isWord c = false := by
    intro c hc
    rw [List.getLast?_append] at hc
    rcases Option.or_eq_some_iff.mp hc with hc | ⟨-, hc⟩
    · exact hlast c hc
    · exact Text.not_isWord_of_isBlank (hindent c (List.mem_of_getLast? hc))
  obtain ⟨found, hmem, hkept⟩ := Pattern.exists_found_specifier
    (fun c hc => by simpa using habove c hc) hfree hend hword hmark hne hspecifier (rest ++ below)
  refine List.mem_filterMap.mpr ⟨found, ?_, by rw [hkept]; rfl⟩
  rw [htext]
  simpa using hmem

/-! ## What a specifier may mean -/

/-- The files that an import of a path may mean. -/
inductive Means (path : String) : String → Prop
  | itself : Means path path
  | source {extension : String} (h : extension ∈ extensions) : Means path (path ++ extension)
  | index {extension : String} (h : extension ∈ extensions) : Means path (path ++ "/index" ++ extension)
  | other {base extension extension' : String} (h : extension ∈ extensions)
    (h' : extension' ∈ extensions) (hpath : path = base ++ extension) : Means path (base ++ extension')

/-- Of the extensions a path with one of them ends with this one only. -/
theorem endsWith_extension (base : String) : ∀ extension ∈ extensions, ∀ other ∈ extensions,
    Text.endsWith (base ++ extension).toList other.toList = decide (other = extension) := by
  have hends : ∀ extension other : String, Text.endsWith (base ++ extension).toList other.toList =
      other.toList.reverse.isPrefixOf (extension.toList.reverse ++ base.toList.reverse) := by
    intro extension other
    rw [Text.endsWith, String.toList_append, List.reverse_append]
  simp only [hends, extensions, List.forall_mem_cons]
  simp [List.isPrefixOf]

theorem withoutExtension_append (base : String) {extension : String} (h : extension ∈ extensions) :
    withoutExtension (base ++ extension) = base := by
  have hfind : ∀ e ∈ extensions, extensions.find? (fun other => decide (other = e)) = some e := by
    decide
  unfold withoutExtension
  rw [List.find?_congr (endsWith_extension base extension h), hfind extension h]
  dsimp only
  rw [String.length_append, Nat.add_sub_cancel, String.toList_append, ← String.length_toList,
    List.take_left, String.ofList_toList]

/-- Every file that a specifier may mean is one of its candidates. -/
theorem mem_candidates_of_means {importer specifier file : String}
    (h : Means (named importer specifier) file) : file ∈ candidates importer specifier := by
  unfold candidates
  rw [List.mem_eraseDups, List.mem_flatMap]
  cases h with
  | itself => exact ⟨_, List.mem_cons_self .., List.mem_map.mpr ⟨"", by decide, String.append_empty⟩⟩
  | @source extension h =>
    refine ⟨_, List.mem_cons_self .., List.mem_map.mpr ⟨extension, ?_, rfl⟩⟩
    exact List.mem_append_left _ (List.mem_append_right _ h)
  | @index extension h =>
    refine ⟨_, List.mem_cons_self .., List.mem_map.mpr ⟨"/index" ++ extension, ?_, ?_⟩⟩
    · exact List.mem_append_right _ (List.mem_map.mpr ⟨extension, h, rfl⟩)
    · exact (String.append_assoc ..).symm
  | @other base extension extension' h h' hpath =>
    rw [hpath, withoutExtension_append base h]
    refine ⟨base, by simp, List.mem_map.mpr ⟨extension', ?_, rfl⟩⟩
    exact List.mem_append_left _ (List.mem_append_right _ h')

end Imports

namespace DeadCode.OrphanFiles

variable {c : Context} {t : Tree}

/-- The share of orphans from which on nothing is said, a number of double precision. -/
def maxShare : Number.Binary64 := .ofDecimal false 3 (-1)

/-- The number of orphans is no less than the product of the number of files with that share, where
the product is rounded to double precision. -/
def reachesShare (orphans files : List String) : Bool :=
  ((Number.Binary64.ofInt files.length).mul maxShare).neg.atLeast (-orphans.length)

/-- Rounding makes no difference. -/
theorem areTooMany_eq (orphans : List String) {files : List String}
    (h : files.length < Number.twoTo 48) : areTooMany orphans files = reachesShare orphans files :=
  (Number.Binary64.share_le_iff h orphans.length).symm

/-- The source files of a scan root that the rule looks at. -/
def scanned (c : Context) (t : Tree) : List String := c.findFiles t .sourceFiles

/-- The files that nothing imports, whether they are told or not. -/
def candidates (c : Context) (t : Tree) : List String :=
  orphans (scanned c t) (Imports.imported c t (scanned c t))

theorem check_eq (c : Context) (t : Tree) : check c t =
    if areTooMany (candidates c t) (scanned c t) then []
    else ((candidates c t).take maxFindings).map fun path =>
      info.finding path "File appears unused, not imported anywhere" := rfl

theorem file_mem_of_mem_check {f : Finding} (h : f ∈ check c t) : f.file ∈ candidates c t := by
  rw [check_eq] at h
  split at h
  · cases h
  · obtain ⟨path, hpath, rfl⟩ := List.mem_map.mp h
    exact List.mem_of_mem_take hpath

/-- What a line of a readable source file may mean is imported. -/
theorem mem_imported_of_line {importer text file : String} {line specifier : List Char}
    {files : List String} (himporter : importer ∈ files) (hread : c.readText? t importer = some text)
    (hline : line ∈ Text.splitOn '\n' text.toList) (himport : Imports.ImportLine line specifier)
    (hmeans : Imports.Means (Imports.named importer (String.ofList specifier)) file) :
    file ∈ Imports.imported c t files := by
  have hmem := Imports.specifier_mem hline himport
  have hnonempty : c.readNonempty? t importer = some text := by
    unfold Context.readNonempty?
    rw [hread, Option.filter_some, if_pos]
    rw [bne_iff_ne]
    rintro rfl
    cases hmem
  have hrelative : Imports.isRelative (String.ofList specifier) = true := by
    have hchars : (String.ofList specifier).toList = specifier := String.toList_ofList
    unfold Imports.isRelative Text.startsWith
    rw [hchars]
    exact List.isPrefixOf_iff_prefix.mpr himport.relative
  exact Imports.mem_imported_iff.mpr ⟨importer, himporter, text, hnonempty, _, hmem, hrelative,
    Imports.mem_candidates_of_means hmeans⟩

/-- What is said of orphans: none of them is an entry point, nor what a line of a readable source file
imports may mean. There are only so many of them, and none if they are three tenths of the files or
more. Of less than `2^48` files it is the same to compare with the rounded product. -/
theorem check_sound (c : Context) (t : Tree) :
    (∀ f ∈ check c t, Pattern.isEntryPoint f.file = false ∧
      ∀ importer ∈ scanned c t, ∀ text, c.readText? t importer = some text →
        ∀ line ∈ Text.splitOn '\n' text.toList, ∀ specifier, Imports.ImportLine line specifier →
          ¬ Imports.Means (Imports.named importer (String.ofList specifier)) f.file) ∧
    (check c t).length ≤ 20 ∧
    (3 * (scanned c t).length ≤ 10 * (candidates c t).length → check c t = []) ∧
    ((scanned c t).length < Number.twoTo 48 → (reachesShare (candidates c t) (scanned c t) = true ↔
      3 * (scanned c t).length ≤ 10 * (candidates c t).length)) := by
  refine ⟨fun f hf => ?_, ?_, fun hmany => ?_, fun hfew => ?_⟩
  · obtain ⟨-, hentry, himported⟩ := mem_orphans_iff.mp (file_mem_of_mem_check hf)
    refine ⟨hentry, fun importer himporter text hread line hline specifier himport hmeans => ?_⟩
    exact himported f.file (List.mem_cons_self ..)
      (mem_imported_of_line himporter hread hline himport hmeans)
  · rw [check_eq]
    split
    · exact Nat.zero_le _
    · rw [List.length_map, List.length_take]
      exact Nat.min_le_left _ _
  · rw [check_eq, areTooMany, decide_eq_true hmany, if_pos rfl]
  · rw [← areTooMany_eq _ hfew, areTooMany, decide_eq_true_eq]

end DeadCode.OrphanFiles

end Checkup
