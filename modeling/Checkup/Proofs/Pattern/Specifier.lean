import Checkup.Proofs.Pattern.Covering
import Checkup.Proofs.Text.Words

/-!
# Specifiers of imports

The statement of an import ends in a specifier between quotation marks. The pattern for imports looks
for the last word before it only, and may begin to match at another such word. But it goes on to the
next quotation mark, and from there to the one behind it on the same line. So from a line whose first
quotation marks are those around the specifier it keeps the specifier, whatever stands before the line.

* `ImportWord`: the word of an import, up to the mark before its specifier.
* `matches_importSpecifier`: what the pattern takes.
* `exists_matches_importSpecifier`: where it matches.
* `exists_found_specifier`: what is kept of a line with an import.
-/

namespace Checkup.Pattern

open Text (isBlank isWord)

variable {place : Cursor} {found : Found}

/-! ## Characters outside of specifiers -/

theorem isQuote_of_isBlank {c : Char} (h : isBlank c = true) : isQuote c = false := by
  by_contra hquote
  rw [Bool.not_eq_false, isQuote, Bool.or_eq_true, beq_iff_eq, beq_iff_eq] at hquote
  rcases hquote with rfl | rfl <;> exact absurd h (by decide)

theorem unquoted_of_all {s : List Char} (h : s.all (!isQuote ·) = true) :
    ∀ c ∈ s, isQuote c = false :=
  fun c hc => by simpa using List.all_eq_true.mp h c hc

/-! ## The pattern for imports -/

/-- The word of an import before its specifier, with what may stand between them. -/
def importWord : Pattern :=
  anyOf [
    sequence [edge, text "from", blanks],
    sequence [edge, text "import", blanks, optional (char '('), blanks],
    sequence [edge, text "require", blanks, char '(', blanks]]

/-- A character of a specifier. -/
def isSpecifier (c : Char) : Bool := !isQuote c && c != '\n'

theorem isSpecifier_iff {c : Char} : isSpecifier c = true ↔ isQuote c = false ∧ c ≠ '\n' := by
  simp [isSpecifier]

theorem importSpecifier_eq : importSpecifier =
    seq importWord (seq (one isQuote) (seq (keep (run1 isSpecifier)) (one isQuote))) := rfl

/-- The word of an import, with what stands between it and the mark before the specifier. -/
inductive ImportWord : List Char → Prop
  | source {space : List Char} (h : ∀ c ∈ space, isBlank c = true) :
    ImportWord ("from".toList ++ space)
  | statement {space paren space' : List Char} (h : ∀ c ∈ space, isBlank c = true)
    (hparen : paren = [] ∨ paren = ['(']) (h' : ∀ c ∈ space', isBlank c = true) :
    ImportWord ("import".toList ++ (space ++ (paren ++ space')))
  | call {space space' : List Char} (h : ∀ c ∈ space, isBlank c = true)
    (h' : ∀ c ∈ space', isBlank c = true) :
    ImportWord ("require".toList ++ (space ++ (['('] ++ space')))

theorem ImportWord.unquoted {word : List Char} (h : ImportWord word) : ∀ c ∈ word, isQuote c = false := by
  have hkeyword : ∀ keyword ∈ ["from", "import", "require"], keyword.toList.all (!isQuote ·) = true := by
    decide
  have hfree : ∀ {keyword : String} {rest : List Char}, keyword ∈ ["from", "import", "require"] →
      (∀ c ∈ rest, isBlank c = true ∨ c = '(') → ∀ c ∈ keyword.toList ++ rest, isQuote c = false := by
    intro keyword rest hmem hrest c hc
    rcases List.mem_append.mp hc with hc | hc
    · exact unquoted_of_all (hkeyword keyword hmem) c hc
    · rcases hrest c hc with hblank | rfl
      · exact isQuote_of_isBlank hblank
      · decide
  cases h with
  | source h => exact hfree (by simp) fun c hc => .inl (h c hc)
  | statement h hparen h' =>
    refine hfree (by simp) fun c hc => ?_
    rcases List.mem_append.mp hc with hc | hc
    · exact .inl (h c hc)
    · rcases List.mem_append.mp hc with hc | hc
      · rcases hparen with rfl | rfl
        · cases hc
        · exact .inr (List.mem_singleton.mp hc)
      · exact .inl (h' c hc)
  | call h h' =>
    refine hfree (by simp) fun c hc => ?_
    rcases List.mem_append.mp hc with hc | hc
    · exact .inl (h c hc)
    · rcases List.mem_append.mp hc with hc | hc
      · exact .inr (List.mem_singleton.mp hc)
      · exact .inl (h' c hc)

/-- What the first part of the pattern takes. -/
theorem matches_importWord (h : Matches importWord place found) :
    ∃ word, ImportWord word ∧ place.rest = word ++ found.after.rest := by
  cases h with
  | eitherLeft h =>
    cases h with
    | seq hedge h =>
      cases hedge
      cases h with
      | seq hword hspace =>
        obtain ⟨space, hrest, hblanks⟩ := matches_run hspace
        refine ⟨_, .source hblanks, ?_⟩
        rw [matches_literal hword, hrest, List.append_assoc]
  | eitherRight h =>
    cases h with
    | eitherLeft h =>
      cases h with
      | seq hedge h =>
        cases hedge
        cases h with
        | seq hword h =>
          cases h with
          | seq hspace h =>
            obtain ⟨space, hrest, hblanks⟩ := matches_run hspace
            cases h with
            | @seq _ _ _ a b hparen hspace' =>
              obtain ⟨space', hrest', hblanks'⟩ := matches_run hspace'
              obtain ⟨paren, hcases, hparen⟩ : ∃ paren, (paren = [] ∨ paren = ['(']) ∧ _ = paren ++ a.after.rest := by
                cases hparen with
                | eitherLeft h => exact ⟨['('], .inr rfl, matches_char h⟩
                | eitherRight h =>
                  cases h
                  exact ⟨[], .inl rfl, rfl⟩
              refine ⟨_, .statement hblanks hcases hblanks', ?_⟩
              rw [matches_literal hword, hrest, hparen, hrest']
              simp only [List.append_assoc]
    | eitherRight h =>
      cases h with
      | seq hedge h =>
        cases hedge
        cases h with
        | seq hword h =>
          cases h with
          | seq hspace h =>
            obtain ⟨space, hrest, hblanks⟩ := matches_run hspace
            cases h with
            | seq hparen hspace' =>
              obtain ⟨space', hrest', hblanks'⟩ := matches_run hspace'
              refine ⟨_, .call hblanks hblanks', ?_⟩
              rw [matches_literal hword, hrest, matches_char hparen, hrest']
              simp only [List.append_assoc, List.cons_append, List.nil_append]

/-- The pattern takes a word, and the specifier between quotation marks on one line, which it keeps. -/
theorem matches_importSpecifier (h : Matches importSpecifier place found) :
    ∃ word mark specifier mark', place.rest = word ++ mark :: (specifier ++ mark' :: found.after.rest) ∧
      ImportWord word ∧ isQuote mark = true ∧ isQuote mark' = true ∧
      (∀ c ∈ specifier, isSpecifier c = true) ∧ found.kept = [specifier] := by
  rw [importSpecifier_eq] at h
  cases h with
  | @seq _ _ _ a b ha hb =>
    obtain ⟨word, himport, hword⟩ := matches_importWord ha
    cases hb with
    | @seq _ _ _ a' b' hmark hb =>
      obtain ⟨mark, hisMark, hmarkRest, hmarkKept, -⟩ := matches_one hmark
      cases hb with
      | @seq _ _ _ d e hspecifier hmark' =>
        obtain ⟨mark', hisMark', hmarkRest', hmarkKept', -⟩ := matches_one hmark'
        cases hspecifier with
        | @keep _ _ f hrun =>
          obtain ⟨specifier, -, hrest, hall⟩ := matches_run1 hrun
          have hkept : a.kept ++ (a'.kept ++ (f.kept ++ [between a'.after f.after] ++ e.kept)) =
              [specifier] := by
            rw [kept_of_matches ha rfl, hmarkKept, kept_of_matches hrun rfl, hmarkKept',
              between_eq hrest]
            rfl
          refine ⟨word, mark, specifier, mark', ?_, himport, hisMark, hisMark', hall, hkept⟩
          rw [hword, hmarkRest, hrest, hmarkRest']

theorem takes_importSpecifier : importSpecifier.Takes := by
  intro place found h
  obtain ⟨word, mark, specifier, mark', htext, -⟩ := matches_importSpecifier h
  rw [htext]
  simp only [List.length_append, List.length_cons]
  omega

/-- The words of imports with what stands between them and the specifier. -/
def importWords : List (List Char) := ["from ".toList, "import ".toList, "require(".toList]

theorem exists_matches_importWord {word : List Char} (hword : word ∈ importWords)
    {before : Option Char} (hbefore : ∀ c ∈ before, isWord c = false) (rest : List Char) :
    ∃ before', Matches importWord ⟨before, word ++ rest⟩ ⟨[], ⟨before', rest⟩⟩ := by
  have hedge : ∀ {c more}, isWord c = true →
      Matches edge ⟨before, c :: more⟩ ⟨[], ⟨before, c :: more⟩⟩ := by
    intro c more hc
    have hnone : before.any isWord = false := by
      cases before with
      | none => rfl
      | some d => exact hbefore d rfl
    exact .edge (by simp [atEdge, hnone, hc])
  have hspace : ∀ c ∈ [' '], isBlank c = true := List.forall_mem_singleton.mpr (by decide)
  have hnone : ∀ before more, Matches blanks ⟨before, more⟩ ⟨[], ⟨before, more⟩⟩ :=
    fun before more => .runStop _ _
  simp only [importWords, List.mem_cons, List.not_mem_nil, or_false] at hword
  rcases hword with rfl | rfl | rfl
  · obtain ⟨before₁, hfrom⟩ := exists_matches_literal "from".toList before (' ' :: rest)
    obtain ⟨before₂, hblanks⟩ := exists_matches_run hspace before₁ rest
    exact ⟨before₂, .eitherLeft (.seq (hedge (by decide)) (.seq hfrom hblanks))⟩
  · obtain ⟨before₁, himport⟩ := exists_matches_literal "import".toList before (' ' :: rest)
    obtain ⟨before₂, hblanks⟩ := exists_matches_run hspace before₁ rest
    have hrest : Matches (seq (optional (char '(')) blanks) ⟨before₂, rest⟩ ⟨[], ⟨before₂, rest⟩⟩ :=
      .seq (.eitherRight (.empty _)) (hnone before₂ rest)
    exact ⟨before₂, .eitherRight (.eitherLeft
      (.seq (hedge (by decide)) (.seq himport (.seq hblanks hrest))))⟩
  · obtain ⟨before₁, hrequire⟩ := exists_matches_literal "require".toList before ('(' :: rest)
    have hparen : Matches (seq (char '(') blanks) ⟨before₁, '(' :: rest⟩ ⟨[], ⟨some '(', rest⟩⟩ :=
      .seq (.one before₁ rest (by decide)) (hnone (some '(') rest)
    exact ⟨some '(', .eitherRight (.eitherRight
      (.seq (hedge (by decide)) (.seq hrequire (.seq (hnone before₁ _) hparen))))⟩

theorem exists_matches_importSpecifier {word specifier : List Char} {mark mark' : Char}
    (hword : word ∈ importWords) {before : Option Char} (hbefore : ∀ c ∈ before, isWord c = false)
    (hmark : isQuote mark = true) (hmark' : isQuote mark' = true) (hne : specifier ≠ [])
    (hspecifier : ∀ c ∈ specifier, isSpecifier c = true) (rest : List Char) :
    ∃ found, Matches importSpecifier ⟨before, word ++ mark :: (specifier ++ mark' :: rest)⟩ found := by
  obtain ⟨before₁, hhead⟩ := exists_matches_importWord hword hbefore
    (mark :: (specifier ++ mark' :: rest))
  obtain ⟨c, more, rfl⟩ := List.exists_cons_of_ne_nil hne
  obtain ⟨hc, hmore⟩ := List.forall_mem_cons.mp hspecifier
  obtain ⟨before₂, hrun⟩ := exists_matches_run hmore (some c) (mark' :: rest)
  have hkeep : Matches (keep (run1 isSpecifier)) ⟨some mark, c :: (more ++ mark' :: rest)⟩ _ :=
    .keep (.seq (.one (some mark) (more ++ mark' :: rest) hc) hrun)
  exact ⟨_, .seq hhead (.seq (.one before₁ _ hmark) (.seq hkeep (.one before₂ rest hmark')))⟩

/-! ## Lines with an import -/

theorem isQuote_newline : isQuote '\n' = false := by decide

/-- Behind a quotation mark before the last line of a text there is a newline. -/
theorem exists_newline_of_mark {above opening front more : List Char} {mark : Char}
    (habove : ∀ c ∈ above.getLast?, c = '\n') (hopening : ∀ c ∈ opening, isQuote c = false)
    (hmark : isQuote mark = true) (h : above ++ opening = front ++ mark :: more) :
    ∃ between, more = between ++ opening ∧ '\n' ∈ between := by
  have hout : mark ∉ opening := fun hmem => by
    rw [hopening mark hmem] at hmark
    cases hmark
  rcases List.append_eq_append_iff.mp h with ⟨part, -, hline⟩ | ⟨part, hfront, hmore⟩
  · exact absurd (by rw [hline]; simp) hout
  · rcases List.cons_eq_append_iff.mp hmore with ⟨rfl, hline⟩ | ⟨between, rfl, hbetween⟩
    · exact absurd (by rw [hline]; exact List.mem_cons_self ..) hout
    · refine ⟨between, hbetween, ?_⟩
      rw [hfront, List.getLast?_append_of_ne_nil _ (List.cons_ne_nil _ _), List.getLast?_cons] at habove
      cases hlast : between.getLast? with
      | none =>
        rw [hlast] at habove
        rw [habove mark rfl, isQuote_newline] at hmark
        cases hmark
      | some c =>
        rw [hlast] at habove
        rw [← habove c rfl]
        exact List.mem_of_getLast? hlast

section Line

variable {above opening word specifier rest : List Char} {mark : Char}

/-- A match that goes on across the word of an import keeps the specifier of the import. -/
theorem kept_of_covering {front more : List Char} (habove : ∀ c ∈ above.getLast?, c = '\n')
    (hopening : ∀ c ∈ opening, isQuote c = false) (hword : word ∈ importWords)
    (hmark : isQuote mark = true) (hspecifier : ∀ c ∈ specifier, isSpecifier c = true)
    (hfront : above ++ opening = front ++ more) {before : Option Char}
    (h : Matches importSpecifier
      ⟨before, more ++ (word ++ mark :: (specifier ++ mark :: rest))⟩ found)
    (hover : found.after.rest.length < (word ++ mark :: (specifier ++ mark :: rest)).length) :
    found.kept = [specifier] := by
  obtain ⟨word', mark', specifier', mark'', htext, himport, hmark', hmark'', hspecifier', hkept⟩ :=
    matches_importSpecifier h
  have hword' := himport.unquoted
  have hfree : ∀ {s : List Char}, (∀ c ∈ s, isSpecifier c = true) → ∀ c ∈ s, isQuote c = false :=
    fun hs c hc => (isSpecifier_iff.mp (hs c hc)).1
  have hwordFree : ∀ c ∈ word, isQuote c = false := by
    have hall : ∀ w ∈ importWords, w.all (!isQuote ·) = true := by decide
    exact unquoted_of_all (hall word hword)
  rw [hkept]
  cases hfind : more.find? isQuote with
  | none =>
    -- the first quotation mark from the match on is the one before the specifier
    have hmoreFree : ∀ c ∈ more ++ word, isQuote c = false := fun c hc =>
      (List.mem_append.mp hc).elim (fun hc => by simpa using List.find?_eq_none.mp hfind c hc)
        (hwordFree c)
    rw [← List.append_assoc] at htext
    obtain ⟨-, -, hrest⟩ := Text.append_cons_unique hmoreFree hmark hword' hmark' htext
    obtain ⟨rfl, -, -⟩ := Text.append_cons_unique (hfree hspecifier) hmark (hfree hspecifier') hmark'' hrest
    rfl
  | some first =>
    -- it is on a line above, and so is the one behind it
    obtain ⟨hfirst, front', more', rfl, hfront'⟩ := List.find?_eq_some_iff_append.mp hfind
    exfalso
    rw [← List.append_assoc] at hfront
    obtain ⟨between, rfl, hnewline⟩ := exists_newline_of_mark habove hopening hfirst hfront
    rw [List.append_assoc, List.cons_append] at htext
    obtain ⟨-, -, hrest⟩ := Text.append_cons_unique (fun c hc => by simpa using hfront' c hc) hfirst hword'
      hmark' htext
    rw [List.append_assoc, List.append_cons specifier'] at hrest
    rcases List.append_eq_append_iff.mp hrest with ⟨part, hclosed, -⟩ | ⟨part, -, hafter⟩
    · have hmem : '\n' ∈ specifier' ++ [mark''] := by
        rw [hclosed]
        exact List.mem_append_left _ hnewline
      rcases List.mem_append.mp hmem with hmem | hmem
      · exact (isSpecifier_iff.mp (hspecifier' _ hmem)).2 rfl
      · rw [← List.mem_singleton.mp hmem, isQuote_newline] at hmark''
        cases hmark''
    · rw [hafter] at hover
      simp only [List.length_append] at hover
      omega

/-- The specifier of an import is kept, if the quotation marks around it are the first ones on the
line, and the word before it does not go on from another one. -/
theorem exists_found_specifier (habove : ∀ c ∈ above.getLast?, c = '\n')
    (hopening : ∀ c ∈ opening, isQuote c = false) (hlast : ∀ c ∈ opening.getLast?, isWord c = false)
    (hword : word ∈ importWords) (hmark : isQuote mark = true) (hne : specifier ≠ [])
    (hspecifier : ∀ c ∈ specifier, isSpecifier c = true) (rest : List Char) :
    ∃ found ∈ importSpecifier.all
        (above ++ opening ++ (word ++ mark :: (specifier ++ mark :: rest))),
      found.kept = [specifier] := by
  have hbefore : ∀ c ∈ (above ++ opening).getLast?.or none, isWord c = false := by
    intro c hc
    rw [Option.or_none, List.getLast?_append] at hc
    rcases Option.or_eq_some_iff.mp hc with hc | ⟨-, hc⟩
    · exact hlast c hc
    · rw [habove c hc]
      decide
  obtain ⟨found, hmatch⟩ := exists_matches_importSpecifier hword hbefore hmark hmark hne hspecifier rest
  obtain ⟨front, more, first, hfront, hmem, hfirst, hover⟩ := exists_covering takes_importSpecifier hmatch
  exact ⟨first, hmem, kept_of_covering habove hopening hword hmark hspecifier hfront hfirst hover⟩

end Line

end Checkup.Pattern
