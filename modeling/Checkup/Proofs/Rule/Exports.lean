import Mathlib.Data.List.Sigma
import Checkup.Proofs.Pattern.Kept
import Checkup.Proofs.Text.Words
import Checkup.Rule.DeadCode

/-!
# Exports that are found twice

The patterns for exports look for different keywords, so two of them can only find the same name in a
line if it stands there twice. Then the name is used, and the export is not reported. So is a name that
is exported on two lines, or in two files.

* `Declares`: what a pattern says about the text before the name that it keeps.
* `two_le_count`: a name that two patterns find in a line is there twice.
* `stands_of_mem`: where an export stands.
* `unused_apart`: no two unused exports have one name.
-/

namespace Checkup

namespace Pattern

open Text (isWord isBlank)

variable {p q : Pattern} {place : Cursor} {found : Found}

/-! ## Names behind keywords -/

/-- Whenever the pattern matches, it keeps a name up to its end. Before it stand blanks, and before
these a text of which something is known. -/
def Declares (lead : List Char → Prop) (p : Pattern) : Prop :=
  ∀ place found, p.matchAt? place = some found → ∃ before blanks name rest,
    found.kept = [name] ∧ place.rest = before ++ (blanks ++ (name ++ rest)) ∧ lead before ∧
      blanks ≠ [] ∧ (∀ c ∈ blanks, isBlank c = true) ∧ name ≠ [] ∧
      (∀ c ∈ name, isWord c = true) ∧ ∀ c ∈ rest.head?, isWord c = false

/-- The pattern only matches some texts, and keeps nothing. -/
def Reads (texts : List Char → Prop) (p : Pattern) : Prop :=
  p.keepsNothing = true ∧ ∀ place found, Matches p place found →
    ∃ part, texts part ∧ place.rest = part ++ found.after.rest

theorem reads_any (hp : p.keepsNothing = true) : Reads (fun _ => True) p := by
  refine ⟨hp, fun place found h => ?_⟩
  obtain ⟨part, heq⟩ := consumes_of_matches h
  exact ⟨part, trivial, heq.symm⟩

theorem reads_text (s : String) : Reads (· = s.toList) (text s) :=
  ⟨keepsNothing_literal _, fun _ _ h => ⟨s.toList, rfl, matches_literal h⟩⟩

theorem Reads.either {texts : List Char → Prop} (hp : Reads texts p) (hq : Reads texts q) :
    Reads texts (either p q) := by
  refine ⟨?_, fun place found h => ?_⟩
  · simp only [keepsNothing, hp.1, hq.1, Bool.and_self]
  · cases h with
    | eitherLeft h => exact hp.2 place found h
    | eitherRight h => exact hq.2 place found h

theorem Reads.mono {texts texts' : List Char → Prop} (h : Reads texts p)
    (himp : ∀ s, texts s → texts' s) : Reads texts' p := by
  refine ⟨h.1, fun place found hm => ?_⟩
  obtain ⟨part, hpart, heq⟩ := h.2 place found hm
  exact ⟨part, himp part hpart, heq⟩

theorem declares_name : Declares (· = []) (seq blanks1 (keep word)) := by
  intro place found h
  obtain ⟨first, second, hfirst, hsecond, rfl⟩ := matchAt?_seq h
  obtain ⟨blanks, hne, hblanks, hall⟩ := matches_run1 hfirst
  obtain ⟨name, rest, hkept, heq, hname, hword, hrest⟩ := matchAt?_keep_word hsecond
  refine ⟨[], blanks, name, rest, ?_, ?_, rfl, hne, hall, hname, hword, hrest⟩
  · simp [Found.andThen, hkept, kept_of_matches hfirst rfl]
  · rw [hblanks, heq, List.nil_append]

theorem Declares.seq {lead lead' texts : List Char → Prop} (h : Declares lead q)
    (hp : Reads texts p) (hlead : ∀ part before, texts part → lead before → lead' (part ++ before)) :
    Declares lead' (seq p q) := by
  intro place found hm
  obtain ⟨first, second, hfirst, hsecond, rfl⟩ := matchAt?_seq hm
  obtain ⟨part, hpart, heq⟩ := hp.2 place first hfirst
  obtain ⟨before, blanks, name, rest, hkept, hafter, hbefore, hrest⟩ := h _ _ hsecond
  refine ⟨part ++ before, blanks, name, rest, ?_, ?_, hlead part before hpart hbefore, hrest⟩
  · simp [Found.andThen, hkept, kept_of_matches hfirst hp.1]
  · rw [heq, hafter, List.append_assoc]

/-- The text ends in one of some keywords. -/
def EndsInKeyword (keywords : List String) (text : List Char) : Prop :=
  ∃ keyword ∈ keywords, keyword.toList <:+ text

theorem Declares.behind {keywords : List String} (h : Declares (EndsInKeyword keywords) q)
    (hp : p.keepsNothing = true) : Declares (EndsInKeyword keywords) (.seq p q) := by
  refine h.seq (reads_any hp) ?_
  rintro part before - ⟨keyword, hmem, hsuffix⟩
  exact ⟨keyword, hmem, hsuffix.trans (List.suffix_append part before)⟩

/-- The keywords of the declarations, one list for each pattern. -/
def keywords : List (List String) :=
  [["function", "function*"], ["const", "let", "var"], ["class"], ["interface", "type", "enum"]]

theorem declares_texts {texts : List String}
    (h : Reads (fun s => s ∈ texts.map String.toList) p) :
    Declares (EndsInKeyword texts) (.seq p (.seq blanks1 (keep word))) := by
  refine declares_name.seq h ?_
  rintro part before hpart rfl
  obtain ⟨keyword, hmem, rfl⟩ := List.mem_map.mp hpart
  exact ⟨keyword, hmem, by simp⟩

theorem declares_function : Declares (EndsInKeyword ["function", "function*"])
    (.seq (text "function") (.seq (optional (char '*')) (.seq blanks1 (keep word)))) := by
  have hstar : Reads (fun s => s = [] ∨ s = ['*']) (optional (char '*')) := by
    refine Reads.either ((reads_text "*").mono fun s hs => .inr hs) ?_
    refine ⟨rfl, fun place found h => ?_⟩
    cases h
    exact ⟨[], .inl rfl, rfl⟩
  have hafter : Declares (fun s => s = [] ∨ s = ['*'])
      (.seq (optional (char '*')) (.seq blanks1 (keep word))) := by
    refine declares_name.seq hstar ?_
    rintro part before hpart rfl
    rwa [List.append_nil]
  refine hafter.seq (reads_text "function") ?_
  rintro part before rfl (rfl | rfl)
  · exact ⟨"function", by simp, by simp⟩
  · exact ⟨"function*", by simp, by decide⟩

/-- The patterns for exports with their keywords. -/
def declarations : List (List String × Pattern) := keywords.zip exportDeclarations

/-- Every pattern for exports keeps a name behind one of its keywords. -/
theorem declares_exports : ∀ d ∈ declarations, Declares (EndsInKeyword d.1) d.2 := by
  have hconst : Reads (fun s => s ∈ ["const", "let", "var"].map String.toList)
      (anyText ["const", "let", "var"]) := by
    refine .either ((reads_text "const").mono ?_) (.either ((reads_text "let").mono ?_)
      ((reads_text "var").mono ?_)) <;> simp
  have htype : Reads (fun s => s ∈ ["interface", "type", "enum"].map String.toList)
      (anyText ["interface", "type", "enum"]) := by
    refine .either ((reads_text "interface").mono ?_) (.either ((reads_text "type").mono ?_)
      ((reads_text "enum").mono ?_)) <;> simp
  have hclass : Reads (fun s => s ∈ ["class"].map String.toList) (text "class") :=
    (reads_text "class").mono (by simp)
  simp only [declarations, keywords, exportDeclarations, List.zip_cons_cons, List.zip_nil_right,
    List.forall_mem_cons]
  refine ⟨?_, ?_, ?_, ?_, fun d hd => absurd hd List.not_mem_nil⟩
  · exact ((declares_function.behind rfl).behind rfl).behind rfl
  · exact ((declares_texts hconst).behind rfl).behind rfl
  · exact (((declares_texts hclass).behind rfl).behind rfl).behind rfl
  · exact ((declares_texts htype).behind rfl).behind rfl

/-! ## A name that is found twice -/

/-- The name stands in the line as a whole word, behind one of some keywords and blanks. -/
def NamedBehind (words : List String) (name line : List Char) : Prop :=
  ∃ before blanks rest, line = before ++ blanks ++ (name ++ rest) ∧ EndsInKeyword words before ∧
    blanks ≠ [] ∧ (∀ c ∈ blanks, isBlank c = true) ∧ name ≠ [] ∧
    (∀ c ∈ name, isWord c = true) ∧ ∀ c ∈ rest.head?, isWord c = false

theorem matchAt?_of_searchFrom? {before : Option Char} {text : List Char}
    (h : p.searchFrom? before text = some found) :
    ∃ place : Cursor, place.rest <:+ text ∧ p.matchAt? place = some found := by
  induction text generalizing before with
  | nil => exact ⟨⟨before, []⟩, List.suffix_refl _, h⟩
  | cons c rest ih =>
    rw [searchFrom?] at h
    split at h
    · rename_i heq
      exact ⟨⟨before, c :: rest⟩, List.suffix_refl _, heq.trans h⟩
    · obtain ⟨place, hplace, hm⟩ := ih h
      exact ⟨place, hplace.trans (List.suffix_cons c rest), hm⟩

theorem namedBehind_of_firstKept? {words : List String} (h : Declares (EndsInKeyword words) p)
    {line name : List Char} (hname : p.firstKept? line = some name) :
    NamedBehind words name line := by
  obtain ⟨found, hsearch, hhead⟩ := Option.bind_eq_some_iff.mp hname
  obtain ⟨place, ⟨front, rfl⟩, hmatch⟩ := matchAt?_of_searchFrom? hsearch
  obtain ⟨before, blanks, name', rest, hkept, heq, hlead, hrest⟩ := h place found hmatch
  obtain rfl : name' = name := by simpa [hkept] using hhead
  obtain ⟨keyword, hmem, hsuffix⟩ := hlead
  refine ⟨front ++ before, blanks, rest, ?_, ?_, hrest⟩
  · simp [heq]
  · exact ⟨keyword, hmem, hsuffix.trans (List.suffix_append front before)⟩

/-- The keywords of one pattern and of another: no keyword of the one ends in one of the other. -/
def Unlike (words words' : List String) : Prop :=
  ∀ w ∈ words, ∀ w' ∈ words', ¬ w.toList <:+ w'.toList ∧ ¬ w'.toList <:+ w.toList

/-- No keyword ends in a blank. -/
def Solid (words : List String) : Prop :=
  ∀ w ∈ words, w.toList.getLast?.any (fun c => !isBlank c) = true

theorem unlike_keywords : keywords.Pairwise Unlike := by
  unfold keywords Unlike
  decide

theorem solid_keywords : ∀ words ∈ keywords, Solid words := by
  unfold keywords Solid
  decide

theorem getLast?_of_endsInKeyword {words : List String} (hsolid : Solid words) {text : List Char}
    (h : EndsInKeyword words text) : ∀ c ∈ text.getLast?, isBlank c = false := by
  obtain ⟨keyword, hmem, front, rfl⟩ := h
  have hany := hsolid keyword hmem
  intro c hc
  cases hlast : keyword.toList.getLast? with
  | none => simp [hlast] at hany
  | some d =>
    rw [List.getLast?_append, hlast] at hc
    cases hc
    simpa [hlast] using hany

/-- The same place does not stand behind the keywords of two patterns. -/
theorem no_clash {words words' : List String} (hsolid : Solid words) (hsolid' : Solid words')
    (hunlike : Unlike words words') {before before' blanks blanks' : List Char}
    (h : EndsInKeyword words before) (h' : EndsInKeyword words' before')
    (hblanks : ∀ c ∈ blanks, isBlank c = true) (hblanks' : ∀ c ∈ blanks', isBlank c = true) :
    before ++ blanks ≠ before' ++ blanks' := by
  intro heq
  obtain ⟨hsame, -⟩ := Text.append_blanks_unique (getLast?_of_endsInKeyword hsolid h)
    (getLast?_of_endsInKeyword hsolid' h') hblanks hblanks' heq
  subst hsame
  obtain ⟨w, hw, hsuffix⟩ := h
  obtain ⟨w', hw', hsuffix'⟩ := h'
  rcases List.suffix_or_suffix_of_suffix hsuffix hsuffix' with hs | hs
  · exact (hunlike w hw w' hw').1 hs
  · exact (hunlike w hw w' hw').2 hs

/-- A word that stands at two places is counted twice. -/
theorem two_le_count_of_later {name front mid rest rest' : List Char} (hne : name ≠ [])
    (hword : ∀ c ∈ name, isWord c = true) (hfront : ∀ c ∈ front.getLast?, isWord c = false)
    (hmid : ∃ c, mid.getLast? = some c ∧ isWord c = false)
    (hrest : ∀ c ∈ rest.head?, isWord c = false) (hrest' : ∀ c ∈ rest'.head?, isWord c = false)
    (heq : name ++ rest = mid ++ (name ++ rest')) :
    2 ≤ (wordsOf (front ++ (name ++ rest))).count name := by
  obtain ⟨c, hlast, hc⟩ := hmid
  rcases List.append_eq_append_iff.mp heq with ⟨between, rfl, rfl⟩ | ⟨more, rfl, -⟩
  · have hbetween : ∀ d ∈ between.getLast?, isWord d = false := by
      intro d hd
      rw [List.getLast?_append, hd, Option.some_or] at hlast
      rwa [Option.some.inj hlast]
    rw [wordsOf_append (.inl hfront), wordsOf_append (.inr hrest), wordsOf_append (.inl hbetween),
      wordsOf_append (.inr hrest'), wordsOf_word hne hword]
    simp only [List.count_append, List.count_singleton_self]
    omega
  · have hmem : c ∈ mid := List.mem_of_getLast? hlast
    have htrue := hword c (List.mem_append_left more hmem)
    rw [hc] at htrue
    cases htrue

/-- A name that two patterns find in a line is there twice. -/
theorem two_le_count {words words' : List String} (hsolid : Solid words) (hsolid' : Solid words')
    (hunlike : Unlike words words') {name line : List Char} (h : NamedBehind words name line)
    (h' : NamedBehind words' name line) : 2 ≤ (wordsOf line).count name := by
  obtain ⟨before, blanks, rest, rfl, hbefore, hne, hblanks, hname, hword, hrest⟩ := h
  obtain ⟨before', blanks', rest', heq, hbefore', hne', hblanks', -, -, hrest'⟩ := h'
  have hlast : ∀ {s blanks : List Char}, blanks ≠ [] → (∀ c ∈ blanks, isBlank c = true) →
      ∃ c, (s ++ blanks).getLast? = some c ∧ isWord c = false := by
    intro s blanks hne hall
    refine ⟨blanks.getLast hne, ?_, Text.not_isWord_of_isBlank (hall _ (List.getLast_mem hne))⟩
    rw [List.getLast?_append, List.getLast?_eq_some_getLast hne, Option.some_or]
  have hstop : ∀ {s : List Char}, (∃ c, s.getLast? = some c ∧ isWord c = false) →
      ∀ c ∈ s.getLast?, isWord c = false := by
    rintro s ⟨d, hd, hword⟩ c hc
    rw [hd] at hc
    rwa [← Option.some.inj hc]
  have hmid : ∀ {s mid : List Char}, mid ≠ [] → (∃ c, (s ++ mid).getLast? = some c ∧
      isWord c = false) → ∃ c, mid.getLast? = some c ∧ isWord c = false := by
    intro s mid hne hs
    rwa [List.getLast?_append_of_ne_nil _ hne] at hs
  have hplaces := no_clash hsolid hsolid' hunlike hbefore hbefore' hblanks hblanks'
  rcases List.append_eq_append_iff.mp heq with ⟨mid, hfront, hback⟩ | ⟨mid, hfront, hback⟩
  · refine two_le_count_of_later hname hword (hstop (hlast hne hblanks)) ?_ hrest hrest' hback
    refine hmid (s := before ++ blanks) ?_ (hfront ▸ hlast hne' hblanks')
    rintro rfl
    exact hplaces (by simpa using hfront.symm)
  · rw [heq]
    refine two_le_count_of_later hname hword (hstop (hlast hne' hblanks')) ?_ hrest' hrest hback
    refine hmid (s := before' ++ blanks') ?_ (hfront ▸ hlast hne hblanks)
    rintro rfl
    exact hplaces (by simpa using hfront)

/-- What two patterns for exports find in a line is the same only if it is there twice. -/
theorem exports_apart (line : List Char) : exportDeclarations.Pairwise fun p p' => ∀ name,
    p.firstKept? line = some name → p'.firstKept? line = some name →
      2 ≤ (wordsOf line).count name := by
  have hunlike : declarations.Pairwise fun d d' => Unlike d.1 d'.1 :=
    List.pairwise_map.mp unlike_keywords
  have hsolid : ∀ d ∈ declarations, Solid d.1 := fun d hd =>
    solid_keywords d.1 (List.of_mem_zip hd).1
  have hall : declarations.Pairwise fun d d' => ∀ name, d.2.firstKept? line = some name →
      d'.2.firstKept? line = some name → 2 ≤ (wordsOf line).count name := by
    refine hunlike.imp_of_mem fun {d d'} hd hd' hu name hname hname' => ?_
    exact two_le_count (hsolid d hd) (hsolid d' hd') hu
      (namedBehind_of_firstKept? (declares_exports d hd) hname)
      (namedBehind_of_firstKept? (declares_exports d' hd') hname')
  have hpatterns : exportDeclarations = declarations.map Prod.snd := rfl
  rw [hpatterns, List.pairwise_map]
  exact hall

theorem firstKept?_names {p : Pattern} (hp : p ∈ exportDeclarations) {line name : List Char}
    (h : p.firstKept? line = some name) : ∃ words, NamedBehind words name line := by
  have hpatterns : exportDeclarations = declarations.map Prod.snd := rfl
  rw [hpatterns] at hp
  obtain ⟨d, hd, rfl⟩ := List.mem_map.mp hp
  exact ⟨d.1, namedBehind_of_firstKept? (declares_exports d hd) h⟩

/-- A name that a pattern for exports finds in a line is one of its words. -/
theorem one_le_count {words : List String} {name line : List Char} (h : NamedBehind words name line) :
    1 ≤ (wordsOf line).count name := by
  obtain ⟨before, blanks, rest, rfl, -, hne, hblanks, hname, hword, hrest⟩ := h
  have hlast : ∀ c ∈ (before ++ blanks).getLast?, isWord c = false := by
    intro c hc
    rw [List.getLast?_append_of_ne_nil _ hne] at hc
    exact Text.not_isWord_of_isBlank (hblanks c (List.mem_of_getLast? hc))
  rw [wordsOf_append (.inl hlast), wordsOf_append (.inr hrest), wordsOf_word hname hword]
  simp only [List.count_append, List.count_singleton_self]
  omega

end Pattern

namespace Text

/-- No two lines have the same number. -/
theorem numbers_apart (text : List Char) : (numberedLines text).Pairwise fun a b => a.1 ≠ b.1 := by
  unfold numberedLines
  have hindices := List.nodup_zipIdx_map_snd (splitLines text)
  refine List.pairwise_map.mpr ((List.pairwise_map.mp hindices).imp fun hne heq => hne ?_)
  simpa using heq

theorem map_numberedLines (text : List Char) : (numberedLines text).map Prod.snd = splitLines text := by
  unfold numberedLines
  rw [List.map_map]
  exact List.zipIdx_map_fst 0 (splitLines text)

theorem mem_numberedLines {text line : List Char} {number : Nat} :
    (number, line) ∈ numberedLines text ↔ ∃ i, (splitLines text)[i]? = some line ∧ number = i + 1 := by
  unfold numberedLines
  constructor
  · intro h
    obtain ⟨⟨line', i⟩, hmem, heq⟩ := List.mem_map.mp h
    cases heq
    exact ⟨i, List.mem_zipIdx_iff_getElem?.mp hmem, rfl⟩
  · rintro ⟨i, hi, rfl⟩
    exact List.mem_map.mpr ⟨(line, i), List.mem_zipIdx_iff_getElem?.mpr hi, rfl⟩

end Text

/-- What is counted in two parts is counted in the whole. -/
theorem count_add_le {α β : Type} [BEq β] {a b : α} {l : List α} (h : [a, b].Sublist l)
    (part : α → List β) (x : β) :
    (part a).count x + (part b).count x ≤ (l.flatMap part).count x := by
  have hcount := (h.flatMap part).count_le x
  simpa only [List.flatMap_cons, List.flatMap_nil, List.append_nil, List.count_append] using hcount

namespace DeadCode.UnusedExports

open Pattern (wordsOf)

variable {files : List (String × String)} {e : Export}

/-- An export stands in its file on its line, where its name is a word. -/
structure Stands (e : Export) (file text : String) (line : List Char) : Prop where
  in_file : e.file = file
  on_line : ∃ i, (Text.splitLines text.toList)[i]? = some line ∧ e.line = i + 1
  named : ∃ words, Pattern.NamedBehind words e.name line

/-- The exports that are found in a line. -/
def exportsOn (file : String) (number : Nat) (line : List Char) : List Export :=
  Pattern.exportDeclarations.filterMap fun declaration =>
    (declaration.firstKept? line).map fun name => ⟨name, file, number⟩

theorem exportsIn_eq (file text : String) : exportsIn file text =
    (Text.numberedLines text.toList).flatMap fun l => exportsOn file l.1 l.2 := rfl

theorem mem_exportsOn {file : String} {number : Nat} {line : List Char}
    (h : e ∈ exportsOn file number line) : e.file = file ∧ e.line = number ∧
      ∃ words, Pattern.NamedBehind words e.name line := by
  obtain ⟨declaration, hmem, h⟩ := List.mem_filterMap.mp h
  obtain ⟨name, hname, rfl⟩ := Option.map_eq_some_iff.mp h
  exact ⟨rfl, rfl, Pattern.firstKept?_names hmem hname⟩

theorem stands_of_mem {file text : String} (h : e ∈ exportsIn file text) :
    ∃ line, Stands e file text line := by
  rw [exportsIn_eq] at h
  obtain ⟨⟨number, line⟩, hline, h⟩ := List.mem_flatMap.mp h
  obtain ⟨hfile, hnumber, hnamed⟩ := mem_exportsOn h
  obtain ⟨i, hi, rfl⟩ := Text.mem_numberedLines.mp hline
  exact ⟨line, hfile, ⟨i, hi, hnumber⟩, hnamed⟩

theorem Stands.line_mem {file text : String} {line : List Char} (h : Stands e file text line) :
    line ∈ Text.splitLines text.toList := by
  obtain ⟨i, hi, -⟩ := h.on_line
  exact List.mem_of_getElem? hi

theorem Stands.one_le_count {file text : String} {line : List Char} (h : Stands e file text line) :
    1 ≤ (wordsOf line).count e.name := by
  obtain ⟨words, hnamed⟩ := h.named
  exact Pattern.one_le_count hnamed

theorem one_le_count_of_mem {file text : String} (h : e ∈ exportsIn file text) :
    1 ≤ (wordsOf text.toList).count e.name := by
  obtain ⟨line, hstands⟩ := stands_of_mem h
  exact hstands.one_le_count.trans (Pattern.count_words_line hstands.line_mem e.name)

/-- Two exports of one name in a line are found by two patterns, and the name is there twice. -/
theorem exportsOn_apart (file : String) (number : Nat) (line : List Char) :
    (exportsOn file number line).Pairwise fun e e' =>
      e.name = e'.name → 2 ≤ (wordsOf line).count e.name := by
  refine List.pairwise_filterMap.mpr ?_
  refine (Pattern.exports_apart line).imp fun {p p'} hp e he e' he' heq => ?_
  obtain ⟨name, hname, rfl⟩ := Option.map_eq_some_iff.mp he
  obtain ⟨name', hname', rfl⟩ := Option.map_eq_some_iff.mp he'
  obtain rfl : name = name' := heq
  exact hp name hname hname'

/-- Two exports of one name in a file are two words of it. -/
theorem exportsIn_apart (file text : String) : (exportsIn file text).Pairwise fun e e' =>
    e.name = e'.name → 2 ≤ (wordsOf text.toList).count e.name := by
  rw [exportsIn_eq, List.pairwise_flatMap]
  refine ⟨?_, List.pairwise_iff_forall_sublist.mpr ?_⟩
  · rintro ⟨number, line⟩ hmem
    obtain ⟨i, hi, -⟩ := Text.mem_numberedLines.mp hmem
    have hline := List.mem_of_getElem? hi
    refine (exportsOn_apart file number line).imp fun {e e'} htwice heq => ?_
    exact (htwice heq).trans (Pattern.count_words_line hline e.name)
  · intro first second hpair e he e' he' heq
    obtain ⟨-, -, _, hnamed⟩ := mem_exportsOn he
    obtain ⟨-, -, _, hnamed'⟩ := mem_exportsOn he'
    have hcount := count_add_le (Text.map_numberedLines _ ▸ hpair.map Prod.snd) wordsOf e.name
    have hfirst := Pattern.one_le_count hnamed
    have hsecond := Pattern.one_le_count hnamed'
    rw [← Pattern.wordsOf_lines] at hcount
    rw [← heq] at hsecond
    omega

/-- The words of some files, counted for all exports at once. -/
def words (files : List (String × String)) : List (List Char) :=
  files.flatMap fun file => wordsOf file.2.toList

theorem count_le_words {file : String × String} (h : file ∈ files) (name : List Char) :
    (wordsOf file.2.toList).count name ≤ (words files).count name := by
  have hwords := (List.singleton_sublist.mpr h).flatMap fun file => wordsOf file.2.toList
  rw [List.flatMap_cons, List.flatMap_nil, List.append_nil] at hwords
  exact hwords.count_le name

theorem mem_unused_iff : e ∈ unused files ↔ (∃ file ∈ files, e ∈ exportsIn file.1 file.2) ∧
    isCounted e = true ∧ (words files).count e.name ≤ 1 := by
  simp [unused, words]

/-- No two unused exports have one name. -/
theorem unused_apart (files : List (String × String)) :
    (unused files).Pairwise fun e e' => e.name ≠ e'.name := by
  unfold unused
  rw [List.pairwise_filter, List.pairwise_flatMap]
  refine ⟨fun file hfile => ?_, List.pairwise_iff_forall_sublist.mpr ?_⟩
  · refine (exportsIn_apart file.1 file.2).imp fun {e e'} htwice hkept _ heq => ?_
    simp only [Bool.and_eq_true, decide_eq_true_eq] at hkept
    have hall : (words files).count e.name ≤ 1 := hkept.2
    have hfile := count_le_words hfile e.name
    have htext := htwice heq
    omega
  · intro first second hpair e he e' he' hkept _ heq
    simp only [Bool.and_eq_true, decide_eq_true_eq] at hkept
    have hall : (words files).count e.name ≤ 1 := hkept.2
    have hpair : _ ≤ (words files).count e.name :=
      count_add_le hpair (fun file => wordsOf file.2.toList) e.name
    have hfirst := one_le_count_of_mem he
    have hsecond := one_le_count_of_mem he'
    rw [← heq] at hsecond
    omega

/-- No unused export is found twice. -/
theorem nodup_unused (files : List (String × String)) : (unused files).Nodup :=
  (unused_apart files).imp fun hne heq => hne (congrArg Export.name heq)

end DeadCode.UnusedExports

end Checkup
