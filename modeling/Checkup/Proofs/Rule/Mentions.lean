import Checkup.Proofs.Pattern.WholeWord
import Checkup.Proofs.Rule.Distinct

/-!
# Exports that are mentioned once

The words of all texts are counted in one go, and an export is reported if its name is counted once.
That comes to the same as a search for the name, between word edges, in the texts one after another:
the name is found there once, and that is on the line where it is exported.

* `wordsOf_joined`: texts on lines of their own have the words of each.
* `MentionedOnce`: a name that is found once, and where.
* `check_counts`: what is said of unused exports.
-/

namespace Checkup

namespace Pattern

/-- The words of texts that are joined by newlines are the words of each. -/
theorem wordsOf_joined (texts : List String) : wordsOf (Text.joinWith "\n" texts).toList =
    texts.flatMap fun text => wordsOf text.toList := by
  have hnewline : Text.isWord '\n' = false := by decide
  induction texts with
  | nil => rfl
  | cons first rest ih =>
    cases rest with
    | nil => simp [Text.joinWith]
    | cons second more =>
      have hsplit : (Text.joinWith "\n" (first :: second :: more)).toList =
          first.toList ++ '\n' :: (Text.joinWith "\n" (second :: more)).toList := by
        simp [Text.joinWith]
      rw [hsplit, wordsOf_append_stop _ hnewline, ih]
      rfl

end Pattern

namespace DeadCode.UnusedExports

open Pattern (wordsOf wholeWord)

variable {c : Context} {t : Tree} {files : List (String × String)} {e : Export}

/-- The texts one after another, each on lines of its own. -/
def corpus (files : List (String × String)) : String := Text.joinWith "\n" (files.map Prod.snd)

/-- The source files of a scan root with their texts. -/
def scanned (c : Context) (t : Tree) : List (String × String) :=
  textsOf c t (c.findFiles t .sourceFiles)

theorem wordsOf_corpus (files : List (String × String)) :
    wordsOf (corpus files).toList = words files := by
  rw [corpus, Pattern.wordsOf_joined, words, List.flatMap_map]

/-- A name is found once as a whole word in all texts, and that is on a line of one of them, counted
from one. -/
structure MentionedOnce (files : List (String × String)) (name path : String) (number : Nat) :
    Prop where
  once : ((wholeWord name).all (corpus files).toList).length = 1
  there : ∃ text i line, (path, text) ∈ files ∧ number = i + 1 ∧
    (Text.splitLines text.toList)[i]? = some line ∧ ((wholeWord name).all line).length = 1

theorem mentionedOnce_of_unused (h : e ∈ unused files) :
    MentionedOnce files (String.ofList e.name) e.file e.line := by
  obtain ⟨⟨⟨path, text⟩, hfile, hexport⟩, -, hcount⟩ := mem_unused_iff.mp h
  obtain ⟨line, hstands⟩ := stands_of_mem hexport
  obtain ⟨keywords, before, blanks, rest, -, -, -, -, hne, hword, -⟩ := hstands.named
  have hchars : (String.ofList e.name).toList = e.name := String.toList_ofList
  have hname : String.ofList e.name ≠ "" := by
    intro hempty
    rw [hempty] at hchars
    exact hne hchars.symm
  -- the name is counted at least once on its line, and at most once in all texts
  have hline := hstands.one_le_count
  have htext : (wordsOf line).count e.name ≤ (wordsOf text.toList).count e.name :=
    Pattern.count_words_line hstands.line_mem e.name
  have hall : (wordsOf text.toList).count e.name ≤ (words files).count e.name :=
    count_le_words hfile e.name
  have hmatches : ∀ s : List Char,
      ((wholeWord (String.ofList e.name)).all s).length = (wordsOf s).count e.name := by
    intro s
    rw [Pattern.length_all_wholeWord hname (by rwa [hchars]), hchars]
  refine ⟨?_, text, ?_⟩
  · rw [hmatches, wordsOf_corpus]
    omega
  · obtain ⟨i, hi, hnumber⟩ := hstands.on_line
    refine ⟨i, line, hstands.in_file ▸ hfile, hnumber, hi, ?_⟩
    rw [hmatches]
    omega

/-- What is said of unused exports if it can be read whether the package is a library. -/
def reported (c : Context) (t : Tree) : List Finding :=
  if (c.readMembers? t Manifest.fileName).any isLibrary then [] else findings c t

/-- A manifest that is nested too deep is a fault of the check. -/
theorem check_eq (c : Context) (t : Tree) : check c t =
    if c.IsTooDeep t Manifest.fileName then .error (.file .tooDeep) else .ok (reported c t) := by
  rw [check, Rule.members_eq]
  split <;> rfl

theorem reported_of_many (h : maxFiles < (c.findFiles t .sourceFiles).length) : reported c t = [] := by
  simp [reported, findings, h]

/-- The findings are about the first unused exports, or there is none. -/
theorem reported_sublist (c : Context) (t : Tree) : (reported c t).Sublist
    (((unused (scanned c t)).take maxFindings).map fun e =>
      (info.finding e.file (message e.name)).atLine e.line) := by
  unfold reported
  split
  · exact List.nil_sublist _
  · unfold findings
    dsimp only
    split
    · exact List.nil_sublist _
    · exact List.Sublist.refl _

/-- What is said of unused exports. A search for words finds the words of the texts, and each name among
them as often as a search for the name as a whole word. So the name of a finding is found once, on the
line of the finding. No name is reported twice, and there are only so many findings, and none on too
many files. The check comes to them unless the manifest is nested too deep. -/
theorem check_counts (c : Context) (t : Tree) :
    (∀ texts : List String,
      ((Pattern.keep Pattern.word).all (Text.joinWith "\n" texts).toList).map Pattern.Found.kept =
        (texts.flatMap fun text => wordsOf text.toList).map (fun w => [w]) ∧
      ∀ name : String, name ≠ "" → (∀ ch ∈ name.toList, Text.isWord ch = true) →
        (texts.flatMap fun text => wordsOf text.toList).count name.toList =
          ((wholeWord name).all (Text.joinWith "\n" texts).toList).length) ∧
    check c t =
      (if c.IsTooDeep t Manifest.fileName then .error (.file .tooDeep) else .ok (reported c t)) ∧
    (∀ f ∈ reported c t, ∃ name number, f = (info.finding f.file (message name.toList)).atLine number ∧
      MentionedOnce (scanned c t) name f.file number) ∧
    ((reported c t).map Finding.message).Nodup ∧ (reported c t).length ≤ 15 ∧
    (300 < (c.findFiles t .sourceFiles).length → reported c t = []) := by
  refine ⟨fun texts => ⟨?_, fun name hne hword => ?_⟩, check_eq c t, fun f hf => ?_, ?_, ?_,
    reported_of_many⟩
  · rw [Pattern.kept_all_word, Pattern.wordsOf_joined]
  · rw [Pattern.length_all_wholeWord hne hword, Pattern.wordsOf_joined]
  · obtain ⟨e, he, rfl⟩ := List.mem_map.mp ((reported_sublist c t).subset hf)
    refine ⟨String.ofList e.name, e.line, ?_, mentionedOnce_of_unused (List.mem_of_mem_take he)⟩
    rw [String.toList_ofList]
    rfl
  · have hmessages : (((unused (scanned c t)).take maxFindings).map fun e => Label.text (message e.name)).Nodup := by
      rw [List.nodup_iff_pairwise_ne, List.pairwise_map]
      refine ((unused_apart _).sublist (List.take_sublist _ _)).imp ?_
      exact fun {e e'} hne heq => hne (message_inj (Label.text.inj heq))
    have hsublist := (reported_sublist c t).map Finding.message
    rw [List.map_map] at hsublist
    exact hsublist.nodup hmessages
  · have hlength := (reported_sublist c t).length_le
    rw [List.length_map, List.length_take] at hlength
    exact hlength.trans (Nat.min_le_left _ _)

end DeadCode.UnusedExports

end Checkup
