import Mathlib.Data.List.Flatten
import Checkup.Pattern.Code
import Checkup.Proofs.Text.Pieces
import Checkup.Text.Lines

/-!
# Words and lines

Cutting a text between words splits its words, so the words of a line are words of the text, each as
often.

* `Text.splitLines_eq_cons`: the first line of a text and the others.
* `Pattern.wordsOf_append`: the words of a text that is put together.
* `Pattern.wordsOf_lines`: the words of a text are those of its lines.
* `Pattern.count_words_line`: a word is in a text at least as often as in one of its lines.
-/

namespace Checkup

namespace Text

/-! ## Blanks are no word characters -/

theorem mem_range_of_inRanges {ranges : List (Nat × Nat)} {n : Nat} (h : inRanges ranges n = true) :
    n ∈ ranges.flatMap fun r => List.range' r.1 (r.2 + 1 - r.1) := by
  obtain ⟨r, hr, hn⟩ := List.any_eq_true.mp h
  simp only [Bool.and_eq_true, decide_eq_true_eq] at hn
  refine List.mem_flatMap.mpr ⟨r, hr, List.mem_range'_1.mpr ?_⟩
  omega

theorem not_isWord_of_inRanges {ranges : List (Nat × Nat)}
    (hranges : ∀ n ∈ ranges.flatMap fun r => List.range' r.1 (r.2 + 1 - r.1),
      isWord (Char.ofNat n) = false) {c : Char} (h : inRanges ranges c.toNat = true) :
    isWord c = false := by
  have hc := hranges _ (mem_range_of_inRanges h)
  rwa [Char.ofNat_toNat] at hc

theorem not_isWord_of_isBlank {c : Char} (h : isBlank c = true) : isWord c = false :=
  not_isWord_of_inRanges (by decide +kernel) h

theorem not_isWord_of_isLineBreak {c : Char} (h : isLineBreak c = true) : isWord c = false :=
  not_isWord_of_inRanges (by decide +kernel) h

/-! ## Lines -/

theorem eq_nil_of_splitLines {text : List Char} (h : splitLines text = []) : text = [] := by
  fun_cases splitLines text with
  | case1 => rfl
  | _ => simp_all [splitLines]

/-- A text begins with its first line. The others are those of what stands behind the line's
break. -/
theorem splitLines_eq_cons {text line : List Char} {lines : List (List Char)}
    (h : splitLines text = line :: lines) :
    (text = line ∧ lines = []) ∨ ∃ stop rest, text = line ++ (stop ++ rest) ∧ stop ≠ [] ∧
      (∀ c ∈ stop, isLineBreak c = true) ∧ splitLines rest = lines := by
  fun_induction splitLines text generalizing line lines with
  | case1 => cases h
  | case2 rest ih =>
    cases h
    have hbreak : ∀ c ∈ ['\r', '\n'], isLineBreak c = true :=
      List.all_eq_true.mp (by decide : ['\r', '\n'].all isLineBreak = true)
    exact .inr ⟨['\r', '\n'], rest, rfl, by simp, hbreak, rfl⟩
  | case3 c rest hr hc ih =>
    cases h
    exact .inr ⟨[c], rest, rfl, by simp, by simpa using hc, rfl⟩
  | case4 c rest hr hc hnil ih =>
    cases h
    rw [eq_nil_of_splitLines hnil]
    exact .inl ⟨rfl, rfl⟩
  | case5 c rest hr hc first others heq ih =>
    cases h
    rcases ih heq with ⟨rfl, rfl⟩ | ⟨stop, more, rfl, hne, hstop, hmore⟩
    · exact .inl ⟨rfl, rfl⟩
    · exact .inr ⟨stop, more, rfl, hne, hstop, hmore⟩

end Text

namespace Pattern

open Text (isWord)

/-! ## Words -/

/-- No word goes on from one text into the other. -/
def Apart (front back : List Char) : Prop :=
  (∀ c ∈ front.getLast?, isWord c = false) ∨ ∀ c ∈ back.head?, isWord c = false

theorem wordsOf_append_stop (front : List Char) {s : Char} (hs : isWord s = false)
    (back : List Char) : wordsOf (front ++ s :: back) = wordsOf front ++ wordsOf back := by
  unfold wordsOf
  rw [Text.splitWhere_append_stop front (by simp [hs]), List.filter_append]

theorem wordsOf_cons_stop {c : Char} (hc : isWord c = false) (rest : List Char) :
    wordsOf (c :: rest) = wordsOf rest := wordsOf_append_stop [] hc rest

theorem wordsOf_nil : wordsOf [] = [] := rfl

/-- The words of a text that is put together. -/
theorem wordsOf_append {front back : List Char} (h : Apart front back) :
    wordsOf (front ++ back) = wordsOf front ++ wordsOf back := by
  rcases h with h | h
  · rcases List.eq_nil_or_concat front with rfl | ⟨before, s, rfl⟩
    · rfl
    · have hs : isWord s = false := h s (by simp)
      rw [List.concat_eq_append, List.append_assoc, List.singleton_append,
        wordsOf_append_stop before hs, wordsOf_append_stop before hs, wordsOf_nil, List.append_nil]
  · cases back with
    | nil => simp [wordsOf_nil]
    | cons s after =>
      have hs : isWord s = false := h s rfl
      rw [wordsOf_append_stop front hs, wordsOf_cons_stop hs]

theorem wordsOf_word {name : List Char} (hne : name ≠ []) (h : ∀ c ∈ name, isWord c = true) :
    wordsOf name = [name] := by
  unfold wordsOf
  rw [Text.splitWhere_of_no_stop fun c hc => by simp [h c hc]]
  simp [hne]

/-- A text without word characters has no words. -/
theorem wordsOf_eq_nil {text : List Char} (h : ∀ c ∈ text, isWord c = false) : wordsOf text = [] := by
  induction text with
  | nil => rfl
  | cons c rest ih =>
    obtain ⟨hc, hrest⟩ := List.forall_mem_cons.mp h
    rw [wordsOf_cons_stop hc, ih hrest]

/-- The words of a text are those of its lines. -/
theorem wordsOf_lines (text : List Char) :
    wordsOf text = (Text.splitLines text).flatMap wordsOf := by
  generalize hlines : Text.splitLines text = lines
  induction lines generalizing text with
  | nil => rw [Text.eq_nil_of_splitLines hlines, wordsOf_nil, List.flatMap_nil]
  | cons line rest ih =>
    rcases Text.splitLines_eq_cons hlines with ⟨rfl, rfl⟩ | ⟨stop, more, rfl, hne, hstop, hmore⟩
    · rw [List.flatMap_cons, List.flatMap_nil, List.append_nil]
    · have hstopped : ∀ c ∈ stop, isWord c = false := fun c hc =>
        Text.not_isWord_of_isLineBreak (hstop c hc)
      have hbefore : Apart line (stop ++ more) := by
        refine .inr fun c hc => hstopped c ?_
        rw [List.head?_append_of_ne_nil _ hne] at hc
        exact List.mem_of_mem_head? hc
      have hafter : Apart stop more := .inl fun c hc => hstopped c (List.mem_of_getLast? hc)
      rw [wordsOf_append hbefore, wordsOf_append hafter, wordsOf_eq_nil hstopped, ih more hmore,
        List.nil_append, List.flatMap_cons]

theorem count_words_line {text line : List Char} (h : line ∈ Text.splitLines text)
    (name : List Char) : (wordsOf line).count name ≤ (wordsOf text).count name := by
  have hwords := (List.singleton_sublist.mpr h).flatMap wordsOf
  rw [List.flatMap_cons, List.flatMap_nil, List.append_nil, ← wordsOf_lines text] at hwords
  exact hwords.count_le name

end Pattern

end Checkup
