import Checkup.Proofs.Pattern.Stepping
import Checkup.Proofs.Text.Words

/-!
# Words and whole-word matches

The words of a text are found by cutting it, once for all names. A search for one name between word
edges finds as many matches as the name is among the words: where the name begins at an edge, the next
word is the name if it ends at an edge, and a longer word otherwise.

* `kept_all_word`: the words of a text are what a search for words finds in it.
* `length_all_wholeWord`: a name is counted among the words as often as it is matched.
-/

namespace Checkup.Pattern

open Text (isWord)

variable {place : Cursor} {found : Found} {name text rest : List Char} {before : Option Char}

/-! ## The next word -/

/-- Characters of a class are told from what is behind them. -/
theorem run_append {accepts : Char → Bool} {front : List Char} (hfront : ∀ c ∈ front, accepts c = true)
    (hrest : ∀ c ∈ rest.head?, accepts c = false) :
    (front ++ rest).takeWhile accepts = front ∧ (front ++ rest).dropWhile accepts = rest := by
  rw [List.takeWhile_append_of_pos hfront, List.dropWhile_append_of_pos hfront]
  cases rest with
  | nil => simp
  | cons c rest => simp [hrest c rfl]

/-- A text that begins with a word character begins with the word up to the next other one. -/
theorem wordsOf_eq_cons {c : Char} (hc : isWord c = true) (rest : List Char) :
    wordsOf (c :: rest) =
      (c :: rest.takeWhile isWord) :: wordsOf (rest.dropWhile isWord) := by
  have hstop : ∀ d ∈ (rest.dropWhile isWord).head?, isWord d = false := by
    intro d hd
    have hhead := List.head?_dropWhile_not isWord rest
    rwa [hd] at hhead
  have hword : ∀ d ∈ c :: rest.takeWhile isWord, isWord d = true := by
    intro d hd
    rcases List.mem_cons.mp hd with rfl | hd
    · exact hc
    · exact List.mem_takeWhile_imp hd
  have hsplit : c :: rest = (c :: rest.takeWhile isWord) ++ rest.dropWhile isWord := by simp
  rw [hsplit, wordsOf_append (.inr hstop), wordsOf_word (by simp) hword]
  simp

/-- The words that begin from a place on: behind a word character the rest of a word is none. -/
def wordsFrom (place : Cursor) : List (List Char) :=
  wordsOf (if place.before.any isWord then place.rest.dropWhile isWord else place.rest)

theorem wordsFrom_end (before : Option Char) : wordsFrom ⟨before, []⟩ = [] := by
  simp [wordsFrom, wordsOf_nil]

/-- At a place where no word begins the next character changes nothing. -/
theorem wordsFrom_cons {c : Char} (h : before.any isWord = true ∨ isWord c = false) :
    wordsFrom ⟨before, c :: rest⟩ = wordsFrom ⟨some c, rest⟩ := by
  cases hc : isWord c with
  | true =>
    have hbefore : before.any isWord = true := h.resolve_right (by simp [hc])
    simp [wordsFrom, hbefore, hc]
  | false =>
    cases hbefore : before.any isWord <;> simp [wordsFrom, hbefore, hc, wordsOf_cons_stop]

/-- At a place where a word begins it is the next one. -/
theorem wordsFrom_word {c : Char} (hbefore : before.any isWord = false) (hc : isWord c = true) :
    wordsFrom ⟨before, c :: rest⟩ = (c :: rest.takeWhile isWord) :: wordsFrom ⟨some c, rest⟩ := by
  simp [wordsFrom, hbefore, hc, wordsOf_eq_cons hc]

/-! ## Searching for words -/

theorem takes_run1 (accepts : Char → Bool) : (run1 accepts).Takes := by
  intro place found h
  obtain ⟨part, hne, hrest, -⟩ := matches_run1 h
  have hlength := List.length_pos_of_ne_nil hne
  rw [hrest, List.length_append]
  omega

theorem Takes.keep {p : Pattern} (h : p.Takes) : (keep p).Takes := by
  intro place found hm
  cases hm with
  | @keep _ _ part hm =>
    have hless : part.after.rest.length < place.rest.length := h hm
    exact hless

/-- A match of a word that is kept, with what is behind it. -/
theorem matchAt?_keep_word_after (h : (keep word).matchAt? place = some found) :
    ∃ c more, found.kept = [c :: more] ∧ place.rest = c :: more ++ found.after.rest ∧
      isWord c = true ∧ more = (more ++ found.after.rest).takeWhile isWord ∧
      found.after.rest = (more ++ found.after.rest).dropWhile isWord := by
  obtain ⟨name, rest, hkept, hplace, hne, hword, hrest⟩ := matchAt?_keep_word h
  have hafter : found.after.rest = rest := by
    cases matches_of_matchAt? h with
    | @keep _ _ part hm =>
      obtain ⟨front, hfront⟩ := consumes_of_matches hm
      rw [between_eq hfront.symm, kept_of_matches hm rfl] at hkept
      obtain rfl : front = name := by simpa using hkept
      exact List.append_cancel_left (hfront.trans hplace)
  obtain ⟨c, more, rfl⟩ := List.exists_cons_of_ne_nil hne
  obtain ⟨hc, hmore⟩ := List.forall_mem_cons.mp hword
  obtain ⟨htake, hdrop⟩ := run_append hmore hrest
  rw [← hafter] at hplace htake hdrop
  exact ⟨c, more, hkept, hplace, hc, htake.symm, hdrop.symm⟩

theorem exists_matches_word {c : Char} (hc : isWord c = true) (before : Option Char)
    (rest : List Char) : ∃ found, Matches (keep word) ⟨before, c :: rest⟩ found :=
  ⟨_, .keep (.seq (.one before rest hc) (.runStop _ _))⟩

/-- The words of a text are what a search for words finds in it, one after another. -/
theorem kept_all_word (text : List Char) :
    ((keep word).all text).map Found.kept = (wordsOf text).map fun w => [w] := by
  have htakes : (keep word).Takes := Takes.keep (takes_run1 isWord)
  suffices h : ∀ place : Cursor,
      ((keep word).allAt place).map Found.kept = (wordsOf place.rest).map fun w => [w] from
    h (.ofText text)
  intro place
  induction place using htakes.induction with
  | stop before => rw [allAt_end htakes]; rfl
  | hit place found hat ih =>
    obtain ⟨c, more, hkept, hplace, hc, htake, hdrop⟩ := matchAt?_keep_word_after hat
    rw [allAt_of_match htakes hat, List.map_cons, ih, hplace, List.cons_append, wordsOf_eq_cons hc,
      ← htake, ← hdrop, hkept]
    rfl
  | miss before c rest hat ih =>
    have hc : isWord c = false := by
      by_contra hc
      obtain ⟨found, hm⟩ := exists_matches_word (by simpa using hc) before rest
      obtain ⟨first, -, hfirst⟩ := matchAt?_of_matches hm
      rw [hat] at hfirst
      cases hfirst
    rw [allAt_of_none htakes hat, ih, wordsOf_cons_stop hc]

/-! ## Searching for one name -/

/-- What stands at a place where a name is matched as a whole word. -/
theorem matches_wholeWord {name : String} (hne : name ≠ "")
    (hword : ∀ c ∈ name.toList, isWord c = true) (h : Matches (wholeWord name) place found) :
    place.before.any isWord = false ∧ place.rest = name.toList ++ found.after.rest ∧
      found.after.before.any isWord = true ∧ ∀ c ∈ found.after.rest.head?, isWord c = false := by
  obtain ⟨part, hrest, hafter⟩ := skip_of_matches h
  cases h with
  | @seq _ _ _ a b ha hb =>
    cases ha with
    | edge hfirst =>
      cases hb with
      | @seq _ _ _ a b ha hb =>
        obtain ⟨d, more, hname⟩ := List.exists_cons_of_ne_nil (String.toList_eq_nil_iff.not.mpr hne)
        have hplace : place.rest = name.toList ++ a.after.rest := matches_literal ha
        cases hb with
        | edge hlast =>
          dsimp only at hrest hafter ⊢
          obtain rfl : part = name.toList := List.append_cancel_right (hrest.symm.trans hplace)
          have hbefore : a.after.before.any isWord = true := by
            have hlastName := List.getLast_mem (String.toList_eq_nil_iff.not.mpr hne)
            rw [hafter, Cursor.skip, List.getLast?_eq_some_getLast (String.toList_eq_nil_iff.not.mpr hne)]
            exact hword _ hlastName
          refine ⟨?_, hplace, hbefore, fun c hc => ?_⟩
          · have hd : isWord d = true := hword d (by simp [hname])
            simpa [atEdge, hplace, hname, hd] using hfirst
          · rw [Option.mem_def] at hc
            simpa [atEdge, hbefore, hc] using hlast

theorem exists_matches_wholeWord {name : String} (hne : name ≠ "")
    (hword : ∀ c ∈ name.toList, isWord c = true) (hbefore : before.any isWord = false)
    (hrest : ∀ c ∈ rest.head?, isWord c = false) :
    ∃ found, Matches (wholeWord name) ⟨before, name.toList ++ rest⟩ found := by
  obtain ⟨d, more, hname⟩ := List.exists_cons_of_ne_nil (String.toList_eq_nil_iff.not.mpr hne)
  obtain ⟨before', hm⟩ := exists_matches_literal name.toList before rest
  obtain ⟨part, hpart, hafter⟩ := skip_of_matches hm
  have hbefore' : before'.any isWord = true := by
    obtain rfl : part = name.toList := List.append_cancel_right hpart.symm
    have hlast : before' = _ := congrArg Cursor.before hafter
    rw [hlast, Cursor.skip, List.getLast?_eq_some_getLast (String.toList_eq_nil_iff.not.mpr hne)]
    exact hword _ (List.getLast_mem _)
  refine ⟨_, .seq (.edge ?_) (.seq hm (.edge ?_))⟩
  · simp [atEdge, hbefore, hname, hword d (by simp [hname])]
  · cases rest with
    | nil => simp [atEdge, hbefore']
    | cons c rest => simp [atEdge, hbefore', hrest c rfl]

/-- A name is matched as a whole word as often as it is among the words. -/
theorem length_all_wholeWord {name : String} (hne : name ≠ "")
    (hword : ∀ c ∈ name.toList, isWord c = true) (text : List Char) :
    ((wholeWord name).all text).length = (wordsOf text).count name.toList := by
  obtain ⟨d, more, hname⟩ := List.exists_cons_of_ne_nil (String.toList_eq_nil_iff.not.mpr hne)
  have hd : isWord d = true := hword d (by simp [hname])
  have hmore : ∀ c ∈ more, isWord c = true := fun c hc => hword c (by simp [hname, hc])
  have htakes : (wholeWord name).Takes := by
    intro place found h
    obtain ⟨-, hplace, -⟩ := matches_wholeWord hne hword h
    rw [hplace, hname]
    simp only [List.length_append, List.length_cons]
    omega
  suffices h : ∀ place, ((wholeWord name).allAt place).length = (wordsFrom place).count name.toList from
    h (.ofText text)
  intro place
  induction place using htakes.induction with
  | stop before => rw [allAt_end htakes, wordsFrom_end]; rfl
  | hit place found hat ih =>
    obtain ⟨hbefore, hplace, hafter, hrest⟩ :=
      matches_wholeWord hne hword (matches_of_matchAt? hat)
    rw [allAt_of_match htakes hat, List.length_cons, ih]
    obtain ⟨before, text⟩ := place
    obtain ⟨htake, hdrop⟩ := run_append hmore hrest
    have hstay : found.after.rest.dropWhile isWord = found.after.rest :=
      (run_append (List.forall_mem_nil _) hrest).2
    dsimp only at hbefore hplace
    rw [hname, List.cons_append] at hplace
    rw [hplace, wordsFrom_word hbefore hd, htake, ← hname, List.count_cons_self]
    simp [wordsFrom, hd, hdrop, hafter, hstay]
  | miss before c rest hat ih =>
    rw [allAt_of_none htakes hat, ih]
    by_cases hplace : before.any isWord = true ∨ isWord c = false
    · rw [wordsFrom_cons hplace]
    · -- a word begins here, and were it the name, the pattern would match
      rw [not_or, Bool.not_eq_true, Bool.not_eq_false] at hplace
      have hother : c :: rest.takeWhile isWord ≠ name.toList := by
        intro heq
        have hstop : ∀ d ∈ (rest.dropWhile isWord).head?, isWord d = false := by
          intro d hd
          have hhead := List.head?_dropWhile_not isWord rest
          rwa [hd] at hhead
        obtain ⟨found, hm⟩ := exists_matches_wholeWord hne hword hplace.1 hstop
        rw [← heq, List.cons_append, List.takeWhile_append_dropWhile] at hm
        obtain ⟨first, -, hfirst⟩ := matchAt?_of_matches hm
        rw [hat] at hfirst
        cases hfirst
      rw [wordsFrom_word hplace.1 hplace.2, List.count_cons_of_ne hother]

end Checkup.Pattern
