import Checkup.Proofs.Pattern.Covering

/-!
# Searching step by step

For a pattern that always takes a part of the text, the matches from a place on are known from what
happens there: if the pattern matches, its match and the matches behind it; otherwise the matches from
the next place on. So facts about all matches are proved along the text, without the search.

* `allAt`: the matches from a place on.
* `allAt_of_match`, `allAt_of_none`, `allAt_end`: one step.
* `Takes.induction`: proofs along a search.
* `exists_of_mem_allAt`: what is found is a match.
-/

namespace Checkup.Pattern

variable {p : Pattern} {place : Cursor} {found : Found} {before : Option Char} {c : Char}
  {rest : List Char}

/-- The matches from a place on. -/
def allAt (p : Pattern) (place : Cursor) : List Found :=
  p.allFrom (place.rest.length + 1) place.before place.rest

theorem all_eq_allAt (p : Pattern) (text : List Char) : p.all text = p.allAt (.ofText text) := rfl

theorem takes_matchAt? (hp : p.Takes) (h : p.matchAt? place = some found) :
    found.after.rest.length < place.rest.length := hp (matches_of_matchAt? h)

theorem matchAt?_end (hp : p.Takes) (before : Option Char) : p.matchAt? ⟨before, []⟩ = none := by
  cases h : p.matchAt? ⟨before, []⟩ with
  | none => rfl
  | some found => exact absurd (takes_matchAt? hp h) (Nat.not_lt_zero _)

theorem searchFrom?_of_match (h : p.matchAt? place = some found) :
    p.searchFrom? place.before place.rest = some found := by
  obtain ⟨before, text⟩ := place
  cases text with
  | nil => exact h
  | cons c rest => rw [searchFrom?, h]

theorem searchFrom?_length (hp : p.Takes) {text : List Char} (h : p.searchFrom? before text = some found) :
    found.after.rest.length < text.length := by
  induction text generalizing before with
  | nil =>
    rw [searchFrom?, matchAt?_end hp] at h
    cases h
  | cons c rest ih =>
    rw [searchFrom?] at h
    split at h
    · rename_i hat
      cases h
      exact takes_matchAt? hp hat
    · exact Nat.lt_succ_of_lt (ih h)

/-- The bound on the number of matches does not matter, if it is above the length of the text. -/
theorem allFrom_fuel (hp : p.Takes) {fuel fuel' : Nat} {text : List Char} (h : text.length < fuel)
    (h' : text.length < fuel') : p.allFrom fuel before text = p.allFrom fuel' before text := by
  induction fuel generalizing before text fuel' with
  | zero => omega
  | succ fuel ih =>
    obtain ⟨fuel', rfl⟩ : ∃ n, fuel' = n + 1 := ⟨fuel' - 1, by omega⟩
    cases hsearch : p.searchFrom? before text with
    | none => simp only [allFrom, hsearch]
    | some found =>
      have hless := searchFrom?_length hp hsearch
      rw [allFrom_succ hsearch hless, allFrom_succ hsearch hless]
      exact congrArg (found :: ·) (ih (by omega) (by omega))

/-! ## One step -/

theorem allAt_of_match (hp : p.Takes) (h : p.matchAt? place = some found) :
    p.allAt place = found :: p.allAt found.after := by
  have hless := takes_matchAt? hp h
  unfold allAt
  rw [allFrom_succ (searchFrom?_of_match h) hless]
  exact congrArg (found :: ·) (allFrom_fuel hp hless (Nat.lt_succ_self _))

theorem allAt_of_none (hp : p.Takes) (h : p.matchAt? ⟨before, c :: rest⟩ = none) :
    p.allAt ⟨before, c :: rest⟩ = p.allAt ⟨some c, rest⟩ := by
  have hsearch : p.searchFrom? before (c :: rest) = p.searchFrom? (some c) rest := by
    rw [searchFrom?, h]
  unfold allAt
  dsimp only
  cases hnext : p.searchFrom? (some c) rest with
  | none => simp only [allFrom, hsearch, hnext]
  | some found =>
    have hless := searchFrom?_length hp hnext
    have hlong : found.after.rest.length < (c :: rest).length := Nat.lt_succ_of_lt hless
    rw [allFrom_succ (hsearch.trans hnext) hlong, allFrom_succ hnext hless]
    exact congrArg (found :: ·) (allFrom_fuel hp hlong hless)

theorem allAt_end (hp : p.Takes) (before : Option Char) : p.allAt ⟨before, []⟩ = [] := by
  have hsearch : p.searchFrom? before [] = none := matchAt?_end hp before
  simp only [allAt, allFrom, hsearch]

/-- What holds at the end of every text, and behind a match or one character only if it holds before
them, holds everywhere. -/
theorem Takes.induction (hp : p.Takes) {motive : Cursor → Prop}
    (stop : ∀ before, motive ⟨before, []⟩)
    (hit : ∀ place found, p.matchAt? place = some found → motive found.after → motive place)
    (miss : ∀ before c rest, p.matchAt? ⟨before, c :: rest⟩ = none → motive ⟨some c, rest⟩ →
      motive ⟨before, c :: rest⟩) (place : Cursor) : motive place := by
  generalize hlength : place.rest.length = n
  induction n using Nat.strongRecOn generalizing place with
  | ind n ih =>
    cases hat : p.matchAt? place with
    | some found =>
      have hless := takes_matchAt? hp hat
      exact hit place found hat (ih _ (by omega) found.after rfl)
    | none =>
      obtain ⟨before, text⟩ := place
      cases text with
      | nil => exact stop before
      | cons c rest =>
        have hless : rest.length < n := by simp only [← hlength, List.length_cons]; omega
        exact miss before c rest hat (ih _ hless ⟨some c, rest⟩ rfl)

/-- The matches from a place on are matches there or further on. -/
theorem exists_of_mem_allAt (hp : p.Takes) (h : found ∈ p.allAt place) :
    ∃ place', place'.rest <:+ place.rest ∧ Matches p place' found := by
  induction place using hp.induction with
  | stop before =>
    rw [allAt_end hp] at h
    cases h
  | hit place first hat ih =>
    have hmatch := matches_of_matchAt? hat
    rw [allAt_of_match hp hat] at h
    rcases List.mem_cons.mp h with rfl | h
    · exact ⟨place, List.suffix_refl _, hmatch⟩
    · obtain ⟨place', hsuffix, hfound⟩ := ih h
      exact ⟨place', hsuffix.trans (consumes_of_matches hmatch), hfound⟩
  | miss before c rest hat ih =>
    rw [allAt_of_none hp hat] at h
    obtain ⟨place', hsuffix, hfound⟩ := ih h
    exact ⟨place', hsuffix.trans (List.suffix_cons c rest), hfound⟩

end Checkup.Pattern
