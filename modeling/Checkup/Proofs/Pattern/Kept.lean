import Mathlib.Data.List.TakeWhile
import Checkup.Pattern.Code

/-!
# What patterns keep

A pattern that keeps nothing adds nothing to what the rest of a sequence keeps. Of the ways in which
runs match the longest one is preferred, so a name is kept up to its end.

* `kept_of_matches`: a pattern that keeps nothing.
* `matchAt?_seq`: the preferred way of a sequence.
* `exists_of_matchAt?_run`: a run before another pattern is as long as possible.
* `matchAt?_keep_run`, `matchAt?_keep_word`: a run, and so a name, is kept up to its end.
* `search?_of_matches`: a pattern that matches at the start is found there.
-/

namespace Checkup.Pattern

open Text (isWord)

variable {p q : Pattern} {place : Cursor} {found : Found}

/-! ## What a match keeps -/

/-- The pattern keeps nothing. -/
def keepsNothing : Pattern → Bool
  | seq first second => first.keepsNothing && second.keepsNothing
  | either first second => first.keepsNothing && second.keepsNothing
  | keep _ => false
  | _ => true

theorem kept_of_matches (h : Matches p place found) (hp : p.keepsNothing = true) :
    found.kept = [] := by
  induction h with
  | seq _ _ iha ihb =>
    simp only [keepsNothing, Bool.and_eq_true] at hp
    simp [iha hp.1, ihb hp.2]
  | eitherLeft _ ih =>
    simp only [keepsNothing, Bool.and_eq_true] at hp
    exact ih hp.1
  | eitherRight _ ih =>
    simp only [keepsNothing, Bool.and_eq_true] at hp
    exact ih hp.2
  | keep => cases hp
  | _ => rfl

theorem keepsNothing_literal (s : List Char) : (literal s).keepsNothing = true := by
  induction s with
  | nil => rfl
  | cons c rest ih =>
    cases rest with
    | nil => rfl
    | cons d more =>
      show ((char c).keepsNothing && (literal (d :: more)).keepsNothing) = true
      rw [ih]
      rfl

/-- The preferred way of a sequence is a match of its first part and the preferred way of the
second part behind it. -/
theorem matchAt?_seq (h : (seq p q).matchAt? place = some found) : ∃ first second,
    Matches p place first ∧ q.matchAt? first.after = some second ∧ found = first.andThen second := by
  have hfirst : p.matchThen place q.matchAt? = some found := h
  rw [matchThen_eq_findSome?] at hfirst
  obtain ⟨first, hmem, hnext⟩ := List.exists_of_findSome?_eq_some hfirst
  obtain ⟨second, hsecond, rfl⟩ := Option.map_eq_some_iff.mp hnext
  exact ⟨first, second, matches_of_mem hmem, hsecond, rfl⟩

/-! ## What a match takes -/

theorem matches_one {accepts : Char → Bool} (h : Matches (one accepts) place found) :
    ∃ c, accepts c = true ∧ place.rest = c :: found.after.rest ∧ found.kept = [] ∧
      found.after = .past c found.after.rest := by
  cases h with
  | one before rest hc => exact ⟨_, hc, rfl, rfl, rfl⟩

theorem matches_char {c : Char} {place : Cursor} {found : Found} (h : Matches (char c) place found) :
    place.rest = c :: found.after.rest := by
  unfold char at h
  cases h with
  | one before rest hc => rw [beq_iff_eq.mp hc]; rfl

theorem matches_literal {s : List Char} {place : Cursor} {found : Found}
    (h : Matches (literal s) place found) : place.rest = s ++ found.after.rest := by
  induction s generalizing place found with
  | nil =>
    cases h
    rfl
  | cons c rest ih =>
    cases rest with
    | nil => exact matches_char h
    | cons d more =>
      cases h with
      | seq ha hb => rw [matches_char ha, ih hb]; rfl

theorem matches_run {accepts : Char → Bool} (h : Matches (run accepts) place found) :
    ∃ part, place.rest = part ++ found.after.rest ∧ ∀ c ∈ part, accepts c = true := by
  generalize hp : run accepts = p at h
  induction h with
  | runStop accepts' place => exact ⟨[], rfl, by simp⟩
  | @runStep accepts' c before rest after hc tail ih =>
    cases hp
    obtain ⟨part, heq, hpart⟩ := ih rfl
    refine ⟨c :: part, ?_, List.forall_mem_cons.mpr ⟨hc, hpart⟩⟩
    exact congrArg (c :: ·) heq
  | _ => cases hp

theorem matches_run1 {accepts : Char → Bool} (h : Matches (run1 accepts) place found) :
    ∃ part, part ≠ [] ∧ place.rest = part ++ found.after.rest ∧ ∀ c ∈ part, accepts c = true := by
  unfold run1 at h
  cases h with
  | seq ha hb =>
    cases ha with
    | @one _ c before rest hc =>
      obtain ⟨part, heq, hpart⟩ := matches_run hb
      exact ⟨c :: part, by simp, congrArg (c :: ·) heq, List.forall_mem_cons.mpr ⟨hc, hpart⟩⟩

/-! ## The longest run -/

theorem getLast?_runsUp (accepts : Char → Bool) (before : Option Char) (text : List Char) :
    ∃ before', (runsUp accepts before text).getLast? = some ⟨before', text.dropWhile accepts⟩ := by
  induction text generalizing before with
  | nil => exact ⟨before, rfl⟩
  | cons c rest ih =>
    rw [runsUp]
    cases hc : accepts c with
    | true =>
      obtain ⟨before', hlast⟩ := ih (some c)
      refine ⟨before', ?_⟩
      rw [if_pos rfl, List.getLast?_cons, hlast, List.dropWhile_cons_of_pos hc]
      rfl
    | false =>
      refine ⟨before, ?_⟩
      rw [if_neg Bool.false_ne_true, List.dropWhile_cons_of_neg (by simp [hc])]
      rfl

theorem pairwise_runsUp (accepts : Char → Bool) (before : Option Char) (text : List Char) :
    (runsUp accepts before text).Pairwise fun a b => b.rest.length < a.rest.length := by
  induction text generalizing before with
  | nil => exact List.pairwise_singleton _ _
  | cons c rest ih =>
    rw [runsUp, List.pairwise_cons]
    split
    · refine ⟨fun after hafter => ?_, ih _⟩
      have hsuffix := consumes_of_matches (mem_runsUp hafter)
      exact Nat.lt_succ_of_le hsuffix.length_le
    · exact ⟨by simp, .nil⟩

/-- A run before another pattern goes on as long as the other pattern matches behind it. -/
theorem exists_of_matchAt?_run {accepts : Char → Bool}
    (h : (seq (run accepts) p).matchAt? place = some found) :
    ∃ after, Matches (run accepts) place ⟨[], after⟩ ∧ p.matchAt? after = some found ∧
      ∀ after', Matches (run accepts) place ⟨[], after'⟩ → p.matchAt? after' ≠ none →
        after.rest.length ≤ after'.rest.length := by
  have hruns : (runsFrom accepts place).findSome? p.matchAt? = some found := h
  obtain ⟨longer, after, shorter, hsplit, hafter, hnone⟩ := List.findSome?_eq_some_iff.mp hruns
  have hmem : ∀ after', after' ∈ runsFrom accepts place ↔ Matches (run accepts) place ⟨[], after'⟩ := by
    intro after'
    rw [← mem_matchesAt_iff]
    simp [matchesAt]
  refine ⟨after, (hmem after).mp (by simp [hsplit]), hafter, fun after' hmatch hsome => ?_⟩
  have hafter' := (hmem after').mpr hmatch
  have hpairwise : (runsFrom accepts place).Pairwise fun a b => a.rest.length < b.rest.length :=
    List.pairwise_reverse.mpr (pairwise_runsUp accepts _ _)
  rw [hsplit] at hafter' hpairwise
  rcases List.mem_append.mp hafter' with hlonger | hshorter
  · exact absurd (hnone after' hlonger) hsome
  · rcases List.mem_cons.mp hshorter with rfl | hshorter
    · exact Nat.le_refl _
    · exact Nat.le_of_lt ((List.pairwise_cons.mp (List.pairwise_append.mp hpairwise).2.1).1 _ hshorter)

theorem between_eq {first last : Cursor} {part : List Char} (h : first.rest = part ++ last.rest) :
    between first last = part := by
  simp [between, h]

theorem between_append (before after : Option Char) (part rest : List Char) :
    between ⟨before, part ++ rest⟩ ⟨after, rest⟩ = part := between_eq rfl

/-- A character and a run behind it are kept up to the end of the run. -/
theorem matchAt?_keep_run {first more : Char → Bool}
    (h : (keep (seq (one first) (run more))).matchAt? place = some found) :
    ∃ c rest, place.rest = c :: rest ∧ first c = true ∧ found.kept = [c :: rest.takeWhile more] := by
  obtain ⟨before, text⟩ := place
  rw [matchAt?_eq_head?] at h
  simp only [matchesAt] at h
  cases text with
  | nil => cases h
  | cons c rest =>
    cases hc : first c with
    | false => simp [hc] at h
    | true =>
      obtain ⟨before', hlast⟩ := getLast?_runsUp more (some c) rest
      simp only [hc, if_true, List.flatMap_cons, List.flatMap_nil, List.append_nil, List.map_map,
        List.nil_append, List.head?_map, runsFrom, List.head?_reverse, Cursor.past, hlast,
        Option.map_some, Option.some.injEq, Function.comp_apply] at h
      subst h
      have hsplit : c :: rest = c :: rest.takeWhile more ++ rest.dropWhile more := by simp
      refine ⟨c, rest, rfl, hc, ?_⟩
      rw [hsplit, between_append]

/-- A name is kept up to its end. -/
theorem matchAt?_keep_word (h : (keep word).matchAt? place = some found) :
    ∃ name rest, found.kept = [name] ∧ place.rest = name ++ rest ∧ name ≠ [] ∧
      (∀ c ∈ name, isWord c = true) ∧ ∀ c ∈ rest.head?, isWord c = false := by
  obtain ⟨c, rest, hplace, hc, hkept⟩ := matchAt?_keep_run h
  refine ⟨c :: rest.takeWhile isWord, rest.dropWhile isWord, hkept, by simp [hplace], by simp,
    List.forall_mem_cons.mpr ⟨hc, fun d hd => List.mem_takeWhile_imp hd⟩, ?_⟩
  intro d hd
  have hstop := List.head?_dropWhile_not isWord rest
  rwa [hd] at hstop

/-! ## Matches at the start -/

/-- Where a pattern matches there is a preferred way. -/
theorem matchAt?_of_matches (h : Matches p place found) :
    ∃ first, Matches p place first ∧ p.matchAt? place = some first := by
  rw [matchAt?_eq_head?]
  cases hall : p.matchesAt place with
  | nil => exact absurd (hall ▸ mem_of_matches h) List.not_mem_nil
  | cons first rest => exact ⟨first, matches_of_mem (hall ▸ List.mem_cons_self ..), rfl⟩

/-- A pattern that matches at the start of a text is found there. -/
theorem search?_of_matches {text : List Char} (h : Matches p (.ofText text) found) :
    ∃ first, Matches p (.ofText text) first ∧ p.search? text = some first := by
  obtain ⟨first, hfirst, hat⟩ := matchAt?_of_matches h
  refine ⟨first, hfirst, ?_⟩
  unfold Cursor.ofText at hat
  unfold search?
  cases text with
  | nil => exact hat
  | cons c rest => rw [searchFrom?, hat]

theorem exists_matches_run {accepts : Char → Bool} {part : List Char}
    (h : ∀ c ∈ part, accepts c = true) (before : Option Char) (rest : List Char) :
    ∃ before', Matches (run accepts) ⟨before, part ++ rest⟩ ⟨[], ⟨before', rest⟩⟩ := by
  induction part generalizing before with
  | nil => exact ⟨before, .runStop _ _⟩
  | cons c part ih =>
    obtain ⟨hc, hpart⟩ := List.forall_mem_cons.mp h
    obtain ⟨before', htail⟩ := ih hpart (some c)
    exact ⟨before', .runStep hc htail⟩

theorem exists_matches_literal (s : List Char) (before : Option Char) (rest : List Char) :
    ∃ before', Matches (literal s) ⟨before, s ++ rest⟩ ⟨[], ⟨before', rest⟩⟩ := by
  induction s generalizing before with
  | nil => exact ⟨before, .empty _⟩
  | cons c s ih =>
    have hchar : ∀ text, Matches (char c) ⟨before, c :: text⟩ ⟨[], ⟨some c, text⟩⟩ :=
      fun text => .one before text (beq_self_eq_true c)
    cases s with
    | nil => exact ⟨some c, hchar rest⟩
    | cons d more =>
      obtain ⟨before', htail⟩ := ih (some c)
      exact ⟨before', .seq (hchar _) htail⟩

end Checkup.Pattern
