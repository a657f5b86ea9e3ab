import Checkup.Ignore.Rule

/-!
# What the items of a pattern take

A star takes any part of a text, and each other item takes one character. A pattern fits a text that
its items take part by part.

* `fits_item`: an item that takes a character.
* `fits_cons_iff`: the first item takes a beginning of the text, the others take the rest.
-/

namespace Checkup.Glob

/-- An item other than a star stands for the character. -/
def takes : GlobItem → Char → Bool
  | .star, _ => false
  | .anyChar, _ => true
  | .set s, c => s.has c
  | .char d, c => d == c

theorem fits_star (text : List Char) : fits [.star] text = true :=
  someSuffix_iff.mpr ⟨[], List.nil_suffix, rfl⟩

theorem fits_char_iff {c : Char} {text : List Char} : fits [.char c] text = true ↔ text = [c] :=
  fits_literal [c] text

theorem fits_item {item : GlobItem} (hne : item ≠ .star) {items : Glob} {text : List Char} :
    fits (item :: items) text = true ↔
      ∃ c rest, text = c :: rest ∧ takes item c = true ∧ fits items rest = true := by
  cases text with
  | nil =>
    have hnil : fits (item :: items) [] = false := by
      cases item with
      | star => exact absurd rfl hne
      | _ => rfl
    rw [hnil]
    refine iff_of_false Bool.false_ne_true ?_
    rintro ⟨c, rest, h, -⟩
    cases h
  | cons c rest =>
    have hcons : fits (item :: items) (c :: rest) = (takes item c && fits items rest) := by
      cases item with
      | star => exact absurd rfl hne
      | _ => rfl
    rw [hcons, Bool.and_eq_true]
    constructor
    · rintro ⟨hc, hrest⟩
      exact ⟨c, rest, rfl, hc, hrest⟩
    · rintro ⟨_, _, h, hc, hrest⟩
      cases h
      exact ⟨hc, hrest⟩

/-- The first item of a pattern takes a beginning of the text, the others take the rest. -/
theorem fits_cons_iff {item : GlobItem} {items : Glob} {text : List Char} :
    fits (item :: items) text = true ↔
      ∃ part rest, text = part ++ rest ∧ fits [item] part = true ∧ fits items rest = true := by
  by_cases hstar : item = .star
  · subst hstar
    rw [fits, someSuffix_iff]
    constructor
    · rintro ⟨rest, ⟨part, rfl⟩, hrest⟩
      exact ⟨part, rest, rfl, fits_star part, hrest⟩
    · rintro ⟨part, rest, rfl, -, hrest⟩
      exact ⟨rest, List.suffix_append _ _, hrest⟩
  · rw [fits_item hstar]
    constructor
    · rintro ⟨c, rest, rfl, hc, hrest⟩
      exact ⟨[c], rest, rfl, (fits_item hstar).mpr ⟨c, [], rfl, hc, rfl⟩, hrest⟩
    · rintro ⟨part, rest, rfl, hpart, hrest⟩
      obtain ⟨c, more, rfl, hc, hmore⟩ := (fits_item hstar).mp hpart
      obtain rfl : more = [] := List.isEmpty_iff.mp hmore
      exact ⟨c, rest, rfl, hc, hrest⟩

end Checkup.Glob
