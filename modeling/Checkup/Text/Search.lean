import Checkup.Text.Char

/-!
# Searching, cutting and joining texts

The elementary operations on texts as lists of characters.

* `occurs_iff`: `occurs part text` says that `part` is a contiguous part of `text`.
* `glue_splitOn`: cutting a text at a character and joining the pieces gives the text back.
-/

namespace Checkup.Text

/-- The sequence `part` occurs somewhere in another one. -/
def occurs {α : Type} [BEq α] (part : List α) : List α → Bool
  | [] => part.isEmpty
  | c :: rest => part.isPrefixOf (c :: rest) || occurs part rest

/-- The text `part` occurs in `text`. -/
def contains (text part : String) : Bool := occurs part.toList text.toList

/-- `text` begins with `part`. -/
def startsWith (text part : String) : Bool := part.toList.isPrefixOf text.toList

/-- `text` ends with `part`. -/
def endsWith (text part : List Char) : Bool := part.reverse.isPrefixOf text.reverse

/-- The pieces between the characters of a class; always at least one. -/
def splitWhere (stops : Char → Bool) : List Char → List (List Char)
  | [] => [[]]
  | c :: rest =>
    if stops c then [] :: splitWhere stops rest
    else
      match splitWhere stops rest with
      | [] => [[c]]
      | piece :: pieces => (c :: piece) :: pieces

/-- The pieces between the occurrences of `sep`; always at least one. -/
def splitOn (sep : Char) (s : List Char) : List (List Char) := splitWhere (· == sep) s

/-- The pieces of a text, each as a text. -/
def pieces (sep : Char) (text : String) : List String := (splitOn sep text.toList).map String.ofList

/-- The texts in order with `sep` between neighbours. -/
def joinWith (sep : String) : List String → String
  | [] => ""
  | [s] => s
  | s :: t :: rest => s ++ sep ++ joinWith sep (t :: rest)

/-- The text without the leading characters in a class. -/
def dropLeading (p : Char → Bool) (text : List Char) : List Char := text.dropWhile p

/-- The text without the trailing characters in a class. -/
def dropTrailing (p : Char → Bool) (text : List Char) : List Char :=
  (text.reverse.dropWhile p).reverse

/-- The text without the characters of a class at either end. -/
def trim (p : Char → Bool) (text : String) : String :=
  String.ofList (dropTrailing p (dropLeading p text.toList))

/-- The text without blanks at either end. -/
def trimBlank (text : String) : String := trim isBlank text

/-- The text with spaces after it up to a width. -/
def padRight (width : Nat) (text : String) : String :=
  text ++ String.ofList (List.replicate (width - text.length) ' ')

theorem occurs_iff {α : Type} [BEq α] [LawfulBEq α] {part text : List α} :
    occurs part text = true ↔ part <:+: text := by
  induction text with
  | nil => cases part <;> simp [occurs]
  | cons c rest ih =>
    simp only [occurs, Bool.or_eq_true, ih, List.isPrefixOf_iff_prefix, List.infix_cons_iff]

theorem contains_iff {text part : String} :
    contains text part = true ↔ part.toList <:+: text.toList := occurs_iff

theorem splitWhere_ne_nil (stops : Char → Bool) (s : List Char) : splitWhere stops s ≠ [] := by
  cases s with
  | nil => simp [splitWhere]
  | cons c rest =>
    simp only [splitWhere]
    split
    · simp
    · split <;> simp

/-- Pieces that are joined by a character. -/
def glue (sep : Char) : List (List Char) → List Char
  | [] => []
  | [s] => s
  | s :: t :: rest => s ++ sep :: glue sep (t :: rest)

theorem glue_splitOn (sep : Char) (s : List Char) : glue sep (splitOn sep s) = s := by
  simp only [splitOn]
  induction s with
  | nil => rfl
  | cons c rest ih =>
    have hne := splitWhere_ne_nil (· == sep) rest
    simp only [splitWhere]
    cases hp : splitWhere (· == sep) rest with
    | nil => exact absurd hp hne
    | cons p ps =>
      rw [hp] at ih
      split
      · rename_i h
        simp only [beq_iff_eq] at h
        simp [glue, ih, h]
      · cases ps with
        | nil => simp_all [glue]
        | cons q qs => simp_all [glue]

theorem not_stop_of_mem_splitWhere {stops : Char → Bool} {s piece : List Char}
    (h : piece ∈ splitWhere stops s) : ∀ c ∈ piece, stops c = false := by
  induction s generalizing piece with
  | nil => simp_all [splitWhere]
  | cons c rest ih =>
    simp only [splitWhere] at h
    split at h
    · rcases List.mem_cons.mp h with h | h
      · simp [h]
      · exact ih h
    · rename_i hc
      split at h
      · simp only [List.mem_singleton] at h
        simp [h, hc]
      · rename_i p ps heq
        rcases List.mem_cons.mp h with h | h
        · have : ∀ c ∈ p, stops c = false := ih (by simp [heq])
          rw [h]
          intro d hd
          rcases List.mem_cons.mp hd with hd | hd
          · simp [hd, hc]
          · exact this d hd
        · exact ih (by simp [heq, h])

end Checkup.Text
