import Checkup.Text.Char

/-!
# Lines and newlines

Reading a text file turns every newline convention into `\n`; a report numbers the lines of a text
as `splitLines` cuts it.

* `normalizeNewlines_of_not_mem`: a text without `\r` is read as it stands.
* `splitLines_of_no_break`: a text without line breaks is one line.
-/

namespace Checkup.Text

/-- Every `\r\n`, and every `\r` that stands alone, becomes `\n`. -/
def normalizeNewlines : List Char → List Char
  | [] => []
  | '\r' :: '\n' :: rest => '\n' :: normalizeNewlines rest
  | c :: rest => (if c = '\r' then '\n' else c) :: normalizeNewlines rest

/-- The lines of a text without their breaks; `\r\n` is one break, and a break at the very end opens
no further line. -/
def splitLines : List Char → List (List Char)
  | [] => []
  | '\r' :: '\n' :: rest => [] :: splitLines rest
  | c :: rest =>
    if isLineBreak c then [] :: splitLines rest
    else
      match splitLines rest with
      | [] => [[c]]
      | line :: lines => (c :: line) :: lines

/-- The lines of a text with their numbers, counted from one. -/
def numberedLines (text : List Char) : List (Nat × List Char) :=
  (splitLines text).zipIdx.map fun (line, i) => (i + 1, line)

theorem normalizeNewlines_of_not_mem {s : List Char} (h : '\r' ∉ s) : normalizeNewlines s = s := by
  fun_induction normalizeNewlines s with
  | case1 => rfl
  | case2 rest ih => simp at h
  | case3 c rest hc ih =>
    simp only [List.mem_cons, not_or] at h
    simp [ih h.2, Ne.symm h.1]

theorem not_mem_normalizeNewlines (s : List Char) : '\r' ∉ normalizeNewlines s := by
  fun_induction normalizeNewlines s with
  | case1 => simp
  | case2 rest ih => simp [ih]
  | case3 c rest hc ih =>
    simp only [List.mem_cons, not_or]
    refine ⟨?_, ih⟩
    split
    · decide
    · rename_i h
      exact fun h' => h h'.symm

theorem splitLines_of_no_break {s : List Char} (h : ∀ c ∈ s, isLineBreak c = false) (hs : s ≠ []) :
    splitLines s = [s] := by
  fun_induction splitLines s with
  | case1 => exact absurd rfl hs
  | case2 rest ih =>
    have := h '\r' (by simp)
    exact absurd this (by decide)
  | case3 c rest hr hc ih =>
    have := h c (by simp)
    simp [hc] at this
  | case4 c rest hr hc hnil ih =>
    cases rest with
    | nil => rfl
    | cons d ds =>
      have := ih (fun x hx => h x (by simp [hx])) (by simp)
      simp [this] at hnil
  | case5 c rest hr hc line lines heq ih =>
    cases rest with
    | nil => simp [splitLines] at heq
    | cons d ds =>
      have := ih (fun x hx => h x (by simp [hx])) (by simp)
      rw [this] at heq
      simp only [List.cons.injEq] at heq
      simp [← heq.1, ← heq.2]

end Checkup.Text
