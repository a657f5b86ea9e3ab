import Checkup.Text.PrintTable
import Checkup.Text.Search

/-!
# Quoted texts

A text between quotation marks, in which every character that has no visible form is written as an
escape. Single marks are taken unless the text has some and no double ones.

* `mark_mem`: the marks are single or double.
-/

namespace Checkup.Text

/-- The character has a visible form, or is the space. -/
def isPrinting (c : Char) : Bool :=
  if c.toNat < 0x80 then decide (0x20 ≤ c.toNat) && decide (c.toNat ≤ 0x7E)
  else !inRanges hiddenRanges c.toNat

/-- The hexadecimal digits of a number, at least as many as asked for. -/
def hexDigits (width n : Nat) : List Char :=
  let ds := Nat.toDigits 16 n
  List.replicate (width - ds.length) '0' ++ ds

/-- A character by its code point. -/
def codeEscape (c : Char) : List Char :=
  if c.toNat < 0x100 then ['\\', 'x'] ++ hexDigits 2 c.toNat
  else if c.toNat < 0x10000 then ['\\', 'u'] ++ hexDigits 4 c.toNat
  else ['\\', 'U'] ++ hexDigits 8 c.toNat

/-- A character between quotation marks; `plain` tells which characters stand for themselves. -/
def escaped (plain : Char → Bool) (mark c : Char) : List Char :=
  if c == mark || c == '\\' then ['\\', c]
  else if c == '\n' then ['\\', 'n']
  else if c == '\r' then ['\\', 'r']
  else if c == '\t' then ['\\', 't']
  else if plain c then [c]
  else codeEscape c

/-- The quotation mark for a text. -/
def mark (s : List Char) : Char := if s.contains '\x27' && !s.contains '"' then '"' else '\x27'

/-- A text between quotation marks. -/
def quotedBy (plain : Char → Bool) (s : String) : String :=
  let m := mark s.toList
  String.ofList (m :: (s.toList.flatMap (escaped plain m) ++ [m]))

/-- A text between quotation marks, with every visible character as it is. -/
def quoted (s : String) : String := quotedBy isPrinting s

/-- A text between quotation marks, in ASCII. -/
def quotedAscii (s : String) : String :=
  quotedBy (fun c => isPrinting c && decide (c.toNat < 0x80)) s

theorem mark_mem (s : List Char) : mark s = '"' ∨ mark s = '\x27' := by
  simp only [mark]
  split <;> simp

end Checkup.Text
