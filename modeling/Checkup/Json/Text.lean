import Checkup.Number.Integer
import Checkup.Text.Units

/-!
# The text of JSON strings

A string stands between quotes. Printable ASCII is written as itself, all else as escapes of UTF-16
units; a reader also takes the short escapes and any character but control characters as it stands.
-/

namespace Checkup.Json

/-- A unit as an escape of four hexadecimal digits. -/
def unitEscape (n : Nat) : List Char :=
  ['\\', 'u', Number.hexDigit (n / 4096 % 16), Number.hexDigit (n / 256 % 16),
    Number.hexDigit (n / 16 % 16), Number.hexDigit (n % 16)]

/-- A character as it stands in a string: printable ASCII as itself, all else escaped. -/
def escapeChar (c : Char) : List Char :=
  if c = '"' then ['\\', '"']
  else if c = '\\' then ['\\', '\\']
  else if c = '\n' then ['\\', 'n']
  else if c = '\r' then ['\\', 'r']
  else if c = '\t' then ['\\', 't']
  else if c = '\x0c' then ['\\', 'f']
  else if c = '\x08' then ['\\', 'b']
  else if 0x20 ≤ c.toNat ∧ c.toNat ≤ 0x7E then [c]
  else (Text.pointUnits c.toNat).flatMap unitEscape

/-- A code point as it stands in a string; half of a pair is escaped by itself. -/
def escapePoint (n : Nat) : List Char :=
  if Text.isHalf n then unitEscape n else escapeChar (Char.ofNat n)

/-- A string between quotes. -/
def quoted (s : List Char) : List Char := '"' :: (s.flatMap escapeChar ++ ['"'])

/-- Code points between quotes. -/
def quotedPoints (points : List Nat) : List Char := '"' :: (points.flatMap escapePoint ++ ['"'])

/-- The character that a short escape names. -/
def shortEscape? : Char → Option Nat
  | '"' => some 0x22
  | '\\' => some 0x5C
  | '/' => some 0x2F
  | 'b' => some 0x08
  | 'f' => some 0x0C
  | 'n' => some 0x0A
  | 'r' => some 0x0D
  | 't' => some 0x09
  | _ => none

/-- The unit that four hexadecimal digits name. -/
def hexUnit? (a b c d : Char) : Option Nat := do
  let a ← Text.hexValue? a
  let b ← Text.hexValue? b
  let c ← Text.hexValue? c
  let d ← Text.hexValue? d
  pure (((a * 16 + b) * 16 + c) * 16 + d)

/-- The units of a string up to its closing quote, and what follows. Control characters must be
escaped. -/
def stringUnits? : List Char → Option (List Nat × List Char)
  | [] => none
  | '"' :: rest => some ([], rest)
  | '\\' :: 'u' :: a :: b :: c :: d :: rest => do
    let unit ← hexUnit? a b c d
    let (units, rest) ← stringUnits? rest
    pure (unit :: units, rest)
  | '\\' :: c :: rest => do
    let unit ← shortEscape? c
    let (units, rest) ← stringUnits? rest
    pure (unit :: units, rest)
  | c :: rest =>
    if c.toNat < 0x20 || c = '\\' then none
    else do
      let (units, rest) ← stringUnits? rest
      pure (c.toNat :: units, rest)

end Checkup.Json
