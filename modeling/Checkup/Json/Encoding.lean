import Checkup.Text.Units

/-!
# Encodings of JSON text

JSON text begins with ASCII characters, so the places of the zero bytes among its first four tell in
which encoding it is.

* `ofBytes_of_ascii`: bytes that begin without zeros are in UTF-8.
-/

namespace Checkup.Json

/-- An encoding of text by bytes; the wider ones come with the high byte first or last. -/
inductive Encoding
  | utf8
  | utf16 (highFirst : Bool)
  | utf32 (highFirst : Bool)
  deriving DecidableEq, Repr, Inhabited

namespace Encoding

/-- The encoding of a text by its first bytes. -/
def ofBytes : List UInt8 → Encoding
  | [a, b] => if a = 0 then utf16 true else if b = 0 then utf16 false else utf8
  | a :: b :: c :: d :: _ =>
    if a = 0 then (if b = 0 then utf32 true else utf16 true)
    else if b = 0 then (if c = 0 ∧ d = 0 then utf32 false else utf16 false)
    else utf8
  | _ => utf8

/-- The number that bytes are, the high one first. -/
def bytesValue (bytes : List UInt8) : Nat := bytes.foldl (fun n b => n * 256 + b.toNat) 0

/-- The number that bytes are in either order. -/
def wordValue (highFirst : Bool) (bytes : List UInt8) : Nat :=
  bytesValue (if highFirst then bytes else bytes.reverse)

/-- The values of the pairs of bytes, if the bytes come in pairs. -/
def pairValues? (highFirst : Bool) : List UInt8 → Option (List Nat)
  | [] => some []
  | a :: b :: rest => (pairValues? highFirst rest).map (wordValue highFirst [a, b] :: ·)
  | _ => none

/-- The values of the groups of four bytes, if the bytes come in fours. -/
def fourValues? (highFirst : Bool) : List UInt8 → Option (List Nat)
  | [] => some []
  | a :: b :: c :: d :: rest =>
    (fourValues? highFirst rest).map (wordValue highFirst [a, b, c, d] :: ·)
  | _ => none

/-- The text of bytes in an encoding. -/
def decode? (bytes : ByteArray) : Encoding → Option (List Char)
  | utf8 => (String.fromUTF8? bytes).map String.toList
  | utf16 highFirst =>
    (pairValues? highFirst bytes.toList).map fun units => Text.nearestText (Text.joinPairs units)
  | utf32 highFirst =>
    ((fourValues? highFirst bytes.toList).filter fun points =>
      points.all fun n => decide (n ≤ 0x10FFFF)).map Text.nearestText

theorem ofBytes_of_ascii {a b : UInt8} (ha : a ≠ 0) (hb : b ≠ 0) (rest : List UInt8) :
    ofBytes (a :: b :: rest) = utf8 := by
  match rest with
  | [] => simp [ofBytes, ha, hb]
  | [c] => rfl
  | c :: d :: rest => simp [ofBytes, ha, hb]

end Encoding

end Checkup.Json
