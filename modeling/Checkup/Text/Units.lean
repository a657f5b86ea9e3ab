/-!
# UTF-16 units

A character beyond U+FFFF is a pair of units, a high one and a low one. Half of a pair that stands
alone names no character, so a sequence of units with such a half in it is no text.

* `isHalf_toNat`: no character is half of a pair.
* `pairValue_split`, `isPair_split`: a code point beyond U+FFFF and its units.
-/

namespace Checkup.Text

/-- The first half of a pair of UTF-16 units. -/
def isHighUnit (n : Nat) : Bool := decide (0xD800 ≤ n) && decide (n ≤ 0xDBFF)

/-- The second half of a pair of UTF-16 units. -/
def isLowUnit (n : Nat) : Bool := decide (0xDC00 ≤ n) && decide (n ≤ 0xDFFF)

/-- Half of a pair: it names no character by itself. -/
def isHalf (n : Nat) : Bool := isHighUnit n || isLowUnit n

/-- A number that is a character or half of a pair. -/
def IsPoint (n : Nat) : Prop := n < 0x110000

instance (n : Nat) : Decidable (IsPoint n) := inferInstanceAs (Decidable (n < 0x110000))

/-- Half of a pair by which a file name shows a byte that is part of no character. -/
def isByteHalf (n : Nat) : Bool := decide (0xDC80 ≤ n) && decide (n ≤ 0xDCFF)

/-- The code point of a pair of units. -/
def pairValue (high low : Nat) : Nat := 0x10000 + (high - 0xD800) * 0x400 + (low - 0xDC00)

/-- The code points that a sequence of units and code points names. Halves that stand alone stay. -/
def joinPairs : List Nat → List Nat
  | [] => []
  | [n] => [n]
  | n :: m :: rest =>
    if isHighUnit n && isLowUnit m then pairValue n m :: joinPairs rest
    else n :: joinPairs (m :: rest)

/-- The character that stands where none can be named. -/
def replacement : Char := '\ufffd'

/-- The character of a code point, the replacement character for half of a pair. -/
def nearestChar (n : Nat) : Char := if isHalf n then replacement else Char.ofNat n

/-- The text of code points, with the replacement character for every half of a pair. -/
def nearestText (points : List Nat) : List Char := points.map nearestChar

/-- The UTF-16 units of a code point. -/
def pointUnits (n : Nat) : List Nat :=
  if n < 0x10000 then [n] else [0xD800 + (n - 0x10000) / 0x400, 0xDC00 + (n - 0x10000) % 0x400]

theorem isHalf_iff (n : Nat) : isHalf n = true ↔ 0xD800 ≤ n ∧ n ≤ 0xDFFF := by
  simp only [isHalf, isHighUnit, isLowUnit, Bool.or_eq_true, Bool.and_eq_true, decide_eq_true_eq]
  omega

theorem isHalf_toNat (c : Char) : isHalf c.toNat = false := by
  have hc : c.toNat < 0xD800 ∨ (0xDFFF < c.toNat ∧ c.toNat < 0x110000) := c.valid
  rw [← Bool.not_eq_true, isHalf_iff]
  omega

theorem isPoint_toNat (c : Char) : IsPoint c.toNat := by
  rcases (show c.toNat < 0xD800 ∨ (0xDFFF < c.toNat ∧ c.toNat < 0x110000) from c.valid) with h | h
  · exact Nat.lt_trans h (by decide)
  · exact h.2

theorem toNat_ofNat_of_not_half {n : Nat} (h : IsPoint n) (hn : isHalf n = false) :
    (Char.ofNat n).toNat = n := by
  have hv : n.isValidChar := by
    have hhalf : ¬ (0xD800 ≤ n ∧ n ≤ 0xDFFF) := by
      rw [← isHalf_iff, hn]
      exact Bool.false_ne_true
    have hlt : n < 0x110000 := h
    unfold Nat.isValidChar
    omega
  rw [Char.ofNat, dif_pos hv]
  exact UInt32.toNat_ofNatLT ..

theorem pairValue_split {n : Nat} (h : 0x10000 ≤ n) {m : Nat} (hm : m = n - 0x10000) :
    pairValue (0xD800 + m / 0x400) (0xDC00 + m % 0x400) = n := by
  unfold pairValue
  omega

theorem isPair_split {m : Nat} (h : m < 0x100000) :
    (isHighUnit (0xD800 + m / 0x400) && isLowUnit (0xDC00 + m % 0x400)) = true := by
  simp only [isHighUnit, isLowUnit, Bool.and_eq_true, decide_eq_true_eq]
  omega

end Checkup.Text
