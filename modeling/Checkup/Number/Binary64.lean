import Checkup.Number.Integer

/-!
# Binary floating-point numbers of double precision

A number is a sign, a mantissa below `2^53` and an exponent of two, or an infinity, or no number at
all. All rounding goes through one function, `Binary64.round`, which takes an exact quotient to the
nearest number, and a tie to the even mantissa.

* `round_zero`: a zero keeps its sign.
-/

namespace Checkup.Number

/-- A double-precision number. A finite one has the value `± mantissa · 2^exponent`, with the
mantissa below `2^53` and at least `2^52` unless the exponent is the least one. -/
inductive Binary64
  | finite (negative : Bool) (mantissa : Nat) (exponent : Int)
  | infinite (negative : Bool)
  | notANumber
  deriving DecidableEq, Repr, Inhabited

namespace Binary64

/-- The least exponent. -/
def minExponent : Int := -1074

/-- The greatest exponent. -/
def maxExponent : Int := 971

/-- A zero with a sign. -/
def zero (negative : Bool) : Binary64 := finite negative 0 minExponent

/-- `num / den` as a pair of naturals, scaled by `2^(-exponent)`. -/
def scaleDown (num den : Nat) (exponent : Int) : Nat × Nat :=
  if 0 ≤ exponent then (num, den * twoTo exponent.toNat) else (num * twoTo (-exponent).toNat, den)

/-- The nearest integer to a quotient, a tie going to the even one. -/
def roundQuotient (num den : Nat) : Nat :=
  let q := num / den
  let r := num % den
  if 2 * r < den then q
  else if den < 2 * r then q + 1
  else if q % 2 = 0 then q else q + 1

/-- The greatest exponent at which `num / den` keeps at least 53 binary digits, not below the least
exponent. -/
def exponentFor (num den : Nat) : Int :=
  let guess : Int := (Nat.log2 num : Int) - (Nat.log2 den : Int) - 52
  let (n, d) := scaleDown num den guess
  let fitted := if n < d * twoTo 52 then guess - 1 else guess
  if fitted < minExponent then minExponent else fitted

/-- The mantissa of `num / den` at an exponent. -/
def mantissaAt (num den : Nat) (exponent : Int) : Nat :=
  roundQuotient (scaleDown num den exponent).1 (scaleDown num den exponent).2

/-- A mantissa that rounding filled up to `2^53` is halved. -/
def carry (mantissa : Nat) (exponent : Int) : Nat × Int :=
  if mantissa = twoTo 53 then (twoTo 52, exponent + 1) else (mantissa, exponent)

/-- The finite number with a mantissa and an exponent, or an infinity if the exponent is too
great. -/
def ofParts (negative : Bool) (parts : Nat × Int) : Binary64 :=
  if maxExponent < parts.2 then infinite negative else finite negative parts.1 parts.2

/-- The number nearest to `± num / den`. -/
def round (negative : Bool) (num den : Nat) : Binary64 :=
  if num = 0 then zero negative
  else
    let e := exponentFor num den
    ofParts negative (carry (mantissaAt num den e) e)

/-- The number nearest to `± digits · 10^exponent`. Far outside the range of finite numbers the
power is not computed. -/
def ofDecimal (negative : Bool) (digits : Nat) (exponent : Int) : Binary64 :=
  if digits = 0 then zero negative
  else
    let magnitude : Int := exponent + (Nat.log2 digits : Int) / 3
    let least : Int := exponent + (Nat.log2 digits : Int) / 4
    if 400 < least then infinite negative
    else if magnitude < -400 then zero negative
    else if 0 ≤ exponent then round negative (digits * tenTo exponent.toNat) 1
    else round negative digits (tenTo (-exponent).toNat)

/-- The number nearest to an integer. -/
def ofInt (n : Int) : Binary64 := round (decide (n < 0)) n.natAbs 1

/-- The exact value of a finite number as a quotient: sign, numerator, denominator. -/
def toQuotient? : Binary64 → Option (Bool × Nat × Nat)
  | finite negative m e =>
    if 0 ≤ e then some (negative, m * twoTo e.toNat, 1) else some (negative, m, twoTo (-e).toNat)
  | _ => none

/-- The number with the other sign. -/
def neg : Binary64 → Binary64
  | finite negative m e => finite (!negative) m e
  | infinite negative => infinite (!negative)
  | notANumber => notANumber

/-- The number is zero, with either sign. -/
def isZero : Binary64 → Bool
  | finite _ m _ => m == 0
  | _ => false

/-- The number is neither an infinity nor no number at all. -/
def isFinite : Binary64 → Bool
  | finite .. => true
  | _ => false

/-- The number is at least an integer; one that is no number at all is not. -/
def atLeast (x : Binary64) (n : Int) : Bool :=
  match x with
  | infinite negative => !negative
  | finite negative m e =>
    match toQuotient? (finite negative m e) with
    | some (negative, num, den) => decide (n * den ≤ signed negative num)
    | none => false
  | notANumber => false

/-- The signed quotient of two values as a sign, numerator and denominator after addition. -/
def addQuotients (a b : Bool × Nat × Nat) : Bool × Nat × Nat :=
  let x : Int := signed a.1 (a.2.1 * b.2.2)
  let y : Int := signed b.1 (b.2.1 * a.2.2)
  let s := x + y
  (if s = 0 then a.1 && b.1 else decide (s < 0), s.natAbs, a.2.2 * b.2.2)

/-- The rounded sum. -/
def add (x y : Binary64) : Binary64 :=
  match x, y with
  | notANumber, _ => notANumber
  | _, notANumber => notANumber
  | infinite a, infinite b => if a = b then infinite a else notANumber
  | infinite a, _ => infinite a
  | _, infinite b => infinite b
  | finite a m e, finite b n f =>
    match toQuotient? (finite a m e), toQuotient? (finite b n f) with
    | some p, some q =>
      let (negative, num, den) := addQuotients p q
      round negative num den
    | _, _ => notANumber

/-- The rounded product. -/
def mul (x y : Binary64) : Binary64 :=
  match x, y with
  | notANumber, _ => notANumber
  | _, notANumber => notANumber
  | infinite a, infinite b => infinite (a != b)
  | infinite a, finite b n _ => if n = 0 then notANumber else infinite (a != b)
  | finite a m _, infinite b => if m = 0 then notANumber else infinite (a != b)
  | finite a m e, finite b n f =>
    match toQuotient? (finite a m e), toQuotient? (finite b n f) with
    | some (_, p, q), some (_, r, s) => round (a != b) (p * r) (q * s)
    | _, _ => notANumber

theorem round_zero (negative : Bool) (den : Nat) : round negative 0 den = zero negative := rfl

theorem neg_neg (x : Binary64) : x.neg.neg = x := by
  cases x <;> simp [neg]

example : ofDecimal false 1 (-1) = finite false 0x1999999999999A (-56) := by decide +kernel
example : ofDecimal false 5 (-324) = finite false 1 (-1074) := by decide +kernel
example : ofDecimal true 1 400 = infinite true := by decide +kernel
example : ofDecimal false 2 (-324) = zero false := by decide +kernel

end Binary64

end Checkup.Number
