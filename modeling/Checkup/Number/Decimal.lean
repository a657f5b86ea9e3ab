import Checkup.Number.Shortest

/-!
# Decimal numerals of a given precision

A number rounded to a given number of decimal places or of significant digits. The exact value is
rounded once, to the nearest numeral and a tie to the even digit.

* `length_padded`: a numeral is filled with zeros up to its width.
-/

namespace Checkup.Number

/-- Digits with zeros before them up to a width. -/
def padded (width : Nat) (ds : List Char) : List Char :=
  List.replicate (width - ds.length) '0' ++ ds

theorem length_padded {width : Nat} {ds : List Char} (h : ds.length ≤ width) :
    (padded width ds).length = width := by
  simp only [padded, List.length_append, List.length_replicate]
  omega

namespace Binary64

/-- Forms of a numeral with a given precision. -/
inductive Form
  /-- A number of decimal places. -/
  | places
  /-- A number of decimal places after the first digit, and an exponent. -/
  | exponent
  /-- A number of significant digits, in the shorter of the other two forms. -/
  | significant
  deriving DecidableEq, Repr

/-- Digits with a point before the last `places` of them; `point` keeps a point at the end. -/
def withPoint (point : Bool) (places : Nat) (ds : List Char) : List Char :=
  let cut := ds.length - places
  let tail := ds.drop cut
  ds.take cut ++ (if tail.isEmpty then (if point then ['.'] else []) else '.' :: tail)

/-- No number has more decimal places than this, nor more significant digits: zeros follow. -/
def exactDigits : Nat := 1100

/-- `num / den` with a number of decimal places. -/
def placesText (point : Bool) (places num den : Nat) : List Char :=
  let exact := min places exactDigits
  withPoint point places
    (padded (exact + 1) (decimalDigits (roundQuotient (num * tenTo exact) den)) ++
      List.replicate (places - exact) '0')

/-- The digits of `num / den` up to a number of places after the first one, which may have given
rise to one more, and the exponent of ten. -/
def leadingExact (places num den : Nat) : List Char × Int :=
  if num = 0 then (List.replicate (places + 1) '0', 0)
  else
    let top := magnitude num den - 1
    let shift : Int := places - top
    let digits :=
      if 0 ≤ shift then roundQuotient (num * tenTo shift.toNat) den
      else roundQuotient num (den * tenTo (-shift).toNat)
    let ds := decimalDigits digits
    if places + 1 < ds.length then (ds.take (places + 1), top + 1) else (ds, top)

/-- The digits of `num / den`, one before the point and `places` after it, with the exponent of
ten. -/
def leading (places num den : Nat) : List Char × Int :=
  let (ds, e) := leadingExact (min places exactDigits) num den
  (ds ++ List.replicate (places - exactDigits) '0', e)

/-- `num / den` with an exponent. -/
def exponentForm (point : Bool) (places num den : Nat) : List Char :=
  let (ds, e) := leading places num den
  withPoint point places ds ++ 'e' :: exponentText e

/-- A fraction without zeros at its end, and without the point if nothing is left after it. -/
def dropZeros (text : List Char) : List Char :=
  if text.contains '.' then Text.dropTrailing (· == '.') (Text.dropTrailing (· == '0') text)
  else text

/-- `num / den` with a number of significant digits; `point` keeps zeros at the end. -/
def significantText (point : Bool) (digits num den : Nat) : List Char :=
  let digits := max (if point then digits else min digits exactDigits) 1
  let (ds, e) := leading (digits - 1) num den
  if -4 ≤ e ∧ e < digits then
    let text := placesText point (digits - 1 - e).toNat num den
    if point then text else dropZeros text
  else
    let text := withPoint point (digits - 1) ds
    (if point then text else dropZeros text) ++ 'e' :: exponentText e

/-- A number in a form with a precision; `point` asks for a decimal point in any case. -/
def inForm (n : Form) (point : Bool) (precision : Nat) (x : Binary64) : List Char :=
  match x with
  | notANumber => ['n', 'a', 'n']
  | infinite negative => if negative then ['-', 'i', 'n', 'f'] else ['i', 'n', 'f']
  | finite negative m e =>
    match toQuotient? (finite negative m e) with
    | none => []
    | some (_, num, den) =>
      let text := match n with
        | .places => placesText point precision num den
        | .exponent => exponentForm point precision num den
        | .significant => significantText point precision num den
      if negative then '-' :: text else text

/-- The integer that is left when the fraction is cut off. -/
def truncated? (x : Binary64) : Option Int :=
  match x with
  | finite negative _ _ => (toQuotient? x).map fun (_, num, den) => signed negative (num / den)
  | _ => none

end Binary64

end Checkup.Number
