import Checkup.Number.Binary64

/-!
# The shortest decimal numeral of a number

A finite number is written with the fewest significant digits that read back as the same number; of
the numerals with that many digits the nearest one is taken.

* `shortest_reads_back`: the chosen digits read back, whenever a search succeeds.
-/

namespace Checkup.Number.Binary64

/-- The digits of a natural number, most significant first. -/
def decimalDigits (n : Nat) : List Char := (toString n).toList

/-- `digits · 10^exponent`, a decimal numeral. -/
structure Numeral where
  digits : Nat
  exponent : Int
  deriving DecidableEq, Repr

/-- The numeral reads back as the positive number with mantissa `m` and exponent `e`. -/
def Numeral.readsAs (n : Numeral) (m : Nat) (e : Int) : Bool :=
  ofDecimal false n.digits n.exponent == finite false m e

/-- The greatest multiple of `10^exponent` that is at most `num / den`, counted in such units, and
whether twice the remainder is below, equal to or above one unit. -/
def gridBelow (num den : Nat) (exponent : Int) : Nat × Ordering :=
  let (n, d) :=
    if 0 ≤ exponent then (num, den * tenTo exponent.toNat) else (num * tenTo (-exponent).toNat, den)
  (n / d, compare (2 * (n % d)) d)

/-- The numeral on the grid `10^exponent` that reads back as the number, the nearer of its two
neighbours there if both do. -/
def onGrid? (num den m : Nat) (e exponent : Int) : Option Numeral :=
  let (q, side) := gridBelow num den exponent
  let below : Numeral := ⟨q, exponent⟩
  let above : Numeral := ⟨q + 1, exponent⟩
  match below.readsAs m e, above.readsAs m e with
  | true, true =>
    match side with
    | .lt => some below
    | .gt => some above
    | .eq => some (if q % 2 = 0 then below else above)
  | true, false => some below
  | false, true => some above
  | false, false => none

/-- The number of digits before the decimal point of a positive quotient; zero or negative for
quotients below one tenth. -/
def magnitude (num den : Nat) : Int :=
  if den ≤ num then (decimalDigits (num / den)).length
  else
    let inverse := (den - 1) / num
    1 - (decimalDigits inverse).length

/-- The shortest numeral that reads back, tried with one digit first and at most with 17. -/
def shortest? (m : Nat) (e : Int) : Option Numeral :=
  match toQuotient? (finite false m e) with
  | none => none
  | some (_, num, den) =>
    let top := magnitude num den
    (List.range 17).findSome? fun (i : Nat) => onGrid? num den m e (top - (i + 1 : Nat))

/-- The significant digits of a numeral without zeros at the end, and the place of its decimal point
after the first digit's left side: the value is `0.digits · 10^point`. -/
def Numeral.normal (n : Numeral) : List Char × Int :=
  let ds := decimalDigits n.digits
  (Text.dropTrailing (· == '0') ds, n.exponent + ds.length)

/-- How a number is laid out: positional up to these places of the point, with a fraction always
written, else with an exponent of at least two digits and a sign. -/
structure Layout where
  positionalAbove : Int
  positionalUpTo : Int
  infinity : String
  notANumber : String

/-- An exponent with its sign and at least two digits. -/
def exponentText (e : Int) : List Char :=
  let ds := decimalDigits e.natAbs
  (if e < 0 then '-' else '+') :: (if ds.length < 2 then '0' :: ds else ds)

/-- Digits with the decimal point at a place, in positional or exponent notation. -/
def layOut (layout : Layout) (ds : List Char) (point : Int) : List Char :=
  if layout.positionalAbove < point ∧ point ≤ layout.positionalUpTo then
    if point ≤ 0 then '0' :: '.' :: (List.replicate (-point).toNat '0' ++ ds)
    else
      let whole := point.toNat
      let head := ds.take whole ++ List.replicate (whole - ds.length) '0'
      let tail := ds.drop whole
      head ++ '.' :: (if tail.isEmpty then ['0'] else tail)
  else
    match ds with
    | [] => []
    | [d] => d :: 'e' :: exponentText (point - 1)
    | d :: rest => d :: '.' :: (rest ++ 'e' :: exponentText (point - 1))

/-- The text of a number under a layout. -/
def text (layout : Layout) : Binary64 → String
  | finite negative m e =>
    let body :=
      if m = 0 then ['0', '.', '0']
      else
        match shortest? m e with
        | some n => layOut layout n.normal.1 n.normal.2
        | none => []
    String.ofList (if negative then '-' :: body else body)
  | infinite negative => (if negative then "-" else "") ++ layout.infinity
  | notANumber => layout.notANumber

/-- Numbers in plain text: positional from `0.0001` up to below `10^16`. -/
def plainLayout : Layout := ⟨-4, 16, "inf", "nan"⟩

theorem readsAs_of_onGrid? {num den m : Nat} {e exponent : Int} {n : Numeral}
    (h : onGrid? num den m e exponent = some n) : n.readsAs m e = true := by
  simp only [onGrid?] at h
  split at h
  · rename_i hb ha
    split at h
    · simp_all
    · simp_all
    · simp only [Option.some.injEq] at h
      subst h
      split <;> simp_all
  · simp_all
  · simp_all
  · simp at h

theorem shortest_reads_back {m : Nat} {e : Int} {n : Numeral} (h : shortest? m e = some n) :
    ofDecimal false n.digits n.exponent = finite false m e := by
  simp only [shortest?] at h
  split at h
  · simp at h
  · obtain ⟨i, _, hi⟩ := List.exists_of_findSome?_eq_some h
    simpa [Numeral.readsAs] using readsAs_of_onGrid? hi

end Checkup.Number.Binary64
