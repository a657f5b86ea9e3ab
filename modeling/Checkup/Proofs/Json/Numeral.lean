import Checkup.Json.Parser
import Checkup.Json.Printer
import Checkup.Proofs.Number.Shortest

/-!
# Numbers in JSON text

A numeral is its whole digits, the digits of a fraction and an exponent. What is written for a number
is read as that number, provided that the text after it does not go on with the numeral.

* `number_whole`: whole digits alone are an integer.
* `number_parts`: a fraction or an exponent makes a floating-point number.
* `atom_intText`, `atom_floatText`: written numbers read back.
-/

namespace Checkup.Json

open Number (Binary64 signed digitsValue)
open Number.Binary64 (decimalDigits Numeral exponentText layOut ofDecimal IsNormal)

/-! ## Digits -/

/-- The text does not begin with a character that could continue a numeral. -/
def EndsNumeral (rest : List Char) : Prop :=
  ∀ c ∈ rest.head?, isDigit c = false ∧ c ≠ '.' ∧ c ≠ 'e' ∧ c ≠ 'E'

/-- All characters are ASCII digits. -/
def Digits (ds : List Char) : Prop := ∀ c ∈ ds, isDigit c = true

/-- The values of digits. -/
def digitValues (ds : List Char) : List Nat := ds.map (·.toNat - '0'.toNat)

theorem isDigit_eq (c : Char) : isDigit c = c.isDigit := by
  unfold isDigit Char.isDigit
  rfl

theorem Digits.append {ds es : List Char} (hd : Digits ds) (he : Digits es) : Digits (ds ++ es) := by
  intro c hc
  rcases List.mem_append.mp hc with h | h
  · exact hd c h
  · exact he c h

theorem Digits.of_append {ds es : List Char} (h : Digits (ds ++ es)) : Digits ds ∧ Digits es :=
  ⟨fun c hc => h c (List.mem_append_left es hc), fun c hc => h c (List.mem_append_right ds hc)⟩

theorem digits_replicate (k : Nat) : Digits (List.replicate k '0') := by
  intro c hc
  rw [List.eq_of_mem_replicate hc]
  rfl

theorem digits_decimalDigits (n : Nat) : Digits (decimalDigits n) := by
  intro c hc
  rw [decimalDigits, Nat.toString_eq_repr, Nat.toList_repr] at hc
  rw [isDigit_eq]
  exact Nat.isDigit_of_mem_toDigits (by decide) (by decide) hc

theorem digitsValue_digitValues (ds : List Char) :
    digitsValue 10 (digitValues ds) = Nat.ofDigitChars 10 ds 0 := by
  rw [digitsValue, digitValues, List.foldl_map, Nat.ofDigitChars_eq_foldl]
  simp only [Nat.mul_comm 10]

theorem digitValues_append (ds es : List Char) :
    digitValues (ds ++ es) = digitValues ds ++ digitValues es := List.map_append

theorem length_digitValues (ds : List Char) : (digitValues ds).length = ds.length :=
  List.length_map _

theorem ofDigitChars_decimalDigits (n : Nat) : Nat.ofDigitChars 10 (decimalDigits n) 0 = n := by
  rw [decimalDigits, Nat.toString_eq_repr, Nat.toList_repr, Nat.ofDigitChars_ten_toDigits]

theorem decimalDigits_ne_nil (n : Nat) : decimalDigits n ≠ [] := by
  rw [decimalDigits, Nat.toString_eq_repr, Nat.toList_repr]
  exact Nat.toDigits_ne_nil

theorem digitChar_ne_zero : ∀ d : Fin 10, d.val ≠ 0 → Nat.digitChar d.val ≠ '0' := by decide

/-- The numeral of a positive number has no leading zero. -/
theorem head_toDigits {n : Nat} (h : n ≠ 0) : (Nat.toDigits 10 n).head? ≠ some '0' := by
  induction n using Nat.strongRecOn with
  | ind n ih =>
    rcases Nat.lt_or_ge n 10 with hlt | hge
    · rw [Nat.toDigits_of_lt_base hlt]
      intro hc
      exact digitChar_ne_zero ⟨n, hlt⟩ h (Option.some.inj hc)
    · rw [Nat.toDigits_of_base_le (by decide) hge, List.head?_append_of_ne_nil _ Nat.toDigits_ne_nil]
      exact ih (n / 10) (Nat.div_lt_self (by omega) (by decide)) (by omega)

theorem head_decimalDigits {n : Nat} (h : n ≠ 0) : (decimalDigits n).head? ≠ some '0' := by
  rw [decimalDigits, Nat.toString_eq_repr, Nat.toList_repr]
  exact head_toDigits h

theorem takeDigits_append {ds rest : List Char} (hd : Digits ds)
    (hr : ∀ c ∈ rest.head?, isDigit c = false) : takeDigits (ds ++ rest) = (digitValues ds, rest) := by
  have hstop : rest.takeWhile isDigit = [] ∧ rest.dropWhile isDigit = rest := by
    cases rest with
    | nil => exact ⟨rfl, rfl⟩
    | cons c more =>
      have hc : isDigit c = false := hr c rfl
      exact ⟨by rw [List.takeWhile_cons, hc]; rfl, by rw [List.dropWhile_cons, hc]; rfl⟩
  unfold takeDigits
  rw [List.takeWhile_append_of_pos hd, List.dropWhile_append_of_pos hd, hstop.1, hstop.2,
    List.append_nil]
  rfl

theorem EndsNumeral.not_digit {rest : List Char} (h : EndsNumeral rest) :
    ∀ c ∈ rest.head?, isDigit c = false := fun c hc => (h c hc).1

/-! ## The parts of a numeral -/

/-- The text of a fraction; none without digits. -/
def fractionText (fraction : List Char) : List Char :=
  if fraction = [] then [] else '.' :: fraction

/-- The text of an exponent with a sign. -/
def powerText : Option (Bool × List Char) → List Char
  | none => []
  | some (down, ds) => 'e' :: (if down then '-' else '+') :: ds

/-- The exponent that is written. -/
def powerValue : Option (Bool × List Char) → Int
  | none => 0
  | some (down, ds) => signed down (Nat.ofDigitChars 10 ds 0)

/-- Digits without a leading zero, or a zero alone. -/
def IsWhole (ds : List Char) : Prop := Digits ds ∧ ds ≠ [] ∧ (ds = ['0'] ∨ ds.head? ≠ some '0')

/-- An exponent has digits. -/
def IsPower : Option (Bool × List Char) → Prop
  | none => True
  | some (_, ds) => Digits ds ∧ ds ≠ []

theorem takeWhole_append {whole rest : List Char} (h : IsWhole whole)
    (hr : ∀ c ∈ rest.head?, isDigit c = false) :
    takeWhole (whole ++ rest) = (digitValues whole, rest) := by
  obtain ⟨hd, hne, rfl | hz⟩ := h
  · rfl
  · cases whole with
    | nil => exact absurd rfl hne
    | cons c more =>
      have hc : c ≠ '0' := fun hc => hz (by rw [hc]; rfl)
      have htake : takeWhole ((c :: more) ++ rest) = takeDigits ((c :: more) ++ rest) := by
        rw [List.cons_append, takeWhole.eq_def]
        split
        · rename_i heq
          exact absurd (List.cons.inj heq).1 hc
        · rfl
      rw [htake, takeDigits_append hd hr]

theorem digitValues_ne_nil {ds : List Char} (h : ds ≠ []) : digitValues ds ≠ [] := by
  intro h0
  exact h (List.map_eq_nil_iff.mp h0)

theorem takeFraction_append {fraction rest : List Char} (hd : Digits fraction)
    (hr : ∀ c ∈ rest.head?, isDigit c = false ∧ c ≠ '.') :
    takeFraction (fractionText fraction ++ rest) = (digitValues fraction, rest) := by
  unfold fractionText
  split
  · rename_i h
    subst h
    cases rest with
    | nil => rfl
    | cons c more =>
      have hc : c ≠ '.' := (hr c rfl).2
      rw [List.nil_append, takeFraction.eq_def]
      split
      · rename_i heq
        exact absurd (List.cons.inj heq).1 hc
      · rfl
  · rename_i h
    rw [List.cons_append, takeFraction, takeDigits_append hd fun c hc => (hr c hc).1]
    have hne := digitValues_ne_nil h
    cases hv : digitValues fraction with
    | nil => exact absurd hv hne
    | cons d ds => rfl

theorem takeExponent_append {power : Option (Bool × List Char)} {rest : List Char}
    (hp : IsPower power) (hr : EndsNumeral rest) :
    takeExponent (powerText power ++ rest) =
      (power.map fun p => (p.1, digitValues p.2), rest) := by
  cases power with
  | none =>
    cases rest with
    | nil => rfl
    | cons c more =>
      obtain ⟨-, -, h1, h2⟩ := hr c rfl
      rw [powerText, List.nil_append]
      unfold takeExponent
      exact if_neg (not_or.mpr ⟨h1, h2⟩)
  | some p =>
    obtain ⟨down, ds⟩ := p
    obtain ⟨hd, hne⟩ := hp
    have htake := takeDigits_append hd hr.not_digit
    have hv := digitValues_ne_nil hne
    cases down
    · simp only [powerText, takeExponent, List.cons_append, Bool.false_eq_true, if_false, true_or,
        if_true, htake]
      cases hv' : digitValues ds with
      | nil => exact absurd hv' hv
      | cons d ds => simp [hv']
    · simp only [powerText, takeExponent, List.cons_append, true_or, if_true, htake]
      cases hv' : digitValues ds with
      | nil => exact absurd hv' hv
      | cons d ds => simp [hv']

/-! ## Reading a numeral -/

theorem head_power_append (power : Option (Bool × List Char)) {rest : List Char}
    (hr : EndsNumeral rest) :
    ∀ c ∈ (powerText power ++ rest).head?, isDigit c = false ∧ c ≠ '.' := by
  intro c hc
  cases power with
  | none => exact ⟨(hr c hc).1, (hr c hc).2.1⟩
  | some p =>
    obtain rfl : 'e' = c := Option.some.inj hc
    exact ⟨rfl, by decide⟩

theorem head_fraction_append {fraction more : List Char}
    (hr : ∀ c ∈ more.head?, isDigit c = false ∧ c ≠ '.') :
    ∀ c ∈ (fractionText fraction ++ more).head?, isDigit c = false := by
  intro c hc
  unfold fractionText at hc
  split at hc
  · exact (hr c hc).1
  · obtain rfl : '.' = c := Option.some.inj hc
    rfl

theorem number_whole (negative : Bool) {whole rest : List Char} (hw : IsWhole whole)
    (hlen : whole.length ≤ Number.maxDecimalDigits) (hr : EndsNumeral rest) :
    number negative (whole ++ rest) =
      .ok (.int (signed negative (Nat.ofDigitChars 10 whole 0)), rest) := by
  have hfraction : takeFraction rest = ([], rest) :=
    takeFraction_append (List.forall_mem_nil _) fun c hc =>
      ⟨(hr c hc).1, (hr c hc).2.1⟩
  have hnone : IsPower none := trivial
  have hpower : takeExponent rest = (none, rest) := takeExponent_append hnone hr
  have hne := digitValues_ne_nil hw.2.1
  have hvalue := digitsValue_digitValues whole
  have hlength := length_digitValues whole
  unfold number
  rw [takeWhole_append hw hr.not_digit]
  generalize digitValues whole = values at *
  cases values with
  | nil => exact absurd rfl hne
  | cons d ds =>
    dsimp only
    rw [hfraction]
    dsimp only
    rw [hpower]
    dsimp only
    have hplain : (([] : List Nat).isEmpty && (none : Option (Bool × List Nat)).isNone) = true := rfl
    rw [if_pos hplain, hlength, if_neg (by omega), hvalue]

theorem number_parts (negative : Bool) {whole fraction rest : List Char}
    {power : Option (Bool × List Char)} (hw : IsWhole whole) (hf : Digits fraction)
    (hp : IsPower power) (hsome : fraction ≠ [] ∨ power ≠ none) (hr : EndsNumeral rest) :
    number negative (whole ++ (fractionText fraction ++ (powerText power ++ rest))) =
      .ok (.float (ofDecimal negative (Nat.ofDigitChars 10 (whole ++ fraction) 0)
        (powerValue power - fraction.length)), rest) := by
  have hhead := head_power_append power hr
  have hne := digitValues_ne_nil hw.2.1
  have hvalue := digitsValue_digitValues (whole ++ fraction)
  have hlength := length_digitValues fraction
  have hfraction : fraction ≠ [] → digitValues fraction ≠ [] := digitValues_ne_nil
  rw [digitValues_append] at hvalue
  unfold number
  rw [takeWhole_append hw (head_fraction_append hhead)]
  generalize digitValues whole = values at *
  cases values with
  | nil => exact absurd rfl hne
  | cons d ds =>
    dsimp only
    rw [takeFraction_append hf hhead]
    dsimp only
    rw [takeExponent_append hp hr]
    dsimp only
    rw [hvalue, hlength]
    cases power with
    | none =>
      have hf' := hfraction (hsome.resolve_right fun h => h rfl)
      have hempty : (digitValues fraction).isEmpty = false := by
        cases hv : digitValues fraction with
        | nil => exact absurd hv hf'
        | cons d ds => rfl
      simp only [hempty, Bool.false_and, Bool.false_eq_true, if_false, Option.map_none, powerValue]
    | some p =>
      obtain ⟨down, es⟩ := p
      simp only [Option.map_some, Option.isNone_some, Bool.and_false, Bool.false_eq_true, if_false,
        powerValue, digitsValue_digitValues]

/-! ## Written numbers -/

theorem not_word_of_digit {c : Char} (h : isDigit c = true) (rest : List Char) :
    words.findSome? (fun (word, value) => (dropWord? word (c :: rest)).map (value, ·)) = none ∧
    words.findSome? (fun (word, value) => (dropWord? word ('-' :: c :: rest)).map (value, ·)) =
      none := by
  have hne : ∀ d : Char, isDigit d = false → d ≠ c := by
    rintro d hd rfl
    rw [h] at hd
    cases hd
  have hn := hne 'n' rfl
  have ht := hne 't' rfl
  have hf := hne 'f' rfl
  have hN := hne 'N' rfl
  have hI := hne 'I' rfl
  have hm := hne '-' rfl
  constructor
  · simp [words, dropWord?, hn, ht, hf, hN, hI, hm]
  · simp [words, dropWord?, hI]

/-- A numeral, with or without a minus sign, is read as a number. -/
theorem atom_numeral (negative : Bool) {c : Char} (h : isDigit c = true) (rest : List Char) :
    atom (if negative then '-' :: c :: rest else c :: rest) = number negative (c :: rest) := by
  obtain ⟨h1, h2⟩ := not_word_of_digit h rest
  cases negative
  · have hne : ∀ d : Char, isDigit d = false → c ≠ d := by
      rintro d hd rfl
      rw [h] at hd
      cases hd
    rw [if_neg Bool.false_ne_true]
    unfold atom
    rw [h1]
    dsimp only
    split
    · rename_i heq
      exact absurd (List.cons.inj heq).1 (hne '"' rfl)
    · rename_i heq
      exact absurd (List.cons.inj heq).1 (hne '-' rfl)
    · rfl
  · rw [if_pos rfl]
    unfold atom
    rw [h2]
    rfl

theorem isWhole_decimalDigits (n : Nat) : IsWhole (decimalDigits n) := by
  refine ⟨digits_decimalDigits n, decimalDigits_ne_nil n, ?_⟩
  rcases eq_or_ne n 0 with rfl | h
  · exact .inl rfl
  · exact .inr (head_decimalDigits h)

theorem intText_eq (n : Int) :
    (Number.intText n).toList =
      if n < 0 then '-' :: decimalDigits n.natAbs else decimalDigits n.natAbs := by
  have hn : Number.intText n = if 0 ≤ n then n.toNat.repr else "-" ++ (-n).toNat.repr := Int.repr_eq_if
  have hd (k : Nat) : k.repr.toList = decimalDigits k := rfl
  rw [hn]
  split
  · rename_i h
    have habs : n.natAbs = n.toNat := by omega
    rw [if_neg (by omega), hd, habs]
  · rename_i h
    have habs : n.natAbs = (-n).toNat := by omega
    rw [if_pos (by omega), String.toList_append, hd, habs]
    rfl

theorem signed_natAbs (n : Int) : signed (decide (n < 0)) n.natAbs = n := by
  unfold signed
  split
  · rename_i h
    have := of_decide_eq_true h
    omega
  · rename_i h
    have : ¬ n < 0 := fun hn => h (decide_eq_true hn)
    omega

/-- Integers of not too many digits read back. -/
theorem atom_intText {n : Int} (h : (decimalDigits n.natAbs).length ≤ Number.maxDecimalDigits)
    {rest : List Char} (hr : EndsNumeral rest) :
    atom ((Number.intText n).toList ++ rest) = .ok (.int n, rest) := by
  have hw := isWhole_decimalDigits n.natAbs
  have hread := number_whole (decide (n < 0)) hw h hr
  rw [ofDigitChars_decimalDigits, signed_natAbs] at hread
  rw [← hread, intText_eq]
  generalize decimalDigits n.natAbs = ds at *
  cases ds with
  | nil => exact absurd rfl hw.2.1
  | cons c more =>
    have hc : isDigit c = true := hw.1 c (List.mem_cons_self ..)
    rw [List.cons_append, ← atom_numeral _ hc]
    by_cases hn : n < 0
    · rw [if_pos hn, if_pos (decide_eq_true hn)]
      rfl
    · rw [if_neg hn, if_neg (by simpa using hn)]
      rfl

/-! ## Written floating-point numbers -/

theorem ofDigitChars_append_zeros (ds : List Char) (k : Nat) :
    Nat.ofDigitChars 10 (ds ++ List.replicate k '0') 0 = 10 ^ k * Nat.ofDigitChars 10 ds 0 := by
  rw [Nat.ofDigitChars_append, Nat.ofDigitChars_replicate_zero]

theorem ofDigitChars_zeros_append (k : Nat) (ds : List Char) :
    Nat.ofDigitChars 10 (List.replicate k '0' ++ ds) 0 = Nat.ofDigitChars 10 ds 0 := by
  rw [Nat.ofDigitChars_append, Nat.ofDigitChars_replicate_zero, Nat.mul_zero]

theorem powerText_some (down : Bool) (ds : List Char) :
    powerText (some (down, ds)) = 'e' :: (if down then '-' else '+') :: ds := rfl

theorem powerValue_some (down : Bool) (ds : List Char) :
    powerValue (some (down, ds)) = signed down (Nat.ofDigitChars 10 ds 0) := rfl

/-- A written exponent has a sign, and digits that name it. -/
theorem exponentText_parts (e : Int) :
    ∃ ds, 'e' :: exponentText e = powerText (some (decide (e < 0), ds)) ∧
      IsPower (some (decide (e < 0), ds)) ∧ powerValue (some (decide (e < 0), ds)) = e := by
  have hd := digits_decimalDigits e.natAbs
  have hne := decimalDigits_ne_nil e.natAbs
  have hvalue := ofDigitChars_decimalDigits e.natAbs
  obtain ⟨ds, hds, hdigits, hnonempty, hof⟩ : ∃ ds, exponentText e =
      (if e < 0 then '-' else '+') :: ds ∧ Digits ds ∧ ds ≠ [] ∧
        Nat.ofDigitChars 10 ds 0 = e.natAbs := by
    unfold exponentText
    dsimp only
    by_cases hlen : (decimalDigits e.natAbs).length < 2
    · rw [if_pos hlen]
      exact ⟨_, rfl, (digits_replicate 1).append hd, by simp,
        (ofDigitChars_zeros_append 1 _).trans hvalue⟩
    · rw [if_neg hlen]
      exact ⟨_, rfl, hd, hne, hvalue⟩
  refine ⟨ds, ?_, ⟨hdigits, hnonempty⟩, ?_⟩
  · rw [hds, powerText_some]
    simp only [decide_eq_true_eq]
  · rw [powerValue_some, hof, signed_natAbs]

/-- A text is a numeral that is read as `digits · 10^exponent`. -/
def IsNumeral (text : List Char) (digits : Nat) (exponent : Int) : Prop :=
  ∃ whole fraction power, text = whole ++ (fractionText fraction ++ powerText power) ∧
    IsWhole whole ∧ Digits fraction ∧ IsPower power ∧ (fraction ≠ [] ∨ power ≠ none) ∧
    ((Nat.ofDigitChars 10 (whole ++ fraction) 0 : Nat) : ℚ) *
      10 ^ (powerValue power - fraction.length) = digits * 10 ^ exponent

theorem isWhole_of_head {ds : List Char} (hd : Digits ds) (hne : ds ≠ [])
    (hz : ds.head? ≠ some '0') : IsWhole ds := ⟨hd, hne, .inr hz⟩

theorem fractionText_of_ne {fraction : List Char} (h : fraction ≠ []) :
    fractionText fraction = '.' :: fraction := if_neg h

theorem layOut_small {ds : List Char} {point : Int} (hd : Digits ds) (hne : ds ≠ [])
    (hp : point ≤ 0) :
    IsNumeral ('0' :: '.' :: (List.replicate (-point).toNat '0' ++ ds))
      (Nat.ofDigitChars 10 ds 0) (point - ds.length) := by
  have hf : List.replicate (-point).toNat '0' ++ ds ≠ [] := by simp [hne]
  refine ⟨['0'], List.replicate (-point).toNat '0' ++ ds, none, ?_, ⟨digits_replicate 1, by simp,
    .inl rfl⟩, (digits_replicate _).append hd, trivial, .inl hf, ?_⟩
  · rw [fractionText_of_ne hf, powerText, List.append_nil]
    rfl
  · have hzero : ['0'] ++ (List.replicate (-point).toNat '0' ++ ds) =
        List.replicate ((-point).toNat + 1) '0' ++ ds := by
      rw [List.replicate_succ]
      rfl
    have he : powerValue none - ((List.replicate (-point).toNat '0' ++ ds).length : Int) =
        point - ds.length := by
      rw [powerValue, List.length_append, List.length_replicate]
      omega
    rw [hzero, ofDigitChars_zeros_append, he]

theorem layOut_medium {ds : List Char} {point : Int} (hd : Digits ds) (hne : ds ≠ [])
    (hz : ds.head? ≠ some '0') (hp : 0 < point) :
    IsNumeral (ds.take point.toNat ++ List.replicate (point.toNat - ds.length) '0' ++
      '.' :: (if (ds.drop point.toNat).isEmpty then ['0'] else ds.drop point.toNat))
      (Nat.ofDigitChars 10 ds 0) (point - ds.length) := by
  obtain ⟨w, hw⟩ : ∃ w : Nat, point = w := ⟨point.toNat, by omega⟩
  subst hw
  rw [Int.toNat_natCast]
  have hw0 : w ≠ 0 := by omega
  rcases Nat.lt_or_ge w ds.length with hlt | hge
  · have hdrop : ds.drop w ≠ [] := by
      intro h0
      have := List.drop_eq_nil_iff.mp h0
      omega
    have hempty : (ds.drop w).isEmpty = false := List.isEmpty_eq_false_iff.mpr hdrop
    have hrep : w - ds.length = 0 := by omega
    rw [hempty, hrep, List.replicate_zero, List.append_nil]
    have hsplit : ds.take w ++ ds.drop w = ds := List.take_append_drop w ds
    have hd' : Digits (ds.take w) ∧ Digits (ds.drop w) := by
      rw [← hsplit] at hd
      exact hd.of_append
    have htake : ds.take w ≠ [] := by
      intro h0
      rcases List.take_eq_nil_iff.mp h0 with h | h
      · exact hw0 h
      · exact hne h
    have hhead : (ds.take w).head? = ds.head? := by
      rw [List.head?_take, if_neg hw0]
    refine ⟨ds.take w, ds.drop w, none, ?_, isWhole_of_head hd'.1 htake (hhead ▸ hz), hd'.2, trivial,
      .inl hdrop, ?_⟩
    · rw [fractionText_of_ne hdrop, powerText, List.append_nil]
      rfl
    · have he : powerValue none - ((ds.drop w).length : Int) = (w : Int) - ds.length := by
        rw [powerValue, List.length_drop]
        omega
      rw [hsplit, he]
  · have hdrop : ds.drop w = [] := List.drop_eq_nil_iff.mpr hge
    rw [hdrop, List.take_of_length_le hge]
    refine ⟨ds ++ List.replicate (w - ds.length) '0', ['0'], none, rfl, isWhole_of_head
      (hd.append (digits_replicate _)) (by simp [hne]) ?_, digits_replicate 1, trivial, .inl (by simp),
      ?_⟩
    · rw [List.head?_append_of_ne_nil _ hne]
      exact hz
    · have hzeros : ds ++ List.replicate (w - ds.length) '0' ++ ['0'] =
          ds ++ List.replicate (w - ds.length + 1) '0' := by
        rw [List.append_assoc, List.replicate_succ']
      have he : powerValue none - ((['0'] : List Char).length : Int) = -1 := rfl
      have hpow : (w : Int) - ds.length = ((w - ds.length + 1 : Nat) : Int) + -1 := by
        push_cast [hge]
        ring
      rw [hzeros, ofDigitChars_append_zeros, he, hpow, zpow_add₀ (by norm_num), zpow_natCast]
      push_cast
      ring

theorem layOut_exponent {d : Char} {rest : List Char} (point : Int) (hd : Digits ([d] ++ rest))
    (hz : d ≠ '0') :
    IsNumeral (d :: (fractionText rest ++ 'e' :: exponentText (point - 1)))
      (Nat.ofDigitChars 10 (d :: rest) 0) (point - (d :: rest).length) := by
  obtain ⟨es, htext, hpower, hvalue⟩ := exponentText_parts (point - 1)
  have hd' : Digits [d] ∧ Digits rest := Digits.of_append hd
  have hwhole : IsWhole [d] := isWhole_of_head hd'.1 (by simp) fun h => hz (Option.some.inj h)
  refine ⟨[d], rest, some (decide (point - 1 < 0), es), ?_, hwhole, hd'.2, hpower, .inr (by simp), ?_⟩
  · rw [htext]
    rfl
  · have he : point - 1 - (rest.length : Int) = point - ((d :: rest).length : Int) := by
      rw [List.length_cons]
      omega
    rw [hvalue, he]
    rfl

theorem isNumeral_layOut {ds : List Char} (hd : Digits ds) (hne : ds ≠ []) (hz : ds.head? ≠ some '0')
    (point : Int) :
    IsNumeral (layOut numberLayout ds point) (Nat.ofDigitChars 10 ds 0) (point - ds.length) := by
  unfold layOut
  split
  · split
    · rename_i hp
      exact layOut_small hd hne hp
    · rename_i hp
      exact layOut_medium hd hne hz (by omega)
  · cases ds with
    | nil => exact absurd rfl hne
    | cons d rest =>
      have h0 : d ≠ '0' := fun h => hz (by rw [h]; rfl)
      have hlay := layOut_exponent point hd h0
      cases rest with
      | nil => exact hlay
      | cons d' rest =>
        rw [fractionText_of_ne (List.cons_ne_nil d' rest)] at hlay
        exact hlay

/-! ## Reading a written number -/

theorem atom_isNumeral {text : List Char} {digits : Nat} {e : Int} (h : IsNumeral text digits e)
    (negative : Bool) {rest : List Char} (hr : EndsNumeral rest) :
    atom ((if negative then '-' :: text else text) ++ rest) =
      .ok (.float (ofDecimal negative digits e), rest) := by
  obtain ⟨whole, fraction, power, rfl, hw, hf, hp, hsome, hvalue⟩ := h
  have hread := number_parts negative hw hf hp hsome hr
  rw [Number.Binary64.ofDecimal_congr negative hvalue] at hread
  rw [← hread]
  cases whole with
  | nil => exact absurd rfl hw.2.1
  | cons c more =>
    have hc : isDigit c = true := hw.1 c (List.mem_cons_self ..)
    have hatom := atom_numeral negative hc
      (more ++ (fractionText fraction ++ (powerText power ++ rest)))
    rw [← List.cons_append] at hatom
    rw [← hatom]
    cases negative
    · simp only [Bool.false_eq_true, if_false, List.append_assoc, List.cons_append]
    · simp only [if_true, List.append_assoc, List.cons_append]

theorem dropTrailing_zeros (ds : List Char) :
    ∃ k, ds = Text.dropTrailing (· == '0') ds ++ List.replicate k '0' := by
  refine ⟨(ds.reverse.takeWhile (· == '0')).length, ?_⟩
  have hall : ds.reverse.takeWhile (· == '0') =
      List.replicate (ds.reverse.takeWhile (· == '0')).length '0' := by
    rw [List.eq_replicate_iff]
    refine ⟨rfl, fun c hc => ?_⟩
    simpa using List.all_eq_true.mp List.all_takeWhile c hc
  have hsplit := congrArg List.reverse
    (List.takeWhile_append_dropWhile (p := (· == '0')) (l := ds.reverse))
  rw [List.reverse_append, List.reverse_reverse, hall, List.reverse_replicate] at hsplit
  exact hsplit.symm

/-- The digits of a numeral without zeros at the end are the same numeral. -/
theorem isNumeral_normal {n : Numeral} (h : n.digits ≠ 0) :
    IsNumeral (layOut numberLayout n.normal.1 n.normal.2) n.digits n.exponent := by
  obtain ⟨k, hk⟩ := dropTrailing_zeros (decimalDigits n.digits)
  have hvalue := ofDigitChars_decimalDigits n.digits
  have hd := digits_decimalDigits n.digits
  have hz := head_decimalDigits h
  have hlen : (decimalDigits n.digits).length = (Text.dropTrailing (· == '0')
      (decimalDigits n.digits)).length + k := by
    rw [congrArg List.length hk, List.length_append, List.length_replicate]
  unfold Numeral.normal
  dsimp only
  rw [hk] at hvalue hd hz
  rw [hlen]
  generalize Text.dropTrailing (· == '0') (decimalDigits n.digits) = ds at *
  rw [ofDigitChars_append_zeros] at hvalue
  have hne : ds ≠ [] := by
    rintro rfl
    rw [Nat.ofDigitChars_nil, Nat.mul_zero] at hvalue
    exact h hvalue.symm
  rw [List.head?_append_of_ne_nil _ hne] at hz
  obtain ⟨whole, fraction, power, htext, hw, hf, hp, hsome, hv⟩ :=
    isNumeral_layOut hd.of_append.1 hne hz (n.exponent + ((ds.length + k : Nat) : Int))
  refine ⟨whole, fraction, power, htext, hw, hf, hp, hsome, hv.trans ?_⟩
  have he : n.exponent + ((ds.length + k : Nat) : Int) - ds.length = n.exponent + k := by
    push_cast
    ring
  rw [he, zpow_add₀ (by norm_num), zpow_natCast, ← hvalue]
  push_cast
  ring

theorem digits_ne_zero {n : Numeral} {m : Nat} {e : Int} (hm : m ≠ 0)
    (h : ofDecimal false n.digits n.exponent = .finite false m e) : n.digits ≠ 0 := by
  intro h0
  rw [h0] at h
  have hzero : ofDecimal false 0 n.exponent = Binary64.zero false := if_pos rfl
  rw [hzero] at h
  cases h
  exact hm rfl

/-- A number as reading gives it: a finite one is in normal form. -/
def IsRead : Binary64 → Prop
  | .finite _ m e => IsNormal m e
  | _ => True

theorem isRead_ofDecimal (negative : Bool) (digits : Nat) (e : Int) :
    IsRead (ofDecimal negative digits e) := by
  cases h : ofDecimal negative digits e with
  | finite other m f => exact Number.Binary64.isNormal_ofDecimal h
  | infinite other => trivial
  | notANumber => trivial

theorem isNumeral_zero : IsNumeral ['0', '.', '0'] 0 0 := by
  refine ⟨['0'], ['0'], none, rfl, ⟨digits_replicate 1, by simp, .inl rfl⟩, digits_replicate 1,
    trivial, .inl (by simp), ?_⟩
  have hzero : Nat.ofDigitChars 10 (['0'] ++ ['0']) 0 = 0 := rfl
  rw [hzero]
  simp

/-- The text of a finite number is a numeral that is read as this number. -/
theorem text_finite (negative : Bool) {m : Nat} {e : Int} (h : IsNormal m e) :
    ∃ body digits exponent, IsNumeral body digits exponent ∧
      ofDecimal negative digits exponent = .finite negative m e ∧
      (Binary64.text numberLayout (.finite negative m e)).toList =
        if negative then '-' :: body else body := by
  unfold Binary64.text
  dsimp only
  rcases eq_or_ne m 0 with rfl | hm
  · refine ⟨['0', '.', '0'], 0, 0, isNumeral_zero, ?_, ?_⟩
    · have hmin : e = Number.Binary64.minExponent := by
        rcases h.full with hmin | hfull
        · exact hmin
        · have := Number.Binary64.twoTo_52_pos
          omega
      rw [hmin]
      exact if_pos rfl
    · rw [if_pos rfl, String.toList_ofList]
  · obtain ⟨n, hn⟩ := Number.Binary64.exists_shortest h hm
    have hback := Number.Binary64.shortest_reads_back hn
    refine ⟨_, n.digits, n.exponent, isNumeral_normal (digits_ne_zero hm hback),
      Number.Binary64.ofDecimal_sign negative hback, ?_⟩
    rw [if_neg hm, hn, String.toList_ofList]

/-- Floating-point numbers read back. -/
theorem atom_floatText {x : Binary64} (h : IsRead x) {rest : List Char} (hr : EndsNumeral rest) :
    atom ((x.text numberLayout).toList ++ rest) = .ok (.float x, rest) := by
  cases x with
  | finite negative m e =>
    obtain ⟨body, digits, exponent, hbody, hread, htext⟩ := text_finite negative h
    rw [htext, atom_isNumeral hbody negative hr, hread]
  | infinite negative =>
    cases negative
    · rfl
    · rfl
  | notANumber => rfl

end Checkup.Json
