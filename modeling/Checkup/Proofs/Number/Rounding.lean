import Checkup.Number.Binary64
import Mathlib.Algebra.Order.Field.Power
import Mathlib.Data.Rat.Cast.Order
import Mathlib.Tactic.FieldSimp
import Mathlib.Tactic.Linarith
import Mathlib.Tactic.Positivity
import Mathlib.Tactic.Ring

/-!
# Rounding to double precision

`Binary64.round` is described by the rational number that is rounded, not by the quotient that
stands for it.

* `isExponent_exponentFor`, `isExponent_unique`: the exponent of a quotient is determined by its
  value: it keeps 53 binary digits, unless it is the least one.
* `round_congr`: equal quotients are rounded alike.
* `round_eq_finite`: a quotient nearer to a number in normal form than half of its last digit is
  rounded to it.
* `isNormal_round`: rounding gives numbers in normal form.
-/

namespace Checkup.Number.Binary64

/-! ## Scaling a quotient -/

theorem twoTo_eq (k : Nat) : twoTo k = 2 ^ k := rfl

theorem cast_twoTo (k : Nat) : ((twoTo k : Nat) : ℚ) = 2 ^ k := by
  rw [twoTo_eq, Nat.cast_pow, Nat.cast_two]

theorem twoTo_pos (k : Nat) : 0 < twoTo k := Nat.two_pow_pos k

theorem two_zpow_toNat {e : Int} (h : 0 ≤ e) : ((twoTo e.toNat : Nat) : ℚ) = 2 ^ e := by
  have he : (e.toNat : Int) = e := Int.toNat_of_nonneg h
  rw [cast_twoTo, ← zpow_natCast, he]

theorem scaleDown_pos (num : Nat) {den : Nat} (hd : 0 < den) (e : Int) :
    0 < (scaleDown num den e).2 := by
  unfold scaleDown
  split
  · exact Nat.mul_pos hd (twoTo_pos _)
  · exact hd

theorem scaleDown_value (num : Nat) {den : Nat} (hd : 0 < den) (e : Int) :
    (((scaleDown num den e).1 : ℚ) / (scaleDown num den e).2) = (num : ℚ) / den / 2 ^ e := by
  have hd' : (den : ℚ) ≠ 0 := by exact_mod_cast hd.ne'
  unfold scaleDown
  split
  · rename_i h
    rw [Nat.cast_mul, two_zpow_toNat h]
    field_simp
  · rename_i h
    have h' : (0 : Int) ≤ -e := by omega
    rw [Nat.cast_mul, two_zpow_toNat h', zpow_neg]
    have h2 : (2 : ℚ) ^ e ≠ 0 := by positivity
    field_simp

/-! ## The exponent of a value -/

/-- At the exponent the value has 53 binary digits, or fewer at the least exponent. -/
def IsExponent (v : ℚ) (e : Int) : Prop :=
  minExponent ≤ e ∧ v < 2 ^ (e + 53) ∧ (e = minExponent ∨ 2 ^ (e + 52) ≤ v)

theorem isExponent_le {v : ℚ} {e f : Int} (he : IsExponent v e) (hf : IsExponent v f) : e ≤ f := by
  rcases he.2.2 with h | h
  · exact h ▸ hf.1
  · have hlt : (2 : ℚ) ^ (e + 52) < 2 ^ (f + 53) := lt_of_le_of_lt h hf.2.1
    have := (zpow_lt_zpow_iff_right₀ (by norm_num : (1 : ℚ) < 2)).mp hlt
    omega

theorem isExponent_unique {v : ℚ} {e f : Int} (he : IsExponent v e) (hf : IsExponent v f) :
    e = f :=
  le_antisymm (isExponent_le he hf) (isExponent_le hf he)

theorem log2_bounds {n : Nat} (h : 0 < n) :
    (2 : ℚ) ^ (Nat.log2 n : Int) ≤ n ∧ (n : ℚ) < 2 ^ ((Nat.log2 n : Int) + 1) := by
  have h1 : 2 ^ Nat.log2 n ≤ n := Nat.log2_self_le h.ne'
  have h2 : n < 2 ^ (Nat.log2 n + 1) := Nat.lt_log2_self
  constructor
  · rw [zpow_natCast]
    exact_mod_cast h1
  · have he : ((Nat.log2 n : Int) + 1) = ((Nat.log2 n + 1 : Nat) : Int) := by push_cast; rfl
    rw [he, zpow_natCast]
    exact_mod_cast h2

/-- The logarithms of numerator and denominator tell the exponent up to one. -/
theorem guess_bounds {num den : Nat} (hn : 0 < num) (hd : 0 < den) :
    (2 : ℚ) ^ ((Nat.log2 num : Int) - Nat.log2 den - 1) < (num : ℚ) / den ∧
      (num : ℚ) / den < 2 ^ ((Nat.log2 num : Int) - Nat.log2 den + 1) := by
  obtain ⟨hn1, hn2⟩ := log2_bounds hn
  obtain ⟨hd1, hd2⟩ := log2_bounds hd
  have hdq : (0 : ℚ) < den := by exact_mod_cast hd
  generalize (Nat.log2 num : Int) = a at *
  generalize (Nat.log2 den : Int) = b at *
  constructor
  · rw [lt_div_iff₀ hdq]
    calc (2 : ℚ) ^ (a - b - 1) * den < 2 ^ (a - b - 1) * 2 ^ (b + 1) := by
          gcongr
      _ = 2 ^ a := by rw [← zpow_add₀ (by norm_num)]; congr 1; ring
      _ ≤ num := hn1
  · rw [div_lt_iff₀ hdq]
    calc (num : ℚ) < 2 ^ (a + 1) := hn2
      _ = 2 ^ (a - b + 1) * 2 ^ b := by rw [← zpow_add₀ (by norm_num)]; congr 1; ring
      _ ≤ 2 ^ (a - b + 1) * den := by gcongr

theorem isExponent_exponentFor {num den : Nat} (hn : 0 < num) (hd : 0 < den) :
    IsExponent ((num : ℚ) / den) (exponentFor num den) := by
  obtain ⟨hlow, hhigh⟩ := guess_bounds hn hd
  unfold exponentFor
  dsimp only
  generalize hg : (Nat.log2 num : Int) - Nat.log2 den - 52 = g
  have hvalue := scaleDown_value num hd g
  have hpos := scaleDown_pos num hd g
  generalize (scaleDown num den g).1 = n at *
  generalize (scaleDown num den g).2 = d at *
  have hdq : (0 : ℚ) < d := by exact_mod_cast hpos
  have h2g : (0 : ℚ) < 2 ^ g := by positivity
  generalize (num : ℚ) / den = v at *
  -- the test compares the value with `2 ^ (g + 52)`
  have htest : n < d * twoTo 52 ↔ v < 2 ^ (g + 52) := by
    have h1 : n < d * twoTo 52 ↔ (n : ℚ) / d < 2 ^ 52 := by
      rw [div_lt_iff₀ hdq, mul_comm, ← cast_twoTo]
      exact_mod_cast Iff.rfl
    rw [h1, hvalue, div_lt_iff₀ h2g, zpow_add₀ (by norm_num), mul_comm]
    norm_num
  have hfit : ∀ f : Int, v < 2 ^ (f + 53) → 2 ^ (f + 52) ≤ v →
      IsExponent v (if f < minExponent then minExponent else f) := by
    intro f h1 h2
    split
    · rename_i hf
      refine ⟨le_refl _, lt_of_lt_of_le h1 ?_, .inl rfl⟩
      exact zpow_le_zpow_right₀ (by norm_num) (by omega)
    · rename_i hf
      exact ⟨by omega, h1, .inr h2⟩
  split
  · rename_i h
    refine hfit (g - 1) ?_ ?_
    · have : g - 1 + 53 = g + 52 := by ring
      rw [this]
      exact htest.mp h
    · have : g - 1 + 52 = (Nat.log2 num : Int) - Nat.log2 den - 1 := by omega
      rw [this]
      exact hlow.le
  · rename_i h
    refine hfit g ?_ ?_
    · have : g + 53 = (Nat.log2 num : Int) - Nat.log2 den + 1 := by omega
      rw [this]
      exact hhigh
    · exact not_lt.mp fun hv => h (htest.mpr hv)

/-! ## The nearest integer -/

theorem roundQuotient_eq {n d m : Nat} (h1 : 2 * m * d < 2 * n + d) (h2 : 2 * n < 2 * m * d + d) :
    roundQuotient n d = m := by
  have hd : 0 < d := by
    rcases Nat.eq_zero_or_pos d with rfl | h
    · omega
    · exact h
  have hn : d * (n / d) + n % d = n := Nat.div_add_mod n d
  have hr : n % d < d := Nat.mod_lt n hd
  unfold roundQuotient
  dsimp only
  generalize n / d = q at *
  generalize n % d = r at *
  have hlow : q ≤ m := by
    by_contra hlt
    have : (m + 1) * d ≤ q * d := Nat.mul_le_mul_right d (by omega)
    nlinarith
  have hhigh : m ≤ q + 1 := by
    by_contra hlt
    have : (q + 2) * d ≤ m * d := Nat.mul_le_mul_right d (by omega)
    nlinarith
  obtain rfl | rfl : m = q ∨ m = q + 1 := by omega
  · have : 2 * r < d := by nlinarith
    simp [this]
  · have h3 : d < 2 * r := by nlinarith
    have h4 : ¬ 2 * r < d := by omega
    simp [h3, h4]

theorem roundQuotient_congr {n d n' d' : Nat} (hd : 0 < d) (hd' : 0 < d')
    (h : n * d' = n' * d) : roundQuotient n d = roundQuotient n' d' := by
  have hq : n / d = n' / d' := by
    rw [← Nat.mul_div_mul_right n d hd', h, Nat.mul_comm d d', Nat.mul_div_mul_right n' d' hd]
  have hn : d * (n / d) + n % d = n := Nat.div_add_mod n d
  have hn' : d' * (n' / d') + n' % d' = n' := Nat.div_add_mod n' d'
  rw [hq] at hn
  have hr : n % d * d' = n' % d' * d := by
    have h1 : (d * (n' / d') + n % d) * d' = (d' * (n' / d') + n' % d') * d := by rw [hn, hn', h]
    nlinarith
  unfold roundQuotient
  dsimp only
  rw [hq]
  generalize n % d = r at *
  generalize n' % d' = r' at *
  have hlt : 2 * r < d ↔ 2 * r' < d' := by
    rw [← Nat.mul_lt_mul_right hd' (b := 2 * r), ← Nat.mul_lt_mul_right hd (b := 2 * r')]
    have : 2 * r * d' = 2 * r' * d := by rw [Nat.mul_assoc, hr, Nat.mul_assoc]
    rw [this, Nat.mul_comm d d']
  have hgt : d < 2 * r ↔ d' < 2 * r' := by
    rw [← Nat.mul_lt_mul_right hd' (b := d), ← Nat.mul_lt_mul_right hd (b := d')]
    have : 2 * r * d' = 2 * r' * d := by rw [Nat.mul_assoc, hr, Nat.mul_assoc]
    rw [this, Nat.mul_comm d d']
  simp only [hlt, hgt]

/-- The nearest integer to a quotient between two integers lies between them. -/
theorem roundQuotient_bounds {n d a b : Nat} (hd : 0 < d) (ha : a * d ≤ n) (hb : n < b * d) :
    a ≤ roundQuotient n d ∧ roundQuotient n d ≤ b := by
  have h1 : a ≤ n / d := (Nat.le_div_iff_mul_le hd).mpr ha
  have h2 : n / d < b := (Nat.div_lt_iff_lt_mul hd).mpr hb
  unfold roundQuotient
  dsimp only
  split
  · omega
  · split
    · omega
    · split <;> omega

/-! ## Rounding -/

/-- Mantissa and exponent of a finite number: all 53 binary digits are used, unless the exponent is
the least one. -/
structure IsNormal (m : Nat) (e : Int) : Prop where
  mantissa_lt : m < twoTo 53
  min_le : minExponent ≤ e
  le_max : e ≤ maxExponent
  full : e = minExponent ∨ twoTo 52 ≤ m

theorem round_eq (negative : Bool) {num : Nat} (h : num ≠ 0) (den : Nat) :
    round negative num den =
      ofParts negative (carry (mantissaAt num den (exponentFor num den)) (exponentFor num den)) :=
  if_neg h

theorem cast_div_eq_iff {n d n' d' : Nat} (hd : 0 < d) (hd' : 0 < d') :
    (n : ℚ) / d = (n' : ℚ) / d' ↔ n * d' = n' * d := by
  have h1 : (d : ℚ) ≠ 0 := by exact_mod_cast hd.ne'
  have h2 : (d' : ℚ) ≠ 0 := by exact_mod_cast hd'.ne'
  rw [div_eq_div_iff h1 h2]
  exact_mod_cast Iff.rfl

theorem exponentFor_congr {num den num' den' : Nat} (hn : 0 < num) (hn' : 0 < num') (hd : 0 < den)
    (hd' : 0 < den') (h : (num : ℚ) / den = (num' : ℚ) / den') :
    exponentFor num den = exponentFor num' den' :=
  isExponent_unique (isExponent_exponentFor hn hd) (h ▸ isExponent_exponentFor hn' hd')

theorem round_congr (negative : Bool) {num den num' den' : Nat} (hd : 0 < den) (hd' : 0 < den')
    (h : (num : ℚ) / den = (num' : ℚ) / den') :
    round negative num den = round negative num' den' := by
  have hcross := (cast_div_eq_iff hd hd').mp h
  rcases Nat.eq_zero_or_pos num with rfl | hn
  · obtain rfl : num' = 0 := by
      rcases Nat.eq_zero_or_pos num' with h0 | h0
      · exact h0
      · have := Nat.mul_pos h0 hd
        omega
    rw [round_zero, round_zero]
  · have hn' : 0 < num' := by
      rcases Nat.eq_zero_or_pos num' with rfl | h0
      · have := Nat.mul_pos hn hd'
        omega
      · exact h0
    have he := exponentFor_congr hn hn' hd hd' h
    have hm : mantissaAt num den (exponentFor num' den') =
        mantissaAt num' den' (exponentFor num' den') := by
      refine roundQuotient_congr (scaleDown_pos _ hd _) (scaleDown_pos _ hd' _) ?_
      rw [← cast_div_eq_iff (scaleDown_pos _ hd _) (scaleDown_pos _ hd' _), scaleDown_value _ hd,
        scaleDown_value _ hd', h]
    rw [round_eq negative hn.ne', round_eq negative hn'.ne', he, hm]

/-- A quotient close enough to an integer is rounded to it. -/
theorem mantissa_eq {num den m : Nat} (hd : 0 < den) {e : Int}
    (hlow : (m : ℚ) - 1 / 2 < (num : ℚ) / den / 2 ^ e)
    (hhigh : (num : ℚ) / den / 2 ^ e < (m : ℚ) + 1 / 2) :
    mantissaAt num den e = m := by
  unfold mantissaAt
  have hpos := scaleDown_pos num hd e
  rw [← scaleDown_value num hd e] at hlow hhigh
  generalize (scaleDown num den e).1 = n at *
  generalize (scaleDown num den e).2 = d at *
  have hdq : (0 : ℚ) < d := by exact_mod_cast hpos
  rw [lt_div_iff₀ hdq] at hlow
  rw [div_lt_iff₀ hdq] at hhigh
  apply roundQuotient_eq
  · have : (2 * m * d : ℚ) < 2 * n + d := by linarith
    exact_mod_cast this
  · have : (2 * n : ℚ) < 2 * m * d + d := by linarith
    exact_mod_cast this

theorem twoTo_53 : twoTo 53 = 2 * twoTo 52 := by decide

theorem twoTo_52_pos : 0 < twoTo 52 := twoTo_pos 52

theorem carry_of_ne {m : Nat} (h : m ≠ twoTo 53) (e : Int) : carry m e = (m, e) := if_neg h

theorem carry_full (e : Int) : carry (twoTo 53) e = (twoTo 52, e + 1) := if_pos rfl

theorem ofParts_of_le (negative : Bool) {m : Nat} {e : Int} (h : e ≤ maxExponent) :
    ofParts negative (m, e) = finite negative m e := if_neg (by dsimp only; omega)

theorem round_of_parts (negative : Bool) {num den m : Nat} {e : Int} (hn : num ≠ 0)
    (h : IsNormal m e) (he : exponentFor num den = e) (hmant : mantissaAt num den e = m) :
    round negative num den = finite negative m e := by
  rw [round_eq negative hn, he, hmant, carry_of_ne h.mantissa_lt.ne, ofParts_of_le negative h.le_max]

theorem scaled_lt_iff (v : ℚ) (e : Int) (k : Nat) : v / 2 ^ e < 2 ^ k ↔ v < 2 ^ (e + k) := by
  rw [div_lt_iff₀ (by positivity), zpow_add₀ (by norm_num), zpow_natCast, mul_comm]

/-- A value just below a power of two has the exponent of the numbers below, and its mantissa is
carried to the power. -/
theorem round_below_power (negative : Bool) {num den : Nat} {e : Int} (hn : num ≠ 0) (hd : 0 < den)
    (h : IsNormal (twoTo 52) e) (hmin : e ≠ minExponent) (hbelow : (num : ℚ) / den < 2 ^ (e + 52))
    (hnear : (2 : ℚ) ^ 52 - 1 / 4 < (num : ℚ) / den / 2 ^ e) :
    round negative num den = finite negative (twoTo 52) e := by
  have hspec := isExponent_exponentFor (Nat.pos_of_ne_zero hn) hd
  have h2e : (0 : ℚ) < 2 ^ e := by positivity
  have h53 : ((twoTo 53 : Nat) : ℚ) = 2 ^ 53 := cast_twoTo 53
  generalize hv : (num : ℚ) / den = v at *
  have hv52 : v / 2 ^ e < 2 ^ 52 := (scaled_lt_iff v e 52).mpr hbelow
  have hscaled : v / 2 ^ (e - 1) = v / 2 ^ e * 2 := by
    have h2e1 : (2 : ℚ) ^ e = 2 ^ (e - 1) * 2 := by
      rw [← zpow_add_one₀ (by norm_num)]
      congr 1
      ring
    rw [h2e1]
    field_simp
  have he : exponentFor num den = e - 1 := by
    refine isExponent_unique hspec ⟨by have := h.min_le; omega, ?_, .inr ?_⟩
    · have h1 : e - 1 + 53 = e + 52 := by ring
      rw [h1]
      exact hbelow
    · have h1 : e - 1 + 52 = e + 51 := by ring
      rw [lt_div_iff₀ h2e] at hnear
      rw [h1, zpow_add₀ (by norm_num)]
      calc (2 : ℚ) ^ e * 2 ^ (51 : Int) ≤ (2 ^ 52 - 1 / 4) * 2 ^ e := by
            rw [mul_comm]; gcongr; norm_num
        _ ≤ v := hnear.le
  have hmant : mantissaAt num den (e - 1) = twoTo 53 := by
    refine mantissa_eq hd ?_ ?_
    · rw [hv, hscaled, h53]
      linarith
    · rw [hv, hscaled, h53]
      linarith
  rw [round_eq negative hn, he, hmant, carry_full, sub_add_cancel, ofParts_of_le negative h.le_max]

/-- Values next to a number in normal form are rounded to it. Below a power of two the numbers lie
twice as close, so the value must come nearer from there. -/
theorem round_eq_finite (negative : Bool) {num den m : Nat} {e : Int} (hn : num ≠ 0) (hd : 0 < den)
    (h : IsNormal m e) (hlow : (m : ℚ) - 1 / 2 < (num : ℚ) / den / 2 ^ e)
    (hhigh : (num : ℚ) / den / 2 ^ e < (m : ℚ) + 1 / 2)
    (hedge : m = twoTo 52 → (m : ℚ) - 1 / 4 < (num : ℚ) / den / 2 ^ e) :
    round negative num den = finite negative m e := by
  have hspec := isExponent_exponentFor (Nat.pos_of_ne_zero hn) hd
  have h52 : ((twoTo 52 : Nat) : ℚ) = 2 ^ 52 := cast_twoTo 52
  have hm : (m : ℚ) ≤ 2 ^ 53 - 1 := by
    have h1 : m + 1 ≤ twoTo 53 := h.mantissa_lt
    have h2 : ((m + 1 : Nat) : ℚ) ≤ twoTo 53 := by exact_mod_cast h1
    rw [cast_twoTo 53] at h2
    push_cast at h2
    linarith
  have hlt : (num : ℚ) / den < 2 ^ (e + 53) := by
    refine (scaled_lt_iff _ e 53).mp ?_
    linarith
  by_cases hfull : e = minExponent ∨ (2 : ℚ) ^ (e + 52) ≤ (num : ℚ) / den
  · -- the exponent of the value is that of the number
    exact round_of_parts negative hn h (isExponent_unique hspec ⟨h.min_le, hlt, hfull⟩)
      (mantissa_eq hd hlow hhigh)
  · -- the value lies below the power of two that the number is
    push Not at hfull
    obtain ⟨hmin, hbelow⟩ := hfull
    have hle : twoTo 52 ≤ m := h.full.resolve_left hmin
    have hmeq : m = twoTo 52 := by
      have hv52 : (num : ℚ) / den / 2 ^ e < 2 ^ 52 := (scaled_lt_iff _ e 52).mpr hbelow
      have h1 : (m : ℚ) < ((twoTo 52 + 1 : Nat) : ℚ) := by
        rw [Nat.cast_add, h52]
        push_cast
        linarith
      have h2 : m < twoTo 52 + 1 := by exact_mod_cast h1
      omega
    have hnear := hedge hmeq
    subst hmeq
    rw [h52] at hnear
    exact round_below_power negative hn hd h hmin hbelow hnear

theorem mantissaAt_bounds {num den : Nat} (hn : 0 < num) (hd : 0 < den) :
    mantissaAt num den (exponentFor num den) ≤ twoTo 53 ∧
      (exponentFor num den = minExponent ∨
        twoTo 52 ≤ mantissaAt num den (exponentFor num den)) := by
  have hspec := isExponent_exponentFor hn hd
  unfold mantissaAt
  generalize exponentFor num den = e at *
  have hpos := scaleDown_pos num hd e
  have hvalue := scaleDown_value num hd e
  generalize (scaleDown num den e).1 = n at *
  generalize (scaleDown num den e).2 = d at *
  have hdq : (0 : ℚ) < d := by exact_mod_cast hpos
  have h2e : (0 : ℚ) < 2 ^ e := by positivity
  have h52 : (2 : ℚ) ^ (52 : Int) = twoTo 52 := by rw [cast_twoTo]; norm_num
  have h53 : (2 : ℚ) ^ (53 : Int) = twoTo 53 := by rw [cast_twoTo]; norm_num
  obtain ⟨-, hlt, hfull⟩ := hspec
  have hhigh : n < twoTo 53 * d := by
    rw [zpow_add₀ (by norm_num), mul_comm, ← div_lt_iff₀ h2e, ← hvalue, div_lt_iff₀ hdq, h53] at hlt
    exact_mod_cast hlt
  refine ⟨(roundQuotient_bounds hpos (by simp : 0 * d ≤ n) hhigh).2, ?_⟩
  rcases hfull with hfull | hfull
  · exact .inl hfull
  · refine .inr (roundQuotient_bounds hpos ?_ hhigh).1
    rw [zpow_add₀ (by norm_num), mul_comm, ← le_div_iff₀ h2e, ← hvalue, le_div_iff₀ hdq,
      h52] at hfull
    exact_mod_cast hfull

theorem ofParts_eq_finite {negative other : Bool} {parts : Nat × Int} {m : Nat} {e : Int}
    (h : ofParts negative parts = finite other m e) :
    other = negative ∧ parts = (m, e) ∧ e ≤ maxExponent := by
  obtain ⟨k, f⟩ := parts
  unfold ofParts at h
  split at h
  · cases h
  · rename_i hf
    cases h
    exact ⟨rfl, rfl, by dsimp only at hf; omega⟩

theorem isNormal_zero : IsNormal 0 minExponent :=
  ⟨twoTo_pos 53, le_refl _, by decide, .inl rfl⟩

theorem isNormal_round {negative other : Bool} {num den m : Nat} {e : Int} (hd : 0 < den)
    (h : round negative num den = finite other m e) : IsNormal m e := by
  rcases Nat.eq_zero_or_pos num with rfl | hn
  · rw [round_zero] at h
    cases h
    exact isNormal_zero
  · rw [round_eq negative hn.ne'] at h
    obtain ⟨-, hc, hmax⟩ := ofParts_eq_finite h
    have hmin := (isExponent_exponentFor hn hd).1
    obtain ⟨hle, hfull⟩ := mantissaAt_bounds hn hd
    have := twoTo_53
    have := twoTo_52_pos
    unfold carry at hc
    split at hc
    · cases hc
      exact ⟨by omega, by omega, hmax, .inr (le_refl _)⟩
    · rename_i hne
      cases hc
      exact ⟨by omega, hmin, hmax, hfull⟩

end Checkup.Number.Binary64
