import Checkup.Number.Shortest
import Checkup.Proofs.Number.Rounding

/-!
# The shortest numeral exists

Reading a decimal numeral depends on its value alone, and 17 significant digits tell every number
apart, so the search for the shortest numeral always succeeds.

* `ofDecimal_congr`: numerals of the same value are read as the same number.
* `isNormal_ofDecimal`: reading a numeral gives numbers in normal form.
* `exists_shortest`: every positive number in normal form has a shortest numeral.
-/

namespace Checkup.Number.Binary64

/-! ## The value of a numeral -/

theorem tenTo_eq (k : Nat) : tenTo k = 10 ^ k := rfl

theorem tenTo_pos (k : Nat) : 0 < tenTo k := Nat.pow_pos (by decide)

theorem ten_zpow_toNat {e : Int} (h : 0 ≤ e) : ((tenTo e.toNat : Nat) : ℚ) = 10 ^ e := by
  have he : (e.toNat : Int) = e := Int.toNat_of_nonneg h
  rw [tenTo_eq, Nat.cast_pow, ← zpow_natCast, he]
  norm_num

/-- `digits · 10^exponent` as a quotient. -/
def decimalQuotient (digits : Nat) (exponent : Int) : Nat × Nat :=
  if 0 ≤ exponent then (digits * tenTo exponent.toNat, 1) else (digits, tenTo (-exponent).toNat)

theorem decimalQuotient_pos (digits : Nat) (e : Int) : 0 < (decimalQuotient digits e).2 := by
  unfold decimalQuotient
  split
  · exact Nat.one_pos
  · exact tenTo_pos _

theorem decimalQuotient_value (digits : Nat) (e : Int) :
    ((decimalQuotient digits e).1 : ℚ) / (decimalQuotient digits e).2 = digits * 10 ^ e := by
  unfold decimalQuotient
  split
  · rename_i h
    rw [Nat.cast_mul, ten_zpow_toNat h, Nat.cast_one, div_one]
  · rename_i h
    have h' : (0 : Int) ≤ -e := by omega
    rw [ten_zpow_toNat h', zpow_neg, div_inv_eq_mul]

theorem decimalQuotient_ne_zero {digits : Nat} (h : digits ≠ 0) (e : Int) :
    (decimalQuotient digits e).1 ≠ 0 := by
  unfold decimalQuotient
  split
  · exact (Nat.mul_pos (Nat.pos_of_ne_zero h) (tenTo_pos _)).ne'
  · exact h

/-! ## Values out of range -/

theorem round_of_huge (negative : Bool) {num den : Nat} (hn : num ≠ 0) (hd : 0 < den)
    (h : (2 : ℚ) ^ (1024 : Int) ≤ (num : ℚ) / den) : round negative num den = infinite negative := by
  have hlt := lt_of_le_of_lt h (isExponent_exponentFor (Nat.pos_of_ne_zero hn) hd).2.1
  have he := (zpow_lt_zpow_iff_right₀ (by norm_num : (1 : ℚ) < 2)).mp hlt
  rw [round_eq negative hn]
  generalize exponentFor num den = e at *
  have hmax : maxExponent = 971 := rfl
  have hc : maxExponent < (carry (mantissaAt num den e) e).2 := by
    unfold carry
    split
    · dsimp only
      omega
    · dsimp only
      omega
  exact if_pos hc

theorem round_of_tiny (negative : Bool) {num den : Nat} (hn : num ≠ 0) (hd : 0 < den)
    (h : (num : ℚ) / den < 2 ^ (-1075 : Int)) : round negative num den = zero negative := by
  have hmin : minExponent = -1074 := rfl
  have hpos : (0 : ℚ) ≤ (num : ℚ) / den := by positivity
  have he : exponentFor num den = minExponent := by
    refine isExponent_unique (isExponent_exponentFor (Nat.pos_of_ne_zero hn) hd)
      ⟨le_refl _, lt_of_lt_of_le h ?_, .inl rfl⟩
    exact zpow_le_zpow_right₀ (by norm_num) (by omega)
  have hm : mantissaAt num den minExponent = 0 := by
    have h2 : (0 : ℚ) < 2 ^ minExponent := by positivity
    have hhalf : (2 : ℚ) ^ (-1075 : Int) = 1 / 2 * 2 ^ minExponent := by
      rw [hmin, show (-1075 : Int) = -1 + -1074 by norm_num, zpow_add₀ (by norm_num)]
      norm_num
    refine mantissa_eq hd ?_ ?_
    · have := div_nonneg hpos h2.le
      push_cast
      linarith
    · rw [div_lt_iff₀ h2]
      push_cast
      linarith
  have hle : minExponent ≤ maxExponent := by decide
  rw [round_eq negative hn, he, hm, carry_of_ne (twoTo_pos 53).ne, ofParts_of_le negative hle]
  rfl

/-! ## Reading a numeral -/

/-- The logarithm to base two tells the number of decimal digits roughly. -/
theorem log2_decimal_bounds {n : Nat} (h : n ≠ 0) :
    (10 : ℚ) ^ ((Nat.log2 n : Int) / 4) ≤ n ∧ (n : ℚ) < 10 ^ ((Nat.log2 n : Int) / 3 + 1) := by
  obtain ⟨hlow, hhigh⟩ := log2_bounds (Nat.pos_of_ne_zero h)
  generalize hk : (Nat.log2 n : Int) = k at *
  have hk0 : 0 ≤ k := by omega
  constructor
  · have h1 : (0 : Int) ≤ k / 4 := by omega
    obtain ⟨q, hq⟩ := Int.eq_ofNat_of_zero_le h1
    calc (10 : ℚ) ^ (k / 4) ≤ 16 ^ (k / 4) := by
          rw [hq, zpow_natCast, zpow_natCast]
          exact pow_le_pow_left₀ (by norm_num) (by norm_num) q
      _ = 2 ^ (4 * (k / 4)) := by rw [zpow_mul]; norm_num
      _ ≤ 2 ^ k := zpow_le_zpow_right₀ (by norm_num) (by omega)
      _ ≤ n := hlow
  · have h1 : (0 : Int) ≤ k / 3 + 1 := by omega
    obtain ⟨q, hq⟩ := Int.eq_ofNat_of_zero_le h1
    calc (n : ℚ) < 2 ^ (k + 1) := hhigh
      _ ≤ 2 ^ (3 * (k / 3 + 1)) := zpow_le_zpow_right₀ (by norm_num) (by omega)
      _ = 8 ^ (k / 3 + 1) := by rw [zpow_mul]; norm_num
      _ ≤ 10 ^ (k / 3 + 1) := by
          rw [hq, zpow_natCast, zpow_natCast]
          exact pow_le_pow_left₀ (by norm_num) (by norm_num) q

theorem eight_le_ten (k : Nat) : (2 : ℚ) ^ (3 * k : Int) ≤ 10 ^ (k : Int) := by
  have h8 : (2 : ℚ) ^ (3 : Int) = 8 := by norm_num
  rw [zpow_mul, h8, zpow_natCast, zpow_natCast]
  exact pow_le_pow_left₀ (by norm_num) (by norm_num) k

theorem huge_threshold : (2 : ℚ) ^ (1024 : Int) ≤ 10 ^ (400 : Int) :=
  calc (2 : ℚ) ^ (1024 : Int) ≤ 2 ^ (3 * (400 : Nat) : Int) :=
        zpow_le_zpow_right₀ (by norm_num) (by norm_num)
    _ ≤ 10 ^ (400 : Int) := eight_le_ten 400

theorem tiny_threshold : (10 : ℚ) ^ (-400 : Int) ≤ 2 ^ (-1075 : Int) := by
  rw [zpow_neg, zpow_neg]
  apply inv_anti₀ (by positivity)
  calc (2 : ℚ) ^ (1075 : Int) ≤ 2 ^ (3 * (400 : Nat) : Int) :=
        zpow_le_zpow_right₀ (by norm_num) (by norm_num)
    _ ≤ 10 ^ (400 : Int) := eight_le_ten 400

/-- The shortcuts for numerals far out of range agree with rounding the exact value. -/
theorem ofDecimal_eq_round (negative : Bool) (digits : Nat) (e : Int) :
    ofDecimal negative digits e =
      round negative (decimalQuotient digits e).1 (decimalQuotient digits e).2 := by
  rcases eq_or_ne digits 0 with rfl | hn
  · have h0 : (decimalQuotient 0 e).1 = 0 := by
      unfold decimalQuotient
      split
      · exact Nat.zero_mul _
      · rfl
    rw [h0, round_zero]
    exact if_pos rfl
  · obtain ⟨hlow, hhigh⟩ := log2_decimal_bounds hn
    have hvalue := decimalQuotient_value digits e
    have hne := decimalQuotient_ne_zero hn e
    have hpos := decimalQuotient_pos digits e
    have h10 : (0 : ℚ) < 10 ^ e := by positivity
    unfold ofDecimal
    dsimp only
    rw [if_neg hn]
    split
    · rename_i h
      refine (round_of_huge negative hne hpos ?_).symm
      rw [hvalue]
      calc (2 : ℚ) ^ (1024 : Int) ≤ 10 ^ (400 : Int) := huge_threshold
        _ ≤ 10 ^ (e + (Nat.log2 digits : Int) / 4) := zpow_le_zpow_right₀ (by norm_num) (by omega)
        _ = 10 ^ ((Nat.log2 digits : Int) / 4) * 10 ^ e := by
            rw [zpow_add₀ (by norm_num), mul_comm]
        _ ≤ digits * 10 ^ e := by gcongr
    · split
      · rename_i h
        refine (round_of_tiny negative hne hpos ?_).symm
        rw [hvalue]
        calc (digits : ℚ) * 10 ^ e < 10 ^ ((Nat.log2 digits : Int) / 3 + 1) * 10 ^ e := by gcongr
          _ = 10 ^ ((Nat.log2 digits : Int) / 3 + 1 + e) := by rw [← zpow_add₀ (by norm_num)]
          _ ≤ 10 ^ (-400 : Int) := zpow_le_zpow_right₀ (by norm_num) (by omega)
          _ ≤ 2 ^ (-1075 : Int) := tiny_threshold
      · unfold decimalQuotient
        split
        · rfl
        · rfl

/-- Numerals of the same value are read as the same number. -/
theorem ofDecimal_congr (negative : Bool) {digits digits' : Nat} {e e' : Int}
    (h : (digits : ℚ) * 10 ^ e = digits' * 10 ^ e') :
    ofDecimal negative digits e = ofDecimal negative digits' e' := by
  rw [ofDecimal_eq_round, ofDecimal_eq_round]
  refine round_congr negative (decimalQuotient_pos _ _) (decimalQuotient_pos _ _) ?_
  rw [decimalQuotient_value, decimalQuotient_value, h]

theorem isNormal_ofDecimal {negative other : Bool} {digits m : Nat} {e f : Int}
    (h : ofDecimal negative digits e = finite other m f) : IsNormal m f := by
  rw [ofDecimal_eq_round] at h
  exact isNormal_round (decimalQuotient_pos _ _) h

theorem neg_ofParts (parts : Nat × Int) : (ofParts false parts).neg = ofParts true parts := by
  unfold ofParts
  split
  · rfl
  · rfl

theorem neg_round (num den : Nat) : (round false num den).neg = round true num den := by
  rcases eq_or_ne num 0 with rfl | hn
  · rw [round_zero, round_zero]
    rfl
  · rw [round_eq false hn, round_eq true hn, neg_ofParts]

/-- The sign of a numeral is the sign of its number. -/
theorem ofDecimal_sign (negative : Bool) {digits m : Nat} {e f : Int}
    (h : ofDecimal false digits e = finite false m f) :
    ofDecimal negative digits e = finite negative m f := by
  cases negative with
  | false => exact h
  | true =>
    rw [ofDecimal_eq_round] at h ⊢
    rw [← neg_round, h]
    rfl

/-! ## Seventeen digits suffice -/

theorem toQuotient_value (negative : Bool) (m : Nat) (e : Int) :
    ∃ num den, toQuotient? (finite negative m e) = some (negative, num, den) ∧ 0 < den ∧
      (num : ℚ) / den = m * 2 ^ e := by
  unfold toQuotient?
  dsimp only
  split
  · rename_i h
    refine ⟨m * twoTo e.toNat, 1, rfl, Nat.one_pos, ?_⟩
    rw [Nat.cast_mul, two_zpow_toNat h, Nat.cast_one, div_one]
  · rename_i h
    have h' : (0 : Int) ≤ -e := by omega
    refine ⟨m, twoTo (-e).toNat, rfl, twoTo_pos _, ?_⟩
    rw [two_zpow_toNat h', zpow_neg, div_inv_eq_mul]

/-- Half a unit of a grid finer than the last binary digit does not lead away from a number. -/
theorem readsAs_of_near {m q : Nat} {e f : Int} (h : IsNormal m e) (hq : q ≠ 0)
    (hfine : (10 : ℚ) ^ f < 2 ^ e) (hedge : m = twoTo 52 → 2 * (10 : ℚ) ^ f < 2 ^ e)
    (hlow : (m : ℚ) * 2 ^ e / 10 ^ f - 1 / 2 ≤ q) (hhigh : (q : ℚ) ≤ m * 2 ^ e / 10 ^ f + 1 / 2) :
    Numeral.readsAs ⟨q, f⟩ m e = true := by
  have hf : (0 : ℚ) < 10 ^ f := by positivity
  have he : (0 : ℚ) < 2 ^ e := by positivity
  have h1 : (m : ℚ) * 2 ^ e - 10 ^ f / 2 ≤ q * 10 ^ f := by
    have := mul_le_mul_of_nonneg_right hlow hf.le
    rw [sub_mul, div_mul_cancel₀ _ hf.ne'] at this
    linarith
  have h2 : (q : ℚ) * 10 ^ f ≤ m * 2 ^ e + 10 ^ f / 2 := by
    have := mul_le_mul_of_nonneg_right hhigh hf.le
    rw [add_mul, div_mul_cancel₀ _ hf.ne'] at this
    linarith
  have hread : ofDecimal false q f = finite false m e := by
    rw [ofDecimal_eq_round]
    refine round_eq_finite false (decimalQuotient_ne_zero hq f) (decimalQuotient_pos q f) h ?_ ?_ ?_
    · rw [decimalQuotient_value, lt_div_iff₀ he]
      linarith
    · rw [decimalQuotient_value, div_lt_iff₀ he]
      linarith
    · intro hm
      have := hedge hm
      rw [decimalQuotient_value, lt_div_iff₀ he]
      linarith
  simp only [Numeral.readsAs, hread, beq_self_eq_true]

/-- The numerals next to a quotient on a grid. -/
theorem gridBelow_bounds (num : Nat) {den : Nat} (hd : 0 < den) (f : Int) :
    let w := (num : ℚ) / den / 10 ^ f
    ((gridBelow num den f).1 : ℚ) ≤ w ∧ w < (gridBelow num den f).1 + 1 := by
  have hd' : (den : ℚ) ≠ 0 := by exact_mod_cast hd.ne'
  obtain ⟨n, d, hpos, hn, hvalue⟩ : ∃ n d : Nat, 0 < d ∧ (gridBelow num den f).1 = n / d ∧
      (n : ℚ) / d = (num : ℚ) / den / 10 ^ f := by
    unfold gridBelow
    by_cases h : 0 ≤ f
    · rw [if_pos h]
      refine ⟨num, den * tenTo f.toNat, Nat.mul_pos hd (tenTo_pos _), rfl, ?_⟩
      rw [Nat.cast_mul, ten_zpow_toNat h]
      field_simp
    · rw [if_neg h]
      have h' : (0 : Int) ≤ -f := by omega
      refine ⟨num * tenTo (-f).toNat, den, hd, rfl, ?_⟩
      rw [Nat.cast_mul, ten_zpow_toNat h', zpow_neg]
      have h2 : (10 : ℚ) ^ f ≠ 0 := by positivity
      field_simp
  have hdq : (0 : ℚ) < d := by exact_mod_cast hpos
  dsimp only
  rw [hn, ← hvalue]
  constructor
  · rw [le_div_iff₀ hdq]
    exact_mod_cast Nat.div_mul_le_self n d
  · rw [div_lt_iff₀ hdq]
    exact_mod_cast Nat.lt_mul_of_div_lt (Nat.lt_succ_self (n / d)) hpos

/-- The decimal digits of a number are as many as its size asks for. -/
theorem length_decimalDigits {n : Nat} (h : n ≠ 0) :
    (10 : ℚ) ^ ((decimalDigits n).length - 1 : Int) ≤ n ∧
      (n : ℚ) < 10 ^ ((decimalDigits n).length : Int) := by
  have hlen : (decimalDigits n).length = (Nat.toDigits 10 n).length := by
    rw [decimalDigits, Nat.toString_eq_repr, Nat.toList_repr]
  have hpos : 0 < (Nat.toDigits 10 n).length := Nat.length_toDigits_pos
  rw [hlen]
  generalize hk : (Nat.toDigits 10 n).length = k at *
  constructor
  · obtain rfl | ⟨j, rfl, hj⟩ : k = 1 ∨ ∃ j, k = j + 1 ∧ 0 < j := by
      rcases Nat.lt_or_ge 1 k with h1 | h1
      · exact .inr ⟨k - 1, by omega, by omega⟩
      · exact .inl (by omega)
    · have h1 : 1 ≤ n := Nat.pos_of_ne_zero h
      simpa using (by exact_mod_cast h1 : (1 : ℚ) ≤ n)
    · have hge : ¬ n < 10 ^ j := by
        rw [← Nat.length_toDigits_le_iff (by decide) hj, hk]
        omega
      have he : ((j + 1 : Nat) : Int) - 1 = (j : Int) := by push_cast; ring
      rw [he, zpow_natCast]
      exact_mod_cast Nat.not_lt.mp hge
  · have hlt : n < 10 ^ k := (Nat.length_toDigits_le_iff (by decide) hpos).mp hk.le
    rw [zpow_natCast]
    exact_mod_cast hlt

/-- No quotient is below the power of ten of its first digit. -/
theorem magnitude_le {num den : Nat} (hn : num ≠ 0) (hd : 0 < den) :
    (10 : ℚ) ^ (magnitude num den - 1) ≤ (num : ℚ) / den := by
  have hdq : (0 : ℚ) < den := by exact_mod_cast hd
  have hnpos : 0 < num := Nat.pos_of_ne_zero hn
  unfold magnitude
  split
  · rename_i h
    have hne : num / den ≠ 0 := (Nat.div_pos h hd).ne'
    calc (10 : ℚ) ^ ((decimalDigits (num / den)).length - 1 : Int) ≤ (num / den : Nat) :=
          (length_decimalDigits hne).1
      _ ≤ (num : ℚ) / den := by
          rw [le_div_iff₀ hdq]
          exact_mod_cast Nat.div_mul_le_self num den
  · rename_i h
    have hne : (den - 1) / num ≠ 0 := (Nat.div_pos (by omega) hnpos).ne'
    have hlt := (length_decimalDigits hne).2
    dsimp only
    generalize hk : (decimalDigits ((den - 1) / num)).length = k at *
    rw [zpow_natCast] at hlt
    have h1 : (den - 1) / num < 10 ^ k := by exact_mod_cast hlt
    have h2 : den ≤ 10 ^ k * num := by
      have := (Nat.div_lt_iff_lt_mul hnpos).mp h1
      omega
    have h3 : (den : ℚ) ≤ 10 ^ k * num := by exact_mod_cast h2
    have he : (1 : Int) - k - 1 = -(k : Int) := by ring
    rw [he, zpow_neg, zpow_natCast, le_div_iff₀ hdq, inv_mul_le_iff₀ (by positivity)]
    exact h3

/-- A grid with 16 places after the first digit of a number holds a numeral that reads back. -/
theorem exists_onGrid {m num den : Nat} {e : Int} (h : IsNormal m e) (hn : num ≠ 0) (hd : 0 < den)
    (hvalue : (num : ℚ) / den = m * 2 ^ e) :
    ∃ n, onGrid? num den m e (magnitude num den - 17) = some n := by
  have hle := magnitude_le hn hd
  obtain ⟨f, hf⟩ : ∃ f, magnitude num den - 17 = f := ⟨_, rfl⟩
  have hg : magnitude num den - 1 = f + 16 := by omega
  obtain ⟨hlow, hhigh⟩ := gridBelow_bounds num hd f
  rw [hf]
  rw [hg, hvalue, zpow_add₀ (by norm_num)] at hle
  rw [hvalue] at hlow hhigh
  have h10 : (0 : ℚ) < 10 ^ f := by positivity
  have h2 : (0 : ℚ) < 2 ^ e := by positivity
  have h16 : (10 : ℚ) ^ (16 : Int) = 10000000000000000 := by norm_num
  rw [h16] at hle
  have hm : (m : ℚ) ≤ 9007199254740992 := by
    have h53 : (m : ℚ) < twoTo 53 := by exact_mod_cast h.mantissa_lt
    have hvalue53 : ((twoTo 53 : Nat) : ℚ) = 9007199254740992 := by rw [cast_twoTo]; norm_num
    rw [hvalue53] at h53
    exact h53.le
  have hfine : (10 : ℚ) ^ f < 2 ^ e := by
    have := mul_le_mul_of_nonneg_right hm h2.le
    linarith
  have hedge : m = twoTo 52 → 2 * (10 : ℚ) ^ f < 2 ^ e := by
    intro hm
    have h52 : (m : ℚ) = 4503599627370496 := by
      rw [hm, cast_twoTo]
      norm_num
    rw [h52] at hle
    linarith
  have hw : 10000000000000000 ≤ (m : ℚ) * 2 ^ e / 10 ^ f := by
    rw [le_div_iff₀ h10]
    linarith
  have hq : (gridBelow num den f).1 ≠ 0 := by
    intro h0
    rw [h0, Nat.cast_zero] at hhigh
    linarith
  simp only [onGrid?]
  generalize (gridBelow num den f).1 = q at *
  have hnear : Numeral.readsAs ⟨q, f⟩ m e = true ∨ Numeral.readsAs ⟨q + 1, f⟩ m e = true := by
    rcases le_or_gt ((m : ℚ) * 2 ^ e / 10 ^ f) (q + 1 / 2) with hle | hgt
    · exact .inl (readsAs_of_near h hq hfine hedge (by linarith) (by linarith))
    · refine .inr (readsAs_of_near h (Nat.succ_ne_zero q) hfine hedge ?_ ?_)
      · push_cast
        linarith
      · push_cast
        linarith
  cases hb : Numeral.readsAs ⟨q, f⟩ m e
  · have ha : Numeral.readsAs ⟨q + 1, f⟩ m e = true := by simpa [hb] using hnear
    rw [ha]
    exact ⟨_, rfl⟩
  · cases Numeral.readsAs ⟨q + 1, f⟩ m e
    · exact ⟨_, rfl⟩
    · cases (gridBelow num den f).2
      · exact ⟨_, rfl⟩
      · exact ⟨_, rfl⟩
      · exact ⟨_, rfl⟩

/-- Every positive number in normal form has a shortest numeral. -/
theorem exists_shortest {m : Nat} {e : Int} (h : IsNormal m e) (hm : m ≠ 0) :
    ∃ n, shortest? m e = some n := by
  obtain ⟨num, den, hquot, hd, hvalue⟩ := toQuotient_value false m e
  have hn : num ≠ 0 := by
    rintro rfl
    have h2 : (0 : ℚ) < 2 ^ e := by positivity
    have hmq : (0 : ℚ) < m := by exact_mod_cast Nat.pos_of_ne_zero hm
    have := mul_pos hmq h2
    rw [← hvalue] at this
    simp at this
  unfold shortest?
  rw [hquot]
  dsimp only
  rw [← Option.isSome_iff_exists, List.findSome?_isSome_iff]
  obtain ⟨n, hgrid⟩ := exists_onGrid h hn hd hvalue
  exact ⟨16, by decide, Option.isSome_iff_exists.mpr ⟨n, hgrid⟩⟩

end Checkup.Number.Binary64
