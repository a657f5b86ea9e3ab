import Checkup.Proofs.Number.Shortest

/-!
# Three tenths in double precision

The product of a number with `0.3` is rounded, and `0.3` itself is a little less than three tenths. An
integer is still at least the product exactly if it is at least three tenths of the number: rounding
does not pass over an integer, and between integers there is room.

* `round_between`: rounding a quotient of medium size.
* `share_le_iff`: the product with `0.3` against an integer.
-/

namespace Checkup.Number.Binary64

variable {num den n k : Nat}

/-! ## Rounding does not pass over integers -/

theorem roundQuotient_le (hd : 0 < den) (h : num ≤ k * den) : roundQuotient num den ≤ k := by
  rcases Nat.lt_or_eq_of_le h with hlt | rfl
  · exact (roundQuotient_bounds hd (by simp : 0 * den ≤ num) hlt).2
  · unfold roundQuotient
    simp [Nat.mul_div_cancel k hd, hd]

theorem le_roundQuotient (hd : 0 < den) (h : k * den ≤ num) : k ≤ roundQuotient num den :=
  (roundQuotient_bounds hd h (Nat.lt_mul_of_div_lt (Nat.lt_succ_self (num / den)) hd)).1

theorem lt_roundQuotient_succ (hd : 0 < den) : num < (roundQuotient num den + 1) * den := by
  by_contra hnot
  have hle := le_roundQuotient hd (Nat.not_lt.mp hnot)
  omega

/-- A scaled quotient is rounded to the side of a scaled integer on which it lies. -/
theorem roundQuotient_scaled_le (hd : 0 < den) (h : num ≤ k * den) (scale : Nat) :
    roundQuotient (num * scale) den ≤ k * scale := by
  refine roundQuotient_le hd ?_
  rw [Nat.mul_right_comm]
  exact Nat.mul_le_mul_right scale h

theorem le_roundQuotient_scaled (hd : 0 < den) (h : k * den ≤ num) (scale : Nat) :
    k * scale ≤ roundQuotient (num * scale) den := by
  refine le_roundQuotient hd ?_
  rw [Nat.mul_right_comm]
  exact Nat.mul_le_mul_right scale h

/-- How a quotient between `2^(-10)` and `2^50` is rounded. -/
structure RoundsTo (num den m s : Nat) : Prop where
  eq : round false num den = finite false m (-(s : Int))
  le : ∀ {k}, num ≤ k * den → m ≤ k * twoTo s
  ge : ∀ {k}, k * den ≤ num → k * twoTo s ≤ m
  near : num * twoTo s < (m + 1) * den
  fine : twoTo 51 * den ≤ num * twoTo s

theorem twoTo_succ (s : Nat) : twoTo (s + 1) = 2 * twoTo s := by
  rw [twoTo_eq, twoTo_eq, Nat.pow_succ, Nat.mul_comm]

/-- The exponent of such a quotient lies between the least one and zero. -/
theorem exponentFor_between (hd : 0 < den) (hle : den ≤ num * twoTo 10) (hlt : num < twoTo 50 * den) :
    ∃ s : Nat, exponentFor num den = -((s + 1 : Nat) : Int) ∧
      twoTo 52 ≤ roundQuotient (num * twoTo (s + 1)) den ∧
      roundQuotient (num * twoTo (s + 1)) den ≤ twoTo 53 := by
  have hn : 0 < num := by
    by_contra hzero
    obtain rfl : num = 0 := by omega
    omega
  obtain ⟨hmost, hleast⟩ := mantissaAt_bounds hn hd
  generalize hexp : exponentFor num den = e at hmost hleast ⊢
  unfold mantissaAt scaleDown at hmost hleast
  by_cases he : 0 ≤ e
  · exfalso
    rw [if_pos he] at hleast
    rcases hleast with rfl | hleast
    · exact absurd he (by decide)
    · have hpos := twoTo_pos e.toNat
      have hsmall : num ≤ twoTo 50 * (den * twoTo e.toNat) :=
        hlt.le.trans (Nat.mul_le_mul_left _ (Nat.le_mul_of_pos_right den hpos))
      have hbound := roundQuotient_le (Nat.mul_pos hd hpos) hsmall
      exact absurd (hleast.trans hbound) (by decide)
  · rw [if_neg he] at hmost hleast
    obtain ⟨s, hs⟩ : ∃ s : Nat, (-e).toNat = s + 1 := ⟨(-e).toNat - 1, by omega⟩
    rw [hs] at hmost hleast
    refine ⟨s, by omega, ?_, hmost⟩
    rcases hleast with rfl | hleast
    · -- at the least exponent the quotient would be smaller
      have hlarge : 62 ≤ s + 1 := by
        have : (-minExponent).toNat = 1074 := by decide
        omega
      refine le_roundQuotient hd ?_
      calc twoTo 52 * den ≤ twoTo 52 * (num * twoTo 10) := Nat.mul_le_mul_left _ hle
        _ = num * twoTo 62 := by
          have : twoTo 62 = twoTo 10 * twoTo 52 := by decide
          rw [this, Nat.mul_comm, Nat.mul_assoc]
        _ ≤ num * twoTo (s + 1) :=
          Nat.mul_le_mul_left _ (Nat.pow_le_pow_right (by decide) hlarge)
    · exact hleast

theorem round_between (hd : 0 < den) (hle : den ≤ num * twoTo 10) (hlt : num < twoTo 50 * den) :
    ∃ m s, RoundsTo num den m s := by
  obtain ⟨s, hexp, hleast, hmost⟩ := exponentFor_between hd hle hlt
  have hne : num ≠ 0 := by
    rintro rfl
    omega
  have hdouble : ∀ k, k * twoTo (s + 1) = 2 * (k * twoTo s) := fun k => by
    rw [twoTo_succ, Nat.mul_left_comm]
  have hmant : mantissaAt num den (-((s + 1 : Nat) : Int)) =
      roundQuotient (num * twoTo (s + 1)) den := by
    unfold mantissaAt scaleDown
    rw [if_neg (by omega), Int.neg_neg, Int.toNat_natCast]
  have hround := round_eq false hne den
  rw [hexp, hmant] at hround
  have hle' : ∀ {k}, num ≤ k * den → roundQuotient (num * twoTo (s + 1)) den ≤ k * twoTo (s + 1) :=
    fun hk => roundQuotient_scaled_le hd hk _
  have hge' : ∀ {k}, k * den ≤ num → k * twoTo (s + 1) ≤ roundQuotient (num * twoTo (s + 1)) den :=
    fun hk => le_roundQuotient_scaled hd hk _
  have hnear : num * twoTo (s + 1) < (roundQuotient (num * twoTo (s + 1)) den + 1) * den :=
    lt_roundQuotient_succ hd
  have hfine : ∀ {k}, k < roundQuotient (num * twoTo (s + 1)) den → k * den < num * twoTo (s + 1) :=
    fun hk => not_le.mp fun hnot => absurd (roundQuotient_le hd hnot) (not_le.mpr hk)
  generalize roundQuotient (num * twoTo (s + 1)) den = q at *
  have h53 : twoTo 53 = 2 * twoTo 52 := twoTo_53
  have h52 : twoTo 52 = 2 * twoTo 51 := by decide
  have h51 : 0 < twoTo 51 := twoTo_pos 51
  by_cases hcarry : q = twoTo 53
  · -- the mantissa is filled up, and halved
    subst hcarry
    rw [carry_full, ofParts_of_le false (by unfold maxExponent; omega)] at hround
    refine ⟨twoTo 52, s, ?_, fun {k} hk => ?_, fun {k} hk => ?_, ?_, ?_⟩
    · rw [hround]
      congr 1
      omega
    · have := hle' hk
      rw [hdouble, h53] at this
      omega
    · have := hge' hk
      rw [hdouble, h53] at this
      omega
    · rw [hdouble, h53, Nat.add_mul, Nat.mul_assoc] at hnear
      rw [Nat.add_mul]
      omega
    · have hclose : twoTo 52 * den < num * twoTo (s + 1) := hfine (by omega)
      rw [hdouble, h52, Nat.mul_assoc] at hclose
      omega
  · rw [carry_of_ne hcarry, ofParts_of_le false (by unfold maxExponent; omega)] at hround
    refine ⟨q, s + 1, hround, hle', hge', hnear, ?_⟩
    exact (hfine (by omega)).le

/-! ## Three tenths -/

/-- The number nearest to three tenths. -/
theorem ofDecimal_share : ofDecimal false 3 (-1) = finite false 5404319552844595 (-54) := by
  decide +kernel

/-- An integer of medium size is as it is. -/
theorem ofInt_eq (hn : 0 < n) (hlt : n < twoTo 50) :
    ∃ m s : Nat, ofInt n = finite false m (-(s : Int)) ∧ m = n * twoTo s := by
  have hle : 1 ≤ n * twoTo 10 := Nat.mul_pos hn (twoTo_pos 10)
  obtain ⟨m, s, h⟩ := round_between Nat.one_pos hle (by omega)
  refine ⟨m, s, ?_, le_antisymm (h.le (by omega)) (h.ge (by omega))⟩
  have hsign : decide ((n : Int) < 0) = false := decide_eq_false (by omega)
  unfold ofInt
  rw [hsign, Int.natAbs_natCast, h.eq]

/-- The product of an integer with `0.3` is a rounded quotient. -/
theorem mul_share (hn : 0 < n) (hlt : n < twoTo 50) :
    (ofInt n).mul (ofDecimal false 3 (-1)) = round false (n * 5404319552844595) (twoTo 54) := by
  obtain ⟨m, s, hint, rfl⟩ := ofInt_eq hn hlt
  obtain ⟨p, q, hfirst, hq, hvalue⟩ := toQuotient_value false (n * twoTo s) (-(s : Int))
  obtain ⟨p', q', hsecond, hq', hvalue'⟩ := toQuotient_value false 5404319552844595 (-54)
  rw [hint, ofDecimal_share]
  unfold mul
  dsimp only
  rw [hfirst, hsecond]
  refine round_congr false (Nat.mul_pos hq hq') (twoTo_pos 54) ?_
  have hpow : (2 : ℚ) ^ s ≠ 0 := by positivity
  calc ((p * p' : Nat) : ℚ) / (q * q' : Nat) = (p : ℚ) / q * ((p' : ℚ) / q') := by
        rw [Nat.cast_mul, Nat.cast_mul, mul_div_mul_comm]
    _ = (n : ℚ) * (5404319552844595 * 2 ^ (-54 : Int)) := by
        rw [hvalue, hvalue', Nat.cast_mul, cast_twoTo, zpow_neg, zpow_natCast,
          mul_inv_cancel_right₀ hpow, Nat.cast_ofNat]
    _ = ((n * 5404319552844595 : Nat) : ℚ) / (twoTo 54 : Nat) := by
        rw [Nat.cast_mul, cast_twoTo, Nat.cast_ofNat, zpow_neg, mul_div_assoc, div_eq_mul_inv]
        rfl

theorem neg_atLeast (m s k : Nat) :
    (finite false m (-(s : Int))).neg.atLeast (-(k : Int)) = decide (m ≤ k * twoTo s) := by
  have hsigned : ∀ num : Nat, signed (!false) num = -(num : Int) := fun _ => rfl
  unfold neg atLeast toQuotient?
  dsimp only
  by_cases hs : (0 : Int) ≤ -(s : Int)
  · obtain rfl : s = 0 := by omega
    have hone : twoTo 0 = 1 := by decide
    have hzero : (-((0 : Nat) : Int)).toNat = 0 := by decide
    rw [if_pos hs, hzero, hone]
    dsimp only
    rw [hsigned]
    exact decide_eq_decide.mpr (by omega)
  · rw [if_neg hs, Int.neg_neg, Int.toNat_natCast]
    dsimp only
    rw [hsigned]
    refine decide_eq_decide.mpr ?_
    rw [Int.neg_mul, Int.neg_le_neg_iff]
    exact_mod_cast Iff.rfl

/-- An integer is at least the product of an integer of medium size with `0.3` exactly if it is at least
three tenths of it. -/
theorem share_le_iff (hlt : n < twoTo 48) (k : Nat) :
    ((ofInt n).mul (ofDecimal false 3 (-1))).neg.atLeast (-k) = decide (3 * n ≤ 10 * k) := by
  have h48 : twoTo 48 = 281474976710656 := by decide
  have h50 : twoTo 50 = 1125899906842624 := by decide
  have h51 : twoTo 51 = 2251799813685248 := by decide
  have h54 : twoTo 54 = 18014398509481984 := by decide
  have h10 : twoTo 10 = 1024 := by decide
  rw [h48] at hlt
  rcases Nat.eq_zero_or_pos n with rfl | hn
  · have hzero : (ofInt (0 : Nat)).mul (ofDecimal false 3 (-1)) = finite false 0 (-(1074 : Nat)) := by
      decide +kernel
    rw [hzero, neg_atLeast]
    exact decide_eq_decide.mpr (iff_of_true (Nat.zero_le _) (by omega))
  · rw [mul_share hn (by omega)]
    obtain ⟨m, s, h⟩ : ∃ m s, RoundsTo (n * 5404319552844595) (twoTo 54) m s :=
      round_between (twoTo_pos 54) (by rw [h54, h10]; omega) (by rw [h50, h54]; omega)
    rw [h.eq, neg_atLeast]
    refine decide_eq_decide.mpr ⟨fun hm => ?_, fun hk => h.le (by rw [h54]; omega)⟩
    by_contra hk
    -- so far above the integer that the last digit would have to be a sixteenth at least
    have hgap : (16 * k + 1) * twoTo 54 ≤ 16 * (n * 5404319552844595) := by
      rw [h54]
      omega
    have hscaled := Nat.mul_le_mul_right (twoTo s) hgap
    have hnear := h.near
    have hfine := h.fine
    have hcoarse : twoTo s < 16 := by
      rw [h54] at hscaled hnear
      have hexpand : (16 * k + 1) * 18014398509481984 * twoTo s =
          16 * 18014398509481984 * (k * twoTo s) + 18014398509481984 * twoTo s := by ring
      have hassoc : 16 * (n * 5404319552844595) * twoTo s = 16 * (n * 5404319552844595 * twoTo s) :=
        Nat.mul_assoc ..
      omega
    have hbound := Nat.mul_le_mul_left (n * 5404319552844595) (Nat.le_of_lt_succ hcoarse)
    rw [h51, h54] at hfine
    omega

end Checkup.Number.Binary64
