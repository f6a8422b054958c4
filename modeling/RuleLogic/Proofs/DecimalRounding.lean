import RuleLogic.Numeral
import Mathlib.Tactic.Ring

/-!
# Rounding decimals

What a quotient rounds to depends on its value alone, so zeros at the end of the digits of a
decimal may be moved to the exponent.  Quotients below half a unit round to zero and those from
`2 ^ 1024` on to no double, so the two shortcuts of `Numeral.toDouble?` change nothing.

    roundMagnitude (num * k) (den * k) = roundMagnitude num den             (roundMagnitude_mul_mul)
    (digits * 10 ^ k, e) and (digits, e + k) round to one double            (roundToDouble_shift)
    n.toDouble? = nearest? n.negative n.decimal.unitsNum n.decimal.den      (toDouble?_eq_nearest?)
-/

namespace RuleLogic

namespace Double

/-! ## Quotients of one value -/

theorem roundDiv_mul_mul (num den : Nat) {k : Nat} (hk : 0 < k) :
    roundDiv (num * k) (den * k) = roundDiv num den := by
  have hlt : 2 * (num % den * k) < den * k ↔ 2 * (num % den) < den := by
    rw [← Nat.mul_assoc]
    exact Nat.mul_lt_mul_right hk
  have hgt : den * k < 2 * (num % den * k) ↔ den < 2 * (num % den) := by
    rw [← Nat.mul_assoc]
    exact Nat.mul_lt_mul_right hk
  simp only [roundDiv, Nat.mul_div_mul_right _ _ hk, Nat.mul_mod_mul_right, hlt, hgt]

theorem roundMagnitude_mul_mul (num den : Nat) {k : Nat} (hk : 0 < k) :
    roundMagnitude (num * k) (den * k) = roundMagnitude num den := by
  simp only [roundMagnitude, Nat.mul_div_mul_right _ _ hk]
  rw [Nat.mul_right_comm, roundDiv_mul_mul _ _ hk]

/-- Quotients that agree when multiplied across round to one count. -/
theorem roundMagnitude_congr {num den num' den' : Nat} (hden : 0 < den) (hden' : 0 < den')
    (h : num * den' = num' * den) : roundMagnitude num den = roundMagnitude num' den' := by
  calc roundMagnitude num den
      = roundMagnitude (num * den') (den * den') := (roundMagnitude_mul_mul num den hden').symm
    _ = roundMagnitude (num' * den) (den' * den) := by rw [h, Nat.mul_comm den den']
    _ = roundMagnitude num' den' := roundMagnitude_mul_mul num' den' hden

/-! ## Very small and very large quotients -/

theorem roundMagnitude_eq_zero {num den : Nat} (h : 2 * num < den) :
    roundMagnitude num den = 0 := by
  have hq : num / den = 0 := Nat.div_eq_of_lt (by omega)
  have hspacing : spacing 0 = 1 := by decide
  have hr : 2 * (num % den) < den := by
    rw [Nat.mod_eq_of_lt (by omega)]
    exact h
  rw [roundMagnitude, hq, hspacing, Nat.mul_one, Nat.mul_one, roundDiv, if_pos hr, hq]

theorem le_roundDiv (num den : Nat) : num / den ≤ roundDiv num den := by
  simp only [roundDiv]
  split
  · omega
  · split <;> omega

/-- Cutting a count off at its spacing keeps its leading bit. -/
theorem two_pow_log2_le_div_spacing_mul {count : Nat} (hc : count ≠ 0) :
    2 ^ count.log2 ≤ count / spacing count * spacing count := by
  have hs : 0 < spacing count := Nat.two_pow_pos _
  have hmul : 2 ^ (count.log2 - (count.log2 - 52)) * spacing count = 2 ^ count.log2 := by
    rw [spacing, Nat.pow_eq, ← Nat.pow_add, Nat.sub_add_cancel (Nat.sub_le _ _)]
  have hquot : 2 ^ (count.log2 - (count.log2 - 52)) ≤ count / spacing count := by
    rw [Nat.le_div_iff_mul_le hs, hmul]
    exact Nat.log2_self_le hc
  rw [← hmul]
  exact Nat.mul_le_mul_right _ hquot

/-- Rounding does not go below a power of two that the quotient reaches. -/
theorem two_pow_le_roundMagnitude {num den k : Nat} (hden : 0 < den) (h : 2 ^ k * den ≤ num) :
    2 ^ k ≤ roundMagnitude num den := by
  have hk : 2 ^ k ≤ num / den := (Nat.le_div_iff_mul_le hden).2 h
  have hne : num / den ≠ 0 := Nat.ne_of_gt (Nat.lt_of_lt_of_le (Nat.two_pow_pos k) hk)
  have hlog : k ≤ (num / den).log2 := (Nat.le_log2 hne).2 hk
  calc 2 ^ k ≤ 2 ^ (num / den).log2 := Nat.pow_le_pow_right (by decide) hlog
    _ ≤ num / den / spacing (num / den) * spacing (num / den) :=
      two_pow_log2_le_div_spacing_mul hne
    _ ≤ roundDiv num (den * spacing (num / den)) * spacing (num / den) := by
      rw [Nat.div_div_eq_div_mul]
      exact Nat.mul_le_mul_right _ (le_roundDiv _ _)

theorem exists_limit_eq_two_pow : ∃ k, limit = 2 ^ k := by
  have h : ∃ k, limit = Nat.pow 2 k := ⟨2098, by decide +kernel⟩
  simpa only [Nat.pow_eq] using h

end Double

/-! ## Decimals -/

namespace Decimal

theorem den_pos (d : Decimal) : 0 < d.den := Nat.pow_pos (by decide)

/-- Zeros at the end of the digits may be moved to the exponent. -/
theorem roundToDouble_shift (digits k : Nat) (e : Int) :
    roundToDouble ⟨digits * 10 ^ k, e⟩ = roundToDouble ⟨digits, e + k⟩ := by
  refine Double.roundMagnitude_congr (den_pos _) (den_pos _) ?_
  have hpow : 10 ^ k * 10 ^ e.toNat * 10 ^ (-(e + k)).toNat =
      10 ^ (e + k).toNat * 10 ^ (-e).toNat := by
    rw [← Nat.pow_add, ← Nat.pow_add, ← Nat.pow_add]
    congr 1
    omega
  simp only [unitsNum, den, Nat.pow_eq]
  calc digits * 10 ^ k * 10 ^ e.toNat * Double.unitsPerOne * 10 ^ (-(e + k)).toNat
      = digits * (10 ^ k * 10 ^ e.toNat * 10 ^ (-(e + k)).toNat) * Double.unitsPerOne := by ring
    _ = digits * 10 ^ (e + k).toNat * Double.unitsPerOne * 10 ^ (-e).toNat := by rw [hpow]; ring

theorem roundToDouble_eq_zero {d : Decimal} (h : d.digits = 0) : d.roundToDouble = 0 := by
  refine Double.roundMagnitude_eq_zero ?_
  rw [unitsNum, h, Nat.zero_mul, Nat.zero_mul]
  exact den_pos d

/-- A decimal too small for its number of digits rounds to zero. -/
theorem roundToDouble_of_small {d : Decimal} {length k : Nat}
    (hk : 2 * Double.unitsPerOne ≤ Nat.pow 10 k) (hd : d.digits < 10 ^ length)
    (h : d.exponent + length + k ≤ 0) : d.roundToDouble = 0 := by
  refine Double.roundMagnitude_eq_zero ?_
  have hexp : length + k ≤ (-d.exponent).toNat := by omega
  have hpow : 10 ^ (length + k) ≤ 10 ^ (-d.exponent).toNat :=
    Nat.pow_le_pow_right (by decide) hexp
  rw [unitsNum, den, show d.exponent.toNat = 0 by omega]
  calc 2 * (d.digits * Nat.pow 10 0 * Double.unitsPerOne)
      = d.digits * (2 * Double.unitsPerOne) := by simp only [Nat.pow_eq]; ring
    _ < 10 ^ length * 10 ^ k := Nat.mul_lt_mul_of_lt_of_le hd hk (Nat.pow_pos (by decide))
    _ = 10 ^ (length + k) := (Nat.pow_add ..).symm
    _ ≤ 10 ^ (-d.exponent).toNat := hpow

/-- A decimal too large for its number of digits rounds to no finite double. -/
theorem limit_le_roundToDouble {d : Decimal} {length k : Nat}
    (hk : Double.limit ≤ Nat.pow 10 k * Double.unitsPerOne) (hd : 10 ^ length ≤ d.digits)
    (h : k ≤ d.exponent + length) : Double.limit ≤ d.roundToDouble := by
  have hexp : k + (-d.exponent).toNat ≤ length + d.exponent.toNat := by omega
  have hpow : 10 ^ k * 10 ^ (-d.exponent).toNat ≤ d.digits * 10 ^ d.exponent.toNat := by
    rw [← Nat.pow_add]
    calc 10 ^ (k + (-d.exponent).toNat)
        ≤ 10 ^ (length + d.exponent.toNat) := Nat.pow_le_pow_right (by decide) hexp
      _ = 10 ^ length * 10 ^ d.exponent.toNat := Nat.pow_add ..
      _ ≤ d.digits * 10 ^ d.exponent.toNat := Nat.mul_le_mul_right _ hd
  have hnum : Double.limit * d.den ≤ d.unitsNum := by
    rw [unitsNum, den]
    calc Double.limit * 10 ^ (-d.exponent).toNat
        ≤ 10 ^ k * Double.unitsPerOne * 10 ^ (-d.exponent).toNat := Nat.mul_le_mul_right _ hk
      _ = 10 ^ k * 10 ^ (-d.exponent).toNat * Double.unitsPerOne := Nat.mul_right_comm ..
      _ ≤ d.digits * 10 ^ d.exponent.toNat * Double.unitsPerOne := Nat.mul_le_mul_right _ hpow
  obtain ⟨t, ht⟩ := Double.exists_limit_eq_two_pow
  rw [ht] at hnum ⊢
  exact Double.two_pow_le_roundMagnitude (den_pos d) hnum

theorem two_mul_unitsPerOne_le : 2 * Double.unitsPerOne ≤ Nat.pow 10 400 := by
  unfold Double.unitsPerOne Double.fractionBits
  decide +kernel

theorem limit_le_mul_unitsPerOne : Double.limit ≤ Nat.pow 10 400 * Double.unitsPerOne := by
  unfold Double.limit Double.unitsPerOne Double.fractionBits
  decide +kernel

end Decimal

/-! ## Numerals -/

namespace Numeral

theorem ofDigits_append (ds es : List Char) :
    ofDigits (ds ++ es) = ofDigits ds * 10 ^ es.length + ofDigits es := by
  rw [ofDigits, Nat.ofDigitChars_append, Nat.ofDigitChars_eq_ofDigitChars_zero, Nat.mul_comm]
  rfl

theorem ofDigits_replicate_zero (k : Nat) : ofDigits (List.replicate k '0') = 0 := by
  rw [ofDigits, Nat.ofDigitChars_replicate_zero, Nat.mul_zero]

theorem ofDigits_lt {ds : List Char} (h : ∀ c ∈ ds, c.isDigit) :
    ofDigits ds < 10 ^ ds.length := by
  induction ds with
  | nil => decide
  | cons c ds ih =>
    have hrest := ih fun x hx => h x (List.mem_cons_of_mem c hx)
    have hc : c.toNat - '0'.toNat ≤ 9 := by
      have hd := h c List.mem_cons_self
      rw [Char.isDigit, Bool.and_eq_true, decide_eq_true_eq, decide_eq_true_eq] at hd
      have hle : c.toNat ≤ 57 := hd.2
      show c.toNat - 48 ≤ 9
      omega
    rw [ofDigits, Nat.ofDigitChars_cons, Nat.ofDigitChars_eq_ofDigitChars_zero, Nat.mul_zero,
      Nat.zero_add, List.length_cons, Nat.pow_succ]
    have hmul := Nat.mul_le_mul_left (10 ^ ds.length) hc
    show 10 ^ ds.length * (c.toNat - '0'.toNat) + ofDigits ds < 10 ^ ds.length * 10
    omega

/-- The shortcuts for very small and very large numerals agree with rounding. -/
theorem toDouble?_eq_nearest? {n : Numeral} (h : ∀ c ∈ n.digits, c.isDigit) :
    n.toDouble? = Double.nearest? n.negative n.decimal.unitsNum n.decimal.den := by
  have hdigits : n.decimal.digits < 10 ^ n.digits.length := by
    rw [decimal, digitsValue_eq]
    exact ofDigits_lt h
  have hzero : n.decimal.roundToDouble = 0 → some (Double.zero n.negative) =
      Double.nearest? n.negative n.decimal.unitsNum n.decimal.den := by
    intro hr
    rw [Decimal.roundToDouble] at hr
    have hlt : Double.roundMagnitude n.decimal.unitsNum n.decimal.den < Double.limit := by
      rw [hr]
      exact (Double.zero n.negative).magnitude_lt
    rw [Double.nearest?, dif_pos hlt]
    simp only [Double.zero, hr]
  rw [toDouble?]
  by_cases hd : n.decimal.digits = 0
  · rw [if_pos (by simp [hd])]
    exact hzero (Decimal.roundToDouble_eq_zero hd)
  by_cases hsmall : n.decimal.exponent + n.digits.length < -400
  · rw [if_pos (by simp [hsmall])]
    exact hzero (Decimal.roundToDouble_of_small Decimal.two_mul_unitsPerOne_le hdigits (by omega))
  rw [if_neg (by simp [hd, hsmall])]
  by_cases hlarge : 400 < n.decimal.exponent
  · have hone : 10 ^ 0 ≤ n.decimal.digits := Nat.pos_of_ne_zero hd
    have hge := Decimal.limit_le_roundToDouble Decimal.limit_le_mul_unitsPerOne hone (by omega)
    rw [if_pos hlarge, Double.nearest?, dif_neg]
    exact Nat.not_lt.2 hge
  · rw [if_neg hlarge]

/-- A numeral that rounds to the magnitude of a double of its sign is read as the double. -/
theorem toDouble?_eq_some {n : Numeral} {x : Double} (h : ∀ c ∈ n.digits, c.isDigit)
    (hsign : n.negative = x.negative) (hr : n.decimal.roundToDouble = x.magnitude) :
    n.toDouble? = some x := by
  rw [Decimal.roundToDouble] at hr
  have hlt : Double.roundMagnitude n.decimal.unitsNum n.decimal.den < Double.limit := by
    rw [hr]
    exact x.magnitude_lt
  rw [toDouble?_eq_nearest? h, Double.nearest?, dif_pos hlt]
  obtain ⟨negative, magnitude, _, _⟩ := x
  simp only at hsign hr
  simp only [hsign, hr]

end Numeral

end RuleLogic
