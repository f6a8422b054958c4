import Mathlib.Data.Nat.Log
import RuleLogic.Proofs.NumberValue

/-!
# Rounding keeps the order

Rounding to the nearest double never turns two counts around, and what is beyond all doubles becomes
the largest one.  So a number that does not exceed an integer does not do so when both are rounded,
and one that does still exceeds it unless the integer has `2 ^ 53` in size.

    num ≤ num' → roundMagnitude num den ≤ roundMagnitude num' den           (roundMagnitude_mono)
    s ≤ t → ofCount s ≤ ofCount t                                                  (ofCount_mono)
    a.value ≤ n → a.toDouble ≤ ofInt n                                        (toDouble_le_ofInt)
    n < a.value → |n| < 2 ^ 53 → ¬ a.toDouble ≤ ofInt n                   (not_toDouble_le_ofInt)
-/

namespace RuleLogic

namespace Double

/-! ## Magnitudes -/

/-- A quotient is rounded down if its remainder is at most a half, and up if it is at least one. -/
theorem roundDiv_cases (num den : Nat) :
    (roundDiv num den = num / den ∧ 2 * (num % den) ≤ den) ∨
      (roundDiv num den = num / den + 1 ∧ den ≤ 2 * (num % den)) := by
  simp only [roundDiv]
  split
  · omega
  · split <;> omega

theorem roundDiv_mono {num num' den : Nat} (h : num ≤ num') :
    roundDiv num den ≤ roundDiv num' den := by
  rcases Nat.eq_or_lt_of_le h with rfl | hlt
  · exact Nat.le_refl _
  rcases Nat.lt_or_eq_of_le (Nat.div_le_div_right (c := den) h) with hq | hq
  · calc roundDiv num den ≤ num / den + 1 := roundDiv_le num den
      _ ≤ num' / den := hq
      _ ≤ roundDiv num' den := le_roundDiv num' den
  · -- the quotients are the same, so the larger numerator has the larger remainder
    have hnum := Nat.div_add_mod num den
    have hnum' := Nat.div_add_mod num' den
    rw [hq] at hnum
    have hr : num % den < num' % den := by omega
    rcases roundDiv_cases num den with ⟨hd, h2⟩ | ⟨hd, h2⟩
    · rw [hd, hq]
      exact le_roundDiv num' den
    · rcases roundDiv_cases num' den with ⟨_, h2'⟩ | ⟨hd', _⟩
      · omega
      · rw [hd, hd', hq]

theorem log2_mono {a b : Nat} (h : a ≤ b) : a.log2 ≤ b.log2 := by
  rw [Nat.log2_eq_log_two, Nat.log2_eq_log_two]
  exact Nat.log_mono_right h

/-- Rounding does not go above a power of two that the quotient does not exceed. -/
theorem roundMagnitude_le_two_pow {num den k : Nat} (hden : 0 < den) (h : num ≤ 2 ^ k * den) :
    roundMagnitude num den ≤ 2 ^ k := by
  have hq : num / den ≤ 2 ^ k := Nat.div_le_of_le_mul (by rw [Nat.mul_comm]; exact h)
  have hlog : (num / den).log2 ≤ k := by
    rw [← Nat.log2_two_pow (n := k)]
    exact log2_mono hq
  -- the spacing divides the power of two, which is therefore not rounded
  have hpow : 2 ^ k = 2 ^ (k - ((num / den).log2 - 52)) * spacing (num / den) := by
    rw [spacing, Nat.pow_eq, ← Nat.pow_add]
    congr 1
    omega
  have hpos : 0 < den * spacing (num / den) := Nat.mul_pos hden (Nat.two_pow_pos _)
  have hnum : num ≤ 2 ^ (k - ((num / den).log2 - 52)) * (den * spacing (num / den)) := by
    rw [Nat.mul_comm den, ← Nat.mul_assoc, ← hpow]
    exact h
  rw [roundMagnitude, hpow]
  refine Nat.mul_le_mul_right _ ?_
  exact Nat.le_trans (roundDiv_mono hnum) (Nat.le_of_eq (roundDiv_mul _ hpos))

theorem roundMagnitude_mono {num num' den : Nat} (hden : 0 < den) (h : num ≤ num') :
    roundMagnitude num den ≤ roundMagnitude num' den := by
  have hq : num / den ≤ num' / den := Nat.div_le_div_right h
  rcases Nat.lt_or_ge (num / den).log2 (num' / den).log2 with hlt | hge
  · -- a power of two lies between the two quotients
    have hne : num' / den ≠ 0 := by
      intro h0
      rw [h0] at hlt
      exact Nat.not_lt_zero _ hlt
    have hbelow : num ≤ 2 ^ (num' / den).log2 * den := by
      refine Nat.le_of_lt ((Nat.div_lt_iff_lt_mul hden).1 ?_)
      calc num / den < 2 ^ ((num / den).log2 + 1) := Nat.lt_log2_self
        _ ≤ 2 ^ (num' / den).log2 := Nat.pow_le_pow_right (by decide) hlt
    have habove : 2 ^ (num' / den).log2 * den ≤ num' :=
      (Nat.le_div_iff_mul_le hden).1 (Nat.log2_self_le hne)
    exact Nat.le_trans (roundMagnitude_le_two_pow hden hbelow)
      (two_pow_le_roundMagnitude hden habove)
  · have hlog : (num / den).log2 = (num' / den).log2 := Nat.le_antisymm (log2_mono hq) hge
    rw [roundMagnitude, roundMagnitude, spacing, hlog, ← spacing]
    exact Nat.mul_le_mul_right _ (roundDiv_mono h)

/-- Between the largest count of 53 bits and the next power of two there is no double. -/
theorem le_of_spacing_dvd {count t : Nat} (hs : spacing count ∣ count)
    (hlt : count < Nat.pow 2 53 * Nat.pow 2 t) : count ≤ (Nat.pow 2 53 - 1) * Nat.pow 2 t := by
  rcases Nat.lt_or_ge count (2 ^ (52 + t)) with hsmall | hlarge
  · rw [Nat.pow_add] at hsmall
    exact Nat.le_trans (Nat.le_of_lt hsmall) (Nat.mul_le_mul_right _ (by decide))
  · have hne : count ≠ 0 := Nat.ne_of_gt (Nat.lt_of_lt_of_le (Nat.two_pow_pos _) hlarge)
    have hlog : 52 + t ≤ count.log2 := (Nat.le_log2 hne).2 hlarge
    obtain ⟨k, hk⟩ : Nat.pow 2 t ∣ count := Nat.dvd_trans (Nat.pow_dvd_pow 2 (by omega)) hs
    rw [hk, Nat.mul_comm] at hlt
    have hk' : k < Nat.pow 2 53 := Nat.lt_of_mul_lt_mul_right hlt
    rw [hk, Nat.mul_comm]
    exact Nat.mul_le_mul_right _ (Nat.le_sub_one_of_lt hk')

theorem exists_limit_eq : ∃ t, limit = Nat.pow 2 53 * Nat.pow 2 t ∧
    largest.magnitude = (Nat.pow 2 53 - 1) * Nat.pow 2 t := by
  refine ⟨2045, ?_, ?_⟩
  · unfold limit
    decide +kernel
  · decide +kernel

theorem magnitude_le_largest (x : Double) : x.magnitude ≤ largest.magnitude := by
  obtain ⟨t, hlimit, hlargest⟩ := exists_limit_eq
  have hlt := x.magnitude_lt
  rw [hlimit] at hlt
  rw [hlargest]
  exact le_of_spacing_dvd x.spacing_dvd hlt

/-! ## Counts -/

/-- The size that a count is rounded to, cut off at the largest double. -/
def roundedSize (size : Nat) : Nat :=
  if roundMagnitude size 1 < limit then roundMagnitude size 1 else largest.magnitude

/-- The double nearest to a count; counts beyond all doubles give the largest. -/
def ofCount (count : Int) : Double :=
  (ofUnits? count 1).getD (if count < 0 then largest.neg else largest)

theorem roundedSize_mono {a b : Nat} (h : a ≤ b) : roundedSize a ≤ roundedSize b := by
  have hle := roundMagnitude_mono Nat.one_pos h
  unfold roundedSize
  by_cases hb : roundMagnitude b 1 < limit
  · rw [if_pos hb, if_pos (Nat.lt_of_le_of_lt hle hb)]
    exact hle
  · rw [if_neg hb]
    split
    · next ha => exact magnitude_le_largest ⟨false, _, ha, spacing_roundMagnitude_dvd _ _⟩
    · exact Nat.le_refl _

/-- What a double holds is not rounded. -/
theorem roundedSize_magnitude (x : Double) : roundedSize x.magnitude = x.magnitude := by
  rw [roundedSize, roundMagnitude_magnitude, if_pos x.magnitude_lt]

/-- A count is rounded in its size and keeps its sign. -/
theorem units_ofCount (count : Int) : (ofCount count).units =
    if count < 0 then -(roundedSize count.natAbs : Int) else roundedSize count.natAbs := by
  unfold ofCount ofUnits? nearest? roundedSize
  split
  · simp only [Option.getD_some, units, decide_eq_true_eq]
  · simp only [Option.getD_none]
    split
    · rw [units_neg]
      rfl
    · rfl

theorem units_ofCount_units (x : Double) : (ofCount x.units).units = x.units := by
  have habs := x.natAbs_units
  rw [units_ofCount, habs, roundedSize_magnitude]
  split <;> omega

theorem ofCount_mono {s t : Int} (h : s ≤ t) : ofCount s ≤ ofCount t := by
  rw [le_iff, units_ofCount, units_ofCount]
  by_cases hs : s < 0
  · by_cases ht : t < 0
    · have hsize : t.natAbs ≤ s.natAbs := by omega
      have hle := roundedSize_mono hsize
      rw [if_pos hs, if_pos ht]
      omega
    · rw [if_pos hs, if_neg ht]
      omega
  · have hsize : s.natAbs ≤ t.natAbs := by omega
    have hle := roundedSize_mono hsize
    rw [if_neg hs, if_neg (by omega)]
    omega

/-! ## Integers -/

theorem ofInt_eq_ofCount (n : Int) : ofInt n = ofCount (n * unitsPerOne) := by
  simp only [ofInt, ofCount, mul_unitsPerOne_neg_iff]

theorem ofInt_mono {m n : Int} (h : m ≤ n) : ofInt m ≤ ofInt n := by
  rw [ofInt_eq_ofCount, ofInt_eq_ofCount]
  exact ofCount_mono (Int.mul_le_mul_of_nonneg_right h (Int.natCast_nonneg _))

/-- A double that does not exceed an integer does not exceed the integer rounded. -/
theorem le_ofInt {x : Double} {n : Int} (h : x.value ≤ n) : x ≤ ofInt n := by
  have hle := ofCount_mono (value_le_intCast_iff.1 h)
  rw [le_iff, units_ofCount_units] at hle
  rw [le_iff, ofInt_eq_ofCount]
  exact hle

/-- Integers of at most 53 bits are told apart by their doubles. -/
theorem units_ofInt {n : Int} (h : n.natAbs ≤ 2 ^ 53) : (ofInt n).units = n * unitsPerOne := by
  obtain ⟨x, hx⟩ := exists_value_eq h
  exact value_eq_intCast_iff.1 (value_ofInt hx)

end Double

/-! ## Numbers and integers -/

namespace Number

variable {a : Number} {n : Int}

theorem toDouble_le_ofInt (h : a.value ≤ n) : a.toDouble ≤ .ofInt n := by
  cases a with
  | int m _ => exact Double.ofInt_mono (Int.cast_le.1 h)
  | double x => exact Double.le_ofInt h

theorem not_toDouble_le_ofInt (h : n < a.value) (hn : n.natAbs < 2 ^ 53) :
    ¬ a.toDouble ≤ .ofInt n := by
  have hu := Double.intCast_unitsPerOne_pos
  rw [Double.le_iff, Double.units_ofInt (Nat.le_of_lt hn)]
  cases a with
  | int m _ =>
    -- the next integer is a double as well, and rounding does not bring `m` below it
    have hm : n + 1 ≤ m := by
      have hlt : n < m := Int.cast_lt.1 h
      omega
    have hle := Double.le_iff.1 (Double.ofInt_mono hm)
    rw [Double.units_ofInt (by omega), Int.add_mul] at hle
    show ¬ (Double.ofInt m).units ≤ _
    omega
  | double x =>
    intro hle
    exact absurd h (not_lt.2 (Double.value_le_intCast_iff.2 hle))

end Number

end RuleLogic
