import Mathlib.Algebra.Order.Field.Basic
import Mathlib.Algebra.Order.Field.Rat
import RuleLogic.Json.Number
import RuleLogic.Proofs.DecimalRounding

/-!
# The values of numbers

Every number denotes a rational: an integer itself, a double its count of units.  Integers are
compared and computed with through the nearest double, which has their value exactly when some
double has.  All integers up to `2 ^ 53` have one, and rounding brings no larger one below.

    x.value = n → (ofInt n).value = n                                   (Double.value_ofInt)
    |a.value| ≤ 2 ^ 53 → a.IsDouble                             (Number.isDouble_of_abs_le)
    2 ^ 53 ≤ |a.value| → 2 ^ 53 ≤ |a.toDouble.value|       (Number.two_pow_le_abs_toDouble)
-/

namespace RuleLogic

/-! ## Doubles -/

namespace Double

/-- The number that a double denotes. -/
def value (x : Double) : ℚ := x.units / unitsPerOne

theorem unitsPerOne_eq : unitsPerOne = 2 ^ fractionBits := by
  rw [unitsPerOne, Nat.pow_eq]

theorem unitsPerOne_pos : 0 < unitsPerOne := by
  rw [unitsPerOne_eq]
  exact Nat.two_pow_pos fractionBits

theorem intCast_unitsPerOne_pos : (0 : Int) < unitsPerOne :=
  Int.natCast_pos.2 unitsPerOne_pos

theorem mul_unitsPerOne_neg_iff {n : Int} : n * unitsPerOne < 0 ↔ n < 0 := by
  constructor
  · intro h
    exact neg_of_mul_neg_left h (Int.le_of_lt intCast_unitsPerOne_pos)
  · intro h
    exact Int.mul_neg_of_neg_of_pos h intCast_unitsPerOne_pos

theorem natAbs_units (x : Double) : x.units.natAbs = x.magnitude := by
  cases h : x.negative <;> simp [units, h]

theorem value_eq_intCast_iff {x : Double} {n : Int} : x.value = n ↔ x.units = n * unitsPerOne := by
  have hu : (unitsPerOne : ℚ) ≠ 0 := Nat.cast_ne_zero.2 (Nat.ne_of_gt unitsPerOne_pos)
  rw [value, div_eq_iff hu]
  norm_cast

theorem value_le_intCast_iff {x : Double} {n : Int} : x.value ≤ n ↔ x.units ≤ n * unitsPerOne := by
  have hu : (0 : ℚ) < unitsPerOne := Nat.cast_pos.2 unitsPerOne_pos
  rw [value, div_le_iff₀ hu]
  norm_cast

theorem value_zero (negative : Bool) : (zero negative).value = 0 := by
  rw [value, units_zero, Int.cast_zero, zero_div]

/-- A double is read as an integer exactly if that is its value. -/
theorem toInt?_eq_some_iff {x : Double} {n : Int} : x.toInt? = some n ↔ x.value = n := by
  have hu : (unitsPerOne : Int) ≠ 0 := Int.ne_of_gt intCast_unitsPerOne_pos
  rw [value_eq_intCast_iff, toInt?, ← natAbs_units]
  constructor
  · intro h
    split at h
    · next hmod =>
      have hdvd : (unitsPerOne : Int) ∣ x.units := Int.natCast_dvd.2 (Nat.dvd_of_mod_eq_zero hmod)
      rw [← Option.some.inj h, Int.ediv_mul_cancel hdvd]
    · cases h
  · intro h
    have hmod : x.units.natAbs % unitsPerOne = 0 := by
      rw [h, Int.natAbs_mul, Int.natAbs_natCast, Nat.mul_mod_left]
    rw [if_pos hmod, h, Int.mul_ediv_cancel n hu]

theorem value_eq_iff {x y : Double} : x.value = y.value ↔ x.units = y.units := by
  have hu : (unitsPerOne : ℚ) ≠ 0 := Nat.cast_ne_zero.2 (Nat.ne_of_gt unitsPerOne_pos)
  rw [value, value, div_left_inj' hu, Int.cast_inj]

/-- The sign and the size of a count say what it is. -/
theorem units_eq {x : Double} {n : Int} (hs : x.negative = decide (n < 0))
    (hm : x.magnitude = n.natAbs) : x.units = n := by
  rw [units, hs, hm]
  simp only [decide_eq_true_eq]
  split <;> omega

theorem le_abs_value_iff {x : Double} {k : Nat} :
    (2 : ℚ) ^ k ≤ |x.value| ↔ 2 ^ k * unitsPerOne ≤ x.magnitude := by
  have hu : (0 : ℚ) < unitsPerOne := Nat.cast_pos.2 unitsPerOne_pos
  rw [value, abs_div, abs_of_pos hu, le_div_iff₀ hu, ← natAbs_units, ← Int.cast_abs,
    ← Int.natCast_natAbs]
  norm_cast

/-! ## Integers as doubles -/

/-- What a double holds is not rounded. -/
theorem roundMagnitude_magnitude (x : Double) : roundMagnitude x.magnitude 1 = x.magnitude :=
  (congrArg (roundMagnitude · 1) (Nat.mul_one _)).symm.trans
    (roundMagnitude_mul Nat.one_pos x.spacing_dvd)

/-- An integer that fits is rounded and keeps its sign. -/
theorem ofInt_of_lt {n : Int} (h : roundMagnitude (n.natAbs * unitsPerOne) 1 < limit) :
    ofInt n = ⟨decide (n * unitsPerOne < 0), roundMagnitude (n.natAbs * unitsPerOne) 1, h,
      spacing_roundMagnitude_dvd _ _⟩ := by
  have hnat : (n * unitsPerOne).natAbs = n.natAbs * unitsPerOne := Int.natAbs_mul n unitsPerOne
  simp only [ofInt, ofUnits?, nearest?, hnat, dif_pos h, Option.getD_some]

/-- The others become the largest double of their sign. -/
theorem magnitude_ofInt_of_le {n : Int} (h : limit ≤ roundMagnitude (n.natAbs * unitsPerOne) 1) :
    (ofInt n).magnitude = largest.magnitude := by
  have hnat : (n * unitsPerOne).natAbs = n.natAbs * unitsPerOne := Int.natAbs_mul n unitsPerOne
  simp only [ofInt, ofUnits?, nearest?, hnat, dif_neg (Nat.not_lt.2 h), Option.getD_none]
  split <;> rfl

/-- The nearest double to an integer has its value if any double has. -/
theorem value_ofInt {x : Double} {n : Int} (h : x.value = n) : (ofInt n).value = n := by
  -- the count of `n` is that of a double, so rounding leaves it as it is
  have hx : x.magnitude = n.natAbs * unitsPerOne := by
    rw [← natAbs_units, value_eq_intCast_iff.1 h, Int.natAbs_mul, Int.natAbs_natCast]
  have hr : roundMagnitude (n.natAbs * unitsPerOne) 1 = n.natAbs * unitsPerOne := by
    rw [← hx, roundMagnitude_magnitude]
  have hlt : roundMagnitude (n.natAbs * unitsPerOne) 1 < limit := by
    rw [hr, ← hx]
    exact x.magnitude_lt
  have hm : roundMagnitude (n.natAbs * unitsPerOne) 1 = (n * unitsPerOne : Int).natAbs := by
    rw [hr, Int.natAbs_mul, Int.natAbs_natCast]
  rw [value_eq_intCast_iff, ofInt_of_lt hlt]
  exact units_eq rfl hm

/-- Integers of at most 53 significant bits are doubles, if they are not too large. -/
theorem exists_value_eq_mul_two_pow {m : Int} {t : Nat} (hm : m.natAbs ≤ 2 ^ 53)
    (hlt : (m * 2 ^ t).natAbs * unitsPerOne < limit) :
    ∃ x : Double, x.value = (m * 2 ^ t : Int) := by
  have hcount : (m * 2 ^ t).natAbs * unitsPerOne = m.natAbs * Nat.pow 2 (t + fractionBits) := by
    rw [Int.natAbs_mul, Int.natAbs_pow, unitsPerOne_eq, Nat.pow_eq, Nat.pow_add, Nat.mul_assoc]
    rfl
  have hdvd : spacing ((m * 2 ^ t).natAbs * unitsPerOne) ∣ (m * 2 ^ t).natAbs * unitsPerOne := by
    rw [hcount]
    exact spacing_mul_two_pow_dvd hm (t + fractionBits)
  have hsize : (m * 2 ^ t).natAbs * unitsPerOne = (m * 2 ^ t * unitsPerOne : Int).natAbs :=
    (Int.natAbs_mul (m * 2 ^ t) unitsPerOne).symm
  exact ⟨⟨decide (m * 2 ^ t * unitsPerOne < 0), _, hlt, hdvd⟩,
    value_eq_intCast_iff.2 (units_eq rfl hsize)⟩

/-- Integers of at most 53 bits, and `2 ^ 53`, are doubles. -/
theorem exists_value_eq {n : Int} (h : n.natAbs ≤ 2 ^ 53) : ∃ x : Double, x.value = n := by
  have hlimit : 2 ^ 53 * unitsPerOne < limit := by decide +kernel
  have hn : n * 2 ^ 0 = n := Int.mul_one n
  have hlt : (n * 2 ^ 0).natAbs * unitsPerOne < limit := by
    rw [hn]
    exact Nat.lt_of_le_of_lt (Nat.mul_le_mul_right _ h) hlimit
  rw [← hn]
  exact exists_value_eq_mul_two_pow h hlt

theorem two_pow_le_magnitude_scaled {k s t : Nat} (hpos : 0 < s) (hk : k ≤ t)
    (hs : s ≤ Nat.pow 2 53) (hlt : s * Nat.pow 2 t < limit) :
    2 ^ k ≤ (scaled s t hs hlt).magnitude :=
  Nat.le_trans (Nat.pow_le_pow_right (by decide) hk) (Nat.le_mul_of_pos_left _ hpos)

theorem two_pow_le_largest {k : Nat} (hk : k ≤ 2045) : 2 ^ k ≤ largest.magnitude := by
  have hpos : 0 < Nat.pow 2 53 - 1 := by decide
  rw [largest]
  exact two_pow_le_magnitude_scaled hpos hk _ _

/-- Rounding brings no integer from `2 ^ 53` on below it. -/
theorem two_pow_le_magnitude_ofInt {n : Int} (h : 2 ^ 53 ≤ n.natAbs) :
    2 ^ 53 * unitsPerOne ≤ (ofInt n).magnitude := by
  have hpow : 2 ^ 53 * unitsPerOne = 2 ^ (53 + fractionBits) := by
    rw [unitsPerOne_eq, ← Nat.pow_add]
  rcases Nat.lt_or_ge (roundMagnitude (n.natAbs * unitsPerOne) 1) limit with hlt | hge
  · rw [ofInt_of_lt hlt, hpow]
    refine two_pow_le_roundMagnitude Nat.one_pos ?_
    rw [Nat.mul_one, ← hpow]
    exact Nat.mul_le_mul_right _ h
  · have hshift : 53 + fractionBits ≤ 2045 := by
      unfold fractionBits
      decide
    calc 2 ^ 53 * unitsPerOne = 2 ^ (53 + fractionBits) := hpow
      _ ≤ largest.magnitude := two_pow_le_largest hshift
      _ = (ofInt n).magnitude := (magnitude_ofInt_of_le hge).symm

end Double

/-! ## Numbers -/

namespace Number

/-- The number that a JSON number denotes. -/
def value : Number → ℚ
  | .int n _ => n
  | .double x => x.value

/-- Is the value that of a double? -/
def IsDouble (a : Number) : Prop := ∃ x : Double, x.value = a.value

theorem sameValue_iff {a b : Number} :
    a.sameValue b = true ↔ a.toDouble.value = b.toDouble.value := by
  rw [sameValue, Double.sameValue_iff, Double.value_eq_iff]

theorem value_toDouble {a : Number} (h : a.IsDouble) : a.toDouble.value = a.value := by
  cases a with
  | int n _ =>
    obtain ⟨x, hx⟩ := h
    exact Double.value_ofInt hx
  | double x => rfl

theorem isDouble_iff {a : Number} : a.IsDouble ↔ a.toDouble.value = a.value :=
  ⟨value_toDouble, fun h => ⟨a.toDouble, h⟩⟩

instance (a : Number) : Decidable a.IsDouble := decidable_of_iff _ isDouble_iff.symm

theorem isDouble_double (x : Double) : (Number.double x).IsDouble := ⟨x, rfl⟩

theorem isDouble_of_abs_le {a : Number} (h : |a.value| ≤ 2 ^ 53) : a.IsDouble := by
  cases a with
  | int n _ =>
    have hn : n.natAbs ≤ 2 ^ 53 := by
      rw [value, ← Int.cast_abs, ← Int.natCast_natAbs] at h
      exact_mod_cast h
    exact Double.exists_value_eq hn
  | double x => exact isDouble_double x

theorem two_pow_le_abs_toDouble {a : Number} (h : 2 ^ 53 ≤ |a.value|) :
    2 ^ 53 ≤ |a.toDouble.value| := by
  cases a with
  | int n _ =>
    have hn : 2 ^ 53 ≤ n.natAbs := by
      rw [value, ← Int.cast_abs, ← Int.natCast_natAbs] at h
      exact_mod_cast h
    exact Double.le_abs_value_iff.2 (Double.two_pow_le_magnitude_ofInt hn)
  | double x => exact h

/-- Numbers of one value have one nearest double. -/
theorem toDouble_value_congr {a b : Number} (h : a.value = b.value) :
    a.toDouble.value = b.toDouble.value := by
  by_cases ha : a.IsDouble
  · have hb : b.IsDouble := by
      obtain ⟨x, hx⟩ := ha
      exact ⟨x, hx.trans h⟩
    rw [value_toDouble ha, value_toDouble hb, h]
  · -- neither is a double, so both are integers, and then the same
    cases a with
    | double x => exact absurd (isDouble_double x) ha
    | int n _ =>
      cases b with
      | double y => exact absurd ⟨y, h.symm⟩ ha
      | int m _ => rw [toDouble, toDouble, Int.cast_injective h]

end Number

end RuleLogic
