import RuleLogic.Double

/-!
# Rounding to the nearest double

An exact quotient is rounded once, to the nearest double, halves to the even neighbour; a
quotient that rounds to `2 ^ 1024` or beyond has no finite double.  Each arithmetic operation is
its exact result rounded this way, so an operation is one line and needs no algorithm of its own.

    spacing (roundMagnitude n d) ∣ roundMagnitude n d                (spacing_roundMagnitude_dvd)
    spacing m ∣ m → 0 < d → roundMagnitude (m * d) d = m             (roundMagnitude_mul)
-/

namespace RuleLogic.Double

/-! ## Algorithm -/

/-- The whole number nearest to `num / den`, halves to even. -/
def roundDiv (num den : Nat) : Nat :=
  let q := num / den
  let r := num % den
  if 2 * r < den then q else if den < 2 * r then q + 1 else q + q % 2

/-- The count of at most 53 significant bits nearest to `num / den`, halves to even. -/
def roundMagnitude (num den : Nat) : Nat :=
  roundDiv num (den * spacing (num / den)) * spacing (num / den)

/-! ## The rounded count is a double's -/

theorem roundDiv_le (num den : Nat) : roundDiv num den ≤ num / den + 1 := by
  simp only [roundDiv]
  split
  · omega
  · split <;> omega

theorem div_spacing_lt (q : Nat) : q / spacing q < Nat.pow 2 53 := by
  have hlt := Nat.lt_log2_self (n := q)
  refine (Nat.div_lt_iff_lt_mul (Nat.two_pow_pos _)).2 ?_
  refine Nat.lt_of_lt_of_le hlt ?_
  simp only [Nat.pow_eq, ← Nat.pow_add]
  exact Nat.pow_le_pow_right (by omega) (by omega)

theorem spacing_mul_two_pow_dvd {k : Nat} (hk : k ≤ Nat.pow 2 53) (t : Nat) :
    spacing (k * Nat.pow 2 t) ∣ k * Nat.pow 2 t := by
  rcases Nat.eq_zero_or_pos k with rfl | hpos
  · simp
  have hne : k * Nat.pow 2 t ≠ 0 :=
    Nat.mul_ne_zero (by omega) (Nat.ne_of_gt (Nat.two_pow_pos t))
  rcases Nat.lt_or_eq_of_le hk with hlt | rfl
  · have hlog : (k * Nat.pow 2 t).log2 < 53 + t := by
      rw [Nat.log2_lt hne, Nat.pow_add]
      exact Nat.mul_lt_mul_of_pos_right hlt (Nat.two_pow_pos t)
    exact Nat.dvd_trans (Nat.pow_dvd_pow 2 (by omega)) (Nat.dvd_mul_left _ _)
  · simp only [spacing, Nat.pow_eq, ← Nat.pow_add, Nat.log2_two_pow]
    exact Nat.pow_dvd_pow 2 (by omega)

theorem spacing_roundMagnitude_dvd (num den : Nat) :
    spacing (roundMagnitude num den) ∣ roundMagnitude num den := by
  have hle : roundDiv num (den * spacing (num / den)) ≤ Nat.pow 2 53 := by
    have h1 := roundDiv_le num (den * spacing (num / den))
    have h2 := div_spacing_lt (num / den)
    rw [Nat.div_div_eq_div_mul] at h2
    exact Nat.le_trans h1 h2
  exact spacing_mul_two_pow_dvd hle _

/-! ## What a double holds is not rounded -/

theorem roundDiv_mul (k : Nat) {d : Nat} (hd : 0 < d) : roundDiv (k * d) d = k := by
  simp only [roundDiv, Nat.mul_div_cancel _ hd, Nat.mul_mod_left]
  rw [if_pos (by omega)]

theorem roundMagnitude_mul {count den : Nat} (hden : 0 < den) (hc : spacing count ∣ count) :
    roundMagnitude (count * den) den = count := by
  have hs : 0 < spacing count := Nat.two_pow_pos _
  obtain ⟨k, hk⟩ := hc
  have hnum : count * den = k * (den * spacing count) := by
    rw [Nat.mul_comm den, ← Nat.mul_assoc, Nat.mul_comm k, ← hk]
  rw [roundMagnitude, Nat.mul_div_cancel _ hden, hnum, roundDiv_mul _ (Nat.mul_pos hden hs),
    Nat.mul_comm, ← hk]

/-! ## Arithmetic -/

/-- The double nearest to `num / den` units; `none` when that is not finite. -/
def nearest? (negative : Bool) (num den : Nat) : Option Double :=
  if h : roundMagnitude num den < limit then
    some ⟨negative, roundMagnitude num den, h, spacing_roundMagnitude_dvd num den⟩
  else none

/-- The double nearest to the signed `num / den` units. -/
def ofUnits? (num : Int) (den : Nat) : Option Double :=
  nearest? (decide (num < 0)) num.natAbs den

/-- The double of `significand * 2 ^ shift` units. -/
def scaled (significand shift : Nat) (hs : significand ≤ Nat.pow 2 53)
    (hlt : significand * Nat.pow 2 shift < limit) : Double :=
  ⟨false, significand * Nat.pow 2 shift, hlt, spacing_mul_two_pow_dvd hs shift⟩

/-- The largest finite double. -/
def largest : Double := scaled (Nat.pow 2 53 - 1) 2045 (Nat.sub_le _ _) (by decide +kernel)

/-- The double nearest to an integer; integers beyond all doubles give the largest. -/
def ofInt (n : Int) : Double :=
  (ofUnits? (n * unitsPerOne) 1).getD (if n < 0 then largest.neg else largest)

def add? (x y : Double) : Option Double := ofUnits? (x.units + y.units) 1

def sub? (x y : Double) : Option Double := ofUnits? (x.units - y.units) 1

def mul? (x y : Double) : Option Double := ofUnits? (x.units * y.units) unitsPerOne

/-- The quotient; a divisor of zero is for the caller to refuse. -/
def div? (x y : Double) : Option Double :=
  ofUnits? (x.units * y.units.sign * unitsPerOne) y.magnitude

/-- The remainder with the sign of the dividend; it is always exact. -/
def mod? (x y : Double) : Option Double := ofUnits? (x.units.tmod y.units) 1

end RuleLogic.Double
