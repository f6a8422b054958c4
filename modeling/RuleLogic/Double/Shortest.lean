import RuleLogic.Double.Rounding

/-!
# The shortest decimal of a double

Among the decimals that round to a double, `shortest` takes one with the fewest digits, of those
the nearest to the double, and of two equally near the one with an even last digit.

    (shortest m).roundToDouble = m      for every count m of a double      (roundToDouble_shortest)

The search walks the grids of one to seventeen significant digits.  On a grid the only candidates
are the two neighbours of the value, and a candidate counts when rounding it gives the double
back.
-/

namespace RuleLogic

/-- The number `digits * 10 ^ exponent`. -/
structure Decimal where
  digits : Nat
  exponent : Int
deriving DecidableEq

namespace Decimal

/-- The numerator of the decimal, counted in the smallest positive double. -/
def unitsNum (d : Decimal) : Nat := d.digits * Nat.pow 10 d.exponent.toNat * Double.unitsPerOne

/-- The denominator of the decimal. -/
def den (d : Decimal) : Nat := Nat.pow 10 (-d.exponent).toNat

/-- The count that the decimal rounds to. -/
def roundToDouble (d : Decimal) : Nat := Double.roundMagnitude d.unitsNum d.den

end Decimal

namespace Double

/-! ## Algorithm -/

/-- Is the positive count at least `10 ^ e`? -/
def reachesPowerOfTen (count : Nat) (e : Int) : Bool :=
  Nat.pow 10 e.toNat * unitsPerOne ≤ count * Nat.pow 10 (-e).toNat

/-- The exponent of the leading decimal digit of a positive count: an estimate from the binary
logarithm, which is off by at most one. -/
def leadingExponent (count : Nat) : Int :=
  let estimate := ((count.log2 : Int) - fractionBits) * 30103 / 100000
  if reachesPowerOfTen count (estimate + 1) then estimate + 1
  else if reachesPowerOfTen count estimate then estimate
  else estimate - 1

/-- The point of the grid `10 ^ g` at or below the count. -/
def gridFloor (count : Nat) (g : Int) : Nat :=
  count * Nat.pow 10 (-g).toNat / (Nat.pow 10 g.toNat * unitsPerOne)

/-- How the count compares with the middle between `d` and `d + 1` on the grid `10 ^ g`. -/
def compareMiddle (count d : Nat) (g : Int) : Ordering :=
  compare (2 * count * Nat.pow 10 (-g).toNat) ((2 * d + 1) * Nat.pow 10 g.toNat * unitsPerOne)

/-- The neighbour on the side of the middle, and the even one for the middle itself. -/
def neighbour (d : Nat) : Ordering → Nat
  | .lt => d
  | .gt => d + 1
  | .eq => d + d % 2

/-- The one of two decimals that is suitable, and `nearer` if both are. -/
def suitable? (suits : Decimal → Bool) (below above nearer : Decimal) : Option Decimal :=
  match suits below, suits above with
  | true, true => some nearer
  | true, false => some below
  | false, true => some above
  | false, false => none

/-- The point of the grid `10 ^ g` that rounds to the count, if any does; of two the nearer. -/
def onGrid? (count : Nat) (g : Int) : Option Decimal :=
  let d := gridFloor count g
  suitable? (fun x => x.roundToDouble == count) ⟨d, g⟩ ⟨d + 1, g⟩
    ⟨neighbour d (compareMiddle count d g), g⟩

/-- The exact decimal of the count. -/
def allDigits (count : Nat) : Decimal := ⟨count * Nat.pow 5 fractionBits, -fractionBits⟩

/-- A shortest decimal that rounds to the positive count. -/
def shortest (count : Nat) : Decimal :=
  ((List.range 17).findSome? fun n : Nat => onGrid? count (leadingExponent count - n)).getD
    (allDigits count)

/-! ## The decimal rounds to the double -/

theorem roundToDouble_allDigits {count : Nat} (hc : spacing count ∣ count) :
    (allDigits count).roundToDouble = count := by
  have hnum : (allDigits count).unitsNum = count * (allDigits count).den := by
    simp only [Decimal.unitsNum, Decimal.den, allDigits, unitsPerOne, Int.toNat_neg_natCast,
      Int.neg_neg, Int.toNat_natCast, Nat.pow_eq, Nat.pow_zero, Nat.mul_one, Nat.mul_assoc,
      ← Nat.mul_pow]
  rw [Decimal.roundToDouble, hnum]
  exact roundMagnitude_mul (Nat.pow_pos (by decide)) hc

theorem neighbour_cases (d : Nat) (o : Ordering) : neighbour d o = d ∨ neighbour d o = d + 1 := by
  cases o with
  | lt => exact .inl rfl
  | gt => exact .inr rfl
  | eq => simp only [neighbour]; omega

theorem suits_of_suitable? {p : Decimal → Bool} {below above nearer d : Decimal}
    (hn : nearer = below ∨ nearer = above) (h : suitable? p below above nearer = some d) :
    p d = true := by
  cases hb : p below <;> cases ha : p above <;> simp only [suitable?, hb, ha] at h
  · cases h
  · cases h; exact ha
  · cases h; exact hb
  · cases h
    rcases hn with rfl | rfl
    · exact hb
    · exact ha

theorem roundToDouble_of_onGrid? {count : Nat} {g : Int} {d : Decimal}
    (h : onGrid? count g = some d) : d.roundToDouble = count := by
  refine eq_of_beq (suits_of_suitable? (p := fun x => x.roundToDouble == count) ?_ h)
  rcases neighbour_cases (gridFloor count g) (compareMiddle count (gridFloor count g) g) with
    hd | hd
  · exact .inl (by rw [hd])
  · exact .inr (by rw [hd])

/-- Reading a shortest decimal gives the double back. -/
theorem roundToDouble_shortest {count : Nat} (hc : spacing count ∣ count) :
    (shortest count).roundToDouble = count := by
  rw [shortest]
  cases h : (List.range 17).findSome? fun n : Nat => onGrid? count (leadingExponent count - n) with
  | none => exact roundToDouble_allDigits hc
  | some d =>
    obtain ⟨n, _, hn⟩ := List.exists_of_findSome?_eq_some h
    exact roundToDouble_of_onGrid? hn

end Double

end RuleLogic
