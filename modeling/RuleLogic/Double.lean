/-!
# Finite binary64 numbers

A finite double is a sign and a whole number of the smallest positive double `2 ^ (-1074)`.
Counted in that unit every double is a natural number, so comparing and rounding are exact
arithmetic on naturals:

    value x = ± magnitude / 2 ^ 1074

A count is the magnitude of a double iff it is below `limit` and a multiple of its `spacing`,
which says that at most 53 of its bits are significant.  Both facts are fields of the type.
-/

namespace RuleLogic

namespace Double

/-- The smallest positive double is `2 ^ (-fractionBits)`. -/
@[irreducible] def fractionBits : Nat := 1074

/-- One, counted in the smallest positive double. -/
@[irreducible] def unitsPerOne : Nat := Nat.pow 2 fractionBits

/-- The first count too large for a finite double: `2 ^ 1024` in units. -/
@[irreducible] def limit : Nat := Nat.pow 2 2098

/-- The distance between neighbouring doubles around a count. -/
def spacing (count : Nat) : Nat := Nat.pow 2 (count.log2 - 52)

end Double

/-- A finite binary64 number; there is a positive and a negative zero. -/
structure Double where
  negative : Bool
  magnitude : Nat
  magnitude_lt : magnitude < Double.limit
  spacing_dvd : Double.spacing magnitude ∣ magnitude
deriving DecidableEq

namespace Double

/-! ## Values -/

/-- The value in units, with its sign; the two zeros share it. -/
def units (x : Double) : Int := if x.negative then -(x.magnitude : Int) else x.magnitude

/-- Equality of value: the two zeros are equal. -/
def sameValue (x y : Double) : Bool := x.units == y.units

instance : LE Double := ⟨fun x y => x.units ≤ y.units⟩

instance (x y : Double) : Decidable (x ≤ y) := inferInstanceAs (Decidable (x.units ≤ y.units))

/-- The order of the values. -/
def order (x y : Double) : Ordering := compare x.units y.units

def zero (negative : Bool) : Double :=
  ⟨negative, 0, by decide +kernel, Nat.dvd_zero _⟩

/-- The same number with the other sign. -/
def neg (x : Double) : Double := { x with negative := !x.negative }

/-- The larger of two values. -/
def max (x y : Double) : Double := if x ≤ y then y else x

/-- The smaller of two values. -/
def min (x y : Double) : Double := if x ≤ y then x else y

/-- The value as an integer, when it is one. -/
def toInt? (x : Double) : Option Int :=
  if x.magnitude % unitsPerOne = 0 then some (x.units / unitsPerOne) else none

/-! ## Lemmas -/

@[simp] theorem units_zero (negative : Bool) : (zero negative).units = 0 := by
  cases negative <;> rfl

@[simp] theorem units_neg (x : Double) : x.neg.units = -x.units := by
  cases h : x.negative <;> simp [units, neg, h]

theorem sameValue_iff {x y : Double} : x.sameValue y = true ↔ x.units = y.units := by
  simp [sameValue]

theorem sameValue_comm (x y : Double) : x.sameValue y = y.sameValue x := by
  simp only [sameValue, Bool.beq_comm]

theorem le_iff {x y : Double} : x ≤ y ↔ x.units ≤ y.units := Iff.rfl

end Double

end RuleLogic
