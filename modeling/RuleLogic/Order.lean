import RuleLogic.Coercion

/-!
# The order of values

Two strings are ordered by their characters; every other pair is ordered as numbers, an array by
the number that its text holds.  A value that is read as no number is unordered with everything.

    order? "a" "b" = some .lt        order? [3] 2 = some .gt        order? {} 1 = none
-/

namespace RuleLogic.Value

/-- The number that the order reads from a value. -/
def orderNumber? : Value → Option Double
  | .arr items => NumericText.read? (plain (.arr items))
  | v => v.toNumber?

/-- How two values are ordered, if they are. -/
def order? : Value → Value → Option Ordering
  | .str a, .str b => some (compare a b)
  | a, b =>
    match a.orderNumber?, b.orderNumber? with
    | some x, some y => some (x.order y)
    | _, _ => none

end RuleLogic.Value
