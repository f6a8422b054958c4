import RuleLogic.Coercion

/-!
# Strict and loose equality

Strict equality compares values of one kind; of two numbers it compares the double values.  Loose
equality first brings different kinds together: `null` equals only itself, a composite stands for
its text before a string, and every other mixed pair is compared as numbers.

    strictEq 1 1.0      looseEq 1 "1.0"      looseEq "1,2" [1, 2]      looseEq true "1"
-/

namespace RuleLogic.Value

/-- Equality without coercion; two numbers are equal when their double values are. -/
def strictEq : Value → Value → Bool
  | .num a, .num b => a.sameValue b
  | a, b => a.same b

/-- The number that loose equality reads from a value: composites are read through their texts. -/
def looseNumber? : Value → Option Double
  | .arr items => NumericText.read? (plain (.arr items))
  | .obj entries => NumericText.read? (plain (.obj entries))
  | v => v.toNumber?

/-- Are both values read as numbers, and are these equal? -/
def sameNumber (a b : Value) : Bool :=
  match a.looseNumber?, b.looseNumber? with
  | some x, some y => x.sameValue y
  | _, _ => false

def isComposite : Value → Bool
  | .arr _ => true
  | .obj _ => true
  | _ => false

/-- Equality with coercion. -/
def looseEq (a b : Value) : Bool :=
  match a, b with
  | .null, .null => true
  | .null, _ => false
  | _, .null => false
  | .bool x, .bool y => x == y
  | .str x, .str y => x == y
  | .str x, b => if b.isComposite then x.toList == b.plain else sameNumber a b
  | a, .str y => if a.isComposite then a.plain == y.toList else sameNumber a b
  | a, b => if a.isComposite && b.isComposite then a.same b else sameNumber a b

end RuleLogic.Value
