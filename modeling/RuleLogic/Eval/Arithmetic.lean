import RuleLogic.EvalError
import RuleLogic.Coercion

/-!
# Arithmetic

Operands are read as doubles, and each step of a sum or product rounds to the nearest double.  A
result is written as an integer when it is one that fits in 64 signed bits, else as a double; so
results have one form for each value, and no negative zero.

    ofDouble 6.0 = 6        ofDouble 2.5 = 2.5        ofDouble (2 ^ 63) = 2 ^ 63 as a double
-/

namespace RuleLogic

/-- The number in normal form: an integer when it is one between `-2 ^ 63` and `2 ^ 63 - 1`. -/
def Number.ofDouble (x : Double) : Number :=
  match x.toInt? with
  | some n =>
    if h : -9223372036854775808 ≤ n ∧ n < 9223372036854775808 then
      .int n ⟨h.1, by have := h.2; simp only [maxInteger]; omega⟩
    else .double x
  | none => .double x

namespace Arithmetic

/-- The number that an operand holds. -/
def operand (op : Operator) (v : Value) : Except EvalError Double :=
  match v.toNumber? with
  | some x => .ok x
  | none => .error (.notANumber op.name v)

def operands (op : Operator) : List Value → Except EvalError (List Double)
  | [] => .ok []
  | v :: rest => do
    let x ← operand op v
    let xs ← operands op rest
    pure (x :: xs)

/-- The result as a value; `none` stands for a result that is not finite. -/
def result (op : Operator) : Option Double → Except EvalError Value
  | some x => .ok (.num (.ofDouble x))
  | none => .error (.nonFiniteNumber op.name)

/-- Rounded steps from left to right; once a step is not finite, neither is the result. -/
def fold (step : Double → Double → Option Double) (x : Double) (xs : List Double) :
    Option Double :=
  xs.foldlM step x

/-- The number among several that no other is ahead of. -/
def extreme (pick : Double → Double → Double) : List Double → Option Double
  | [] => none
  | x :: rest => some (rest.foldl pick x)

/-- One number negated, or the difference of two. -/
def difference (op : Operator) : List Double → Except EvalError Value
  | [x] => result op (some x.neg)
  | [x, y] => result op (x.sub? y)
  | _ => op.refuse (.operandCount "one or two operands")

/-- A division of either kind; both operands are read before a divisor of zero is refused. -/
def divide (op : Operator) (quotient : Double → Double → Option Double) :
    List Double → Except EvalError Value
  | [x, y] => if y.units = 0 then .error (.divisionByZero op.name) else result op (quotient x y)
  | _ => op.refuse (.operandCount "two operands")

end Arithmetic

end RuleLogic
