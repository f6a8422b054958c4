import RuleLogic.Outcome
import RuleLogic.Order
import RuleLogic.Eval.Lookup
import RuleLogic.Eval.Text

/-!
# Eager operators

What an operator does with operands that have all been evaluated.  Only `log` adds to the log, and
only the operators that look into the data see it.

    (op.apply data values).log = []      unless op = .log
-/

namespace RuleLogic

namespace Eager

/-- An operator of one operand. -/
def unary (op : Operator) (f : Value → Value) : List Value → Except EvalError Value
  | [v] => .ok (f v)
  | _ => op.refuse (.operandCount "one operand")

/-- An operator of two operands. -/
def binary (op : Operator) (f : Value → Value → Value) : List Value → Except EvalError Value
  | [v, w] => .ok (f v w)
  | _ => op.refuse (.operandCount "two operands")

/-- Are all neighbours ordered in a way that is accepted? -/
def chain (accepted : Ordering → Bool) : List Value → Bool
  | v :: w :: rest => (v.order? w).any accepted && chain accepted (w :: rest)
  | _ => true

/-- All operands in one list, arrays giving their items. -/
def merge (operands : List Value) : List Value :=
  operands.flatMap fun
    | .arr items => items
    | v => [v]

end Eager

open Eager Arithmetic

/-- The result of every eager operator but `log`. -/
def Operator.compute (op : Operator) (data : Value) (values : List Value) :
    Except EvalError Value :=
  match op with
  | .var => Lookup.var op data values
  | .missing => Lookup.missing op data values
  | .missingSome => Lookup.missingSome op data values
  | .looseEq => binary op (fun v w => .bool (v.looseEq w)) values
  | .looseNe => binary op (fun v w => .bool (!v.looseEq w)) values
  | .strictEq => binary op (fun v w => .bool (v.strictEq w)) values
  | .strictNe => binary op (fun v w => .bool (!v.strictEq w)) values
  | .not => unary op (fun v => .bool (!v.truthy)) values
  | .truth => unary op (fun v => .bool v.truthy) values
  | .gt => .ok (.bool (chain (· == .gt) values))
  | .ge => .ok (.bool (chain (· != .lt) values))
  | .lt => .ok (.bool (chain (· == .lt) values))
  | .le => .ok (.bool (chain (· != .gt) values))
  | .max => do result op (extreme Double.max (← operands op values))
  | .min => do result op (extreme Double.min (← operands op values))
  | .add => do result op (fold Double.add? (.zero false) (← operands op values))
  | .mul => do result op (fold Double.mul? (.ofInt 1) (← operands op values))
  | .sub => do difference op (← operands op values)
  | .div => do divide op Double.div? (← operands op values)
  | .mod => do divide op Double.mod? (← operands op values)
  | .merge => .ok (.arr (Eager.merge values))
  | .elem => Text.search op values
  | .cat => .ok (Text.join values)
  | .substr => Text.substr op values
  | _ => op.refuse (.wrongStrategy .eager)

/-- Log the operand and give it back. -/
def Operator.logOperand (op : Operator) : List Value → Outcome Value
  | [v] => do
    Outcome.emit v
    pure v
  | _ => .ofResult (op.refuse (.operandCount "one operand"))

/-- What an eager operator does with its operands. -/
def Operator.apply (op : Operator) (data : Value) (values : List Value) : Outcome Value :=
  match op with
  | .log => op.logOperand values
  | op => .ofResult (op.compute data values)

/-! ## Lemmas -/

theorem Operator.apply_eq_ofResult {op : Operator} (hl : op ≠ .log) (data : Value)
    (values : List Value) : op.apply data values = .ofResult (op.compute data values) := by
  cases op <;> first | rfl | exact absurd rfl hl

end RuleLogic
