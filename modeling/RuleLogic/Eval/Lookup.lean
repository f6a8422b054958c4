import RuleLogic.EvalError
import RuleLogic.DataPath
import RuleLogic.Coercion

/-!
# Operators that look into the data

`var` takes the value at a path or else a default, `missing` lists the keys that lead to no value,
and `missing_some` does so unless enough of the keys are there.  A `null` in the data counts as no
value everywhere.

    missingKeys data ks keeps exactly the keys of ks with `present? data path = none`
-/

namespace RuleLogic.Lookup

/-- The value at a path, where `null` counts as absent. -/
def present? (data : Value) (path : String) : Option Value :=
  (DataPath.resolve? data path).filter fun v => !v.isNull

/-- The path that the first operand of `var` gives; none is the empty path. -/
def varPath (op : Operator) : Value → Except EvalError String
  | .null => .ok ""
  | .str s => .ok s
  | .num n => .ok (String.ofList n.plain)
  | v => op.refuse (.notAPath v.kind)

/-- The value at a path, or else the default, or else `null`. -/
def var (op : Operator) (data : Value) (operands : List Value) : Except EvalError Value := do
  let path ← varPath op (operands.head?.getD .null)
  pure (((present? data path).orElse fun _ => operands[1]?).getD .null)

/-- The path that a key gives. -/
def keyPath (op : Operator) : Value → Except EvalError String
  | .str s => .ok s
  | .num n => .ok (String.ofList n.plain)
  | v => op.refuse (.notAKey v.kind)

/-- The keys that lead to no value, in order and as they were given. -/
def missingKeys (op : Operator) (data : Value) : List Value → Except EvalError (List Value)
  | [] => .ok []
  | key :: rest => do
    let path ← keyPath op key
    let more ← missingKeys op data rest
    pure (if (present? data path).isSome then more else key :: more)

/-- The keys that `missing` asks for: a leading array holds them all. -/
def requestedKeys : List Value → List Value
  | .arr keys :: _ => keys
  | operands => operands

def missing (op : Operator) (data : Value) (operands : List Value) : Except EvalError Value := do
  pure (.arr (← missingKeys op data (requestedKeys operands)))

/-- The missing keys, or none of them when at least the first operand's number is present. -/
def missingSome (op : Operator) (data : Value) : List Value → Except EvalError Value
  | [.num need, .arr keys] => do
    let missing ← missingKeys op data keys
    let present := Double.ofInt (keys.length - missing.length : Nat)
    pure (.arr (if need.toDouble ≤ present then [] else missing))
  | [.num _, _] => op.refuse .keysNotAnArray
  | [v, _] => op.refuse (.minimumNotANumber v.kind)
  | _ => op.refuse (.operandCount "two operands")

end RuleLogic.Lookup
