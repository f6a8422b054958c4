import RuleLogic.Operator
import RuleLogic.Json.Printer

/-!
# Why an evaluation fails

Errors are causes; `message` is the one place that words them.  The first failure ends an
evaluation, and nothing but its cause and the values logged before it remains.
-/

namespace RuleLogic

/-- Why an operator refuses its arguments. -/
inductive Reason where
  | notAnArray (kind : Kind)
  | notSearchable (kind : Kind)
  | notAPath (kind : Kind)
  | notAKey (kind : Kind)
  | minimumNotANumber (kind : Kind)
  | keysNotAnArray
  | notAnInteger (v : Value)
  /-- An operator that is run by another strategy than its own. -/
  | wrongStrategy (strategy : Strategy)
  /-- An operator that is run with a number of operands that it has no meaning for. -/
  | operandCount (expected : String)
deriving DecidableEq

/-- Why an evaluation fails. -/
inductive EvalError where
  | unknownOperator (name : String)
  | arity (op : String) (expected : Arity) (actual : Nat)
  | invalidArgument (op : String) (reason : Reason)
  | notANumber (op : String) (v : Value)
  | divisionByZero (op : String)
  | nonFiniteNumber (op : String)
  /-- The failure of a custom operator, in its own words. -/
  | custom (op message : String)
deriving DecidableEq

def Reason.message : Reason → String
  | .notAnArray kind => "expected an array, got " ++ kind.name
  | .notSearchable kind => "expected an array or string to search, got " ++ kind.name
  | .notAPath kind => "path must be a string, number or null, got " ++ kind.name
  | .notAKey kind => "keys must be strings or numbers, got " ++ kind.name
  | .minimumNotANumber kind => "minimum must be a number, got " ++ kind.name
  | .keysNotAnArray => "keys must be an array"
  | .notAnInteger v => "expected an integer, got " ++ v.toText
  | .wrongStrategy .eager => "not an eager operator"
  | .wrongStrategy strategy => "not a " ++ strategy.name ++ " operator"
  | .operandCount expected => "expects " ++ expected

/-- The operator's name as messages quote it. -/
def EvalError.quotedOperator (name : String) : String := "operator \"" ++ name ++ "\""

def EvalError.message : EvalError → String
  | .unknownOperator name => "unknown operator: " ++ name
  | .arity op expected actual =>
    quotedOperator op ++ " expects " ++ expected.describe ++ " argument(s), got " ++ toString actual
  | .invalidArgument op reason => quotedOperator op ++ ": " ++ reason.message
  | .notANumber op v => quotedOperator op ++ ": cannot convert " ++ v.toText ++ " to a number"
  | .divisionByZero op => quotedOperator op ++ ": division by zero"
  | .nonFiniteNumber op => quotedOperator op ++ ": result is not a finite number"
  | .custom op message => quotedOperator op ++ " failed: " ++ message

/-- The failure of an operator that refuses its arguments. -/
def Operator.refuse {α : Type} (op : Operator) (reason : Reason) : Except EvalError α :=
  .error (.invalidArgument op.name reason)

end RuleLogic
