import RuleLogic.Outcome
import RuleLogic.Coercion

/-!
# Short-circuit operators

A rule means a function from data to an outcome.  The operators here take the meanings of their
arguments and consult them one after another, only as far as they need.

    consult false = and, which ends at the first argument that is not truthy
    consult true  = or, which ends at the first that is
-/

namespace RuleLogic

/-- What a rule does with the data that it is evaluated against. -/
abbrev Meaning : Type := Value → Outcome Value

namespace Branch

/-- Conditions and branches in turn: the branch of the first condition that is truthy, or else a
last argument that has no condition, or else `null`. -/
def choose : List Meaning → Meaning
  | [] => fun _ => pure .null
  | [otherwise] => otherwise
  | condition :: branch :: rest => fun data => do
    if (← condition data).truthy then branch data else choose rest data

/-- The first value whose truth is `stop`, or else the last value. -/
def consult (stop : Bool) : List Meaning → Meaning
  | [] => fun _ => pure .null
  | [last] => last
  | argument :: next :: rest => fun data => do
    let v ← argument data
    if v.truthy == stop then pure v else consult stop (next :: rest) data

end Branch

/-- What a short-circuit operator means, from what its arguments mean. -/
def Operator.branch (op : Operator) (arguments : List Meaning) : Meaning :=
  match op with
  | .choose => Branch.choose arguments
  | .ternary => Branch.choose arguments
  | .and => Branch.consult false arguments
  | .or => Branch.consult true arguments
  | _ => fun _ => .ofResult (op.refuse (.wrongStrategy .shortCircuit))

end RuleLogic
