import RuleLogic.Eval.Eager
import RuleLogic.Eval.Scope
import RuleLogic.Registry

/-!
# Evaluation of rules

A rule is a JSON value.  An array is evaluated item by item; an object that is not empty applies
the operator that its first key names to the arguments under that key; everything else stands for
itself.  The meaning of a rule is built from the meanings of its parts, so a rule matters only
through what it does.

    eval r (.obj ((name, v) :: rest)) = dispatch r name ((argumentsOf v).map (eval r))
-/

namespace RuleLogic

/-- The arguments that an operator's value gives: the items of an array, or the value alone. -/
def argumentsOf : Value → List Value
  | .arr items => items
  | v => [v]

/-! ## Operators -/

/-- The values of all arguments, from left to right. -/
def evalEach (data : Value) : List Meaning → Outcome (List Value)
  | [] => pure []
  | argument :: rest => do
    let v ← argument data
    let vs ← evalEach data rest
    pure (v :: vs)

/-- What a built-in operator means, from what its arguments mean. -/
def Operator.run (op : Operator) (arguments : List Meaning) : Meaning :=
  if op.arity.accepts arguments.length then
    match op.strategy with
    | .eager => fun data => do op.apply data (← evalEach data arguments)
    | .shortCircuit => op.branch arguments
    | .scoped => op.iterate arguments
  else fun _ => .fail (.arity op.name op.arity arguments.length)

/-- What a custom operator means, from what its arguments mean. -/
def CustomOperator.run (f : CustomOperator) (arguments : List Meaning) : Meaning :=
  if f.arity.accepts arguments.length then
    fun data => do Outcome.ofResult (f.call (← evalEach data arguments))
  else fun _ => .fail (.arity f.name f.arity arguments.length)

/-- The operator of a name, where built-in operators come before custom ones. -/
def dispatch (r : Registry) (name : String) (arguments : List Meaning) : Meaning :=
  match Operator.ofName? name with
  | some op => op.run arguments
  | none =>
    match r.find? name with
    | some f => f.run arguments
    | none => fun _ => .fail (.unknownOperator name)

/-! ## Rules -/

mutual

/-- What a rule means with the built-in operators and those of a registry. -/
def eval (r : Registry) : Value → Meaning
  | .arr items =>
    let parts := evalAll r items
    fun data => do pure (.arr (← evalEach data parts))
  | .obj [] => fun _ => pure (.obj [])
  | .obj ((name, .arr items) :: _) => dispatch r name (evalAll r items)
  | .obj ((name, v) :: _) => dispatch r name [eval r v]
  | literal => fun _ => pure literal

/-- What each rule of a list means. -/
def evalAll (r : Registry) : List Value → List Meaning
  | [] => []
  | rule :: rest => eval r rule :: evalAll r rest

end

/-! ## Lemmas -/

/-- A built-in name always means its operator, whatever is registered. -/
theorem dispatch_name (r : Registry) (op : Operator) (arguments : List Meaning) :
    dispatch r op.name arguments = op.run arguments := by
  simp only [dispatch, Operator.ofName?_name]

theorem evalAll_eq_map (r : Registry) (rules : List Value) :
    evalAll r rules = rules.map (eval r) := by
  induction rules with
  | nil => simp [evalAll]
  | cons rule rest ih => simp [evalAll, ih]

/-- A rule applies the operator of its first key to the meanings of its arguments. -/
theorem eval_rule (r : Registry) (name : String) (v : Value) (rest : List (String × Value)) :
    eval r (.obj ((name, v) :: rest)) = dispatch r name ((argumentsOf v).map (eval r)) := by
  cases v <;> simp [eval, argumentsOf, evalAll_eq_map]

end RuleLogic
