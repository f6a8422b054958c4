import RuleLogic.Validation

/-!
# Evaluators

An evaluator is a registry of custom operators together with what it offers: evaluating rules, and
a validator that accepts exactly the operators it evaluates.
-/

namespace RuleLogic

/-- An evaluator of rules with custom operators. -/
structure Evaluator where
  registry : Registry

namespace Evaluator

/-- The evaluator that knows only the built-in operators. -/
def builtin : Evaluator := ⟨.empty⟩

def register (ev : Evaluator) (f : CustomOperator) : Evaluator := ⟨ev.registry.register f⟩

def evaluate (ev : Evaluator) (rule data : Value) : Outcome Value := eval ev.registry rule data

/-- The names of the custom operators that validation accepts for this evaluator. -/
def allowlist (ev : Evaluator) : Allowlist := ev.registry.names

def validate (ev : Evaluator) (rule : Value) : Report := RuleLogic.validate ev.allowlist rule

end Evaluator

end RuleLogic
