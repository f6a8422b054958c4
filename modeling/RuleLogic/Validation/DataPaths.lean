import RuleLogic.Eval
import RuleLogic.DataPath
import RuleLogic.Coercion

/-!
# Checking the paths of a rule against data

Every `var` whose path is written out is walked in sample data, and each path that does not
resolve gives a warning.  Computed paths are not checked, but the rules that compute them are
searched.

    pathWarnings data rule = []    says that every path written out resolves
-/

namespace RuleLogic

/-- A path of `var` that does not resolve in the data. -/
structure PathWarning where
  path : String
  miss : Miss
deriving DecidableEq

def PathWarning.message (w : PathWarning) : String :=
  "var \"" ++ w.path ++ "\": " ++ w.miss.message

/-- The path that the value of a `var` writes out: a string that is not empty, or a number. -/
def literalPath? (v : Value) : Option String :=
  match argumentsOf v with
  | .str s :: _ => if s.isEmpty then none else some s
  | .num n :: _ => some (String.ofList n.plain)
  | _ => none

/-- The warning about one operator and its value. -/
def varWarnings (data : Value) (name : String) (v : Value) : List PathWarning :=
  if name = Operator.var.name then
    match literalPath? v with
    | some path =>
      match DataPath.walk data path with
      | .ok _ => []
      | .error miss => [⟨path, miss⟩]
    | none => []
  else []

mutual

/-- The warnings about a rule, in the order of the rule. -/
def pathWarnings (data : Value) : Value → List PathWarning
  | .arr items => allPathWarnings data items
  | .obj [] => []
  | .obj ((name, v) :: _) => varWarnings data name v ++ pathWarnings data v
  | _ => []

def allPathWarnings (data : Value) : List Value → List PathWarning
  | [] => []
  | v :: rest => pathWarnings data v ++ allPathWarnings data rest

end

end RuleLogic
