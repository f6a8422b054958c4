import RuleLogic.Names
import RuleLogic.Validation.Finding
import RuleLogic.Eval
import RuleLogic.Eval.Text

/-!
# Validation of rules

Validation looks at a rule without evaluating it and never fails: it walks the rule and reports what
is wrong with each node, a node before its arguments and these from left to right.  Below a node
whose operator is unknown it does not look.

    (validate custom rule).valid    says that no operator is unknown and none has a wrong count
-/

namespace RuleLogic

/-- The operator names that are accepted besides the built-in ones. -/
abbrev Allowlist : Type := List String

namespace Allowlist

/-- The allowlist with more names. -/
def extend (custom : Allowlist) (names : List String) : Allowlist := custom ++ names

/-- Every accepted name in ascending order, each once. -/
def known (custom : Allowlist) : List String := Names.sort (Operator.builtinNames ++ custom)

def accepts (custom : Allowlist) (name : String) : Bool :=
  (Operator.ofName? name).isSome || custom.contains name

end Allowlist

namespace Validation

/-! ## One node -/

/-- Keys behind the first are passed over. -/
def checkKeys (place : Place) (name : String) (count : Nat) (r : Report) : Report :=
  if 1 < count then r.warn ⟨place, .extraKeys count name⟩ else r

/-- Too few or too many arguments. -/
def checkArity (place : Place) (op : Operator) (count : Nat) (r : Report) : Report :=
  let r := if count < op.arity.least then r.error ⟨place, .tooFewArguments op count⟩ else r
  match op.arity.most? with
  | some most => if most < count then r.error ⟨place, .tooManyArguments op most count⟩ else r
  | none => r

/-- A path of `var` that can be no path. -/
def checkVar (place : Place) (arguments : List Value) (r : Report) : Report :=
  match arguments with
  | .bool _ :: _ => r.warn ⟨place, .varPath .boolean⟩
  | .arr _ :: _ => r.warn ⟨place, .varPath .array⟩
  | _ => r

/-- Operands of `missing_some` that are not written as a number and a list of keys. -/
def checkMissingSome (place : Place) (arguments : List Value) (r : Report) : Report :=
  let r :=
    if arguments.head?.any (·.kind != .number) then r.error ⟨place, .minimumNotANumber⟩ else r
  if arguments[1]?.any (·.kind != .array) then r.error ⟨place, .keysNotAnArray⟩ else r

/-- Conditions and branches without a last branch for none of them. -/
def checkChoice (place : Place) (op : Operator) (count : Nat) (r : Report) : Report :=
  if 3 ≤ count && count % 2 == 0 then r.warn ⟨place, .noElse op count⟩ else r

/-- A reducer whose text mentions neither of the names it is given.  A text that only happens to
hold one of them passes. -/
def checkReduce (place : Place) (arguments : List Value) (r : Report) : Report :=
  match arguments with
  | _ :: .obj entries :: _ =>
    let text := Value.compact (.obj entries)
    if Text.hasPart "accumulator".toList text || Text.hasPart "current".toList text then r
    else r.warn ⟨place, .reducerIgnoresScope⟩
  | _ => r

/-- The arguments of a built-in operator, apart from their number. -/
def checkShape (place : Place) (op : Operator) (arguments : List Value) (r : Report) : Report :=
  match op with
  | .var => checkVar place arguments r
  | .missingSome => checkMissingSome place arguments r
  | .choose => checkChoice place op arguments.length r
  | .ternary => checkChoice place op arguments.length r
  | .reduce => checkReduce place arguments r
  | _ => r

/-- The arguments of a known operator; custom operators take any. -/
def checkArguments (place : Place) (name : String) (arguments : List Value) (r : Report) :
    Report :=
  match Operator.ofName? name with
  | some op => checkShape place op arguments (checkArity place op arguments.length r)
  | none => r

/-! ## Whole rules -/

mutual

/-- The report so far, with what is found at a place and below it. -/
def walk (custom : Allowlist) (place : Place) (r : Report) : Value → Report
  | .arr items => walkItems custom (place ++ [.item ·]) 0 r items
  | .obj [] => r
  | .obj ((name, .arr items) :: rest) =>
    let r := checkKeys place name (rest.length + 1) r
    if custom.accepts name then
      walkItems custom (place ++ [.argument name ·]) 0 (checkArguments place name items r) items
    else r.error ⟨place, .unknownOperator name custom.known⟩
  | .obj ((name, v) :: rest) =>
    let r := checkKeys place name (rest.length + 1) r
    if custom.accepts name then
      walk custom (place ++ [.bare name]) (checkArguments place name (argumentsOf v) r) v
    else r.error ⟨place, .unknownOperator name custom.known⟩
  | _ => r

/-- The report so far, with what is found in a list from an index on, each item at its own place. -/
def walkItems (custom : Allowlist) (place : Nat → Place) (index : Nat) (r : Report) :
    List Value → Report
  | [] => r
  | v :: rest => walkItems custom place (index + 1) (walk custom (place index) r v) rest

end

end Validation

/-- The report on a rule, where custom operators of the given names are accepted. -/
def validate (custom : Allowlist) (rule : Value) : Report :=
  Validation.walk custom [] .empty rule

end RuleLogic
