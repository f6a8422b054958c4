import RuleLogic.Operator
import RuleLogic.Json.Value

/-!
# Findings

A finding is a problem at a place of a rule.  Problems are causes; the place is the list of steps
that lead to it from the root.  A report collects findings as errors or as warnings, and the first
error makes the rule invalid.

    place text = "root", then ".name[i]" for an argument, ".name" for a bare one, "[i]" for an item
-/

namespace RuleLogic

/-! ## Places -/

/-- A step from a node of a rule to a node below it. -/
inductive Step where
  /-- An item of an array literal. -/
  | item (index : Nat)
  /-- An argument in the list of an operator. -/
  | argument (operator : String) (index : Nat)
  /-- The only argument of an operator, given without a list. -/
  | bare (operator : String)
deriving DecidableEq

def indexText (index : Nat) : List Char := '[' :: Nat.toDigits 10 index ++ [']']

def Step.text : Step → List Char
  | .item index => indexText index
  | .argument operator index => '.' :: operator.toList ++ indexText index
  | .bare operator => '.' :: operator.toList

/-- The steps that lead to a node, the first one in front. -/
abbrev Place : Type := List Step

def Place.text (p : Place) : String := String.ofList ("root".toList ++ p.flatMap Step.text)

/-! ## Problems -/

/-- What can be wrong with a node of a rule. -/
inductive Problem where
  | extraKeys (count : Nat) (first : String)
  | unknownOperator (name : String) (known : List String)
  | tooFewArguments (op : Operator) (actual : Nat)
  | tooManyArguments (op : Operator) (most actual : Nat)
  | varPath (kind : Kind)
  | minimumNotANumber
  | keysNotAnArray
  | noElse (op : Operator) (count : Nat)
  | reducerIgnoresScope
deriving DecidableEq

namespace Problem

def quoted (name : String) : String := "\"" ++ name ++ "\""

def message : Problem → String
  | .extraKeys count first =>
    "object has " ++ toString count ++ " keys; only the first (" ++ quoted first
      ++ ") is used as the operator"
  | .unknownOperator name known =>
    "unknown operator " ++ quoted name ++ "; valid operators are: " ++ ", ".intercalate known
  | .tooFewArguments op actual =>
    "operator " ++ quoted op.name ++ " requires at least " ++ toString op.arity.least
      ++ " argument(s), got " ++ toString actual
  | .tooManyArguments op most actual =>
    "operator " ++ quoted op.name ++ " accepts at most " ++ toString most
      ++ " argument(s), got " ++ toString actual
  | .varPath kind => "\"var\" path should be a string, number or null, got " ++ kind.name
  | .minimumNotANumber => "\"missing_some\" first argument (minimum required) must be a number"
  | .keysNotAnArray => "\"missing_some\" second argument (keys) must be an array"
  | .noElse op count =>
    quoted op.name ++ " has an even number of arguments (" ++ toString count
      ++ "); there is no else branch"
  | .reducerIgnoresScope =>
    "\"reduce\" reducer references neither \"accumulator\" nor \"current\""

end Problem

/-- A problem and its place. -/
structure Finding where
  place : Place
  problem : Problem
deriving DecidableEq

def Finding.message (f : Finding) : String := f.problem.message

/-! ## Reports -/

inductive Severity where
  | error | warning
deriving DecidableEq

def Severity.name : Severity → String
  | .error => "error"
  | .warning => "warning"

/-- A finding as it was reported: as an error, or as a warning. -/
structure Reported extends Finding where
  severity : Severity
deriving DecidableEq

/-- What has been reported of a rule, errors and warnings each in the order of the rule. -/
structure Report where
  valid : Bool
  errors : List Reported
  warnings : List Reported
deriving DecidableEq

namespace Report

/-- A rule is valid until an error is reported. -/
def empty : Report := ⟨true, [], []⟩

def error (r : Report) (f : Finding) : Report :=
  { r with valid := false, errors := r.errors ++ [⟨f, .error⟩] }

/-- A warning is advice and says nothing against the rule. -/
def warn (r : Report) (f : Finding) : Report :=
  { r with warnings := r.warnings ++ [⟨f, .warning⟩] }

end Report

/-! ## As JSON -/

def Reported.toValue (f : Reported) : Value :=
  .obj [("message", .str f.message), ("path", .str f.place.text),
    ("severity", .str f.severity.name)]

/-- The entries of a report as a JSON object. -/
def Report.entries (r : Report) : List (String × Value) :=
  [("valid", .bool r.valid), ("errors", .arr (r.errors.map Reported.toValue)),
   ("warnings", .arr (r.warnings.map Reported.toValue))]

end RuleLogic
