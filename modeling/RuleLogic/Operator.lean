/-!
# The built-in operators

Each of the 35 operators has a name, the numbers of arguments that it accepts and a strategy by
which its arguments are evaluated.

    ofName? op.name = some op      (ofName?_name)
-/

namespace RuleLogic

/-- The numbers of arguments that an operator accepts. -/
inductive Arity where
  | exactly (n : Nat)
  | between (least most : Nat)
  | atLeast (least : Nat)
deriving DecidableEq

namespace Arity

def least : Arity → Nat
  | exactly n => n
  | between least _ => least
  | atLeast least => least

/-- The most arguments, if there is a bound. -/
def most? : Arity → Option Nat
  | exactly n => some n
  | between _ most => some most
  | atLeast _ => none

def accepts (a : Arity) (count : Nat) : Bool :=
  a.least ≤ count && a.most?.all (count ≤ ·)

def describe : Arity → String
  | exactly n => "exactly " ++ toString n
  | between least most => toString least ++ " to " ++ toString most
  | atLeast least => "at least " ++ toString least

theorem accepts_iff {a : Arity} {count : Nat} :
    a.accepts count = true ↔ a.least ≤ count ∧ ∀ most, a.most? = some most → count ≤ most := by
  rw [accepts, Bool.and_eq_true, decide_eq_true_iff, Option.all_eq_true]
  simp only [decide_eq_true_iff]

theorem accepts_exactly {n count : Nat} : (exactly n).accepts count = true ↔ count = n := by
  rw [accepts_iff]
  simp only [least, most?, Option.some.injEq, forall_eq']
  omega

theorem accepts_between {least most count : Nat} :
    (between least most).accepts count = true ↔ least ≤ count ∧ count ≤ most := by
  rw [accepts_iff]
  simp only [Arity.least, most?, Option.some.injEq, forall_eq']

theorem accepts_atLeast {least count : Nat} :
    (atLeast least).accepts count = true ↔ least ≤ count := by
  rw [accepts_iff]
  simp only [Arity.least, most?, reduceCtorEq, false_implies, implies_true, and_true]

end Arity

/-- How an operator uses its arguments. -/
inductive Strategy where
  /-- All arguments are evaluated, from left to right, before the operator runs. -/
  | eager
  /-- Arguments are evaluated as they are needed. -/
  | shortCircuit
  /-- The body is evaluated with each item of a collection as its data. -/
  | scoped
deriving DecidableEq

def Strategy.name : Strategy → String
  | .eager => "eager"
  | .shortCircuit => "short-circuit"
  | .scoped => "scoped"

/-- A built-in operator. -/
inductive Operator where
  | var | missing | missingSome
  | choose | ternary
  | looseEq | looseNe | strictEq | strictNe
  | not | truth
  | or | and
  | gt | ge | lt | le
  | max | min | add | sub | mul | div | mod
  | map | filter | reduce | all | some | none
  | merge | elem | cat | substr | log
deriving DecidableEq

namespace Operator

/-- The operators in the order in which they are listed. -/
def builtins : List Operator :=
  [.var, .missing, .missingSome, .choose, .ternary, .looseEq, .looseNe, .strictEq, .strictNe,
   .not, .truth, .or, .and, .gt, .ge, .lt, .le, .max, .min, .add, .sub, .mul, .div, .mod,
   .map, .filter, .reduce, .all, .some, .none, .merge, .elem, .cat, .substr, .log]

def name : Operator → String
  | var => "var"
  | missing => "missing"
  | missingSome => "missing_some"
  | choose => "if"
  | ternary => "?:"
  | looseEq => "=="
  | looseNe => "!="
  | strictEq => "==="
  | strictNe => "!=="
  | not => "!"
  | truth => "!!"
  | or => "or"
  | and => "and"
  | gt => ">"
  | ge => ">="
  | lt => "<"
  | le => "<="
  | max => "max"
  | min => "min"
  | add => "+"
  | sub => "-"
  | mul => "*"
  | div => "/"
  | mod => "%"
  | map => "map"
  | filter => "filter"
  | reduce => "reduce"
  | all => "all"
  | some => "some"
  | none => "none"
  | merge => "merge"
  | elem => "in"
  | cat => "cat"
  | substr => "substr"
  | log => "log"

def arity : Operator → Arity
  | var => .between 0 2
  | missing => .atLeast 1
  | missingSome => .exactly 2
  | choose | ternary => .atLeast 3
  | looseEq | looseNe | strictEq | strictNe => .exactly 2
  | not | truth => .exactly 1
  | or | and => .atLeast 1
  | gt | ge | lt | le => .between 2 3
  | max | min | add => .atLeast 1
  | sub => .between 1 2
  | mul => .atLeast 2
  | div | mod => .exactly 2
  | map | filter => .exactly 2
  | reduce => .exactly 3
  | all | some | none => .exactly 2
  | merge => .atLeast 1
  | elem => .exactly 2
  | cat => .atLeast 1
  | substr => .between 2 3
  | log => .exactly 1

def strategy : Operator → Strategy
  | choose | ternary | and | or => .shortCircuit
  | map | filter | reduce | all | some | none => .scoped
  | _ => .eager

/-- The operator with a name. -/
def ofName? (name : String) : Option Operator := builtins.find? fun op => op.name == name

def builtinNames : List String := builtins.map name

/-! ## Lemmas -/

theorem mem_builtins (op : Operator) : op ∈ builtins := by cases op <;> decide

theorem ofName?_name (op : Operator) : ofName? op.name = Option.some op := by cases op <;> decide

theorem name_injective {a b : Operator} (h : a.name = b.name) : a = b := by
  have hb := ofName?_name b
  rw [← h, ofName?_name] at hb
  exact Option.some.inj hb

theorem name_of_ofName? {name : String} {op : Operator} (h : ofName? name = Option.some op) :
    op.name = name := by
  simpa using List.find?_some h

/-- A scoped operator has a collection and a body. -/
theorem two_le_of_scoped {op : Operator} {count : Nat} (hs : op.strategy = .scoped)
    (hn : op.arity.accepts count = true) : 2 ≤ count := by
  have hleast : 2 ≤ op.arity.least := by cases op <;> first | decide | cases hs
  exact Nat.le_trans hleast (Arity.accepts_iff.1 hn).1

end Operator

end RuleLogic
