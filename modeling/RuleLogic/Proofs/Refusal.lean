import RuleLogic.Proofs.Rule

/-!
# How operators fail on their operands

An eager operator that gets a number of operands that it accepts either succeeds or fails in its own
name: it refuses an operand, an operand is no number, or there is no finite result.  It never runs
into a case that it has no meaning for.

    (op.apply data values).result = .error e → e.IsOf op      (apply_isOf)
-/

namespace RuleLogic

/-- Reasons that stand for no operand at fault: the operator is run by another strategy than its own
or with a number of operands that it has no meaning for. -/
def Reason.isDefensive : Reason → Bool
  | .wrongStrategy _ => true
  | .operandCount _ => true
  | _ => false

def EvalError.isDefensive : EvalError → Bool
  | .invalidArgument _ reason => reason.isDefensive
  | _ => false

/-- The error of an operator whose operands are at fault. -/
def EvalError.IsOf (op : Operator) : EvalError → Prop
  | .invalidArgument name reason => name = op.name ∧ reason.isDefensive = false
  | .notANumber name _ => name = op.name
  | .divisionByZero name => name = op.name
  | .nonFiniteNumber name => name = op.name
  | _ => False

theorem EvalError.IsOf.not_isDefensive {op : Operator} {e : EvalError} (h : e.IsOf op) :
    e.isDefensive = false := by
  cases e with
  | invalidArgument name reason => exact h.2
  | _ => rfl

/-- If the result is a failure, it is one of the operator. -/
def Operator.Owns {α : Type} (op : Operator) (x : Except EvalError α) : Prop :=
  ∀ e, x = .error e → e.IsOf op

namespace Operator.Owns

variable {α β : Type} {op : Operator}

theorem ok {a : α} : op.Owns (.ok a) := nofun

theorem error {e : EvalError} (h : e.IsOf op) : op.Owns (.error e : Except EvalError α) := by
  rintro _ ⟨⟩
  exact h

theorem refuse {reason : Reason} (h : reason.isDefensive = false) :
    op.Owns (op.refuse reason : Except EvalError α) := error ⟨rfl, h⟩

theorem bind {x : Except EvalError α} {f : α → Except EvalError β} (hx : op.Owns x)
    (hf : ∀ a, x = .ok a → op.Owns (f a)) : op.Owns (x >>= f) := by
  cases x with
  | ok a => exact hf a rfl
  | error e => exact error (hx e rfl)

end Operator.Owns

open Operator

variable {op : Operator} {data : Value} {values : List Value}

/-! ## Looking into the data -/

theorem varPath_owns (v : Value) : op.Owns (Lookup.varPath op v) := by
  cases v with
  | null | num _ | str _ => exact .ok
  | bool _ | arr _ | obj _ => exact .refuse rfl

theorem keyPath_error {v : Value} {e : EvalError} (h : Lookup.keyPath op v = .error e) :
    e = .invalidArgument op.name (.notAKey v.kind) := by
  cases v with
  | num _ | str _ => cases h
  | null | bool _ | arr _ | obj _ =>
    cases h
    rfl

theorem bind_error_cases {α β : Type} {x : Except EvalError α} {f : α → Except EvalError β}
    {e : EvalError} (h : x >>= f = .error e) : x = .error e ∨ ∃ a, x = .ok a ∧ f a = .error e := by
  cases x with
  | ok a => exact .inr ⟨a, rfl, h⟩
  | error e' =>
    cases h
    exact .inl rfl

/-- A look-up of keys fails only on a key that gives no path. -/
theorem missingKeys_error {keys : List Value} {e : EvalError}
    (h : Lookup.missingKeys op data keys = .error e) :
    ∃ kind, e = .invalidArgument op.name (.notAKey kind) := by
  induction keys with
  | nil => cases h
  | cons key rest ih =>
    rw [Lookup.missingKeys] at h
    rcases bind_error_cases h with h | ⟨path, _, h⟩
    · exact ⟨key.kind, keyPath_error h⟩
    · rcases bind_error_cases h with h | ⟨more, _, h⟩
      · exact ih h
      · cases h

theorem missingKeys_owns (keys : List Value) : op.Owns (Lookup.missingKeys op data keys) := by
  intro e h
  obtain ⟨kind, rfl⟩ := missingKeys_error h
  exact ⟨rfl, rfl⟩

/-- Given a number and a list, `missing_some` fails only on a key that gives no path. -/
theorem missingSome_error {need : Number} {keys : List Value} {e : EvalError}
    (h : Lookup.missingSome op data [.num need, .arr keys] = .error e) :
    ∃ kind, e = .invalidArgument op.name (.notAKey kind) := by
  rw [Lookup.missingSome] at h
  rcases bind_error_cases h with h | ⟨missing, _, h⟩
  · exact missingKeys_error h
  · cases h

theorem missingSome_owns (hn : values.length = 2) :
    op.Owns (Lookup.missingSome op data values) := by
  obtain ⟨v, w, rfl⟩ := List.length_eq_two.1 hn
  cases v with
  | num need =>
    cases w with
    | arr keys => exact .bind (missingKeys_owns keys) fun _ _ => .ok
    | _ => exact .refuse rfl
  | _ => exact .refuse rfl

/-! ## Numbers -/

theorem operand_owns (v : Value) : op.Owns (Arithmetic.operand op v) := by
  unfold Arithmetic.operand
  split
  · exact .ok
  · exact .error rfl

theorem operands_owns (values : List Value) : op.Owns (Arithmetic.operands op values) := by
  induction values with
  | nil => exact .ok
  | cons v rest ih => exact .bind (operand_owns v) fun _ _ => .bind ih fun _ _ => .ok

theorem length_operands {xs : List Double} (h : Arithmetic.operands op values = .ok xs) :
    xs.length = values.length := by
  induction values generalizing xs with
  | nil =>
    cases h
    rfl
  | cons v rest ih =>
    unfold Arithmetic.operands at h
    cases hx : Arithmetic.operand op v with
    | error e =>
      rw [hx] at h
      cases h
    | ok x =>
      cases hs : Arithmetic.operands op rest with
      | error e =>
        rw [hx, hs] at h
        cases h
      | ok more =>
        rw [hx, hs] at h
        cases h
        exact congrArg (· + 1) (ih hs)

theorem result_owns (x : Option Double) : op.Owns (Arithmetic.result op x) := by
  cases x with
  | some x => exact .ok
  | none => exact .error rfl

theorem difference_owns {xs : List Double} (hn : 1 ≤ xs.length ∧ xs.length ≤ 2) :
    op.Owns (Arithmetic.difference op xs) := by
  match xs, hn with
  | [x], _ => exact result_owns (some x.neg)
  | [x, y], _ => exact result_owns (x.sub? y)

theorem divide_owns {quotient : Double → Double → Option Double} {xs : List Double}
    (hn : xs.length = 2) : op.Owns (Arithmetic.divide op quotient xs) := by
  obtain ⟨x, y, rfl⟩ := List.length_eq_two.1 hn
  show op.Owns (if y.units = 0 then .error (.divisionByZero op.name)
    else Arithmetic.result op (quotient x y))
  split
  · exact .error rfl
  · exact result_owns _

/-! ## Texts -/

theorem search_owns (hn : values.length = 2) : op.Owns (Text.search op values) := by
  obtain ⟨v, w, rfl⟩ := List.length_eq_two.1 hn
  cases w with
  | arr items => exact .ok
  | str s => exact .ok
  | _ => exact .refuse rfl

theorem index_owns (v : Value) : op.Owns (Text.index op v) := by
  refine .bind (operand_owns v) fun x _ => ?_
  split
  · exact .ok
  · exact .refuse rfl

theorem substr_owns (hn : 2 ≤ values.length ∧ values.length ≤ 3) :
    op.Owns (Text.substr op values) := by
  match values, hn with
  | [v, start], _ => exact .bind (index_owns start) fun _ _ => .ok
  | [v, start, length], _ =>
    exact .bind (index_owns start) fun _ _ => .bind (index_owns length) fun _ _ => .ok

/-! ## All eager operators -/

theorem unary_owns {f : Value → Value} (hn : values.length = 1) :
    op.Owns (Eager.unary op f values) := by
  obtain ⟨v, rfl⟩ := List.length_eq_one_iff.1 hn
  exact .ok

theorem binary_owns {f : Value → Value → Value} (hn : values.length = 2) :
    op.Owns (Eager.binary op f values) := by
  obtain ⟨v, w, rfl⟩ := List.length_eq_two.1 hn
  exact .ok

theorem compute_owns (hs : op.strategy = .eager) (hl : op ≠ .log)
    (hn : op.arity.accepts values.length = true) : op.Owns (op.compute data values) := by
  cases op <;> try cases hs
  case log => exact absurd rfl hl
  case var => exact .bind (varPath_owns _) fun _ _ => .ok
  case missing => exact .bind (missingKeys_owns _) fun _ _ => .ok
  case missingSome => exact missingSome_owns (Arity.accepts_exactly.1 hn)
  case looseEq | looseNe | strictEq | strictNe => exact binary_owns (Arity.accepts_exactly.1 hn)
  case not | truth => exact unary_owns (Arity.accepts_exactly.1 hn)
  case gt | ge | lt | le | merge | cat => exact .ok
  case max | min | add | mul => exact .bind (operands_owns values) fun _ _ => result_owns _
  case sub =>
    refine .bind (operands_owns values) fun xs hx => difference_owns ?_
    rw [length_operands hx]
    exact Arity.accepts_between.1 hn
  case div | mod =>
    refine .bind (operands_owns values) fun xs hx => divide_owns ?_
    rw [length_operands hx]
    exact Arity.accepts_exactly.1 hn
  case elem => exact search_owns (Arity.accepts_exactly.1 hn)
  case substr => exact substr_owns (Arity.accepts_between.1 hn)

theorem apply_isOf {e : EvalError} (hs : op.strategy = .eager)
    (hn : op.arity.accepts values.length = true)
    (he : (op.apply data values).result = .error e) : e.IsOf op := by
  by_cases hl : op = .log
  · subst hl
    obtain ⟨v, rfl⟩ := List.length_eq_one_iff.1 (Arity.accepts_exactly.1 hn)
    cases he
  · rw [Operator.apply_eq_ofResult hl] at he
    exact compute_owns hs hl hn e he

/-- An operator gets as many operands as it has arguments. -/
theorem apply_isOf_of_evalEach {arguments : List Meaning} {e : EvalError}
    (hs : op.strategy = .eager) (hn : op.arity.accepts arguments.length = true)
    (hv : (evalEach data arguments).result = .ok values)
    (he : (op.apply data values).result = .error e) : e.IsOf op := by
  rw [(forall₂_of_evalEach hv).length_eq] at hn
  exact apply_isOf hs hn he

end RuleLogic
