import RuleLogic.Proofs.Failure
import RuleLogic.Proofs.Refusal

/-!
# Evaluation with checked operands

The operators find their arguments and operands by index, and leave cases unhandled that the table
of arities and strategies is meant to rule out.  Here every index is checked and every such case is
a fault.  No evaluation faults, whatever the rule, its data and the custom operators are, and each
one does what evaluation does without the checks.

    OptionT.run (Checked.eval r rule data) = some <$> eval r rule data   (checked_eval_never_faults)
-/

namespace RuleLogic

/-- A computation that may fault; a fault ends it like a failure. -/
abbrev Checked (α : Type) : Type := OptionT Outcome α

/-- What a rule does where a fault may occur. -/
abbrev CheckedMeaning : Type := Value → Checked Value

namespace Checked

variable {α β : Type}

/-- The entry at an index; there is a fault if the index is past the end. -/
def read (xs : List α) (i : Nat) : Checked α := OptionT.mk (pure xs[i]?)

def result (x : Except EvalError α) : Checked α := OptionT.lift (.ofResult x)

/-! ## Operators on demand and item by item -/

/-- The branch of the first condition that is truthy. -/
def choose : List CheckedMeaning → CheckedMeaning
  | condition :: branch :: rest => fun data => do
    if (← condition data).truthy then branch data else choose rest data
  | [otherwise] => otherwise
  | [] => fun _ => pure .null

/-- The first value whose truth is `stop`, or else the last one so far. -/
def consult (stop : Bool) (last : Value) : List CheckedMeaning → CheckedMeaning
  | [] => fun _ => pure last
  | argument :: rest => fun data => do
    let v ← argument data
    if v.truthy == stop then pure v else consult stop v rest data

def branch (op : Operator) (arguments : List CheckedMeaning) : CheckedMeaning :=
  match op with
  | .choose => choose arguments
  | .ternary => choose arguments
  | .and => consult false .null arguments
  | .or => consult true .null arguments
  | _ => fun _ => failure

/-- The truth of the body on an item. -/
def test (body : CheckedMeaning) (item : Value) : Checked Bool := do
  pure (← body item).truthy

/-- The items so far, and the next one if the body is truthy on it. -/
def keep (body : CheckedMeaning) (kept : List Value) (item : Value) : Checked (List Value) := do
  pure (if ← test body item then kept ++ [item] else kept)

/-- Is the body truthy on all items, of which there is at least one? -/
def all (body : CheckedMeaning) (items : List Value) : Checked Bool :=
  if items.isEmpty then pure false else items.allM (test body)

/-- What a scoped operator does with the items of its collection. -/
def walk (op : Operator) (arguments : List CheckedMeaning) (items : List Value) :
    CheckedMeaning := fun data => do
  let body ← read arguments 1
  match op with
  | .map => do
    pure (.arr (← items.mapM body))
  | .filter => do
    pure (.arr (← items.foldlM (keep body) []))
  | .reduce => do
    let initial ← read arguments 2
    items.foldlM (fun accumulator item => body (Scope.reduceScope accumulator item))
      (← initial data)
  | .all => do
    pure (.bool (← all body items))
  | .some => do
    pure (.bool (← items.anyM (test body)))
  | .none => do
    pure (.bool !(← items.anyM (test body)))
  | _ => failure

def iterate (op : Operator) (arguments : List CheckedMeaning) : CheckedMeaning := fun data => do
  let source ← read arguments 0
  match ← source data with
  | .arr items => walk op arguments items data
  | v => result (op.refuse (.notAnArray v.kind))

/-! ## Eager operators -/

def unary (f : Value → Value) (values : List Value) : Checked Value := do
  pure (f (← read values 0))

def binary (f : Value → Value → Value) (values : List Value) : Checked Value := do
  pure (f (← read values 0) (← read values 1))

/-- One number of several; there is a fault if there are none. -/
def extreme (pick : Double → Double → Double) : List Double → Checked Double
  | [] => failure
  | x :: rest => pure (rest.foldl pick x)

def divide (op : Operator) (quotient : Double → Double → Option Double) (values : List Value) :
    Checked Value := do
  let x ← result (Arithmetic.operand op (← read values 0))
  let y ← result (Arithmetic.operand op (← read values 1))
  if y.units = 0 then result (.error (.divisionByZero op.name))
  else result (Arithmetic.result op (quotient x y))

/-- What an eager operator does with its operands. -/
def apply (op : Operator) (data : Value) (values : List Value) : Checked Value :=
  match op with
  | .missingSome => do
    match ← read values 0 with
    | .num need =>
      match ← read values 1 with
      | .arr keys => result (Lookup.missingSome op data [.num need, .arr keys])
      | _ => result (op.refuse .keysNotAnArray)
    | v => result (op.refuse (.minimumNotANumber v.kind))
  | .looseEq => binary (fun v w => .bool (v.looseEq w)) values
  | .looseNe => binary (fun v w => .bool (!v.looseEq w)) values
  | .strictEq => binary (fun v w => .bool (v.strictEq w)) values
  | .strictNe => binary (fun v w => .bool (!v.strictEq w)) values
  | .not => unary (fun v => .bool (!v.truthy)) values
  | .truth => unary (fun v => .bool v.truthy) values
  | .max => do
    let best ← extreme Double.max (← result (Arithmetic.operands op values))
    result (Arithmetic.result op (some best))
  | .min => do
    let best ← extreme Double.min (← result (Arithmetic.operands op values))
    result (Arithmetic.result op (some best))
  | .sub => do
    match ← result (Arithmetic.operands op values) with
    | [x] => result (Arithmetic.result op (some x.neg))
    | [x, y] => result (Arithmetic.result op (x.sub? y))
    | _ => failure
  | .div => divide op Double.div? values
  | .mod => divide op Double.mod? values
  | .elem => do
    match ← read values 1 with
    | .arr items =>
      let v ← read values 0
      pure (.bool (items.any fun item => item.strictEq v))
    | .str s =>
      let v ← read values 0
      pure (.bool (Text.hasPart v.plain s.toList))
    | w => result (op.refuse (.notSearchable w.kind))
  | .substr => do
    let start ← result (Text.index op (← read values 1))
    let length ← result (values[2]?.mapM (Text.index op))
    pure (.str (String.ofList (Text.cut (← read values 0).plain start length)))
  | .log => do
    let v ← read values 0
    OptionT.lift (Outcome.emit v)
    read values 0
  -- these read no operand by its index
  | .var | .missing | .gt | .ge | .lt | .le | .add | .mul | .merge | .cat =>
    result (op.compute data values)
  | .choose | .ternary | .or | .and | .map | .filter | .reduce | .all | .some | .none => failure

/-! ## Rules -/

/-- What a built-in operator means, from what its arguments mean. -/
def run (op : Operator) (arguments : List CheckedMeaning) : CheckedMeaning :=
  if op.arity.accepts arguments.length then
    match op.strategy with
    | .eager => fun data => do apply op data (← arguments.mapM fun m => m data)
    | .shortCircuit => branch op arguments
    | .scoped => iterate op arguments
  else fun _ => result (.error (.arity op.name op.arity arguments.length))

def runCustom (f : CustomOperator) (arguments : List CheckedMeaning) : CheckedMeaning :=
  if f.arity.accepts arguments.length then
    fun data => do result (f.call (← arguments.mapM fun m => m data))
  else fun _ => result (.error (.arity f.name f.arity arguments.length))

def dispatch (r : Registry) (name : String) (arguments : List CheckedMeaning) : CheckedMeaning :=
  match Operator.ofName? name with
  | some op => run op arguments
  | none =>
    match r.find? name with
    | some f => runCustom f arguments
    | none => fun _ => result (.error (.unknownOperator name))

mutual

/-- What a rule means, with every index checked. -/
def eval (r : Registry) : Value → CheckedMeaning
  | .arr items =>
    let parts := evalAll r items
    fun data => do pure (.arr (← parts.mapM fun m => m data))
  | .obj [] => fun _ => pure (.obj [])
  | .obj ((name, .arr items) :: _) => dispatch r name (evalAll r items)
  | .obj ((name, v) :: _) => dispatch r name [eval r v]
  | literal => fun _ => pure literal

def evalAll (r : Registry) : List Value → List CheckedMeaning
  | [] => []
  | rule :: rest => eval r rule :: evalAll r rest

end

/-! ## Without faults -/

/-- The computation does not fault and does what the outcome says. -/
def Does (x : Checked α) (y : Outcome α) : Prop := x = OptionT.lift y

namespace Does

theorem lift (y : Outcome α) : Does (OptionT.lift y) y := rfl

theorem pure (a : α) : Does (pure a) (pure a) := (OptionT.lift_pure a).symm

theorem bind {x : Checked α} {y : Outcome α} {f : α → Checked β} {g : α → Outcome β}
    (hx : Does x y) (hf : ∀ a, y.result = .ok a → Does (f a) (g a)) :
    Does (x >>= f) (y >>= g) := by
  unfold Does at hx hf ⊢
  subst hx
  apply OptionT.ext
  rw [OptionT.run_bind_lift, OptionT.run_lift]
  cases h : y.result with
  | error e => rw [Outcome.bind_error h, Outcome.bind_error h, Outcome.bind_error rfl]
  | ok a =>
    rw [Outcome.bind_ok h, hf a h, OptionT.run_lift, Outcome.bind_ok h]
    cases hg : (g a).result with
    | error e => rw [Outcome.bind_error hg, Outcome.bind_error rfl]
    | ok b => rw [Outcome.bind_ok hg, Outcome.bind_ok rfl, List.append_assoc]

theorem ite {c : Prop} [Decidable c] {x x' : Checked α} {y y' : Outcome α} (h : Does x y)
    (h' : Does x' y') : Does (if c then x else x') (if c then y else y') := by
  split
  · exact h
  · exact h'

theorem result (x : Except EvalError α) : Does (result x) (.ofResult x) := rfl

end Does

theorem read_eq {xs : List α} {i : Nat} {a : α} (h : xs[i]? = some a) : read xs i = pure a := by
  unfold read
  rw [h]
  rfl

theorem exists_read_one {xs : List α} (hn : xs.length = 1) :
    ∃ a, xs = [a] ∧ read xs 0 = pure a := by
  obtain ⟨a, rfl⟩ := List.length_eq_one_iff.1 hn
  exact ⟨a, rfl, read_eq rfl⟩

theorem exists_read_two {xs : List α} (hn : xs.length = 2) :
    ∃ a b, xs = [a, b] ∧ read xs 0 = pure a ∧ read xs 1 = pure b := by
  obtain ⟨a, b, rfl⟩ := List.length_eq_two.1 hn
  exact ⟨a, b, rfl, read_eq rfl, read_eq rfl⟩

/-- The meaning of a rule, as one that never faults. -/
def lift (m : Meaning) : CheckedMeaning := fun data => OptionT.lift (m data)

/-! ## Operators on demand -/

theorem does_mapM (arguments : List Meaning) (data : Value) :
    Does ((arguments.map lift).mapM fun m => m data) (evalEach data arguments) := by
  induction arguments with
  | nil => exact .pure []
  | cons m rest ih =>
    rw [List.map_cons, List.mapM_cons]
    refine .bind (.lift (m data)) fun v _ => ?_
    exact .bind ih fun vs _ => .pure (v :: vs)

theorem does_choose (arguments : List Meaning) (data : Value) :
    Does (choose (arguments.map lift) data) (Branch.choose arguments data) := by
  induction arguments using Branch.choose.induct with
  | case1 => exact .pure Value.null
  | case2 otherwise => exact .lift (otherwise data)
  | case3 condition branch rest ih =>
    refine .bind (.lift (condition data)) fun v _ => ?_
    exact .ite (.lift (branch data)) ih

theorem does_consult (stop : Bool) (last : Value) {arguments : List Meaning}
    (hn : 1 ≤ arguments.length) (data : Value) :
    Does (consult stop last (arguments.map lift) data) (Branch.consult stop arguments data) := by
  induction arguments using Branch.consult.induct generalizing last with
  | case1 => cases hn
  | case2 argument =>
    -- the last argument is the value, whether it stops the walk or not
    have hlast : consult stop last ([argument].map lift) data = lift argument data >>= pure := by
      refine bind_congr fun v => ?_
      split
      · rfl
      · rfl
    rw [hlast, bind_pure]
    exact .lift (argument data)
  | case3 argument next rest ih =>
    refine .bind (.lift (argument data)) fun v _ => ?_
    exact .ite (.pure v) (ih v (Nat.le_add_left 1 rest.length))

theorem does_branch {op : Operator} (hs : op.strategy = .shortCircuit) {arguments : List Meaning}
    (hn : op.arity.accepts arguments.length = true) (data : Value) :
    Does (branch op (arguments.map lift) data) (op.branch arguments data) := by
  cases op <;> try cases hs
  case choose | ternary => exact does_choose arguments data
  case or => exact does_consult true .null (Arity.accepts_iff.1 hn).1 data
  case and => exact does_consult false .null (Arity.accepts_iff.1 hn).1 data

/-! ## Operators item by item -/

section
variable (body : Meaning)

theorem does_mapItems (items : List Value) :
    Does (items.mapM (lift body)) (Scope.mapItems body items) := by
  induction items with
  | nil => exact .pure []
  | cons item rest ih =>
    rw [List.mapM_cons]
    refine .bind (.lift (body item)) fun v _ => ?_
    exact .bind ih fun vs _ => .pure (v :: vs)

/-- What is kept is added at the end of what has been kept so far. -/
theorem does_filterItems (items kept : List Value) :
    Does (items.foldlM (keep (lift body)) kept)
      ((kept ++ ·) <$> Scope.filterItems body items) := by
  induction items generalizing kept with
  | nil =>
    rw [Scope.filterItems, map_pure, List.append_nil]
    exact .pure kept
  | cons item rest ih =>
    rw [List.foldlM_cons, keep, test, Scope.filterItems, bind_assoc, bind_assoc, map_bind]
    refine .bind (.lift (body item)) fun v _ => ?_
    rw [pure_bind, pure_bind, map_bind]
    cases v.truthy with
    | true =>
      have hkept := ih (kept ++ [item])
      simp only [List.append_assoc, List.singleton_append] at hkept
      exact hkept
    | false => exact ih kept

theorem does_reduceItems (items : List Value) (accumulator : Value) :
    Does (items.foldlM (fun accumulator item => lift body (Scope.reduceScope accumulator item))
      accumulator) (Scope.reduceItems body accumulator items) := by
  induction items generalizing accumulator with
  | nil => exact .pure accumulator
  | cons item rest ih =>
    rw [List.foldlM_cons]
    exact .bind (.lift (body _)) fun next _ => ih next

theorem does_anyItem (items : List Value) :
    Does (items.anyM (test (lift body))) (Scope.anyItem true body items) := by
  induction items with
  | nil => exact .pure false
  | cons item rest ih =>
    rw [List.anyM, test, bind_assoc]
    refine .bind (.lift (body item)) fun v _ => ?_
    rw [pure_bind]
    cases v.truthy with
    | true => exact .pure true
    | false => exact ih

theorem does_allM (items : List Value) :
    Does (items.allM (test (lift body)))
      (do pure !(← Scope.anyItem false body items)) := by
  induction items with
  | nil => exact .pure true
  | cons item rest ih =>
    rw [List.allM, test, Scope.anyItem, bind_assoc, bind_assoc]
    refine .bind (.lift (body item)) fun v _ => ?_
    rw [pure_bind]
    cases v.truthy with
    | true => exact ih
    | false => exact .pure false

theorem does_allItems (items : List Value) :
    Does (all (lift body) items) (Scope.allItems body items) :=
  .ite (.pure false) (does_allM body items)

end

variable {op : Operator}

/-- The collection of a scoped operator is its first argument. -/
theorem does_collection {source : Meaning} {rest : List Meaning} {data : Value}
    {f : List Value → Outcome Value}
    (hf : ∀ items, Does (walk op ((source :: rest).map lift) items data) (f items)) :
    Does (iterate op ((source :: rest).map lift) data) (Scope.collection op source data >>= f) := by
  have hread : read ((source :: rest).map lift) 0 = pure (lift source) := read_eq rfl
  unfold iterate Scope.collection
  rw [hread, pure_bind, bind_assoc]
  refine .bind (.lift (source data)) fun v _ => ?_
  cases v with
  | arr items => exact hf items
  | _ => exact .result (op.refuse (.notAnArray _))

theorem does_iterate (hs : op.strategy = .scoped) {arguments : List Meaning}
    (hn : op.arity.accepts arguments.length = true) (data : Value) :
    Does (iterate op (arguments.map lift) data) (op.iterate arguments data) := by
  cases op <;> try cases hs
  case reduce =>
    obtain ⟨source, body, initial, rfl⟩ := List.length_eq_three.1 (Arity.accepts_exactly.1 hn)
    refine does_collection fun items => ?_
    have hbody : read ([source, body, initial].map lift) 1 = pure (lift body) := read_eq rfl
    have hinitial : read ([source, body, initial].map lift) 2 = pure (lift initial) := read_eq rfl
    unfold walk
    rw [hbody, pure_bind, hinitial, pure_bind]
    exact .bind (.lift (initial data)) fun first _ => does_reduceItems body items first
  all_goals
    obtain ⟨source, body, rfl⟩ := List.length_eq_two.1 (Arity.accepts_exactly.1 hn)
    refine does_collection fun items => ?_
    have hbody : read ([source, body].map lift) 1 = pure (lift body) := read_eq rfl
    unfold walk
    rw [hbody, pure_bind]
  case map => exact .bind (does_mapItems body items) fun vs _ => .pure (Value.arr vs)
  case filter =>
    have hkept := does_filterItems body items []
    simp only [List.nil_append, id_map'] at hkept
    exact .bind hkept fun vs _ => .pure (Value.arr vs)
  case all => exact .bind (does_allItems body items) fun b _ => .pure (Value.bool b)
  case some => exact .bind (does_anyItem body items) fun b _ => .pure (Value.bool b)
  case none => exact .bind (does_anyItem body items) fun b _ => .pure (Value.bool !b)

/-! ## Eager operators -/

section
variable {data : Value} {values : List Value}

theorem does_unary {f : Value → Value} (hn : values.length = 1) :
    Does (unary f values) (.ofResult (Eager.unary op f values)) := by
  obtain ⟨v, rfl, hv⟩ := exists_read_one hn
  unfold unary
  rw [hv, pure_bind]
  exact .pure (f v)

theorem does_binary {f : Value → Value → Value} (hn : values.length = 2) :
    Does (binary f values) (.ofResult (Eager.binary op f values)) := by
  obtain ⟨v, w, rfl, hv, hw⟩ := exists_read_two hn
  unfold binary
  rw [hv, pure_bind, hw, pure_bind]
  exact .pure (f v w)

theorem does_extreme {pick : Double → Double → Double} (hn : 1 ≤ values.length) :
    Does (do
        let best ← extreme pick (← result (Arithmetic.operands op values))
        result (Arithmetic.result op (some best)))
      (.ofResult do
        Arithmetic.result op (Arithmetic.extreme pick (← Arithmetic.operands op values))) := by
  rw [Outcome.ofResult_bind]
  refine .bind (.result _) fun xs hx => ?_
  have hl : xs.length = values.length := length_operands hx
  cases xs with
  | nil =>
    rw [← hl] at hn
    cases hn
  | cons x rest =>
    unfold extreme
    rw [pure_bind]
    exact .result (Arithmetic.result op (some (rest.foldl pick x)))

theorem does_difference (hn : 1 ≤ values.length ∧ values.length ≤ 2) :
    Does (apply .sub data values) (Operator.sub.apply data values) := by
  show Does (_ >>= _) (.ofResult (Arithmetic.operands .sub values >>= _))
  rw [Outcome.ofResult_bind]
  refine .bind (.result _) fun xs hx => ?_
  have hl : xs.length = values.length := length_operands hx
  rw [← hl] at hn
  match xs, hn with
  | [x], _ => exact .result (Arithmetic.result .sub (some x.neg))
  | [x, y], _ => exact .result (Arithmetic.result .sub (x.sub? y))

theorem does_divide {quotient : Double → Double → Option Double} (hn : values.length = 2) :
    Does (divide op quotient values)
      (.ofResult do Arithmetic.divide op quotient (← Arithmetic.operands op values)) := by
  obtain ⟨v, w, rfl, hv, hw⟩ := exists_read_two hn
  unfold divide
  rw [hv, pure_bind, hw]
  simp only [Arithmetic.operands, bind_assoc, pure_bind, Outcome.ofResult_bind]
  refine .bind (.result _) fun x _ => ?_
  refine .bind (.result _) fun y _ => ?_
  show Does _ (.ofResult (if y.units = 0 then .error (.divisionByZero op.name)
    else Arithmetic.result op (quotient x y)))
  split
  · exact .result (.error (.divisionByZero op.name))
  · exact .result (Arithmetic.result op (quotient x y))

theorem does_missingSome (hn : values.length = 2) :
    Does (apply .missingSome data values) (Operator.missingSome.apply data values) := by
  obtain ⟨v, w, rfl, hv, hw⟩ := exists_read_two hn
  unfold apply
  simp only [hv, hw, pure_bind]
  cases v with
  | num need =>
    cases w with
    | arr keys => exact .result (Lookup.missingSome .missingSome data [.num need, .arr keys])
    | _ => exact .result (Operator.missingSome.refuse .keysNotAnArray)
  | _ => exact .result (Operator.missingSome.refuse (.minimumNotANumber _))

theorem does_search (hn : values.length = 2) :
    Does (apply .elem data values) (Operator.elem.apply data values) := by
  obtain ⟨v, w, rfl, hv, hw⟩ := exists_read_two hn
  unfold apply
  simp only [hv, hw, pure_bind]
  cases w with
  | arr items => exact .pure _
  | str s => exact .pure _
  | _ => exact .result (Operator.elem.refuse (.notSearchable _))

theorem does_substr (hn : 2 ≤ values.length ∧ values.length ≤ 3) :
    Does (apply .substr data values) (Operator.substr.apply data values) := by
  match values, hn with
  | [v, start], _ =>
    have hv : read [v, start] 0 = pure v := read_eq rfl
    have hstart : read [v, start] 1 = pure start := read_eq rfl
    unfold apply
    simp only [hv, hstart, pure_bind]
    show Does _ (.ofResult (Text.index .substr start >>= _))
    rw [Outcome.ofResult_bind]
    exact .bind (.result _) fun first _ => .pure _
  | [v, start, length], _ =>
    have hv : read [v, start, length] 0 = pure v := read_eq rfl
    have hstart : read [v, start, length] 1 = pure start := read_eq rfl
    unfold apply
    simp only [hv, hstart, pure_bind]
    show Does _ (.ofResult (Text.index .substr start >>= _))
    rw [Outcome.ofResult_bind]
    refine .bind (.result _) fun first _ => ?_
    show Does (result (Option.some <$> Text.index .substr length) >>= _)
      (.ofResult (Text.index .substr length >>= _))
    cases Text.index .substr length with
    | ok n => exact .pure _
    | error e => exact .result (.error e)

theorem does_log (hn : values.length = 1) :
    Does (apply .log data values) (Operator.log.apply data values) := by
  obtain ⟨v, rfl, hv⟩ := exists_read_one hn
  unfold apply
  simp only [hv, pure_bind]
  exact .bind (.lift (Outcome.emit v)) fun _ _ => .pure v

/-- With a number of operands that it accepts, no eager operator faults. -/
theorem does_apply (hs : op.strategy = .eager) (hn : op.arity.accepts values.length = true) :
    Does (apply op data values) (op.apply data values) := by
  cases op <;> try cases hs
  case var | missing | gt | ge | lt | le | add | mul | merge | cat => exact .result _
  case missingSome => exact does_missingSome (Arity.accepts_exactly.1 hn)
  case looseEq | looseNe | strictEq | strictNe => exact does_binary (Arity.accepts_exactly.1 hn)
  case not | truth => exact does_unary (Arity.accepts_exactly.1 hn)
  case max | min => exact does_extreme (Arity.accepts_iff.1 hn).1
  case sub => exact does_difference (Arity.accepts_between.1 hn)
  case div | mod => exact does_divide (Arity.accepts_exactly.1 hn)
  case elem => exact does_search (Arity.accepts_exactly.1 hn)
  case substr => exact does_substr (Arity.accepts_between.1 hn)
  case log => exact does_log (Arity.accepts_exactly.1 hn)

end

/-! ## All rules -/

variable {r : Registry}

theorem does_run (op : Operator) (arguments : List Meaning) (data : Value) :
    Does (run op (arguments.map lift) data) (op.run arguments data) := by
  unfold run Operator.run
  rw [List.length_map]
  split
  · next hn =>
    match hs : op.strategy with
    | .eager =>
      refine .bind (does_mapM arguments data) fun values hv => ?_
      have hl : arguments.length = values.length := (forall₂_of_evalEach hv).length_eq
      exact does_apply hs (hl ▸ hn)
    | .shortCircuit => exact does_branch hs hn data
    | .scoped => exact does_iterate hs hn data
  · exact .result (.error (.arity op.name op.arity arguments.length))

theorem does_runCustom (f : CustomOperator) (arguments : List Meaning) (data : Value) :
    Does (runCustom f (arguments.map lift) data) (f.run arguments data) := by
  unfold runCustom CustomOperator.run
  rw [List.length_map]
  split
  · exact .bind (does_mapM arguments data) fun values _ => .result (f.call values)
  · exact .result (.error (.arity f.name f.arity arguments.length))

theorem does_dispatch (name : String) (arguments : List Meaning) (data : Value) :
    Does (dispatch r name (arguments.map lift) data)
      (RuleLogic.dispatch r name arguments data) := by
  unfold dispatch RuleLogic.dispatch
  cases Operator.ofName? name with
  | some op => exact does_run op arguments data
  | none =>
    cases r.find? name with
    | some f => exact does_runCustom f arguments data
    | none => exact .result (.error (.unknownOperator name))

theorem evalAll_eq_map (rules : List Value) : evalAll r rules = rules.map (eval r) := by
  induction rules with
  | nil => simp [evalAll]
  | cons rule rest ih => simp [evalAll, ih]

theorem eval_rule (name : String) (v : Value) (rest : List (String × Value)) :
    eval r (.obj ((name, v) :: rest)) = dispatch r name ((argumentsOf v).map (eval r)) := by
  cases v <;> simp [eval, argumentsOf, evalAll_eq_map]

/-- No rule faults on any data. -/
theorem does_eval (r : Registry) (rule data : Value) :
    Does (eval r rule data) (RuleLogic.eval r rule data) := by
  induction rule using Value.rule_induction generalizing data with
  | h rule ih =>
    have hparts : rule.parts.map (eval r) = (rule.parts.map (RuleLogic.eval r)).map lift := by
      rw [List.map_map]
      exact List.map_congr_left fun c hc => funext (ih c hc)
    cases rule with
    | arr items =>
      simp only [eval, RuleLogic.eval, evalAll_eq_map, RuleLogic.evalAll_eq_map]
      have hitems : items.map (eval r) = (items.map (RuleLogic.eval r)).map lift := hparts
      rw [hitems]
      exact .bind (does_mapM _ data) fun vs _ => .pure (Value.arr vs)
    | obj entries =>
      cases entries with
      | nil =>
        simp only [eval, RuleLogic.eval]
        exact .pure (Value.obj [])
      | cons entry rest =>
        obtain ⟨name, v⟩ := entry
        have harguments : (argumentsOf v).map (eval r) =
            ((argumentsOf v).map (RuleLogic.eval r)).map lift := hparts
        rw [eval_rule, RuleLogic.eval_rule, harguments]
        exact does_dispatch name _ data
    | _ =>
      simp only [eval, RuleLogic.eval]
      exact .pure _

end Checked

/-! ## The engine's own errors -/

/-- An error that stands for a case left unhandled comes from a custom operator. -/
theorem exists_custom_of_isDefensive {r : Registry} {rule data : Value} {e : EvalError}
    (h : (eval r rule data).result = .error e) (hd : e.isDefensive = true) :
    ∃ name f values, r.find? name = some f ∧ f.call values = .error e := by
  obtain ⟨_, name, _, _, _, he⟩ := eval_raises h
  cases he with
  | unknown | count | customCount | notAnArray => cases hd
  | apply hb hs hn hv he =>
    rw [(apply_isOf_of_evalEach hs hn hv he).not_isDefensive] at hd
    cases hd
  | @call f values _ _ hc he => exact ⟨name, f, values, hc, he⟩

/-- **Evaluation never faults.**  For every registry, rule and data no index is past the end, no
operator reaches a case that is not meant for it and no extreme is taken of no numbers, and with
these checks evaluation does the same.  So the errors that stand for such cases come from custom
operators only. -/
theorem checked_eval_never_faults (r : Registry) (rule data : Value) :
    OptionT.run (Checked.eval r rule data) = some <$> eval r rule data ∧
      ∀ e, (eval r rule data).result = .error e → e.isDefensive = true →
        ∃ name f values, r.find? name = some f ∧ f.call values = .error e := by
  refine ⟨?_, fun e h hd => exists_custom_of_isDefensive h hd⟩
  rw [Checked.does_eval r rule data, OptionT.run_lift]
  exact bind_pure_comp _ _

theorem checked_eval_never_faults_custom :
    let e := EvalError.invalidArgument "odd" (.wrongStrategy .eager)
    let r := Registry.ofList [⟨"odd", 0, 0, fun _ => .error e⟩]
    (eval r (.obj [("odd", .arr [])]) .null).result = .error e ∧ e.isDefensive = true ∧
      ∃ name f values, r.find? name = some f ∧ f.call values = .error e := by
  intro e r
  have h : (eval r (.obj [("odd", .arr [])]) .null).result = .error e := rfl
  exact ⟨h, rfl, (checked_eval_never_faults r _ _).2 e h rfl⟩

end RuleLogic
