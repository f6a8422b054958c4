import RuleLogic.Proofs.Rule

/-!
# Relations that evaluation respects

A congruence relates outcomes so that doing one thing after another keeps them related.  Every
operator respects it: if its arguments are related, so are its outcomes, provided that the relation
accepts the ways in which the operator fails by itself (`Raises`).  Only the body of a scoped
operator has to be related on all data; every other argument is evaluated with the data of the
operator.

    R.Arguments name data data' arguments arguments' →
      R.Rel (dispatch r name arguments data) (dispatch r name arguments' data')
-/

namespace RuleLogic

/-- A relation between outcomes that holds of equal successes and that sequencing respects: what
comes second has to be related only for a value with which both outcomes succeed. -/
structure Congruence where
  Rel : {α : Type} → Outcome α → Outcome α → Prop
  pure : ∀ {α : Type} (a : α), Rel (pure a) (pure a)
  bind : ∀ {α β : Type} {x y : Outcome α} {f g : α → Outcome β}, Rel x y →
    (∀ a, x.result = .ok a → y.result = .ok a → Rel (f a) (g a)) → Rel (x >>= f) (y >>= g)

namespace Congruence

/-- Equal results, whatever is logged. -/
def sameResult : Congruence where
  Rel x y := x.result = y.result
  pure _ := rfl
  bind := by
    intro α β x y f g hxy hfg
    cases h : x.result with
    | error e => rw [Outcome.bind_error h, Outcome.bind_error (hxy ▸ h)]
    | ok a =>
      rw [Outcome.bind_ok h, Outcome.bind_ok (hxy ▸ h)]
      exact hfg a h (hxy ▸ h)

/-- Equal results and equal logs. -/
def same : Congruence where
  Rel x y := x = y
  pure _ := rfl
  bind := by
    rintro α β x _ f g rfl hfg
    cases h : x.result with
    | error e => rw [Outcome.bind_error h, Outcome.bind_error h]
    | ok a => rw [Outcome.bind_ok h, Outcome.bind_ok h, hfg a h h]

/-- Equal outcomes that fail with an error of `E` if they fail. -/
def failsIn (E : EvalError → Prop) : Congruence where
  Rel x y := x = y ∧ ∀ e, x.result = .error e → E e
  pure _ := ⟨rfl, nofun⟩
  bind := by
    rintro α β x _ f g ⟨rfl, hx⟩ hfg
    refine ⟨same.bind rfl fun a h h' => (hfg a h h').1, fun e he => ?_⟩
    rcases Outcome.bind_result_error_iff.1 he with h | ⟨a, ha, h⟩
    · exact hx e h
    · exact (hfg a ha ha).2 e h

end Congruence

/-- The ways in which an application fails by itself, and not because an argument fails. -/
inductive Raises (r : Registry) (name : String) (arguments : List Meaning) : EvalError → Prop
  | unknown (hb : Operator.ofName? name = none) (hc : r.find? name = none) :
    Raises r name arguments (.unknownOperator name)
  | count {op : Operator} (hb : Operator.ofName? name = some op)
    (hn : op.arity.accepts arguments.length = false) :
    Raises r name arguments (.arity op.name op.arity arguments.length)
  | notAnArray {op : Operator} {kind : Kind} (hb : Operator.ofName? name = some op)
    (hs : op.strategy = .scoped) :
    Raises r name arguments (.invalidArgument op.name (.notAnArray kind))
  | apply {op : Operator} {data : Value} {values : List Value} {e : EvalError}
    (hb : Operator.ofName? name = some op) (hs : op.strategy = .eager)
    (hn : op.arity.accepts arguments.length = true)
    (hv : (evalEach data arguments).result = .ok values)
    (he : (op.apply data values).result = .error e) : Raises r name arguments e
  | customCount {f : CustomOperator} (hb : Operator.ofName? name = none)
    (hc : r.find? name = some f) (hn : f.arity.accepts arguments.length = false) :
    Raises r name arguments (.arity f.name f.arity arguments.length)
  | call {f : CustomOperator} {values : List Value} {e : EvalError}
    (hb : Operator.ofName? name = none) (hc : r.find? name = some f)
    (he : f.call values = .error e) : Raises r name arguments e

/-- Does the name stand for a built-in or a custom operator? -/
def Registry.knows (r : Registry) (name : String) : Bool :=
  (Operator.ofName? name).isSome || (r.find? name).isSome

namespace Congruence

variable (R : Congruence)

theorem ite {α : Type} {c : Prop} [Decidable c] {x y x' y' : Outcome α} (hx : R.Rel x x')
    (hy : R.Rel y y') : R.Rel (if c then x else y) (if c then x' else y') := by
  split
  · exact hx
  · exact hy

/-! ## Arguments one after the other -/

section
variable {arguments arguments' : List Meaning} {data data' : Value}

theorem evalEach (h : List.Forall₂ (fun m m' => R.Rel (m data) (m' data')) arguments arguments') :
    R.Rel (evalEach data arguments) (evalEach data' arguments') := by
  induction h with
  | nil => exact R.pure []
  | cons hm _ ih =>
    refine R.bind hm fun v _ _ => ?_
    exact R.bind ih fun vs _ _ => R.pure (v :: vs)

theorem choose (h : List.Forall₂ (fun m m' => R.Rel (m data) (m' data')) arguments arguments') :
    R.Rel (Branch.choose arguments data) (Branch.choose arguments' data') := by
  induction arguments using Branch.choose.induct generalizing arguments' with
  | case1 =>
    cases h
    exact R.pure Value.null
  | case2 otherwise =>
    obtain _ | ⟨ho, hn⟩ := h
    cases hn
    exact ho
  | case3 condition branch rest ih =>
    obtain _ | ⟨hc, h⟩ := h
    obtain _ | ⟨hb, h⟩ := h
    exact R.bind hc fun v _ _ => R.ite hb (ih h)

theorem consult (stop : Bool)
    (h : List.Forall₂ (fun m m' => R.Rel (m data) (m' data')) arguments arguments') :
    R.Rel (Branch.consult stop arguments data) (Branch.consult stop arguments' data') := by
  induction arguments using Branch.consult.induct generalizing arguments' with
  | case1 =>
    cases h
    exact R.pure Value.null
  | case2 last =>
    obtain _ | ⟨hl, hn⟩ := h
    cases hn
    exact hl
  | case3 argument next rest ih =>
    obtain _ | ⟨ha, h⟩ := h
    have hrest := ih h
    obtain _ | ⟨hn, h⟩ := h
    exact R.bind ha fun v _ _ => R.ite (R.pure v) hrest

theorem branch {op : Operator} (hs : op.strategy = .shortCircuit)
    (h : List.Forall₂ (fun m m' => R.Rel (m data) (m' data')) arguments arguments') :
    R.Rel (op.branch arguments data) (op.branch arguments' data') := by
  cases op <;> try cases hs
  case choose | ternary => exact R.choose h
  case or => exact R.consult true h
  case and => exact R.consult false h

end

/-! ## Bodies item by item -/

section
variable {body body' : Meaning} (hb : ∀ data, R.Rel (body data) (body' data))

include hb

theorem mapItems (items : List Value) :
    R.Rel (Scope.mapItems body items) (Scope.mapItems body' items) := by
  induction items with
  | nil => exact R.pure []
  | cons item rest ih =>
    refine R.bind (hb item) fun v _ _ => ?_
    exact R.bind ih fun vs _ _ => R.pure (v :: vs)

theorem filterItems (items : List Value) :
    R.Rel (Scope.filterItems body items) (Scope.filterItems body' items) := by
  induction items with
  | nil => exact R.pure []
  | cons item rest ih =>
    refine R.bind (hb item) fun v _ _ => ?_
    exact R.bind ih fun kept _ _ => R.pure _

theorem reduceItems (items : List Value) (accumulator : Value) :
    R.Rel (Scope.reduceItems body accumulator items)
      (Scope.reduceItems body' accumulator items) := by
  induction items generalizing accumulator with
  | nil => exact R.pure accumulator
  | cons item rest ih => exact R.bind (hb _) fun next _ _ => ih next

theorem anyItem (wanted : Bool) (items : List Value) :
    R.Rel (Scope.anyItem wanted body items) (Scope.anyItem wanted body' items) := by
  induction items with
  | nil => exact R.pure false
  | cons item rest ih => exact R.bind (hb item) fun v _ _ => R.ite (R.pure true) ih

theorem allItems (items : List Value) :
    R.Rel (Scope.allItems body items) (Scope.allItems body' items) :=
  R.ite (R.pure false) (R.bind (R.anyItem hb false items) fun failed _ _ => R.pure (!failed))

end

theorem collection {op : Operator} {source source' : Meaning} {data data' : Value}
    (hk : ∀ kind, R.Rel (.ofResult (op.refuse (.notAnArray kind)) : Outcome (List Value))
      (.ofResult (op.refuse (.notAnArray kind))))
    (hs : R.Rel (source data) (source' data')) :
    R.Rel (Scope.collection op source data) (Scope.collection op source' data') := by
  refine R.bind hs fun v _ _ => ?_
  cases v with
  | arr items => exact R.pure items
  | _ => exact hk _

/-- The source and what follows the body are related on the data, the body on all items. -/
theorem iterate {op : Operator} {source source' body body' : Meaning}
    {rest rest' : List Meaning} {data data' : Value} (hs : op.strategy = .scoped)
    (hn : op.arity.accepts (rest.length + 2) = true)
    (hk : ∀ kind, R.Rel (.ofResult (op.refuse (.notAnArray kind)) : Outcome (List Value))
      (.ofResult (op.refuse (.notAnArray kind))))
    (hsource : R.Rel (source data) (source' data'))
    (hbody : ∀ data, R.Rel (body data) (body' data))
    (hrest : List.Forall₂ (fun m m' => R.Rel (m data) (m' data')) rest rest') :
    R.Rel (op.iterate (source :: body :: rest) data)
      (op.iterate (source' :: body' :: rest') data') := by
  have hitems := R.collection hk hsource
  cases op <;> try cases hs
  case reduce =>
    have hl : rest.length + 2 = 3 := Arity.accepts_exactly.1 hn
    obtain ⟨initial, rfl⟩ := List.length_eq_one_iff.1 (Nat.add_right_cancel hl)
    obtain _ | ⟨hi, hrest⟩ := hrest
    cases hrest
    refine R.bind hitems fun items _ _ => ?_
    exact R.bind hi fun first _ _ => R.reduceItems hbody items first
  all_goals
    have hl : rest.length + 2 = 2 := Arity.accepts_exactly.1 hn
    obtain rfl := List.length_eq_zero_iff.1 (Nat.add_right_cancel (m := 2) (k := 0) hl)
    cases hrest
    refine R.bind hitems fun items _ _ => ?_
  case map => exact R.bind (R.mapItems hbody items) fun vs _ _ => R.pure (Value.arr vs)
  case filter => exact R.bind (R.filterItems hbody items) fun vs _ _ => R.pure (Value.arr vs)
  case all => exact R.bind (R.allItems hbody items) fun b _ _ => R.pure (Value.bool b)
  case some => exact R.bind (R.anyItem hbody true items) fun b _ _ => R.pure (Value.bool b)
  case none => exact R.bind (R.anyItem hbody true items) fun b _ _ => R.pure (Value.bool !b)

/-! ## Applications -/

/-- Arguments that are related in the way in which the operator of a name uses them: a body on all
data, every other argument on the data to which the operator is applied. -/
structure Arguments (name : String) (data data' : Value) (arguments arguments' : List Meaning) :
    Prop where
  outer : List.Forall₂ (fun m m' => R.Rel (m data) (m' data')) (outerArguments name arguments)
    (outerArguments name arguments')
  body : List.Forall₂ (fun m m' => ∀ item, R.Rel (m item) (m' item)) (bodies name arguments)
    (bodies name arguments')

namespace Arguments

variable {R} {name : String} {arguments arguments' : List Meaning} {data data' : Value}

theorem of_forall
    (h : List.Forall₂ (fun m m' => ∀ data, R.Rel (m data) (m' data)) arguments arguments') :
    R.Arguments name data data arguments arguments' := by
  have hdata := h.imp fun m m' hm => hm data
  constructor
  · unfold outerArguments
    split
    · exact List.rel_append (List.forall₂_take 1 hdata) (List.forall₂_drop 2 hdata)
    · exact hdata
  · unfold bodies
    split
    · exact List.forall₂_take 1 (List.forall₂_drop 1 h)
    · exact .nil

theorem length_eq (h : R.Arguments name data data' arguments arguments') :
    arguments.length = arguments'.length := by
  rw [← length_outerArguments_add_bodies name arguments,
    ← length_outerArguments_add_bodies name arguments', h.outer.length_eq, h.body.length_eq]

/-- Without a body all arguments are evaluated with the data of the operator. -/
theorem of_not_hasBody (hb : hasBody name = false)
    (h : List.Forall₂ (fun m m' => R.Rel (m data) (m' data')) arguments arguments') :
    R.Arguments name data data' arguments arguments' := by
  constructor
  · rwa [outerArguments_eq_self hb, outerArguments_eq_self hb]
  · rw [bodies_eq_nil hb, bodies_eq_nil hb]
    exact .nil

theorem forall₂ (h : R.Arguments name data data' arguments arguments')
    (hb : hasBody name = false) :
    List.Forall₂ (fun m m' => R.Rel (m data) (m' data')) arguments arguments' := by
  have houter := h.outer
  rwa [outerArguments_eq_self hb, outerArguments_eq_self hb] at houter

end Arguments

section
variable {r : Registry} {name : String} {arguments arguments' : List Meaning} {data data' : Value}
  (ho : ∀ {α : Type} (x : Outcome α), (∀ e, x.result = .error e → Raises r name arguments e) →
    R.Rel x x)

include ho

theorem iterate_of_arguments {op : Operator} (hb : Operator.ofName? name = some op)
    (hs : op.strategy = .scoped) (hn : op.arity.accepts arguments.length = true)
    (h : R.Arguments name data data' arguments arguments') :
    R.Rel (op.iterate arguments data) (op.iterate arguments' data') := by
  match arguments, arguments', Operator.two_le_of_scoped hs hn, h.length_eq with
  | source :: body :: rest, source' :: body' :: rest', _, _ =>
    have hbody := hasBody_eq_true hb hs
    have houter := h.outer
    have hbodies := h.body
    rw [outerArguments_cons_cons hbody, outerArguments_cons_cons hbody] at houter
    rw [bodies_cons_cons hbody, bodies_cons_cons hbody] at hbodies
    obtain _ | ⟨hsource, hrest⟩ := houter
    obtain _ | ⟨hbody, _⟩ := hbodies
    refine R.iterate hs hn (fun kind => ho _ fun e he => ?_) hsource hbody hrest
    cases he
    exact .notAnArray hb hs

variable (ha : ∀ op values, Operator.ofName? name = some op → op.strategy = .eager →
    op.arity.accepts arguments.length = true →
    (RuleLogic.evalEach data arguments).result = .ok values →
    R.Rel (op.apply data values) (op.apply data' values))
  (h : r.knows name = true → R.Arguments name data data' arguments arguments')

include ha h

theorem run_of_arguments {op : Operator} (hb : Operator.ofName? name = some op) :
    R.Rel (op.run arguments data) (op.run arguments' data') := by
  have hall := h (by simp [Registry.knows, hb])
  cases hn : op.arity.accepts arguments.length with
  | false =>
    simp only [Operator.run, ← hall.length_eq, hn, Bool.false_eq_true, if_false]
    refine ho _ fun e he => ?_
    cases he
    exact .count hb hn
  | true =>
    simp only [Operator.run, ← hall.length_eq, hn, if_true]
    cases hs : op.strategy with
    | eager =>
      have hdata := hall.forall₂ (hasBody_eq_false hb (by rw [hs]; decide))
      exact R.bind (R.evalEach hdata) fun values hv _ => ha op values hb hs hn hv
    | shortCircuit =>
      exact R.branch hs (hall.forall₂ (hasBody_eq_false hb (by rw [hs]; decide)))
    | «scoped» => exact R.iterate_of_arguments ho hb hs hn hall

omit ha in
theorem runCustom {f : CustomOperator} (hb : Operator.ofName? name = none)
    (hc : r.find? name = some f) : R.Rel (f.run arguments data) (f.run arguments' data') := by
  have hall := h (by simp [Registry.knows, hc])
  cases hn : f.arity.accepts arguments.length with
  | false =>
    simp only [CustomOperator.run, ← hall.length_eq, hn, Bool.false_eq_true, if_false]
    refine ho _ fun e he => ?_
    cases he
    exact .customCount hb hc hn
  | true =>
    simp only [CustomOperator.run, ← hall.length_eq, hn, if_true]
    have hdata := hall.forall₂ (by simp [hasBody, hb])
    exact R.bind (R.evalEach hdata) fun values _ _ => ho _ fun e he => .call hb hc he

/-- An application on two data: the arguments are related as the operator uses them, and an eager
operator gives related outcomes for the same operands. -/
theorem dispatch_of_arguments :
    R.Rel (RuleLogic.dispatch r name arguments data)
      (RuleLogic.dispatch r name arguments' data') := by
  cases hb : Operator.ofName? name with
  | some op =>
    simp only [RuleLogic.dispatch, hb]
    exact R.run_of_arguments ho ha h hb
  | none =>
    cases hc : r.find? name with
    | some f =>
      simp only [RuleLogic.dispatch, hb, hc]
      exact R.runCustom ho h hb hc
    | none =>
      simp only [RuleLogic.dispatch, hb, hc]
      refine ho _ fun e he => ?_
      cases he
      exact .unknown hb hc

omit ha h in
/-- An application on one data, with arguments that are related on all data. -/
theorem dispatch (h : r.knows name = true →
      List.Forall₂ (fun m m' => ∀ data, R.Rel (m data) (m' data)) arguments arguments')
    (data : Value) :
    R.Rel (dispatch r name arguments data) (dispatch r name arguments' data) :=
  R.dispatch_of_arguments ho (fun _ _ hb hs hn hv => ho _ fun _ he => .apply hb hs hn hv he)
    fun hk => .of_forall (h hk)

end

end Congruence

end RuleLogic
