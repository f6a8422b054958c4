import RuleLogic.Validation
import Mathlib.Data.List.Forall2

/-!
# The parts of a rule

Evaluation and validation walk a rule in the same way: an array goes on to its items, an object to
the arguments under its first key.  These are the parts of the rule.  A node is the rule itself or
a node of a part, and its place is the list of steps that lead to it.  A part is evaluated with the
data of the rule unless it is the body of a scoped operator, which is evaluated with items.

    eval r v = compose r v (v.parts.map (eval r))        (eval_eq_compose)
    v.steps.map (·.2) = v.parts                          (map_steps)
    v.operators = v.ownOperators ++ v.parts.flatMap operators        (Value.operators_eq)
-/

namespace RuleLogic

theorem argumentsOf_eq_self {v : Value} (h : v.kind ≠ .array) : argumentsOf v = [v] := by
  cases v with
  | arr items => exact absurd rfl h
  | _ => rfl

theorem sizeOf_of_mem_argumentsOf {v c : Value} (h : c ∈ argumentsOf v) : sizeOf c ≤ sizeOf v := by
  by_cases hk : v.kind = .array
  · cases v with
    | arr items =>
      have hc : c ∈ items := h
      have := List.sizeOf_lt_of_mem hc
      simp only [Value.arr.sizeOf_spec]
      omega
    | _ => cases hk
  · rw [argumentsOf_eq_self hk, List.mem_singleton] at h
    exact Nat.le_of_eq (congrArg sizeOf h)

namespace Value

/-- The rules that a rule is directly built from. -/
def parts : Value → List Value
  | .arr items => items
  | .obj ((_, v) :: _) => argumentsOf v
  | _ => []

theorem sizeOf_of_mem_parts {v c : Value} (h : c ∈ v.parts) : sizeOf c < sizeOf v := by
  cases v with
  | arr items =>
    have hc : c ∈ items := h
    have := List.sizeOf_lt_of_mem hc
    simp only [Value.arr.sizeOf_spec]
    omega
  | obj entries =>
    cases entries with
    | nil => cases h
    | cons entry rest =>
      have hc : c ∈ argumentsOf entry.2 := h
      have := sizeOf_of_mem_argumentsOf hc
      have he : sizeOf entry.2 < sizeOf entry := by
        obtain ⟨name, v⟩ := entry
        show sizeOf v < sizeOf (name, v)
        rw [Prod.mk.sizeOf_spec]
        omega
      simp only [Value.obj.sizeOf_spec, List.cons.sizeOf_spec]
      omega
  | _ => cases h

/-- What holds of a rule whenever it holds of its parts holds of every rule. -/
theorem rule_induction {P : Value → Prop} (h : ∀ v : Value, (∀ c ∈ v.parts, P c) → P v)
    (v : Value) : P v :=
  h v fun c _ => rule_induction h c
termination_by sizeOf v
decreasing_by exact sizeOf_of_mem_parts (by assumption)

end Value

/-! ## Evaluation by parts -/

/-- What a rule means, from what its parts mean. -/
def compose (r : Registry) : Value → List Meaning → Meaning
  | .arr _, parts => fun data => do pure (.arr (← evalEach data parts))
  | .obj ((name, _) :: _), parts => dispatch r name parts
  | literal, _ => fun _ => pure literal

theorem eval_eq_compose (r : Registry) (v : Value) :
    eval r v = compose r v (v.parts.map (eval r)) := by
  match v with
  | .null | .bool _ | .num _ | .str _ | .obj [] => simp only [eval, compose]
  | .arr items => simp only [eval, compose, Value.parts, evalAll_eq_map]
  | .obj ((name, v) :: rest) => exact eval_rule r name v rest

theorem eval_arr (r : Registry) (items : List Value) (data : Value) :
    eval r (.arr items) data =
      (do pure (.arr (← evalEach data (items.map (eval r)))) : Outcome Value) := by
  rw [eval_eq_compose]
  rfl

/-- An eager operator with an accepted number of arguments is applied to their values. -/
theorem eval_eager {r : Registry} {op : Operator} {v : Value} {rest : List (String × Value)}
    (hs : op.strategy = .eager) (hn : op.arity.accepts (argumentsOf v).length = true)
    (data : Value) : eval r (.obj ((op.name, v) :: rest)) data =
      evalEach data ((argumentsOf v).map (eval r)) >>= op.apply data := by
  rw [← List.length_map (eval r)] at hn
  rw [eval_rule, dispatch_name, Operator.run, if_pos hn, hs]

/-- An eager operator with one argument is applied to its value. -/
theorem eval_unary {r : Registry} {rule data : Value} (op : Operator) (hs : op.strategy = .eager)
    (hn : op.arity.accepts 1 = true) : eval r (.obj [(op.name, .arr [rule])]) data =
      eval r rule data >>= fun v => op.apply data [v] := by
  have heager : eval r (.obj [(op.name, .arr [rule])]) data =
      evalEach data [eval r rule] >>= op.apply data := eval_eager (v := .arr [rule]) hs hn data
  rw [heager, evalEach]
  simp only [evalEach, bind_assoc, pure_bind]

/-- All arguments succeed, each with its value. -/
theorem forall₂_of_evalEach {data : Value} {arguments : List Meaning} {values : List Value}
    (h : (evalEach data arguments).result = .ok values) :
    List.Forall₂ (fun m v => (m data).result = .ok v) arguments values := by
  induction arguments generalizing values with
  | nil =>
    cases h
    exact .nil
  | cons m rest ih =>
    obtain ⟨v, hv, h⟩ := Outcome.bind_result_ok_iff.1 h
    obtain ⟨vs, hvs, h⟩ := Outcome.bind_result_ok_iff.1 h
    cases h
    exact .cons hv (ih hvs)

theorem exists_ok_of_evalEach {data : Value} {arguments : List Meaning} {values : List Value}
    (h : (evalEach data arguments).result = .ok values) {m : Meaning} (hm : m ∈ arguments) :
    ∃ v, (m data).result = .ok v := by
  have hall := forall₂_of_evalEach h
  clear h
  induction hall with
  | nil => cases hm
  | @cons _ v _ _ hv _ ih =>
    rcases List.mem_cons.1 hm with rfl | hm
    · exact ⟨v, hv⟩
    · exact ih hm

/-! ## Places -/

/-- The parts, each with the step that leads to it. -/
def Value.steps : Value → List (Step × Value)
  | .arr items => items.zipIdx.map fun (c, i) => (.item i, c)
  | .obj ((name, .arr items) :: _) => items.zipIdx.map fun (c, i) => (.argument name i, c)
  | .obj ((name, v) :: _) => [(.bare name, v)]
  | _ => []

/-- Does a walk go on below a rule?  Always below an array, and below an object whose operator is
admitted. -/
def Value.opens (admits : String → Bool) : Value → Bool
  | .obj ((name, _) :: _) => admits name
  | _ => true

/-- The node of a rule at a place, where all operators on the way are admitted. -/
inductive NodeAt (admits : String → Bool) : Value → Place → Value → Prop
  | here {v : Value} : NodeAt admits v [] v
  | down {v c node : Value} {s : Step} {p : Place} (ho : v.opens admits = true)
    (hs : (s, c) ∈ v.steps) (hn : NodeAt admits c p node) : NodeAt admits v (s :: p) node

/-- The rule positions of a rule. -/
abbrev PositionAt : Value → Place → Value → Prop := NodeAt fun _ => true

theorem map_zipIdx_steps (step : Nat → Step) (items : List Value) :
    (items.zipIdx.map fun (c, i) => (step i, c)).map (·.2) = items := by
  rw [List.map_map]
  exact List.zipIdx_map_fst 0 items

theorem map_steps (v : Value) : v.steps.map (·.2) = v.parts := by
  match v with
  | .null | .bool _ | .num _ | .str _ | .obj [] => rfl
  | .arr items => exact map_zipIdx_steps _ items
  | .obj ((name, .arr items) :: rest) => exact map_zipIdx_steps _ items
  | .obj ((_, .null) :: _) | .obj ((_, .bool _) :: _) | .obj ((_, .num _) :: _)
  | .obj ((_, .str _) :: _) | .obj ((_, .obj _) :: _) => rfl

theorem steps_of_not_array {name : String} {v : Value} {rest : List (String × Value)}
    (h : v.kind ≠ .array) : (Value.obj ((name, v) :: rest)).steps = [(.bare name, v)] := by
  cases v with
  | arr items => exact absurd rfl h
  | _ => rfl

theorem mem_parts_of_mem_steps {v c : Value} {s : Step} (h : (s, c) ∈ v.steps) : c ∈ v.parts :=
  map_steps v ▸ List.mem_map_of_mem h

theorem NodeAt.of_mem_parts {admits : String → Bool} {v c : Value} (ho : v.opens admits = true)
    (hc : c ∈ v.parts) {p : Place} {node : Value} (hn : NodeAt admits c p node) :
    ∃ s, NodeAt admits v (s :: p) node := by
  rw [← map_steps] at hc
  obtain ⟨⟨s, _⟩, hs, rfl⟩ := List.mem_map.1 hc
  exact ⟨s, .down ho hs hn⟩

/-- Fewer admitted operators leave fewer nodes. -/
theorem NodeAt.mono {admits admits' : String → Bool} (h : ∀ name, admits name → admits' name)
    {v node : Value} {p : Place} (hn : NodeAt admits v p node) : NodeAt admits' v p node := by
  induction hn with
  | here => exact .here
  | @down v c node s p ho hs _ ih =>
    refine .down ?_ hs ih
    match v, ho with
    | .obj ((name, _) :: _), ho => exact h name ho
    | .obj [], _ | .arr _, _ | .null, _ | .bool _, _ | .num _, _ | .str _, _ => rfl

theorem NodeAt.position {admits : String → Bool} {v node : Value} {p : Place}
    (hn : NodeAt admits v p node) : PositionAt v p node :=
  hn.mono fun _ _ => rfl

theorem Value.opens_all (v : Value) : v.opens (fun _ => true) = true := by
  unfold Value.opens
  split <;> rfl

/-! ## Walks that collect -/

/-- What a walk over all rule positions collects is what the single nodes give. -/
theorem mem_walk_iff {α : Type} {walk own : Value → List α}
    (hwalk : ∀ v, walk v = own v ++ v.parts.flatMap walk) {a : α} {rule : Value} :
    a ∈ walk rule ↔ ∃ place node, PositionAt rule place node ∧ a ∈ own node := by
  constructor
  · intro h
    induction rule using Value.rule_induction with
    | h rule ih =>
      rw [hwalk, List.mem_append, List.mem_flatMap] at h
      rcases h with h | ⟨c, hc, h⟩
      · exact ⟨[], rule, .here, h⟩
      · obtain ⟨place, node, hn, ha⟩ := ih c hc h
        obtain ⟨s, hs⟩ := NodeAt.of_mem_parts rule.opens_all hc hn
        exact ⟨s :: place, node, hs, ha⟩
  · rintro ⟨place, node, hn, ha⟩
    induction hn with
    | here =>
      rw [hwalk]
      exact List.mem_append_left _ ha
    | down _ hs _ ih =>
      rw [hwalk]
      exact List.mem_append_right _ (List.mem_flatMap.2 ⟨_, mem_parts_of_mem_steps hs, ih ha⟩)

namespace Value

mutual

/-- The names of the operators that a rule applies, at all its rule positions. -/
def operators : Value → List String
  | .arr items => allOperators items
  | .obj ((name, v) :: _) => name :: operators v
  | _ => []

def allOperators : List Value → List String
  | [] => []
  | v :: rest => operators v ++ allOperators rest

end

/-- The operator that a rule applies itself. -/
def ownOperators : Value → List String
  | .obj ((name, _) :: _) => [name]
  | _ => []

theorem allOperators_eq_flatMap (items : List Value) :
    allOperators items = items.flatMap operators := by
  induction items with
  | nil => rfl
  | cons v rest ih => rw [allOperators, ih, List.flatMap_cons]

theorem operators_eq (v : Value) : v.operators = v.ownOperators ++ v.parts.flatMap operators := by
  match v with
  | .null | .bool _ | .num _ | .str _ | .obj [] => rfl
  | .arr items => exact allOperators_eq_flatMap items
  | .obj ((name, .arr items) :: _) => exact congrArg (name :: ·) (allOperators_eq_flatMap items)
  | .obj ((_, .null) :: _) | .obj ((_, .bool _) :: _) | .obj ((_, .num _) :: _)
  | .obj ((_, .str _) :: _) | .obj ((_, .obj _) :: _) =>
    simp [operators, ownOperators, parts, argumentsOf]

theorem mem_operators_iff {rule : Value} {name : String} : name ∈ rule.operators ↔
    ∃ place v rest, PositionAt rule place (.obj ((name, v) :: rest)) := by
  rw [mem_walk_iff operators_eq]
  constructor
  · rintro ⟨place, node, hn, h⟩
    unfold ownOperators at h
    split at h
    · obtain rfl := List.mem_singleton.1 h
      exact ⟨place, _, _, hn⟩
    · cases h
  · rintro ⟨place, v, rest, hn⟩
    exact ⟨place, _, hn, List.mem_singleton_self name⟩

theorem mem_operators_self {name : String} {v : Value} {rest : List (String × Value)} :
    name ∈ (Value.obj ((name, v) :: rest)).operators :=
  List.mem_cons_self

theorem mem_operators_of_mem_parts {v c : Value} {name : String} (hc : c ∈ v.parts)
    (h : name ∈ c.operators) : name ∈ v.operators := by
  rw [operators_eq]
  exact List.mem_append_right _ (List.mem_flatMap.2 ⟨c, hc, h⟩)

end Value

/-! ## Bodies -/

/-- Is the second argument of the operator a body, evaluated with the items of a collection? -/
def hasBody (name : String) : Bool :=
  (Operator.ofName? name).any (·.strategy = .scoped)

/-- The arguments that are evaluated with the data to which the operator is applied. -/
def outerArguments {α : Type} (name : String) (arguments : List α) : List α :=
  if hasBody name then arguments.take 1 ++ arguments.drop 2 else arguments

/-- The arguments that are evaluated with items; there is at most one. -/
def bodies {α : Type} (name : String) (arguments : List α) : List α :=
  if hasBody name then (arguments.drop 1).take 1 else []

section
variable {α β : Type} {name : String} {arguments : List α}

theorem outerArguments_map (f : α → β) :
    outerArguments name (arguments.map f) = (outerArguments name arguments).map f := by
  unfold outerArguments
  split
  · rw [List.map_append, List.map_take, List.map_drop]
  · rfl

theorem length_outerArguments_add_bodies (name : String) (arguments : List α) :
    (outerArguments name arguments).length + (bodies name arguments).length = arguments.length := by
  unfold outerArguments bodies
  split
  · simp only [List.length_append, List.length_take, List.length_drop]
    omega
  · rfl

theorem hasBody_eq_false {op : Operator} (hb : Operator.ofName? name = some op)
    (hs : op.strategy ≠ .scoped) : hasBody name = false := by
  simp [hasBody, hb, hs]

theorem hasBody_eq_true {op : Operator} (hb : Operator.ofName? name = some op)
    (hs : op.strategy = .scoped) : hasBody name = true := by
  simp [hasBody, hb, hs]

/-- Only the scoped operators have a body. -/
theorem hasBody_eq_false_of_forall (h : ∀ op : Operator, op.strategy = .scoped → name ≠ op.name) :
    hasBody name = false := by
  rw [Bool.eq_false_iff]
  intro hb
  obtain ⟨op, ho, hs⟩ := (Option.any_eq_true _ _).1 hb
  exact h op (of_decide_eq_true hs) (Operator.name_of_ofName? ho).symm

theorem outerArguments_eq_self (h : hasBody name = false) :
    outerArguments name arguments = arguments := by
  simp [outerArguments, h]

theorem outerArguments_cons_cons (h : hasBody name = true) (source body : α) (rest : List α) :
    outerArguments name (source :: body :: rest) = source :: rest := by
  simp [outerArguments, h]

theorem bodies_eq_nil (h : hasBody name = false) : bodies name arguments = [] := by
  simp [bodies, h]

theorem bodies_cons_cons (h : hasBody name = true) (source body : α) (rest : List α) :
    bodies name (source :: body :: rest) = [body] := by
  simp [bodies, h]

end

end RuleLogic
