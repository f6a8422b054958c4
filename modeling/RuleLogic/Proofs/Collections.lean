import RuleLogic.Proofs.Rule

/-!
# Walks over collections

A scoped operator evaluates its source first and then walks over the items of the array that the
source gives.  Where the source fails or gives anything else the walk does not begin, and only in
the second case does the operator's name show.

`map` and `filter` gather a list on their way, and gather from one collection behind another what
they gather from each.

    collection op source data = ⟨log of the source, items⟩                    (collection_of_array)
    walk body (xs ++ ys) = walk body xs, then walk body ys                        (walk_append)
-/

namespace RuleLogic

open Scope

/-- A scoped operator with an accepted number of arguments walks over a collection. -/
theorem eval_scoped {r : Registry} (op : Operator) {v : Value} {rest : List (String × Value)}
    (hs : op.strategy = .scoped) (hn : op.arity.accepts (argumentsOf v).length = true) :
    eval r (.obj ((op.name, v) :: rest)) = op.iterate ((argumentsOf v).map (eval r)) := by
  rw [← List.length_map (eval r)] at hn
  rw [eval_rule, dispatch_name, Operator.run, if_pos hn, hs]

/-! ## Sources -/

theorem Value.exists_arr_of_kind {v : Value} (h : v.kind = .array) : ∃ items, v = .arr items := by
  cases v with
  | arr items => exact ⟨items, rfl⟩
  | _ => cases h

section
variable {op : Operator} {source : Meaning} {data : Value}

theorem collection_of_array {items : List Value} (h : (source data).result = .ok (.arr items)) :
    collection op source data = ⟨(source data).log, .ok items⟩ :=
  (Outcome.bind_ok h _).trans (Outcome.ext (List.append_nil _) rfl)

theorem collection_of_error {e : EvalError} (h : (source data).result = .error e) :
    collection op source data = ⟨(source data).log, .error e⟩ :=
  Outcome.bind_error h _

/-- A source that gives no array is refused in the name of the operator. -/
theorem collection_of_not_array {v : Value} (h : (source data).result = .ok v)
    (hv : v.kind ≠ .array) : collection op source data =
      ⟨(source data).log, .error (.invalidArgument op.name (.notAnArray v.kind))⟩ := by
  refine (Outcome.bind_ok h _).trans ?_
  cases v with
  | arr items => exact absurd rfl hv
  | _ => exact Outcome.ext (List.append_nil _) rfl

/-- A walk begins exactly where the source gives an array. -/
theorem collection_result_ok_iff {items : List Value} :
    (collection op source data).result = .ok items ↔ (source data).result = .ok (.arr items) := by
  cases h : (source data).result with
  | error e => simp [collection_of_error h]
  | ok v =>
    cases v with
    | arr held => simp [collection_of_array h]
    | _ => simp [collection_of_not_array h nofun]

/-- An array of rules is a collection of what they give. -/
theorem collection_arr (op : Operator) (r : Registry) (rules : List Value) (data : Value) :
    collection op (eval r (.arr rules)) data = evalEach data (rules.map (eval r)) := by
  rw [collection, eval_arr, bind_assoc]
  simp only [pure_bind, bind_pure]

/-- Only the refusal of a source depends on the operator. -/
theorem collection_eq_collection (op' : Operator)
    (h : ∀ v, (source data).result = .ok v → v.kind = .array) :
    collection op source data = collection op' source data := by
  cases hs : (source data).result with
  | error e => rw [collection_of_error hs, collection_of_error hs]
  | ok v =>
    obtain ⟨items, rfl⟩ := Value.exists_arr_of_kind (h v hs)
    rw [collection_of_array hs, collection_of_array hs]

end

/-- The initial value of a `reduce` is evaluated on the data of the operator, behind the source. -/
theorem eval_reduce (r : Registry) (X B I data : Value) :
    eval r (.obj [("reduce", .arr [X, B, I])]) data = (do
      let items ← collection .reduce (eval r X) data
      let first ← eval r I data
      reduceItems (eval r B) first items) :=
  congrFun (eval_scoped .reduce rfl rfl) data

/-! ## Gathering -/

/-- The operators that gather a list from a collection, and the walks by which they do so. -/
inductive Operator.Gathers : Operator → (Meaning → List Value → Outcome (List Value)) → Prop
  | map : Gathers .map mapItems
  | filter : Gathers .filter filterItems

namespace Operator.Gathers

variable {op : Operator} {walk : Meaning → List Value → Outcome (List Value)}

theorem strategy_eq (h : op.Gathers walk) : op.strategy = .scoped := by
  cases h <;> rfl

theorem accepts_two (h : op.Gathers walk) : op.arity.accepts 2 = true := by
  cases h <;> rfl

theorem iterate_eq (h : op.Gathers walk) (source body : Meaning) (data : Value) :
    op.iterate [source, body] data = (do
      let items ← collection op source data
      let gathered ← walk body items
      pure (.arr gathered)) := by
  cases h <;> rfl

theorem walk_nil (h : op.Gathers walk) (body : Meaning) : walk body [] = pure [] := by
  cases h <;> rfl

/-- An item gives at most one item, and the rest is gathered behind it. -/
theorem walk_cons (h : op.Gathers walk) (body : Meaning) (item : Value) (rest : List Value) :
    walk body (item :: rest) = (do
      let first ← walk body [item]
      let more ← walk body rest
      pure (first ++ more)) := by
  cases h with
  | map => simp only [mapItems, bind_assoc, pure_bind, List.cons_append, List.nil_append]
  | filter =>
    simp only [filterItems, bind_assoc, pure_bind]
    refine bind_congr fun v => bind_congr fun kept => ?_
    split <;> rfl

theorem walk_append (h : op.Gathers walk) (body : Meaning) (xs ys : List Value) :
    walk body (xs ++ ys) = (do
      let front ← walk body xs
      let back ← walk body ys
      pure (front ++ back)) := by
  induction xs with
  | nil => simp only [List.nil_append, h.walk_nil, pure_bind, bind_pure]
  | cons item rest ih =>
    rw [List.cons_append, h.walk_cons, ih, h.walk_cons body item rest]
    simp only [bind_assoc, pure_bind, List.append_assoc]

/-- The operator applied to a source and a body. -/
theorem eval_eq (h : op.Gathers walk) (r : Registry) (X B data : Value) :
    eval r (.obj [(op.name, .arr [X, B])]) data = (do
      let items ← collection op (eval r X) data
      let gathered ← walk (eval r B) items
      pure (.arr gathered)) := by
  have hn : op.arity.accepts (argumentsOf (.arr [X, B])).length = true := h.accepts_two
  rw [eval_scoped op h.strategy_eq hn]
  exact h.iterate_eq (eval r X) (eval r B) data

end Operator.Gathers

end RuleLogic
