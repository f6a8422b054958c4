import RuleLogic.Proofs.Accumulation
import RuleLogic.Proofs.Nesting
import RuleLogic.Proofs.Quantifiers

/-!
# Truths of values

Wherever an operator takes a value as a condition it takes it as the same truth.  What `!!` gives is
what a double negation gives, and what a choice between `true` and `false` does; and it is what the
quantifiers tell of the value as the only item of a collection, where the body is the item itself.

    {!!: [X]}, {!: [{!: [X]}]}, {if: [X, true, false]}, {some: [[X], item]}, {all: [[X], item]}
    and {!: [{none: [[X], item]}]} do the same                             (truths_agree)
-/

namespace RuleLogic

open Scope

/-- An outcome with its value turned into its truth; a failure stays as it is. -/
def Outcome.truth (x : Outcome Value) : Outcome Value := do
  let v ← x
  pure (.bool v.truthy)

/-- The rule that gives the data to which it is applied. -/
def Value.item : Value := .obj [("var", .str "")]

section
variable {r : Registry} {X data : Value}

/-! ## Conditions -/

theorem Outcome.negated_negated (x : Outcome Value) : x.negated.negated = x.truth := by
  simp only [negated, truth, bind_assoc, pure_bind, Value.truthy_bool, Bool.not_not]

theorem eval_truth : eval r (.obj [("!!", .arr [X])]) data = (eval r X data).truth :=
  eval_unary .truth rfl rfl

theorem eval_choice :
    eval r (.obj [("if", .arr [X, .bool true, .bool false])]) data = (eval r X data).truth := by
  have hchoose : eval r (.obj [("if", .arr [X, .bool true, .bool false])]) = _ :=
    Operator.Chooses.choose.eval_three X (.bool true) (.bool false)
  refine (congrFun hchoose data).trans (bind_congr fun v => ?_)
  cases v.truthy with
  | true | false => exact eval_literal rfl

/-! ## Collections of one item -/

/-- The data is given as it is, also where it is `null`. -/
theorem eval_item : eval r .item data = pure data := eval_path rfl

/-- A quantifier over one item tells whether it has the truth that is looked for. -/
theorem Operator.Quantifies.eval_single {op : Operator} {wanted found : Bool}
    {missed : List Value → Bool} (h : op.Quantifies wanted found missed) :
    eval r (.obj [(op.name, .arr [.arr [X], .item])]) data = (do
      let v ← eval r X data
      pure (.bool (if v.truthy == wanted then found else missed [v]))) := by
  rw [h.eval_eq, collection_arr]
  simp only [List.map_singleton, evalEach, bind_assoc, pure_bind]
  refine bind_congr fun v => ?_
  rw [anyItem, eval_item, pure_bind]
  cases v.truthy == wanted <;> rfl

theorem eval_filter_single : eval r (.obj [("filter", .arr [.arr [X], .item])]) data = (do
    let v ← eval r X data
    pure (.arr (if v.truthy then [v] else []))) := by
  have hfilter : eval r (.obj [("filter", .arr [.arr [X], .item])]) data = _ :=
    Operator.Gathers.filter.eval_eq r (.arr [X]) .item data
  rw [hfilter, collection_arr]
  simp only [List.map_singleton, evalEach, bind_assoc, pure_bind]
  refine bind_congr fun v => ?_
  simp only [filterItems, eval_item, pure_bind]

end

/-! ## Agreement -/

/-- **There is one truth of values.**  `!!`, a double negation, a choice between `true` and `false`,
and `some`, `all` and a negated `none` over the value as the only item all give its truth and log
nothing of their own; where there is no value they fail as it does.  A `filter` keeps the value
exactly where they give `true`. -/
theorem truths_agree (r : Registry) (X data : Value) :
    eval r (.obj [("!!", .arr [X])]) data = (eval r X data).truth ∧
    eval r X.negated.negated data = (eval r X data).truth ∧
    eval r (.obj [("if", .arr [X, .bool true, .bool false])]) data = (eval r X data).truth ∧
    eval r (.obj [("some", .arr [.arr [X], .item])]) data = (eval r X data).truth ∧
    eval r (.obj [("all", .arr [.arr [X], .item])]) data = (eval r X data).truth ∧
    eval r (Value.negated (.obj [("none", .arr [.arr [X], .item])])) data =
      (eval r X data).truth ∧
    eval r (.obj [("filter", .arr [.arr [X], .item])]) data = (do
      let v ← eval r X data
      pure (.arr (if v.truthy then [v] else []))) := by
  refine ⟨eval_truth, ?_, eval_choice, ?_, ?_, ?_, eval_filter_single⟩
  · rw [eval_negated, eval_negated, Outcome.negated_negated]
  · refine Operator.Quantifies.some.eval_single.trans (bind_congr fun v => ?_)
    cases v.truthy <;> rfl
  · refine Operator.Quantifies.all.eval_single.trans (bind_congr fun v => ?_)
    cases v.truthy <;> rfl
  · have hnone : eval r (.obj [("none", .arr [.arr [X], .item])]) data = (eval r X data).negated :=
      Operator.Quantifies.none.eval_single.trans (bind_congr fun v => by cases v.truthy <;> rfl)
    rw [eval_negated, hnone, Outcome.negated_negated]

end RuleLogic
