import RuleLogic.Proofs.Respelling

/-!
# Keys behind the first

Only the first key of an object applies an operator.  The entries behind it are neither evaluated
nor checked: a rule without them does the same, the same paths do not resolve, and validation finds
the same errors.  It only warns that there are such entries.

    eval r rule.firstKeys = eval r rule, and the errors of rule.firstKeys are those of rule
                                                             (firstKeys_equivalent)
-/

namespace RuleLogic

/-! ## Algorithm -/

mutual

/-- The rule without the entries behind the first in its objects. -/
def Value.firstKeys : Value → Value
  | .arr items => .arr (Value.allFirstKeys items)
  | .obj ((name, v) :: _) => .obj [(name, Value.firstKeys v)]
  | literal => literal

def Value.allFirstKeys : List Value → List Value
  | [] => []
  | v :: rest => Value.firstKeys v :: Value.allFirstKeys rest

end

/-! ## Lemmas -/

theorem allFirstKeys_eq_map (items : List Value) :
    Value.allFirstKeys items = items.map Value.firstKeys := by
  induction items with
  | nil => rfl
  | cons v rest ih => rw [Value.allFirstKeys, ih, List.map_cons]

theorem argumentsOf_firstKeys (v : Value) :
    argumentsOf v.firstKeys = (argumentsOf v).map Value.firstKeys := by
  match v with
  | .arr items => exact allFirstKeys_eq_map items
  | .null | .bool _ | .num _ | .str _ | .obj [] | .obj (_ :: _) => rfl

theorem respelling_firstKeys : Respelling Value.firstKeys := by
  intro v
  match v with
  | .null | .bool _ | .num _ | .str _ | .obj [] => exact .literal rfl
  | .arr items =>
    rw [Value.firstKeys, allFirstKeys_eq_map]
    exact .arr items
  | .obj ((name, w) :: rest) => exact .obj (argumentsOf_firstKeys w)

/-- The steps to the parts are the same, because a list stays a list. -/
theorem steps_firstKeys (v : Value) :
    v.firstKeys.steps = v.steps.map (Prod.map id Value.firstKeys) := by
  match v with
  | .null | .bool _ | .num _ | .str _ | .obj [] => rfl
  | .arr items =>
    rw [Value.firstKeys, allFirstKeys_eq_map]
    exact map_zipIdx_map (fun _ => rfl) items
  | .obj ((name, .arr items) :: rest) =>
    rw [Value.firstKeys, Value.firstKeys, allFirstKeys_eq_map]
    exact map_zipIdx_map (fun _ => rfl) items
  | .obj ((_, .null) :: _) | .obj ((_, .bool _) :: _) | .obj ((_, .num _) :: _)
  | .obj ((_, .str _) :: _) | .obj ((_, .obj []) :: _) | .obj ((_, .obj (_ :: _)) :: _) => rfl

/-! ## Errors -/

theorem keyProblems_not_error (name : String) (count : Nat) :
    (Validation.keyProblems name count).filter (·.severity = .error) = [] := by
  unfold Validation.keyProblems
  split <;> rfl

theorem reduceProblems_not_error (arguments : List Value) :
    (Validation.reduceProblems arguments).filter (·.severity = .error) = [] := by
  unfold Validation.reduceProblems
  split
  · dsimp only
    split <;> rfl
  · rfl

/-- What depends on the entries behind the first, their number and the text of a reducer, is only
warned about. -/
theorem errors_of_firstKeys (custom : Allowlist) (v : Value) :
    (v.firstKeys.problems custom).filter (·.severity = .error) =
      (v.problems custom).filter (·.severity = .error) := by
  match v with
  | .null | .bool _ | .num _ | .str _ | .obj [] | .arr _ => rfl
  | .obj ((name, w) :: rest) =>
    have hoperator := respelling_firstKeys.filter_operatorProblems
      (fun arguments => (reduceProblems_not_error _).trans (reduceProblems_not_error _).symm)
      name (argumentsOf w)
    simp only [Value.firstKeys, Value.problems, Validation.nodeProblems, List.filter_append,
      keyProblems_not_error, argumentsOf_firstKeys]
    split
    · rw [hoperator]
    · rfl

/-- **Keys behind the first never matter.**  Without them a rule has the same result and the same
log on all data, the same paths do not resolve, and validation comes to the same verdict with the
same errors at the same places. -/
theorem firstKeys_equivalent (r : Registry) (custom : Allowlist) (rule data : Value) :
    eval r rule.firstKeys data = eval r rule data ∧
    pathWarnings data rule.firstKeys = pathWarnings data rule ∧
    (validate custom rule.firstKeys).valid = (validate custom rule).valid ∧
    (validate custom rule.firstKeys).errors = (validate custom rule).errors := by
  have herrors : (validate custom rule.firstKeys).errors = (validate custom rule).errors := by
    have hmoved := respelling_firstKeys.reported_findings steps_firstKeys
      (errors_of_firstKeys custom) rule
    rw [Reported.mapSteps_id, List.map_id] at hmoved
    rw [errors_validate, errors_validate, hmoved]
  refine ⟨congrFun (respelling_firstKeys.eval_eq r rule) data,
    respelling_firstKeys.pathWarnings_eq data rule, ?_, herrors⟩
  rw [valid_eq_isEmpty, valid_eq_isEmpty, herrors]

end RuleLogic
