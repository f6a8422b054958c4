import RuleLogic.Proofs.Respelling
import RuleLogic.Proofs.Words

/-!
# Arguments without a list

An operator whose value is no array is applied to this one value, as if it stood in a list.  A rule
with all arguments in lists does the same, the same paths do not resolve, and validation finds the
same problems, behind steps that have an index more.

    eval r rule.listArguments = eval r rule, and the findings of rule.listArguments are those of
    rule, with .op[0] in place of .op                        (listArguments_equivalent)
-/

namespace RuleLogic

/-! ## Algorithm -/

mutual

/-- The rule with a list around each argument that has none. -/
def Value.listArguments : Value → Value
  | .arr items => .arr (Value.listAllArguments items)
  | .obj ((name, .arr items) :: rest) => .obj ((name, .arr (Value.listAllArguments items)) :: rest)
  | .obj ((name, v) :: rest) => .obj ((name, .arr [Value.listArguments v]) :: rest)
  | literal => literal

def Value.listAllArguments : List Value → List Value
  | [] => []
  | v :: rest => Value.listArguments v :: Value.listAllArguments rest

end

/-- The step to an argument that now is in a list. -/
def Step.listed : Step → Step
  | .bare operator => .argument operator 0
  | step => step

/-! ## Lemmas -/

theorem listAllArguments_eq_map (items : List Value) :
    Value.listAllArguments items = items.map Value.listArguments := by
  induction items with
  | nil => rfl
  | cons v rest ih => rw [Value.listAllArguments, ih, List.map_cons]

theorem listArguments_arr (items : List Value) :
    (Value.arr items).listArguments = .arr (items.map Value.listArguments) := by
  rw [Value.listArguments, listAllArguments_eq_map]

theorem listArguments_obj (name : String) (v : Value) (rest : List (String × Value)) :
    (Value.obj ((name, v) :: rest)).listArguments =
      .obj ((name, .arr ((argumentsOf v).map Value.listArguments)) :: rest) := by
  match v with
  | .arr items =>
    rw [Value.listArguments, listAllArguments_eq_map]
    rfl
  | .null | .bool _ | .num _ | .str _ | .obj _ => rfl

/-- What stands behind the first key is no rule and stays as it is. -/
example : (Value.obj [("!", .obj [("var", .str "a")]), ("x", .obj [])]).listArguments =
    .obj [("!", .arr [.obj [("var", .arr [.str "a"])]]), ("x", .obj [])] := rfl

theorem respelling_listArguments : Respelling Value.listArguments := by
  intro v
  match v with
  | .null | .bool _ | .num _ | .str _ | .obj [] => exact .literal rfl
  | .arr items =>
    rw [listArguments_arr]
    exact .arr items
  | .obj ((name, w) :: rest) =>
    rw [listArguments_obj]
    exact .obj rfl

theorem steps_listArguments (v : Value) :
    v.listArguments.steps = v.steps.map (Prod.map Step.listed Value.listArguments) := by
  match v with
  | .null | .bool _ | .num _ | .str _ | .obj [] => rfl
  | .arr items =>
    rw [listArguments_arr]
    exact map_zipIdx_map (fun _ => rfl) items
  | .obj ((name, w) :: rest) =>
    rw [listArguments_obj]
    by_cases hw : w.kind = .array
    · cases w with
      | arr items => exact map_zipIdx_map (fun _ => rfl) items
      | _ => cases hw
    · rw [steps_of_not_array hw, argumentsOf_eq_self hw]
      rfl

/-! ## Texts of reducers -/

section
variable {word : List Char} (hw : Value.IsWord word)

include hw

theorem infix_compact_argumentsOf (v : Value) :
    (∃ c ∈ argumentsOf v, word <:+: c.compact) ↔ word <:+: v.compact := by
  by_cases hv : v.kind = .array
  · cases v with
    | arr items => exact (Value.infix_compact_arr hw items).symm
    | _ => cases hv
  · rw [argumentsOf_eq_self hv]
    simp only [List.mem_singleton, exists_eq_left]

/-- A text gets brackets where it had punctuation before, so the same words occur in it. -/
theorem infix_compact_listArguments (v : Value) :
    word <:+: v.listArguments.compact ↔ word <:+: v.compact := by
  induction v using Value.rule_induction with
  | h v ih =>
    have hparts : (∃ c ∈ v.parts.map Value.listArguments, word <:+: c.compact) ↔
        ∃ c ∈ v.parts, word <:+: c.compact := by
      simp only [List.mem_map, exists_exists_and_eq_and]
      exact exists_congr fun c => and_congr_right fun hc => ih c hc
    match v with
    | .null | .bool _ | .num _ | .str _ | .obj [] => rfl
    | .arr items =>
      rw [listArguments_arr, Value.infix_compact_arr hw, Value.infix_compact_arr hw]
      exact hparts
    | .obj ((name, w) :: rest) =>
      rw [listArguments_obj, Value.infix_compact_obj hw, Value.infix_compact_obj hw,
        List.exists_mem_cons_iff, List.exists_mem_cons_iff, Value.infix_compact_arr hw]
      exact or_congr_left (or_congr_right (hparts.trans (infix_compact_argumentsOf hw w)))

theorem hasPart_compact_listArguments (v : Value) :
    Text.hasPart word v.listArguments.compact = Text.hasPart word v.compact := by
  rw [Bool.eq_iff_iff, Text.hasPart_iff, Text.hasPart_iff, infix_compact_listArguments hw]

end

/-! ## Findings -/

theorem reduceProblems_listArguments (arguments : List Value) :
    Validation.reduceProblems (arguments.map Value.listArguments) =
      Validation.reduceProblems arguments := by
  match arguments with
  | [] | [_] | _ :: .null :: _ | _ :: .bool _ :: _ | _ :: .num _ :: _ | _ :: .str _ :: _
  | _ :: .arr _ :: _ | _ :: .obj [] :: _ => rfl
  | first :: .obj ((name, w) :: rest) :: others =>
    have haccumulator := hasPart_compact_listArguments
      (by decide : Value.IsWord "accumulator".toList) (.obj ((name, w) :: rest))
    have hcurrent := hasPart_compact_listArguments
      (by decide : Value.IsWord "current".toList) (.obj ((name, w) :: rest))
    rw [listArguments_obj] at haccumulator hcurrent
    simp only [List.map_cons, listArguments_obj, Validation.reduceProblems]
    rw [haccumulator, hcurrent]

theorem problems_listArguments (custom : Allowlist) (v : Value) :
    v.listArguments.problems custom = v.problems custom := by
  match v with
  | .null | .bool _ | .num _ | .str _ | .obj [] | .arr _ => rfl
  | .obj ((name, w) :: rest) =>
    have hoperator : Validation.operatorProblems name
        ((argumentsOf w).map Value.listArguments) =
          Validation.operatorProblems name (argumentsOf w) := by
      have h := respelling_listArguments.filter_operatorProblems
        (fun arguments => congrArg (List.filter fun _ => true)
          (reduceProblems_listArguments arguments)) name (argumentsOf w)
      simpa only [List.filter_true] using h
    rw [listArguments_obj]
    unfold Value.problems Validation.nodeProblems
    dsimp only
    rw [← hoperator]
    rfl

/-- **An argument without a list is the same as a list of one.**  With all arguments in lists a rule
has the same result and the same log on all data, the same paths do not resolve, and validation
comes to the same verdict with the same problems in the same order, where `.op[0]` is the place of
what was at `.op`. -/
theorem listArguments_equivalent (r : Registry) (custom : Allowlist) (rule data : Value) :
    eval r rule.listArguments data = eval r rule data ∧
    pathWarnings data rule.listArguments = pathWarnings data rule ∧
    (validate custom rule.listArguments).valid = (validate custom rule).valid ∧
    (validate custom rule.listArguments).errors =
      (validate custom rule).errors.map (.mapSteps Step.listed) ∧
    (validate custom rule.listArguments).warnings =
      (validate custom rule).warnings.map (.mapSteps Step.listed) ∧
    ∀ operator, (Step.bare operator).listed.text = (Step.bare operator).text ++ "[0]".toList := by
  have herrors : (validate custom rule.listArguments).errors =
      (validate custom rule).errors.map (.mapSteps Step.listed) := by
    rw [errors_validate, errors_validate]
    exact respelling_listArguments.reported_findings steps_listArguments
      (fun v => congrArg _ (problems_listArguments custom v)) rule
  have hwarnings : (validate custom rule.listArguments).warnings =
      (validate custom rule).warnings.map (.mapSteps Step.listed) := by
    rw [warnings_validate, warnings_validate]
    exact respelling_listArguments.reported_findings steps_listArguments
      (fun v => congrArg _ (problems_listArguments custom v)) rule
  refine ⟨congrFun (respelling_listArguments.eval_eq r rule) data,
    respelling_listArguments.pathWarnings_eq data rule, ?_, herrors, hwarnings, fun _ => rfl⟩
  rw [valid_eq_isEmpty, valid_eq_isEmpty, herrors, List.isEmpty_map]

end RuleLogic
