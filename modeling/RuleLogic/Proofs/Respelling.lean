import RuleLogic.Proofs.Defaults
import RuleLogic.Proofs.Findings

/-!
# Other spellings of a rule

A respelling writes a rule in another way: at every rule position the operator and the arguments to
which it is applied stay, and the arguments are respelled in turn.  What it may change is what
stands behind the first key of an object, and whether a single argument is in a list.

A rule does the same in every spelling, and the same paths do not resolve.  Validation looks at the
spelling in a few places; where the problems of the nodes agree, the findings do, each at the place
to which the steps lead in the new spelling.

    eval r (f rule) = eval r rule                                            (Respelling.eval_eq)
    pathWarnings data (f rule) = pathWarnings data rule              (Respelling.pathWarnings_eq)
    the findings of f rule are those of rule, moved                  (Respelling.filter_findings)
-/

namespace RuleLogic

/-- The second value is the first one in another spelling, with parts that `f` respells. -/
inductive Respelled (f : Value → Value) : Value → Value → Prop
  | arr (items : List Value) : Respelled f (.arr items) (.arr (items.map f))
  | obj {name : String} {v v' : Value} {rest rest' : List (String × Value)}
    (h : argumentsOf v' = (argumentsOf v).map f) :
    Respelled f (.obj ((name, v) :: rest)) (.obj ((name, v') :: rest'))
  | literal {v : Value} (h : v.parts = []) : Respelled f v v

/-- A way to spell rules. -/
def Respelling (f : Value → Value) : Prop := ∀ v, Respelled f v (f v)

/-- The same problem at the place to which other steps lead. -/
def Finding.mapSteps (g : Step → Step) (x : Finding) : Finding := ⟨x.place.map g, x.problem⟩

def Reported.mapSteps (g : Step → Step) (x : Reported) : Reported :=
  ⟨x.toFinding.mapSteps g, x.severity⟩

theorem Reported.mapSteps_id : Reported.mapSteps id = id := by
  funext x
  simp [mapSteps, Finding.mapSteps]

/-- Items in another spelling stand at the same indexes. -/
theorem map_zipIdx_map {f : Value → Value} {g : Step → Step} {step : Nat → Step}
    (hg : ∀ i, g (step i) = step i) (items : List Value) :
    ((items.map f).zipIdx.map fun (c, i) => (step i, c)) =
      (items.zipIdx.map fun (c, i) => (step i, c)).map (Prod.map g f) := by
  rw [List.zipIdx_map, List.map_map, List.map_map]
  refine List.map_congr_left fun ⟨c, i⟩ _ => ?_
  simp [hg]

namespace Respelling

variable {f : Value → Value} (hf : Respelling f)

include hf

/-! ## Single nodes -/

theorem kind_eq (v : Value) : (f v).kind = v.kind := by
  have h := hf v
  generalize f v = v' at h
  cases h <;> rfl

theorem parts_eq (v : Value) : (f v).parts = v.parts.map f := by
  have h := hf v
  generalize f v = v' at h
  cases h with
  | arr items => rfl
  | obj h => exact h
  | literal h => rw [h, List.map_nil]

theorem opens_eq (admits : String → Bool) (v : Value) : (f v).opens admits = v.opens admits := by
  have h := hf v
  generalize f v = v' at h
  cases h <;> rfl

/-! ## Evaluation and paths -/

theorem eval_eq (r : Registry) (rule : Value) : eval r (f rule) = eval r rule := by
  induction rule using Value.rule_induction with
  | h rule ih =>
    have hparts : (f rule).parts.map (eval r) = rule.parts.map (eval r) := by
      rw [hf.parts_eq, List.map_map]
      exact List.map_congr_left ih
    rw [eval_eq_compose, eval_eq_compose, hparts]
    have h := hf rule
    generalize f rule = rule' at h
    cases h <;> rfl

/-- Strings and numbers are no rules, so a path that is written out stays as it is. -/
theorem literalPath?_eq {v v' : Value} (h : argumentsOf v' = (argumentsOf v).map f) :
    literalPath? v' = literalPath? v := by
  unfold literalPath?
  rw [h]
  cases argumentsOf v with
  | nil => rfl
  | cons p rest =>
    have hp := hf p
    rw [List.map_cons]
    generalize f p = p' at hp
    cases hp with
    | arr | obj => rfl
    | literal => cases p <;> rfl

theorem pathWarnings_eq (data rule : Value) :
    pathWarnings data (f rule) = pathWarnings data rule := by
  induction rule using Value.rule_induction with
  | h rule ih =>
    have hparts : (f rule).parts.flatMap (pathWarnings data) =
        rule.parts.flatMap (pathWarnings data) := by
      rw [hf.parts_eq, List.flatMap_map]
      exact List.flatMap_congr ih
    rw [RuleLogic.pathWarnings_eq, RuleLogic.pathWarnings_eq, hparts]
    have h := hf rule
    generalize f rule = rule' at h
    cases h with
    | arr | literal => rfl
    | obj h => simp only [ownPathWarnings, varWarnings, hf.literalPath?_eq h]

/-! ## Problems of single nodes -/

theorem varProblems_eq (arguments : List Value) :
    Validation.varProblems (arguments.map f) = Validation.varProblems arguments := by
  cases arguments with
  | nil => rfl
  | cons p rest =>
    have hp := hf p
    rw [List.map_cons]
    generalize f p = p' at hp
    cases hp with
    | arr | obj => rfl
    | literal => cases p <;> rfl

theorem missingSomeProblems_eq (arguments : List Value) :
    Validation.missingSomeProblems (arguments.map f) =
      Validation.missingSomeProblems arguments := by
  unfold Validation.missingSomeProblems
  rw [List.head?_map, List.getElem?_map, Option.any_map, Option.any_map]
  simp only [hf.kind_eq]

section
variable {keep : Problem → Bool}
  (hr : ∀ arguments, (Validation.reduceProblems (arguments.map f)).filter keep =
    (Validation.reduceProblems arguments).filter keep)

include hr

/-- All checks of arguments but that of a reducer go by their number and kinds. -/
theorem filter_shapeProblems (op : Operator) (arguments : List Value) :
    (Validation.shapeProblems op (arguments.map f)).filter keep =
      (Validation.shapeProblems op arguments).filter keep := by
  cases op
  case var => exact congrArg _ (hf.varProblems_eq arguments)
  case missingSome => exact congrArg _ (hf.missingSomeProblems_eq arguments)
  case choose | ternary => simp only [Validation.shapeProblems, List.length_map]
  case reduce => exact hr arguments
  all_goals rfl

theorem filter_operatorProblems (name : String) (arguments : List Value) :
    (Validation.operatorProblems name (arguments.map f)).filter keep =
      (Validation.operatorProblems name arguments).filter keep := by
  unfold Validation.operatorProblems
  cases Operator.ofName? name with
  | none => rfl
  | some op => simp only [List.length_map, List.filter_append, hf.filter_shapeProblems hr]

end

/-! ## Findings -/

/-- Where the problems of the nodes agree, so do the findings, each at the place to which the steps
lead in the new spelling. -/
theorem filter_findings {custom : Allowlist} {keep : Problem → Bool} {g : Step → Step}
    (hsteps : ∀ v, (f v).steps = v.steps.map (Prod.map g f))
    (hproblems : ∀ v, ((f v).problems custom).filter keep = (v.problems custom).filter keep)
    (place : Place) (rule : Value) :
    (Validation.findings custom (place.map g) (f rule)).filter (keep ·.problem) =
      ((Validation.findings custom place rule).filter (keep ·.problem)).map (.mapSteps g) := by
  induction rule using Value.rule_induction generalizing place with
  | h rule ih =>
    rw [findings_eq, findings_eq, hf.opens_eq, List.filter_append, List.filter_append,
      List.map_append]
    congr 1
    · have hown := congrArg (List.map fun problem => (⟨place.map g, problem⟩ : Finding))
        (hproblems rule)
      rw [List.filter_map, List.filter_map, List.map_map]
      exact hown
    · split
      · rw [hsteps, List.flatMap_map, List.filter_flatMap, List.filter_flatMap, List.map_flatMap]
        refine List.flatMap_congr fun ⟨s, c⟩ hs => ?_
        rw [← ih c (mem_parts_of_mem_steps hs), List.map_append]
        rfl
      · rfl

/-- Findings of one severity, as a report lists them. -/
theorem reported_findings {custom : Allowlist} {g : Step → Step} {severity : Severity}
    (hsteps : ∀ v, (f v).steps = v.steps.map (Prod.map g f))
    (hproblems : ∀ v, ((f v).problems custom).filter (·.severity = severity) =
      (v.problems custom).filter (·.severity = severity)) (rule : Value) :
    Report.reported severity (Validation.findings custom [] (f rule)) =
      (Report.reported severity (Validation.findings custom [] rule)).map (.mapSteps g) := by
  have hfilter := congrArg (List.map fun x => (⟨x, severity⟩ : Reported))
    (hf.filter_findings hsteps hproblems [] rule)
  rw [List.map_map] at hfilter
  rw [Report.reported, Report.reported, List.map_map]
  exact hfilter

end Respelling

end RuleLogic
