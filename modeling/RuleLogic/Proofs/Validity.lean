import RuleLogic.Proofs.Failure
import RuleLogic.Proofs.Findings
import RuleLogic.Proofs.Refusal

/-!
# What validation says about evaluation

Both walk the nodes below known operators, so what validation says about a node holds of every
evaluation that reaches it.  An unknown operator or a wrong number of arguments that evaluation runs
into has been found, and where nothing is evaluated on demand or item by item, what has been found
makes every evaluation fail.

    evaluation fails with it → validation finds it        (evaluate_error_found)
    validation finds it → evaluation fails                (evaluate_fails_of_found)
-/

namespace RuleLogic

open Validation

/-! ## Problems of a node -/

theorem eq_of_mem_ite {c : Prop} [Decidable c] {problem other : Problem}
    (h : problem ∈ if c then [other] else []) : problem = other := by
  split at h
  · exact List.mem_singleton.1 h
  · cases h

theorem arityProblems_eq_nil {op : Operator} {count : Nat} (h : op.arity.accepts count = true) :
    arityProblems op count = [] := by
  obtain ⟨hl, hm⟩ := Arity.accepts_iff.1 h
  unfold arityProblems
  rw [if_neg (Nat.not_lt.2 hl), List.nil_append]
  split
  · next most hmost => rw [if_neg (Nat.not_lt.2 (hm most hmost))]
  · rfl

theorem exists_arityProblem {op : Operator} {count : Nat} (h : op.arity.accepts count = false) :
    .tooFewArguments op count ∈ arityProblems op count ∨
      ∃ most, .tooManyArguments op most count ∈ arityProblems op count := by
  by_cases hl : count < op.arity.least
  · left
    unfold arityProblems
    rw [if_pos hl]
    exact List.mem_append_left _ (List.mem_singleton_self _)
  · have hn : ¬ ∀ most, op.arity.most? = some most → count ≤ most := by
      intro hm
      rw [Arity.accepts_iff.2 ⟨Nat.not_lt.1 hl, hm⟩] at h
      cases h
    simp only [not_forall, Nat.not_le] at hn
    obtain ⟨most, hm, hn⟩ := hn
    refine .inr ⟨most, List.mem_append_right _ ?_⟩
    simp only [hm, if_pos hn]
    exact List.mem_singleton_self _

section
variable {custom : Allowlist} {name : String} {v : Value} {rest : List (String × Value)}

theorem unknownOperator_mem_problems (h : custom.accepts name = false) :
    .unknownOperator name custom.known ∈ (Value.obj ((name, v) :: rest)).problems custom := by
  simp [Value.problems, nodeProblems, h]

theorem exists_operator_of_mem_problems {node : Value} {problem : Problem}
    (h : problem ∈ node.problems custom) : ∃ name v rest, node = .obj ((name, v) :: rest) := by
  unfold Value.problems at h
  split at h
  · exact ⟨_, _, _, rfl⟩
  · cases h

theorem accepts_of_ofName? {op : Operator} (h : Operator.ofName? name = some op) :
    custom.accepts name = true := by
  simp [Allowlist.accepts, h]

theorem mem_problems_of_ofName? {op : Operator} {problem : Problem}
    (h : Operator.ofName? name = some op)
    (hp : problem ∈ arityProblems op (argumentsOf v).length ++ shapeProblems op (argumentsOf v)) :
    problem ∈ (Value.obj ((name, v) :: rest)).problems custom := by
  simp only [Value.problems, nodeProblems, accepts_of_ofName? h, if_true, operatorProblems, h]
  exact List.mem_append_right _ hp

/-- What can be wrong with an accepted operator: keys behind it, the number of its arguments, or
their shape. -/
theorem cases_of_mem_problems (hk : custom.accepts name = true) {problem : Problem}
    (h : problem ∈ (Value.obj ((name, v) :: rest)).problems custom) :
    problem = .extraKeys (rest.length + 1) name ∨ ∃ op, Operator.ofName? name = some op ∧
      (problem = .tooFewArguments op (argumentsOf v).length ∨
        (∃ most, problem = .tooManyArguments op most (argumentsOf v).length) ∨
        problem ∈ shapeProblems op (argumentsOf v)) := by
  simp only [Value.problems, nodeProblems, hk, if_true] at h
  rcases List.mem_append.1 h with h | h
  · exact .inl (eq_of_mem_ite h)
  · unfold operatorProblems at h
    split at h
    · next op hb =>
      refine .inr ⟨op, hb, ?_⟩
      rcases List.mem_append.1 h with h | h
      · rcases List.mem_append.1 h with h | h
        · exact .inl (eq_of_mem_ite h)
        · split at h
          · next most _ => exact .inr (.inl ⟨most, eq_of_mem_ite h⟩)
          · cases h
      · exact .inr (.inr h)
    · cases h

end

/-- Validation for an evaluator goes on below the operators that the evaluator knows. -/
theorem accepts_allowlist (ev : Evaluator) (name : String) :
    ev.allowlist.accepts name = ev.registry.knows name := by
  have h : List.contains ev.registry.names name = (ev.registry.find? name).isSome := by
    rw [Bool.eq_iff_iff, List.contains_iff_mem]
    exact Registry.mem_names_iff
  simp only [Allowlist.accepts, Registry.knows, Evaluator.allowlist, h]

/-! ## Failures are found -/

/-- The errors that evaluation itself raises about the form of a rule. -/
def EvalError.isStructural : EvalError → Bool
  | .unknownOperator _ => true
  | .arity .. => true
  | .invalidArgument .. => true
  | _ => false

/-- No custom operator fails with an error about the form of a rule. -/
def Registry.NoStructuralErrors (r : Registry) : Prop :=
  ∀ name f values e, r.find? name = some f → f.call values = .error e → e.isStructural = false

section
variable {r : Registry} {name : String} {arguments : List Meaning}

theorem Raises.unknownOperator (hr : r.NoStructuralErrors) {unknown : String}
    (h : Raises r name arguments (.unknownOperator unknown)) :
    name = unknown ∧ r.knows name = false := by
  cases h with
  | unknown hb hc => exact ⟨rfl, by simp [Registry.knows, hb, hc]⟩
  | apply hb hs hn hv he => exact absurd (apply_isOf_of_evalEach hs hn hv he) id
  | call hb hc he => exact absurd (hr _ _ _ _ hc he) (by simp [EvalError.isStructural])

theorem Raises.arity (hr : r.NoStructuralErrors) {op : Operator} {expected : Arity} {actual : Nat}
    (h : Raises r name arguments (.arity op.name expected actual)) :
    name = op.name ∧ arguments.length = actual ∧ op.arity.accepts actual = false := by
  generalize he : EvalError.arity op.name expected actual = e at h
  cases h with
  | unknown | notAnArray => cases he
  | count hb hn =>
    injection he with hname _ hactual
    obtain rfl := Operator.name_injective hname
    subst hactual
    exact ⟨(Operator.name_of_ofName? hb).symm, rfl, hn⟩
  | apply hb hs hn hv he' =>
    subst he
    exact absurd (apply_isOf_of_evalEach hs hn hv he') id
  | customCount hb hc hn =>
    injection he with hname
    rw [← Registry.name_of_find? hc, ← hname, Operator.ofName?_name] at hb
    cases hb
  | call hb hc he' =>
    subst he
    exact absurd (hr _ _ _ _ hc he') (by simp [EvalError.isStructural])

/-- Written out, the operands of `missing_some` are refused only for their single keys. -/
theorem Raises.missingSome (hr : r.NoStructuralErrors) {v : Value} {reason : Reason}
    (h : Raises r name ((argumentsOf v).map (eval r))
      (.invalidArgument Operator.missingSome.name reason)) :
    Operator.ofName? name = some .missingSome ∧
      (missingSomeProblems (argumentsOf v) = [] → ∃ kind, reason = .notAKey kind) := by
  generalize he : EvalError.invalidArgument Operator.missingSome.name reason = e at h
  cases h with
  | unknown | count | customCount => cases he
  | notAnArray hb hs =>
    injection he with hname
    obtain rfl := Operator.name_injective hname
    cases hs
  | call hb hc he' =>
    subst he
    exact absurd (hr _ _ _ _ hc he') (by simp [EvalError.isStructural])
  | apply hb hs hn hv he' =>
    subst he
    obtain rfl := Operator.name_injective (apply_isOf_of_evalEach hs hn hv he').1
    refine ⟨hb, fun hp => ?_⟩
    rw [List.length_map] at hn
    obtain ⟨a, b, hab⟩ := List.length_eq_two.1 (Arity.accepts_exactly.1 hn)
    rw [hab] at hp hv
    have hvalues := forall₂_of_evalEach hv
    obtain _ | ⟨ha, hvalues⟩ := hvalues
    obtain _ | ⟨hb', hvalues⟩ := hvalues
    cases hvalues
    cases a with
    | num n =>
      cases b with
      | arr items =>
        -- the operands are the number itself and the values of the items
        cases ha
        obtain ⟨keys, hkeys, hb'⟩ := Outcome.bind_result_ok_iff.1 hb'
        cases hb'
        obtain ⟨kind, he⟩ := missingSome_error he'
        injection he with _ hreason
        exact ⟨kind, hreason⟩
      | _ => cases hp
    | _ => cases hp

end

section
variable {ev : Evaluator} (hr : ev.registry.NoStructuralErrors) {rule data : Value}

/-- Where evaluation fails, validation has been. -/
theorem evaluate_raises {e : EvalError} (h : (ev.evaluate rule data).result = .error e) :
    ∃ place name v rest, NodeAt ev.allowlist.accepts rule place (.obj ((name, v) :: rest)) ∧
      Raises ev.registry name ((argumentsOf v).map (eval ev.registry)) e := by
  obtain ⟨place, name, v, rest, hn, he⟩ := eval_raises h
  exact ⟨place, name, v, rest, hn.mono fun name h => (accepts_allowlist ev name).trans h, he⟩

include hr

theorem unknownOperator_found {name : String}
    (h : (ev.evaluate rule data).result = .error (.unknownOperator name)) :
    ∃ place v rest, NodeAt ev.allowlist.accepts rule place (.obj ((name, v) :: rest)) ∧
      ⟨⟨place, .unknownOperator name ev.allowlist.known⟩, .error⟩ ∈ (ev.validate rule).errors := by
  obtain ⟨place, name', v, rest, hn, he⟩ := evaluate_raises h
  obtain ⟨rfl, hk⟩ := he.unknownOperator hr
  refine ⟨place, v, rest, hn, mem_errors_of_problem hn ?_ rfl⟩
  exact unknownOperator_mem_problems ((accepts_allowlist ev name').trans hk)

theorem arity_found {op : Operator} {expected : Arity} {actual : Nat}
    (h : (ev.evaluate rule data).result = .error (.arity op.name expected actual)) :
    ∃ place v rest, NodeAt ev.allowlist.accepts rule place (.obj ((op.name, v) :: rest)) ∧
      (argumentsOf v).length = actual ∧
      (⟨⟨place, .tooFewArguments op actual⟩, .error⟩ ∈ (ev.validate rule).errors ∨
        ∃ most, ⟨⟨place, .tooManyArguments op most actual⟩, .error⟩ ∈ (ev.validate rule).errors) := by
  obtain ⟨place, name, v, rest, hn, he⟩ := evaluate_raises h
  obtain ⟨rfl, hl, hc⟩ := he.arity hr
  rw [List.length_map] at hl
  subst hl
  refine ⟨place, v, rest, hn, rfl, ?_⟩
  have hproblem : ∀ problem ∈ arityProblems op (argumentsOf v).length,
      problem.severity = .error → ⟨⟨place, problem⟩, .error⟩ ∈ (ev.validate rule).errors :=
    fun problem hp => mem_errors_of_problem hn
      (mem_problems_of_ofName? (Operator.ofName?_name op) (List.mem_append_left _ hp))
  rcases exists_arityProblem hc with hp | ⟨most, hp⟩
  · exact .inl (hproblem _ hp rfl)
  · exact .inr ⟨most, hproblem _ hp rfl⟩

/-- On a valid rule `missing_some` refuses nothing but single keys. -/
theorem missingSome_refuses_keys_of_valid (hv : (ev.validate rule).valid = true) {reason : Reason}
    (h : (ev.evaluate rule data).result =
      .error (.invalidArgument Operator.missingSome.name reason)) :
    ∃ kind, reason = .notAKey kind := by
  obtain ⟨place, name, v, rest, hn, he⟩ := evaluate_raises h
  obtain ⟨hb, hk⟩ := he.missingSome hr
  refine hk (List.eq_nil_iff_forall_not_mem.2 fun problem hp => ?_)
  have hs : problem.severity = .error := by
    rcases List.mem_append.1 hp with hp | hp
    · obtain rfl := eq_of_mem_ite hp
      rfl
    · obtain rfl := eq_of_mem_ite hp
      rfl
  have hmem : ⟨⟨place, problem⟩, .error⟩ ∈ (ev.validate rule).errors :=
    mem_errors_of_problem hn (mem_problems_of_ofName? hb (List.mem_append_right _ hp)) hs
  rw [Evaluator.validate, errors_eq_nil_of_valid hv] at hmem
  cases hmem

end

/-- **Failures over the form of a rule are found.**  An unknown operator or a wrong number of
arguments of a built-in one that evaluation runs into is an error of the report, at a node with that
operator and that number; on a valid rule no such failure occurs, nor one over the minimum or the
list of keys of `missing_some`. -/
theorem evaluate_error_found (ev : Evaluator) (hr : ev.registry.NoStructuralErrors)
    (rule data : Value) :
    (∀ name, (ev.evaluate rule data).result = .error (.unknownOperator name) →
      ∃ place v rest, NodeAt ev.allowlist.accepts rule place (.obj ((name, v) :: rest)) ∧
        ⟨⟨place, .unknownOperator name ev.allowlist.known⟩, .error⟩ ∈ (ev.validate rule).errors) ∧
    (∀ (op : Operator) expected actual,
      (ev.evaluate rule data).result = .error (.arity op.name expected actual) →
      ∃ place v rest, NodeAt ev.allowlist.accepts rule place (.obj ((op.name, v) :: rest)) ∧
        (argumentsOf v).length = actual ∧
        (⟨⟨place, .tooFewArguments op actual⟩, .error⟩ ∈ (ev.validate rule).errors ∨
          ∃ most, ⟨⟨place, .tooManyArguments op most actual⟩, .error⟩ ∈ (ev.validate rule).errors)) ∧
    ((ev.validate rule).valid = true →
      (∀ name, (ev.evaluate rule data).result ≠ .error (.unknownOperator name)) ∧
      (∀ (op : Operator) expected actual,
        (ev.evaluate rule data).result ≠ .error (.arity op.name expected actual)) ∧
      (∀ kind, (ev.evaluate rule data).result ≠
        .error (.invalidArgument Operator.missingSome.name (.minimumNotANumber kind))) ∧
      (ev.evaluate rule data).result ≠
        .error (.invalidArgument Operator.missingSome.name .keysNotAnArray)) := by
  refine ⟨fun name h => unknownOperator_found hr h, fun op expected actual h => arity_found hr h,
    fun hv => ?_⟩
  have hnone : ∀ f, f ∉ (ev.validate rule).errors := by
    rw [Evaluator.validate, errors_eq_nil_of_valid hv]
    exact fun f => List.not_mem_nil
  refine ⟨fun name h => ?_, fun op expected actual h => ?_, fun kind h => ?_, fun h => ?_⟩
  · obtain ⟨_, _, _, _, hf⟩ := unknownOperator_found hr h
    exact hnone _ hf
  · obtain ⟨_, _, _, _, _, hf | ⟨_, hf⟩⟩ := arity_found hr h
    · exact hnone _ hf
    · exact hnone _ hf
  · obtain ⟨_, hk⟩ := missingSome_refuses_keys_of_valid hr hv h
    cases hk
  · obtain ⟨_, hk⟩ := missingSome_refuses_keys_of_valid hr hv h
    cases hk

theorem evaluate_error_found_below_custom :
    let ev := Evaluator.builtin.register ⟨"fail", 1, 1, fun _ => .error (.custom "fail" "always")⟩
    let applied := fun argument => Value.obj [("fail", .arr [argument])]
    let unknown := applied (.obj [("bogus", .arr [])])
    let few := applied (.obj [("/", .arr [.null])])
    ev.registry.NoStructuralErrors ∧
      (ev.evaluate unknown .null).result = .error (.unknownOperator "bogus") ∧
      (∃ place v rest, NodeAt ev.allowlist.accepts unknown place (.obj (("bogus", v) :: rest)) ∧
        ⟨⟨place, .unknownOperator "bogus" ev.allowlist.known⟩, .error⟩ ∈
          (ev.validate unknown).errors) ∧
      (ev.evaluate few .null).result = .error (.arity "/" (.exactly 2) 1) ∧
      (∃ place v rest, NodeAt ev.allowlist.accepts few place (.obj (("/", v) :: rest)) ∧
        (argumentsOf v).length = 1 ∧
        (⟨⟨place, .tooFewArguments .div 1⟩, .error⟩ ∈ (ev.validate few).errors ∨
          ∃ most, ⟨⟨place, .tooManyArguments .div most 1⟩, .error⟩ ∈ (ev.validate few).errors)) ∧
      (ev.validate (applied .null)).valid = true ∧
      ∀ name, (ev.evaluate (applied .null) .null).result ≠ .error (.unknownOperator name) := by
  intro ev applied unknown few
  have hr : ev.registry.NoStructuralErrors := by
    intro name f values e hf he
    obtain rfl := List.mem_singleton.1 (List.mem_of_find?_eq_some hf)
    cases he
    rfl
  have hunknown : (ev.evaluate unknown .null).result = .error (.unknownOperator "bogus") := rfl
  have hfew : (ev.evaluate few .null).result = .error (.arity "/" (.exactly 2) 1) := rfl
  have hvalid : (ev.validate (applied .null)).valid = true := by decide
  exact ⟨hr, hunknown, (evaluate_error_found ev hr unknown .null).1 "bogus" hunknown, hfew,
    (evaluate_error_found ev hr few .null).2.1 .div (.exactly 2) 1 hfew, hvalid,
    ((evaluate_error_found ev hr (applied .null) .null).2.2 hvalid).1⟩

/-! ## What is found fails -/

/-- No rule position applies a short-circuit or scoped operator. -/
def Value.IsEager (rule : Value) : Prop :=
  ∀ place name v rest op, PositionAt rule place (.obj ((name, v) :: rest)) →
    Operator.ofName? name = some op → op.strategy = .eager

theorem Value.IsEager.of_mem_steps {rule c : Value} {s : Step} (h : rule.IsEager)
    (hs : (s, c) ∈ rule.steps) : c.IsEager := by
  intro place name v rest op hn hb
  refine h (s :: place) name v rest op (.down ?_ hs hn) hb
  unfold Value.opens
  split <;> rfl

theorem Value.IsEager.of_parts {rule : Value}
    (h : ∀ name v rest, rule = .obj ((name, v) :: rest) →
      ∀ op, Operator.ofName? name = some op → op.strategy = .eager)
    (hparts : ∀ c ∈ rule.parts, c.IsEager) : rule.IsEager := by
  intro place name v rest op hn hb
  generalize hnode : Value.obj ((name, v) :: rest) = node at hn
  cases hn with
  | here => exact h name v rest hnode.symm op hb
  | down _ hs hn =>
    subst hnode
    exact hparts _ (mem_parts_of_mem_steps hs) _ name v rest op hn hb

theorem dispatch_ok {r : Registry} {name : String} {arguments : List Meaning} {data w : Value}
    (hs : ∀ op, Operator.ofName? name = some op → op.strategy = .eager)
    (h : (dispatch r name arguments data).result = .ok w) :
    r.knows name = true ∧
      (∀ op, Operator.ofName? name = some op → op.arity.accepts arguments.length = true) ∧
      ∃ values, (evalEach data arguments).result = .ok values := by
  unfold dispatch at h
  cases hb : Operator.ofName? name with
  | some op =>
    simp only [hb, Operator.run, hs op hb] at h
    split at h
    · next hn =>
      obtain ⟨values, hv, _⟩ := Outcome.bind_result_ok_iff.1 h
      refine ⟨by simp [Registry.knows, hb], fun op' hb' => ?_, values, hv⟩
      cases hb'
      exact hn
    · cases h
  | none =>
    cases hc : r.find? name with
    | some f =>
      simp only [hb, hc, CustomOperator.run] at h
      split at h
      · obtain ⟨values, hv, _⟩ := Outcome.bind_result_ok_iff.1 h
        refine ⟨by simp [Registry.knows, hc], fun op' hb' => ?_, values, hv⟩
        cases hb'
      · cases h
    | none =>
      simp only [hb, hc] at h
      cases h

theorem exists_ok_of_mem_parts {r : Registry} {rule data w c : Value} (he : rule.IsEager)
    (h : (eval r rule data).result = .ok w) (hc : c ∈ rule.parts) :
    ∃ w, (eval r c data).result = .ok w := by
  have hparts : ∃ values, (evalEach data (rule.parts.map (eval r))).result = .ok values := by
    rw [eval_eq_compose] at h
    cases rule with
    | arr items =>
      obtain ⟨values, hv, _⟩ := Outcome.bind_result_ok_iff.1 h
      exact ⟨values, hv⟩
    | obj entries =>
      cases entries with
      | nil => cases hc
      | cons entry rest => exact (dispatch_ok (fun op => he [] _ _ _ op .here) h).2.2
    | _ => cases hc
  obtain ⟨values, hv⟩ := hparts
  exact exists_ok_of_evalEach hv (List.mem_map_of_mem hc)

/-- If the rule succeeds, so does every node on the same data. -/
theorem exists_ok_of_position {r : Registry} {rule data w node : Value} {place : Place}
    (he : rule.IsEager) (h : (eval r rule data).result = .ok w) (hn : PositionAt rule place node) :
    node.IsEager ∧ ∃ w, (eval r node data).result = .ok w := by
  induction hn generalizing w with
  | here => exact ⟨he, w, h⟩
  | down _ hs _ ih =>
    obtain ⟨w, hw⟩ := exists_ok_of_mem_parts he h (mem_parts_of_mem_steps hs)
    exact ih (he.of_mem_steps hs) hw

/-- Is the operator unknown or the number of its arguments wrong? -/
def Problem.isOperatorFault : Problem → Bool
  | .unknownOperator .. => true
  | .tooFewArguments .. => true
  | .tooManyArguments .. => true
  | _ => false

theorem shapeProblems_not_operatorFault {op : Operator} {arguments : List Value} {problem : Problem}
    (h : problem ∈ shapeProblems op arguments) : problem.isOperatorFault = false := by
  unfold shapeProblems at h
  split at h
  · unfold varProblems at h
    split at h
    · obtain rfl := List.mem_singleton.1 h
      rfl
    · obtain rfl := List.mem_singleton.1 h
      rfl
    · cases h
  · rcases List.mem_append.1 h with h | h
    · obtain rfl := eq_of_mem_ite h
      rfl
    · obtain rfl := eq_of_mem_ite h
      rfl
  · obtain rfl := eq_of_mem_ite h
    rfl
  · obtain rfl := eq_of_mem_ite h
    rfl
  · unfold reduceProblems at h
    split at h
    · rw [← ite_not] at h
      obtain rfl := eq_of_mem_ite h
      rfl
    · cases h
  · cases h

theorem problems_not_operatorFault {custom : Allowlist} {name : String} {v : Value}
    {rest : List (String × Value)} (hk : custom.accepts name = true)
    (hn : ∀ op, Operator.ofName? name = some op →
      op.arity.accepts (argumentsOf v).length = true) {problem : Problem}
    (h : problem ∈ (Value.obj ((name, v) :: rest)).problems custom) :
    problem.isOperatorFault = false := by
  simp only [Value.problems, nodeProblems, hk, if_true] at h
  rcases List.mem_append.1 h with h | h
  · obtain rfl := eq_of_mem_ite h
    rfl
  · unfold operatorProblems at h
    split at h
    · next op hb =>
      rw [arityProblems_eq_nil (hn op hb), List.nil_append] at h
      exact shapeProblems_not_operatorFault h
    · cases h

/-- **What is found fails.**  Where every argument is evaluated, an unknown operator or a wrong
number of arguments in the report makes the evaluation fail on all data; so a rule that succeeds on
some data has no such error. -/
theorem evaluate_fails_of_found (ev : Evaluator) (rule : Value) (he : rule.IsEager) :
    (∀ data w, (ev.evaluate rule data).result = .ok w →
      ∀ f ∈ (ev.validate rule).errors, f.problem.isOperatorFault = false) ∧
    (∀ f ∈ (ev.validate rule).errors, f.problem.isOperatorFault = true →
      ∀ data, ∃ e, (ev.evaluate rule data).result = .error e) := by
  have hok : ∀ data w, (ev.evaluate rule data).result = .ok w →
      ∀ f ∈ (ev.validate rule).errors, f.problem.isOperatorFault = false := by
    intro data w h f hf
    obtain ⟨-, node, hn, hp, -⟩ := mem_errors_iff.1 hf
    obtain ⟨he, w, hw⟩ := exists_ok_of_position he h hn.position
    obtain ⟨name, v, rest, rfl⟩ := exists_operator_of_mem_problems hp
    rw [eval_rule] at hw
    obtain ⟨hk, ha, _⟩ := dispatch_ok (fun op => he [] _ _ _ op .here) hw
    rw [List.length_map] at ha
    exact problems_not_operatorFault ((accepts_allowlist ev name).trans hk) ha hp
  refine ⟨hok, fun f hf hfault data => ?_⟩
  cases h : (ev.evaluate rule data).result with
  | error e => exact ⟨e, rfl⟩
  | ok w =>
    rw [hok data w h f hf] at hfault
    cases hfault

theorem evaluate_fails_of_found_quotient :
    let rule := Value.obj [("+", .arr [.null, .obj [("/", .arr [.null])]])]
    rule.IsEager ∧
      ⟨⟨[.argument "+" 1], .tooFewArguments .div 1⟩, .error⟩ ∈
        (Evaluator.builtin.validate rule).errors ∧
      ∀ data, ∃ e, (Evaluator.builtin.evaluate rule data).result = .error e := by
  have hnull : Value.null.IsEager := .of_parts nofun nofun
  have hquotient : (Value.obj [("/", .arr [.null])]).IsEager := by
    refine .of_parts ?_ ?_
    · rintro _ _ _ ⟨⟩ _ ⟨⟩
      rfl
    · intro c hc
      exact List.mem_singleton.1 hc ▸ hnull
  have he : (Value.obj [("+", .arr [.null, .obj [("/", .arr [.null])]])]).IsEager := by
    refine .of_parts ?_ ?_
    · rintro _ _ _ ⟨⟩ _ ⟨⟩
      rfl
    · intro c hc
      obtain rfl | hc := List.mem_cons.1 hc
      · exact hnull
      · exact List.mem_singleton.1 hc ▸ hquotient
  intro rule
  have hf : ⟨⟨[.argument "+" 1], .tooFewArguments .div 1⟩, .error⟩ ∈
      (Evaluator.builtin.validate rule).errors := by decide
  exact ⟨he, hf, (evaluate_fails_of_found .builtin rule he).2 _ hf rfl⟩

end RuleLogic
