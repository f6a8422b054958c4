import RuleLogic.Proofs.Problems
import RuleLogic.Proofs.Rule
import RuleLogic.Evaluator

/-!
# What validation finds

Validation finds exactly the problems of the nodes that it visits, each at the place of its node,
and it visits the nodes below accepted operators.

    f ∈ findings custom [] rule ↔ f is a problem of the node at f.place      (mem_findings_iff)
-/

namespace RuleLogic

open Validation

/-- The problems of a node itself. -/
def Value.problems (custom : Allowlist) : Value → List Problem
  | .obj ((name, v) :: rest) => nodeProblems custom name v (rest.length + 1)
  | _ => []

variable {custom : Allowlist}

/-! ## As lists -/

theorem itemFindings_eq (place : Nat → Place) (index : Nat) (items : List Value) :
    itemFindings custom place index items =
      (items.zipIdx index).flatMap fun (c, i) => findings custom (place i) c := by
  induction items generalizing index with
  | nil => rfl
  | cons v rest ih => rw [itemFindings, ih, List.zipIdx_cons, List.flatMap_cons]

theorem itemFindings_eq_flatMap (place : Place) (step : Nat → Step) (items : List Value) :
    itemFindings custom (fun i => place ++ [step i]) 0 items =
      (items.zipIdx.map fun (c, i) => (step i, c)).flatMap fun (s, c) =>
        findings custom (place ++ [s]) c := by
  rw [itemFindings_eq, List.flatMap_map]

/-- The problems of a node come first, then the findings of its parts from left to right. -/
theorem findings_eq (place : Place) (v : Value) :
    findings custom place v = (v.problems custom).map (⟨place, ·⟩) ++
      if v.opens custom.accepts then v.steps.flatMap fun (s, c) => findings custom (place ++ [s]) c
      else [] := by
  match v with
  | .null | .bool _ | .num _ | .str _ | .obj [] => simp [findings, Value.problems, Value.steps]
  | .arr items =>
    simp only [findings, Value.problems, Value.steps, Value.opens, if_true, List.map_nil,
      List.nil_append]
    exact itemFindings_eq_flatMap place .item items
  | .obj ((name, .arr items) :: rest) =>
    rw [findings, itemFindings_eq_flatMap place (.argument name) items]
    rfl
  | .obj ((name, .null) :: _) | .obj ((name, .bool _) :: _) | .obj ((name, .num _) :: _)
  | .obj ((name, .str _) :: _) | .obj ((name, .obj _) :: _) =>
    simp [findings, Value.problems, Value.steps, Value.opens]

/-! ## Which findings there are -/

/-- The problems of the visited nodes, each at the place of its node. -/
theorem mem_findings_iff {f : Finding} {place : Place} {rule : Value} :
    f ∈ findings custom place rule ↔ ∃ p node, NodeAt custom.accepts rule p node ∧
      f.place = place ++ p ∧ f.problem ∈ node.problems custom := by
  constructor
  · intro h
    induction rule using Value.rule_induction generalizing place with
    | h rule ih =>
      rw [findings_eq, List.mem_append] at h
      rcases h with h | h
      · obtain ⟨problem, hp, rfl⟩ := List.mem_map.1 h
        exact ⟨[], rule, .here, (List.append_nil _).symm, hp⟩
      · split at h
        · next ho =>
          obtain ⟨⟨s, c⟩, hs, hf⟩ := List.mem_flatMap.1 h
          obtain ⟨p, node, hn, hp, hf⟩ := ih c (mem_parts_of_mem_steps hs) hf
          refine ⟨s :: p, node, .down ho hs hn, ?_, hf⟩
          rw [hp, List.append_assoc, List.singleton_append]
        · cases h
  · rintro ⟨p, node, hn, hp, hf⟩
    induction hn generalizing place with
    | @here v =>
      rw [findings_eq, List.mem_append]
      refine .inl (List.mem_map.2 ⟨f.problem, hf, ?_⟩)
      rw [← List.append_nil place, ← hp]
    | @down v c node s p ho hs _ ih =>
      rw [findings_eq, List.mem_append, if_pos ho]
      refine .inr (List.mem_flatMap.2 ⟨(s, c), hs, ih ?_ hf⟩)
      rw [hp, List.append_assoc, List.singleton_append]

/-- A rule by itself stands at the root, so the finding is at the place of the node. -/
theorem mem_findings_root_iff {f : Finding} {rule : Value} : f ∈ findings custom [] rule ↔
    ∃ node, NodeAt custom.accepts rule f.place node ∧ f.problem ∈ node.problems custom := by
  rw [mem_findings_iff]
  constructor
  · rintro ⟨p, node, hn, hp, hf⟩
    rw [List.nil_append] at hp
    exact ⟨node, hp ▸ hn, hf⟩
  · rintro ⟨node, hn, hf⟩
    exact ⟨f.place, node, hn, rfl, hf⟩

theorem mem_reported_iff {f : Reported} {severity : Severity} {rule : Value} :
    f ∈ Report.reported severity (findings custom [] rule) ↔ f.severity = severity ∧
      ∃ node, NodeAt custom.accepts rule f.place node ∧ f.problem ∈ node.problems custom ∧
        f.problem.severity = severity := by
  obtain ⟨g, given⟩ := f
  rw [Report.reported, List.mem_map]
  constructor
  · rintro ⟨g, hg, heq⟩
    cases heq
    obtain ⟨node, hn, hp⟩ := mem_findings_root_iff.1 (List.mem_of_mem_filter hg)
    have hs := List.of_mem_filter hg
    exact ⟨rfl, node, hn, hp, of_decide_eq_true hs⟩
  · rintro ⟨rfl, node, hn, hp, hs⟩
    exact ⟨g, List.mem_filter.2 ⟨mem_findings_root_iff.2 ⟨node, hn, hp⟩, decide_eq_true hs⟩, rfl⟩

theorem mem_errors_iff {f : Reported} {rule : Value} :
    f ∈ (validate custom rule).errors ↔ f.severity = .error ∧
      ∃ node, NodeAt custom.accepts rule f.place node ∧ f.problem ∈ node.problems custom ∧
        f.problem.severity = .error := by
  rw [errors_validate, mem_reported_iff]

/-- A problem of a visited node is reported. -/
theorem mem_errors_of_problem {place : Place} {rule node : Value} {problem : Problem}
    (hn : NodeAt custom.accepts rule place node) (hp : problem ∈ node.problems custom)
    (hs : problem.severity = .error) :
    ⟨⟨place, problem⟩, .error⟩ ∈ (validate custom rule).errors :=
  mem_errors_iff.2 ⟨rfl, node, hn, hp, hs⟩

theorem errors_eq_nil_of_valid {rule : Value} (hv : (validate custom rule).valid = true) :
    (validate custom rule).errors = [] :=
  isConsistent_validate.valid_iff.1 hv

theorem mem_warnings_iff {f : Reported} {rule : Value} :
    f ∈ (validate custom rule).warnings ↔ f.severity = .warning ∧
      ∃ node, NodeAt custom.accepts rule f.place node ∧ f.problem ∈ node.problems custom ∧
        f.problem.severity = .warning := by
  rw [warnings_validate, mem_reported_iff]

/-- Whatever a report holds is a problem of a node. -/
theorem exists_nodeAt_of_mem {f : Reported} {rule : Value}
    (hf : f ∈ (validate custom rule).errors ++ (validate custom rule).warnings) :
    ∃ node, NodeAt custom.accepts rule f.place node ∧ f.problem ∈ node.problems custom := by
  rcases List.mem_append.1 hf with hf | hf
  · obtain ⟨-, node, hn, hproblem, -⟩ := mem_errors_iff.1 hf
    exact ⟨node, hn, hproblem⟩
  · obtain ⟨-, node, hn, hproblem, -⟩ := mem_warnings_iff.1 hf
    exact ⟨node, hn, hproblem⟩

end RuleLogic
