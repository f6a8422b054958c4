import RuleLogic.Proofs.Congruence

/-!
# Where failures come from

An evaluation fails because some node of the rule fails by itself.  Evaluation does not go on below
an unknown operator, so the operators above the failing node are all known.

    (eval r rule data).result = .error e → RaisedIn r rule e      (eval_raises)
-/

namespace RuleLogic

/-- Some node of the rule, below known operators only, raises the error. -/
def RaisedIn (r : Registry) (rule : Value) (e : EvalError) : Prop :=
  ∃ place name v rest, NodeAt r.knows rule place (.obj ((name, v) :: rest)) ∧
    Raises r name ((argumentsOf v).map (eval r)) e

theorem RaisedIn.of_mem_parts {r : Registry} {rule c : Value} {e : EvalError}
    (ho : rule.opens r.knows = true) (hc : c ∈ rule.parts) (h : RaisedIn r c e) :
    RaisedIn r rule e := by
  obtain ⟨place, name, v, rest, hn, he⟩ := h
  obtain ⟨s, hs⟩ := NodeAt.of_mem_parts ho hc hn
  exact ⟨s :: place, name, v, rest, hs, he⟩

theorem eval_raises {r : Registry} {rule data : Value} {e : EvalError}
    (h : (eval r rule data).result = .error e) : RaisedIn r rule e := by
  induction rule using Value.rule_induction generalizing data e with
  | h rule ih =>
    -- each part fails in a way that is raised in the rule, if evaluation reaches it
    have hparts : rule.opens r.knows = true → List.Forall₂
        (fun m m' => ∀ data, (Congruence.failsIn (RaisedIn r rule)).Rel (m data) (m' data))
        (rule.parts.map (eval r)) (rule.parts.map (eval r)) := by
      intro ho
      rw [List.forall₂_same]
      intro m hm data
      obtain ⟨c, hc, rfl⟩ := List.mem_map.1 hm
      exact ⟨rfl, fun e he => .of_mem_parts ho hc (ih c hc he)⟩
    cases rule with
    | arr items =>
      rw [eval_eq_compose] at h
      rcases Outcome.bind_result_error_iff.1 h with h | ⟨vs, _, h⟩
      · have hdata := (hparts rfl).imp fun m m' hm => hm data
        exact ((Congruence.failsIn _).evalEach hdata).2 e h
      · cases h
    | obj entries =>
      cases entries with
      | nil => cases h
      | cons entry rest =>
        obtain ⟨name, v⟩ := entry
        rw [eval_rule] at h
        have hroot {e : EvalError} (he : Raises r name ((argumentsOf v).map (eval r)) e) :
            RaisedIn r (.obj ((name, v) :: rest)) e := ⟨[], name, v, rest, .here, he⟩
        exact ((Congruence.failsIn _).dispatch (fun x hx => ⟨rfl, fun e he => hroot (hx e he)⟩)
          hparts data).2 e h
    | _ => cases h

end RuleLogic
