import RuleLogic.Proofs.Congruence
import RuleLogic.Evaluator

/-!
# What a rule sees of custom operators

A rule sees a custom operator only under a name that the rule applies and that is not built in.  Of
the operator itself it sees which numbers of arguments are accepted, and what the operator does with
so many.

    r and r' are alike under the custom names of rule → eval r rule = eval r' rule
                                                             (eval_congr_registry)
-/

namespace RuleLogic

/-- Operators that accept the same numbers of arguments and do the same with so many. -/
structure CustomOperator.Alike (f g : CustomOperator) : Prop where
  least : f.least = g.least
  most : f.most = g.most
  call : ∀ values, f.arity.accepts values.length = true → f.call values = g.call values

/-- Under the name there is no operator in either registry, or there are two that are alike. -/
def Registry.AlikeUnder (name : String) (r r' : Registry) : Prop :=
  Option.Rel CustomOperator.Alike (r.find? name) (r'.find? name)

/-! ## Alike operators -/

namespace CustomOperator

theorem Alike.refl (f : CustomOperator) : f.Alike f :=
  ⟨rfl, rfl, fun _ _ => rfl⟩

theorem Alike.arity_eq {f g : CustomOperator} (h : f.Alike g) : f.arity = g.arity := by
  rw [arity, arity, h.least, h.most]

/-- The count of the arguments is checked before the call, and all of them have values by then. -/
theorem Alike.run_eq {f g : CustomOperator} (h : f.Alike g) (hn : f.name = g.name)
    (arguments : List Meaning) : f.run arguments = g.run arguments := by
  funext data
  unfold run
  rw [← h.arity_eq, ← hn]
  split
  · next hc =>
    refine Congruence.same.bind rfl fun values hv _ => ?_
    rw [(forall₂_of_evalEach hv).length_eq] at hc
    exact congrArg Outcome.ofResult (h.call values hc)
  · rfl

end CustomOperator

/-! ## Alike registries -/

section
variable {r r' : Registry} {name : String}

theorem Registry.AlikeUnder.of_eq (h : r.find? name = r'.find? name) : r.AlikeUnder name r' := by
  unfold Registry.AlikeUnder
  rw [h]
  cases r'.find? name with
  | none => exact .none
  | some f => exact .some (.refl f)

theorem Registry.alikeUnder_register {f : CustomOperator} (h : name ≠ f.name) :
    (r.register f).AlikeUnder name r :=
  .of_eq (r.find?_register_of_ne h)

theorem dispatch_congr_registry (h : Operator.ofName? name = none → r.AlikeUnder name r')
    (arguments : List Meaning) : dispatch r name arguments = dispatch r' name arguments := by
  cases hb : Operator.ofName? name with
  | some op => simp only [dispatch, hb]
  | none =>
    have hr := h hb
    unfold Registry.AlikeUnder at hr
    generalize hf : r.find? name = f?, hg : r'.find? name = g? at hr
    cases hr with
    | none => simp only [dispatch, hb, hf, hg]
    | some hfg =>
      have hn := (Registry.name_of_find? hf).trans (Registry.name_of_find? hg).symm
      simp only [dispatch, hb, hf, hg]
      exact hfg.run_eq hn arguments

/-- A rule means the same with registries that are alike under the custom names that it applies. -/
theorem eval_congr_registry {rule : Value} (h : ∀ name ∈ rule.operators,
      Operator.ofName? name = none → r.AlikeUnder name r') : eval r rule = eval r' rule := by
  induction rule using Value.rule_induction with
  | h rule ih =>
    have hparts : rule.parts.map (eval r) = rule.parts.map (eval r') :=
      List.map_congr_left fun c hc =>
        ih c hc fun name hn => h name (Value.mem_operators_of_mem_parts hc hn)
    rw [eval_eq_compose, eval_eq_compose, hparts]
    match rule with
    | .obj ((name, v) :: rest) =>
      exact dispatch_congr_registry (h name Value.mem_operators_self) _
    | .obj [] | .arr _ | .null | .bool _ | .num _ | .str _ => rfl

end

/-! ## What evaluators show -/

/-- **Custom operators matter only by name, accepted counts and what they do with so many.**
Evaluators whose operators are alike under the custom names of a rule give it the same results and
the same logs.  So it shows nothing to register an operator under a built-in name or under a name
that the rule does not apply, nor what an operator does with other numbers of arguments. -/
theorem evaluate_sees_alike (rule data : Value) :
    (∀ ev ev' : Evaluator, (∀ name ∈ rule.operators, Operator.ofName? name = none →
        ev.registry.AlikeUnder name ev'.registry) →
      ev.evaluate rule data = ev'.evaluate rule data) ∧
    (∀ (ev : Evaluator) (f : CustomOperator),
      (Operator.ofName? f.name).isSome = true ∨ f.name ∉ rule.operators →
      (ev.register f).evaluate rule data = ev.evaluate rule data) ∧
    ∀ (ev : Evaluator) (f g : CustomOperator), f.name = g.name → f.Alike g →
      (ev.register f).evaluate rule data = (ev.register g).evaluate rule data := by
  refine ⟨fun ev ev' h => congrFun (eval_congr_registry h) data, fun ev f hf => ?_,
    fun ev f g hn hfg => ?_⟩
  · refine congrFun (eval_congr_registry fun name hm hb => Registry.alikeUnder_register ?_) data
    rintro rfl
    rcases hf with hf | hf
    · rw [hb] at hf
      cases hf
    · exact hf hm
  · refine congrFun (eval_congr_registry fun name _ _ => ?_) data
    by_cases h : name = f.name
    · unfold Registry.AlikeUnder Evaluator.register
      rw [h, Registry.find?_register_self, hn, Registry.find?_register_self]
      exact .some hfg
    · refine .of_eq ?_
      show (ev.registry.register f).find? name = (ev.registry.register g).find? name
      rw [Registry.find?_register_of_ne _ h, Registry.find?_register_of_ne _ (hn ▸ h)]

theorem evaluate_sees_alike_first :
    let rule := Value.obj [("cat", .arr [.obj [("first", .arr [.str "a", .str "b"])], .str "c"])]
    let f : CustomOperator := ⟨"first", 1, 5, fun values => .ok (values.head?.getD .null)⟩
    let g : CustomOperator := ⟨"first", 1, 5, fun
      | v :: _ => .ok v
      | [] => .error (.custom "first" "no values")⟩
    let shadow : CustomOperator := ⟨"cat", 0, 10, fun _ => .ok (.str "shadowed")⟩
    let evF := Evaluator.builtin.register f
    let evG := Evaluator.builtin.register g
    f.Alike g ∧ f.call [] ≠ g.call [] ∧
      (∀ name ∈ rule.operators, Operator.ofName? name = none →
        (evF.register shadow).registry.AlikeUnder name evG.registry) ∧
      (evF.register shadow).evaluate rule .null = evG.evaluate rule .null ∧
      (Operator.ofName? shadow.name).isSome = true ∧
      (evF.register shadow).evaluate rule .null = evF.evaluate rule .null ∧
      evF.evaluate rule .null = evG.evaluate rule .null ∧
      evG.evaluate rule .null = pure (.str "ac") := by
  intro rule f g shadow evF evG
  have hfg : f.Alike g := by
    refine ⟨rfl, rfl, fun values hc => ?_⟩
    cases values with
    | nil => cases hc
    | cons v rest => rfl
  have hnames : ∀ name ∈ rule.operators, Operator.ofName? name = none →
      (evF.register shadow).registry.AlikeUnder name evG.registry := by
    intro name hm hb
    have hfirst : name ∈ ["cat", "first"] := hm
    rcases List.mem_pair.1 hfirst with rfl | rfl
    · cases hb
    · exact .some hfg
  exact ⟨hfg, nofun, hnames, (evaluate_sees_alike rule .null).1 _ _ hnames, rfl,
    (evaluate_sees_alike rule .null).2.1 evF shadow (.inl rfl),
    (evaluate_sees_alike rule .null).2.2 .builtin f g rfl hfg, rfl⟩

end RuleLogic
