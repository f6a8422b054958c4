import RuleLogic.Proofs.Congruence

/-!
# The order of eager evaluation

Eager operators and custom operators evaluate their arguments from left to right, each of them once,
before they run.  The first failure ends the evaluation; only if there is none does the operator
run, and it runs on the values of all arguments.  What is refused for its name or for the number of
its arguments is refused before any argument is evaluated.

    the first failure is at a → log = the logs up to a, result = the failure of a
    all succeed with values → log = all logs, result = the operator's on values
                                                             (eager_evaluation)
-/

namespace RuleLogic

/-! ## All arguments -/

section
variable {data : Value} {arguments before after : List Meaning} {m : Meaning}

/-- Where all arguments succeed, all of them log. -/
theorem evalEach_eq_of_ok {values : List Value}
    (h : List.Forall₂ (fun m v => (m data).result = .ok v) arguments values) :
    evalEach data arguments = ⟨arguments.flatMap fun m => (m data).log, .ok values⟩ := by
  induction h with
  | nil => rfl
  | @cons m v rest vs hm _ ih =>
    rw [evalEach, Outcome.bind_ok hm, ih, List.flatMap_cons]
    exact Outcome.ext (congrArg ((m data).log ++ ·) (List.append_nil _)) rfl

/-- The first argument that fails is the last one that logs. -/
theorem evalEach_eq_of_error {e : EvalError}
    (hb : ∀ b ∈ before, ∃ v, (b data).result = .ok v) (hm : (m data).result = .error e) :
    evalEach data (before ++ m :: after) =
      ⟨(before ++ [m]).flatMap fun a => (a data).log, .error e⟩ := by
  induction before with
  | nil =>
    rw [List.nil_append, evalEach, Outcome.bind_error hm]
    exact Outcome.ext (List.append_nil _).symm rfl
  | cons b rest ih =>
    obtain ⟨v, hv⟩ := hb b List.mem_cons_self
    have hrest := ih fun a ha => hb a (List.mem_cons_of_mem b ha)
    rw [List.cons_append, evalEach, Outcome.bind_ok hv, hrest]
    rfl

/-- One list of arguments is evaluated behind the other. -/
theorem evalEach_append (xs ys : List Meaning) : evalEach data (xs ++ ys) = (do
    let vs ← evalEach data xs
    let ws ← evalEach data ys
    pure (vs ++ ws)) := by
  induction xs with
  | nil => simp only [List.nil_append, evalEach, pure_bind, bind_pure]
  | cons m rest ih =>
    rw [List.cons_append, evalEach, ih, evalEach]
    simp only [bind_assoc, pure_bind, List.cons_append]

end

/-! ## Eager operators -/

/-- What runs under a name once all arguments have values: the numbers of arguments that are
accepted, and what is done with the values on the data. -/
inductive Registry.Runs (r : Registry) :
    String → Arity → (Value → List Value → Outcome Value) → Prop
  | builtin {op : Operator} (hs : op.strategy = .eager) : Runs r op.name op.arity op.apply
  | custom {name : String} {f : CustomOperator} (hb : Operator.ofName? name = none)
    (hc : r.find? name = some f) : Runs r name f.arity fun _ values => .ofResult (f.call values)

section
variable {r : Registry} {name : String} {arity : Arity}
  {body : Value → List Value → Outcome Value} {arguments : List Meaning} {data : Value}
  {values : List Value}

/-- A name under which something runs is applied to the values of all arguments. -/
theorem Registry.Runs.dispatch_eq (h : r.Runs name arity body)
    (hn : arity.accepts arguments.length = true) :
    dispatch r name arguments data = evalEach data arguments >>= body data := by
  cases h with
  | builtin hs => rw [dispatch_name, Operator.run, if_pos hn, hs]
  | custom hb hc =>
    simp only [dispatch, hb, hc]
    rw [CustomOperator.run, if_pos hn]

/-- Only `log` logs, and what it logs is its operand. -/
theorem Registry.Runs.log_body (h : r.Runs name arity body)
    (hn : arity.accepts values.length = true) :
    (body data values).log = if name = Operator.log.name then values else [] := by
  cases h with
  | @builtin op hs =>
    by_cases hl : op = .log
    · subst hl
      obtain ⟨v, rfl⟩ := List.length_eq_one_iff.1 (Arity.accepts_exactly.1 hn)
      rfl
    · rw [Operator.apply_eq_ofResult hl, if_neg fun hname => hl (Operator.name_injective hname)]
      rfl
  | custom hb hc =>
    rw [if_neg]
    · rfl
    · rintro rfl
      cases hb

end

/-! ## Answers -/

/-- What an operator comes to on rules as its arguments. -/
def answer (r : Registry) (data : Value) (op : Operator) (rules : List Value) :
    Except EvalError Value :=
  (eval r (.obj [(op.name, .arr rules)]) data).result

/-- Each rule succeeds with its value. -/
def EvaluateTo (r : Registry) (data : Value) (rules values : List Value) : Prop :=
  List.Forall₂ (fun rule v => (eval r rule data).result = .ok v) rules values

/-- An eager operator answers with what it does on the values of its arguments. -/
theorem answer_eq_apply {r : Registry} {data : Value} {rules values : List Value} {op : Operator}
    (hs : op.strategy = .eager) (hn : op.arity.accepts values.length = true)
    (h : EvaluateTo r data rules values) :
    answer r data op rules = (op.apply data values).result := by
  have hcount : op.arity.accepts (argumentsOf (.arr rules)).length = true := by
    show op.arity.accepts rules.length = true
    rw [List.Forall₂.length_eq h]
    exact hn
  have hvalues : List.Forall₂ (fun m v => (m data).result = .ok v) (rules.map (eval r)) values :=
    List.forall₂_map_left_iff.2 h
  rw [answer, eval_eager hs hcount]
  show (evalEach data (rules.map (eval r)) >>= op.apply data).result = _
  rw [evalEach_eq_of_ok hvalues, Outcome.bind_ok rfl]

/-! ## Refusals -/

/-- The numbers of arguments that the operator of a name accepts, if the name stands for one. -/
def Registry.arity? (r : Registry) (name : String) : Option Arity :=
  match Operator.ofName? name with
  | some op => some op.arity
  | none => (r.find? name).map (·.arity)

section
variable {r : Registry} {name : String}

theorem dispatch_of_not_accepts {arity : Arity} {arguments : List Meaning}
    (h : r.arity? name = some arity) (hn : arity.accepts arguments.length = false) :
    dispatch r name arguments = fun _ => .fail (.arity name arity arguments.length) := by
  unfold Registry.arity? at h
  cases hb : Operator.ofName? name with
  | some op =>
    obtain rfl := Operator.name_of_ofName? hb
    simp only [hb, Option.some.injEq] at h
    subst h
    rw [dispatch_name, Operator.run, if_neg (by simp [hn])]
  | none =>
    simp only [hb] at h
    obtain ⟨f, hc, rfl⟩ := Option.map_eq_some_iff.1 h
    obtain rfl := Registry.name_of_find? hc
    simp only [dispatch, hb, hc]
    rw [CustomOperator.run, if_neg (by simp [hn])]

theorem dispatch_of_unknown (h : r.arity? name = none) (arguments : List Meaning) :
    dispatch r name arguments = fun _ => .fail (.unknownOperator name) := by
  unfold Registry.arity? at h
  cases hb : Operator.ofName? name with
  | some op => simp [hb] at h
  | none =>
    have hc : r.find? name = none := by simpa [hb] using h
    simp only [dispatch, hb, hc]

theorem Registry.Runs.arity?_eq {arity : Arity} {body : Value → List Value → Outcome Value}
    (h : r.Runs name arity body) : r.arity? name = some arity := by
  cases h with
  | builtin hs => simp only [Registry.arity?, Operator.ofName?_name]
  | custom hb hc => simp only [Registry.arity?, hb, hc, Option.map_some]

/-- What succeeds under a name has an accepted number of arguments, all of them succeed, and the
result is that on their values. -/
theorem Registry.Runs.exists_values {arity : Arity} {body : Value → List Value → Outcome Value}
    {v w data : Value} {rest : List (String × Value)} (h : r.Runs name arity body)
    (hw : (eval r (.obj ((name, v) :: rest)) data).result = .ok w) :
    arity.accepts (argumentsOf v).length = true ∧
      ∃ values, EvaluateTo r data (argumentsOf v) values ∧ (body data values).result = .ok w := by
  rw [eval_rule] at hw
  cases hn : arity.accepts ((argumentsOf v).map (eval r)).length with
  | false =>
    rw [dispatch_of_not_accepts h.arity?_eq hn] at hw
    cases hw
  | true =>
    rw [h.dispatch_eq hn] at hw
    obtain ⟨values, hvalues, hbody⟩ := Outcome.bind_result_ok_iff.1 hw
    rw [List.length_map] at hn
    exact ⟨hn, values, List.forall₂_map_left_iff.1 (forall₂_of_evalEach hvalues), hbody⟩

end

/-- An eager operator answers alike on two operands if it does the same on their values among any
others. -/
theorem answer_congr_operand {r : Registry} {data P Q v w : Value} {op : Operator}
    {front back : List Value} (hs : op.strategy = .eager) (hP : (eval r P data).result = .ok v)
    (hQ : (eval r Q data).result = .ok w)
    (h : ∀ us ws : List Value, us.length = front.length →
      (op.apply data (us ++ v :: ws)).result = (op.apply data (us ++ w :: ws)).result) :
    answer r data op (front ++ P :: back) = answer r data op (front ++ Q :: back) := by
  have hcount (rule : Value) : ((front ++ rule :: back).map (eval r)).length =
      front.length + (back.length + 1) := by
    rw [List.length_map, List.length_append, List.length_cons]
  have hrule (rule : Value) : answer r data op (front ++ rule :: back) =
      (dispatch r op.name ((front ++ rule :: back).map (eval r)) data).result := by
    rw [answer, eval_rule]
    rfl
  have hruns : r.Runs op.name op.arity op.apply := .builtin hs
  rw [hrule, hrule]
  cases hn : op.arity.accepts (front.length + (back.length + 1)) with
  | false =>
    rw [dispatch_of_not_accepts hruns.arity?_eq (by rwa [hcount]),
      dispatch_of_not_accepts hruns.arity?_eq (by rwa [hcount]), hcount, hcount]
  | true =>
    rw [hruns.dispatch_eq (by rwa [hcount]), hruns.dispatch_eq (by rwa [hcount])]
    simp only [List.map_append, List.map_cons, evalEach_append, evalEach, bind_assoc, pure_bind]
    refine Congruence.sameResult.bind rfl fun us hus _ => ?_
    have hlength : us.length = front.length := by
      rw [← (forall₂_of_evalEach hus).length_eq, List.length_map]
    show (eval r P data >>= _).result = (eval r Q data >>= _).result
    rw [Outcome.bind_ok hP, Outcome.bind_ok hQ]
    exact Congruence.sameResult.bind rfl fun ws _ _ => h us ws hlength

/-! ## Applications -/

/-- **Eager evaluation goes from left to right, once, and all or nothing.**  An eager or custom
operator with an accepted number of arguments fails as the first argument that fails, and the log
ends with this argument's; if all arguments succeed, all have logged and the operator runs on their
values, of which only `log` logs its own.  An unknown name and a number that is not accepted are
refused with nothing logged, whatever the arguments are. -/
theorem eager_evaluation (r : Registry) (name : String) (v data : Value)
    (rest : List (String × Value)) :
    (∀ arity body, r.Runs name arity body → arity.accepts (argumentsOf v).length = true →
      (∀ before a after e, argumentsOf v = before ++ a :: after →
        (∀ b ∈ before, ∃ w, (eval r b data).result = .ok w) → (eval r a data).result = .error e →
        eval r (.obj ((name, v) :: rest)) data =
          ⟨(before ++ [a]).flatMap fun b => (eval r b data).log, .error e⟩) ∧
      ∀ values, List.Forall₂ (fun a w => (eval r a data).result = .ok w) (argumentsOf v) values →
        eval r (.obj ((name, v) :: rest)) data =
          ⟨((argumentsOf v).flatMap fun a => (eval r a data).log)
              ++ (if name = Operator.log.name then values else []),
            (body data values).result⟩) ∧
    (∀ arity, r.arity? name = some arity → arity.accepts (argumentsOf v).length = false →
      eval r (.obj ((name, v) :: rest)) data =
        ⟨[], .error (.arity name arity (argumentsOf v).length)⟩) ∧
    (r.arity? name = none →
      eval r (.obj ((name, v) :: rest)) data = ⟨[], .error (.unknownOperator name)⟩) := by
  have hcount : ((argumentsOf v).map (eval r)).length = (argumentsOf v).length := List.length_map _
  rw [eval_rule]
  refine ⟨fun arity body hr hn => ?_, fun arity ha hn => ?_, fun ha => ?_⟩
  · rw [hr.dispatch_eq (by rwa [hcount])]
    refine ⟨fun before a after e hv hb he => ?_, fun values hvalues => ?_⟩
    · have heach : evalEach data ((argumentsOf v).map (eval r)) =
          ⟨((before ++ [a]).map (eval r)).flatMap fun m => (m data).log, .error e⟩ := by
        simp only [hv, List.map_append, List.map_cons, List.map_nil]
        exact evalEach_eq_of_error (List.forall_mem_map.2 hb) he
      rw [heach, Outcome.bind_error rfl, List.flatMap_map]
    · have heach : evalEach data ((argumentsOf v).map (eval r)) =
          ⟨((argumentsOf v).map (eval r)).flatMap fun m => (m data).log, .ok values⟩ :=
        evalEach_eq_of_ok (List.forall₂_map_left_iff.2 hvalues)
      rw [heach, Outcome.bind_ok rfl, hr.log_body (by rwa [← hvalues.length_eq]),
        List.flatMap_map]
  · rw [dispatch_of_not_accepts ha (by rwa [hcount]), hcount]
    rfl
  · rw [dispatch_of_unknown ha]
    rfl

theorem eager_evaluation_second_fails :
    let pair : CustomOperator := ⟨"pair", 2, 3, fun values => .ok (.arr values)⟩
    let r := Registry.ofList [pair]
    let logA := Value.obj [("log", .arr [.str "a"])]
    let failing := Value.obj [("nope", .arr [logA])]
    eval r (.obj [("pair", .arr [logA, failing, logA])]) .null =
        ⟨[.str "a"], .error (.unknownOperator "nope")⟩ ∧
      eval r (.obj [("pair", .arr [logA, logA])]) .null =
        ⟨[.str "a", .str "a"], .ok (.arr [.str "a", .str "a"])⟩ ∧
      eval r (.obj [("log", .arr [logA])]) .null = ⟨[.str "a", .str "a"], .ok (.str "a")⟩ ∧
      eval r (.obj [("pair", .arr [logA])]) .null = ⟨[], .error (.arity "pair" pair.arity 1)⟩ ∧
      eval r failing .null = ⟨[], .error (.unknownOperator "nope")⟩ := by
  intro pair r logA failing
  have hpair : r.Runs "pair" pair.arity fun _ values => .ofResult (pair.call values) :=
    .custom rfl rfl
  have hlog : r.Runs "log" Operator.log.arity Operator.log.apply :=
    @Registry.Runs.builtin r .log rfl
  have hfailing : eval r failing .null = ⟨[], .error (.unknownOperator "nope")⟩ :=
    (eager_evaluation r "nope" (.arr [logA]) .null []).2.2 rfl
  refine ⟨?_, ?_, ?_, ?_, hfailing⟩
  · refine ((eager_evaluation r "pair" _ .null []).1 _ _ hpair rfl).1 [logA] failing [logA] _ rfl ?_
      (by rw [hfailing])
    exact List.forall_mem_singleton.2 ⟨.str "a", rfl⟩
  · exact ((eager_evaluation r "pair" (.arr [logA, logA]) .null []).1 _ _ hpair rfl).2
      [.str "a", .str "a"] (.cons rfl (.cons rfl .nil))
  · exact ((eager_evaluation r "log" (.arr [logA]) .null []).1 _ _ hlog rfl).2 [.str "a"]
      (.cons rfl .nil)
  · exact (eager_evaluation r "pair" (.arr [logA]) .null []).2.1 pair.arity rfl rfl

end RuleLogic
