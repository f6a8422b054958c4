import RuleLogic.Proofs.ShortCircuit

/-!
# Searches and negation

`and` and `or` search their arguments for a truth and end with the argument that has it, or else
with the last one.  Negation turns the truths around.  So a search among negated arguments for one
truth ends where the search among the arguments for the other does, with the same failure or with
the negated value.

    consult stop (m :: arguments) = m, then arguments unless m decides              (consult_cons)
    consult (!stop) (arguments, all negated) = consult stop arguments, negated    (consult_negated)
    {!: {and: rules}} does what {or: (rules, all negated)} does             (negation_distributes)
-/

namespace RuleLogic

/-! ## Searches -/

section
variable {stop : Bool} {m : Meaning} {arguments : List Meaning} {data : Value}

/-- A search goes on behind an argument that succeeds and does not decide. -/
theorem consult_cons (hne : arguments ≠ []) : Branch.consult stop (m :: arguments) data = (do
    let v ← m data
    if v.truthy == stop then pure v else Branch.consult stop arguments data) := by
  cases arguments with
  | nil => exact absurd rfl hne
  | cons next rest => rfl

end

/-- The operators that search their arguments, and the truths that they search for. -/
inductive Operator.Searches : Operator → Bool → Prop
  | and : Searches .and false
  | or : Searches .or true

theorem Operator.Searches.eval_eq {r : Registry} {op : Operator} {stop : Bool} {rules : List Value}
    (h : op.Searches stop) (hne : rules ≠ []) :
    eval r (.obj [(op.name, .arr rules)]) = Branch.consult stop (rules.map (eval r)) := by
  have hs : op.strategy = .shortCircuit := by cases h <;> rfl
  have hother : ¬ (op = .choose ∨ op = .ternary) := by cases h <;> decide
  have hn : op.arity.accepts (argumentsOf (.arr rules)).length = true :=
    (accepts_shortCircuit hs).2 ⟨List.length_pos_iff.2 hne, fun hop => absurd hop hother⟩
  rw [eval_shortCircuit hs hn]
  cases h <;> rfl

/-! ## Negation -/

/-- The rule that negates what a rule gives. -/
def Value.negated (rule : Value) : Value := .obj [("!", .arr [rule])]

/-- An outcome with its value turned into the opposite truth; a failure stays as it is. -/
def Outcome.negated (x : Outcome Value) : Outcome Value := do
  let v ← x
  pure (.bool (!v.truthy))

theorem eval_negated (r : Registry) (rule data : Value) :
    eval r rule.negated data = (eval r rule data).negated :=
  eval_unary .not rfl rfl

/-- A search among negated arguments is the search for the other truth, negated. -/
theorem consult_negated {stop : Bool} {arguments : List Meaning} {data : Value}
    (hne : arguments ≠ []) :
    Branch.consult (!stop) (arguments.map fun m data => (m data).negated) data =
      (Branch.consult stop arguments data).negated := by
  induction arguments with
  | nil => exact absurd rfl hne
  | cons m rest ih =>
    cases rest with
    | nil => rfl
    | cons next rest =>
      have hnext := ih (List.cons_ne_nil next rest)
      rw [List.map_cons, consult_cons (by simp), consult_cons (List.cons_ne_nil next rest), hnext]
      unfold Outcome.negated
      rw [bind_assoc, bind_assoc]
      refine bind_congr fun v => ?_
      rw [pure_bind, Value.truthy_bool]
      -- a value decides for one search exactly if its negation does for the other
      by_cases hv : v.truthy = stop
      · rw [if_pos (by simp [hv]), if_pos (by simp [hv]), pure_bind]
      · rw [if_neg (by simpa using hv), if_neg (by simpa using hv)]

theorem Operator.Searches.negated_eq {op op' : Operator} {stop : Bool} {rules : List Value}
    (h : op.Searches stop) (h' : op'.Searches !stop) (hne : rules ≠ []) (r : Registry)
    (data : Value) : eval r (Value.negated (.obj [(op.name, .arr rules)])) data =
      eval r (.obj [(op'.name, .arr (rules.map Value.negated))]) data := by
  have hmeaning : (rules.map Value.negated).map (eval r) =
      (rules.map (eval r)).map fun m data => (m data).negated := by
    rw [List.map_map, List.map_map]
    refine List.map_congr_left fun rule _ => ?_
    funext data
    exact eval_negated r rule data
  rw [eval_negated, h.eval_eq hne, h'.eval_eq (by simpa using hne), hmeaning,
    consult_negated (by simpa using hne)]

/-- **Negation distributes over `and` and `or`.**  Negating an `and` does what an `or` of the negated
arguments does, and negating an `or` what an `and` of them does: the same arguments are evaluated,
with the same log, to the same failure or the same value. -/
theorem negation_distributes (r : Registry) (rules : List Value) (data : Value)
    (hne : rules ≠ []) :
    eval r (Value.negated (.obj [("and", .arr rules)])) data =
        eval r (.obj [("or", .arr (rules.map Value.negated))]) data ∧
      eval r (Value.negated (.obj [("or", .arr rules)])) data =
        eval r (.obj [("and", .arr (rules.map Value.negated))]) data :=
  ⟨Operator.Searches.and.negated_eq .or hne r data,
    Operator.Searches.or.negated_eq .and hne r data⟩

theorem negation_distributes_second_decides :
    let logs (v : Value) := Value.obj [("log", .arr [v])]
    let rules := [logs (.str "x"), logs (.arr []), .obj [("nope", .arr [])]]
    rules ≠ [] ∧
      eval .empty (Value.negated (.obj [("and", .arr rules)])) .null =
        ⟨[.str "x", .arr []], .ok (.bool true)⟩ ∧
      eval .empty (.obj [("or", .arr (rules.map Value.negated))]) .null =
        ⟨[.str "x", .arr []], .ok (.bool true)⟩ ∧
      eval .empty (.obj [("and", .arr (rules.map Value.negated))]) .null =
        ⟨[.str "x"], .ok (.bool false)⟩ := by
  intro logs rules
  have hne : rules ≠ [] := List.cons_ne_nil _ _
  obtain ⟨hand, hor⟩ := negation_distributes .empty rules .null hne
  exact ⟨hne, rfl, hand.symm.trans rfl, hor.symm.trans rfl⟩

end RuleLogic
