import RuleLogic.Proofs.EagerOrder
import RuleLogic.Proofs.Searches

/-!
# Nested applications

Where an operator is applied among its own arguments, the inner arguments may often stand in place
of the application.  `cat` and `merge` join what their operands give, whether they do so at once or
in parts, and `and` and `or` search the arguments of both lists as one.  Conditions and branches in
turn are a chain, and what follows the first branch may be nested as a chain of its own.

    {op: front ++ [{op: inner}] ++ back} does what {op: front ++ inner ++ back} does
                                                                          (nested_arguments_splice)
    {if: C :: T :: rest} does what {if: [C, T, the chain of rest]} does              (chains_nest)
-/

namespace RuleLogic

/-! ## Joins -/

/-- The operators that join their operands, and how they do so. -/
inductive Operator.Joins : Operator → (List Value → Value) → Prop
  | merge : Joins .merge fun values => .arr (Eager.merge values)
  | cat : Joins .cat Text.join

namespace Operator.Joins

variable {r : Registry} {op : Operator} {join : List Value → Value} {data : Value}

theorem eval_eq (h : op.Joins join) {rules : List Value} (hne : rules ≠ []) :
    eval r (.obj [(op.name, .arr rules)]) data = (do
      let values ← evalEach data (rules.map (eval r))
      pure (join values)) := by
  have hs : op.strategy = .eager := by cases h <;> rfl
  have harity : op.arity = .atLeast 1 := by cases h <;> rfl
  have hn : op.arity.accepts (argumentsOf (.arr rules)).length = true := by
    rw [harity]
    exact Arity.accepts_atLeast.2 (List.length_pos_iff.2 hne)
  rw [eval_eager hs hn]
  cases h <;> rfl

/-- What has been joined gives to a join around it what its operands would. -/
theorem nested (h : op.Joins join) (front inner back : List Value) :
    join (front ++ join inner :: back) = join (front ++ inner ++ back) := by
  cases h with
  | merge => simp only [Eager.merge, List.flatMap_append, List.flatMap_cons, List.append_assoc]
  | cat =>
    simp only [Text.join, List.flatMap_append, List.flatMap_cons, Value.plain, String.toList_ofList,
      List.append_assoc]

theorem eval_nested (h : op.Joins join) {front inner back : List Value} (hne : inner ≠ []) :
    eval r (.obj [(op.name, .arr (front ++ .obj [(op.name, .arr inner)] :: back))]) data =
      eval r (.obj [(op.name, .arr (front ++ inner ++ back))]) data := by
  rw [h.eval_eq (by simp), h.eval_eq (by simp [hne])]
  simp only [List.map_append, List.map_cons, evalEach_append, evalEach, h.eval_eq hne, bind_assoc,
    pure_bind]
  refine bind_congr fun vs => bind_congr fun us => bind_congr fun ws => ?_
  rw [h.nested]

end Operator.Joins

/-! ## Searches -/

section
variable {stop : Bool} {front inner back : List Meaning} {data : Value}

/-- A search that begins with a search goes on with the arguments behind it. -/
theorem consult_nested_head (hne : inner ≠ []) :
    Branch.consult stop (Branch.consult stop inner :: back) data =
      Branch.consult stop (inner ++ back) data := by
  cases back with
  | nil =>
    rw [List.append_nil]
    rfl
  | cons next back =>
    induction inner with
    | nil => exact absurd rfl hne
    | cons m rest ih =>
      cases rest with
      | nil => rfl
      | cons n rest =>
        have hback : next :: back ≠ [] := List.cons_ne_nil next back
        have hrest := ih (List.cons_ne_nil n rest)
        rw [consult_cons hback] at hrest
        have hboth : n :: rest ++ next :: back ≠ [] := List.cons_ne_nil n _
        rw [consult_cons hback, consult_cons (List.cons_ne_nil n rest), List.cons_append,
          consult_cons hboth, ← hrest, bind_assoc]
        refine bind_congr fun v => ?_
        split
        · next hv => rw [pure_bind, if_pos hv]
        · rfl

theorem consult_nested (hne : inner ≠ []) :
    Branch.consult stop (front ++ Branch.consult stop inner :: back) data =
      Branch.consult stop (front ++ inner ++ back) data := by
  induction front with
  | nil => exact consult_nested_head hne
  | cons m rest ih =>
    rw [List.cons_append, consult_cons (by simp), ih, List.cons_append, List.cons_append,
      consult_cons (by simp [hne])]

end

theorem Operator.Searches.eval_nested {op : Operator} {stop : Bool} (h : op.Searches stop)
    {r : Registry} {front inner back : List Value} {data : Value} (hne : inner ≠ []) :
    eval r (.obj [(op.name, .arr (front ++ .obj [(op.name, .arr inner)] :: back))]) data =
      eval r (.obj [(op.name, .arr (front ++ inner ++ back))]) data := by
  rw [h.eval_eq (by simp), h.eval_eq (by simp [hne])]
  simp only [List.map_append, List.map_cons, h.eval_eq hne]
  exact consult_nested (by simpa using hne)

/-! ## Applications among their own arguments -/

/-- **Nested applications are transparent.**  Where `cat`, `merge`, `and` or `or` is applied among
its own arguments, to one argument at least, these may as well stand in the place of the inner
application: the result and the log are the same. -/
theorem nested_arguments_splice (r : Registry) (op : Operator) (front inner back : List Value)
    (data : Value) (hop : op ∈ [Operator.cat, .merge, .and, .or]) (hne : inner ≠ []) :
    eval r (.obj [(op.name, .arr (front ++ [.obj [(op.name, .arr inner)]] ++ back))]) data =
      eval r (.obj [(op.name, .arr (front ++ inner ++ back))]) data := by
  rw [List.append_assoc front, List.singleton_append]
  simp only [List.mem_cons, List.not_mem_nil, or_false] at hop
  rcases hop with rfl | rfl | rfl | rfl
  · exact Operator.Joins.cat.eval_nested hne
  · exact Operator.Joins.merge.eval_nested hne
  · exact Operator.Searches.and.eval_nested hne
  · exact Operator.Searches.or.eval_nested hne

theorem nested_arguments_splice_stops_inside :
    let logs (v : Value) := Value.obj [("log", .arr [v])]
    let unknown := Value.obj [("nope", .arr [])]
    let inner := [logs (.arr []), logs (.str "x"), unknown]
    Operator.or ∈ [Operator.cat, .merge, .and, .or] ∧ inner ≠ [] ∧
      eval .empty (.obj [("or", .arr ([logs .null] ++ [.obj [("or", .arr inner)]] ++ [unknown]))])
        .null = ⟨[.null, .arr [], .str "x"], .ok (.str "x")⟩ := by
  intro logs unknown inner
  have hop : Operator.or ∈ [Operator.cat, .merge, .and, .or] := by decide
  have hne : inner ≠ [] := List.cons_ne_nil _ _
  exact ⟨hop, hne, nested_arguments_splice .empty .or [logs .null] inner [unknown] .null hop hne⟩

/-! ## Chains of conditions -/

/-- The operators that choose among conditions and branches in turn. -/
inductive Operator.Chooses : Operator → Prop
  | choose : Chooses .choose
  | ternary : Chooses .ternary

/-- The last argument that does what the rest of a chain does: an argument without a condition is
that by itself, and a condition with its branch needs a `null` behind them. -/
def Operator.elseRule (op : Operator) : List Value → Value
  | [otherwise] => otherwise
  | [condition, branch] => .obj [(op.name, .arr [condition, branch, .null])]
  | rest => .obj [(op.name, .arr rest)]

/-- The chain as applications to three arguments each, every one inside the one before. -/
def Operator.nest (op : Operator) : List Value → Value
  | [] => .null
  | [otherwise] => otherwise
  | condition :: branch :: rest => .obj [(op.name, .arr [condition, branch, op.nest rest])]

section
variable {r : Registry} {op : Operator} (h : op.Chooses)

include h

theorem Operator.Chooses.eval_eq {rules : List Value} (hn : 3 ≤ rules.length) :
    eval r (.obj [(op.name, .arr rules)]) = Branch.choose (rules.map (eval r)) := by
  have hs : op.strategy = .shortCircuit := by cases h <;> rfl
  have hcount : op.arity.accepts (argumentsOf (.arr rules)).length = true :=
    (accepts_shortCircuit hs).2 ⟨Nat.lt_of_lt_of_le (by decide) hn, fun _ => hn⟩
  rw [eval_shortCircuit hs hcount]
  cases h <;> rfl

theorem Operator.Chooses.eval_three (condition branch otherwise : Value) :
    eval r (.obj [(op.name, .arr [condition, branch, otherwise])]) =
      Branch.choose [eval r condition, eval r branch, eval r otherwise] :=
  h.eval_eq (Nat.le_refl 3)

theorem eval_elseRule {rest : List Value} (hne : rest ≠ []) :
    eval r (op.elseRule rest) = Branch.choose (rest.map (eval r)) := by
  match rest with
  | [] => exact absurd rfl hne
  | [otherwise] => rfl
  | [condition, branch] =>
    -- a chain that ends with a branch gives `null`, as the added argument does
    rw [Operator.elseRule, h.eval_three]
    rfl
  | first :: second :: third :: rest => exact h.eval_eq (by simp)

/-- Nesting a chain from its end keeps what it means at each length. -/
theorem eval_nest (rules : List Value) :
    eval r (op.nest rules) = Branch.choose (rules.map (eval r)) := by
  induction rules using Operator.nest.induct with
  | case1 => rfl
  | case2 otherwise => rfl
  | case3 condition branch rest ih =>
    rw [Operator.nest, h.eval_three, ih]
    rfl

end

/-- **Every chain of conditions is a nest of ternaries.**  What follows the first branch of `if` or
`?:` may be put into one last argument.  So each chain does what applications to three arguments do,
each of them the last argument of the one around it. -/
theorem chains_nest (r : Registry) (op : Operator) (data : Value)
    (hop : op = .choose ∨ op = .ternary) :
    (∀ condition branch rest, rest ≠ [] →
      eval r (.obj [(op.name, .arr ([condition, branch] ++ rest))]) data =
        eval r (.obj [(op.name, .arr [condition, branch, op.elseRule rest])]) data) ∧
    ∀ rules, 3 ≤ rules.length →
      eval r (.obj [(op.name, .arr rules)]) data = eval r (op.nest rules) data := by
  have h : op.Chooses := by
    rcases hop with rfl | rfl
    · exact .choose
    · exact .ternary
  constructor
  · intro condition branch rest hne
    have hn : 3 ≤ ([condition, branch] ++ rest).length := by
      have := List.length_pos_iff.2 hne
      simp
      omega
    rw [h.eval_eq hn, h.eval_three, eval_elseRule h hne]
    rfl
  · intro rules hn
    rw [h.eval_eq hn, eval_nest h]

theorem chains_nest_two_conditions :
    let logs (v : Value) := Value.obj [("log", .arr [v])]
    let unknown := Value.obj [("nope", .arr [])]
    let rest := [logs (.str "x"), logs (.bool true)]
    (Operator.ternary = .choose ∨ Operator.ternary = .ternary) ∧ rest ≠ [] ∧
      eval .empty (.obj [("?:", .arr ([logs .null, unknown] ++ rest))]) .null =
        eval .empty (.obj [("?:", .arr [logs .null, unknown,
          .obj [("?:", .arr [logs (.str "x"), logs (.bool true), .null])]])]) .null ∧
      eval .empty (Operator.ternary.nest ([logs .null, unknown] ++ rest)) .null =
        ⟨[.null, .str "x", .bool true], .ok (.bool true)⟩ := by
  intro logs unknown rest
  have hop : Operator.ternary = .choose ∨ Operator.ternary = .ternary := .inr rfl
  have hne : rest ≠ [] := List.cons_ne_nil _ _
  obtain ⟨hstep, hnest⟩ := chains_nest .empty .ternary .null hop
  exact ⟨hop, hne, hstep (logs .null) unknown rest hne,
    (hnest ([logs .null, unknown] ++ rest) (by decide)).symm⟩

end RuleLogic
