import RuleLogic.Proofs.Rule

/-!
# What short-circuit operators consult

A short-circuit operator consults its arguments from left to right, as far as it needs them.  `and`
and `or` go on behind an argument that succeeds without deciding.  `if` and `?:` go on behind a
condition that is not truthy, and to its branch behind one that is.  What the arguments that are not
consulted would do has no effect.

    v and v' give the same arguments where they are consulted → the outcomes are the same
    the log is the logs of the consulted arguments, in order             (shortCircuit_consults)
-/

namespace RuleLogic

/-! ## Which arguments are consulted -/

/-- Is the outcome a success with a value of the given truth? -/
def Outcome.succeedsAs (truth : Bool) (x : Outcome Value) : Bool :=
  match x.result with
  | .ok v => v.truthy == truth
  | .error _ => false

namespace Branch

/-- Does a search for the truth `stop` reach the position?  All that is before it succeeds with the
other truth. -/
def reaches (stop : Bool) (outcomes : List (Outcome Value)) (i : Nat) : Bool :=
  (List.range i).all fun j => outcomes[j]?.any (·.succeedsAs !stop)

/-- Is the position selected among conditions and branches in turn?  The conditions are at the even
positions.  Those before it succeed and are not truthy, but for a condition right in front of it:
that is the one of the branch at the position, and it is truthy. -/
def selects (outcomes : List (Outcome Value)) (i : Nat) : Bool :=
  (List.range i).all fun j => j % 2 == 1 || outcomes[j]?.any (·.succeedsAs (j + 1 == i))

end Branch

/-- Does a short-circuit operator consult the argument at a position, given the outcomes of all
arguments? -/
def Operator.consults (op : Operator) (outcomes : List (Outcome Value)) (i : Nat) : Bool :=
  match op with
  | .and => Branch.reaches false outcomes i
  | .or => Branch.reaches true outcomes i
  | .choose => Branch.selects outcomes i
  | .ternary => Branch.selects outcomes i
  | _ => false

/-- The logs of the outcomes at the chosen positions, in order. -/
def logsAt (chosen : Nat → Bool) (outcomes : List (Outcome Value)) : List Value :=
  (outcomes.mapIdx fun i x => if chosen i then x.log else []).flatten

section
variable {x y : Outcome Value} {outcomes : List (Outcome Value)} {truth stop : Bool} {i : Nat}

theorem Outcome.succeedsAs_iff :
    x.succeedsAs truth = true ↔ ∃ v, x.result = .ok v ∧ v.truthy = truth := by
  unfold succeedsAs
  cases x.result <;> simp

theorem Outcome.succeedsAs_of_error {e : EvalError} (h : x.result = .error e) :
    x.succeedsAs truth = false := by
  rw [succeedsAs, h]

theorem Outcome.succeedsAs_of_ok {v : Value} (h : x.result = .ok v) :
    x.succeedsAs truth = (v.truthy == truth) := by
  rw [succeedsAs, h]

/-- An outcome fails, or it succeeds with one of the two truths. -/
theorem Outcome.error_or_succeedsAs (x : Outcome Value) : (∃ e, x.result = .error e) ∨
    (x.succeedsAs true = true ∧ x.succeedsAs false = false) ∨
    (x.succeedsAs true = false ∧ x.succeedsAs false = true) := by
  cases h : x.result with
  | error e => exact .inl ⟨e, rfl⟩
  | ok v => cases ht : v.truthy <;> simp [succeedsAs, h, ht]

theorem logsAt_cons (chosen : Nat → Bool) : logsAt chosen (x :: outcomes) =
    (if chosen 0 then x.log else []) ++ logsAt (fun i => chosen (i + 1)) outcomes := by
  rw [logsAt, List.mapIdx_cons, List.flatten_cons]
  rfl

theorem logsAt_eq_nil {chosen : Nat → Bool} (h : ∀ i, chosen i = false) :
    logsAt chosen outcomes = [] := by
  simp [logsAt, h]

namespace Branch

theorem reaches_zero : reaches stop outcomes 0 = true := rfl

theorem reaches_succ :
    reaches stop (x :: outcomes) (i + 1) = (x.succeedsAs (!stop) && reaches stop outcomes i) := by
  simp [reaches, List.range_succ_eq_map, List.all_map, Function.comp_def]

/-- Behind an argument, a search logs more only if it goes on. -/
theorem logsAt_reaches : logsAt (reaches stop (x :: outcomes)) (x :: outcomes) =
    x.log ++ if x.succeedsAs (!stop) then logsAt (reaches stop outcomes) outcomes else [] := by
  rw [logsAt_cons, if_pos reaches_zero]
  simp only [reaches_succ]
  cases x.succeedsAs !stop with
  | true => simp only [Bool.true_and, if_true]
  | false => simp only [Bool.false_and, Bool.false_eq_true, if_false, logsAt_eq_nil fun _ => rfl]

theorem selects_zero : selects outcomes 0 = true := rfl

theorem selects_one : selects (x :: outcomes) 1 = x.succeedsAs true := by
  simp [selects, List.range_succ_eq_map]

theorem selects_succ_succ : selects (x :: y :: outcomes) (i + 2) =
    (x.succeedsAs false && selects outcomes i) := by
  have hparity (j : Nat) : (j + 1 + 1) % 2 = j % 2 := by omega
  simp [selects, List.range_succ_eq_map, List.all_map, Function.comp_def, hparity]

/-- Behind a condition, a choice logs what the branch logs, or else what the rest does. -/
theorem logsAt_selects : logsAt (selects (x :: y :: outcomes)) (x :: y :: outcomes) =
    x.log ++ ((if x.succeedsAs true then y.log else []) ++
      if x.succeedsAs false then logsAt (selects outcomes) outcomes else []) := by
  rw [logsAt_cons, logsAt_cons, if_pos selects_zero, Nat.zero_add, selects_one]
  simp only [Nat.add_assoc, Nat.reduceAdd, selects_succ_succ]
  cases x.succeedsAs false with
  | true => simp only [Bool.true_and, if_true]
  | false => simp only [Bool.false_and, Bool.false_eq_true, if_false, logsAt_eq_nil fun _ => rfl]

end Branch

end

/-! ## Searches -/

section
variable {m next : Meaning} {arguments arguments' : List Meaning} {data : Value} {stop : Bool}

/-- A search ends at an argument that fails or decides. -/
theorem consult_of_not_succeedsAs (h : (m data).succeedsAs (!stop) = false) :
    Branch.consult stop (m :: arguments) data = m data := by
  cases arguments with
  | nil => rfl
  | cons next rest =>
    show (m data >>= fun v => if v.truthy == stop then pure v else _) = m data
    cases hm : (m data).result with
    | error e => exact (Outcome.bind_error hm _).trans (Outcome.ext rfl hm.symm)
    | ok v =>
      have hv : v.truthy = stop := by
        have hne : v.truthy ≠ !stop := fun hv =>
          Bool.false_ne_true (h.symm.trans (Outcome.succeedsAs_iff.2 ⟨v, hm, hv⟩))
        simpa using hne
      rw [Outcome.bind_ok hm, if_pos (by simp [hv])]
      exact Outcome.ext (List.append_nil _) hm.symm

/-- A search goes on behind an argument that succeeds and does not decide. -/
theorem consult_of_succeedsAs (h : (m data).succeedsAs (!stop) = true) :
    Branch.consult stop (m :: next :: arguments) data =
      ⟨(m data).log ++ (Branch.consult stop (next :: arguments) data).log,
        (Branch.consult stop (next :: arguments) data).result⟩ := by
  obtain ⟨v, hm, hv⟩ := Outcome.succeedsAs_iff.1 h
  show (m data >>= fun v => if v.truthy == stop then pure v else _) = _
  rw [Outcome.bind_ok hm, if_neg (by simp [hv])]

/-- A search depends on the arguments that it reaches, and on where they end if it reaches that. -/
theorem consult_congr (hne : arguments ≠ [])
    (h : ∀ i, Branch.reaches stop (arguments.map (· data)) i = true →
      arguments'[i]? = arguments[i]?) :
    Branch.consult stop arguments' data = Branch.consult stop arguments data := by
  induction arguments generalizing arguments' with
  | nil => exact absurd rfl hne
  | cons m rest ih =>
    obtain ⟨rest', rfl⟩ : ∃ rest', arguments' = m :: rest' := by
      have hzero := h 0 Branch.reaches_zero
      cases arguments' with
      | nil => cases hzero
      | cons m' rest' =>
        cases hzero
        exact ⟨rest', rfl⟩
    cases hm : (m data).succeedsAs !stop with
    | false => rw [consult_of_not_succeedsAs hm, consult_of_not_succeedsAs hm]
    | true =>
      have hrest : ∀ i, Branch.reaches stop (rest.map (· data)) i = true →
          rest'[i]? = rest[i]? := fun i hi =>
        h (i + 1) (by rw [List.map_cons, Branch.reaches_succ, hm, hi, Bool.true_and])
      cases rest with
      | nil =>
        cases rest' with
        | nil => rfl
        | cons next rest' => cases hrest 0 Branch.reaches_zero
      | cons next rest =>
        have hnext := ih (List.cons_ne_nil next rest) hrest
        cases rest' with
        | nil => cases hrest 0 Branch.reaches_zero
        | cons next' rest' =>
          rw [consult_of_succeedsAs hm, consult_of_succeedsAs hm, hnext]

/-- A search logs what the arguments log that it reaches. -/
theorem log_consult (hne : arguments ≠ []) : (Branch.consult stop arguments data).log =
    logsAt (Branch.reaches stop (arguments.map (· data))) (arguments.map (· data)) := by
  induction arguments with
  | nil => exact absurd rfl hne
  | cons m rest ih =>
    rw [List.map_cons, Branch.logsAt_reaches]
    cases hm : (m data).succeedsAs !stop with
    | false => rw [consult_of_not_succeedsAs hm, if_neg Bool.false_ne_true, List.append_nil]
    | true =>
      rw [if_pos rfl]
      cases rest with
      | nil => exact (List.append_nil _).symm
      | cons next rest => rw [consult_of_succeedsAs hm, ih (List.cons_ne_nil next rest)]

end

/-! ## Conditions and branches -/

section
variable {condition branch : Meaning} {arguments arguments' : List Meaning} {data : Value}

theorem choose_of_error {e : EvalError} (h : (condition data).result = .error e) :
    Branch.choose (condition :: branch :: arguments) data = ⟨(condition data).log, .error e⟩ :=
  Outcome.bind_error h _

theorem choose_of_truthy (h : (condition data).succeedsAs true = true) :
    Branch.choose (condition :: branch :: arguments) data =
      ⟨(condition data).log ++ (branch data).log, (branch data).result⟩ := by
  obtain ⟨v, hv, ht⟩ := Outcome.succeedsAs_iff.1 h
  show (condition data >>= fun v => if v.truthy then _ else _) = _
  rw [Outcome.bind_ok hv, if_pos ht]

theorem choose_of_falsy (h : (condition data).succeedsAs false = true) :
    Branch.choose (condition :: branch :: arguments) data =
      ⟨(condition data).log ++ (Branch.choose arguments data).log,
        (Branch.choose arguments data).result⟩ := by
  obtain ⟨v, hv, ht⟩ := Outcome.succeedsAs_iff.1 h
  show (condition data >>= fun v => if v.truthy then _ else _) = _
  rw [Outcome.bind_ok hv, if_neg (by simp [ht])]

/-- A choice depends on the arguments that it selects, and on how many there are. -/
theorem choose_congr (hl : arguments'.length = arguments.length)
    (h : ∀ i, Branch.selects (arguments.map (· data)) i = true →
      arguments'[i]? = arguments[i]?) :
    Branch.choose arguments' data = Branch.choose arguments data := by
  induction arguments using Branch.choose.induct generalizing arguments' with
  | case1 => rw [List.length_eq_zero_iff.1 hl]
  | case2 otherwise =>
    obtain ⟨otherwise', rfl⟩ := List.length_eq_one_iff.1 hl
    cases h 0 Branch.selects_zero
    rfl
  | case3 condition branch rest ih =>
    match arguments', hl with
    | condition' :: branch' :: rest', hl =>
      cases h 0 Branch.selects_zero
      simp only [List.map_cons] at h
      rcases (condition data).error_or_succeedsAs with ⟨e, he⟩ | ⟨ht, -⟩ | ⟨-, hf⟩
      · rw [choose_of_error he, choose_of_error he]
      · cases h 1 (Branch.selects_one.trans ht)
        rw [choose_of_truthy ht, choose_of_truthy ht]
      · have hrest := ih (by simpa using hl) fun i hi =>
          h (i + 2) (by rw [Branch.selects_succ_succ, hf, hi, Bool.true_and])
        rw [choose_of_falsy hf, choose_of_falsy hf, hrest]

/-- A choice logs what the arguments log that it selects. -/
theorem log_choose : (Branch.choose arguments data).log =
    logsAt (Branch.selects (arguments.map (· data))) (arguments.map (· data)) := by
  induction arguments using Branch.choose.induct with
  | case1 => rfl
  | case2 otherwise => exact (List.append_nil _).symm
  | case3 condition branch rest ih =>
    rw [List.map_cons, List.map_cons, Branch.logsAt_selects]
    rcases (condition data).error_or_succeedsAs with ⟨e, he⟩ | ⟨ht, hf⟩ | ⟨ht, hf⟩
    · rw [choose_of_error he, Outcome.succeedsAs_of_error he, Outcome.succeedsAs_of_error he]
      exact (List.append_nil _).symm
    · rw [choose_of_truthy ht, ht, hf, if_pos rfl, if_neg Bool.false_ne_true, List.append_nil]
    · rw [choose_of_falsy hf, ht, hf, if_neg Bool.false_ne_true, if_pos rfl, List.nil_append, ih]

end

/-! ## Short-circuit operators -/

section
variable {op : Operator} {arguments arguments' : List Meaning} {data : Value}

/-- Only `if` and `?:` depend on the number of their arguments. -/
theorem branch_congr (hs : op.strategy = .shortCircuit) (hne : arguments ≠ [])
    (hl : op = .choose ∨ op = .ternary → arguments'.length = arguments.length)
    (h : ∀ i, op.consults (arguments.map (· data)) i = true → arguments'[i]? = arguments[i]?) :
    op.branch arguments' data = op.branch arguments data := by
  cases op <;> try cases hs
  case choose => exact choose_congr (hl (.inl rfl)) h
  case ternary => exact choose_congr (hl (.inr rfl)) h
  case or => exact consult_congr hne h
  case and => exact consult_congr hne h

theorem log_branch (hs : op.strategy = .shortCircuit) (hne : arguments ≠ []) :
    (op.branch arguments data).log =
      logsAt (op.consults (arguments.map (· data))) (arguments.map (· data)) := by
  cases op <;> try cases hs
  case choose | ternary => exact log_choose
  case or => exact log_consult hne
  case and => exact log_consult hne

theorem consults_zero (hs : op.strategy = .shortCircuit) (outcomes : List (Outcome Value)) :
    op.consults outcomes 0 = true := by
  cases op <;> first | rfl | cases hs

end

theorem eval_shortCircuit {r : Registry} {op : Operator} {v : Value}
    {rest : List (String × Value)} (hs : op.strategy = .shortCircuit)
    (hn : op.arity.accepts (argumentsOf v).length = true) :
    eval r (.obj ((op.name, v) :: rest)) = op.branch ((argumentsOf v).map (eval r)) := by
  rw [← List.length_map (eval r)] at hn
  rw [eval_rule, dispatch_name, Operator.run, if_pos hn, hs]

/-- `and` and `or` take any number of arguments but none, `if` and `?:` at least three. -/
theorem accepts_shortCircuit {op : Operator} {count : Nat} (hs : op.strategy = .shortCircuit) :
    op.arity.accepts count = true ↔ 0 < count ∧ (op = .choose ∨ op = .ternary → 3 ≤ count) := by
  cases op <;> try cases hs
  case choose =>
    exact Arity.accepts_atLeast.trans ⟨fun h => ⟨by omega, fun _ => h⟩, fun h => h.2 (.inl rfl)⟩
  case ternary =>
    exact Arity.accepts_atLeast.trans ⟨fun h => ⟨by omega, fun _ => h⟩, fun h => h.2 (.inr rfl)⟩
  case or | and =>
    exact Arity.accepts_atLeast.trans ⟨fun h => ⟨h, by rintro (h | h) <;> cases h⟩, And.left⟩

/-- **Short-circuit operators consult exactly the deciding arguments.**  Whatever stands at the
positions that are not consulted, the outcome is the same, and the log is the logs of the arguments
that are, in order.  What `if` and `?:` have to know besides is how many arguments there are. -/
theorem shortCircuit_consults (r : Registry) (op : Operator) (v v' data : Value)
    (rest rest' : List (String × Value)) (hs : op.strategy = .shortCircuit)
    (hn : op.arity.accepts (argumentsOf v).length = true) :
    let outcomes := (argumentsOf v).map (eval r · data)
    ((op = .choose ∨ op = .ternary → (argumentsOf v').length = (argumentsOf v).length) →
      (∀ i, op.consults outcomes i = true → (argumentsOf v')[i]? = (argumentsOf v)[i]?) →
      eval r (.obj ((op.name, v') :: rest')) data = eval r (.obj ((op.name, v) :: rest)) data) ∧
    (eval r (.obj ((op.name, v) :: rest)) data).log = logsAt (op.consults outcomes) outcomes := by
  intro outcomes
  have houtcomes : outcomes = ((argumentsOf v).map (eval r)).map (· data) := by
    rw [List.map_map]
    rfl
  have hpos : 0 < (argumentsOf v).length := ((accepts_shortCircuit hs).1 hn).1
  have hne : (argumentsOf v).map (eval r) ≠ [] := by
    rw [← List.length_pos_iff, List.length_map]
    exact hpos
  refine ⟨fun hl h => ?_, ?_⟩
  · have hfirst := h 0 (consults_zero hs outcomes)
    have hpos' : 0 < (argumentsOf v').length := by
      rw [List.getElem?_eq_getElem hpos] at hfirst
      exact (List.getElem?_eq_some_iff.1 hfirst).1
    have hn' : op.arity.accepts (argumentsOf v').length = true :=
      (accepts_shortCircuit hs).2 ⟨hpos', fun ho => hl ho ▸ ((accepts_shortCircuit hs).1 hn).2 ho⟩
    rw [eval_shortCircuit hs hn', eval_shortCircuit hs hn]
    refine branch_congr hs hne (fun ho => by simp [hl ho]) fun i hi => ?_
    rw [List.getElem?_map, List.getElem?_map, h i (houtcomes ▸ hi)]
  · rw [eval_shortCircuit hs hn, log_branch hs hne, houtcomes]

theorem shortCircuit_consults_second_branch :
    let unknown := Value.obj [("nope", .arr [])]
    let taken := Value.obj [("log", .arr [.str "taken"])]
    let v := Value.arr [.bool false, unknown, .bool true, taken, unknown]
    let v' := Value.arr [.bool false, taken, .bool true, taken, .null]
    let outcomes := (argumentsOf v).map (eval .empty · .null)
    Operator.choose.strategy = .shortCircuit ∧
      Operator.choose.arity.accepts (argumentsOf v).length = true ∧
      (argumentsOf v').length = (argumentsOf v).length ∧
      (∀ i, Operator.choose.consults outcomes i = true →
        (argumentsOf v')[i]? = (argumentsOf v)[i]?) ∧
      eval .empty (.obj [("if", v')]) .null = eval .empty (.obj [("if", v)]) .null ∧
      (eval .empty (.obj [("if", v)]) .null).log =
        logsAt (Operator.choose.consults outcomes) outcomes ∧
      logsAt (Operator.choose.consults outcomes) outcomes = [.str "taken"] := by
  intro unknown taken v v' outcomes
  have hagree : ∀ i, Operator.choose.consults outcomes i = true →
      (argumentsOf v')[i]? = (argumentsOf v)[i]? := by
    intro i hi
    match i with
    | 0 | 2 | 3 | i + 5 => rfl
    | 1 | 4 => cases hi
  obtain ⟨hsame, hlog⟩ := shortCircuit_consults .empty .choose v v' .null [] [] rfl rfl
  exact ⟨rfl, rfl, rfl, hagree, hsame (fun _ => rfl) hagree, hlog, by decide⟩

end RuleLogic
