import RuleLogic.Proofs.Occurrence

/-!
# Literals in rules

A literal is a value in which no object with entries occurs.  It applies no operator anywhere, so
it stands for itself in every rule.  Literal strings and numbers write paths, and a `var` whose path
is written out is evaluated in one step.

    v.isLiteral ↔ no object with entries occurs in v                         (isLiteral_iff)
    v.isLiteral → eval r v data = pure v                                     (eval_literal)
-/

namespace RuleLogic

/-! ## Literals -/

namespace Value

mutual

/-- Is there no object with entries anywhere in the value? -/
def isLiteral : Value → Bool
  | .arr items => allLiteral items
  | .obj (_ :: _) => false
  | _ => true

def allLiteral : List Value → Bool
  | [] => true
  | v :: rest => isLiteral v && allLiteral rest

end

theorem allLiteral_iff {items : List Value} :
    allLiteral items = true ↔ ∀ v ∈ items, v.isLiteral = true := by
  induction items with
  | nil => simp [allLiteral]
  | cons v rest ih => simp [allLiteral, ih]

theorem isLiteral_arr {items : List Value} :
    (Value.arr items).isLiteral = true ↔ ∀ v ∈ items, v.isLiteral = true := by
  rw [isLiteral, allLiteral_iff]

/-- Literals are the values in which no object with entries occurs. -/
theorem isLiteral_iff {v : Value} :
    v.isLiteral = true ↔ ∀ entries, entries ≠ [] → ¬ (Value.obj entries).OccursIn v := by
  constructor
  · intro h entries hne ho
    induction ho with
    | self =>
      cases entries with
      | nil => exact hne rfl
      | cons entry rest => cases h
    | item hv _ ih => exact ih (isLiteral_arr.1 h _ hv)
    | @entry held _ _ hv _ _ =>
      cases held with
      | nil => cases hv
      | cons entry rest => cases h
  · intro h
    induction v using rule_induction with
    | h v ih =>
      cases v with
      | arr items =>
        exact isLiteral_arr.2 fun v hv => ih v hv fun entries hne ho => h entries hne (.item hv ho)
      | obj entries =>
        cases entries with
        | nil => rfl
        | cons entry rest => exact absurd .self (h (entry :: rest) (List.cons_ne_nil entry rest))
      | _ => rfl

end Value

section
variable {r : Registry} {data v : Value}

theorem evalEach_of_forall {rules : List Value} (h : ∀ rule ∈ rules, eval r rule data = pure rule) :
    evalEach data (rules.map (eval r)) = pure rules := by
  induction rules with
  | nil => rfl
  | cons rule rest ih =>
    rw [List.map_cons, evalEach, h rule List.mem_cons_self, pure_bind,
      ih fun c hc => h c (List.mem_cons_of_mem rule hc), pure_bind]

/-- A literal stands for itself. -/
theorem eval_literal (h : v.isLiteral = true) : eval r v data = pure v := by
  induction v using Value.rule_induction with
  | h v ih =>
    cases v with
    | arr items =>
      have hitems : ∀ c ∈ items, eval r c data = pure c :=
        fun c hc => ih c hc (Value.isLiteral_arr.1 h c hc)
      rw [eval_arr, evalEach_of_forall hitems, pure_bind]
    | obj entries =>
      cases entries with
      | nil => simp only [eval]
      | cons entry rest => cases h
    | _ => simp only [eval]

theorem evalEach_literals {rules : List Value} (h : ∀ rule ∈ rules, rule.isLiteral = true) :
    evalEach data (rules.map (eval r)) = pure rules :=
  evalEach_of_forall fun rule hr => eval_literal (h rule hr)

end

/-! ## Written paths -/

/-- The path that a string or number writes. -/
def Value.pathText? : Value → Option String
  | .str s => some s
  | .num n => some (String.ofList n.plain)
  | _ => none

section
variable {p : Value} {path : String} {op : Operator}

theorem Value.isLiteral_of_pathText? (h : p.pathText? = some path) : p.isLiteral = true := by
  cases p with
  | str _ | num _ => rfl
  | null | bool _ | arr _ | obj _ => cases h

theorem varPath_of_pathText? (h : p.pathText? = some path) : Lookup.varPath op p = .ok path := by
  cases p with
  | str _ | num _ =>
    cases h
    rfl
  | null | bool _ | arr _ | obj _ => cases h

theorem keyPath_of_pathText? (h : p.pathText? = some path) : Lookup.keyPath op p = .ok path := by
  cases p with
  | str _ | num _ =>
    cases h
    rfl
  | null | bool _ | arr _ | obj _ => cases h

/-- Keys are the strings and numbers, and stand for the paths that they write. -/
theorem pathText?_of_keyPath (h : Lookup.keyPath op p = .ok path) : p.pathText? = some path := by
  cases p with
  | str _ | num _ =>
    cases h
    rfl
  | null | bool _ | arr _ | obj _ => cases h

end

/-- A `var` whose path is written out and whose default, if any, is a literal gives the value at the
path or else the default. -/
theorem eval_var {r : Registry} {data p : Value} {path : String} {defaults : List Value}
    {rest : List (String × Value)} (hp : p.pathText? = some path)
    (hd : ∀ d ∈ defaults, d.isLiteral = true) (hn : defaults.length ≤ 1) :
    eval r (.obj ((Operator.var.name, .arr (p :: defaults)) :: rest)) data =
      pure (((Lookup.present? data path).orElse fun _ => defaults.head?).getD .null) := by
  have hargs : ∀ a ∈ p :: defaults, a.isLiteral = true := by
    intro a ha
    rcases List.mem_cons.1 ha with rfl | ha
    · exact Value.isLiteral_of_pathText? hp
    · exact hd a ha
  have hcount : Operator.var.arity.accepts (p :: defaults).length = true :=
    Arity.accepts_between.2 ⟨Nat.zero_le _, by simpa using hn⟩
  have hvar : Lookup.var .var data (p :: defaults) =
      .ok (((Lookup.present? data path).orElse fun _ => defaults.head?).getD .null) := by
    simp only [Lookup.var, List.head?_cons, Option.getD_some, varPath_of_pathText? hp,
      List.getElem?_cons_succ, ← List.head?_eq_getElem?]
    rfl
  rw [eval_eager rfl hcount]
  show evalEach data ((p :: defaults).map (eval r)) >>= Operator.var.apply data = _
  rw [evalEach_literals hargs, pure_bind]
  exact congrArg Outcome.ofResult hvar

end RuleLogic
