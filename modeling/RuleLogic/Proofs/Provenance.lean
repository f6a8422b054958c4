import RuleLogic.Proofs.Literal

/-!
# Where objects come from

Rules are made of objects, but rules never turn up in what they give or log.  Without `reduce`,
which hands its body an object of its own, built-in operators make no objects: what is given or
logged holds no objects but those of the data.

    data.Supplies v ↔ every object with entries in v occurs in data
    (eval r rule data).Yields data.Supplies data.Supplies                    (eval_makesNoObjects)
-/

namespace RuleLogic

/-! ## Objects of the data -/

/-- Every object with entries that occurs in the value occurs in the data. -/
def Value.Supplies (data v : Value) : Prop :=
  ∀ entries, entries ≠ [] → (Value.obj entries).OccursIn v → (Value.obj entries).OccursIn data

namespace Value

variable {data item v : Value} {items : List Value}

theorem Supplies.of_isLiteral (h : v.isLiteral = true) : data.Supplies v :=
  fun entries hne ho => absurd ho (isLiteral_iff.1 h entries hne)

theorem Supplies.of_occursIn (h : v.OccursIn data) : data.Supplies v :=
  fun _ _ ho => ho.trans h

theorem Supplies.trans (h : data.Supplies item) (h' : item.Supplies v) : data.Supplies v :=
  fun entries hne ho => h entries hne (h' entries hne ho)

theorem supplies_arr_iff : data.Supplies (.arr items) ↔ ∀ v ∈ items, data.Supplies v := by
  constructor
  · intro h v hv entries hne ho
    exact h entries hne (.item hv ho)
  · intro h entries hne ho
    rcases occursIn_arr_iff.1 ho with he | ⟨v, hv, ho⟩
    · cases he
    · exact h v hv entries hne ho

end Value

/-! ## What a computation gives and logs -/

/-- If the computation succeeds, its value has the property. -/
def Gives {α : Type} (Q : α → Prop) (x : Except EvalError α) : Prop :=
  ∀ a, x = .ok a → Q a

namespace Gives

variable {α β : Type} {Q : α → Prop} {S : β → Prop}

theorem ok {a : α} (h : Q a) : Gives Q (.ok a) := by
  rintro _ ⟨⟩
  exact h

theorem error {e : EvalError} : Gives Q (.error e) := nofun

theorem refuse {op : Operator} {reason : Reason} : Gives Q (op.refuse reason) := error

theorem bind {x : Except EvalError α} {f : α → Except EvalError β}
    (h : ∀ a, x = .ok a → Gives S (f a)) : Gives S (x >>= f) := by
  cases x with
  | ok a => exact h a rfl
  | error e => exact error

theorem imp {Q' : α → Prop} {x : Except EvalError α} (h : Gives Q x) (hq : ∀ a, Q a → Q' a) :
    Gives Q' x :=
  fun a ha => hq a (h a ha)

end Gives

/-- All values in the log have the one property, and the value at the end has the other. -/
structure Outcome.Yields {α : Type} (P : Value → Prop) (Q : α → Prop) (x : Outcome α) : Prop where
  log : ∀ v ∈ x.log, P v
  result : Gives Q x.result

namespace Outcome.Yields

variable {α β : Type} {P : Value → Prop} {Q : α → Prop} {S : β → Prop}

theorem ofResult {x : Except EvalError α} (h : Gives Q x) : (Outcome.ofResult x).Yields P Q :=
  ⟨nofun, h⟩

theorem pure {a : α} (h : Q a) : (Pure.pure a : Outcome α).Yields P Q := ofResult (.ok h)

theorem bind {x : Outcome α} {f : α → Outcome β} (hx : x.Yields P Q)
    (hf : ∀ a, Q a → (f a).Yields P S) : (x >>= f).Yields P S := by
  cases h : x.result with
  | error e =>
    rw [bind_error h]
    exact ⟨hx.log, .error⟩
  | ok a =>
    have ha := hf a (hx.result a h)
    rw [bind_ok h]
    exact ⟨List.forall_mem_append.2 ⟨hx.log, ha.log⟩, ha.result⟩

theorem ite {c : Prop} [Decidable c] {x y : Outcome α} (hx : x.Yields P Q) (hy : y.Yields P Q) :
    (if c then x else y).Yields P Q := by
  split
  · exact hx
  · exact hy

theorem imp {P' : Value → Prop} {Q' : α → Prop} {x : Outcome α} (h : x.Yields P Q)
    (hp : ∀ v, P v → P' v) (hq : ∀ a, Q a → Q' a) : x.Yields P' Q' :=
  ⟨fun v hv => hp v (h.log v hv), h.result.imp hq⟩

end Outcome.Yields

/-! ## Arithmetic -/

/-- The operators that compute a number from numbers. -/
inductive Operator.Calculates : Operator → Prop
  | max : Calculates .max
  | min : Calculates .min
  | add : Calculates .add
  | sub : Calculates .sub
  | mul : Calculates .mul
  | div : Calculates .div
  | mod : Calculates .mod

/-- Is the value a number that a double is written as? -/
def Value.IsWritten (w : Value) : Prop := ∃ x, w = .num (.ofDouble x)

section
variable {op : Operator} {data : Value} {values : List Value}

theorem Value.IsWritten.isLiteral {w : Value} (h : w.IsWritten) : w.isLiteral = true := by
  obtain ⟨x, rfl⟩ := h
  rfl

theorem result_written (x : Option Double) : Gives Value.IsWritten (Arithmetic.result op x) := by
  cases x with
  | some x => exact .ok ⟨x, rfl⟩
  | none => exact .error

theorem difference_written (xs : List Double) :
    Gives Value.IsWritten (Arithmetic.difference op xs) := by
  unfold Arithmetic.difference
  split
  · exact result_written _
  · exact result_written _
  · exact .refuse

theorem divide_written {quotient : Double → Double → Option Double} (xs : List Double) :
    Gives Value.IsWritten (Arithmetic.divide op quotient xs) := by
  unfold Arithmetic.divide
  split
  · split
    · exact .error
    · exact result_written _
  · exact .refuse

theorem Operator.Calculates.compute_written (h : op.Calculates) :
    Gives Value.IsWritten (op.compute data values) := by
  cases h with
  | max | min | add | mul => exact .bind fun _ _ => result_written _
  | sub => exact .bind fun xs _ => difference_written xs
  | div | mod => exact .bind fun xs _ => divide_written xs

end

/-! ## Eager operators -/

section
variable {op : Operator} {data : Value} {values keys : List Value}

/-- Keys that give paths are strings and numbers. -/
theorem missingKeys_literal :
    Gives (fun found => ∀ key ∈ found, key.isLiteral = true)
      (Lookup.missingKeys op data keys) := by
  induction keys with
  | nil => exact .ok nofun
  | cons key rest ih =>
    rw [Lookup.missingKeys]
    refine .bind fun path hp => .bind fun more hm => .ok ?_
    have hkey := Value.isLiteral_of_pathText? (pathText?_of_keyPath hp)
    split
    · exact ih more hm
    · exact List.forall_mem_cons.2 ⟨hkey, ih more hm⟩

theorem missingSome_literal :
    Gives (·.isLiteral = true) (Lookup.missingSome op data values) := by
  unfold Lookup.missingSome
  split
  · refine .bind fun found hf => .ok (Value.isLiteral_arr.2 ?_)
    split
    · exact nofun
    · exact missingKeys_literal found hf
  · exact .refuse
  · exact .refuse
  · exact .refuse

theorem unary_literal {f : Value → Value} (hf : ∀ v, (f v).isLiteral = true) :
    Gives (·.isLiteral = true) (Eager.unary op f values) := by
  unfold Eager.unary
  split
  · exact .ok (hf _)
  · exact .refuse

theorem binary_literal {f : Value → Value → Value} (hf : ∀ v w, (f v w).isLiteral = true) :
    Gives (·.isLiteral = true) (Eager.binary op f values) := by
  unfold Eager.binary
  split
  · exact .ok (hf _ _)
  · exact .refuse

theorem search_literal : Gives (·.isLiteral = true) (Text.search op values) := by
  unfold Text.search
  split
  · exact .ok rfl
  · exact .ok rfl
  · exact .refuse
  · exact .refuse

theorem substr_literal : Gives (·.isLiteral = true) (Text.substr op values) := by
  unfold Text.substr
  split
  · exact .bind fun _ _ => .ok rfl
  · exact .bind fun _ _ => .bind fun _ _ => .ok rfl
  · exact .refuse

/-- Operators that neither pick a value nor merge arrays give literals of their own. -/
theorem compute_literal (hv : op ≠ .var) (hm : op ≠ .merge) :
    Gives (·.isLiteral = true) (op.compute data values) := by
  have hnumber (hc : op.Calculates) : Gives (·.isLiteral = true) (op.compute data values) :=
    hc.compute_written.imp fun _ hw => hw.isLiteral
  cases op
  case var => exact absurd rfl hv
  case merge => exact absurd rfl hm
  case missing =>
    exact .bind fun found hf => .ok (Value.isLiteral_arr.2 (missingKeys_literal found hf))
  case missingSome => exact missingSome_literal
  case looseEq | looseNe | strictEq | strictNe => exact binary_literal fun _ _ => rfl
  case not | truth => exact unary_literal fun _ => rfl
  case gt | ge | lt | le | cat => exact .ok rfl
  case max => exact hnumber .max
  case min => exact hnumber .min
  case add => exact hnumber .add
  case sub => exact hnumber .sub
  case mul => exact hnumber .mul
  case div => exact hnumber .div
  case mod => exact hnumber .mod
  case elem => exact search_literal
  case substr => exact substr_literal
  all_goals exact .refuse

/-- `var` gives a value of the data, its default or `null`. -/
theorem var_supplies (h : ∀ v ∈ values, data.Supplies v) :
    Gives data.Supplies (Lookup.var op data values) := by
  refine .bind fun path _ => .ok ?_
  cases hp : Lookup.present? data path with
  | some v => exact .of_occursIn (present?_occursIn hp)
  | none =>
    cases hd : values[1]? with
    | some default => exact h default (List.mem_of_getElem? hd)
    | none => exact .of_isLiteral rfl

theorem merge_supplies (h : ∀ v ∈ values, data.Supplies v) :
    data.Supplies (.arr (Eager.merge values)) := by
  refine Value.supplies_arr_iff.2 fun v hv => ?_
  obtain ⟨operand, ho, hv⟩ := List.mem_flatMap.1 hv
  split at hv
  · exact Value.supplies_arr_iff.1 (h _ ho) v hv
  · obtain rfl := List.mem_singleton.1 hv
    exact h _ ho

theorem logOperand_yields {P : Value → Prop} (h : ∀ v ∈ values, P v) :
    (op.logOperand values).Yields P P := by
  unfold Operator.logOperand
  split
  · next v =>
    have hv := h v (List.mem_singleton_self v)
    exact ⟨fun w hw => List.mem_singleton.1 hw ▸ hv, .ok hv⟩
  · exact .ofResult .refuse

theorem apply_yields (h : ∀ v ∈ values, data.Supplies v) :
    (op.apply data values).Yields data.Supplies data.Supplies := by
  by_cases hl : op = .log
  · subst hl
    exact logOperand_yields h
  · rw [Operator.apply_eq_ofResult hl]
    refine .ofResult ?_
    by_cases hv : op = .var
    · subst hv
      exact var_supplies h
    · by_cases hm : op = .merge
      · subst hm
        exact .ok (merge_supplies h)
      · exact (compute_literal hv hm).imp fun _ => .of_isLiteral

end

/-! ## Arguments and bodies -/

/-- What the meaning gives and logs holds no objects but those of the data. -/
def MakesNoObjects (m : Meaning) : Prop :=
  ∀ data, (m data).Yields data.Supplies data.Supplies

section
variable {P : Value → Prop} {data : Value} {arguments : List Meaning}

theorem evalEach_yields (h : ∀ m ∈ arguments, (m data).Yields P P) :
    (evalEach data arguments).Yields P fun vs => ∀ v ∈ vs, P v := by
  induction arguments with
  | nil => exact .pure nofun
  | cons m rest ih =>
    rw [List.forall_mem_cons] at h
    refine .bind h.1 fun v hv => .bind (ih h.2) fun vs hvs => .pure ?_
    exact List.forall_mem_cons.2 ⟨hv, hvs⟩

theorem choose_yields (hn : P .null) (h : ∀ m ∈ arguments, (m data).Yields P P) :
    (Branch.choose arguments data).Yields P P := by
  induction arguments using Branch.choose.induct with
  | case1 => exact .pure hn
  | case2 otherwise => exact h otherwise (List.mem_singleton_self otherwise)
  | case3 condition branch rest ih =>
    rw [List.forall_mem_cons, List.forall_mem_cons] at h
    exact .bind h.1 fun _ _ => .ite h.2.1 (ih h.2.2)

theorem consult_yields (stop : Bool) (hn : P .null) (h : ∀ m ∈ arguments, (m data).Yields P P) :
    (Branch.consult stop arguments data).Yields P P := by
  induction arguments using Branch.consult.induct with
  | case1 => exact .pure hn
  | case2 last => exact h last (List.mem_singleton_self last)
  | case3 argument next rest ih =>
    rw [List.forall_mem_cons] at h
    exact .bind h.1 fun v hv => .ite (.pure hv) (ih h.2)

theorem branch_yields {op : Operator} (hn : P .null) (h : ∀ m ∈ arguments, (m data).Yields P P) :
    (op.branch arguments data).Yields P P := by
  unfold Operator.branch
  split
  · exact choose_yields hn h
  · exact choose_yields hn h
  · exact consult_yields false hn h
  · exact consult_yields true hn h
  · exact .ofResult .refuse

end

section
variable {P : Value → Prop} {body : Meaning} {items : List Value}
  (hb : ∀ item ∈ items, (body item).Yields P P)

include hb

theorem mapItems_yields : (Scope.mapItems body items).Yields P fun vs => ∀ v ∈ vs, P v := by
  induction items with
  | nil => exact .pure nofun
  | cons item rest ih =>
    rw [List.forall_mem_cons] at hb
    refine .bind hb.1 fun v hv => .bind (ih hb.2) fun vs hvs => .pure ?_
    exact List.forall_mem_cons.2 ⟨hv, hvs⟩

theorem filterItems_yields (hi : ∀ item ∈ items, P item) :
    (Scope.filterItems body items).Yields P fun vs => ∀ v ∈ vs, P v := by
  induction items with
  | nil => exact .pure nofun
  | cons item rest ih =>
    rw [List.forall_mem_cons] at hb hi
    refine .bind hb.1 fun v _ => .bind (ih hb.2 hi.2) fun kept hk => .pure ?_
    split
    · exact List.forall_mem_cons.2 ⟨hi.1, hk⟩
    · exact hk

theorem anyItem_yields (wanted : Bool) :
    (Scope.anyItem wanted body items).Yields P fun _ => True := by
  induction items with
  | nil => exact .pure trivial
  | cons item rest ih =>
    rw [List.forall_mem_cons] at hb
    exact .bind hb.1 fun _ _ => .ite (.pure trivial) (ih hb.2)

theorem allItems_yields : (Scope.allItems body items).Yields P fun _ => True :=
  .ite (.pure trivial) (.bind (anyItem_yields hb false) fun _ _ => .pure trivial)

end

section
variable {data : Value} {arguments : List Meaning} {op : Operator}

theorem collection_yields {source : Meaning}
    (hs : (source data).Yields data.Supplies data.Supplies) :
    (Scope.collection op source data).Yields data.Supplies
      fun items => ∀ item ∈ items, data.Supplies item := by
  refine .bind hs fun v hv => ?_
  cases v with
  | arr items => exact .pure (Value.supplies_arr_iff.1 hv)
  | _ => exact .ofResult .refuse

/-- Items that hold no objects but those of the data give the body no others to make from. -/
theorem MakesNoObjects.on_items {body : Meaning} {items : List Value} (hb : MakesNoObjects body)
    (hi : ∀ item ∈ items, data.Supplies item) :
    ∀ item ∈ items, (body item).Yields data.Supplies data.Supplies :=
  fun item hm => (hb item).imp (fun _ => (hi item hm).trans) fun _ => (hi item hm).trans

theorem iterate_makesNoObjects (hr : op ≠ .reduce) (h : ∀ m ∈ arguments, MakesNoObjects m) :
    MakesNoObjects (op.iterate arguments) := by
  intro data
  unfold Operator.iterate
  split
  case h_3 => exact absurd rfl hr
  case h_7 => exact .ite (.ofResult .refuse) (.ofResult .refuse)
  all_goals
    rw [List.forall_mem_cons, List.forall_mem_singleton] at h
    refine .bind (collection_yields (h.1 data)) fun items hi => ?_
    have hb := h.2.on_items hi
  case h_1 => exact .bind (mapItems_yields hb) fun vs hvs => .pure (Value.supplies_arr_iff.2 hvs)
  case h_2 =>
    exact .bind (filterItems_yields hb hi) fun vs hvs => .pure (Value.supplies_arr_iff.2 hvs)
  case h_4 => exact .bind (allItems_yields hb) fun _ _ => .pure (.of_isLiteral rfl)
  case h_5 | h_6 => exact .bind (anyItem_yields hb true) fun _ _ => .pure (.of_isLiteral rfl)

end

/-! ## Rules -/

section
variable {r : Registry} {name : String} {arguments : List Meaning}

theorem run_makesNoObjects {op : Operator} (hr : op ≠ .reduce)
    (h : ∀ m ∈ arguments, MakesNoObjects m) : MakesNoObjects (op.run arguments) := by
  intro data
  have hdata : ∀ m ∈ arguments, (m data).Yields data.Supplies data.Supplies :=
    fun m hm => h m hm data
  unfold Operator.run
  split
  · cases op.strategy with
    | eager => exact .bind (evalEach_yields hdata) fun _ hv => apply_yields hv
    | shortCircuit => exact branch_yields (.of_isLiteral rfl) hdata
    | «scoped» => exact iterate_makesNoObjects hr h data
  · exact .ofResult .error

theorem dispatch_makesNoObjects (hr : name ≠ Operator.reduce.name)
    (hc : Operator.ofName? name = none → r.find? name = none)
    (h : ∀ m ∈ arguments, MakesNoObjects m) : MakesNoObjects (dispatch r name arguments) := by
  cases hb : Operator.ofName? name with
  | some op =>
    simp only [dispatch, hb]
    refine run_makesNoObjects ?_ h
    rintro rfl
    exact hr (Operator.name_of_ofName? hb).symm
  | none =>
    simp only [dispatch, hb, hc hb]
    exact fun _ => .ofResult .error

/-- A rule that applies built-in operators other than `reduce` makes no objects. -/
theorem eval_makesNoObjects {rule : Value} (hr : Operator.reduce.name ∉ rule.operators)
    (hc : ∀ name ∈ rule.operators, Operator.ofName? name = none → r.find? name = none) :
    MakesNoObjects (eval r rule) := by
  induction rule using Value.rule_induction with
  | h rule ih =>
    have hparts : ∀ m ∈ rule.parts.map (eval r), MakesNoObjects m := by
      refine List.forall_mem_map.2 fun c hp => ih c hp ?_ ?_
      · exact fun hm => hr (Value.mem_operators_of_mem_parts hp hm)
      · exact fun name hm => hc name (Value.mem_operators_of_mem_parts hp hm)
    cases rule with
    | arr items =>
      intro data
      rw [eval_arr]
      have hitems := evalEach_yields fun m hm => hparts m hm data
      exact .bind hitems fun vs hvs => .pure (Value.supplies_arr_iff.2 hvs)
    | obj entries =>
      cases entries with
      | nil => exact fun _ => .pure (.of_isLiteral rfl)
      | cons entry rest =>
        obtain ⟨name, v⟩ := entry
        rw [eval_rule]
        refine dispatch_makesNoObjects ?_ (hc name Value.mem_operators_self) hparts
        rintro rfl
        exact hr Value.mem_operators_self
    | _ => exact fun _ => .pure (.of_isLiteral rfl)

end

/-- **Rules never leak into results.**  A rule that applies built-in operators other than `reduce`
gives and logs no objects but those of the data: every object with entries that occurs in the value
at the end or in a logged value occurs in the data.  What was logged before a failure counts too. -/
theorem objects_occur_in_data (r : Registry) (rule data : Value)
    (hr : Operator.reduce.name ∉ rule.operators)
    (hc : ∀ name ∈ rule.operators, Operator.ofName? name = none → r.find? name = none)
    (entries : List (String × Value)) (hne : entries ≠ []) :
    (∀ v, (eval r rule data).result = .ok v →
      (Value.obj entries).OccursIn v → (Value.obj entries).OccursIn data) ∧
    ∀ v ∈ (eval r rule data).log,
      (Value.obj entries).OccursIn v → (Value.obj entries).OccursIn data := by
  have h := eval_makesNoObjects hr hc data
  exact ⟨fun v hv => h.result v hv entries hne, fun v hv => h.log v hv entries hne⟩

theorem objects_occur_in_data_users :
    let ann := [("name", Value.str "Ann"), ("on", .bool true)]
    let bob := [("name", Value.str "Bob")]
    let data := Value.obj [("users", .arr [.obj ann, .obj bob])]
    let online := Value.obj [("filter", .arr
      [.obj [("var", .str "users")], .obj [("var", .str "on")]])]
    let failing := Value.obj [("+", .obj [("log", .obj [("var", .str "users.1")])])]
    Operator.reduce.name ∉ online.operators ∧ Operator.reduce.name ∉ failing.operators ∧
      (eval .empty online data).result = .ok (.arr [.obj ann]) ∧ (Value.obj ann).OccursIn data ∧
      (eval .empty failing data).result = .error (.notANumber "+" (.obj bob)) ∧
      (eval .empty failing data).log = [.obj bob] ∧ (Value.obj bob).OccursIn data := by
  intro ann bob data online failing
  have ho : Operator.reduce.name ∉ online.operators := by decide
  have hf : Operator.reduce.name ∉ failing.operators := by decide
  have hann : (Value.obj ann).OccursIn (.arr [.obj ann]) := .item List.mem_cons_self .self
  refine ⟨ho, hf, rfl, ?_, rfl, rfl, ?_⟩
  · exact (objects_occur_in_data .empty online data ho (fun _ _ _ => rfl) ann nofun).1 _ rfl hann
  · exact (objects_occur_in_data .empty failing data hf (fun _ _ _ => rfl) bob nofun).2 _
      (List.mem_singleton_self _) .self

-- `reduce` does make objects
example : (eval .empty (.obj [("reduce", .arr [.arr [.str "x"], .obj [("var", .str "")], .null])])
    .null).result = .ok (.obj [("accumulator", .null), ("current", .str "x")]) := rfl

end RuleLogic
