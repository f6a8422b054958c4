import RuleLogic.Proofs.Congruence
import RuleLogic.Proofs.Literal

/-!
# What a rule reads

A node is outer if it is not inside the body of a scoped operator.  Only outer nodes see the data of
the rule, and of these only `var`, `missing` and `missing_some` look into it.  Where they write out
their paths, the rule depends on the data only through what these paths lead to.

    every named path leads to the same on d and d' → eval r rule d = eval r rule d'
                                                             (eval_eq_of_namedPaths)
-/

namespace RuleLogic

/-! ## Outer nodes -/

/-- The parts that are evaluated with the data of the rule: all but bodies. -/
def Value.outerParts : Value → List Value
  | .arr items => items
  | .obj ((name, v) :: _) => outerArguments name (argumentsOf v)
  | _ => []

/-- An outer node of the rule applies the operator of the name to the arguments. -/
inductive Value.OuterApplies : Value → String → List Value → Prop
  | root {name : String} {v : Value} {rest : List (String × Value)} :
    OuterApplies (.obj ((name, v) :: rest)) name (argumentsOf v)
  | part {rule c : Value} {name : String} {arguments : List Value} (hc : c ∈ rule.outerParts)
    (h : OuterApplies c name arguments) : OuterApplies rule name arguments

theorem outerArguments_subset {α : Type} {name : String} {arguments : List α} :
    outerArguments name arguments ⊆ arguments := by
  unfold outerArguments
  split
  · exact List.append_subset.2 ⟨List.take_subset 1 arguments, List.drop_subset 2 arguments⟩
  · exact List.Subset.refl arguments

theorem outerParts_subset_parts (rule : Value) : rule.outerParts ⊆ rule.parts := by
  cases rule with
  | arr items => exact List.Subset.refl items
  | obj entries =>
    cases entries with
    | nil => exact List.nil_subset _
    | cons entry rest => exact outerArguments_subset
  | _ => exact List.nil_subset _

/-! ## Named paths -/

/-- The paths at which an operator looks into the data. -/
def Operator.readPaths (op : Operator) (operands : List Value) : List String :=
  match op with
  | .var =>
    match operands.head?.getD .null with
    | .null => [""]
    | p => p.pathText?.toList
  | .missing => (Lookup.requestedKeys operands).filterMap Value.pathText?
  | .missingSome =>
    match operands with
    | [_, .arr keys] => keys.filterMap Value.pathText?
    | _ => []
  | _ => []

/-- The paths that an application names. -/
def namedPaths (name : String) (arguments : List Value) : List String :=
  match Operator.ofName? name with
  | some op => op.readPaths arguments
  | none => []

/-- Does the application write out the paths at which it looks into the data?  For `var` that is the
first argument, if it has any, and for `missing` and `missing_some` all arguments. -/
def writesPaths (name : String) (arguments : List Value) : Bool :=
  match Operator.ofName? name with
  | some .var =>
    let p := arguments.head?.getD .null
    p.isNull || p.pathText?.isSome
  | some .missing => arguments.all Value.isLiteral
  | some .missingSome => arguments.all Value.isLiteral
  | _ => true

section
variable {op : Operator} {data data' : Value} {operands keys : List Value}

theorem mem_readPaths_var {path : String}
    (h : Lookup.varPath op (operands.head?.getD .null) = .ok path) :
    path ∈ Operator.var.readPaths operands := by
  unfold Operator.readPaths
  cases hp : operands.head?.getD .null with
  | null | str _ | num _ =>
    rw [hp] at h
    cases h
    exact List.mem_singleton_self _
  | bool _ | arr _ | obj _ =>
    rw [hp] at h
    cases h

theorem missingKeys_congr (h : ∀ path ∈ keys.filterMap Value.pathText?,
      Lookup.present? data path = Lookup.present? data' path) :
    Lookup.missingKeys op data keys = Lookup.missingKeys op data' keys := by
  induction keys with
  | nil => rfl
  | cons key rest ih =>
    have hrest : ∀ path ∈ rest.filterMap Value.pathText?,
        Lookup.present? data path = Lookup.present? data' path := by
      intro path hp
      obtain ⟨a, ha, hp⟩ := List.mem_filterMap.1 hp
      exact h path (List.mem_filterMap.2 ⟨a, List.mem_cons_of_mem key ha, hp⟩)
    rw [Lookup.missingKeys, Lookup.missingKeys, ih hrest]
    cases hk : Lookup.keyPath op key with
    | error e => rfl
    | ok path =>
      have hkey := h path (List.mem_filterMap.2 ⟨key, List.mem_cons_self, pathText?_of_keyPath hk⟩)
      show (Lookup.missingKeys op data' rest >>= fun more =>
        pure (if (Lookup.present? data path).isSome = true then more else key :: more)) = _
      rw [hkey]
      rfl

/-- An operator gives the same for the same operands if the paths at which it looks into the data
lead to the same. -/
theorem apply_congr (h : ∀ path ∈ op.readPaths operands,
      Lookup.present? data path = Lookup.present? data' path) :
    op.apply data operands = op.apply data' operands := by
  cases op
  case var =>
    refine congrArg Outcome.ofResult ?_
    show Lookup.var .var data operands = Lookup.var .var data' operands
    unfold Lookup.var
    cases hp : Lookup.varPath .var (operands.head?.getD .null) with
    | error e => rfl
    | ok path =>
      show Except.ok (((Lookup.present? data path).orElse fun _ => operands[1]?).getD .null) = _
      rw [h path (mem_readPaths_var hp)]
      rfl
  case missing =>
    refine congrArg Outcome.ofResult ?_
    show Lookup.missing .missing data operands = Lookup.missing .missing data' operands
    rw [Lookup.missing, Lookup.missing, missingKeys_congr h]
  case missingSome =>
    refine congrArg Outcome.ofResult ?_
    show Lookup.missingSome .missingSome data operands =
      Lookup.missingSome .missingSome data' operands
    unfold Lookup.missingSome
    split
    · rw [missingKeys_congr h]
    · rfl
    · rfl
    · rfl
  all_goals rfl

end

/-! ## Evaluation on data that agree -/

section
variable {r : Registry} {name : String} {arguments values : List Value} {data : Value}

/-- Written paths are still there when the arguments have been evaluated. -/
theorem readPaths_values {op : Operator} (hb : Operator.ofName? name = some op)
    (hw : writesPaths name arguments = true)
    (hv : (evalEach data (arguments.map (eval r))).result = .ok values) :
    op.readPaths values = namedPaths name arguments := by
  simp only [namedPaths, hb]
  simp only [writesPaths, hb] at hw
  cases op
  case var =>
    -- only the first operand matters, and it is the first argument
    have hhead : values.head?.getD .null = arguments.head?.getD .null := by
      cases arguments with
      | nil =>
        cases hv
        rfl
      | cons p rest =>
        have hlit : p.isLiteral = true := by
          rcases Bool.or_eq_true_iff.1 hw with hnull | hpath
          · cases p <;> first | rfl | cases hnull
          · exact Value.isLiteral_of_pathText? (Option.isSome_iff_exists.1 hpath).choose_spec
        obtain _ | ⟨hp, -⟩ := forall₂_of_evalEach hv
        rw [eval_literal hlit] at hp
        cases hp
        rfl
    simp only [Operator.readPaths, hhead]
  case missing | missingSome =>
    rw [evalEach_literals (List.all_eq_true.1 hw)] at hv
    cases hv
    rfl
  all_goals rfl

end

/-- **A rule reads only the paths that it names.**  If the outer nodes of a rule write out the paths
at which they look into the data, the rule has the same result and the same log on all data in which
these paths lead to the same values, `null` counting as none. -/
theorem eval_eq_of_namedPaths (r : Registry) (rule data data' : Value)
    (hw : ∀ name arguments, rule.OuterApplies name arguments → writesPaths name arguments = true)
    (h : ∀ name arguments, rule.OuterApplies name arguments →
      ∀ path ∈ namedPaths name arguments,
        Lookup.present? data path = Lookup.present? data' path) :
    eval r rule data = eval r rule data' := by
  induction rule using Value.rule_induction with
  | h rule ih =>
    -- outer parts do the same on both data
    have houter : List.Forall₂ (fun m m' => Congruence.same.Rel (m data) (m' data'))
        (rule.outerParts.map (eval r)) (rule.outerParts.map (eval r)) := by
      refine List.forall₂_same.2 (List.forall_mem_map.2 fun c hc => ?_)
      exact ih c (outerParts_subset_parts rule hc)
        (fun name arguments ha => hw name arguments (.part hc ha))
        (fun name arguments ha => h name arguments (.part hc ha))
    cases rule with
    | arr items =>
      rw [eval_arr, eval_arr]
      exact congrArg (· >>= _) (Congruence.same.evalEach houter)
    | obj entries =>
      cases entries with
      | nil => rfl
      | cons entry rest =>
        obtain ⟨name, v⟩ := entry
        rw [eval_rule]
        refine Congruence.same.dispatch_of_arguments (fun _ _ => rfl)
          (fun op values hb _ _ hv => ?_) fun _ => ⟨?_, ?_⟩
        · refine apply_congr fun path hp => ?_
          rw [readPaths_values hb (hw _ _ .root) hv] at hp
          exact h _ _ .root path hp
        · rw [outerArguments_map]
          exact houter
        · exact List.forall₂_same.2 fun _ _ _ => rfl
    | _ => simp only [eval]

theorem eval_eq_of_namedPaths_filter :
    let rule := Value.obj [("filter", .arr
      [.obj [("var", .str "tags")], .obj [("var", .str "on")]])]
    let tags := Value.arr [.obj [("on", .bool true)], .obj [("off", .null)]]
    let data := Value.obj [("tags", tags), ("on", .str "x")]
    let data' := Value.obj [("on", .null), ("tags", tags)]
    (∀ name arguments, rule.OuterApplies name arguments → writesPaths name arguments = true ∧
      ∀ path ∈ namedPaths name arguments,
        Lookup.present? data path = Lookup.present? data' path) ∧
    eval .empty rule data = eval .empty rule data' := by
  intro rule tags data data'
  have houter : ∀ name arguments, rule.OuterApplies name arguments →
      name = "filter" ∨ name = "var" ∧ arguments = [.str "tags"] := by
    intro name arguments h
    obtain _ | ⟨hc, h⟩ : (Value.obj [("filter", .arr [.obj [("var", .str "tags")],
      .obj [("var", .str "on")]])]).OuterApplies name arguments := h
    · exact .inl rfl
    · obtain rfl := List.mem_singleton.1 hc
      cases h with
      | root => exact .inr ⟨rfl, rfl⟩
      | part hc h =>
        obtain rfl := List.mem_singleton.1 hc
        cases h with
        | part hc _ => cases hc
  have hall : ∀ name arguments, rule.OuterApplies name arguments →
      writesPaths name arguments = true ∧ ∀ path ∈ namedPaths name arguments,
        Lookup.present? data path = Lookup.present? data' path := by
    intro name arguments h
    obtain rfl | ⟨rfl, rfl⟩ := houter name arguments h
    · exact ⟨rfl, nofun⟩
    · refine ⟨rfl, fun path hp => ?_⟩
      obtain rfl := List.mem_singleton.1 hp
      decide
  exact ⟨hall, eval_eq_of_namedPaths .empty rule data data' (fun name arguments h => (hall _ _ h).1)
    fun name arguments h => (hall _ _ h).2⟩

end RuleLogic
