import RuleLogic.Proofs.Congruence
import RuleLogic.Proofs.Literal
import RuleLogic.Validation.DataPaths

/-!
# Paths that resolve need no default

The paths that a rule writes out are the ones that its `var` applications follow.  Where the check
of the paths gives no warning and no `null` hides in the data, every default behind such a path is
idle; and a path that the check warns about leads nowhere, so there the default is taken.

    pathWarnings data rule = [] → eval r rule.dropDefaults data = eval r rule data
    w ∈ pathWarnings data rule → `var` of w.path and a literal D gives D on the data
                                                             (pathWarnings_decide_defaults)
-/

namespace RuleLogic

/-! ## Warnings of single nodes -/

/-- The warnings about a node itself, its parts apart. -/
def ownPathWarnings (data : Value) : Value → List PathWarning
  | .obj ((name, v) :: _) => varWarnings data name v
  | _ => []

section
variable {data rule v : Value} {name path : String} {w : PathWarning}

theorem allPathWarnings_eq_flatMap (items : List Value) :
    allPathWarnings data items = items.flatMap (pathWarnings data) := by
  induction items with
  | nil => rfl
  | cons v rest ih => rw [allPathWarnings, ih, List.flatMap_cons]

theorem pathWarnings_eq (v : Value) :
    pathWarnings data v = ownPathWarnings data v ++ v.parts.flatMap (pathWarnings data) := by
  match v with
  | .null | .bool _ | .num _ | .str _ | .obj [] => rfl
  | .arr items => exact allPathWarnings_eq_flatMap items
  | .obj ((name, .arr items) :: _) =>
    exact congrArg (varWarnings data name (.arr items) ++ ·) (allPathWarnings_eq_flatMap items)
  | .obj ((_, .null) :: _) | .obj ((_, .bool _) :: _) | .obj ((_, .num _) :: _)
  | .obj ((_, .str _) :: _) | .obj ((_, .obj _) :: _) =>
    simp [pathWarnings, ownPathWarnings, Value.parts, argumentsOf]

theorem mem_varWarnings_iff : w ∈ varWarnings data name v ↔
    name = Operator.var.name ∧ literalPath? v = some w.path ∧
      DataPath.walk data w.path = .error w.miss := by
  unfold varWarnings
  by_cases hn : name = Operator.var.name
  · rw [if_pos hn]
    cases literalPath? v with
    | none => simp
    | some path =>
      constructor
      · intro h
        cases hw : DataPath.walk data path with
        | ok u => simp [hw] at h
        | error miss =>
          obtain rfl : w = ⟨path, miss⟩ := by simpa [hw] using h
          exact ⟨hn, rfl, hw⟩
      · rintro ⟨-, ⟨⟩, hw⟩
        simp [hw]
  · rw [if_neg hn]
    simp [hn]

/-- The check warns about the `var` nodes whose written path does not resolve. -/
theorem mem_pathWarnings_iff : w ∈ pathWarnings data rule ↔
    ∃ place v rest, PositionAt rule place (.obj ((Operator.var.name, v) :: rest)) ∧
      literalPath? v = some w.path ∧ DataPath.walk data w.path = .error w.miss := by
  rw [mem_walk_iff pathWarnings_eq]
  constructor
  · rintro ⟨place, node, hn, h⟩
    unfold ownPathWarnings at h
    split at h
    · obtain ⟨rfl, hw⟩ := mem_varWarnings_iff.1 h
      exact ⟨place, _, _, hn, hw⟩
    · cases h
  · rintro ⟨place, v, rest, hn, hw⟩
    exact ⟨place, _, hn, mem_varWarnings_iff.2 ⟨rfl, hw⟩⟩

/-- The check reads the path of `var` as evaluation does, but for the empty one. -/
theorem literalPath?_eq_some_iff : literalPath? v = some path ↔
    ∃ p, (argumentsOf v).head? = some p ∧ p.pathText? = some path ∧ p ≠ .str "" := by
  unfold literalPath?
  cases argumentsOf v with
  | nil => simp
  | cons p rest =>
    cases p with
    | str s =>
      by_cases hs : s = ""
      · simp [Value.pathText?, hs]
      · simp [Value.pathText?, hs]
    | _ => simp [Value.pathText?]

end

/-! ## Dropping defaults -/

/-- Does the value give `var` a path that is written out, a literal default and nothing else? -/
def Value.hasLiteralDefault : Value → Bool
  | .arr [p, default] => p.pathText?.isSome && default.isLiteral
  | _ => false

mutual

/-- The rule without the literal defaults of the `var` nodes whose paths are written out. -/
def Value.dropDefaults : Value → Value
  | .arr items => .arr (Value.dropAllDefaults items)
  | .obj ((name, v) :: rest) =>
    if name = Operator.var.name ∧ v.hasLiteralDefault = true then
      .obj ((name, .arr ((argumentsOf v).take 1)) :: rest)
    else .obj ((name, Value.dropDefaults v) :: rest)
  | literal => literal

def Value.dropAllDefaults : List Value → List Value
  | [] => []
  | v :: rest => Value.dropDefaults v :: Value.dropAllDefaults rest

end

theorem dropAllDefaults_eq_map (items : List Value) :
    Value.dropAllDefaults items = items.map Value.dropDefaults := by
  induction items with
  | nil => rfl
  | cons v rest ih => rw [Value.dropAllDefaults, ih, List.map_cons]

theorem argumentsOf_dropDefaults (v : Value) :
    argumentsOf v.dropDefaults = (argumentsOf v).map Value.dropDefaults := by
  by_cases hk : v.kind = .array
  · cases v with
    | arr items => exact dropAllDefaults_eq_map items
    | _ => cases hk
  · have hk' : v.dropDefaults.kind ≠ .array := by
      unfold Value.dropDefaults
      split
      · exact absurd rfl hk
      · split <;> exact nofun
      · exact hk
    rw [argumentsOf_eq_self hk, argumentsOf_eq_self hk']
    rfl

section
variable {r : Registry} {data : Value}

/-- A literal default behind a path that resolves is not looked at. -/
theorem eval_var_default {p default : Value} {path : String} {rest : List (String × Value)}
    (hp : p.pathText? = some path) (hd : default.isLiteral = true) {found : Value}
    (h : Lookup.present? data path = some found) :
    eval r (.obj ((Operator.var.name, .arr [p]) :: rest)) data =
      eval r (.obj ((Operator.var.name, .arr [p, default]) :: rest)) data := by
  have hsingle : ∀ d ∈ [default], d.isLiteral = true := by simp [hd]
  rw [eval_var hp (by simp) (by simp), eval_var hp hsingle (by simp), h]
  rfl

/-- On data without `null`, a written path resolves unless the check warns about it. -/
theorem exists_present?_of_varWarnings {p default : Value} {path : String}
    (hd : ¬ Value.null.OccursIn data) (hp : p.pathText? = some path)
    (hw : varWarnings data Operator.var.name (.arr [p, default]) = []) :
    ∃ found, Lookup.present? data path = some found := by
  by_cases hempty : p = .str ""
  · subst hempty
    cases hp
    exact ⟨data, exists_present?_of_walk hd rfl⟩
  · cases hwalk : DataPath.walk data path with
    | ok v => exact ⟨v, exists_present?_of_walk hd hwalk⟩
    | error miss =>
      have hmem : ⟨path, miss⟩ ∈ varWarnings data Operator.var.name (.arr [p, default]) :=
        mem_varWarnings_iff.2 ⟨rfl, literalPath?_eq_some_iff.2 ⟨p, rfl, hp, hempty⟩, hwalk⟩
      rw [hw] at hmem
      cases hmem

theorem eval_dropDefaults {rule : Value}
    (hs : ∀ op : Operator, op.strategy = .scoped → op.name ∉ rule.operators)
    (hd : ¬ Value.null.OccursIn data) (hw : pathWarnings data rule = []) :
    eval r rule.dropDefaults data = eval r rule data := by
  induction rule using Value.rule_induction with
  | h rule ih =>
    rw [pathWarnings_eq, List.append_eq_nil_iff, List.flatMap_eq_nil_iff] at hw
    -- parts without defaults have the outcomes of the parts
    have hparts : List.Forall₂ (fun m m' => Congruence.same.Rel (m data) (m' data))
        ((rule.parts.map Value.dropDefaults).map (eval r)) (rule.parts.map (eval r)) := by
      rw [List.map_map, List.forall₂_map_left_iff, List.forall₂_map_right_iff, List.forall₂_same]
      exact fun c hc => ih c hc
        (fun op ho hm => hs op ho (Value.mem_operators_of_mem_parts hc hm)) (hw.2 c hc)
    cases rule with
    | arr items =>
      rw [Value.dropDefaults, dropAllDefaults_eq_map, eval_arr, eval_arr]
      exact congrArg (· >>= _) (Congruence.same.evalEach hparts)
    | obj entries =>
      cases entries with
      | nil => rfl
      | cons entry rest =>
        obtain ⟨name, v⟩ := entry
        rw [Value.dropDefaults]
        split
        · next h =>
          obtain ⟨rfl, hv⟩ := h
          unfold Value.hasLiteralDefault at hv
          split at hv
          · next p default =>
            rw [Bool.and_eq_true, Option.isSome_iff_exists] at hv
            obtain ⟨⟨path, hp⟩, hdefault⟩ := hv
            have hown : varWarnings data Operator.var.name (.arr [p, default]) = [] := hw.1
            obtain ⟨found, hf⟩ := exists_present?_of_varWarnings hd hp hown
            exact eval_var_default hp hdefault hf
          · cases hv
        · rw [eval_rule, eval_rule, argumentsOf_dropDefaults]
          have hbody : hasBody name = false := hasBody_eq_false_of_forall fun op ho hn =>
            hs op ho (hn ▸ Value.mem_operators_self)
          exact Congruence.same.dispatch_of_arguments (fun _ _ => rfl) (fun _ _ _ _ _ _ => rfl)
            fun _ => .of_not_hasBody hbody hparts
    | _ => rfl

end

/-! ## The check and the defaults -/

/-- **The check of the paths decides about the defaults.**  Without warnings, on data in which no
`null` occurs and without scoped operators, the literal defaults of written paths can go: neither
the result nor the log changes.  And each warning is about the written path of some `var` node,
which on these data gives whatever literal default stands behind it. -/
theorem pathWarnings_decide_defaults (r : Registry) (rule data : Value) :
    ((∀ op : Operator, op.strategy = .scoped → op.name ∉ rule.operators) →
      ¬ Value.null.OccursIn data → pathWarnings data rule = [] →
      eval r rule.dropDefaults data = eval r rule data) ∧
    ∀ w ∈ pathWarnings data rule, ∃ place v rest p,
      PositionAt rule place (.obj ((Operator.var.name, v) :: rest)) ∧
      (argumentsOf v).head? = some p ∧ p.pathText? = some w.path ∧
      ∀ d : Value, d.isLiteral = true →
        eval r (.obj [(Operator.var.name, .arr [p, d])]) data = pure d := by
  refine ⟨eval_dropDefaults, fun w hw => ?_⟩
  obtain ⟨place, v, rest, hn, hpath, hmiss⟩ := mem_pathWarnings_iff.1 hw
  obtain ⟨p, hhead, hp, -⟩ := literalPath?_eq_some_iff.1 hpath
  refine ⟨place, v, rest, p, hn, hhead, hp, fun d hd => ?_⟩
  rw [eval_var hp (by simp [hd]) (by simp), present?_of_walk_error hmiss]
  rfl

theorem pathWarnings_decide_defaults_user :
    let rule := Value.obj [("if", .arr [.obj [("var", .arr [.str "user.age", .bool false])],
      .obj [("var", .arr [.str "user.name", .str "nobody"])], .str "minor"])]
    let data := Value.obj [("user", .obj [("age", .bool true), ("name", .str "Ann")])]
    let w : PathWarning := ⟨"user.age", ⟨"", .noKey "user"⟩⟩
    pathWarnings data rule = [] ∧
      rule.dropDefaults = .obj [("if", .arr [.obj [("var", .arr [.str "user.age"])],
        .obj [("var", .arr [.str "user.name"])], .str "minor"])] ∧
      eval .empty rule.dropDefaults data = eval .empty rule data ∧
      w ∈ pathWarnings (.obj []) rule ∧
      ∃ place v rest p, PositionAt rule place (.obj ((Operator.var.name, v) :: rest)) ∧
        (argumentsOf v).head? = some p ∧ p.pathText? = some w.path ∧
        ∀ d : Value, d.isLiteral = true →
          eval .empty (.obj [(Operator.var.name, .arr [p, d])]) (.obj []) = pure d := by
  intro rule data w
  have hs : ∀ op : Operator, op.strategy = .scoped → op.name ∉ rule.operators := by
    intro op ho
    cases op <;> first | decide | cases ho
  have hd : ¬ Value.null.OccursIn data := by
    simp (disch := decide) [data, Value.occursIn_obj_iff, Value.occursIn_scalar_iff]
  have hnone : pathWarnings data rule = [] := by decide
  have hw : w ∈ pathWarnings (.obj []) rule := by decide
  exact ⟨hnone, rfl, (pathWarnings_decide_defaults .empty rule data).1 hs hd hnone, hw,
    (pathWarnings_decide_defaults .empty rule (.obj [])).2 w hw⟩

end RuleLogic
