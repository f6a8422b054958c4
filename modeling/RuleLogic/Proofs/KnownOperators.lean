import RuleLogic.Proofs.Allowlists
import RuleLogic.Proofs.Places

/-!
# The known operators

The names that are listed as known, those under which validation goes on, and those that an
evaluator applies are the same, though each is looked up in its own way.

    name ∈ custom.known ↔ custom.accepts name = true                       (mem_known_iff)
    an application fails → it raises the error itself or an argument fails with it
                                                                           (eval_rule_error)
-/

namespace RuleLogic

open Validation

/-! ## The list -/

section
variable {custom : Allowlist} {name : String}

theorem Operator.mem_builtinNames_iff :
    name ∈ Operator.builtinNames ↔ (Operator.ofName? name).isSome = true := by
  refine ⟨Operator.isSome_ofName?, fun h => ?_⟩
  obtain ⟨op, hb⟩ := Option.isSome_iff_exists.1 h
  exact List.mem_map.2 ⟨op, Operator.mem_builtins op, Operator.name_of_ofName? hb⟩

theorem Allowlist.mem_known_iff : name ∈ custom.known ↔ custom.accepts name = true := by
  rw [known, Names.mem_sort, List.mem_append, Operator.mem_builtinNames_iff, accepts_iff]

theorem Allowlist.mem_foldl_extend_iff {lists : List (List String)} :
    name ∈ lists.foldl Allowlist.extend custom ↔ name ∈ custom ∨ ∃ names ∈ lists, name ∈ names := by
  induction lists generalizing custom with
  | nil => simp
  | cons names rest ih =>
    rw [List.foldl_cons, ih, Allowlist.extend, List.mem_append, or_assoc, List.exists_mem_cons_iff]

/-- Names are compared by the code points of their characters. -/
theorem codePoints_lt_of_lt {a b : String} (h : a < b) :
    a.toList.map Char.toNat < b.toList.map Char.toNat :=
  List.map_lt (fun _ _ hc => UInt32.lt_iff_toNat_lt.1 hc) (String.lt_iff_toList_lt.1 h)

theorem Allowlist.pairwise_known (custom : Allowlist) :
    custom.known.Pairwise fun a b => a.toList.map Char.toNat < b.toList.map Char.toNat :=
  (Names.pairwise_sort _).imp codePoints_lt_of_lt

end

/-! ## Validation of a single operator -/

theorem Place.text_eq_root_iff {p : Place} : p.text = "root" ↔ p = [] := by
  rw [Place.text_eq, String.append_eq_left_iff, Place.stepsText_eq_empty_iff]

section
variable {custom : Allowlist} {name : String} {v : Value} {rest : List (String × Value)}

/-- An accepted operator is never called unknown. -/
theorem unknownOperator_not_mem_problems (h : custom.accepts name = true) (unknown : String)
    (known : List String) :
    .unknownOperator unknown known ∉ (Value.obj ((name, v) :: rest)).problems custom := by
  intro hp
  obtain hkeys | ⟨op, -, hfew | ⟨most, hmany⟩ | hshape⟩ := cases_of_mem_problems h hp
  · cases hkeys
  · cases hfew
  · cases hmany
  · cases shapeProblems_not_operatorFault hshape

theorem mem_known_iff_validate : name ∈ custom.known ↔
    ∀ f ∈ (validate custom (.obj ((name, v) :: rest))).errors, f.place.text = "root" →
      ∀ unknown known, f.problem ≠ .unknownOperator unknown known := by
  rw [Allowlist.mem_known_iff]
  constructor
  · intro h f hf hplace unknown known hproblem
    obtain ⟨-, node, hn, hp, -⟩ := mem_errors_iff.1 hf
    rw [Place.text_eq_root_iff.1 hplace] at hn
    cases hn
    rw [hproblem] at hp
    exact unknownOperator_not_mem_problems h unknown known hp
  · intro h
    by_contra hk
    rw [Bool.not_eq_true] at hk
    refine h ⟨⟨[], .unknownOperator name custom.known⟩, .error⟩ ?_ rfl name custom.known rfl
    exact mem_errors_of_problem .here (unknownOperator_mem_problems hk) rfl

end

/-! ## Evaluation of a single operator -/

/-- An application fails by itself, or because an argument fails. -/
theorem eval_rule_error {r : Registry} {name : String} {v data : Value}
    {rest : List (String × Value)} {e : EvalError}
    (h : (eval r (.obj ((name, v) :: rest)) data).result = .error e) :
    Raises r name ((argumentsOf v).map (eval r)) e ∨
      ∃ c ∈ argumentsOf v, ∃ data, (eval r c data).result = .error e := by
  rw [eval_rule] at h
  have harguments : List.Forall₂ (fun m m' => ∀ data, (Congruence.failsIn fun e =>
        Raises r name ((argumentsOf v).map (eval r)) e ∨
          ∃ c ∈ argumentsOf v, ∃ data, (eval r c data).result = .error e).Rel (m data) (m' data))
      ((argumentsOf v).map (eval r)) ((argumentsOf v).map (eval r)) := by
    rw [List.forall₂_same]
    intro m hm data
    obtain ⟨c, hc, rfl⟩ := List.mem_map.1 hm
    exact ⟨rfl, fun e he => .inr ⟨c, hc, data, he⟩⟩
  exact ((Congruence.failsIn _).dispatch (fun x hx => ⟨rfl, fun e he => .inl (hx e he)⟩)
    (fun _ => harguments) data).2 e h

/-- Among the errors that an argument fails with, or that the custom operator of the name gives. -/
def Evaluator.PassesOn (ev : Evaluator) (name : String) (arguments : List Value) (e : EvalError) :
    Prop :=
  (∃ c ∈ arguments, ∃ data, (ev.evaluate c data).result = .error e) ∨
    Operator.ofName? name = none ∧
      ∃ f values, ev.registry.find? name = some f ∧ f.call values = .error e

section
variable {ev : Evaluator} {name : String}

theorem evaluate_of_not_known (h : name ∉ ev.allowlist.known) (v : Value)
    (rest : List (String × Value)) (data : Value) :
    ev.evaluate (.obj ((name, v) :: rest)) data = .fail (.unknownOperator name) := by
  rw [Allowlist.mem_known_iff, accepts_allowlist, Registry.knows, Bool.or_eq_true, not_or,
    Bool.not_eq_true, Bool.not_eq_true, Option.isSome_eq_false_iff, Option.isSome_eq_false_iff,
    Option.isNone_iff_eq_none, Option.isNone_iff_eq_none] at h
  show eval ev.registry (.obj ((name, v) :: rest)) data = _
  rw [eval_rule, dispatch, h.1, h.2]

theorem passesOn_of_known (h : name ∈ ev.allowlist.known) {v data : Value}
    {rest : List (String × Value)} {unknown : String}
    (he : (ev.evaluate (.obj ((name, v) :: rest)) data).result =
      .error (.unknownOperator unknown)) :
    ev.PassesOn name (argumentsOf v) (.unknownOperator unknown) := by
  rcases eval_rule_error he with hraises | hargument
  · generalize hunknown : EvalError.unknownOperator unknown = e at hraises
    cases hraises with
    | unknown hb hc =>
      rw [Allowlist.mem_known_iff, accepts_allowlist, Registry.knows, hb, hc] at h
      cases h
    | count | notAnArray | customCount => cases hunknown
    | apply hb hs hn hv herror =>
      subst hunknown
      exact absurd (apply_isOf_of_evalEach hs hn hv herror) id
    | call hb hc herror => exact .inr ⟨hb, _, _, hc, herror⟩
  · exact .inl hargument

end

/-! ## All three -/

/-- **The known operators are those that are accepted and those that are applied.**  However many
names are accepted in however many lists, the known ones are listed in strictly ascending order of
their code points, and they are the built-in names and the given ones.  A name is known iff
validation does not report it as unknown at the root, whatever stands under it.  For an evaluator a
name is known iff applying it never fails with an unknown operator but one that an argument or the
custom operator itself reports; applying any other name fails at once. -/
theorem known_operators_coincide (lists : List (List String)) (name : String) :
    let custom := lists.foldl Allowlist.extend []
    (custom.known.Pairwise fun a b => a.toList.map Char.toNat < b.toList.map Char.toNat) ∧
    (name ∈ custom.known ↔ name ∈ Operator.builtinNames ∨ ∃ names ∈ lists, name ∈ names) ∧
    (∀ v rest, name ∈ custom.known ↔
      ∀ f ∈ (validate custom (.obj ((name, v) :: rest))).errors, f.place.text = "root" →
        ∀ unknown known, f.problem ≠ .unknownOperator unknown known) ∧
    ∀ ev : Evaluator,
      (name ∈ ev.allowlist.known ↔ ∀ v rest data unknown,
        (ev.evaluate (.obj ((name, v) :: rest)) data).result = .error (.unknownOperator unknown) →
          ev.PassesOn name (argumentsOf v) (.unknownOperator unknown)) ∧
      (name ∉ ev.allowlist.known → ∀ v rest data,
        ev.evaluate (.obj ((name, v) :: rest)) data = .fail (.unknownOperator name)) := by
  intro custom
  refine ⟨custom.pairwise_known, ?_, fun v rest => mem_known_iff_validate, fun ev => ⟨⟨?_, ?_⟩, ?_⟩⟩
  · have hcustom : name ∈ custom ↔ ∃ names ∈ lists, name ∈ names := by
      rw [Allowlist.mem_foldl_extend_iff, or_iff_right List.not_mem_nil]
    rw [Allowlist.known, Names.mem_sort, List.mem_append, hcustom]
  · intro h v rest data unknown he
    exact passesOn_of_known h he
  · intro h
    by_contra hk
    -- without arguments and without an operator nothing can report it but the application
    have he := evaluate_of_not_known hk (.arr []) [] .null
    rcases h (.arr []) [] .null name (by rw [he]; rfl) with ⟨c, hc, -⟩ | ⟨hb, f, values, hf, -⟩
    · cases hc
    · refine hk (Allowlist.mem_known_iff.2 ?_)
      rw [accepts_allowlist, Registry.knows, hf, Option.isSome_some, Bool.or_true]
  · intro h v rest data
    exact evaluate_of_not_known h v rest data

theorem known_operators_coincide_repeated :
    let custom := [["é", "b"], ["b", "var", ""]].foldl Allowlist.extend []
    let ev := Evaluator.builtin.register ⟨"f", 0, 1, fun _ => .error (.unknownOperator "f")⟩
    let logging := Value.obj [("log", .arr [.null])]
    custom.known.head? = some "" ∧ custom.known.getLast? = some "é" ∧ custom.known.length = 38 ∧
      (custom.known.Pairwise fun a b => a.toList.map Char.toNat < b.toList.map Char.toNat) ∧
      "é" ∈ custom.known ∧
      (∀ f ∈ (validate custom (.obj [("é", .arr [.obj [("c", .null)]])])).errors,
        f.place.text = "root" → ∀ unknown known, f.problem ≠ .unknownOperator unknown known) ∧
      "f" ∈ ev.allowlist.known ∧
      (ev.evaluate (.obj [("f", .arr [logging])]) .null).result = .error (.unknownOperator "f") ∧
      ev.PassesOn "f" [logging] (.unknownOperator "f") ∧
      "g" ∉ ev.allowlist.known ∧
      ev.evaluate (.obj [("g", .arr [logging])]) .null = .fail (.unknownOperator "g") := by
  intro custom ev logging
  obtain ⟨hsorted, -, hvalidate, -⟩ :=
    known_operators_coincide [["é", "b"], ["b", "var", ""]] "é"
  have hknown : "é" ∈ custom.known := by decide
  have hf : "f" ∈ ev.allowlist.known := by decide
  have hg : "g" ∉ ev.allowlist.known := by decide
  have he : (ev.evaluate (.obj [("f", .arr [logging])]) .null).result =
      .error (.unknownOperator "f") := rfl
  refine ⟨by decide, by decide, by decide, hsorted, hknown, (hvalidate _ []).1 hknown, hf, he, ?_,
    hg, ?_⟩
  · exact ((known_operators_coincide [] "f").2.2.2 ev).1.1 hf (.arr [logging]) [] .null "f" he
  · exact ((known_operators_coincide [] "g").2.2.2 ev).2 hg (.arr [logging]) [] .null

end RuleLogic
