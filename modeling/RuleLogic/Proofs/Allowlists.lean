import RuleLogic.Proofs.NameLists
import RuleLogic.Proofs.Validity

/-!
# Larger allowlists

Validation looks at the allowlist where it meets an operator: it asks whether the name is accepted,
and it lists all accepted names when this one is not.  A rule that is valid with some custom names
has the same report with more of them, because it applies none that is unknown.  Built-in names in
the list change nothing at all.

    visited nodes are treated alike → findings small place rule = findings large place rule
                                                             (findings_congr)
    valid with small, small ⊆ large → validate large rule = validate small rule
                                                             (validate_of_subset)
-/

namespace RuleLogic

open Validation

/-! ## Nodes that are treated alike -/

/-- Both lists accept the operator of a node or both do not, and they have the same problems with
it. -/
structure Value.TreatedAlike (custom custom' : Allowlist) (v : Value) : Prop where
  problems : v.problems custom = v.problems custom'
  opens : v.opens custom.accepts = v.opens custom'.accepts

section
variable {custom custom' : Allowlist}

theorem Value.TreatedAlike.of_not_operator {v : Value}
    (h : ∀ name w rest, v ≠ .obj ((name, w) :: rest)) : v.TreatedAlike custom custom' := by
  match v with
  | .null | .bool _ | .num _ | .str _ | .arr _ | .obj [] => exact ⟨rfl, rfl⟩
  | .obj ((name, w) :: rest) => exact absurd rfl (h name w rest)

/-- An operator that both lists accept is treated alike. -/
theorem Value.TreatedAlike.of_accepts {name : String} {w : Value} {rest : List (String × Value)}
    (h : custom.accepts name = true) (h' : custom'.accepts name = true) :
    (Value.obj ((name, w) :: rest)).TreatedAlike custom custom' := by
  refine ⟨?_, h.trans h'.symm⟩
  simp only [Value.problems, nodeProblems, h, h', if_true]

/-- Validation with either list finds the same where it treats all nodes that it visits alike. -/
theorem findings_congr {place : Place} {rule : Value}
    (h : ∀ p node, NodeAt custom.accepts rule p node → node.TreatedAlike custom custom') :
    findings custom place rule = findings custom' place rule := by
  induction rule using Value.rule_induction generalizing place with
  | h rule ih =>
    have hroot := h [] rule .here
    rw [findings_eq, findings_eq, ← hroot.problems, ← hroot.opens]
    congr 1
    split
    · next ho =>
      refine List.flatMap_congr fun ⟨s, c⟩ hs => ih c (mem_parts_of_mem_steps hs) fun p node hn => ?_
      exact h (s :: p) node (.down ho hs hn)
    · rfl

end

/-! ## More names -/

theorem Allowlist.accepts_iff {custom : Allowlist} {name : String} :
    custom.accepts name = true ↔ (Operator.ofName? name).isSome = true ∨ name ∈ custom := by
  rw [accepts, Bool.or_eq_true, List.contains_iff_mem]

theorem Allowlist.accepts_of_subset {small large : Allowlist} (h : ∀ name ∈ small, name ∈ large)
    {name : String} (ha : small.accepts name = true) : large.accepts name = true := by
  rw [accepts_iff] at ha ⊢
  exact ha.imp_right (h name)

/-- A rule without errors applies no unknown operator. -/
theorem accepts_of_valid {custom : Allowlist} {rule : Value}
    (hv : (validate custom rule).valid = true) {place : Place} {name : String} {v : Value}
    {rest : List (String × Value)}
    (hn : NodeAt custom.accepts rule place (.obj ((name, v) :: rest))) :
    custom.accepts name = true := by
  rw [← Bool.not_eq_false]
  intro hk
  have herror := mem_errors_of_problem hn (unknownOperator_mem_problems hk) rfl
  rw [errors_eq_nil_of_valid hv] at herror
  cases herror

theorem validate_of_subset {small large : Allowlist} (h : ∀ name ∈ small, name ∈ large)
    {rule : Value} (hv : (validate small rule).valid = true) :
    validate large rule = validate small rule := by
  have hfindings : findings small [] rule = findings large [] rule := by
    refine findings_congr fun p node hn => ?_
    by_cases hnode : ∃ name v rest, node = .obj ((name, v) :: rest)
    · obtain ⟨name, v, rest, rfl⟩ := hnode
      have hk := accepts_of_valid hv hn
      exact .of_accepts hk (Allowlist.accepts_of_subset h hk)
    · exact .of_not_operator fun name v rest heq => hnode ⟨name, v, rest, heq⟩
  rw [validate_eq, validate_eq, hfindings]

/-! ## Built-in names -/

theorem Operator.isSome_ofName? {name : String} (h : name ∈ Operator.builtinNames) :
    (Operator.ofName? name).isSome = true := by
  obtain ⟨op, -, rfl⟩ := List.mem_map.1 h
  rw [Operator.ofName?_name]
  rfl

section
variable {custom custom' : Allowlist}
  (h : ∀ name, name ∉ Operator.builtinNames → (name ∈ custom ↔ name ∈ custom'))

include h

/-- Lists that differ in built-in names only accept the same names. -/
theorem accepts_congr (name : String) : custom.accepts name = custom'.accepts name := by
  rw [Bool.eq_iff_iff, Allowlist.accepts_iff, Allowlist.accepts_iff]
  by_cases hb : name ∈ Operator.builtinNames
  · simp only [Operator.isSome_ofName? hb, true_or]
  · rw [h name hb]

theorem known_congr : custom.known = custom'.known := by
  refine Names.sort_congr fun name => ?_
  rw [List.mem_append, List.mem_append]
  by_cases hb : name ∈ Operator.builtinNames
  · simp only [hb, true_or]
  · rw [h name hb]

/-- They make no difference to a report. -/
theorem validate_congr (rule : Value) : validate custom rule = validate custom' rule := by
  have hopens : custom.accepts = custom'.accepts := funext (accepts_congr h)
  have hfindings : findings custom [] rule = findings custom' [] rule := by
    refine findings_congr fun p node _ => ⟨?_, by rw [hopens]⟩
    unfold Value.problems nodeProblems
    rw [hopens, known_congr h]
  rw [validate_eq, validate_eq, hfindings]

end

/-- **Validity is stable under a larger allowlist.**  A rule that is valid with some custom names
has no errors with more of them, and the same warnings.  Built-in names may be added to the list
freely: no report on any rule changes, nor the list of operators that it quotes. -/
theorem validate_larger_allowlist (rule : Value) :
    (∀ small large : Allowlist, (∀ name ∈ small, name ∈ large) →
      (validate small rule).valid = true →
      validate large rule = validate small rule ∧ (validate large rule).errors = []) ∧
    ∀ custom builtins larger : Allowlist, (∀ name ∈ builtins, name ∈ Operator.builtinNames) →
      (∀ name, name ∈ larger ↔ name ∈ custom ∨ name ∈ builtins) →
      validate larger rule = validate custom rule ∧ larger.known = custom.known := by
  refine ⟨fun small large h hv => ?_, fun custom builtins larger hb hl => ?_⟩
  · have hreport := validate_of_subset h hv
    refine ⟨hreport, ?_⟩
    rw [hreport]
    exact errors_eq_nil_of_valid hv
  · have hsame : ∀ name, name ∉ Operator.builtinNames → (name ∈ larger ↔ name ∈ custom) := by
      intro name hname
      rw [hl, or_iff_left fun hbuiltin => hname (hb name hbuiltin)]
    exact ⟨validate_congr hsame rule, known_congr hsame⟩

theorem validate_larger_allowlist_choice :
    let rule := Value.obj [("f", .arr [.obj [("if", .arr [.null, .null, .null, .null])]])]
    (∀ name ∈ ["f"], name ∈ ["g", "f"]) ∧ (validate ["f"] rule).valid = true ∧
      validate ["g", "f"] rule = validate ["f"] rule ∧
      (validate ["g", "f"] rule).warnings =
        [⟨⟨[.argument "f" 0], .noElse .choose 4⟩, .warning⟩] ∧
      (∀ name ∈ ["if", "cat"], name ∈ Operator.builtinNames) ∧
      (∀ name, name ∈ ["cat", "g", "if"] ↔ name ∈ ["g"] ∨ name ∈ ["if", "cat"]) ∧
      (validate ["g"] rule).valid = false ∧
      validate ["cat", "g", "if"] rule = validate ["g"] rule := by
  intro rule
  obtain ⟨hlarger, hbuiltin⟩ := validate_larger_allowlist rule
  have hsubset : ∀ name ∈ ["f"], name ∈ ["g", "f"] := by decide
  have hvalid : (validate ["f"] rule).valid = true := by decide
  have hnames : ∀ name ∈ ["if", "cat"], name ∈ Operator.builtinNames := by decide
  have hboth : ∀ name, name ∈ ["cat", "g", "if"] ↔ name ∈ ["g"] ∨ name ∈ ["if", "cat"] := by
    intro name
    simp only [List.mem_cons, List.not_mem_nil, or_false]
    constructor
    · rintro (h | h | h)
      · exact .inr (.inr h)
      · exact .inl h
      · exact .inr (.inl h)
    · rintro (h | h | h)
      · exact .inr (.inl h)
      · exact .inr (.inr h)
      · exact .inl h
  exact ⟨hsubset, hvalid, (hlarger _ _ hsubset hvalid).1, by decide, hnames, hboth, by decide,
    (hbuiltin _ _ _ hnames hboth).1⟩

end RuleLogic
