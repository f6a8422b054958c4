import RuleLogic.EvalError

/-!
# Custom operators

A registry holds the operators that are added to the built-in ones.  Under each name it holds the
operator registered last.

    (r.register f).find? f.name = some f
    (r.register f).find? other = r.find? other      for every other name
-/

namespace RuleLogic

/-- An added operator: it accepts `least` to `most` arguments and receives them evaluated. -/
structure CustomOperator where
  name : String
  least : Nat
  most : Nat
  call : List Value → Except EvalError Value

def CustomOperator.arity (f : CustomOperator) : Arity := .between f.least f.most

/-! ## Registries -/

/-- The added operators, one for each name. -/
structure Registry where
  operators : List CustomOperator

namespace Registry

def empty : Registry := ⟨[]⟩

/-- Add an operator in place of any of the same name. -/
def register (r : Registry) (f : CustomOperator) : Registry :=
  ⟨f :: r.operators.filter fun g => g.name != f.name⟩

def find? (r : Registry) (name : String) : Option CustomOperator :=
  r.operators.find? fun f => f.name == name

def ofList (fs : List CustomOperator) : Registry := fs.foldl register empty

/-- The registered names, as the registry happens to list its operators. -/
def names (r : Registry) : List String := r.operators.map (·.name)

def isEmpty (r : Registry) : Bool := r.operators.isEmpty

/-! ## Lemmas -/

theorem find?_register_self (r : Registry) (f : CustomOperator) :
    (r.register f).find? f.name = some f := by
  simp [register, find?]

theorem find?_register_of_ne (r : Registry) {f : CustomOperator} {name : String}
    (h : name ≠ f.name) : (r.register f).find? name = r.find? name := by
  have hf : (f.name == name) = false := by simpa using h.symm
  have hg : (fun g : CustomOperator => decide (g.name != f.name ∧ g.name == name))
      = fun g => g.name == name := by
    funext g
    by_cases hn : g.name = name <;> simp [hn, h]
  simp only [register, find?, List.find?_cons, hf, List.find?_filter]
  simpa using congrArg (fun p => r.operators.find? p) hg

theorem name_of_find? {r : Registry} {name : String} {f : CustomOperator}
    (h : r.find? name = some f) : f.name = name := by
  simpa using List.find?_some h

/-- The names are those under which an operator is found. -/
theorem mem_names_iff {r : Registry} {name : String} : name ∈ r.names ↔ (r.find? name).isSome := by
  rw [names, List.mem_map, find?, List.find?_isSome]
  simp only [beq_iff_eq]

end Registry

end RuleLogic
