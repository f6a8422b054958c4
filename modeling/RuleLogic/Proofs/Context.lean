import RuleLogic.Proofs.Congruence

/-!
# Rules in context

A context is a rule with a hole at an element of an array.  What a rule does in a context depends
only on what the rule put into the hole does: a congruence that relates two rules on all data also
relates the context filled with the one and with the other.

    (∃ C, C.fill X = rule) ↔ X is an element at a rule position    (exists_fill_iff)
    R.Agree r X Y → R.Agree r (C.fill X) (C.fill Y)                (Congruence.agree_fill)
    X and Y do the same → C.fill X and C.fill Y do the same        (eval_fill_congr)
-/

namespace RuleLogic

/-- A rule with a hole at an element of an array. -/
inductive RuleContext where
  /-- The hole is an element of the array. -/
  | element (before after : List Value)
  /-- The hole is further inside an element of the array. -/
  | item (before : List Value) (inner : RuleContext) (after : List Value)
  /-- The hole is under the first key of the object. -/
  | argument (name : String) (inner : RuleContext) (rest : List (String × Value))

/-- The context with a rule in its hole. -/
def RuleContext.fill : RuleContext → Value → Value
  | element before after, X => .arr (before ++ X :: after)
  | item before inner after, X => .arr (before ++ inner.fill X :: after)
  | argument name inner rest, X => .obj ((name, inner.fill X) :: rest)

/-! ## Holes are the elements at rule positions -/

def Step.isElement : Step → Bool
  | .item _ => true
  | .argument .. => true
  | .bare _ => false

theorem mem_steps_append (before after : List Value) (c : Value) :
    (Step.item before.length, c) ∈ (Value.arr (before ++ c :: after)).steps := by
  refine List.mem_map.2 ⟨(c, before.length), ?_, rfl⟩
  rw [List.mk_mem_zipIdx_iff_getElem?, List.getElem?_append_right (Nat.le_refl _), Nat.sub_self]
  rfl

/-- An element of an array is an argument when the array is the value of an operator. -/
theorem mem_steps_argument {items : List Value} {i : Nat} {c : Value}
    (h : (Step.item i, c) ∈ (Value.arr items).steps) (name : String)
    (rest : List (String × Value)) :
    (Step.argument name i, c) ∈ (Value.obj ((name, .arr items) :: rest)).steps := by
  obtain ⟨⟨c', i'⟩, hc, he⟩ := List.mem_map.1 h
  cases he
  exact List.mem_map.2 ⟨(c, i), hc, rfl⟩

theorem eq_of_mem_zipIdx_map {items : List Value} {step : Nat → Step} {s : Step} {c : Value}
    (h : (s, c) ∈ items.zipIdx.map fun (c, i) => (step i, c)) :
    (∃ i, s = step i) ∧ ∃ before after, items = before ++ c :: after := by
  obtain ⟨⟨c', i⟩, hc, he⟩ := List.mem_map.1 h
  cases he
  exact ⟨⟨i, rfl⟩, List.append_of_mem (List.fst_mem_of_mem_zipIdx hc)⟩

/-- One step down leads to an element of an array, or to the only argument of an operator. -/
theorem cases_of_mem_steps {v c : Value} {s : Step} (h : (s, c) ∈ v.steps) :
    (∃ before after, v = .arr (before ++ c :: after)) ∨
    (∃ name before after rest, v = .obj ((name, .arr (before ++ c :: after)) :: rest)) ∨
    (∃ name rest, v = .obj ((name, c) :: rest) ∧ s.isElement = false) := by
  cases v with
  | arr items =>
    obtain ⟨⟨i, rfl⟩, before, after, rfl⟩ := eq_of_mem_zipIdx_map h
    exact .inl ⟨before, after, rfl⟩
  | obj entries =>
    cases entries with
    | nil => cases h
    | cons entry rest =>
      obtain ⟨name, w⟩ := entry
      by_cases hw : w.kind = .array
      · cases w with
        | arr items =>
          obtain ⟨⟨i, rfl⟩, before, after, rfl⟩ := eq_of_mem_zipIdx_map h
          exact .inr (.inl ⟨name, before, after, rest, rfl⟩)
        | _ => cases hw
      · rw [steps_of_not_array hw] at h
        obtain ⟨rfl, rfl⟩ := Prod.mk.inj (List.mem_singleton.1 h)
        exact .inr (.inr ⟨name, rest, rfl, rfl⟩)
  | _ => cases h

/-- Does a place end at an element of an array? -/
def Place.isElement (p : Place) : Bool := p.getLast?.any Step.isElement

theorem Place.isElement_cons {s : Step} {p : Place} (h : p ≠ []) :
    Place.isElement (s :: p) = p.isElement := by
  unfold Place.isElement
  rw [List.getLast?_cons, List.getLast?_eq_some_getLast h]
  rfl

theorem Place.ne_nil_of_isElement {p : Place} (h : p.isElement = true) : p ≠ [] := by
  rintro rfl
  cases h

/-- The elements below a value are still elements when the value is given to an operator. -/
theorem exists_position_argument {v node : Value} {p : Place} (hp : p.isElement = true)
    (hn : PositionAt v p node) (name : String) (rest : List (String × Value)) :
    ∃ p : Place, p.isElement = true ∧ PositionAt (.obj ((name, v) :: rest)) p node := by
  by_cases hv : v.kind = .array
  · cases v with
    | arr items =>
      cases hn with
      | here => cases hp
      | @down _ c _ s p _ hs hn =>
        obtain ⟨⟨i, rfl⟩, -⟩ := eq_of_mem_zipIdx_map hs
        refine ⟨.argument name i :: p, ?_, .down rfl (mem_steps_argument hs name rest) hn⟩
        cases p with
        | nil => rfl
        | cons t p =>
          rw [Place.isElement_cons (List.cons_ne_nil t p)] at hp ⊢
          exact hp
    | _ => cases hv
  · refine ⟨.bare name :: p, ?_, .down rfl ?_ hn⟩
    · rw [Place.isElement_cons (Place.ne_nil_of_isElement hp), hp]
    · rw [steps_of_not_array hv]
      exact List.mem_singleton_self _

/-- The rule in the hole is at a rule position, and an element of an array there. -/
theorem RuleContext.exists_position (C : RuleContext) (X : Value) :
    ∃ p : Place, p.isElement = true ∧ PositionAt (C.fill X) p X := by
  induction C with
  | element before after =>
    exact ⟨[.item before.length], rfl, .down rfl (mem_steps_append ..) .here⟩
  | item before inner after ih =>
    obtain ⟨p, hp, hn⟩ := ih
    refine ⟨.item before.length :: p, ?_, .down rfl (mem_steps_append ..) hn⟩
    rw [Place.isElement_cons (Place.ne_nil_of_isElement hp), hp]
  | argument name inner rest ih =>
    obtain ⟨p, hp, hn⟩ := ih
    exact exists_position_argument hp hn name rest

/-- Every element at a rule position is the hole of a context. -/
theorem exists_fill_of_position {rule X : Value} {p : Place} (hp : p.isElement = true)
    (hn : PositionAt rule p X) : ∃ C : RuleContext, C.fill X = rule := by
  induction hn with
  | here => cases hp
  | @down v c X s p _ hs hn ih =>
    -- the hole is the part itself, or further inside it
    have hinner : (c = X ∧ s.isElement = true) ∨ ∃ C : RuleContext, C.fill X = c := by
      cases hn with
      | here => exact .inl ⟨rfl, hp⟩
      | @down _ _ _ t p =>
        rw [Place.isElement_cons (List.cons_ne_nil t p)] at hp
        exact .inr (ih hp)
    obtain ⟨before, after, rfl⟩ | ⟨name, before, after, rest, rfl⟩ | ⟨name, rest, rfl, hbare⟩ :=
      cases_of_mem_steps hs
    · obtain ⟨rfl, _⟩ | ⟨C, rfl⟩ := hinner
      · exact ⟨.element before after, rfl⟩
      · exact ⟨.item before C after, rfl⟩
    · obtain ⟨rfl, _⟩ | ⟨C, rfl⟩ := hinner
      · exact ⟨.argument name (.element before after) rest, rfl⟩
      · exact ⟨.argument name (.item before C after) rest, rfl⟩
    · obtain ⟨_, helement⟩ | ⟨C, rfl⟩ := hinner
      · exact absurd helement (hbare ▸ Bool.false_ne_true)
      · exact ⟨.argument name C rest, rfl⟩

/-- Contexts are the rules with a hole at an element of an array at a rule position. -/
theorem exists_fill_iff {rule X : Value} :
    (∃ C : RuleContext, C.fill X = rule) ↔
      ∃ p : Place, p.isElement = true ∧ PositionAt rule p X := by
  constructor
  · rintro ⟨C, rfl⟩
    exact C.exists_position X
  · rintro ⟨p, hp, hn⟩
    exact exists_fill_of_position hp hn

/-! ## Agreement in a context -/

/-- The outcomes of two rules are related on all data. -/
def Congruence.Agree (R : Congruence) (r : Registry) (X Y : Value) : Prop :=
  ∀ data, R.Rel (eval r X data) (eval r Y data)

namespace Congruence

variable {R : Congruence} (hr : ∀ {α : Type} (x : Outcome α), R.Rel x x) {r : Registry}

theorem forall₂_meanings {rules rules' : List Value} (h : List.Forall₂ (R.Agree r) rules rules') :
    List.Forall₂ (fun m m' => ∀ data, R.Rel (m data) (m' data)) (rules.map (eval r))
      (rules'.map (eval r)) := by
  rw [List.forall₂_map_left_iff, List.forall₂_map_right_iff]
  exact h

theorem agree_arr {items items' : List Value} (h : List.Forall₂ (R.Agree r) items items') :
    R.Agree r (.arr items) (.arr items') := by
  intro data
  rw [eval_eq_compose, eval_eq_compose]
  have hdata := (forall₂_meanings h).imp fun m m' hm => hm data
  exact R.bind (R.evalEach hdata) fun vs _ _ => R.pure (Value.arr vs)

include hr

theorem agree_obj {v v' : Value} (h : List.Forall₂ (R.Agree r) (argumentsOf v) (argumentsOf v'))
    (name : String) (rest : List (String × Value)) :
    R.Agree r (.obj ((name, v) :: rest)) (.obj ((name, v') :: rest)) := by
  intro data
  rw [eval_rule, eval_rule]
  exact R.dispatch (fun x _ => hr x) (fun _ => forall₂_meanings h) data

/-- Lists that differ in one rule only. -/
theorem forall₂_agree {X Y : Value} (h : R.Agree r X Y) (before after : List Value) :
    List.Forall₂ (R.Agree r) (before ++ X :: after) (before ++ Y :: after) := by
  have hrefl (rules : List Value) : List.Forall₂ (R.Agree r) rules rules :=
    List.forall₂_same.2 fun _ _ _ => hr _
  exact List.rel_append (hrefl before) (.cons h (hrefl after))

/-- Rules that agree still do so in a context, and what they become as the value of an operator
has arguments that agree. -/
theorem agree_fill {X Y : Value} (h : R.Agree r X Y) (C : RuleContext) :
    R.Agree r (C.fill X) (C.fill Y) ∧
      List.Forall₂ (R.Agree r) (argumentsOf (C.fill X)) (argumentsOf (C.fill Y)) := by
  induction C with
  | element before after =>
    have hitems := forall₂_agree hr h before after
    exact ⟨agree_arr hitems, hitems⟩
  | item before inner after ih =>
    have hitems := forall₂_agree hr ih.1 before after
    exact ⟨agree_arr hitems, hitems⟩
  | argument name inner rest ih =>
    have hrule := agree_obj hr ih.2 name rest
    exact ⟨hrule, .cons hrule .nil⟩

end Congruence

/-! ## Results and logs -/

/-- Logging a rule's value does not change its result. -/
theorem result_log (r : Registry) (X data : Value) :
    (eval r (.obj [("log", .arr [X])]) data).result = (eval r X data).result := by
  have hlog : eval r (.obj [("log", .arr [X])]) data =
      evalEach data [eval r X] >>= Operator.log.apply data := by
    rw [eval_rule]
    exact congrFun (dispatch_name r .log [eval r X]) data
  cases h : (eval r X data).result with
  | error e =>
    have heach : (evalEach data [eval r X]).result = .error e :=
      Outcome.bind_result_error_iff.2 (.inl h)
    rw [hlog, Outcome.bind_error heach]
  | ok v =>
    have heach : (evalEach data [eval r X]).result = .ok [v] :=
      Outcome.bind_result_ok_iff.2 ⟨v, h, rfl⟩
    rw [hlog, Outcome.bind_ok heach]
    rfl

/-- **Evaluation is compositional.**  Rules with the same result on all data have the same result
in every context, and if they log the same as well, so do the filled contexts.  So logging an
element of an array never changes the result. -/
theorem eval_fill_congr (r : Registry) (C : RuleContext) (X Y : Value) :
    ((∀ data, (eval r X data).result = (eval r Y data).result) →
      ∀ data, (eval r (C.fill X) data).result = (eval r (C.fill Y) data).result) ∧
    ((∀ data, (eval r X data).result = (eval r Y data).result ∧
        (eval r X data).log = (eval r Y data).log) →
      ∀ data, (eval r (C.fill X) data).result = (eval r (C.fill Y) data).result ∧
        (eval r (C.fill X) data).log = (eval r (C.fill Y) data).log) ∧
    ∀ data, (eval r (C.fill (.obj [("log", .arr [X])])) data).result =
      (eval r (C.fill X) data).result := by
  have hresult {X Y : Value} (h : ∀ data, (eval r X data).result = (eval r Y data).result) :
      ∀ data, (eval r (C.fill X) data).result = (eval r (C.fill Y) data).result :=
    (Congruence.agree_fill (R := .sameResult) (fun _ => rfl) h C).1
  refine ⟨hresult, fun h data => ?_, hresult (result_log r X)⟩
  have hXY : Congruence.same.Agree r X Y := fun data => Outcome.ext (h data).2 (h data).1
  have hfill : eval r (C.fill X) data = eval r (C.fill Y) data :=
    (Congruence.agree_fill (fun _ => rfl) hXY C).1 data
  exact ⟨congrArg Outcome.result hfill, congrArg Outcome.log hfill⟩

theorem eval_fill_congr_map_body :
    let r := Registry.empty
    let C : RuleContext := .argument "map" (.element [.arr [.null, .str "a"]] []) []
    let X := Value.obj [("!!", .arr [.bool true])]
    let Y := Value.bool true
    (∀ data, (eval r X data).result = (eval r Y data).result ∧
        (eval r X data).log = (eval r Y data).log) ∧
      (∀ data, (eval r (C.fill X) data).result = (eval r (C.fill Y) data).result) ∧
      ∀ data, (eval r (C.fill X) data).result = (eval r (C.fill Y) data).result ∧
        (eval r (C.fill X) data).log = (eval r (C.fill Y) data).log := by
  intro r C X Y
  have hXY : ∀ data, (eval r X data).result = (eval r Y data).result ∧
      (eval r X data).log = (eval r Y data).log := fun _ => ⟨rfl, rfl⟩
  obtain ⟨hresult, hboth, _⟩ := eval_fill_congr r C X Y
  exact ⟨hXY, hresult fun data => (hXY data).1, hboth hXY⟩

end RuleLogic
