import RuleLogic.Proofs.NumericCast

/-!
# The largest and the smallest operand

`max` and `min` read every operand as a number and carry one of the readings along the list, which
none of the readings passed is ahead of.  So they fail only on an operand that holds no number, and
otherwise give the value of one operand that bounds all of them.  Two readings that bound each other
differ in the sign of a zero at most, which a result does not show; so the order of the operands
does not matter.

    rest.foldl pick x ∈ x :: rest, and none of x :: rest is ahead of it              (foldl_pick)
    operands op values = the readings, or the first operand without one  (operands_of_firstUnread?)
    {max: rules} fails ↔ some operand holds no number                  (extremes_bound_operands)
-/

namespace RuleLogic

open Arithmetic

/-! ## Readings -/

/-- The first value that holds no number. -/
def Value.firstUnread? (values : List Value) : Option Value :=
  values.find? fun v => v.toNumber?.isNone

section
variable {op : Operator} {values : List Value}

theorem firstUnread?_eq_none_iff :
    Value.firstUnread? values = none ↔ ∀ v ∈ values, ∃ x, v.toNumber? = some x := by
  simp [Value.firstUnread?, Option.ne_none_iff_exists']

/-- Where every operand holds a number, the operands are read as these numbers. -/
theorem operands_of_read (h : ∀ v ∈ values, ∃ x, v.toNumber? = some x) :
    operands op values = .ok (values.filterMap Value.toNumber?) := by
  induction values with
  | nil => rfl
  | cons v rest ih =>
    obtain ⟨x, hx⟩ := h v List.mem_cons_self
    have hrest := ih fun u hu => h u (List.mem_cons_of_mem v hu)
    rw [operands, operand, hx, hrest, List.filterMap_cons_some hx]
    rfl

/-- The first operand that holds no number is refused. -/
theorem operands_of_firstUnread? {v : Value} (h : Value.firstUnread? values = some v) :
    operands op values = .error (.notANumber op.name v) := by
  induction values with
  | nil => cases h
  | cons u rest ih =>
    cases hu : u.toNumber? with
    | none =>
      have huv : u = v := by simpa [Value.firstUnread?, hu] using h
      rw [← huv, operands, operand, hu]
      rfl
    | some x =>
      have hrest : Value.firstUnread? rest = some v := by
        simpa [Value.firstUnread?, hu] using h
      rw [operands, operand, hu, ih hrest]
      rfl

end

/-! ## Picking -/

/-- The operators that pick one of their operands, how they pick one of two numbers, and which
numbers they pick before which. -/
inductive Operator.Picks :
    Operator → (Double → Double → Double) → (Double → Double → Prop) → Prop
  | max : Picks .max Double.max fun x y => y ≤ x
  | min : Picks .min Double.min fun x y => x ≤ y

namespace Operator.Picks

variable {op : Operator} {pick : Double → Double → Double} {ahead : Double → Double → Prop}
  {x y z : Double}

theorem ahead_refl (h : op.Picks pick ahead) (x : Double) : ahead x x := by
  cases h <;> exact Int.le_refl x.units

theorem ahead_trans (h : op.Picks pick ahead) (hxy : ahead x y) (hyz : ahead y z) : ahead x z := by
  cases h <;> simp only [Double.le_iff] at hxy hyz ⊢ <;> omega

/-- Numbers that are ahead of one another have one value. -/
theorem units_eq (h : op.Picks pick ahead) (hxy : ahead x y) (hyx : ahead y x) :
    x.units = y.units := by
  cases h <;> simp only [Double.le_iff] at hxy hyx <;> omega

/-- Of two numbers of one value both are ahead of the same numbers. -/
theorem ahead_congr (h : op.Picks pick ahead) (hxy : x.units = y.units) (hyz : ahead y z) :
    ahead x z := by
  cases h <;> simp only [Double.le_iff] at hyz ⊢ <;> omega

/-- One of two numbers is picked, and neither is ahead of it. -/
theorem pick_cases (h : op.Picks pick ahead) (x y : Double) :
    (pick x y = x ∨ pick x y = y) ∧ ahead (pick x y) x ∧ ahead (pick x y) y := by
  cases h <;> simp only [Double.max, Double.min, Double.le_iff] <;> split <;> simp <;> omega

/-- What is carried along a list is one of its numbers, and none of them is ahead of it. -/
theorem foldl_pick (h : op.Picks pick ahead) (x : Double) (rest : List Double) :
    rest.foldl pick x ∈ x :: rest ∧ ∀ y ∈ x :: rest, ahead (rest.foldl pick x) y := by
  induction rest generalizing x with
  | nil => simp [h.ahead_refl]
  | cons y rest ih =>
    obtain ⟨hkept, hx, hy⟩ := h.pick_cases x y
    obtain ⟨hmem, hahead⟩ := ih (pick x y)
    have hbest := hahead (pick x y) List.mem_cons_self
    rw [List.foldl_cons]
    constructor
    · rcases List.mem_cons.1 hmem with hfirst | hlater
      · rw [hfirst]
        rcases hkept with hk | hk <;> simp [hk]
      · simp [hlater]
    · intro z hz
      rcases List.mem_cons.1 hz with rfl | hz
      · exact h.ahead_trans hbest hx
      · rcases List.mem_cons.1 hz with rfl | hz
        · exact h.ahead_trans hbest hy
        · exact hahead z (List.mem_cons_of_mem _ hz)

end Operator.Picks

/-! ## Answers -/

section
variable {r : Registry} {data : Value} {op : Operator} {pick : Double → Double → Double}
  {ahead : Double → Double → Prop} {rules values : List Value}

theorem exists_extreme (h : op.Picks pick ahead) {xs : List Double} (hne : xs ≠ []) :
    ∃ x ∈ xs, extreme pick xs = some x ∧ ∀ y ∈ xs, ahead x y := by
  cases xs with
  | nil => exact absurd rfl hne
  | cons x rest =>
    obtain ⟨hmem, hahead⟩ := h.foldl_pick x rest
    exact ⟨_, hmem, rfl, hahead⟩

theorem answer_pick (h : op.Picks pick ahead) (hne : values ≠ [])
    (hv : EvaluateTo r data rules values) : answer r data op rules =
      (do result op (extreme pick (← operands op values)) : Except EvalError Value) := by
  have hs : op.strategy = .eager := by cases h <;> rfl
  have harity : op.arity = .atLeast 1 := by cases h <;> rfl
  have hn : op.arity.accepts values.length = true := by
    rw [harity]
    exact Arity.accepts_atLeast.2 (List.length_pos_iff.2 hne)
  rw [answer_eq_apply hs hn hv]
  cases h <;> rfl

theorem answer_pick_of_firstUnread? (h : op.Picks pick ahead) (hne : values ≠ [])
    (hv : EvaluateTo r data rules values) {v : Value} (hu : Value.firstUnread? values = some v) :
    answer r data op rules = .error (.notANumber op.name v) := by
  rw [answer_pick h hne hv, operands_of_firstUnread? hu]
  rfl

/-- A reading of one of the values that no reading of the others is ahead of. -/
structure IsExtreme (ahead : Double → Double → Prop) (values : List Value) (x : Double) : Prop where
  read : ∃ v ∈ values, v.toNumber? = some x
  bounds : ∀ v ∈ values, ∃ y, v.toNumber? = some y ∧ ahead x y

theorem IsExtreme.perm {values' : List Value} {x : Double} (hx : IsExtreme ahead values x)
    (hp : values'.Perm values) : IsExtreme ahead values' x := by
  obtain ⟨v, hvalue, hv⟩ := hx.read
  exact ⟨⟨v, hp.mem_iff.2 hvalue, hv⟩, fun u hu => hx.bounds u (hp.mem_iff.1 hu)⟩

theorem IsExtreme.ahead_of {x y : Double} (hx : IsExtreme ahead values x)
    (hy : IsExtreme ahead values y) : ahead x y := by
  obtain ⟨v, hvalue, hv⟩ := hy.read
  obtain ⟨z, hz, hxz⟩ := hx.bounds v hvalue
  have hyz : y = z := Option.some.inj (hv.symm.trans hz)
  rwa [hyz]

/-- Two such readings differ in the sign of a zero at most, and are written alike. -/
theorem IsExtreme.ofDouble_eq (h : op.Picks pick ahead) {x y : Double}
    (hx : IsExtreme ahead values x) (hy : IsExtreme ahead values y) :
    Number.ofDouble x = Number.ofDouble y :=
  Number.ofDouble_congr (h.units_eq (hx.ahead_of hy) (hy.ahead_of hx))

theorem exists_answer_pick (h : op.Picks pick ahead) (hne : values ≠ [])
    (hv : EvaluateTo r data rules values) (hread : Value.firstUnread? values = none) :
    ∃ x, IsExtreme ahead values x ∧ answer r data op rules = .ok (.num (.ofDouble x)) := by
  rw [firstUnread?_eq_none_iff] at hread
  have hxne : values.filterMap Value.toNumber? ≠ [] := by
    obtain ⟨v, hvalue⟩ := List.exists_mem_of_ne_nil values hne
    obtain ⟨x, hx⟩ := hread v hvalue
    exact List.ne_nil_of_mem (List.mem_filterMap.2 ⟨v, hvalue, hx⟩)
  obtain ⟨x, hx, hextreme, hahead⟩ := exists_extreme h hxne
  refine ⟨x, ⟨List.mem_filterMap.1 hx, ?_⟩, ?_⟩
  · intro v hvalue
    obtain ⟨y, hy⟩ := hread v hvalue
    exact ⟨y, hy, hahead y (List.mem_filterMap.2 ⟨v, hvalue, hy⟩)⟩
  · rw [answer_pick h hne hv, operands_of_read hread]
    show result op (extreme pick (values.filterMap Value.toNumber?)) = _
    rw [hextreme]
    rfl

end

/-- **`max` and `min` bound their operands.**  Either operator fails exactly if one of its operands
holds no number, and then refuses the first of these.  Otherwise it gives a number whose value is
that of one operand and bounds the values of all of them, and it gives the same number for the
operands in any order. -/
theorem extremes_bound_operands (r : Registry) (data : Value) {op : Operator}
    {pick : Double → Double → Double} {ahead : Double → Double → Prop} (h : op.Picks pick ahead)
    {rules values : List Value} (hne : values ≠ []) (hv : EvaluateTo r data rules values) :
    (∀ e, answer r data op rules = .error e ↔
      ∃ v, Value.firstUnread? values = some v ∧ e = .notANumber op.name v) ∧
    ((∀ v ∈ values, ∃ x, v.toNumber? = some x) →
      ∃ a : Number, answer r data op rules = .ok (.num a) ∧
        (∃ v ∈ values, ∃ x, v.toNumber? = some x ∧ a.toDouble.value = x.value) ∧
        (∀ v ∈ values, ∃ x, v.toNumber? = some x ∧ ahead a.toDouble x) ∧
        ∀ rules' values', EvaluateTo r data rules' values' → values'.Perm values →
          answer r data op rules' = .ok (.num a)) := by
  constructor
  · intro e
    cases hu : Value.firstUnread? values with
    | none =>
      obtain ⟨x, -, hanswer⟩ := exists_answer_pick h hne hv hu
      simp [hanswer]
    | some v =>
      rw [answer_pick_of_firstUnread? h hne hv hu]
      simp [eq_comm]
  · intro hread
    have hnone := firstUnread?_eq_none_iff.2 hread
    obtain ⟨x, hx, hanswer⟩ := exists_answer_pick h hne hv hnone
    have hunits := Number.units_toDouble_ofDouble x
    refine ⟨.ofDouble x, hanswer, ?_, ?_, ?_⟩
    · obtain ⟨v, hvalue, hvx⟩ := hx.read
      exact ⟨v, hvalue, x, hvx, Double.value_eq_iff.2 hunits⟩
    · intro v hvalue
      obtain ⟨y, hy, hxy⟩ := hx.bounds v hvalue
      exact ⟨y, hy, h.ahead_congr hunits hxy⟩
    · intro rules' values' hv' hp
      have hne' : values' ≠ [] := by
        intro hnil
        rw [hnil] at hp
        exact hne hp.nil_eq.symm
      have hnone' : Value.firstUnread? values' = none := by
        rw [firstUnread?_eq_none_iff]
        intro v hvalue
        exact hread v (hp.mem_iff.1 hvalue)
      obtain ⟨y, hy, hanswer'⟩ := exists_answer_pick h hne' hv' hnone'
      rw [hanswer', hy.ofDouble_eq h (hx.perm hp)]

/-- Numbers in a text, a boolean, `null` and the negative zero in both orders, and two operands that
hold no number. -/
theorem extremes_bound_operands_mixed :
    let values := [Value.str " 1.250 ", .bool true, .null, .num (.double (.zero true))]
    let unread := [Value.bool true, .arr [], .str "inf"]
    let largest := Value.num (.double ⟨false, 5 * 2 ^ 1072, by decide +kernel, by decide +kernel⟩)
    let zero := Value.num (.int 0 (by decide))
    (answer .empty .null .max values = .ok largest ∧
      answer .empty .null .max values.reverse = .ok largest) ∧
      (answer .empty .null .min values = .ok zero ∧
        answer .empty .null .min values.reverse = .ok zero) ∧
      answer .empty .null .max unread = .error (.notANumber "max" (.arr [])) := by
  intro values unread largest zero
  have hv : EvaluateTo .empty .null values values :=
    .cons rfl (.cons rfl (.cons rfl (.cons rfl .nil)))
  have hreversed : EvaluateTo .empty .null values.reverse values.reverse :=
    .cons rfl (.cons rfl (.cons rfl (.cons rfl .nil)))
  have hread : ∀ v ∈ values, ∃ x, v.toNumber? = some x := by
    rw [← firstUnread?_eq_none_iff]
    decide +kernel
  have hmax : answer .empty .null .max values = .ok largest := by decide +kernel
  have hmin : answer .empty .null .min values = .ok zero := by decide +kernel
  refine ⟨⟨hmax, ?_⟩, ⟨hmin, ?_⟩, ?_⟩
  · obtain ⟨-, hbest⟩ := extremes_bound_operands .empty .null .max (List.cons_ne_nil _ _) hv
    obtain ⟨a, ha, -, -, hperm⟩ := hbest hread
    rw [hperm _ _ hreversed (List.reverse_perm values), ← ha, hmax]
  · obtain ⟨-, hbest⟩ := extremes_bound_operands .empty .null .min (List.cons_ne_nil _ _) hv
    obtain ⟨a, ha, -, -, hperm⟩ := hbest hread
    rw [hperm _ _ hreversed (List.reverse_perm values), ← ha, hmin]
  · have hunread : EvaluateTo .empty .null unread unread :=
      .cons rfl (.cons rfl (.cons rfl .nil))
    obtain ⟨hfails, -⟩ := extremes_bound_operands .empty .null .max (List.cons_ne_nil _ _) hunread
    exact (hfails _).2 ⟨.arr [], by decide +kernel, rfl⟩

end RuleLogic
