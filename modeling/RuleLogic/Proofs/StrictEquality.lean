import RuleLogic.Proofs.EagerOrder
import RuleLogic.Proofs.NumberValue
import RuleLogic.Proofs.Sameness

/-!
# Strict equality

Strict equality compares two numbers through their nearest doubles and everything else by
structure.  So it is equality of value except where two values share their nearest double, which
takes an integer beyond `2 ^ 53` that is no double.  Inside arrays and objects the structure of
numbers counts too: one integer, or two doubles of one value.

    strictEq a b ↔ a.value = b.value      unless a and b collide          (strictEq_num_iff_value)
    strictEq (.arr xs) (.arr ys) ↔ strictly equal, and alike, at every index
                                                                          (strictEq_composite_iff)
-/

namespace RuleLogic

/-! ## Collisions -/

namespace Number

variable {a b : Number}

/-- Two numbers collide when their values differ and have one nearest double. -/
def Collides (a b : Number) : Prop :=
  a.value ≠ b.value ∧ a.toDouble.value = b.toDouble.value

instance (a b : Number) : Decidable (a.Collides b) := inferInstanceAs (Decidable (_ ∧ _))

theorem Collides.symm (h : a.Collides b) : b.Collides a := ⟨h.1.symm, h.2.symm⟩

theorem sameValue_iff_value_of_not_collides (h : ¬ a.Collides b) :
    a.sameValue b = true ↔ a.value = b.value := by
  rw [sameValue_iff]
  refine ⟨fun hd => ?_, toDouble_value_congr⟩
  by_contra hne
  exact h ⟨hne, hd⟩

theorem Collides.not_isDouble (h : a.Collides b) : ¬ (a.IsDouble ∧ b.IsDouble) := by
  rintro ⟨ha, hb⟩
  refine h.1 ?_
  rw [← value_toDouble ha, ← value_toDouble hb, h.2]

/-- Below `2 ^ 53` a number shares its nearest double with nothing else. -/
theorem Collides.two_pow_le (h : a.Collides b) : 2 ^ 53 ≤ |a.value| := by
  by_contra hlt
  have ha : a.IsDouble := isDouble_of_abs_le (le_of_not_ge hlt)
  -- a larger `b` would not be rounded to below `2 ^ 53`
  have hb : |b.value| ≤ 2 ^ 53 := by
    by_contra hgt
    have hle := two_pow_le_abs_toDouble (le_of_not_ge hgt)
    rw [← h.2, value_toDouble ha] at hle
    exact hlt hle
  exact h.not_isDouble ⟨ha, isDouble_of_abs_le hb⟩

/-- A number that is no double collides with its nearest double. -/
theorem collides_toDouble (h : ¬ a.IsDouble) : a.Collides (.double a.toDouble) :=
  ⟨fun heq => h (isDouble_iff.2 heq.symm), rfl⟩

end Number

/-! ## Kinds -/

namespace Value

variable {v w : Value}

theorem strictEq_eq_same_of_left (h : v.kind ≠ .number) : v.strictEq w = v.same w := by
  cases v with
  | num n => exact absurd rfl h
  | _ => rfl

theorem strictEq_eq_same_of_right (h : w.kind ≠ .number) : v.strictEq w = v.same w := by
  cases w with
  | num n => exact absurd rfl h
  | _ => cases v <;> rfl

theorem kind_eq_of_strictEq (h : v.strictEq w = true) : v.kind = w.kind := by
  by_cases hv : v.kind = .number
  · by_cases hw : w.kind = .number
    · exact hv.trans hw.symm
    · exact kind_eq_of_same (strictEq_eq_same_of_right hw ▸ h)
  · exact kind_eq_of_same (strictEq_eq_same_of_left hv ▸ h)

theorem exists_num_of_kind (h : v.kind = .number) : ∃ n, v = .num n := by
  cases v with
  | num n => exact ⟨n, rfl⟩
  | _ => cases h

end Value

/-! ## Numbers -/

section
variable {r : Registry} {data P Q p q : Value}

/-- An eager operator runs on the values of its two arguments. -/
theorem result_eval_pair (op : Operator) (hs : op.strategy = .eager)
    (hn : op.arity.accepts 2 = true) (hP : (eval r P data).result = .ok p)
    (hQ : (eval r Q data).result = .ok q) :
    (eval r (.obj [(op.name, .arr [P, Q])]) data).result = (op.apply data [p, q]).result :=
  answer_eq_apply hs hn (.cons hP (.cons hQ .nil))

end

/-- A number strictly equals the items that are numbers of its value, if it collides with none. -/
theorem any_strictEq_num_iff {a : Number} {items : List Value}
    (h : ∀ b, Value.num b ∈ items → ¬ a.Collides b) :
    (items.any fun item => item.strictEq (.num a)) = true ↔
      ∃ b, Value.num b ∈ items ∧ a.value = b.value := by
  rw [List.any_eq_true]
  constructor
  · rintro ⟨item, hi, heq⟩
    obtain ⟨b, rfl⟩ := Value.exists_num_of_kind (Value.kind_eq_of_strictEq heq)
    have hc : ¬ b.Collides a := fun hc => h b hi hc.symm
    exact ⟨b, hi, ((Number.sameValue_iff_value_of_not_collides hc).1 heq).symm⟩
  · rintro ⟨b, hi, heq⟩
    have hc : ¬ b.Collides a := fun hc => h b hi hc.symm
    exact ⟨.num b, hi, (Number.sameValue_iff_value_of_not_collides hc).2 heq.symm⟩

/-- **Equality of numbers is equality of value, up to collisions.**  Two numbers collide only when
one of them is no double and both are at least `2 ^ 53` in size, and every number that is no double
collides with one.  Where nothing collides `===`, `!==` and `in` compare values. -/
theorem strictEq_num_iff_value (r : Registry) (data P Q : Value) (a b : Number)
    (items : List Value) :
    (((Value.num a).strictEq (.num b) = true ↔ a.value = b.value) ↔ ¬ a.Collides b) ∧
    (a.Collides b → ¬ (a.IsDouble ∧ b.IsDouble) ∧ 2 ^ 53 ≤ |a.value| ∧ 2 ^ 53 ≤ |b.value|) ∧
    (¬ a.IsDouble → a.Collides (.double a.toDouble)) ∧
    ((eval r P data).result = .ok (.num a) → (eval r Q data).result = .ok (.num b) →
      ¬ a.Collides b →
        (eval r (.obj [("===", .arr [P, Q])]) data).result =
            .ok (.bool (decide (a.value = b.value))) ∧
          (eval r (.obj [("!==", .arr [P, Q])]) data).result =
            .ok (.bool (decide (a.value ≠ b.value)))) ∧
    ((eval r P data).result = .ok (.num a) → (eval r Q data).result = .ok (.arr items) →
      (∀ b, Value.num b ∈ items → ¬ a.Collides b) →
        ∃ found, (eval r (.obj [("in", .arr [P, Q])]) data).result = .ok (.bool found) ∧
          (found = true ↔ ∃ b, Value.num b ∈ items ∧ a.value = b.value)) := by
  refine ⟨⟨?_, Number.sameValue_iff_value_of_not_collides⟩, ?_, Number.collides_toDouble, ?_, ?_⟩
  · rintro heq ⟨hne, hd⟩
    exact hne (heq.1 (Number.sameValue_iff.2 hd))
  · intro h
    exact ⟨h.not_isDouble, h.two_pow_le, h.symm.two_pow_le⟩
  · intro hP hQ h
    have heq : (Value.num a).strictEq (.num b) = decide (a.value = b.value) := by
      rw [Bool.eq_iff_iff, decide_eq_true_eq]
      exact Number.sameValue_iff_value_of_not_collides h
    constructor
    · rw [← heq]
      exact result_eval_pair .strictEq rfl rfl hP hQ
    · rw [decide_not, ← heq]
      exact result_eval_pair .strictNe rfl rfl hP hQ
  · intro hP hQ h
    exact ⟨_, result_eval_pair .elem rfl rfl hP hQ, any_strictEq_num_iff h⟩

theorem strictEq_num_iff_value_one :
    let a : Number := .int 1 (by decide)
    let b : Number := .double (.ofInt 1)
    let items := [Value.str "1", .num b]
    ¬ a.Collides b ∧ ((Value.num a).strictEq (.num b) = true ↔ a.value = b.value) ∧
      a.value = b.value ∧
      (eval .empty (.obj [("===", .arr [.num a, .num b])]) .null).result = .ok (.bool true) ∧
      ∃ found, (eval .empty (.obj [("in", .arr [.num a, .arr items])]) .null).result =
        .ok (.bool found) ∧ (found = true ↔ ∃ c, Value.num c ∈ items ∧ a.value = c.value) := by
  intro a b items
  have hab : ¬ a.Collides b := by decide +kernel
  have hvalue : a.value = b.value := by decide +kernel
  have hitems : ∀ c, Value.num c ∈ items → ¬ a.Collides c := by
    intro c hc
    simp only [items, List.mem_cons, List.not_mem_nil, or_false, reduceCtorEq, false_or,
      Value.num.injEq] at hc
    exact hc ▸ hab
  obtain ⟨hiff, -, -, heq, -⟩ :=
    strictEq_num_iff_value .empty .null (.num a) (.num b) a b items
  obtain ⟨-, -, -, -, hin⟩ :=
    strictEq_num_iff_value .empty .null (.num a) (.arr items) a b items
  refine ⟨hab, hiff.2 hab, hvalue, ?_, hin rfl rfl hitems⟩
  rw [(heq rfl rfl hab).1, decide_eq_true hvalue]

/-- Two integers that are not equal, and what the operators make of them. -/
theorem strictEq_confuses_integers :
    let a : Number := .int 9007199254740992 (by decide)
    let b : Number := .int 9007199254740993 (by decide)
    let answer (rule : Value) := (eval .empty rule .null).result.toOption
    a.value ≠ b.value ∧ (Value.num a).strictEq (.num b) = true ∧
      answer (.obj [("===", .arr [.num a, .num b])]) = some (.bool true) ∧
      answer (.obj [("!==", .arr [.num a, .num b])]) = some (.bool false) ∧
      answer (.obj [("in", .arr [.num a, .arr [.num b]])]) = some (.bool true) ∧
      answer (.obj [("===", .arr [.arr [.num a], .arr [.num b]])]) = some (.bool false) := by
  intro a b answer
  have hvalue : a.value ≠ b.value := by decide +kernel
  exact ⟨hvalue, by decide +kernel, by decide +kernel, by decide +kernel, by decide +kernel,
    by decide +kernel⟩

/-! ## Arrays and objects -/

/-- Do two numbers have one structure: one integer, or two doubles? -/
def Number.alike : Number → Number → Bool
  | .int n _, .int m _ => n == m
  | .double _, .double _ => true
  | _, _ => false

/-- Do two values that are both numbers have one structure? -/
def Value.alike : Value → Value → Bool
  | .num a, .num b => a.alike b
  | _, _ => true

theorem Number.same_eq (a b : Number) : a.same b = (a.sameValue b && a.alike b) := by
  cases a with
  | int n _ =>
    cases b with
    | int m _ =>
      by_cases h : n = m
      · have hd := toDouble_value_congr (a := .int n ‹_›) (b := .int m ‹_›) (congrArg Int.cast h)
        rw [same, alike, sameValue_iff.2 hd, Bool.true_and]
      · rw [same, alike, beq_false_of_ne h, Bool.and_false]
    | double y => exact (Bool.and_false _).symm
  | double x =>
    cases b with
    | int m _ => exact (Bool.and_false _).symm
    | double y => exact (Bool.and_true _).symm

namespace Value

variable {v w : Value}

theorem alike_of_left (h : v.kind ≠ .number) : v.alike w = true := by
  cases v with
  | num n => exact absurd rfl h
  | _ => rfl

theorem alike_of_right (h : w.kind ≠ .number) : v.alike w = true := by
  cases w with
  | num n => exact absurd rfl h
  | _ => cases v <;> rfl

/-- What structural equality asks of two values beyond strict equality. -/
theorem same_eq (v w : Value) : v.same w = (v.strictEq w && v.alike w) := by
  by_cases hv : v.kind = .number
  · by_cases hw : w.kind = .number
    · obtain ⟨a, rfl⟩ := exists_num_of_kind hv
      obtain ⟨b, rfl⟩ := exists_num_of_kind hw
      exact Number.same_eq a b
    · rw [strictEq_eq_same_of_right hw, alike_of_right hw, Bool.and_true]
  · rw [strictEq_eq_same_of_left hv, alike_of_left hv, Bool.and_true]

theorem same_iff : v.same w = true ↔ v.strictEq w = true ∧ v.alike w = true := by
  rw [same_eq, Bool.and_eq_true]

end Value

/-- **Composites are compared by structure.**  Arrays are strictly equal exactly when they are as
long with strictly equal items at every index, and these items are alike; objects exactly when they
have the same keys with strictly equal values under each, and these values are alike. -/
theorem strictEq_composite_iff (xs ys : List Value) (es fs : List (String × Value))
    (hes : (es.map Prod.fst).Nodup) (hfs : (fs.map Prod.fst).Nodup) :
    ((Value.arr xs).strictEq (.arr ys) = true ↔
      List.Forall₂ (fun x y => x.strictEq y = true) xs ys ∧
        List.Forall₂ (fun x y => x.alike y = true) xs ys) ∧
    ((Value.obj es).strictEq (.obj fs) = true ↔
      (∀ key, Option.Rel (fun x y => x.strictEq y = true)
        (Value.find? key es) (Value.find? key fs)) ∧
      ∀ key, Option.Rel (fun x y => x.alike y = true)
        (Value.find? key es) (Value.find? key fs)) := by
  have harr : (Value.arr xs).strictEq (.arr ys) = (Value.arr xs).same (.arr ys) :=
    Value.strictEq_eq_same_of_left nofun
  have hobj : (Value.obj es).strictEq (.obj fs) = (Value.obj es).same (.obj fs) :=
    Value.strictEq_eq_same_of_left nofun
  rw [harr, hobj, Value.same_arr_iff, Value.same_obj_iff hes hfs]
  simp only [Value.same_iff, Value.forall₂_and_iff, Value.rel_and_iff, forall_and, and_self]

theorem strictEq_composite_iff_reordered :
    let one := Value.num (.double (.ofInt 1))
    let whole := Value.num (.int 1 (by decide))
    let es := [("a", one), ("b", .arr [whole])]
    (es.map Prod.fst).Nodup ∧ (es.reverse.map Prod.fst).Nodup ∧
      (Value.arr [one, whole]).strictEq (.arr [one, whole]) = true ∧
      (Value.obj es).strictEq (.obj es.reverse) = true := by
  intro one whole es
  have hes : (es.map Prod.fst).Nodup := by decide +kernel
  have hfs : (es.reverse.map Prod.fst).Nodup := by decide +kernel
  have hsame : ∀ x ∈ (Value.obj es).held, x.strictEq x = true ∧ x.alike x = true := by
    decide +kernel
  have hfind (key : String) : Value.find? key es.reverse = Value.find? key es :=
    Value.find?_eq_of_perm (List.reverse_perm es) hfs
  have hrel {R : Value → Value → Prop} (hR : ∀ x ∈ (Value.obj es).held, R x x) (key : String) :
      Option.Rel R (Value.find? key es) (Value.find? key es.reverse) := by
    rw [hfind]
    cases hx : Value.find? key es with
    | none => exact .none
    | some x => exact .some (hR x (Value.mem_held_of_find? hx))
  obtain ⟨harr, hobj⟩ :=
    strictEq_composite_iff [one, whole] [one, whole] es es.reverse hes hfs
  refine ⟨hes, hfs, harr.2 ⟨?_, ?_⟩, hobj.2 ⟨?_, ?_⟩⟩
  · exact .cons (by decide +kernel) (.cons (by decide +kernel) .nil)
  · exact .cons (by decide +kernel) (.cons (by decide +kernel) .nil)
  · exact hrel fun x hx => (hsame x hx).1
  · exact hrel fun x hx => (hsame x hx).2

/-- Two numbers of one value, alone and inside an array and an object. -/
theorem strictEq_separates_number_forms :
    let one := Value.num (.double (.ofInt 1))
    let whole := Value.num (.int 1 (by decide))
    List.Forall₂ (fun x y => x.strictEq y = true) [whole] [one] ∧
      (Value.arr [whole]).strictEq (.arr [one]) = false ∧
      (∀ key, Option.Rel (fun x y => x.strictEq y = true)
        (Value.find? key [("a", whole)]) (Value.find? key [("a", one)])) ∧
      (Value.obj [("a", whole)]).strictEq (.obj [("a", one)]) = false := by
  intro one whole
  have htop : whole.strictEq one = true := by decide +kernel
  refine ⟨.cons htop .nil, by decide +kernel, fun key => ?_, by decide +kernel⟩
  simp only [Value.find?]
  split
  · exact .some htop
  · exact .none

end RuleLogic
