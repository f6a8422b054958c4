import RuleLogic.Proofs.EagerOrder
import RuleLogic.Proofs.Provenance
import RuleLogic.Proofs.RoundingOrder

/-!
# Normal forms of numbers

Arithmetic gives numbers in normal form: what is an integer of 64 signed bits is held as one, and
only other numbers are held as doubles.  So every value has one form at most, and no result is the
negative zero.  The numbers that stay as they are when they are read as doubles and written again
are those that are normal and have the value of a double, and so all results of arithmetic are.

    (ofDouble x).value = x.value ∧ (ofDouble x).IsNormal         (value_ofDouble, isNormal_ofDouble)
    ofDouble a.toDouble = a ↔ a.IsNormal ∧ a.IsDouble              (ofDouble_toDouble_eq_self_iff)
    an operator calculates w → w is normal and casts to itself              (arithmetic_is_normal)
-/

namespace RuleLogic

/-! ## Doubles of one value -/

namespace Double

variable {x y : Double}

/-- A value that is not zero is that of one double only. -/
theorem eq_of_units_eq (h : x.units = y.units) (hne : x.units ≠ 0) : x = y := by
  obtain ⟨xneg, xmag, _, _⟩ := x
  obtain ⟨yneg, ymag, _, _⟩ := y
  simp only [units] at h hne
  cases xneg <;> cases yneg <;> simp at h hne ⊢ <;> omega

/-- The count of a double is rounded to a double of its value. -/
theorem exists_ofUnits?_units (x : Double) : ∃ y, ofUnits? x.units 1 = some y ∧
    y.units = x.units := by
  have hr : roundMagnitude x.units.natAbs 1 = x.units.natAbs := by
    rw [natAbs_units, roundMagnitude_magnitude]
  have hlt : roundMagnitude x.units.natAbs 1 < limit := by
    rw [hr, natAbs_units]
    exact x.magnitude_lt
  exact ⟨_, dif_pos hlt, units_eq rfl hr⟩

end Double

/-! ## Normal forms -/

namespace Number

variable {a b : Number} {x y : Double}

/-- The numbers in normal form: the integers of 64 signed bits, and the doubles whose value is none
of them. -/
def IsNormal : Number → Prop
  | .int n _ => -2 ^ 63 ≤ n ∧ n < 2 ^ 63
  | .double x => ∀ n : Int, x.value = n → n < -2 ^ 63 ∨ 2 ^ 63 ≤ n

theorem ofDouble_eq_int {n : Int} (hx : x.value = n) (h : -2 ^ 63 ≤ n ∧ n < 2 ^ 63)
    (hr : minInteger ≤ n ∧ n ≤ maxInteger) : ofDouble x = .int n hr := by
  rw [ofDouble, Double.toInt?_eq_some_iff.2 hx]
  exact dif_pos h

theorem ofDouble_eq_double (h : ∀ n : Int, x.value = n → n < -2 ^ 63 ∨ 2 ^ 63 ≤ n) :
    ofDouble x = .double x := by
  unfold ofDouble
  split
  · next n hn =>
    have hout := h n (Double.toInt?_eq_some_iff.1 hn)
    rw [dif_neg (by omega)]
  · rfl

/-- A double is written as the integer that it is, if this is in the range, or else as itself. -/
theorem ofDouble_cases (x : Double) :
    (∃ n hr, x.value = (n : Int) ∧ (-2 ^ 63 ≤ n ∧ n < 2 ^ 63) ∧ ofDouble x = .int n hr) ∨
      (Number.double x).IsNormal ∧ ofDouble x = .double x := by
  by_cases h : ∃ n : Int, x.value = n ∧ -2 ^ 63 ≤ n ∧ n < 2 ^ 63
  · obtain ⟨n, hx, hn⟩ := h
    have hr : minInteger ≤ n ∧ n ≤ maxInteger := by
      simp only [minInteger, maxInteger]
      omega
    exact .inl ⟨n, hr, hx, hn, ofDouble_eq_int hx hn hr⟩
  · have hnormal : (Number.double x).IsNormal := by
      intro n hx
      by_contra hin
      exact h ⟨n, hx, by omega⟩
    exact .inr ⟨hnormal, ofDouble_eq_double hnormal⟩

theorem value_ofDouble (x : Double) : (ofDouble x).value = x.value := by
  rcases ofDouble_cases x with ⟨n, hr, hx, -, heq⟩ | ⟨-, heq⟩
  · rw [heq, hx]
    rfl
  · rw [heq]
    rfl

theorem isNormal_ofDouble (x : Double) : (ofDouble x).IsNormal := by
  rcases ofDouble_cases x with ⟨n, hr, -, hn, heq⟩ | ⟨hnormal, heq⟩
  · rw [heq]
    exact hn
  · rwa [heq]

theorem isDouble_ofDouble (x : Double) : (ofDouble x).IsDouble :=
  ⟨x, (value_ofDouble x).symm⟩

/-- The negative zero is not normal, since zero is an integer in the range. -/
theorem IsNormal.ne_negative_zero (h : a.IsNormal) : a ≠ .double (.zero true) := by
  rintro rfl
  have hout := h 0 (Double.value_zero true)
  omega

/-- Numbers in normal form are equal if their values are. -/
theorem IsNormal.eq_of_value_eq (ha : a.IsNormal) (hb : b.IsNormal) (h : a.value = b.value) :
    a = b := by
  cases a with
  | int n hn =>
    cases b with
    | int m hm =>
      obtain rfl : n = m := Int.cast_injective h
      rfl
    | double y =>
      have hin : -2 ^ 63 ≤ n ∧ n < 2 ^ 63 := ha
      have hout := hb n h.symm
      omega
  | double x =>
    cases b with
    | int m hm =>
      have hin : -2 ^ 63 ≤ m ∧ m < 2 ^ 63 := hb
      have hout := ha m h
      omega
    | double y =>
      have hunits : x.units = y.units := Double.value_eq_iff.1 h
      have hne : x.units ≠ 0 := by
        intro hzero
        have hout := ha 0 (Double.value_eq_intCast_iff.2 (by rw [hzero, Int.zero_mul]))
        omega
      rw [Double.eq_of_units_eq hunits hne]

/-- Doubles of one value are written alike. -/
theorem ofDouble_congr (h : x.units = y.units) : ofDouble x = ofDouble y := by
  refine (isNormal_ofDouble x).eq_of_value_eq (isNormal_ofDouble y) ?_
  rw [value_ofDouble, value_ofDouble, Double.value_eq_iff, h]

/-- What stays as it is when it is read as a double and written again. -/
theorem ofDouble_toDouble_eq_self_iff : ofDouble a.toDouble = a ↔ a.IsNormal ∧ a.IsDouble := by
  constructor
  · intro h
    rw [← h]
    exact ⟨isNormal_ofDouble _, isDouble_ofDouble _⟩
  · rintro ⟨hn, hd⟩
    refine (isNormal_ofDouble _).eq_of_value_eq hn ?_
    rw [value_ofDouble, value_toDouble hd]

end Number

/-! ## Results of arithmetic -/

section
variable {op : Operator} {data : Value} {values : List Value}

namespace Operator.Calculates

theorem strategy_eq (h : op.Calculates) : op.strategy = .eager := by
  cases h <;> rfl

theorem apply_eq (h : op.Calculates) :
    op.apply data values = .ofResult (op.compute data values) := by
  cases h <;> rfl

/-- Whatever the operands are, a result is a double that is written. -/
theorem eval_written (h : op.Calculates) {r : Registry} {v : Value} {rest : List (String × Value)} :
    Gives Value.IsWritten (eval r (.obj ((op.name, v) :: rest)) data).result := by
  intro w hw
  obtain ⟨-, values, -, hbody⟩ := (Registry.Runs.builtin h.strategy_eq).exists_values hw
  rw [h.apply_eq] at hbody
  exact h.compute_written w hbody

end Operator.Calculates

end

/-! ## One operand -/

/-- The operators that only read their operand as a number, if there is but one. -/
inductive Operator.Casts : Operator → Prop
  | add : Casts .add
  | max : Casts .max
  | min : Casts .min

/-- A sum of one number is the number, since nothing is rounded. -/
theorem result_sum_single {op : Operator} (x : Double) :
    Arithmetic.result op (Arithmetic.fold Double.add? (.zero false) [x]) =
      .ok (.num (.ofDouble x)) := by
  obtain ⟨y, hy, hunits⟩ := Double.exists_ofUnits?_units x
  have hsum : Arithmetic.fold Double.add? (.zero false) [x] = some y := by
    rw [Arithmetic.fold, List.foldlM_cons, Double.add?, Double.units_zero, Int.zero_add, hy]
    rfl
  rw [hsum, Arithmetic.result, Number.ofDouble_congr hunits]

/-- Casting a number reads it as a double and writes this. -/
theorem Operator.Casts.answer_eq {r : Registry} {data P : Value} {op : Operator} {a : Number}
    (h : op.Casts) (hP : (eval r P data).result = .ok (.num a)) :
    answer r data op [P] = .ok (.num (.ofDouble a.toDouble)) := by
  have hvalues : EvaluateTo r data [P] [.num a] := .cons hP .nil
  cases h with
  | add =>
    rw [answer_eq_apply rfl rfl hvalues]
    exact result_sum_single a.toDouble
  | max | min =>
    rw [answer_eq_apply rfl rfl hvalues]
    rfl

/-- **Arithmetic gives normal forms.**  Whenever one of the seven operators succeeds, its result is
an integer of 64 signed bits, or a double whose value is none of these; it is not the negative zero.
Casting the result, or casting in the rule that gives it, gives it again. -/
theorem arithmetic_is_normal (r : Registry) (data v w : Value) (rest : List (String × Value))
    {op : Operator} (hop : op.Calculates)
    (hw : (eval r (.obj ((op.name, v) :: rest)) data).result = .ok w) :
    ∃ a : Number, w = .num a ∧ a.IsNormal ∧ a ≠ .double (.zero true) ∧
      answer r data .add [w] = .ok w ∧
      answer r data .add [.obj ((op.name, v) :: rest)] = .ok w := by
  obtain ⟨x, rfl⟩ := hop.eval_written w hw
  have hself : Number.ofDouble (Number.ofDouble x).toDouble = .ofDouble x :=
    Number.ofDouble_toDouble_eq_self_iff.2
      ⟨Number.isNormal_ofDouble x, Number.isDouble_ofDouble x⟩
  have hnormal := Number.isNormal_ofDouble x
  refine ⟨.ofDouble x, rfl, hnormal, hnormal.ne_negative_zero, ?_, ?_⟩
  · have hliteral : (eval r (.num (.ofDouble x)) data).result = .ok (.num (.ofDouble x)) :=
      congrArg Outcome.result (eval_literal rfl)
    rw [Operator.Casts.add.answer_eq hliteral, hself]
  · rw [Operator.Casts.add.answer_eq hw, hself]

/-- The largest integer and one make the double `2 ^ 63`; zero is negated to the integer zero. -/
theorem arithmetic_is_normal_at_limits :
    let limit := Value.num (.double (.ofInt (2 ^ 63)))
    let zero := Value.num (.int 0 (by decide))
    let sum := [Value.num (.int 9223372036854775807 (by decide)), .num (.int 1 (by decide))]
    (answer .empty .null .add sum = .ok limit ∧ answer .empty .null .add [limit] = .ok limit) ∧
      answer .empty .null .sub [zero] = .ok zero ∧ answer .empty .null .add [zero] = .ok zero := by
  intro limit zero sum
  have hsum : answer .empty .null .add sum = .ok limit := by decide +kernel
  have hneg : answer .empty .null .sub [zero] = .ok zero := by decide +kernel
  obtain ⟨_, -, -, -, hlimit, -⟩ := arithmetic_is_normal _ _ _ _ _ .add hsum
  obtain ⟨_, -, -, -, hzero, -⟩ := arithmetic_is_normal _ _ _ _ _ .sub hneg
  exact ⟨⟨hsum, hlimit⟩, hneg, hzero⟩

end RuleLogic
