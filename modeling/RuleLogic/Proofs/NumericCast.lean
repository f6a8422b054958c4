import RuleLogic.Proofs.Nearest
import RuleLogic.Proofs.NormalForm

/-!
# Numeric casts

One operand of `+`, `max` or `min` is read as a double and written again, and so is a number that is
negated twice.  Integers are kept by this if a double has their value, that is, if at most 53 of
their bits are significant, trailing zeros not counted.  The others come back as the nearest double,
which is another integer, and as the even one where two are equally near.

    b.IsRoundingOf n → c.IsRoundingOf n → b = c                       (Number.IsRoundingOf.unique)
    (∃ x, x.value = n) ↔ ∃ m t, |m| < 2 ^ 53 ∧ n = m * 2 ^ t         (Double.exists_value_eq_iff)
    {"+": [n]} = n ↔ n < 2 ^ 63 ∧ ∃ m t, |m| < 2 ^ 53 ∧ n = m * 2 ^ t        (cast_keeps_doubles)
-/

namespace RuleLogic

/-! ## The integers among the doubles -/

namespace Double

/-- The size of a double has at most 53 significant bits. -/
theorem exists_magnitude_eq (x : Double) :
    ∃ q t, q < 2 ^ 53 ∧ x.magnitude = q * 2 ^ t :=
  ⟨x.magnitude / spacing x.magnitude, x.magnitude.log2 - 52, div_spacing_lt x.magnitude,
    (Nat.div_mul_cancel x.spacing_dvd).symm⟩

/-- An integer is a double exactly if at most 53 of its bits are significant. -/
theorem exists_value_eq_iff {n : Int} (hlt : n.natAbs * unitsPerOne < limit) :
    (∃ x : Double, x.value = n) ↔ ∃ (m : Int) (t : Nat), m.natAbs < 2 ^ 53 ∧ n = m * 2 ^ t := by
  constructor
  · rintro ⟨x, hx⟩
    obtain ⟨q, t, hq, hmag⟩ := x.exists_magnitude_eq
    have hcount : n.natAbs * 2 ^ fractionBits = q * 2 ^ t := by
      rw [← hmag, ← natAbs_units, value_eq_intCast_iff.1 hx, Int.natAbs_mul, Int.natAbs_natCast,
        unitsPerOne_eq]
    rcases Nat.le_total fractionBits t with ht | ht
    · have hn : n.natAbs = q * 2 ^ (t - fractionBits) := by
        refine Nat.eq_of_mul_eq_mul_right (Nat.two_pow_pos fractionBits) ?_
        rw [hcount, Nat.mul_assoc, ← Nat.pow_add, Nat.sub_add_cancel ht]
      rcases Int.natAbs_eq_iff.1 hn with hsign | hsign
      · refine ⟨q, t - fractionBits, by rwa [Int.natAbs_natCast], ?_⟩
        rw [hsign, Int.natCast_mul, Int.natCast_pow]
        rfl
      · refine ⟨-q, t - fractionBits, by rwa [Int.natAbs_neg, Int.natAbs_natCast], ?_⟩
        rw [hsign, Int.natCast_mul, Int.natCast_pow, Int.neg_mul]
        rfl
    · -- then the integer itself is that small
      refine ⟨n, 0, ?_, (Int.mul_one n).symm⟩
      refine Nat.lt_of_mul_lt_mul_right (a := 2 ^ fractionBits) ?_
      calc n.natAbs * 2 ^ fractionBits = q * 2 ^ t := hcount
        _ ≤ q * 2 ^ fractionBits := Nat.mul_le_mul_left q (Nat.pow_le_pow_right (by decide) ht)
        _ < 2 ^ 53 * 2 ^ fractionBits := Nat.mul_lt_mul_of_pos_right hq (Nat.two_pow_pos _)
  · rintro ⟨m, t, hm, rfl⟩
    exact exists_value_eq_mul_two_pow (Nat.le_of_lt hm) hlt

end Double

namespace Number

variable {n : Int} {h : minInteger ≤ n ∧ n ≤ maxInteger}

theorem isDouble_int_iff :
    (Number.int n h).IsDouble ↔ ∃ (m : Int) (t : Nat), m.natAbs < 2 ^ 53 ∧ n = m * 2 ^ t := by
  have hlimit : 2 ^ 64 * Double.unitsPerOne < Double.limit := by decide +kernel
  have hn : n.natAbs ≤ 2 ^ 64 := by
    simp only [minInteger, maxInteger] at h
    omega
  exact Double.exists_value_eq_iff (Nat.lt_of_le_of_lt (Nat.mul_le_mul_right _ hn) hlimit)

/-- The integers that are read as doubles and written again as themselves. -/
theorem ofDouble_ofInt_eq_iff : ofDouble (.ofInt n) = .int n h ↔
    n < 2 ^ 63 ∧ ∃ (m : Int) (t : Nat), m.natAbs < 2 ^ 53 ∧ n = m * 2 ^ t := by
  show ofDouble (Number.int n h).toDouble = .int n h ↔ _
  rw [ofDouble_toDouble_eq_self_iff, isDouble_int_iff]
  exact and_congr_left fun _ => and_iff_right h.1

/-- The number that an integer is rounded to is a double in normal form, and no double is nearer to
the integer.  Where another one is as near, it is an even multiple of what the two are apart. -/
structure IsRoundingOf (b : Number) (n : Int) : Prop where
  normal : b.IsNormal
  double : b.IsDouble
  nearest : ∀ y : Double, |b.value - n| ≤ |y.value - n|
  even : ∀ y : Double, |y.value - n| = |b.value - n| → y.value ≠ b.value →
    ∃ k : Int, b.value = 2 * k * (b.value - y.value)

theorem isRoundingOf_ofInt (n : Int) : (ofDouble (.ofInt n)).IsRoundingOf n where
  normal := isNormal_ofDouble _
  double := isDouble_ofDouble _
  nearest y := by
    rw [value_ofDouble]
    exact Double.ofInt_nearest n y
  even y := by
    rw [value_ofDouble]
    exact Double.ofInt_tie

/-- An integer is rounded to one number only. -/
theorem IsRoundingOf.unique {b c : Number} (hb : b.IsRoundingOf n) (hc : c.IsRoundingOf n) :
    b = c := by
  refine hb.normal.eq_of_value_eq hc.normal ?_
  obtain ⟨x, hx⟩ := hb.double
  obtain ⟨y, hy⟩ := hc.double
  have hnear : |y.value - n| = |b.value - n| := by
    rw [hy]
    refine le_antisymm ?_ (by rw [← hy]; exact hb.nearest y)
    rw [← hx]
    exact hc.nearest x
  by_contra hne
  -- both would be even multiples of what they are apart, which is their difference
  obtain ⟨k, hk⟩ := hb.even y hnear (by rw [hy]; exact Ne.symm hne)
  obtain ⟨l, hl⟩ := hc.even x (by rw [hx, ← hnear, hy]) (by rwa [hx])
  rw [hy] at hk
  rw [hx] at hl
  have hone : (1 : ℚ) = (2 * (k + l) : Int) := by
    refine mul_right_cancel₀ (sub_ne_zero.2 hne) ?_
    calc 1 * (b.value - c.value) = b.value - c.value := one_mul _
      _ = 2 * k * (b.value - c.value) - 2 * l * (c.value - b.value) := by rw [← hk, ← hl]
      _ = (2 * (k + l) : Int) * (b.value - c.value) := by
        push_cast
        ring
  have hcast : (1 : Int) = 2 * (k + l) := by exact_mod_cast hone
  omega

/-- What is written and read again has the value that it had. -/
theorem units_toDouble_ofDouble (x : Double) : (ofDouble x).toDouble.units = x.units :=
  Double.value_eq_iff.1 ((value_toDouble (isDouble_ofDouble x)).trans (value_ofDouble x))

end Number

/-! ## Casts -/

section
variable {r : Registry} {data P : Value} {a : Number}

theorem answer_negate (hP : (eval r P data).result = .ok (.num a)) :
    answer r data .sub [P] = .ok (.num (.ofDouble a.toDouble.neg)) := by
  have hvalues : EvaluateTo r data [P] [.num a] := .cons hP .nil
  rw [answer_eq_apply rfl rfl hvalues]
  rfl

/-- Negating twice is a cast. -/
theorem answer_negate_negate (hP : (eval r P data).result = .ok (.num a)) :
    answer r data .sub [.obj [("-", .arr [P])]] = .ok (.num (.ofDouble a.toDouble)) := by
  have hunits : (Number.ofDouble a.toDouble.neg).toDouble.neg.units = a.toDouble.units := by
    rw [Double.units_neg, Number.units_toDouble_ofDouble, Double.units_neg, Int.neg_neg]
  rw [← Number.ofDouble_congr hunits]
  exact answer_negate (answer_negate hP)

end

/-- **Casts keep the integers that are doubles.**  A JSON integer that is the operand of `+`, `max`
or `min`, or is negated twice, gives the number that it is rounded to.  This is the integer itself
exactly if it has at most 53 significant bits and is below `2 ^ 63`. -/
theorem cast_keeps_doubles (r : Registry) (data P : Value) {n : Int}
    {h : minInteger ≤ n ∧ n ≤ maxInteger} (hP : (eval r P data).result = .ok (.num (.int n h))) :
    ∃ b : Number, (∀ op : Operator, op.Casts → answer r data op [P] = .ok (.num b)) ∧
      answer r data .sub [.obj [("-", .arr [P])]] = .ok (.num b) ∧
      (∀ c : Number, c.IsRoundingOf n ↔ c = b) ∧
      (b = .int n h ↔ n < 2 ^ 63 ∧ ∃ (m : Int) (t : Nat), m.natAbs < 2 ^ 53 ∧ n = m * 2 ^ t) := by
  refine ⟨.ofDouble (.ofInt n), fun op hop => hop.answer_eq hP, answer_negate_negate hP,
    fun c => ?_, Number.ofDouble_ofInt_eq_iff⟩
  have hrounds := Number.isRoundingOf_ofInt n
  constructor
  · exact fun hc => hc.unique hrounds
  · rintro rfl
    exact hrounds

/-- The least integer of 64 signed bits has one significant bit, and its negation is no such
integer.  `2 ^ 53 + 1` has 54 of them and is no double. -/
theorem cast_keeps_doubles_least :
    let least := Value.num (.int (-9223372036854775808) (by decide))
    let odd := Value.num (.int 9007199254740993 (by decide))
    let even := Number.int 9007199254740992 (by decide)
    (answer .empty .null .add [least] = .ok least ∧ answer .empty .null .max [least] = .ok least ∧
      answer .empty .null .min [least] = .ok least ∧
      answer .empty .null .sub [.obj [("-", .arr [least])]] = .ok least) ∧
    even.IsRoundingOf 9007199254740993 ∧ ¬ (Number.int 9007199254740993 (by decide)).IsDouble ∧
      answer .empty .null .max [odd] = .ok (.num even) ∧
      answer .empty .null .sub [.obj [("-", .arr [odd])]] = .ok (.num even) := by
  intro least odd even
  obtain ⟨b, hcast, hneg, -, hself⟩ := cast_keeps_doubles .empty .null least rfl
  obtain rfl : b = .int (-9223372036854775808) (by decide) :=
    hself.2 ⟨by decide, -1, 63, by decide, by decide⟩
  obtain ⟨c, hcast', hneg', hrounds, -⟩ := cast_keeps_doubles .empty .null odd rfl
  have hadd : answer .empty .null .add [odd] = .ok (.num even) := by decide +kernel
  obtain rfl : c = even := by
    have hsame := (hcast' .add .add).symm.trans hadd
    injection hsame with hvalue
    injection hvalue
  exact ⟨⟨hcast .add .add, hcast .max .max, hcast .min .min, hneg⟩, (hrounds _).2 rfl,
    by decide +kernel, hcast' .max .max, hneg'⟩

/-- `2 ^ 53 + 1` lies halfway between two doubles and becomes the even one. -/
theorem cast_changes_integers :
    let n := Value.num (.int 9007199254740993 (by decide))
    let m := Value.num (.int 9007199254740992 (by decide))
    n ≠ m ∧ answer .empty .null .add [n] = .ok m ∧ answer .empty .null .max [n] = .ok m ∧
      answer .empty .null .min [n] = .ok m ∧
      answer .empty .null .sub [.obj [("-", .arr [n])]] = .ok m := by
  decide +kernel

end RuleLogic
