import RuleLogic.Proofs.EagerOrder
import RuleLogic.Proofs.NumberValue
import RuleLogic.Proofs.Segments

/-!
# The texts of integers

A number that denotes an integer below `10 ^ 21` in size is written as the decimal digits of the
integer, be it held as an integer or as a double.  Only the negative zero is not, as it keeps its
sign.  So numbers of one such value are interchangeable wherever their texts are taken, as operands
and as items of arrays, however deep, if none or each of them is the negative zero.

    a.value = n → (a.plain = toString n ↔ a ≠ -0.0)                (integers_have_one_text)
    v.Renumbered w → v.plain = w.plain                              (Value.Renumbered.plain_eq)
-/

namespace RuleLogic

/-! ## Doubles that are integers -/

namespace Double

variable {x : Double} {n : Int}

/-- A double has the sign of its count, but for the negative zero. -/
theorem negative_eq_decide (hz : x ≠ .zero true) : x.negative = decide (x.units < 0) := by
  obtain ⟨negative, magnitude, _, _⟩ := x
  cases negative with
  | false => exact (decide_eq_false (Int.not_lt.2 (Int.natCast_nonneg magnitude))).symm
  | true =>
    have hpos : 0 < magnitude := by
      refine Nat.pos_of_ne_zero fun hzero => hz ?_
      subst hzero
      rfl
    exact (decide_eq_true (Int.neg_neg_of_pos (Int.natCast_pos.2 hpos))).symm

theorem negative_eq (hx : x.value = n) (hz : x ≠ .zero true) : x.negative = decide (n < 0) := by
  rw [negative_eq_decide hz, value_eq_intCast_iff.1 hx, decide_eq_decide, mul_unitsPerOne_neg_iff]

end Double

/-! ## Numbers -/

namespace Number

variable {a b : Number} {n : Int}

theorem toList_toString_int (n : Int) : (toString n).toList = integerText n := by
  cases n with
  | ofNat m =>
    have hm : ¬Int.ofNat m < 0 := Int.not_lt.2 (Int.natCast_nonneg m)
    rw [integerText, if_neg hm]
    exact DataPath.toList_toString m
  | negSucc m =>
    rw [integerText, if_pos (Int.negSucc_lt_zero m)]
    show ("-" ++ toString (m + 1)).toList = _
    rw [String.toList_append, DataPath.toList_toString]
    rfl

/-- A number that denotes an integer is written as its digits, if it is not too large and not the
negative zero. -/
theorem plain_eq (ha : a.value = n) (hn : n.natAbs < 10 ^ 21) (hz : a ≠ .double (.zero true)) :
    a.plain = integerText n := by
  cases a with
  | int m _ =>
    obtain rfl : m = n := Int.cast_injective ha
    rfl
  | double x =>
    have hsign : x.negative = decide (n < 0) :=
      Double.negative_eq ha fun hx => hz (congrArg Number.double hx)
    have hlimit : n.natAbs < 1000000000000000000000 := hn
    simp only [plain, Double.toInt?_eq_some_iff.2 ha, if_pos hlimit, hsign, integerText]
    by_cases hlt : n < 0
    · simp only [hlt, decide_true, if_true, List.singleton_append]
    · simp only [hlt, decide_false, if_false, Bool.false_eq_true, List.nil_append]

theorem plain_negative_zero : (Number.double (.zero true)).plain = ['-', '0'] := by
  decide +kernel

theorem plain_congr (ha : a.value = n) (hb : b.value = n) (hn : n.natAbs < 10 ^ 21)
    (hz : a = .double (.zero true) ↔ b = .double (.zero true)) : a.plain = b.plain := by
  by_cases h : a = .double (.zero true)
  · rw [h, hz.1 h]
  · rw [plain_eq ha hn h, plain_eq hb hn (mt hz.2 h)]

end Number

/-! ## Values -/

/-- The values are the same but for the forms of integers below `10 ^ 21` in size, in arrays and not
in objects. -/
inductive Value.Renumbered : Value → Value → Prop
  | refl (v : Value) : Renumbered v v
  | num {a b : Number} {n : Int} (ha : a.value = n) (hb : b.value = n) (hn : n.natAbs < 10 ^ 21)
    (hz : a = .double (.zero true) ↔ b = .double (.zero true)) : Renumbered (.num a) (.num b)
  | arr {items items' : List Value} (h : List.Forall₂ Renumbered items items') :
    Renumbered (.arr items) (.arr items')

/-- `in` on a string looks for the text of the operand. -/
theorem answer_elem_str {r : Registry} {data P H v : Value} {s : String}
    (hP : (eval r P data).result = .ok v) (hH : (eval r H data).result = .ok (.str s)) :
    answer r data .elem [P, H] = .ok (.bool (Text.hasPart v.plain s.toList)) := by
  have hvalues : EvaluateTo r data [P, H] [v, .str s] := .cons hP (.cons hH .nil)
  rw [answer_eq_apply rfl rfl hvalues]
  rfl

namespace Value.Renumbered

variable {v w : Value}

theorem plainItems_eq {items items' : List Value}
    (h : List.Forall₂ (fun v w => v.plain = w.plain) items items') :
    plainItems items = plainItems items' := by
  induction h with
  | nil => rfl
  | cons hv hrest ih =>
    cases hrest with
    | nil => simp only [plainItems, hv]
    | cons _ _ => rw [plainItems, plainItems, hv, ih]

/-- The forms of the integers do not show in the text. -/
theorem plain_eq (h : v.Renumbered w) : v.plain = w.plain := by
  induction v using Value.rule_induction generalizing w with
  | h v ih =>
    cases h with
    | refl => rfl
    | num ha hb hn hz => exact Number.plain_congr ha hb hn hz
    | @arr items items' hitems =>
      have htexts : List.Forall₂ (fun v w => v.plain = w.plain) items items' :=
        List.forall₂_iff_zip.2 ⟨hitems.length_eq, fun {v w} hvw =>
          ih v (List.of_mem_zip hvw).1 ((List.forall₂_iff_zip.1 hitems).2 hvw)⟩
      exact plainItems_eq htexts

theorem varPath_eq (h : v.Renumbered w) (op : Operator) :
    Lookup.varPath op v = Lookup.varPath op w := by
  cases h with
  | refl => rfl
  | num ha hb hn hz =>
    exact congrArg (fun text => Except.ok (String.ofList text)) (Number.plain_congr ha hb hn hz)
  | arr _ => rfl

/-! ## Operands -/

variable {r : Registry} {data P Q : Value}

theorem answer_cat (h : v.Renumbered w) (hP : (eval r P data).result = .ok v)
    (hQ : (eval r Q data).result = .ok w) (front back : List Value) :
    answer r data .cat (front ++ P :: back) = answer r data .cat (front ++ Q :: back) := by
  refine answer_congr_operand rfl hP hQ fun us ws _ => ?_
  have hjoin : Text.join (us ++ v :: ws) = Text.join (us ++ w :: ws) := by
    simp only [Text.join, List.flatMap_append, List.flatMap_cons, h.plain_eq]
  exact congrArg Except.ok hjoin

theorem answer_elem (h : v.Renumbered w) (hP : (eval r P data).result = .ok v)
    (hQ : (eval r Q data).result = .ok w) {H : Value} {s : String}
    (hH : (eval r H data).result = .ok (.str s)) :
    answer r data .elem [P, H] = answer r data .elem [Q, H] := by
  rw [answer_elem_str hP hH, answer_elem_str hQ hH, h.plain_eq]

theorem answer_var (h : v.Renumbered w) (hP : (eval r P data).result = .ok v)
    (hQ : (eval r Q data).result = .ok w) (defaults : List Value) :
    answer r data .var (P :: defaults) = answer r data .var (Q :: defaults) := by
  show answer r data .var ([] ++ P :: defaults) = answer r data .var ([] ++ Q :: defaults)
  refine answer_congr_operand rfl hP hQ fun us ws hus => ?_
  obtain rfl := List.length_eq_zero_iff.1 hus
  show Lookup.var .var data (v :: ws) = Lookup.var .var data (w :: ws)
  simp only [Lookup.var, List.head?_cons, Option.getD_some, h.varPath_eq,
    List.getElem?_cons_succ]

end Value.Renumbered

/-! ## One text for each integer -/

/-- **Integers have one text.**  A number whose value is an integer below `10 ^ 21` in size is
written as the decimal digits of the integer exactly if it is not the negative zero, which is
written with its sign.  So values that differ in the forms of such integers alone, each negative
zero kept, have one text, arrays of them too, and are one operand to `cat`, to `in` on a string and
as the path of `var`. -/
theorem integers_have_one_text (r : Registry) (data : Value) :
    (∀ (a : Number) (n : Int), a.value = n → n.natAbs < 10 ^ 21 →
      (String.ofList a.plain = toString n ↔ a ≠ .double (.zero true)) ∧
        (a = .double (.zero true) → String.ofList a.plain = "-0")) ∧
    ∀ v w : Value, v.Renumbered w → v.plain = w.plain ∧
      ∀ P Q, (eval r P data).result = .ok v → (eval r Q data).result = .ok w →
        (∀ front back, answer r data .cat (front ++ P :: back) =
          answer r data .cat (front ++ Q :: back)) ∧
        (∀ H s, (eval r H data).result = .ok (.str s) →
          answer r data .elem [P, H] = answer r data .elem [Q, H]) ∧
        ∀ defaults, answer r data .var (P :: defaults) = answer r data .var (Q :: defaults) := by
  refine ⟨fun a n ha hn => ⟨⟨?_, fun hz => ?_⟩, ?_⟩, fun v w h => ⟨h.plain_eq, ?_⟩⟩
  · rintro htext rfl
    have hzero : n = 0 := Int.cast_eq_zero.1 (ha.symm.trans (Double.value_zero true))
    rw [hzero, Number.plain_negative_zero] at htext
    exact absurd htext (by decide)
  · rw [Number.plain_eq ha hn hz, ← Number.toList_toString_int, String.ofList_toList]
  · rintro rfl
    rw [Number.plain_negative_zero]
  · intro P Q hP hQ
    exact ⟨h.answer_cat hP hQ, fun H s hH => h.answer_elem hP hQ hH, h.answer_var hP hQ⟩

/-- `10 ^ 19` in both of its forms, by itself and in an array in an array. -/
theorem integers_have_one_text_nested :
    let a := Number.int 10000000000000000000 (by decide)
    let b := Number.double (.ofInt 10000000000000000000)
    let nested (c : Number) := Value.arr [.str "x", .arr [.num c]]
    String.ofList b.plain = "10000000000000000000" ∧
      answer .empty .null .cat [nested a] = .ok (.str "x,10000000000000000000") ∧
      answer .empty .null .cat [nested b] = .ok (.str "x,10000000000000000000") ∧
      answer .empty .null .elem [.num a, .str "1"] =
        answer .empty .null .elem [.num b, .str "1"] := by
  intro a b nested
  obtain ⟨htext, hsame⟩ := integers_have_one_text .empty .null
  have hb : b.value = (10000000000000000000 : Int) :=
    Double.value_eq_intCast_iff.2 (by decide +kernel)
  have hsize : (10000000000000000000 : Int).natAbs < 10 ^ 21 := by decide
  have hform : (Value.num a).Renumbered (.num b) :=
    .num (by rfl) hb hsize ⟨nofun, by decide +kernel⟩
  have hnested : (nested a).Renumbered (nested b) :=
    .arr (.cons (.refl _) (.cons (.arr (.cons hform .nil)) .nil))
  have hfirst : answer .empty .null .cat [nested a] = .ok (.str "x,10000000000000000000") := by
    decide +kernel
  have hcat := ((hsame _ _ hnested).2 (nested a) (nested b) rfl rfl).1 [] []
  have hsearch := ((hsame _ _ hform).2 (.num a) (.num b) rfl rfl).2.1 (.str "1") "1" rfl
  exact ⟨(htext b _ hb hsize).1.2 (by decide +kernel), hfirst, hcat.symm.trans hfirst, hsearch⟩

/-- Both zeros have the value zero, and only one of them is written as it. -/
theorem negative_zero_keeps_its_sign :
    let zero := Number.int 0 (by decide)
    let negative := Number.double (.zero true)
    (zero.value = (0 : Int) ∧ negative.value = (0 : Int)) ∧
      (answer .empty .null .cat [.num zero] = .ok (.str "0") ∧
        answer .empty .null .cat [.num negative] = .ok (.str "-0")) ∧
      (answer .empty .null .elem [.num zero, .str "0"] = .ok (.bool true) ∧
        answer .empty .null .elem [.num negative, .str "0"] = .ok (.bool false)) ∧
      answer .empty (.arr [.str "a"]) .var [.num zero] = .ok (.str "a") ∧
      answer .empty (.arr [.str "a"]) .var [.num negative] = .ok .null := by
  intro zero negative
  have hnegative : negative.value = (0 : Int) := Double.value_zero true
  have hfound : Text.hasPart (Value.num zero).plain "0".toList = true :=
    (Text.hasPart_iff _ _).2 (List.infix_refl ['0'])
  have hlost : Text.hasPart (Value.num negative).plain "0".toList = false := by
    rw [Value.plain, Number.plain_negative_zero, Bool.eq_false_iff, ne_eq, Text.hasPart_iff]
    exact fun hpart => absurd hpart.length_le (by decide)
  refine ⟨⟨rfl, hnegative⟩, by decide +kernel, ⟨?_, ?_⟩, by decide +kernel⟩
  · rw [answer_elem_str rfl rfl, hfound]
  · rw [answer_elem_str rfl rfl, hlost]

end RuleLogic
