import RuleLogic.Proofs.IntegerText
import RuleLogic.Proofs.LooseOrder
import RuleLogic.Proofs.Membership
import RuleLogic.Proofs.NumberText
import RuleLogic.Proofs.RoundingOrder

/-!
# Numbers and their own texts

A string that holds the text of a number is read as a number by rules of its own: white space is
taken off, more numerals are accepted than in data, and an exponent is read only up to a limit.  The
text of a number is the text of a numeral without white space whose exponent is far below the limit.
So it is read as the nearest double to the number, the sign of a zero included, and the number is
loosely equal to its text and to itself in any number of arrays.

    n.WellFormed → read? n.text = n.toDouble?                             (NumericText.read?_text)
    read? a.plain = some a.toDouble                                            (Number.read?_plain)
-/

namespace RuleLogic

/-! ## Texts of numerals as numbers -/

namespace NumericText

theorem isWhiteSpace_of_isTextChar {c : Char} (h : Number.isTextChar c) :
    isWhiteSpace c = false := by
  rw [Number.isTextChar, Bool.or_eq_true] at h
  rcases h with hdigit | hmark
  · rw [Char.isDigit, Bool.and_eq_true, decide_eq_true_eq, decide_eq_true_eq] at hdigit
    have hlower : 48 ≤ c.toNat := hdigit.1
    have hupper : c.toNat ≤ 57 := hdigit.2
    simp [isWhiteSpace, whiteSpace]
    omega
  · have hmem : c ∈ ['+', '-', '.', 'e', 'E'] := by simpa using hmark
    simp only [List.mem_cons, List.not_mem_nil, or_false] at hmem
    rcases hmem with rfl | rfl | rfl | rfl | rfl <;> decide

theorem dropWhile_isWhiteSpace {text : List Char} (h : ∀ c ∈ text, isWhiteSpace c = false) :
    text.dropWhile isWhiteSpace = text := by
  cases text with
  | nil => rfl
  | cons c rest =>
    have hc := h c List.mem_cons_self
    exact List.dropWhile_cons_of_neg (by simp [hc])

/-- A text without white space is kept whole. -/
theorem trim_eq_self {text : List Char} (h : ∀ c ∈ text, isWhiteSpace c = false) :
    trim text = text := by
  have hback : ∀ c ∈ text.reverse, isWhiteSpace c = false := fun c hc =>
    h c (List.mem_reverse.1 hc)
  rw [trim, dropWhile_isWhiteSpace h, dropWhile_isWhiteSpace hback, List.reverse_reverse]

/-- A numeral is kept whole if its exponent is below the limit. -/
theorem cutExponent_eq_self {n : Numeral}
    (h : ∀ p ∈ n.exponent, Numeral.ofDigits p.2 < exponentLimit) : cutExponent n = n := by
  obtain ⟨sign, whole, fraction, exponent⟩ := n
  cases exponent with
  | none => rfl
  | some p =>
    have hdigits := digitsUpToLimit_eq_self p.2 0 (h p rfl)
    simp only [cutExponent, Option.map_some, hdigits]

/-- The text of a numeral is read as the value of the numeral. -/
theorem read?_text {n : Numeral} (hn : n.WellFormed) (hne : n.digits ≠ [])
    (h : ∀ p ∈ n.exponent, Numeral.ofDigits p.2 < exponentLimit) :
    read? n.text = n.toDouble? := by
  have htrim : trim n.text = n.text := trim_eq_self fun c hc =>
    isWhiteSpace_of_isTextChar (Number.isTextChar_of_wellFormed hn c hc)
  have hempty : n.digits.isEmpty = false := List.isEmpty_eq_false_iff.2 hne
  have htext : n.text ≠ [] := by
    intro hnil
    have hscan := Numeral.scan_text hn
    rw [hnil] at hscan
    -- the empty text is that of the numeral without digits
    cases hscan
    exact hne rfl
  rw [read?, htrim]
  split
  · contradiction
  · rw [Numeral.scan_text hn, Option.bind_some, hempty, cutExponent_eq_self h,
      if_neg Bool.false_ne_true]

end NumericText

/-! ## Texts of numbers as numbers -/

namespace Double

/-- What a double holds is nearest to itself. -/
theorem nearest?_magnitude (x : Double) : nearest? x.negative x.magnitude 1 = some x := by
  have hround := roundMagnitude_magnitude x
  have hlt : roundMagnitude x.magnitude 1 < limit := by
    rw [hround]
    exact x.magnitude_lt
  rw [nearest?, dif_pos hlt]
  simp only [hround]

/-- Every integer of at most 64 bits has a nearest double. -/
theorem nearest?_integer {n : Int} (h : n.natAbs ≤ 2 ^ 64) :
    nearest? (decide (n < 0)) (n.natAbs * unitsPerOne) 1 = some (ofInt n) := by
  have hcount : n.natAbs * unitsPerOne ≤ 2 ^ (64 + fractionBits) * 1 := by
    rw [Nat.mul_one, Nat.pow_add, unitsPerOne_eq]
    exact Nat.mul_le_mul_right _ h
  have hlimit : 2 ^ (64 + fractionBits) < limit := by decide +kernel
  have hlt : roundMagnitude (n.natAbs * unitsPerOne) 1 < limit :=
    Nat.lt_of_le_of_lt (roundMagnitude_le_two_pow Nat.one_pos hcount) hlimit
  rw [ofInt_of_lt hlt, nearest?, dif_pos hlt]
  simp only [mul_unitsPerOne_neg_iff]

end Double

namespace Number

/-- A sign and the digits of a natural number are read as the nearest double of this sign. -/
theorem read?_whole (negative : Bool) (k : Nat) :
    NumericText.read? ((signText negative).toList ++ Nat.toDigits 10 k) =
      Double.nearest? negative (k * Double.unitsPerOne) 1 := by
  have hn := wellFormed_wholeNumeral negative k
  have hne : (wholeNumeral negative k).digits ≠ [] := by
    rw [digits_wholeNumeral]
    exact Nat.toDigits_ne_nil
  have hunits : Decimal.unitsNum ⟨k, 0⟩ = k * Double.unitsPerOne :=
    congrArg (· * Double.unitsPerOne) (Nat.mul_one k)
  rw [← text_wholeNumeral, NumericText.read?_text hn hne nofun,
    Numeral.toDouble?_eq_nearest? hn.digits, negative_wholeNumeral, decimal_wholeNumeral, hunits]
  rfl

/-- The text of a double in data is read as the double in strings as well. -/
theorem read?_text_double (x : Double) : NumericText.read? x.text = some x := by
  obtain ⟨n, ds, e, htext, hsign, hspells, he, hround⟩ := exists_spells_text x
  have hn := hspells.wellFormed
  have hne : n.digits ≠ [] := by
    intro hnil
    have hadmitted := hspells.admitted
    have hwhole : n.whole = [] := (List.append_eq_nil_iff.1 hnil).1
    simp [admits, hwhole] at hadmitted
  have hexponent : ∀ p ∈ n.exponent, Numeral.ofDigits p.2 < NumericText.exponentLimit := by
    intro p hp
    rw [hspells.exponent p hp]
    exact Nat.lt_of_le_of_lt he (by decide)
  rw [← htext, NumericText.read?_text hn hne hexponent]
  exact Numeral.toDouble?_eq_some hn.digits hsign (hspells.value.trans hround)

/-- The text of a number is read as the nearest double to the number. -/
theorem read?_plain (a : Number) : NumericText.read? a.plain = some a.toDouble := by
  cases a with
  | int n h =>
    have hn : n.natAbs ≤ 2 ^ 64 := by
      simp only [minInteger, maxInteger] at h
      omega
    rw [plain, text, integerText_eq, read?_whole]
    exact Double.nearest?_integer hn
  | double x =>
    rw [plain]
    split
    · next n hn =>
      split
      · -- a whole double is written as an integer, and keeps the sign of a zero
        have hmagnitude : n.natAbs * Double.unitsPerOne = x.magnitude := by
          rw [← Double.natAbs_units, Double.value_eq_intCast_iff.1 (Double.toInt?_eq_some_iff.1 hn),
            Int.natAbs_mul, Int.natAbs_natCast]
        have hsign : (if x.negative then ['-'] else []) = (signText x.negative).toList := by
          cases x.negative <;> rfl
        rw [hsign, read?_whole, hmagnitude]
        exact Double.nearest?_magnitude x
      · exact read?_text_double x
    · exact read?_text_double x

end Number

/-! ## Equal values -/

namespace Value

/-- A value in one-element arrays, as many as given. -/
def wrap (v : Value) : Nat → Value
  | 0 => v
  | k + 1 => .arr [v.wrap k]

variable {v w : Value} {a : Number}

/-- Arrays of one item have the text of the item. -/
@[simp] theorem plain_wrap (v : Value) (k : Nat) : (v.wrap k).plain = v.plain := by
  induction k with
  | zero => rfl
  | succ k ih =>
    rw [wrap, plain, plainItems]
    exact ih

/-- Arrays around a number do not change what is read. -/
theorem looseNumber?_wrap (a : Number) (k : Nat) :
    (wrap (.num a) k).looseNumber? = some a.toDouble := by
  cases k with
  | zero => rfl
  | succ k =>
    show NumericText.read? (wrap (.num a) (k + 1)).plain = _
    rw [plain_wrap]
    exact Number.read?_plain a

theorem looseNumber?_ownText (a : Number) :
    (Value.str (String.ofList a.plain)).looseNumber? = some a.toDouble := by
  show NumericText.read? (String.ofList a.plain).toList = _
  rw [String.toList_ofList]
  exact Number.read?_plain a

theorem kind_eq_null_iff : v.kind = .null ↔ v = .null := by
  cases v <;> simp [kind]

theorem commensurable_num (hv : v ≠ .null) :
    v.kind.Commensurable (Value.num a).kind ∧ (Value.num a).kind.Commensurable v.kind := by
  have hkind : v.kind ≠ .null := mt kind_eq_null_iff.1 hv
  have hnum : (Value.num a).kind = .number := rfl
  rw [hnum]
  exact ⟨⟨hkind, by decide, fun _ => .inr rfl, by simp⟩,
    ⟨by decide, hkind, by simp, fun _ => .inr rfl⟩⟩

/-- A value that is read as a number is loosely equal to this number. -/
theorem looseEq_num_of_looseNumber? (hv : v ≠ .null) (h : v.looseNumber? = some a.toDouble) :
    v.looseEq (.num a) = true ∧ (Value.num a).looseEq v = true := by
  have hsame : v.sameNumber (.num a) = true := by
    rw [sameNumber, h]
    exact Double.sameValue_iff.2 rfl
  obtain ⟨hleft, hright⟩ := commensurable_num (a := a) hv
  constructor
  · rw [looseEq_eq_sameNumber hleft (by simp [kind])]
    exact hsame
  · rw [looseEq_eq_sameNumber hright (by simp [kind]), sameNumber_comm]
    exact hsame

theorem looseEq_ownText (a : Number) : (Value.str (String.ofList a.plain)).looseEq (.num a) = true ∧
    (Value.num a).looseEq (.str (String.ofList a.plain)) = true :=
  looseEq_num_of_looseNumber? (by simp) (looseNumber?_ownText a)

theorem looseEq_wrap (a : Number) (k : Nat) : (wrap (.num a) k).looseEq (.num a) = true ∧
    (Value.num a).looseEq (.wrap (.num a) k) = true := by
  refine looseEq_num_of_looseNumber? ?_ (looseNumber?_wrap a k)
  cases k <;> simp [wrap]

end Value

/-! ## Equal operands -/

section
variable {r : Registry} {data P Q v w : Value} {a : Number}

theorem eval_wrap (hP : (eval r P data).result = .ok v) (k : Nat) :
    (eval r (P.wrap k) data).result = .ok (v.wrap k) := by
  induction k with
  | zero => exact hP
  | succ k ih =>
    have hitem : List.Forall₂ (fun m v => (m data).result = .ok v) [eval r (P.wrap k)] [v.wrap k] :=
      .cons ih .nil
    rw [Value.wrap, eval_arr, List.map_singleton, evalEach_eq_of_ok hitem, Outcome.bind_ok rfl]
    rfl

theorem answer_looseEq (hP : (eval r P data).result = .ok v)
    (hQ : (eval r Q data).result = .ok w) :
    answer r data .looseEq [P, Q] = .ok (.bool (v.looseEq w)) := by
  have hvalues : EvaluateTo r data [P, Q] [v, w] := .cons hP (.cons hQ .nil)
  rw [answer_eq_apply rfl rfl hvalues]
  rfl

/-- `cat` of one operand gives its text. -/
theorem answer_cat_one (hP : (eval r P data).result = .ok v) :
    answer r data .cat [P] = .ok (.str (String.ofList v.plain)) := by
  have hvalues : EvaluateTo r data [P] [v] := .cons hP .nil
  rw [Operator.Joins.cat.answer_eq (List.cons_ne_nil v []) hvalues, Text.join, List.flatMap_cons,
    List.flatMap_nil, List.append_nil]

end

/-- **A number equals its own text.**  The text of every number is read as the nearest double to the
number.  So the number is loosely equal to its text and to itself in any number of arrays with
nothing else in them, on either side, and `==` on a rule that gives the number and on the rule's
text, taken from within as many arrays, is true. -/
theorem numbers_equal_own_texts :
    (∀ a : Number, NumericText.read? a.plain = some a.toDouble) ∧
    (∀ a : Number, (Value.num a).looseEq (.str (String.ofList a.plain)) = true ∧
      (Value.str (String.ofList a.plain)).looseEq (.num a) = true) ∧
    (∀ (a : Number) (k : Nat), (Value.wrap (.num a) k).looseEq (.num a) = true ∧
      (Value.num a).looseEq (.wrap (.num a) k) = true) ∧
    ∀ (r : Registry) (data P : Value) (a : Number), (eval r P data).result = .ok (.num a) →
      ∀ k : Nat, let A := P.wrap k
        (answer r data .looseEq [A, P] = .ok (.bool true) ∧
          answer r data .looseEq [P, A] = .ok (.bool true)) ∧
        answer r data .looseEq [P, .obj [("cat", .arr [A])]] = .ok (.bool true) ∧
        answer r data .looseEq [.obj [("cat", .arr [A])], P] = .ok (.bool true) := by
  refine ⟨Number.read?_plain, fun a => (Value.looseEq_ownText a).symm, Value.looseEq_wrap, ?_⟩
  intro r data P a hP k A
  have hA : (eval r A data).result = .ok (.wrap (.num a) k) := eval_wrap hP k
  have hcat : (eval r (.obj [("cat", .arr [A])]) data).result =
      .ok (.str (String.ofList a.plain)) := by
    rw [← Value.plain, ← Value.plain_wrap (.num a) k]
    exact answer_cat_one hA
  have hwrap := Value.looseEq_wrap a k
  have htext := Value.looseEq_ownText a
  refine ⟨⟨?_, ?_⟩, ?_, ?_⟩
  · rw [answer_looseEq hA hP, hwrap.1]
  · rw [answer_looseEq hP hA, hwrap.2]
  · rw [answer_looseEq hP hcat, htext.2]
  · rw [answer_looseEq hcat hP, htext.1]

/-- An integer that no double has the value of, and the negative zero in three arrays. -/
theorem numbers_equal_own_texts_rounded :
    let most := Value.num (.int 18446744073709551615 (by decide))
    let zero := Value.num (.double (.zero true))
    let data := Value.obj [("n", zero)]
    let P := Value.obj [("var", .str "n")]
    answer .empty most .looseEq [most, .obj [("cat", .arr [most])]] = .ok (.bool true) ∧
      most.looseEq (.str "18446744073709551615") = true ∧
      (eval .empty P data).result = .ok zero ∧ answer .empty data .cat [P] = .ok (.str "-0") ∧
      answer .empty data .looseEq [.obj [("cat", .arr [.arr [.arr [.arr [P]]]])], P] =
        .ok (.bool true) := by
  intro most zero data P
  obtain ⟨-, htext, -, hrules⟩ := numbers_equal_own_texts
  have hzero : (eval .empty P data).result = .ok zero := by decide +kernel
  exact ⟨(hrules .empty most most _ rfl 0).2.1, (htext _).1, hzero, by decide +kernel,
    (hrules .empty data P _ hzero 3).2.2⟩

end RuleLogic
